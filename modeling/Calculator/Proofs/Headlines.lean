import Calculator.Proofs.Conversation
import Calculator.Proofs.Message
import Calculator.Proofs.Trim
/-!
# Proofs.Headlines — matching an output with its input

An answer begins with a line that does not start with a space, and goes on with lines that do (`Headed`): a message and
a result are one line, and in an outline only the root is not indented.  So the lines of an output that do not start
with a space are the first lines of the answers, one for each expression of the input (`Session.expressions`).

Such a line also tells whether there was an answer.  A result starts with an equals sign and a message with the name of
a stage; a message has a colon in it and an outline has none, since no lexeme contains one.
-/
namespace Calculator

/-- The line of a row without its newline. -/
def OutlineRow.text (row : OutlineRow) : List Char :=
  List.replicate (OutlineRow.indent * row.depth) ' ' ++ row.label.toList

/-- Lines of which the first alone does not start with a space. -/
def Headed (lines : List (List UInt8)) : Prop :=
  ∃ line body, lines = line :: body ∧ ¬ Text.encode " " <+: line ∧ ∀ l ∈ body, Text.encode " " <+: l

/-- The lines of headed answers that do not start with a space are the first lines of the answers. -/
theorem map_some_filter_flatten : ∀ {answers : List (List (List UInt8))}, (∀ a ∈ answers, Headed a) →
    (answers.flatten.filter (fun line => ¬ Text.encode " " <+: line)).map some = answers.map List.head?
  | [], _ => rfl
  | a :: answers, h => by
    rw [List.forall_mem_cons] at h
    obtain ⟨⟨line, body, rfl, hline, hbody⟩, h⟩ := h
    have hnone : body.filter (fun line => ¬ Text.encode " " <+: line) = [] :=
      List.filter_eq_nil_iff.2 (fun l hl => by simpa using hbody l hl)
    rw [List.flatten_cons, List.cons_append, List.filter_cons_of_pos (by simpa using hline), List.filter_append, hnone,
      List.nil_append, List.map_cons, map_some_filter_flatten h]
    rfl

namespace Text

theorem space_prefix_encode_iff {s : String} : encode " " <+: encode s ↔ s.toList.head? = some ' ' :=
  singleton_prefix_encode_iff (by decide) rfl

theorem equals_prefix_encode_iff {s : String} : encode "=" <+: encode s ↔ s.toList.head? = some '=' :=
  singleton_prefix_encode_iff (by decide) rfl

theorem colon_infix_encode_iff {s : String} : encode ":" <:+: encode s ↔ ':' ∈ s.toList :=
  (List.singleton_infix_iff _ _).trans (mem_encode_iff (by decide) rfl)

/-- One line is headed if it does not start with a space. -/
theorem headed_encode {s : String} (h : s.toList.head? ≠ some ' ') : Headed [encode s] :=
  ⟨_, [], rfl, mt space_prefix_encode_iff.1 h, fun _ hl => nomatch hl⟩

end Text

/-! ## Outlines -/

namespace Expr

theorem outline_eq_flatMap (e : Expr) :
    e.outline = String.ofList (((e.rows 0).map OutlineRow.text).flatMap (· ++ ['\n'])) := by
  rw [← String.toList_inj, toList_outline, String.toList_ofList, List.flatMap_map]
  refine List.flatMap_congr (fun row _ => ?_)
  rw [OutlineRow.toList_line, OutlineRow.text, List.append_assoc]

theorem exists_outline (e : Expr) : ∃ line, e.outline = line ++ "\n" := by
  have hne : e.rows 0 ≠ [] := by
    rw [rows_eq_cons]
    exact List.cons_ne_nil _ _
  obtain ⟨rows, row, hrows⟩ := List.eq_nil_or_concat (e.rows 0) |>.resolve_left hne
  refine ⟨String.ofList ((rows.map OutlineRow.text).flatMap (· ++ ['\n']) ++ row.text), ?_⟩
  rw [outline_eq_flatMap, hrows, ← String.toList_inj]
  simp

/-- Only the root is not indented. -/
theorem lt_depth_of_mem_rowsOfAll {depth : Nat} {es : List Expr} {row : OutlineRow}
    (h : row ∈ rowsOfAll (depth + 1) es) : depth < row.depth := by
  rw [rowsOfAll_eq_map_preorderFrom depth 0] at h
  obtain ⟨n, hn, rfl⟩ := List.mem_map.1 h
  obtain ⟨i, way, hway⟩ := mem_preorderFrom hn
  rw [Node.row, hway]
  exact Nat.lt_add_of_pos_right (Nat.succ_pos _)

namespace IsWritable

variable {e : Expr} (h : e.IsWritable)
include h

theorem mem_text {row : OutlineRow} (hrow : row ∈ e.rows 0) {c : Char} (hc : c ∈ row.text) :
    c.isAlphanum = true ∨ c = '.' ∨ c = ' ' := by
  rcases List.mem_append.1 hc with hc | hc
  · exact .inr (.inr (List.eq_of_mem_replicate hc))
  · exact (h.isLabel_of_mem_rows row hrow).mem hc

theorem lines_outline : Text.lines (Text.encode e.outline)
    = (e.rows 0).map (fun row => Text.encode (String.ofList row.text)) := by
  rw [outline_eq_flatMap, Text.lines_encode, List.map_map]
  · rfl
  · intro l hl
    obtain ⟨row, hrow, rfl⟩ := List.mem_map.1 hl
    intro hmem
    rcases h.mem_text hrow hmem with hc | hc | hc <;> cases hc

theorem headed_outline : Headed (Text.lines (Text.encode e.outline)) := by
  rw [h.lines_outline, rows_eq_cons, List.map_cons]
  refine ⟨_, _, rfl, fun hspace => ?_, fun l hl => ?_⟩
  · obtain ⟨c, cs, hlabel, hc⟩ := h.isLabel.exists_cons
    rw [Text.space_prefix_encode_iff, String.toList_ofList, OutlineRow.text, hlabel] at hspace
    exact hc (Option.some_inj.1 hspace)
  · obtain ⟨row, hrow, rfl⟩ := List.mem_map.1 hl
    obtain ⟨k, hk⟩ := Nat.exists_eq_add_of_lt (lt_depth_of_mem_rowsOfAll hrow)
    rw [Text.space_prefix_encode_iff, String.toList_ofList, OutlineRow.text, hk]
    rfl

theorem colon_not_infix {line : List UInt8} (hline : line ∈ Text.lines (Text.encode e.outline)) :
    ¬ Text.encode ":" <:+: line := by
  rw [h.lines_outline] at hline
  obtain ⟨row, hrow, rfl⟩ := List.mem_map.1 hline
  rw [Text.colon_infix_encode_iff, String.toList_ofList]
  intro hmem
  rcases h.mem_text hrow hmem with hc | hc | hc <;> cases hc

end IsWritable
end Expr

/-! ## Answers -/

namespace Session

variable {s : Session} {source : String}

theorem lines_reply_of_error (h : '\n' ∉ source.toList) {f : Fault} (hf : s.process source = .error f) :
    Text.lines (Text.encode (s.reply source)) = [Text.encode f.message] := by
  rw [reply_of_error s hf]
  exact Text.lines_encode_line (mt (newline_mem_of_process hf) h)

theorem process_eval_eq_ok {text : String} (hm : s.mode = .eval) (ht : s.process source = .ok text) :
    ∃ x, text = "=" ++ Binary64.text x ++ "\n" := by
  obtain ⟨mode, maxDepth⟩ := s
  obtain rfl : mode = .eval := hm
  obtain ⟨x, -, hx⟩ := process_eq_ok_iff.1 ht
  exact ⟨x, hx⟩

theorem lines_reply_of_eval {text : String} (hm : s.mode = .eval) (ht : s.process source = .ok text) :
    ∃ x, Text.lines (Text.encode (s.reply source)) = [Text.encode ("=" ++ Binary64.text x)] := by
  obtain ⟨x, rfl⟩ := process_eval_eq_ok hm ht
  refine ⟨x, ?_⟩
  rw [reply_of_ok _ ht]
  refine Text.lines_encode_line (fun hmem => ?_)
  rw [String.toList_append] at hmem
  rcases List.mem_append.1 hmem with hmem | hmem
  · simp at hmem
  · exact Binary64.newline_not_mem_text x hmem

theorem process_tree_eq_ok {text : String} (hm : s.mode = .tree) (ht : s.process source = .ok text) :
    ∃ e : Expr, e.IsWritable ∧ text = e.outline := by
  rw [process] at ht
  cases hparse : (Expr.parse s.maxDepth source).outcome with
  | error f =>
    rw [hparse] at ht
    cases ht
  | ok e =>
    rw [hparse, hm] at ht
    cases ht
    exact ⟨e, (Expr.isWritable_of_parse hparse).1, rfl⟩

theorem headed_reply (h : '\n' ∉ source.toList) : Headed (Text.lines (Text.encode (s.reply source))) := by
  cases hp : s.process source with
  | error f =>
    rw [lines_reply_of_error h hp]
    exact Text.headed_encode (f.head?_message_ne rfl)
  | ok text =>
    cases hm : s.mode with
    | eval =>
      obtain ⟨x, hx⟩ := lines_reply_of_eval hm hp
      rw [hx]
      exact Text.headed_encode (by simp)
    | tree =>
      obtain ⟨e, he, rfl⟩ := process_tree_eq_ok hm hp
      rw [reply_of_ok s hp]
      exact he.headed_outline

/-- A result is known by its equals sign. -/
theorem reply_eval (h : '\n' ∉ source.toList) (hm : s.mode = .eval) :
    ∃ line, Text.lines (Text.encode (s.reply source)) = [line] ∧
      (Text.encode "=" <+: line ↔ ∃ text, s.process source = .ok text) := by
  cases hp : s.process source with
  | error f =>
    refine ⟨_, lines_reply_of_error h hp, ?_⟩
    rw [Text.equals_prefix_encode_iff]
    exact ⟨fun heq => absurd heq (f.head?_message_ne rfl), fun ⟨_, ht⟩ => nomatch ht⟩
  | ok text =>
    obtain ⟨x, hx⟩ := lines_reply_of_eval hm hp
    refine ⟨_, hx, ?_⟩
    rw [Text.equals_prefix_encode_iff]
    exact ⟨fun _ => ⟨text, rfl⟩, fun _ => by simp⟩

/-- A message is known by its colon. -/
theorem reply_tree (h : '\n' ∉ source.toList) (hm : s.mode = .tree) :
    (∀ f, s.process source = .error f → ∃ line, Text.lines (Text.encode (s.reply source)) = [line] ∧
      Text.encode ":" <:+: line) ∧
    ∀ text, s.process source = .ok text → ∀ line ∈ Text.lines (Text.encode (s.reply source)),
      ¬ Text.encode ":" <:+: line := by
  refine ⟨fun f hf => ⟨_, lines_reply_of_error h hf, Text.colon_infix_encode_iff.2 f.colon_mem_message⟩,
    fun text ht line hline => ?_⟩
  obtain ⟨e, he, rfl⟩ := process_tree_eq_ok hm ht
  rw [reply_of_ok s ht] at hline
  exact he.colon_not_infix hline

/-- An answer ends where a line does. -/
theorem getLast?_reply (s : Session) (source : String) :
    (Text.encode (s.reply source)).getLast? = some Text.newline := by
  have hline : ∀ line : String, (Text.encode (line ++ "\n")).getLast? = some Text.newline := fun line => by
    have hchar : Text.encode "\n" = [Text.newline] := rfl
    rw [Text.encode_append, hchar, List.getLast?_concat]
  cases hp : s.process source with
  | error f =>
    rw [reply_of_error s hp]
    exact hline _
  | ok text =>
    rw [reply_of_ok s hp]
    cases hm : s.mode with
    | eval =>
      obtain ⟨x, rfl⟩ := process_eval_eq_ok hm hp
      exact hline _
    | tree =>
      obtain ⟨e, -, rfl⟩ := process_tree_eq_ok hm hp
      obtain ⟨line, houtline⟩ := e.exists_outline
      rw [houtline]
      exact hline line

/-! ## Expressions -/

/-- The expressions among lines: trimmed, up to the first line `q`, without the empty ones. -/
def expressionsOf (lines : List (List UInt8)) : List String :=
  (((lines.filterMap Text.decode?).map Text.trim).takeWhile (· ≠ "q")).filter (· ≠ "")

/-- The expressions of an input. -/
def expressions (input : List UInt8) : List String := expressionsOf (Text.lines input)

theorem expressionsOf_cons {line : List UInt8} {text : String} (h : Text.decode? line = some text)
    (lines : List (List UInt8)) :
    expressionsOf (line :: lines) = if Text.trim text = "q" then []
      else if Text.trim text = "" then expressionsOf lines
      else Text.trim text :: expressionsOf lines := by
  rw [expressionsOf, List.filterMap_cons_some h, List.map_cons]
  split
  · rename_i hq
    rw [List.takeWhile_cons_of_neg (by simpa using hq)]
    rfl
  · rename_i hq
    rw [List.takeWhile_cons_of_pos (by simpa using hq)]
    split
    · rename_i ht
      exact List.filter_cons_of_neg (by simpa using ht)
    · rename_i ht
      exact List.filter_cons_of_pos (by simpa using ht)

/-- **A session on text writes the answers to its expressions.** -/
theorem output_runLines (s : Session) : ∀ {lines : List (List UInt8)},
    (∀ line ∈ lines, (Text.decode? line).isSome = true) →
      (s.runLines none lines).output = (expressionsOf lines).flatMap (fun source => Text.encode (s.reply source))
  | [], _ => rfl
  | line :: lines, h => by
    rw [List.forall_mem_cons] at h
    obtain ⟨text, htext⟩ := Option.isSome_iff_exists.1 h.1
    have hlines := output_runLines s h.2
    rw [runLines_none_cons, s.answer_of_decode? htext, expressionsOf_cons htext]
    by_cases hq : Text.trim text = "q"
    · rw [if_pos hq, if_pos hq]
      rfl
    · rw [if_neg hq, if_neg hq]
      by_cases ht : Text.trim text = ""
      · rw [if_pos ht, if_pos ht]
        exact hlines
      · rw [if_neg ht, if_neg ht, List.flatMap_cons]
        exact congrArg _ hlines

theorem newline_not_mem_of_mem_expressions {input : List UInt8} (h : source ∈ expressions input) :
    '\n' ∉ source.toList := by
  have hmap := (List.takeWhile_sublist _).subset (List.mem_of_mem_filter h)
  obtain ⟨text, htext, rfl⟩ := List.mem_map.1 hmap
  obtain ⟨line, hline, hdecode⟩ := List.mem_filterMap.1 htext
  have hnewline := Text.newline_not_mem_of_mem_lines hline
  rw [← Text.decode?_eq_some_iff.1 hdecode, Text.newline_mem_encode_iff] at hnewline
  exact fun hmem => hnewline (Text.mem_of_mem_trim hmem)

end Session

/-- **The lines of an output that do not start with a space are the first lines of the answers to the expressions of the
input, in order, and tell which of them were answered**: by an equals sign at the front of a result, and by a colon in a
message, which no outline has. -/
theorem run_headlines (s : Session) (input : List UInt8) (h : (Text.decode? input).isSome = true) :
    let output := (s.run none input).output
    let answer := fun source => Text.lines (Text.encode (s.reply source))
    output = (Session.expressions input).flatMap (fun source => Text.encode (s.reply source)) ∧
    ((Text.lines output).filter (fun line => ¬ Text.encode " " <+: line)).map some
      = (Session.expressions input).map (fun source => (answer source).head?) ∧
    ∀ source ∈ Session.expressions input,
      (s.mode = .eval → ∃ line, answer source = [line] ∧
        (Text.encode "=" <+: line ↔ ∃ text, s.process source = .ok text)) ∧
      (s.mode = .tree →
        (∀ f, s.process source = .error f → ∃ line, answer source = [line] ∧ Text.encode ":" <:+: line) ∧
        ∀ text, s.process source = .ok text → ∀ line ∈ answer source, ¬ Text.encode ":" <:+: line) := by
  intro output answer
  have hline : ∀ source ∈ Session.expressions input, '\n' ∉ source.toList :=
    fun _ => Session.newline_not_mem_of_mem_expressions
  have houtput : output = (Session.expressions input).flatMap (fun source => Text.encode (s.reply source)) :=
    s.output_runLines ((Text.isSome_decode?_iff input).1 h)
  refine ⟨houtput, ?_, fun source hsource => ⟨Session.reply_eval (hline source hsource),
    Session.reply_tree (hline source hsource)⟩⟩
  have hheaded : ∀ a ∈ (Session.expressions input).map answer, Headed a := by
    intro a ha
    obtain ⟨source, hsource, rfl⟩ := List.mem_map.1 ha
    exact Session.headed_reply (hline source hsource)
  have hheads := map_some_filter_flatten hheaded
  rw [List.map_map, ← List.flatMap_def] at hheads
  rw [houtput, Text.lines_flatMap (fun source _ => s.getLast?_reply source)]
  exact hheads

/-- A symbol that is quoted may be what marks a result or a message. -/
theorem run_headlines_symbol :
    let s : Session := ⟨.tree, 512⟩
    let input := Text.encode "f(=)\n \n:\nq\n1"
    Session.expressions input = ["f(=)", ":"] ∧ s.process ":" = .error (.unrecognizedSymbol ':' 0) ∧
      ((Text.lines (s.run none input).output).filter (fun line => ¬ Text.encode " " <+: line)).length = 2 ∧
      ∃ line, Text.lines (Text.encode (s.reply ":")) = [line] ∧ Text.encode ":" <:+: line := by
  intro s input
  have htext : (Text.decode? input).isSome = true := by rw [Text.decode?_encode]; rfl
  have hexpressions : Session.expressions input = ["f(=)", ":"] := by decide +kernel
  have hfault : s.process ":" = .error (.unrecognizedSymbol ':' 0) := by
    rw [Session.process, Expr.parse_eq_readAll, Cursor.scan_of_get_error (by decide) rfl]
    rfl
  obtain ⟨-, hheads, hanswers⟩ := run_headlines s input htext
  have hlength := congrArg List.length hheads
  rw [List.length_map, List.length_map, hexpressions] at hlength
  exact ⟨hexpressions, hfault, hlength, ((hanswers ":" (by rw [hexpressions]; decide)).2 rfl).1 _ hfault⟩

end Calculator
