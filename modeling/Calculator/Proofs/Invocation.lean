import Calculator.Program
import Calculator.Proofs.CommandLine
import Calculator.Proofs.Headlines
/-!
# Proofs.Invocation — an expression as an argument and as the input

An expression can be given to the program in two ways.  As an argument it is trimmed and answered, whatever is in it.
As the input it is cut into lines first, each trimmed by itself.  The blanks around a text may have newlines among them,
but the lines these make are empty once trimmed; so a text whose trim is one line has that line for its only expression
(`Session.expressions_encode`), and the two ways differ only in where a message goes.

They part where the trim is empty or `q`: for a session these are not expressions.
-/
namespace Calculator

/-! ## An expression as the input -/

namespace Session

open Text (IsTrimmed isBlank newline)

theorem expressions_of_line {line : List UInt8} (h : newline ∉ line) : expressions line = expressionsOf [line] := by
  by_cases hnil : line = []
  · rw [hnil]
    rfl
  · rw [expressions, Text.lines_of_ne_nil h hnil]

/-- An input has the expressions of its first line, unless that is empty, and those of the rest, unless the line ends
the session. -/
theorem expressions_of_lines {line : List Char} (h : '\n' ∉ line) (rest : List Char) :
    expressions (Text.encode (String.ofList (line ++ '\n' :: rest)))
      = expressionsOf (Text.encode (String.ofList line) :: Text.lines (Text.encode (String.ofList rest))) :=
  congrArg expressionsOf (Text.lines_encode_append h rest)

theorem expressionsOf_cons_blank {line : List Char} (h : ∀ c ∈ line, isBlank c = true) (lines : List (List UInt8)) :
    expressionsOf (Text.encode (String.ofList line) :: lines) = expressionsOf lines := by
  have htrim : Text.trim (String.ofList line) = "" := by
    rw [Text.trim_ofList, Text.trimList_of_blanks h]
  rw [expressionsOf_cons (Text.decode?_encode _), htrim, if_neg (by decide), if_pos rfl]

/-- Blanks have no expressions, however many lines they are. -/
theorem expressions_of_blanks {cs : List Char} (h : ∀ c ∈ cs, isBlank c = true) :
    expressions (Text.encode (String.ofList cs)) = [] := by
  induction cs using Text.induction_lines (x := '\n') with
  | last line hline =>
    rw [expressions_of_line (Text.newline_not_mem_encode hline), expressionsOf_cons_blank h]
    rfl
  | cons line rest hline ih =>
    obtain ⟨hblank, hrest⟩ := List.forall_mem_append.1 h
    rw [expressions_of_lines hline, expressionsOf_cons_blank hblank]
    exact ih (List.forall_mem_cons.1 hrest).2

/-- A line is answered as its trim is, if nothing comes after it. -/
theorem expressionsOf_cons_among_blanks {a cs b : List Char} (ha : ∀ c ∈ a, isBlank c = true) (hcs : IsTrimmed cs)
    (hb : ∀ c ∈ b, isBlank c = true) {lines : List (List UInt8)} (hlines : expressionsOf lines = []) :
    expressionsOf (Text.encode (String.ofList (a ++ cs ++ b)) :: lines)
      = if String.ofList cs = "q" ∨ String.ofList cs = "" then [] else [String.ofList cs] := by
  have htrim : Text.trim (String.ofList (a ++ cs ++ b)) = String.ofList cs := by
    rw [Text.trim_ofList, Text.trimList_append ha hcs hb]
  rw [expressionsOf_cons (Text.decode?_encode _), htrim, hlines]
  split
  · rename_i hq
    rw [if_pos (.inl hq)]
  · rename_i hq
    split
    · rename_i hnil
      rw [if_pos (.inr hnil)]
    · rename_i hnil
      rw [if_neg (not_or.2 ⟨hq, hnil⟩)]

/-- One line among blanks is the only one that is not empty once trimmed. -/
theorem expressions_among_blanks {a cs b : List Char} (ha : ∀ c ∈ a, isBlank c = true) (hcs : IsTrimmed cs)
    (hline : '\n' ∉ cs) (hb : ∀ c ∈ b, isBlank c = true) :
    expressions (Text.encode (String.ofList (a ++ cs ++ b)))
      = if String.ofList cs = "q" ∨ String.ofList cs = "" then [] else [String.ofList cs] := by
  induction a using Text.induction_lines (x := '\n') with
  | cons line rest hl ih =>
    obtain ⟨hblank, hrest⟩ := List.forall_mem_append.1 ha
    rw [List.append_assoc, List.append_assoc, List.cons_append, expressions_of_lines hl,
      expressionsOf_cons_blank hblank, ← List.append_assoc]
    exact ih (List.forall_mem_cons.1 hrest).2
  | last a ha' =>
    have hmem : ∀ {b : List Char}, '\n' ∉ b → '\n' ∉ a ++ cs ++ b := fun hb' => by simp [ha', hline, hb']
    by_cases hb' : '\n' ∈ b
    · obtain ⟨front, rest, rfl, hfront⟩ := List.eq_append_cons_of_mem hb'
      obtain ⟨hblank, hrest⟩ := List.forall_mem_append.1 hb
      rw [← List.append_assoc, expressions_of_lines (hmem hfront)]
      exact expressionsOf_cons_among_blanks ha hcs hblank (expressions_of_blanks (List.forall_mem_cons.1 hrest).2)
    · rw [expressions_of_line (Text.newline_not_mem_encode (hmem hb'))]
      exact expressionsOf_cons_among_blanks ha hcs hb rfl

/-- **A text whose trim is one line has that line for its only expression**, if it is one. -/
theorem expressions_encode {text : String} (h : '\n' ∉ (Text.trim text).toList) :
    expressions (Text.encode text)
      = if Text.trim text = "q" ∨ Text.trim text = "" then [] else [Text.trim text] := by
  obtain ⟨a, b, htext, ha, hb, htrimmed⟩ := Text.exists_trimList text.toList
  rw [Text.trim, String.toList_ofList] at h
  have hexpressions := expressions_among_blanks ha htrimmed h hb
  rwa [← htext, String.ofList_toList] at hexpressions

theorem process_empty (s : Session) : s.process "" = .error .endOfInput := by
  rw [process, Expr.parse_eq_readAll, Cursor.scan_of_atEnd rfl]
  rfl

/-- What ends a session is a name in an expression. -/
theorem process_q (maxDepth : Nat) : process ⟨.eval, maxDepth⟩ "q" = .error (.unsupported "identifier `q`") ∧
    process ⟨.tree, maxDepth⟩ "q" = .ok "q\n" := by
  have hq : IsName "q".toList := (.intro rfl (fun _ hc => nomatch hc) : IsName ['q'])
  have hparse : (Expr.parse maxDepth "q").outcome = .ok (.name "q") :=
    Expr.parse_lexeme hq.spells (.name "q") rfl maxDepth
  rw [process, process, hparse]
  exact ⟨rfl, rfl⟩

end Session

namespace Program

variable {mode : OutputMode} {maxDepth : Nat} {args : List String}

theorem run_of_expr {e : String} (h : Options.parse args = .ok ⟨mode, maxDepth, some e⟩) (input : List UInt8) :
    run args input = answer ⟨mode, maxDepth⟩ e := by
  rw [run, plan, h]
  rfl

/-- Without an expression the program cannot fail on text. -/
theorem run_of_none (h : Options.parse args = .ok ⟨mode, maxDepth, none⟩) (text : String) :
    run args (Text.encode text) = ⟨0, (Session.expressions (Text.encode text)).flatMap (fun source =>
      Text.encode (Session.reply ⟨mode, maxDepth⟩ source)), []⟩ := by
  have htext : (Text.decode? (Text.encode text)).isSome = true := by rw [Text.decode?_encode]; rfl
  have hfailure := Session.failure_run_of_text ⟨mode, maxDepth⟩ htext
  have houtput := Session.output_runLines ⟨mode, maxDepth⟩ ((Text.isSome_decode?_iff _).1 htext)
  rw [run, plan, h]
  show ofTranscript (Session.run ⟨mode, maxDepth⟩ none (Text.encode text)) = _
  rw [ofTranscript, hfailure]
  exact congrArg (Outcome.mk 0 · []) houtput

theorem answer_of_ok {s : Session} {e text : String} (h : s.process (Text.trim e) = .ok text) :
    answer s e = ⟨0, Text.encode text, []⟩ := by
  rw [answer, h]

theorem answer_of_error {s : Session} {e : String} {f : Fault} (h : s.process (Text.trim e) = .error f) :
    answer s e = ⟨1, [], Text.encode (f.message ++ "\n")⟩ := by
  rw [answer, h]

theorem output_append_errors_answer (s : Session) (e : String) :
    (answer s e).output ++ (answer s e).errors = Text.encode (s.reply (Text.trim e)) := by
  cases h : s.process (Text.trim e) with
  | ok text =>
    rw [answer_of_ok h, s.reply_of_ok h]
    exact List.append_nil _
  | error f =>
    rw [answer_of_error h, s.reply_of_error h]
    rfl

end Program

/-- **An expression is answered alike as an argument and as the input**, if its trim is one line.  As an argument a
fault has exit code 1 and its message goes to the errors; as the input it is part of the output.  An empty trim and the
trim `q` are expressions only as arguments. -/
theorem run_argument_eq_run_input (mode : OutputMode) (maxDepth : Nat) (e : String) :
    let s : Session := ⟨mode, maxDepth⟩
    let source := Text.trim e
    (maxDepth < 2 ^ 64 → ∀ expr, ∃ args, Options.parse args = .ok ⟨mode, maxDepth, expr⟩) ∧
    (∀ args input, Options.parse args = .ok ⟨mode, maxDepth, some e⟩ →
      (∀ text, s.process source = .ok text → Program.run args input = ⟨0, Text.encode text, []⟩) ∧
      ∀ f, s.process source = .error f → Program.run args input = ⟨1, [], Text.encode (f.message ++ "\n")⟩) ∧
    ∀ args args' input, Options.parse args = .ok ⟨mode, maxDepth, some e⟩ →
      Options.parse args' = .ok ⟨mode, maxDepth, none⟩ →
      let argument := Program.run args input
      let session := Program.run args' (Text.encode e)
      session.exitCode = 0 ∧ session.errors = [] ∧
      ('\n' ∉ source.toList → source ≠ "" → source ≠ "q" → session.output = argument.output ++ argument.errors) ∧
      (source = "" → session.output = [] ∧
        argument = ⟨1, [], Text.encode (Fault.endOfInput.message ++ "\n")⟩) ∧
      (source = "q" → session.output = [] ∧
        (mode = .eval → argument = ⟨1, [], Text.encode ((Fault.unsupported "identifier `q`").message ++ "\n")⟩) ∧
        (mode = .tree → argument = ⟨0, Text.encode "q\n", []⟩)) := by
  intro s source
  refine ⟨fun h expr => Options.exists_parse mode h expr, fun args input h => ?_, fun args args' input h h' => ?_⟩
  · rw [Program.run_of_expr h]
    exact ⟨fun _ => Program.answer_of_ok, fun _ => Program.answer_of_error⟩
  · simp only [Program.run_of_expr h, Program.run_of_none h']
    have hexpressions : '\n' ∉ source.toList → Session.expressions (Text.encode e)
        = if source = "q" ∨ source = "" then [] else [source] := Session.expressions_encode
    refine ⟨trivial, trivial, fun hline hne hq => ?_, fun hsource => ⟨?_, ?_⟩, fun hsource => ⟨?_, ?_, ?_⟩⟩
    · rw [hexpressions hline, if_neg (not_or.2 ⟨hq, hne⟩), Program.output_append_errors_answer]
      exact List.append_nil _
    · rw [hexpressions (by rw [hsource]; decide), if_pos (.inr hsource)]
      rfl
    · exact Program.answer_of_error ((congrArg _ hsource).trans (Session.process_empty _))
    · rw [hexpressions (by rw [hsource]; decide), if_pos (.inl hsource)]
      rfl
    · rintro rfl
      exact Program.answer_of_error ((congrArg _ hsource).trans (Session.process_q _).1)
    · rintro rfl
      exact Program.answer_of_ok ((congrArg _ hsource).trans (Session.process_q _).2)

/-- As the input this text is three lines, two of them blank. -/
theorem run_argument_eq_run_input_blanks :
    let e := "\n\t(\r\n "
    let argument := Program.run ["-mtree", e] []
    let session := Program.run ["-mtree"] (Text.encode e)
    argument = ⟨1, [], Text.encode ((Fault.mismatchedParen .left).message ++ "\n")⟩ ∧
      session.exitCode = 0 ∧ session.output = argument.output ++ argument.errors := by
  intro e argument session
  have hsource : Text.trim e = "(" := by decide
  have hargs : Options.parse ["-mtree", e] = .ok ⟨.tree, 512, some e⟩ := by decide
  have hargs' : Options.parse ["-mtree"] = .ok ⟨.tree, 512, none⟩ := by decide
  have hfault : Session.process ⟨.tree, 512⟩ (Text.trim e) = .error (.mismatchedParen .left) := by
    rw [hsource, Session.process, Expr.parse_eq_readAll, Cursor.scan_of_get_ok (by decide) rfl,
      Cursor.scan_of_atEnd rfl]
    rfl
  obtain ⟨-, hargument, hboth⟩ := run_argument_eq_run_input .tree 512 e
  obtain ⟨hcode, -, houtput, -⟩ := hboth _ _ [] hargs hargs'
  exact ⟨(hargument _ [] hargs).2 _ hfault, hcode, houtput (by rw [hsource]; decide) (by rw [hsource]; decide)
    (by rw [hsource]; decide)⟩

end Calculator
