import Calculator.Proofs.Lines
import Calculator.Session
/-!
# Proofs.Conversation — a session answers line by line

A session goes through its lines until one of them ends it (`Session.ending`).  So what it writes for an input is what
it writes for a beginning in whole lines, then what it writes for the rest, unless it has ended before.  The answer to a
line is a matter of that line alone, and of its trimmed text alone.

An output that takes only so many bytes changes nothing up to its last byte, and no line is answered after it
(`run_room`).
-/
namespace Calculator

open Text (newline)

/-- How a session comes to its end, its output taking everything. -/
inductive Ending where
  /-- There were no more lines. -/
  | exhausted
  | quit
  | notText
deriving DecidableEq, Repr

def Ending.failure : Ending → Option StreamFault
  | exhausted | quit => none
  | notText => some .notText

namespace Session

/-- The ending that the first line brings which does not let the session go on. -/
def endingOf (s : Session) : List (List UInt8) → Ending
  | [] => .exhausted
  | line :: lines =>
    match s.answer line with
    | .quit => .quit
    | .notText => .notText
    | .silent | .write _ => s.endingOf lines

def ending (s : Session) (input : List UInt8) : Ending := s.endingOf (Text.lines input)

variable (s : Session)

/-! ## Line by line -/

theorem runLines_none_cons (line : List UInt8) (lines : List (List UInt8)) :
    s.runLines none (line :: lines) = match s.answer line with
      | .silent => s.runLines none lines
      | .quit => ⟨[], none⟩
      | .notText => ⟨[], some .notText⟩
      | .write text => ⟨Text.encode text ++ (s.runLines none lines).output, (s.runLines none lines).failure⟩ := by
  rw [runLines]
  cases s.answer line <;> rfl

theorem failure_runLines : ∀ lines : List (List UInt8), (s.runLines none lines).failure = (s.endingOf lines).failure
  | [] => rfl
  | line :: lines => by
    rw [runLines_none_cons, endingOf]
    cases s.answer line with
    | silent => exact failure_runLines lines
    | write text => exact failure_runLines lines
    | quit => rfl
    | notText => rfl

theorem endingOf_append (later : List (List UInt8)) : ∀ lines : List (List UInt8),
    s.endingOf (lines ++ later) = if s.endingOf lines = .exhausted then s.endingOf later else s.endingOf lines
  | [] => rfl
  | line :: lines => by
    rw [List.cons_append, endingOf, endingOf]
    cases s.answer line with
    | silent => exact endingOf_append later lines
    | write text => exact endingOf_append later lines
    | quit => rfl
    | notText => rfl

/-- **What later lines add to a session that has not ended.** -/
theorem runLines_append (later : List (List UInt8)) : ∀ lines : List (List UInt8),
    s.runLines none (lines ++ later) = if s.endingOf lines = .exhausted then
        ⟨(s.runLines none lines).output ++ (s.runLines none later).output, (s.runLines none later).failure⟩
      else s.runLines none lines
  | [] => rfl
  | line :: lines => by
    rw [List.cons_append, runLines_none_cons, runLines_none_cons, endingOf]
    cases s.answer line with
    | silent => exact runLines_append later lines
    | quit => rfl
    | notText => rfl
    | write text =>
      simp only [runLines_append later lines]
      split
      · rw [List.append_assoc]
      · rfl

/-! ## One line -/

theorem answer_of_decode? {line : List UInt8} {text : String} (h : Text.decode? line = some text) :
    s.answer line = if Text.trim text = "q" then .quit
      else if Text.trim text = "" then .silent
      else .write (s.reply (Text.trim text)) := by
  rw [answer, h]

/-- An input of one line, its newline there or not. -/
def IsLine (line input : List UInt8) : Prop := newline ∉ line ∧ (input = line ∨ input = line ++ [newline])

theorem run_of_isLine {line input : List UInt8} (h : IsLine line input) :
    s.run none input = s.runLines none [line] ∧ s.ending input = s.endingOf [line] := by
  obtain ⟨hline, rfl | rfl⟩ := h
  · by_cases hnil : input = []
    · -- no line at all is as good as an empty one
      rw [hnil]
      exact ⟨rfl, rfl⟩
    · rw [Session.run, ending, Text.lines_of_ne_nil hline hnil]
      exact ⟨rfl, rfl⟩
  · rw [Session.run, ending, Text.lines_append_newline hline]
    exact ⟨rfl, rfl⟩

theorem run_of_notText {line input : List UInt8} (h : IsLine line input) (hd : Text.decode? line = none) :
    s.run none input = ⟨[], some .notText⟩ ∧ s.ending input = .notText := by
  have ha : s.answer line = .notText := by rw [answer, hd]
  obtain ⟨hrun, hending⟩ := s.run_of_isLine h
  rw [hrun, hending, runLines_none_cons, endingOf, ha]
  exact ⟨rfl, rfl⟩

section
variable {line input : List UInt8} {text : String} (h : IsLine line input) (hd : Text.decode? line = some text)
include h hd

theorem run_of_quit (ht : Text.trim text = "q") : s.run none input = ⟨[], none⟩ ∧ s.ending input = .quit := by
  obtain ⟨hrun, hending⟩ := s.run_of_isLine h
  rw [hrun, hending, runLines_none_cons, endingOf, s.answer_of_decode? hd, if_pos ht]
  exact ⟨rfl, rfl⟩

theorem run_of_blank (ht : Text.trim text = "") : s.run none input = ⟨[], none⟩ ∧ s.ending input = .exhausted := by
  have hquit : Text.trim text ≠ "q" := by rw [ht]; decide
  obtain ⟨hrun, hending⟩ := s.run_of_isLine h
  rw [hrun, hending, runLines_none_cons, endingOf, s.answer_of_decode? hd, if_neg hquit, if_pos ht]
  exact ⟨rfl, rfl⟩

theorem run_of_expression (hq : Text.trim text ≠ "q") (ht : Text.trim text ≠ "") :
    s.run none input = ⟨Text.encode (s.reply (Text.trim text)), none⟩ ∧ s.ending input = .exhausted := by
  obtain ⟨hrun, hending⟩ := s.run_of_isLine h
  rw [hrun, hending, runLines_none_cons, endingOf, s.answer_of_decode? hd, if_neg hq, if_neg ht]
  exact ⟨congrArg (Transcript.mk · none) (List.append_nil _), rfl⟩

end

theorem reply_of_ok {source answer : String} (h : s.process source = .ok answer) : s.reply source = answer := by
  rw [reply, h]

theorem reply_of_error {source : String} {e : Fault} (h : s.process source = .error e) :
    s.reply source = e.message ++ "\n" := by
  rw [reply, h]

/-! ## Inputs that are text -/

theorem endingOf_ne_notText : ∀ {lines : List (List UInt8)}, (∀ line ∈ lines, (Text.decode? line).isSome = true) →
    s.endingOf lines ≠ .notText
  | [], _ => fun h => nomatch h
  | line :: lines, h => by
    obtain ⟨text, htext⟩ := Option.isSome_iff_exists.1 (h line List.mem_cons_self)
    have hlines := endingOf_ne_notText (fun l hl => h l (List.mem_cons_of_mem _ hl))
    rw [endingOf, s.answer_of_decode? htext]
    by_cases hq : Text.trim text = "q"
    · rw [if_pos hq]
      exact fun h => nomatch h
    · rw [if_neg hq]
      by_cases ht : Text.trim text = ""
      · rw [if_pos ht]
        exact hlines
      · rw [if_neg ht]
        exact hlines

/-- Lines are text if their input is, wherever the newlines are. -/
theorem failure_run_of_text {input : List UInt8} (h : (Text.decode? input).isSome = true) :
    (s.run none input).failure = none := by
  have hending := s.endingOf_ne_notText ((Text.isSome_decode?_iff input).1 h)
  rw [Session.run, failure_runLines]
  cases he : s.endingOf (Text.lines input) with
  | notText => exact absurd he hending
  | exhausted => rfl
  | quit => rfl

end Session

/-- **A session on a beginning in whole lines and a rest.**  Unless it has ended before, it goes on as if the rest were
all; one line is answered by its trimmed text alone, and no line is refused in an input that is text as a whole. -/
theorem run_line_by_line (s : Session) :
    (∀ a b : List UInt8, a = [] ∨ a.getLast? = some newline →
      (s.ending a = .exhausted →
        s.run none (a ++ b) = ⟨(s.run none a).output ++ (s.run none b).output, (s.run none b).failure⟩ ∧
        s.ending (a ++ b) = s.ending b) ∧
      (s.ending a ≠ .exhausted → s.run none (a ++ b) = s.run none a ∧ s.ending (a ++ b) = s.ending a)) ∧
    (∀ input, (s.run none input).failure = (s.ending input).failure) ∧
    (∀ line input, Session.IsLine line input →
      (Text.decode? line = none → s.run none input = ⟨[], some .notText⟩ ∧ s.ending input = .notText) ∧
      ∀ text, Text.decode? line = some text →
        (Text.trim text = "q" → s.run none input = ⟨[], none⟩ ∧ s.ending input = .quit) ∧
        (Text.trim text = "" → s.run none input = ⟨[], none⟩ ∧ s.ending input = .exhausted) ∧
        (Text.trim text ≠ "q" → Text.trim text ≠ "" → s.ending input = .exhausted ∧
          (∀ answer, s.process (Text.trim text) = .ok answer → s.run none input = ⟨Text.encode answer, none⟩) ∧
          ∀ e, s.process (Text.trim text) = .error e →
            s.run none input = ⟨Text.encode (e.message ++ "\n"), none⟩)) ∧
    (∀ line line' input input' text text', Session.IsLine line input → Session.IsLine line' input' →
      Text.decode? line = some text → Text.decode? line' = some text' → Text.trim text = Text.trim text' →
        s.run none input = s.run none input' ∧ s.ending input = s.ending input') ∧
    ∀ input, (Text.decode? input).isSome = true → (s.run none input).failure = none := by
  refine ⟨fun a b h => ?_, fun input => s.failure_runLines _, fun line input h => ⟨s.run_of_notText h, ?_⟩, ?_,
    fun input => s.failure_run_of_text⟩
  · have hrun := s.runLines_append (Text.lines b) (Text.lines a)
    have hending := s.endingOf_append (Text.lines b) (Text.lines a)
    rw [← Text.lines_append h] at hrun hending
    exact ⟨fun he => ⟨hrun.trans (if_pos he), hending.trans (if_pos he)⟩,
      fun he => ⟨hrun.trans (if_neg he), hending.trans (if_neg he)⟩⟩
  · intro text hd
    refine ⟨s.run_of_quit h hd, s.run_of_blank h hd, fun hq ht => ?_⟩
    obtain ⟨hrun, hending⟩ := s.run_of_expression h hd hq ht
    refine ⟨hending, fun answer ha => ?_, fun e he => ?_⟩
    · rw [hrun, s.reply_of_ok ha]
    · rw [hrun, s.reply_of_error he]
  · intro line line' input input' text text' h h' hd hd' ht
    have hanswer : s.answer line = s.answer line' := by
      rw [s.answer_of_decode? hd, s.answer_of_decode? hd', ht]
    obtain ⟨hrun, hending⟩ := s.run_of_isLine h
    obtain ⟨hrun', hending'⟩ := s.run_of_isLine h'
    rw [hrun, hending, hrun', hending', Session.runLines_none_cons, Session.runLines_none_cons, Session.endingOf,
      Session.endingOf, hanswer]
    exact ⟨rfl, rfl⟩

/-- Nothing after a line `q` is looked at, and without that line it would have been a failure. -/
theorem run_line_by_line_quit :
    let s : Session := ⟨.eval, 1⟩
    s.run none ([113, newline] ++ [255]) = ⟨[], none⟩ ∧ s.run none [255] = ⟨[], some .notText⟩ := by
  intro s
  have hq : Session.IsLine [113] [113, newline] := ⟨by decide, .inr rfl⟩
  have hx : Session.IsLine [255] [255] := ⟨by decide, .inl rfl⟩
  obtain ⟨happend, -, hline, -⟩ := run_line_by_line s
  obtain ⟨hrun, hending⟩ := ((hline _ _ hq).2 "q" (Text.decode?_eq_some_iff.2 rfl)).1 (by decide)
  have hne : s.ending [113, newline] ≠ .exhausted := by
    rw [hending]
    decide
  exact ⟨((happend _ [255] (.inr rfl)).2 hne).1.trans hrun, ((hline _ _ hx).1 (by decide +kernel)).1⟩

/-! ## An output that takes only so many bytes -/

/-- The transcript where the output takes so many bytes. -/
def Transcript.cut (t : Transcript) (room : Nat) : Transcript :=
  ⟨t.output.take room, if t.output.length ≤ room then t.failure else some .outputFull⟩

namespace Session

theorem runLines_some_cons (s : Session) (room : Nat) (line : List UInt8) (lines : List (List UInt8)) :
    s.runLines (some room) (line :: lines) = match s.answer line with
      | .silent => s.runLines (some room) lines
      | .quit => ⟨[], none⟩
      | .notText => ⟨[], some .notText⟩
      | .write text =>
        let bytes := Text.encode text
        if bytes.length ≤ room then
          let r := s.runLines (some (room - bytes.length)) lines
          ⟨bytes ++ r.output, r.failure⟩
        else ⟨bytes.take room, some .outputFull⟩ := by
  rw [runLines]
  cases s.answer line with
  | write text => simp only [Option.all_some, decide_eq_true_eq, Option.map_some, Option.getD_some]
  | _ => rfl

theorem runLines_some (s : Session) : ∀ (lines : List (List UInt8)) (room : Nat),
    s.runLines (some room) lines = (s.runLines none lines).cut room
  | [], room => by simp [runLines, Transcript.cut]
  | line :: lines, room => by
    rw [runLines_some_cons, runLines_none_cons]
    cases s.answer line with
    | silent => exact runLines_some s lines room
    | quit => simp [Transcript.cut]
    | notText => simp [Transcript.cut]
    | write text =>
      simp only [runLines_some s lines, Transcript.cut, List.take_append, List.length_append]
      split
      · rename_i h
        rw [List.take_of_length_le h]
        have hle : ∀ n, n ≤ room - (Text.encode text).length ↔ (Text.encode text).length + n ≤ room := fun n => by omega
        simp only [hle]
      · rename_i h
        have hroom : room - (Text.encode text).length = 0 := by omega
        have hlt : ∀ n, ¬ (Text.encode text).length + n ≤ room := fun n => by omega
        rw [hroom, List.take_zero, List.append_nil, if_neg (hlt _)]

end Session

/-- **An output that takes only so many bytes gets the beginning of what would be written**, and the session fails there
if more was to come, whatever else would have ended it. -/
theorem run_room (s : Session) (room : Nat) (input : List UInt8) :
    let full := s.run none input
    s.run (some room) input
      = ⟨full.output.take room, if full.output.length ≤ room then full.failure else some .outputFull⟩ :=
  s.runLines_some (Text.lines input) room

end Calculator
