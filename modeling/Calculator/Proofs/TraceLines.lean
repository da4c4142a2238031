import Calculator.Trace
/-!
# Proofs.TraceLines — the lines of a trace

`tokenLine` and `reduceLine` are the lines for a token and for a reduction, letter for letter; no other definition goes
into them but the text of a number.  A line tells by its first words which of the two it is, unless what was evaluated
begins with such words; but a parse evaluates nothing.  So what is recorded in a parse can be found again in the lines
alone (`Event.filter_map_line`).
-/
namespace Calculator

/-- The line for a token whose lexeme starts at this byte. -/
def tokenLine (t : Token) (offset : Nat) : String :=
  let shown := match t with
    | .number x => "Number(" ++ Binary64.traceText x ++ ")"
    | .operator .plus => "Op(Plus)"
    | .operator .minus => "Op(Minus)"
    | .operator .times => "Op(Mul)"
    | .operator .divide => "Op(Div)"
    | .name id => "Id(\"" ++ id ++ "\")"
    | .leftParen => "LParen"
    | .rightParen => "RParen"
  "TRACE token " ++ shown ++ " at " ++ toString offset

/-- The line for a pending operator that takes its operands from so many values. -/
def reduceLine (p : Pending) (values : Nat) : String :=
  let shown := match p with
    | .binary .plus => "Binary(Plus)"
    | .binary .minus => "Binary(Minus)"
    | .binary .times => "Binary(Mul)"
    | .binary .divide => "Binary(Div)"
    | .unaryMinus => "UnaryMinus"
    | .leftParen => "LeftParen"
    | .call id base => "FunctionName \x7b id: \"" ++ id ++ "\", base: " ++ toString base ++ " \x7d"
  "DEBUG reduce " ++ shown ++ " with " ++ toString values ++ " values"

def isTokenLine (line : String) : Bool := "TRACE token ".toList.isPrefixOf line.toList

def isReduceLine (line : String) : Bool := "DEBUG reduce ".toList.isPrefixOf line.toList

namespace Event

/-- What the trace shows at its finer level. -/
def isToken : Event → Bool
  | token _ _ => true
  | _ => false

def isReduction : Event → Bool
  | reduce _ _ => true
  | _ => false

/-- A token on record, with its place. -/
def tokenAt? : Event → Option (Token × Nat)
  | token t offset => some (t, offset)
  | _ => none

/-- A reduction on record, with the number of values there were. -/
def reductionAt? : Event → Option (Pending × Nat)
  | reduce p values => some (p, values)
  | _ => none

/-- Only a parse is on record, no evaluation. -/
def OfParse : Event → Prop
  | evaluated _ _ => False
  | _ => True

theorem line_token (t : Token) (offset : Nat) : (token t offset).line = tokenLine t offset := by
  cases t with
  | operator op => cases op <;> rfl
  | _ => rfl

theorem line_reduce (p : Pending) (values : Nat) : (reduce p values).line = reduceLine p values := by
  cases p with
  | binary op => cases op <;> rfl
  | _ => rfl

/-- With what the line begins, whatever comes after. -/
def opening : Event → String
  | token _ _ => "TRACE token "
  | reduce _ _ => "DEBUG reduce "
  | parsed _ => "DEBUG parsed tree of height "
  | evaluated _ _ => "DEBUG "

theorem exists_line (e : Event) : ∃ rest, e.line = e.opening ++ rest := by
  cases e with
  | token t offset =>
    have hline : (token t offset).line = "TRACE token " ++ t.traceText ++ " at " ++ toString offset := rfl
    exact ⟨_, by rw [hline, String.append_assoc, String.append_assoc, opening]⟩
  | reduce p values =>
    have hline : (reduce p values).line = "DEBUG reduce " ++ p.traceText ++ " with " ++ toString values ++ " values" :=
      rfl
    exact ⟨_, by rw [hline, String.append_assoc, String.append_assoc, String.append_assoc, opening]⟩
  | parsed height => exact ⟨toString height, rfl⟩
  | evaluated source x =>
    have hline : (evaluated source x).line = "DEBUG " ++ source ++ " => " ++ Binary64.text x := rfl
    exact ⟨_, by rw [hline, String.append_assoc, String.append_assoc, opening]⟩

theorem isTokenLine_line (e : Event) : isTokenLine e.line = e.isToken := by
  obtain ⟨rest, hline⟩ := e.exists_line
  rw [isTokenLine, hline]
  cases e <;> simp [opening, isToken, List.isPrefixOf]

theorem isReduceLine_line {e : Event} (h : e.OfParse) : isReduceLine e.line = e.isReduction := by
  obtain ⟨rest, hline⟩ := e.exists_line
  rw [isReduceLine, hline]
  cases e with
  | evaluated => exact h.elim
  | _ => simp [opening, isReduction, List.isPrefixOf]

/-! ## Lists of lines -/

variable {log : List Event} {p : String → Bool} {q : Event → Bool}

/-- The lines of one kind are the lines of the events of that kind. -/
theorem filter_map_line (h : ∀ e ∈ log, p e.line = q e) : (log.map line).filter p = (log.filter q).map line := by
  rw [List.filter_map]
  exact congrArg (List.map line) (List.filter_congr h)

theorem countP_map_line (h : ∀ e ∈ log, p e.line = q e) : (log.map line).countP p = log.countP q := by
  rw [List.countP_map]
  exact List.countP_congr (fun e he => Bool.eq_iff_iff.1 (h e he))

theorem map_line_tokens (log : List Event) :
    (log.filter isToken).map line = (log.filterMap tokenAt?).map (fun u => tokenLine u.1 u.2) := by
  induction log with
  | nil => rfl
  | cons e log ih =>
    cases e with
    | token t offset =>
      show (token t offset).line :: _ = tokenLine t offset :: _
      rw [line_token, ih]
    | _ => exact ih

theorem map_line_reductions (log : List Event) :
    (log.filter isReduction).map line = (log.filterMap reductionAt?).map (fun r => reduceLine r.1 r.2) := by
  induction log with
  | nil => rfl
  | cons e log ih =>
    cases e with
    | reduce p values =>
      show (reduce p values).line :: _ = reduceLine p values :: _
      rw [line_reduce, ih]
    | _ => exact ih

end Event
end Calculator
