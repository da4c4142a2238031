import Calculator.Proofs.Indentation
import Calculator.Proofs.Unreached
/-!
# Proofs.Message — what a message quotes

A message names the stage that failed and, after a colon, what is wrong there.  Some quote a symbol, a token, an
operator or a node as it is (`Fault.quoted`), and the source may be any text.  But lexemes and the texts of numbers are
in one line, so only an unrecognized symbol can bring a newline into a message, and then the source has it
(`Session.newline_mem_of_process`).
-/
namespace Calculator

open Binary64

/-- What is quoted in a message. -/
def Fault.quoted : Fault → List Char
  | unrecognizedSymbol symbol _ => [symbol]
  | unexpectedToken _ token => token.toList
  | missingOperand operator => operator.toList
  | unsupported what => what.toList
  | endOfInput | mismatchedParen _ | leftoverValues _ | tooDeep _ | divisionByZero => []

/-! ## The wording -/

theorem newline_not_mem_toDigits (n : Nat) : '\n' ∉ Nat.toDigits 10 n := fun h => by
  cases Decimal.isDigit_toDigits n _ h

namespace Fault

/-- The wording itself is in one line. -/
theorem newline_mem_message {e : Fault} (h : '\n' ∈ e.message.toList) : '\n' ∈ e.quoted := by
  delta message at h
  delta quoted
  cases e with
  | unexpectedToken expected token => cases expected <;> simpa [Expectation.text] using h
  | mismatchedParen excess => cases excess <;> simp [Side.text] at h
  | unrecognizedSymbol symbol offset => simpa [newline_not_mem_toDigits] using h
  | missingOperand operator => simpa using h
  | unsupported what => simpa using h
  | leftoverValues n => simp [newline_not_mem_toDigits] at h
  | tooDeep n => simp [newline_not_mem_toDigits] at h
  | endOfInput => simp at h
  | divisionByZero => simp at h

/-- Every message begins with the stage that failed and a colon. -/
theorem exists_stage (e : Fault) :
    ∃ stage ∈ ["Lexer", "Parser", "Runtime"], (stage ++ ":").toList <+: e.message.toList := by
  delta message
  cases e with
  | endOfInput => exact ⟨"Lexer", by simp⟩
  | unrecognizedSymbol => exact ⟨"Lexer", by simp⟩
  | divisionByZero => exact ⟨"Runtime", by simp⟩
  | unsupported => exact ⟨"Runtime", by simp⟩
  | _ => exact ⟨"Parser", by simp⟩

theorem colon_mem_message (e : Fault) : ':' ∈ e.message.toList := by
  obtain ⟨stage, -, h⟩ := e.exists_stage
  exact h.subset (by simp)

/-- So no message begins with a sign or a space. -/
theorem head?_message_ne (e : Fault) {c : Char} (hc : c.isAlpha = false) : e.message.toList.head? ≠ some c := by
  obtain ⟨stage, hstage, rest, h⟩ := e.exists_stage
  intro hhead
  rw [← h] at hhead
  simp only [List.mem_cons, List.not_mem_nil, or_false] at hstage
  rcases hstage with rfl | rfl | rfl <;>
  · simp at hhead
    subst hhead
    cases hc

end Fault

/-! ## What is quoted -/

theorem Binary64.newline_not_mem_text (x : Float) : '\n' ∉ (text x).toList := by
  have hplain : '\n' ∉ (shortest (magnitude x)).plain.toList :=
    (shortest (magnitude x)).isNumeral_plain.isLabel.newline_not_mem
  unfold text signed
  split
  · simp
  · split <;> split <;> simp [hplain]

theorem Spells.newline_not_mem_text {w : List Char} {t : Token} (h : Spells w t) : '\n' ∉ t.text.toList := by
  cases h with
  | operator op => cases op <;> simp [Token.text, Operator.symbol]
  | leftParen => simp [Token.text]
  | rightParen => simp [Token.text]
  | number => exact Binary64.newline_not_mem_text _
  | name hw =>
    rw [Token.text, String.toList_ofList]
    exact hw.isLabel.newline_not_mem

theorem Refuses.newline_not_mem_quoted {m : Machine} {t : Token} {e : Fault} (h : Refuses m t e) {w : List Char}
    (ht : Spells w t) : '\n' ∉ e.quoted := by
  cases h with
  | unexpected => exact ht.newline_not_mem_text
  | mismatched => exact List.not_mem_nil

theorem RefusesEnd.newline_not_mem_quoted {limit : Nat} {e : Fault} (h : RefusesEnd limit e) : '\n' ∉ e.quoted := by
  cases h with
  | minus => simp [Fault.quoted]
  | binary op => cases op <;> simp [Fault.quoted, Operator.symbol]
  | _ => exact List.not_mem_nil

/-- An unrecognized symbol is in the source. -/
theorem Cursor.mem_of_scan_fault {c : Cursor} {x : Char} {n : Nat} (h : c.scan.fault = some (.unrecognizedSymbol x n)) :
    x ∈ c.rest := by
  obtain ⟨before, after, ws, hrest, hcut, hforeign⟩ := exists_cut c.rest
  rw [(scan_of_cut hcut hforeign hrest).2, Option.map_eq_some_iff] at h
  obtain ⟨y, hy, heq⟩ := h
  obtain ⟨rfl, -⟩ := Fault.unrecognizedSymbol.inj heq
  rw [hrest]
  exact List.mem_append_right _ (List.mem_of_mem_head? hy)

/-! ## What has no value -/

theorem bind_eq_error {α β : Type} {x : Except Fault α} {f : α → Except Fault β} {e : Fault}
    (h : (x >>= f) = .error e) : x = .error e ∨ ∃ a, x = .ok a ∧ f a = .error e := by
  cases x with
  | error g =>
    cases h
    exact .inl rfl
  | ok a => exact .inr ⟨a, rfl, h⟩

/-- The faults of evaluating a tree that can be written: a zero divisor, or a node that has no value. -/
inductive Fault.Valueless : Fault → Prop
  | division : Valueless .divisionByZero
  | name {id : String} : IsName id.toList → Valueless (.unsupported ("identifier `" ++ id ++ "`"))
  | call {id : String} : IsName id.toList → Valueless (.unsupported ("call to `" ++ id ++ "`"))

theorem Operator.valueless {op : Operator} {x y : Float} {f : Fault} (h : op.apply x y = .error f) : f.Valueless := by
  cases op with
  | divide =>
    rw [apply] at h
    split at h
    · cases h
      exact .division
    · cases h
  | _ => cases h

theorem Expr.IsWritable.valueless {e : Expr} (h : e.IsWritable) {f : Fault} (hf : e.eval = .error f) :
    f.Valueless := by
  induction h with
  | number => cases hf
  | name hid =>
    cases hf
    exact .name hid
  | emptyCall hid =>
    cases hf
    exact .call hid
  | call hid =>
    cases hf
    exact .call hid
  | @binary op l r _ _ ihl ihr =>
    rw [eval] at hf
    rcases bind_eq_error hf with hl | ⟨x, -, hf⟩
    · exact ihl hl
    · rcases bind_eq_error hf with hr | ⟨y, -, hf⟩
      · exact ihr hr
      · exact op.valueless hf
  | @negate e _ ih =>
    rw [eval] at hf
    rcases bind_eq_error hf with he | ⟨x, -, hf⟩
    · exact ih he
    · cases hf

theorem Fault.Valueless.newline_not_mem_quoted {f : Fault} (h : f.Valueless) : '\n' ∉ f.quoted := by
  cases h with
  | division => exact List.not_mem_nil
  | name hid => simp [quoted, hid.isLabel.newline_not_mem]
  | call hid => simp [quoted, hid.isLabel.newline_not_mem]

/-! ## Sources -/

theorem Expr.newline_mem_of_parse {maxDepth : Nat} {source : String} {f : Fault}
    (h : (Expr.parse maxDepth source).outcome = .error f) (hmem : '\n' ∈ f.quoted) : '\n' ∈ source.toList := by
  cases (Expr.parse_rejects maxDepth source).of_error h with
  | tooDeep => cases hmem
  | refused ht hf =>
    obtain ⟨w, hw⟩ := Cursor.spells_of_mem_words ht
    exact absurd hmem (hf.newline_not_mem_quoted hw)
  | unfinished hf => exact absurd hmem hf.newline_not_mem_quoted
  | scanned hf =>
    obtain ⟨x, n, rfl⟩ := Cursor.scan_fault hf
    obtain rfl := List.mem_singleton.1 hmem
    exact Cursor.mem_of_scan_fault hf

/-- What is read has no answer only if it has no value. -/
theorem Session.valueless_of_process {s : Session} {source : String} {e : Expr}
    (he : (Expr.parse s.maxDepth source).outcome = .ok e) {f : Fault} (h : s.process source = .error f) :
    f.Valueless := by
  rw [process, he] at h
  cases hmode : s.mode with
  | tree =>
    rw [hmode] at h
    cases h
  | eval =>
    rw [hmode] at h
    change (e.eval >>= fun x => pure _) = _ at h
    rcases bind_eq_error h with hvalue | ⟨x, -, h⟩
    · exact (Expr.isWritable_of_parse he).1.valueless hvalue
    · cases h

/-- **A message is in one line if the source is.** -/
theorem Session.newline_mem_of_process {s : Session} {source : String} {f : Fault} (h : s.process source = .error f)
    (hmem : '\n' ∈ f.message.toList) : '\n' ∈ source.toList := by
  have hquoted := Fault.newline_mem_message hmem
  cases hparse : (Expr.parse s.maxDepth source).outcome with
  | error g =>
    rw [process, hparse] at h
    cases h
    exact Expr.newline_mem_of_parse hparse hquoted
  | ok e => exact absurd hquoted (valueless_of_process hparse h).newline_not_mem_quoted

end Calculator
