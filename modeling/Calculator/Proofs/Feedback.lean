import Calculator.Proofs.Direct
import Calculator.Proofs.Rendering
/-!
# Proofs.Feedback — a result can be fed back

The text of a finite result is the shortest decimal of its magnitude, after a minus sign if the sign bit is set.  As a
source it is a number or the negation of one, and its value is the result itself, a negative zero included.  The limit
allows for the negation: no number that is read has a sign, so a result with one came from a tree of two levels at least
(`two_le_maxDepth`).

Infinity and NaN are written as what reads back as a name, which has no value.
-/
namespace Calculator

open Binary64

/-! ## The text of a result -/

namespace Binary64

variable {x : Float}

theorem text_of_infinity_lt (h : infinity < magnitude x) : text x = "NaN" := by
  rw [text, signed, if_pos h]

theorem text_of_infinity (h : magnitude x = infinity) : text x = if isNegative x then "-" ++ "inf" else "inf" := by
  have hnan : ¬ infinity < magnitude x := by
    rw [h]
    exact Nat.lt_irrefl _
  rw [text, signed, if_neg hnan, if_pos h]

theorem text_of_lt_infinity (h : magnitude x < infinity) : text x =
    if isNegative x then "-" ++ (shortest (magnitude x)).plain else (shortest (magnitude x)).plain := by
  rw [text, signed, if_neg (Nat.lt_asymm h), if_neg (Nat.ne_of_lt h)]

/-- Only the text of a negative double begins with a minus sign. -/
theorem isNegative_of_text (h : (text x).toList.head? = some '-') : isNegative x = true := by
  by_contra hs
  rcases Nat.lt_trichotomy (magnitude x) infinity with hlt | heq | hgt
  · rw [text_of_lt_infinity hlt, if_neg hs] at h
    obtain ⟨c, cs, hplain, hc⟩ := (shortest (magnitude x)).isNumeral_plain.exists_cons
    rw [hplain] at h
    cases h
    cases hc
  · rw [text_of_infinity heq, if_neg hs] at h
    cases h
  · rw [text_of_infinity_lt hgt] at h
    cases h

theorem lt_infinity_of_text (hinf : text x ≠ "inf") (hneg : text x ≠ "-inf") (hnan : text x ≠ "NaN") :
    magnitude x < infinity := by
  rcases Nat.lt_trichotomy (magnitude x) infinity with hlt | heq | hgt
  · exact hlt
  · rw [text_of_infinity heq] at hinf hneg
    cases hs : isNegative x with
    | false => exact absurd (if_neg (hs ▸ Bool.false_ne_true)) hinf
    | true => exact absurd (if_pos hs) hneg
  · exact absurd (text_of_infinity_lt hgt) hnan

/-- **The shortest decimal of a magnitude is a lexeme of its double.** -/
theorem spells_shortest {n : Nat} (h : n ≤ infinity) : Spells (shortest n).plain.toList (.number (ofMagnitude n)) := by
  have hspells := Spells.number (shortest n).isNumeral_plain
  rwa [Decimal.toFloat, Decimal.nearest_ofNumeral_plain, nearest_shortest h] at hspells

end Binary64

/-! ## One lexeme as a source -/

section
variable {source : String} {t : Token} {e : Expr} (hs : Spells source.toList t) (hd : Derives .primary [t] e)
include hs hd

theorem Expr.parse_lexeme (hh : e.height = 1) (maxDepth : Nat) : (Expr.parse maxDepth source).outcome = .ok e :=
  Expr.parse_of_writes (hs.writes stops_nil) (.ofTerm (.ofFactor (.ofPrimary hd)))
    (hh ▸ Nat.le_max_right _ _)

/-- A lexeme may have a minus sign before it where the limit allows for two levels. -/
theorem Expr.parse_signed (hh : e.height = 1) {maxDepth : Nat} {negative : Bool} (hm : negative = true → 2 ≤ maxDepth) :
    (Expr.parse maxDepth (if negative then "-" ++ source else source)).outcome
      = .ok (if negative then e.negate else e) := by
  cases negative with
  | false => exact Expr.parse_lexeme hs hd hh maxDepth
  | true =>
    have hwrites : Writes [] ("-" ++ source).toList [.operator .minus, t] := by
      rw [String.toList_append]
      exact (hs.writes stops_nil).symbol rfl
    have hheight : e.negate.height ≤ max maxDepth 1 := by
      rw [Expr.height, hh]
      exact Nat.le_trans (hm rfl) (Nat.le_max_left _ _)
    exact Expr.parse_of_writes hwrites (.ofTerm (.ofFactor (.negation hd))) hheight

end

/-! ## The limit -/

theorem Expr.IsWritable.two_le_height {e : Expr} (h : e.IsWritable) {x : Float} (he : e.eval = .ok x)
    (hx : isNegative x = true) : 2 ≤ e.height := by
  cases h with
  | number hs =>
    cases he
    rw [hs] at hx
    cases hx
  | name | emptyCall | call => cases he
  | @binary op l r =>
    have hl := l.one_le_height
    rw [Expr.height]
    omega
  | @negate e =>
    have he := e.one_le_height
    rw [Expr.height]
    omega

/-- **A result with the sign bit set comes from a tree of two levels at least**, so the limit allows for as many. -/
theorem two_le_maxDepth {maxDepth : Nat} {source : String} {x : Float}
    (h : (evaluate maxDepth source).outcome = .ok x) (hx : isNegative x = true) : 2 ≤ maxDepth := by
  rw [outcome_evaluate] at h
  cases he : (Expr.parse maxDepth source).outcome with
  | error f =>
    rw [he] at h
    cases h
  | ok e =>
    rw [he] at h
    obtain ⟨hw, hh⟩ := Expr.isWritable_of_parse he
    have htwo := hw.two_le_height h hx
    omega

/-! ## The second answer -/

section
variable {maxDepth : Nat}

/-- **The text of a finite result has the value of the result.** -/
theorem evaluate_text {x : Float} (h : magnitude x < infinity) (hm : isNegative x = true → 2 ≤ maxDepth) :
    (evaluate maxDepth (text x)).outcome = .ok x := by
  have hle := Nat.le_of_lt h
  have hnan : x.isNaN = false := by
    rw [Bool.eq_false_iff, Ne, isNaN_iff]
    exact Nat.lt_asymm h
  rw [outcome_evaluate, text_of_lt_infinity h, Expr.parse_signed (spells_shortest hle) (.number _) rfl hm]
  cases hs : isNegative x with
  | false =>
    rw [ofMagnitude_magnitude hs]
    rfl
  | true =>
    show Except.ok (-ofMagnitude (magnitude x)) = _
    rw [neg_ofMagnitude_magnitude hs hnan]

theorem evaluate_name {id : String} (hid : IsName id.toList) {negative : Bool} (hm : negative = true → 2 ≤ maxDepth) :
    (evaluate maxDepth (if negative then "-" ++ id else id)).outcome
      = .error (.unsupported ("identifier `" ++ id ++ "`")) := by
  rw [outcome_evaluate, Expr.parse_signed hid.spells (.name id) rfl hm]
  cases negative <;> rfl

end

/-- **A result can be fed back.**  If it is finite, the answer to its text is that text, and its value is the result;
infinity and NaN are names without a value.  A result with the sign bit set does not come from a limit below two. -/
theorem process_result (maxDepth : Nat) (source v : String)
    (h : Session.process ⟨.eval, maxDepth⟩ source = .ok ("=" ++ v ++ "\n")) :
    (v ≠ "inf" → v ≠ "-inf" → v ≠ "NaN" → Session.process ⟨.eval, maxDepth⟩ v = .ok ("=" ++ v ++ "\n")) ∧
    (v = "inf" ∨ v = "-inf" → Session.process ⟨.eval, maxDepth⟩ v = .error (.unsupported "identifier `inf`")) ∧
    (v = "NaN" → Session.process ⟨.eval, maxDepth⟩ v = .error (.unsupported "identifier `NaN`")) ∧
    ∃ x, (evaluate maxDepth source).outcome = .ok x ∧ v = text x ∧ (isNegative x = true → 2 ≤ maxDepth) ∧
      (magnitude x < infinity → (evaluate maxDepth v).outcome = .ok x) := by
  obtain ⟨x, hx, hv⟩ := Session.process_eq_ok_iff.1 h
  obtain rfl : v = text x := by simpa using hv
  have hm : isNegative x = true → 2 ≤ maxDepth := two_le_maxDepth hx
  have hinf : IsName "inf".toList := (.intro rfl (by simp) : IsName ['i', 'n', 'f'])
  have hnan : IsName "NaN".toList := (.intro rfl (by simp) : IsName ['N', 'a', 'N'])
  have hunsigned : false = true → 2 ≤ maxDepth := fun h => nomatch h
  simp only [Session.process_eval]
  refine ⟨fun h₁ h₂ h₃ => ?_, ?_, fun hv => ?_, x, hx, rfl, hm, fun hlt => evaluate_text hlt hm⟩
  · rw [evaluate_text (lt_infinity_of_text h₁ h₂ h₃) hm]
    rfl
  · rintro (hv | hv)
    · have hvalue := evaluate_name hinf hunsigned
      rw [hv]
      exact congrArg _ hvalue
    · have hs : isNegative x = true := isNegative_of_text (by rw [hv]; rfl)
      have hvalue := evaluate_name hinf (fun _ : true = true => hm hs)
      rw [hv]
      exact congrArg _ hvalue
  · have hvalue := evaluate_name hnan hunsigned
    rw [hv]
    exact congrArg _ hvalue

/-- A negative zero keeps its sign. -/
theorem process_result_zero :
    Session.process ⟨.eval, 2⟩ "-0.0" = .ok "=-0\n" ∧ Session.process ⟨.eval, 2⟩ "-0" = .ok "=-0\n" := by
  have h : Session.process ⟨.eval, 2⟩ "-0.0" = .ok ("=" ++ "-0" ++ "\n") := by
    rw [Session.process_eval, outcome_evaluate, Expr.parse_eq_readAll]
    iterate 2 rw [Cursor.scan_of_get_ok (by decide) rfl]
    rw [Cursor.scan_of_atEnd rfl]
    decide +kernel
  exact ⟨h, (process_result 2 "-0.0" "-0" h).1 (by decide) (by decide) (by decide)⟩

end Calculator
