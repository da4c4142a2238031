import Calculator.Proofs.Exact
import Calculator.Proofs.Spelling
/-!
# Proofs.Numeral — a decimal written plainly reads as itself

`Decimal.plain` writes a numeral, and reading it gives the decimal in its lowest scale: the same value, the trailing
zeros of the fraction gone (`exists_ofNumeral_plain`).  So the double nearest to it is still the same.
-/
namespace Calculator
namespace Decimal

/-! ## Reading a numeral -/

/-- The digits on both sides of the point are read as one number. -/
theorem ofNumeral_pointed {ds : List Char} (hds : ∀ c ∈ ds, c.isDigit = true) (fs : List Char) :
    ofNumeral (ds ++ '.' :: fs) = ⟨Nat.ofDigitChars 10 (ds ++ fs) 0, fs.length⟩ := by
  have hstop : Char.isDigit '.' = false := rfl
  have hwhole : wholePart (ds ++ '.' :: fs) = ds := by
    rw [wholePart, takeWhile_append_cons hstop, List.takeWhile_eq_self_iff.2 hds]
  have hfraction : fractionPart (ds ++ '.' :: fs) = fs := by
    rw [fractionPart, dropWhile_append_cons hstop, List.dropWhile_eq_nil_iff.2 hds]
    rfl
  rw [ofNumeral, hwhole, hfraction]

theorem ofNumeral_whole {ds : List Char} (hds : ∀ c ∈ ds, c.isDigit = true) :
    ofNumeral ds = ⟨Nat.ofDigitChars 10 ds 0, 0⟩ := by
  have hfraction : fractionPart ds = [] := by
    rw [fractionPart, List.dropWhile_eq_nil_iff.2 hds]
    rfl
  rw [ofNumeral, wholePart, List.takeWhile_eq_self_iff.2 hds, hfraction, List.append_nil]
  rfl

/-! ## Writing one -/

theorem isDigit_toDigits (n : Nat) : ∀ c ∈ Nat.toDigits 10 n, c.isDigit = true :=
  fun _ hc => Nat.isDigit_of_mem_toDigits (by decide) (by decide) hc

theorem ofDigitChars_toDigits_append (n : Nat) (fs : List Char) :
    Nat.ofDigitChars 10 (Nat.toDigits 10 n ++ fs) 0 = Nat.pow 10 fs.length * n + Nat.ofDigitChars 10 fs 0 := by
  rw [Nat.ofDigitChars_append, Nat.ofDigitChars_ten_toDigits]
  exact Nat.ofDigitChars_eq_ofDigitChars_zero

theorem exists_replicate_dropTrailingZeros (cs : List Char) :
    ∃ k, cs = dropTrailingZeros cs ++ List.replicate k '0' := by
  refine ⟨(cs.reverse.takeWhile (· == '0')).length, ?_⟩
  have hzeros : (cs.reverse.takeWhile (· == '0')).reverse
      = List.replicate (cs.reverse.takeWhile (· == '0')).length '0' := by
    rw [List.eq_replicate_iff, List.length_reverse]
    refine ⟨rfl, fun c hc => ?_⟩
    have hzero := List.mem_takeWhile_imp (List.mem_reverse.1 hc)
    exact beq_iff_eq.1 hzero
  rw [← hzeros, dropTrailingZeros, ← List.reverse_append, List.takeWhile_append_dropWhile, List.reverse_reverse]

/-- The digits of the fraction as far as the scale goes. -/
def paddedFraction (d : Decimal) : List Char :=
  List.replicate (d.scale - (Nat.toDigits 10 (d.digits % Nat.pow 10 d.scale)).length) '0' ++
    Nat.toDigits 10 (d.digits % Nat.pow 10 d.scale)

section
variable (d : Decimal)

theorem fractionDigits_eq : d.fractionDigits = dropTrailingZeros d.paddedFraction := rfl

theorem isDigit_fractionDigits : ∀ c ∈ d.fractionDigits, c.isDigit = true := by
  intro c hc
  obtain ⟨k, hk⟩ := exists_replicate_dropTrailingZeros d.paddedFraction
  have hmem : c ∈ d.paddedFraction := by
    rw [hk]
    exact List.mem_append_left _ hc
  rcases List.mem_append.1 hmem with hc | hc
  · rw [List.eq_of_mem_replicate hc]
    rfl
  · exact isDigit_toDigits _ c hc

theorem ofDigitChars_paddedFraction : Nat.ofDigitChars 10 d.paddedFraction 0 = d.digits % Nat.pow 10 d.scale := by
  rw [paddedFraction, Nat.ofDigitChars_append, Nat.ofDigitChars_replicate_zero, Nat.mul_zero,
    Nat.ofDigitChars_ten_toDigits]

theorem length_paddedFraction (h : 0 < d.scale) : d.paddedFraction.length = d.scale := by
  have hlt : d.digits % Nat.pow 10 d.scale < 10 ^ d.scale := Nat.mod_lt _ (Nat.pow_pos (by decide))
  have hle := (Nat.length_toDigits_le_iff (by decide) h).2 hlt
  rw [paddedFraction, List.length_append, List.length_replicate]
  omega

/-- The numeral that is written, with its point only if there are digits after it. -/
theorem toList_plain : d.plain.toList = d.wholeDigits ++
    match d.fractionDigits with
    | [] => []
    | c :: cs => '.' :: c :: cs := by
  unfold plain
  cases d.fractionDigits with
  | nil => rw [String.toList_ofList, List.append_nil]
  | cons c cs => rw [String.toList_ofList]

theorem isNumeral_plain : IsNumeral d.plain.toList := by
  have hfraction := d.isDigit_fractionDigits
  rw [toList_plain]
  split
  · rw [List.append_nil]
    exact .whole Nat.toDigits_ne_nil (isDigit_toDigits _)
  · rename_i hf
    rw [hf] at hfraction
    exact .pointed Nat.toDigits_ne_nil (isDigit_toDigits _) hfraction

theorem ofNumeral_plain : ofNumeral d.plain.toList
    = ⟨Nat.ofDigitChars 10 (d.wholeDigits ++ d.fractionDigits) 0, d.fractionDigits.length⟩ := by
  rw [toList_plain]
  split
  · rename_i hf
    rw [hf, List.append_nil]
    exact ofNumeral_whole (isDigit_toDigits _)
  · rename_i hf
    rw [hf]
    exact ofNumeral_pointed (isDigit_toDigits _) _

/-- **What is written is the decimal itself, but for zeros at the end of the fraction.** -/
theorem exists_ofNumeral_plain : ∃ k, d.digits = (ofNumeral d.plain.toList).digits * Nat.pow 10 k ∧
    d.scale = (ofNumeral d.plain.toList).scale + k := by
  rw [ofNumeral_plain]
  rcases Nat.eq_zero_or_pos d.scale with hzero | hpos
  · -- a whole number is padded with a zero, which is dropped
    have hone : d.digits % Nat.pow 10 d.scale = 0 := by
      rw [hzero]
      exact Nat.mod_one _
    have hfraction : d.fractionDigits = [] := by
      rw [fractionDigits_eq, paddedFraction, hone, hzero]
      rfl
    have hwhole : d.wholeDigits = Nat.toDigits 10 d.digits := by
      rw [wholeDigits, hzero]
      exact congrArg (Nat.toDigits 10) (Nat.div_one _)
    refine ⟨0, ?_, ?_⟩
    · rw [hfraction, List.append_nil, hwhole, Nat.ofDigitChars_ten_toDigits]
      exact (Nat.mul_one _).symm
    · rw [hfraction, hzero]
      rfl
  · obtain ⟨k, hk⟩ := exists_replicate_dropTrailingZeros d.paddedFraction
    rw [← fractionDigits_eq] at hk
    have hlength := congrArg List.length hk
    rw [d.length_paddedFraction hpos, List.length_append, List.length_replicate] at hlength
    refine ⟨k, ?_, hlength⟩
    have hvalue : Nat.ofDigitChars 10 (d.wholeDigits ++ d.paddedFraction) 0 = d.digits := by
      rw [wholeDigits, ofDigitChars_toDigits_append, d.length_paddedFraction hpos, ofDigitChars_paddedFraction]
      exact Nat.div_add_mod _ _
    rw [hk, ← List.append_assoc, Nat.ofDigitChars_append, Nat.ofDigitChars_replicate_zero] at hvalue
    exact hvalue.symm.trans (Nat.mul_comm _ _)

/-- **A decimal written plainly reads as the same double.** -/
theorem nearest_ofNumeral_plain : (ofNumeral d.plain.toList).nearest = d.nearest := by
  obtain ⟨k, hdigits, hscale⟩ := d.exists_ofNumeral_plain
  have hpow : Nat.pow 10 d.scale = Nat.pow 10 (ofNumeral d.plain.toList).scale * Nat.pow 10 k := by
    rw [hscale]
    exact Nat.pow_add 10 _ _
  rw [Decimal.nearest, Decimal.nearest, hpow]
  conv => rhs; rw [hdigits]
  exact (Binary64.nearest_mul_right _ _ (Nat.pow_pos (by decide))).symm

end
end Decimal
end Calculator
