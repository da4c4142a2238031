import Calculator.Proofs.Feedback
import Calculator.Proofs.Shortest
/-!
# Proofs.Notation — the two texts of a double

The plain text of a double is the numeral of its shortest decimal with no digit that could be left out (`IsTidy`), after
a minus sign if the sign bit is set.  The trace names the same decimal, with a point and at least one digit after it, or
as a number from one up to ten times a power of ten.

Which of the two the trace takes is decided by the shortest decimal, and is the same as if it were decided by the value
itself: a decimal that is the shortest of its own double is passed by both or by neither (`le_value_iff`).
-/
namespace Calculator

open Binary64

/-! ## Numerals with nothing to leave out -/

/-- Digits with no zero in front of another digit. -/
structure IsWhole (ds : List Char) : Prop where
  ne_nil : ds ≠ []
  isDigit : ∀ c ∈ ds, c.isDigit = true
  head_ne_zero : 1 < ds.length → ds.head? ≠ some '0'

/-- A numeral with no zero in front of another digit, and after the point, if there is one, digits that do not end in a
zero. -/
inductive IsTidy : List Char → Prop
  | whole {ds} : IsWhole ds → IsTidy ds
  | pointed {ds fs} : IsWhole ds → fs ≠ [] → (∀ c ∈ fs, c.isDigit = true) → fs.getLast? ≠ some '0' →
      IsTidy (ds ++ '.' :: fs)

theorem digitValue_lt {c : Char} (h : c.isDigit = true) : digitValue c < 10 := by
  have hle : c.toNat ≤ 57 := (Char.isDigit_iff_toNat.1 h).2
  show c.toNat - 48 < 10
  omega

theorem ofDigitChars_lt : ∀ {ds : List Char}, (∀ c ∈ ds, c.isDigit = true) → Nat.ofDigitChars 10 ds 0 < 10 ^ ds.length
  | [], _ => Nat.one_pos
  | c :: cs, h => by
    have hc := digitValue_lt (h c List.mem_cons_self)
    have hcs := ofDigitChars_lt (fun d hd => h d (List.mem_cons_of_mem c hd))
    have hmul : 10 ^ cs.length * digitValue c ≤ 10 ^ cs.length * 9 := Nat.mul_le_mul_left _ (Nat.le_of_lt_succ hc)
    rw [ofDigitChars_cons_zero, List.length_cons, Nat.pow_succ]
    omega

/-- The digits of a number have no zero in front: the others would be all its digits. -/
theorem isWhole_toDigits (n : Nat) : IsWhole (Nat.toDigits 10 n) := by
  refine ⟨Nat.toDigits_ne_nil, Decimal.isDigit_toDigits n, fun hlength hhead => ?_⟩
  obtain ⟨cs, hcs⟩ := List.head?_eq_some_iff.1 hhead
  have hdigits : ∀ c ∈ cs, c.isDigit = true := fun c hc =>
    Decimal.isDigit_toDigits n c (hcs ▸ List.mem_cons_of_mem _ hc)
  have hvalue : Nat.ofDigitChars 10 cs 0 = n := by
    have hzero : digitValue '0' = 0 := rfl
    have h := Nat.ofDigitChars_ten_toDigits (n := n)
    rwa [hcs, ofDigitChars_cons_zero, hzero, Nat.mul_zero, Nat.zero_add] at h
  rw [hcs, List.length_cons] at hlength
  have hlt : n < 10 ^ cs.length := hvalue ▸ ofDigitChars_lt hdigits
  have hshort := (Nat.length_toDigits_le_iff (by decide) (Nat.lt_of_succ_lt_succ hlength)).2 hlt
  rw [hcs, List.length_cons] at hshort
  exact absurd hshort (Nat.not_succ_le_self _)

namespace Decimal

theorem getLast?_dropTrailingZeros (cs : List Char) : (dropTrailingZeros cs).getLast? ≠ some '0' := by
  intro h
  have hhead := List.head?_dropWhile_not (· == '0') cs.reverse
  rw [dropTrailingZeros, List.getLast?_reverse] at h
  rw [h] at hhead
  cases hhead

/-! ## The texts of a decimal -/

section
variable (d : Decimal)

theorem isTidy_plain : IsTidy d.plain.toList := by
  have hwhole : IsWhole d.wholeDigits := isWhole_toDigits _
  have hdigits := d.isDigit_fractionDigits
  have hlast : d.fractionDigits.getLast? ≠ some '0' := getLast?_dropTrailingZeros _
  rw [toList_plain]
  cases hf : d.fractionDigits with
  | nil => exact (List.append_nil _).symm ▸ .whole hwhole
  | cons c cs =>
    rw [hf] at hdigits hlast
    exact .pointed hwhole (List.cons_ne_nil _ _) hdigits hlast

/-- **What is written plainly stands for the decimal.** -/
theorem denotes_plain : Denotes d.plain.toList d.value := by
  obtain ⟨k, hdigits, hscale⟩ := d.exists_ofNumeral_plain
  have hpow : Nat.pow 10 k = 10 ^ k := rfl
  have hvalue : (ofNumeral d.plain.toList).value = d.value := by
    rw [value, value, hscale, hdigits, hpow, pow_add]
    push_cast
    field_simp
  exact hvalue ▸ d.isNumeral_plain.denotes

/-- With a point there is a digit after it, and the decimal is the same. -/
theorem exists_pointed : ∃ ds fs, d.pointed.toList = ds ++ '.' :: fs ∧ IsWhole ds ∧ fs ≠ [] ∧
    Denotes d.pointed.toList d.value := by
  have hwhole : IsWhole d.wholeDigits := isWhole_toDigits _
  have hplain := d.denotes_plain
  rw [toList_plain] at hplain
  unfold pointed
  cases hf : d.fractionDigits with
  | nil =>
    simp only [hf, List.append_nil] at hplain
    have hzero := (hplain.barePoint (Denotes.point_not_mem hwhole.isDigit)).trailingZeros
      (List.mem_append_right _ List.mem_cons_self) 1
    rw [List.append_assoc] at hzero
    simp only [String.toList_ofList]
    exact ⟨_, _, rfl, hwhole, List.cons_ne_nil _ _, hzero⟩
  | cons c cs =>
    simp only [hf] at hplain
    simp only [String.toList_ofList]
    exact ⟨_, _, rfl, hwhole, List.cons_ne_nil _ _, hplain⟩

/-- The significant digits, with a point after the first if others follow. -/
def mantissa : List Char → List Char
  | [] => ['0']
  | [c] => [c]
  | c :: cs => c :: '.' :: cs

theorem toList_scientific : d.scientific.toList =
    mantissa (dropTrailingZeros (Nat.toDigits 10 d.digits)) ++ 'e' :: (toString d.exponent).toList := by
  have htext : d.scientific = String.ofList (mantissa (dropTrailingZeros (Nat.toDigits 10 d.digits))) ++ "e" ++
      toString d.exponent := by
    unfold scientific mantissa
    rfl
  have hletter : "e".toList = ['e'] := rfl
  rw [htext, String.toList_append, String.toList_append, String.toList_ofList, hletter, List.append_assoc]
  rfl

/-- Each digit after the first of a mantissa counts a tenth of the one before it. -/
theorem denotes_mantissa {c : Char} {cs : List Char} (h : ∀ c' ∈ c :: cs, c'.isDigit = true) :
    Denotes (mantissa (c :: cs)) (Nat.ofDigitChars 10 (c :: cs) 0 / 10 ^ cs.length) := by
  have hfirst : ∀ c' ∈ [c], c'.isDigit = true := fun c' hc' => h c' (List.mem_singleton.1 hc' ▸ List.mem_cons_self)
  cases cs with
  | nil =>
    have hwhole := Denotes.whole (List.cons_ne_nil c []) hfirst
    rwa [wholeValue_eq_ofDigitChars, ← div_one ((Nat.ofDigitChars 10 [c] 0 : ℕ) : ℚ), ← pow_zero 10] at hwhole
  | cons c' cs =>
    have hpointed := Denotes.pointed (List.cons_ne_nil c []) hfirst (fun d hd => h d (List.mem_cons_of_mem c hd))
    have hfirstValue : Nat.ofDigitChars 10 [c] 0 = digitValue c := by
      rw [ofDigitChars_cons_zero, List.length_nil, Nat.pow_zero, Nat.one_mul]
      rfl
    have hvalue : wholeValue [c] + fractionValue (c' :: cs)
        = Nat.ofDigitChars 10 (c :: c' :: cs) 0 / 10 ^ (c' :: cs).length := by
      rw [wholeValue_eq_ofDigitChars, fractionValue_eq_ofDigitChars, hfirstValue, ofDigitChars_cons_zero c]
      push_cast
      field_simp
    exact hvalue ▸ hpointed

theorem isTidy_mantissa {c : Char} {cs : List Char} (h : ∀ c' ∈ c :: cs, c'.isDigit = true)
    (hlast : (c :: cs).getLast? ≠ some '0') : IsTidy (mantissa (c :: cs)) := by
  have hfirst : ∀ c' ∈ [c], c'.isDigit = true := fun c' hc' => h c' (List.mem_singleton.1 hc' ▸ List.mem_cons_self)
  have hwhole : IsWhole [c] := ⟨List.cons_ne_nil _ _, hfirst, fun hlt => absurd hlt (Nat.lt_irrefl 1)⟩
  cases cs with
  | nil => exact .whole hwhole
  | cons c' cs => exact .pointed hwhole (List.cons_ne_nil _ _) (fun d hd => h d (List.mem_cons_of_mem c hd)) hlast

/-- In scientific form the number before the power of ten is at least one and less than ten. -/
theorem exists_scientific (h : d.digits ≠ 0) : ∃ w m e,
    d.scientific.toList = w ++ 'e' :: (toString (e : Int)).toList ∧ IsTidy w ∧ Denotes w m ∧ 1 ≤ m ∧ m < 10 ∧
      d.value = m * 10 ^ e := by
  obtain ⟨k, hk⟩ := exists_replicate_dropTrailingZeros (Nat.toDigits 10 d.digits)
  have hlast := getLast?_dropTrailingZeros (Nat.toDigits 10 d.digits)
  have hvalue := Nat.ofDigitChars_ten_toDigits (n := d.digits)
  cases hds : dropTrailingZeros (Nat.toDigits 10 d.digits) with
  | nil =>
    rw [hds, List.nil_append] at hk
    rw [hk, Nat.ofDigitChars_replicate_zero, Nat.mul_zero] at hvalue
    exact absurd hvalue.symm h
  | cons c cs =>
    rw [hds] at hk hlast
    have hdigit : ∀ c' ∈ c :: cs, c'.isDigit = true := fun c' hc' =>
      isDigit_toDigits d.digits c' (hk ▸ List.mem_append_left _ hc')
    have hlower := pow_length_toDigits_le h
    have hupper := ofDigitChars_lt hdigit
    have hlength : (Nat.toDigits 10 d.digits).length = cs.length + k + 1 := by
      rw [hk, List.length_append, List.length_replicate, List.length_cons]
      omega
    rw [hk, Nat.ofDigitChars_append, Nat.ofDigitChars_replicate_zero] at hvalue
    have hmantissa := denotes_mantissa hdigit
    generalize Nat.ofDigitChars 10 (c :: cs) 0 = x at hvalue hupper hmantissa
    have hx : 10 ^ cs.length ≤ x := by
      rw [hlength, Nat.add_sub_cancel, ← hvalue, Nat.pow_add, Nat.mul_comm] at hlower
      exact Nat.le_of_mul_le_mul_left hlower (Nat.pow_pos (by decide))
    have hexponent : d.exponent = cs.length + k - d.scale := by
      rw [exponent, hlength]
      push_cast
      ring
    refine ⟨_, _, _, hds ▸ d.toList_scientific, isTidy_mantissa hdigit hlast, hmantissa, ?_, ?_, ?_⟩
    · rw [le_div_iff₀ (by positivity), one_mul]
      exact_mod_cast hx
    · rw [div_lt_iff₀ (by positivity), ← pow_succ']
      exact_mod_cast hupper
    · rw [hexponent, zpow_sub₀ (by norm_num), zpow_add₀ (by norm_num), zpow_natCast, zpow_natCast, zpow_natCast, value,
        ← hvalue]
      push_cast
      field_simp

end
end Decimal

namespace Binary64

/-! ## Which text the trace takes -/

/-- Decimals of any scales are compared crosswise. -/
theorem value_le_value_iff_mul_le {d d' : Decimal} :
    d.value ≤ d'.value ↔ d.digits * Nat.pow 10 d'.scale ≤ d'.digits * Nat.pow 10 d.scale := by
  have hpow : ∀ s, Nat.pow 10 s = 10 ^ s := fun _ => rfl
  rw [Decimal.value, Decimal.value, div_le_div_iff₀ (by positivity) (by positivity), hpow, hpow]
  norm_cast

/-- A bound that is not above any decimal of its own double is compared with a decimal as their doubles are. -/
theorem le_value_iff {bound d : Decimal} (h : bound.nearest = d.nearest → bound.value ≤ d.value) :
    bound.value ≤ d.value ↔ bound.nearest ≤ d.nearest := by
  refine ⟨nearest_mono, fun hle => ?_⟩
  by_contra hlt
  exact hlt (h (Nat.le_antisymm hle (nearest_mono (not_le.1 hlt).le)))

theorem le_value_shortest_iff {bound : Decimal} (hexact : bound.value ≤ (exact bound.nearest).value)
    (hshortest : bound.value ≤ (shortest bound.nearest).value) {n : Nat} (hn : n ≤ infinity) :
    bound.value ≤ (shortest n).value ↔ bound.value ≤ value n := by
  have hleft : bound.value ≤ (shortest n).value ↔ bound.nearest ≤ (shortest n).nearest := le_value_iff (fun h => by
    rwa [h, nearest_shortest hn] at hshortest)
  have hright : bound.value ≤ (exact n).value ↔ bound.nearest ≤ (exact n).nearest := le_value_iff (fun h => by
    rwa [h, nearest_exact hn] at hexact)
  rw [hleft, nearest_shortest hn, ← value_exact, hright, nearest_exact hn]

theorem isPlainRange_iff {d : Decimal} : isPlainRange d = true ↔
    d.digits = 0 ∨ (⟨1, 4⟩ : Decimal).value ≤ d.value ∧ ¬ (⟨10 ^ 16, 0⟩ : Decimal).value ≤ d.value := by
  have hpow : Nat.pow 10 (16 + d.scale) = 10 ^ 16 * Nat.pow 10 d.scale := Nat.pow_add 10 16 _
  have hone : Nat.pow 10 0 = 1 := rfl
  rw [isPlainRange, value_le_value_iff_mul_le, value_le_value_iff_mul_le, hpow, hone, Nat.mul_one, Nat.one_mul,
    Nat.not_le]
  simp only [Bool.or_eq_true, beq_iff_eq, Bool.and_eq_true, decide_eq_true_eq]

/-- **The trace writes a double plainly exactly if it is zero, or at least `10 ^ -4` and less than `10 ^ 16`.** -/
theorem isPlainRange_shortest {n : Nat} (hn : n ≤ infinity) :
    isPlainRange (shortest n) = true ↔ n = 0 ∨ 1 / 10 ^ 4 ≤ value n ∧ value n < 10 ^ 16 := by
  have hlower : (⟨1, 4⟩ : Decimal).value = 1 / 10 ^ 4 := by rw [Decimal.value, Nat.cast_one]
  have hupper : (⟨10 ^ 16, 0⟩ : Decimal).value = 10 ^ 16 := by
    rw [Decimal.value, pow_zero, div_one]
    exact Nat.cast_pow 10 16
  have hzero : (shortest n).digits = 0 ↔ n = 0 := by
    constructor
    · intro hdigits
      have hvalue : (shortest n).value = 0 := by rw [Decimal.value, hdigits, Nat.cast_zero, zero_div]
      rw [← nearest_shortest hn, nearest_eq_zero_iff, hvalue]
      positivity
    · rintro rfl
      decide +kernel
  rw [isPlainRange_iff, hzero, le_value_shortest_iff (value_le_value_iff_mul_le.2 (by decide +kernel))
    (value_le_value_iff_mul_le.2 (by decide +kernel)) hn, le_value_shortest_iff
    (value_le_value_iff_mul_le.2 (by decide +kernel)) (value_le_value_iff_mul_le.2 (by decide +kernel)) hn, hlower,
    hupper, not_le]

end Binary64

/-! ## The texts of a double -/

/-- The text is read as the number with these bits. -/
def ReadsAs (w : List Char) (bits : Nat) : Prop :=
  ∃ y : Float, Token.ofLexeme? w = some (.number y) ∧ y.toBits.toNat = bits

/-- The number has `k` digits and no numeral that is read alike has fewer, nor is one with as many nearer to the value
of the double. -/
structure IsShortest (bits k : Nat) (q : ℚ) : Prop where
  hasDigits : HasDigits k q
  fewest : ∀ w r p, Denotes w r → ReadsAs w bits → HasDigits p r → k ≤ p
  closest : ∀ w r, Denotes w r → ReadsAs w bits → HasDigits k r → |q - value bits| ≤ |r - value bits|

theorem Denotes.nearest_of_readsAs {w : List Char} {q : ℚ} {bits : Nat} (h : Denotes w q) (hw : ReadsAs w bits) :
    (Decimal.ofNumeral w).nearest = bits := by
  obtain ⟨y, hy, hbits⟩ := hw
  rw [h.spells.ofLexeme?] at hy
  injection hy with hy
  injection hy with hy
  rw [← hbits, ← hy, Denotes.toNat_toBits]

theorem readsAs_plain {n : Nat} (hn : n ≤ infinity) : ReadsAs (shortest n).plain.toList n :=
  ⟨_, (spells_shortest hn).ofLexeme?, toNat_toBits_ofMagnitude hn⟩

theorem exists_isShortest {n : Nat} (hn : n ≤ infinity) (h0 : n ≠ 0) : ∃ k, IsShortest n k (shortest n).value := by
  obtain ⟨k, hdigits, hfewest, hclosest⟩ := exists_digits_shortest hn h0
  refine ⟨k, hdigits, fun w r p hw hread hp => ?_, fun w r hw hread hk => ?_⟩
  · exact hfewest _ p (hw.nearest_of_readsAs hread) (hw.eq_value ▸ hp)
  · have hle := hclosest _ (hw.nearest_of_readsAs hread) (hw.eq_value ▸ hk)
    rwa [← hw.eq_value] at hle

theorem signed_of_lt_infinity {x : Float} (hx : magnitude x < infinity) (write : Decimal → String) :
    signed write x = (if isNegative x then "-" else "") ++ write (shortest (magnitude x)) := by
  have hempty : ∀ s : String, "" ++ s = s := fun _ => String.empty_append
  rw [signed, if_neg (Nat.lt_asymm hx), if_neg (Nat.ne_of_lt hx)]
  cases isNegative x with
  | false => exact (hempty _).symm
  | true => rfl

/-- What the trace writes of a decimal: the point and a digit after it, or a power of ten. -/
theorem Decimal.exists_trace (d : Decimal) :
    ∃ v, (if isPlainRange d then d.pointed else d.scientific) = String.ofList v ∧
      if isPlainRange d then ∃ ds fs, v = ds ++ '.' :: fs ∧ IsWhole ds ∧ fs ≠ [] ∧ Denotes v d.value
      else ∃ u m e, v = u ++ 'e' :: (toString (e : Int)).toList ∧ IsTidy u ∧ Denotes u m ∧ 1 ≤ m ∧ m < 10 ∧
        d.value = m * 10 ^ e := by
  cases hr : isPlainRange d with
  | true => exact ⟨d.pointed.toList, String.ofList_toList.symm, d.exists_pointed⟩
  | false =>
    have hdigits : d.digits ≠ 0 := by
      intro hzero
      have hplain := isPlainRange_iff.2 (.inl hzero)
      rw [hr] at hplain
      cases hplain
    exact ⟨d.scientific.toList, String.ofList_toList.symm, d.exists_scientific hdigits⟩

/-- **Both texts of a finite double name the same decimal, the shortest that is read as it.**  The one in results,
outlines and messages is a numeral with no digit to leave out, and read as the double without its sign.  The one in the
trace has a point and a digit after it, or the power of ten where the double is small or large.  A minus sign is before
either exactly if the sign bit is set. -/
theorem number_texts {x : Float} (hx : magnitude x < infinity) :
    let sign := if isNegative x then "-" else ""
    ∃ (w v : List Char) (q : ℚ), IsTidy w ∧ Denotes w q ∧ ReadsAs w (magnitude x) ∧
      (magnitude x ≠ 0 → ∃ k, IsShortest (magnitude x) k q) ∧
      (if magnitude x = 0 ∨ 1 / 10 ^ 4 ≤ value (magnitude x) ∧ value (magnitude x) < 10 ^ 16 then
        ∃ ds fs, v = ds ++ '.' :: fs ∧ IsWhole ds ∧ fs ≠ [] ∧ Denotes v q
      else ∃ u m e, v = u ++ 'e' :: (toString (e : Int)).toList ∧ IsTidy u ∧ Denotes u m ∧ 1 ≤ m ∧ m < 10 ∧
        q = m * 10 ^ e) ∧
      (Token.number x).text = sign ++ String.ofList w ∧ (Expr.number x).label = sign ++ String.ofList w ∧
      (∀ maxDepth source, (evaluate maxDepth source).outcome = .ok x →
        Session.process ⟨.eval, maxDepth⟩ source = .ok ("=" ++ (sign ++ String.ofList w) ++ "\n")) ∧
      ∀ offset, (Event.token (.number x) offset).line
        = "TRACE token " ++ ("Number(" ++ (sign ++ String.ofList v) ++ ")") ++ " at " ++ toString offset := by
  intro sign
  have hn := Nat.le_of_lt hx
  have htext : text x = sign ++ (shortest (magnitude x)).plain := signed_of_lt_infinity hx _
  have htrace : traceText x = sign ++
      if isPlainRange (shortest (magnitude x)) then (shortest (magnitude x)).pointed
      else (shortest (magnitude x)).scientific := signed_of_lt_infinity hx _
  generalize hd : shortest (magnitude x) = d at htext htrace
  obtain ⟨v, hv, hform⟩ := d.exists_trace
  rw [hv] at htrace
  refine ⟨d.plain.toList, v, d.value, d.isTidy_plain, d.denotes_plain, hd ▸ readsAs_plain hn,
    fun h0 => hd ▸ exists_isShortest hn h0, ?_, ?_, ?_, fun maxDepth source h => ?_, fun offset => ?_⟩
  · simp only [← isPlainRange_shortest hn, hd]
    exact hform
  · rw [String.ofList_toList]
    exact htext
  · rw [String.ofList_toList]
    exact htext
  · rw [String.ofList_toList]
    exact Session.process_eq_ok_iff.2 ⟨x, h, by rw [htext]⟩
  · rw [← htrace]
    rfl

/-- Ten to the sixteenth is the first whole number that the trace writes with an exponent. -/
theorem number_texts_large :
    let x := ofMagnitude 0x4341C37937E08000
    magnitude x < infinity ∧ (Token.number x).text = "10000000000000000" ∧
      (Event.token (.number x) 0).line = "TRACE token Number(1e16) at 0" ∧
      ∃ k, IsShortest 0x4341C37937E08000 k (10 ^ 16) := by
  intro x
  have hmagnitude : magnitude x = 0x4341C37937E08000 := magnitude_ofMagnitude (by decide)
  have hx : magnitude x < infinity := hmagnitude ▸ by decide
  have htext : (Token.number x).text = "10000000000000000" := by decide +kernel
  obtain ⟨w, -, q, -, hw, -, hshortest, -, hnumber, -⟩ := number_texts hx
  have hsign : isNegative x = false := isNegative_ofMagnitude (by decide)
  obtain rfl : w = "10000000000000000".toList := by
    rw [htext, hsign] at hnumber
    rw [hnumber]
    simp
  have hdecimal : Decimal.ofNumeral "10000000000000000".toList = ⟨10 ^ 16, 0⟩ := by decide +kernel
  have hq : q = 10 ^ 16 := by
    rw [hw.eq_value, hdecimal, Decimal.value, pow_zero, div_one]
    exact Nat.cast_pow 10 16
  rw [hmagnitude, hq] at hshortest
  exact ⟨hx, htext, by decide +kernel, hshortest (by decide)⟩

end Calculator
