import Calculator.Proofs.Bits
import Calculator.Proofs.Cut
import Calculator.Proofs.Numeral
import Calculator.Proofs.Rounding
import Mathlib
/-!
# Proofs.Nearest — a numeral is read as the nearest double

`Denotes` gives the number that a numeral stands for, each digit in its place, and `Binary64.value` the number that the
bits of a double stand for; both are rational numbers.  What is read has the bits nearest to the number, an even
significand where two are equally near (`IsNearest`), and depends on nothing but the number: so a numeral may have
zeros and a bare point more, and a larger number is never read as less.
-/
namespace Calculator

open Binary64

/-! ## The number that a numeral stands for -/

def digitValue (c : Char) : Nat := c.toNat - '0'.toNat

/-- Digits before the point: the first counts as many tens as digits follow. -/
def wholeValue : List Char → ℚ
  | [] => 0
  | c :: cs => digitValue c * 10 ^ cs.length + wholeValue cs

/-- Digits after the point: each counts a tenth of the one before it. -/
def fractionValue : List Char → ℚ
  | [] => 0
  | c :: cs => (digitValue c + fractionValue cs) / 10

/-- The text is a numeral, and stands for the number. -/
inductive Denotes : List Char → ℚ → Prop
  | whole {ds} : ds ≠ [] → (∀ c ∈ ds, c.isDigit = true) → Denotes ds (wholeValue ds)
  | pointed {ds fs} : ds ≠ [] → (∀ c ∈ ds, c.isDigit = true) → (∀ c ∈ fs, c.isDigit = true) →
      Denotes (ds ++ '.' :: fs) (wholeValue ds + fractionValue fs)

def Decimal.value (d : Decimal) : ℚ := d.digits / 10 ^ d.scale

theorem ofDigitChars_cons_zero (c : Char) (cs : List Char) :
    Nat.ofDigitChars 10 (c :: cs) 0 = 10 ^ cs.length * digitValue c + Nat.ofDigitChars 10 cs 0 := by
  rw [Nat.ofDigitChars_cons, Nat.mul_zero, Nat.zero_add]
  exact Nat.ofDigitChars_eq_ofDigitChars_zero

theorem wholeValue_eq_ofDigitChars : ∀ ds : List Char, wholeValue ds = (Nat.ofDigitChars 10 ds 0 : ℕ)
  | [] => by simp [wholeValue]
  | c :: cs => by
    rw [wholeValue, wholeValue_eq_ofDigitChars cs, ofDigitChars_cons_zero]
    push_cast
    ring

theorem fractionValue_eq_ofDigitChars : ∀ fs : List Char,
    fractionValue fs = (Nat.ofDigitChars 10 fs 0 : ℕ) / 10 ^ fs.length
  | [] => by simp [fractionValue]
  | c :: cs => by
    rw [fractionValue, fractionValue_eq_ofDigitChars cs, ofDigitChars_cons_zero, List.length_cons]
    push_cast
    field_simp
    ring

theorem Denotes.isNumeral {w : List Char} {q : ℚ} (h : Denotes w q) : IsNumeral w := by
  cases h with
  | whole hne hds => exact .whole hne hds
  | pointed hne hds hfs => exact .pointed hne hds hfs

/-- **A numeral is read as the decimal that it stands for.** -/
theorem Denotes.eq_value {w : List Char} {q : ℚ} (h : Denotes w q) : q = (Decimal.ofNumeral w).value := by
  cases h with
  | whole _ hds =>
    rw [Decimal.ofNumeral_whole hds, Decimal.value, wholeValue_eq_ofDigitChars, pow_zero, div_one]
  | @pointed ds fs _ hds _ =>
    have hdigits : Nat.ofDigitChars 10 (ds ++ fs) 0
        = 10 ^ fs.length * Nat.ofDigitChars 10 ds 0 + Nat.ofDigitChars 10 fs 0 := by
      rw [Nat.ofDigitChars_append]
      exact Nat.ofDigitChars_eq_ofDigitChars_zero
    rw [Decimal.ofNumeral_pointed hds, Decimal.value, wholeValue_eq_ofDigitChars, fractionValue_eq_ofDigitChars,
      hdigits]
    push_cast
    field_simp

theorem IsNumeral.denotes {w : List Char} (h : IsNumeral w) : Denotes w (Decimal.ofNumeral w).value := by
  have hexists : ∃ q, Denotes w q := by
    cases h with
    | whole hne hds => exact ⟨_, .whole hne hds⟩
    | pointed hne hds hfs => exact ⟨_, .pointed hne hds hfs⟩
  obtain ⟨q, hq⟩ := hexists
  rwa [← hq.eq_value]

/-! ## The number that the bits stand for -/

namespace Binary64

/-- The value of a magnitude.  Infinity counts as the power of two at which the finite doubles end. -/
def value (n : Nat) : ℚ := units n / 2 ^ 1074

/-- The magnitude is nearest to the number, and of two equally near the one with the even significand. -/
structure IsNearest (q : ℚ) (n : Nat) : Prop where
  le_infinity : n ≤ infinity
  nearest : ∀ m ≤ infinity, |value n - q| ≤ |value m - q|
  even_of_tie : ∀ m ≤ infinity, m ≠ n → |value m - q| = |value n - q| → significand n % 2 = 0

theorem value_zero : value 0 = 0 := by
  have hzero : units 0 = 0 := by decide
  rw [value, hzero, Nat.cast_zero, zero_div]

theorem value_succ (n : Nat) : value (n + 1) = value n + 2 ^ doublings n / 2 ^ 1074 := by
  have hpow : ((Nat.pow 2 (doublings n) : ℕ) : ℚ) = 2 ^ doublings n := Nat.cast_pow 2 _
  rw [value, units_succ, Nat.cast_add, hpow, add_div, value]

theorem value_strictMono : StrictMono value := fun _ _ h =>
  div_lt_div_of_pos_right (Nat.cast_lt.2 (units_strictMono h)) (by positivity)

theorem value_infinity : value infinity = 2 ^ 1024 := by
  have hsum : 52 + doublings infinity = 1024 + 1074 := by decide
  rw [value]
  generalize 1024 = j at hsum ⊢
  generalize 1074 = k at hsum ⊢
  have hunits : units infinity = 2 ^ j * 2 ^ k := units_eq_pow (by decide) hsum
  rw [hunits]
  push_cast
  rw [mul_div_assoc, div_self (by positivity), mul_one]

/-- The largest finite double. -/
theorem value_pred_infinity : value (infinity - 1) = 2 ^ 1024 - 2 ^ 971 := by
  have hdoublings : doublings (infinity - 1) = 971 + 1074 := by decide
  have hsucc : value infinity = value (infinity - 1) + 2 ^ doublings (infinity - 1) / 2 ^ 1074 := value_succ _
  rw [hdoublings, value_infinity] at hsucc
  generalize 1074 = k at hsucc
  rw [pow_add, mul_div_assoc, div_self (by positivity), mul_one] at hsucc
  exact eq_sub_of_add_eq hsucc.symm

/-! ## Reading a decimal -/

section
variable {d d' : Decimal}

/-- **A decimal is rounded past a magnitude exactly if it lies beyond the middle to the next one**, or in the middle and
the magnitude is odd. -/
theorem lt_nearest_iff_value {n : Nat} (hn : n < infinity) : n < d.nearest ↔
    value n + value (n + 1) < 2 * d.value ∨ value n + value (n + 1) = 2 * d.value ∧ n % 2 = 1 := by
  have hten : (0 : ℚ) < 10 ^ d.scale := by positivity
  have hpow : ((Nat.pow 10 d.scale : ℕ) : ℚ) = 10 ^ d.scale := Nat.cast_pow 10 _
  have htwice : 2 * d.value = (2 * d.digits : ℚ) / 10 ^ d.scale := (mul_div_assoc _ _ _).symm
  have hden : 0 < Nat.pow 10 d.scale := Nat.pow_pos (by decide)
  rw [Decimal.nearest, Binary64.lt_nearest_iff hden hn, PassesMiddle, htwice]
  simp only [value]
  generalize 1074 = k
  have hunit : (0 : ℚ) < 2 ^ k := by positivity
  have hpow' : ((Nat.pow 2 k : ℕ) : ℚ) = 2 ^ k := Nat.cast_pow 2 _
  have hsum : (units n : ℚ) / 2 ^ k + units (n + 1) / 2 ^ k = (middle n : ℚ) / 2 ^ k := by
    rw [← add_div, middle, Nat.cast_add]
  rw [hsum, div_lt_div_iff₀ hunit hten, div_eq_div_iff hunit.ne' hten.ne', ← hpow, ← hpow', mul_assoc 2]
  norm_cast

/-- **What is not larger is not read as more.** -/
theorem nearest_mono (h : d.value ≤ d'.value) : d.nearest ≤ d'.nearest := by
  by_contra hlt
  have hlt : d'.nearest < d.nearest := Nat.not_le.1 hlt
  have hn : d'.nearest < infinity := Nat.lt_of_lt_of_le hlt (Nat.min_le_right _ _)
  refine Nat.lt_irrefl d'.nearest ((lt_nearest_iff_value hn).2 ?_)
  rcases (lt_nearest_iff_value hn).1 hlt with hpass | ⟨hpass, hodd⟩
  · exact .inl (by linarith)
  · rcases h.lt_or_eq with h | h
    · exact .inl (by linarith)
    · exact .inr ⟨h ▸ hpass, hodd⟩

/-- Reading depends on nothing but the value. -/
theorem nearest_congr (h : d.value = d'.value) : d.nearest = d'.nearest :=
  Nat.le_antisymm (nearest_mono h.le) (nearest_mono h.ge)

/-- What lies between two decimals that are read alike is read as they are. -/
theorem nearest_of_between {d₁ d₂ : Decimal} {n : Nat} (h₁ : d₁.nearest = n) (h₂ : d₂.nearest = n)
    (hle : d₁.value ≤ d.value) (hge : d.value ≤ d₂.value) : d.nearest = n :=
  Nat.le_antisymm (h₂ ▸ nearest_mono hge) (h₁ ▸ nearest_mono hle)

end

/-- The upper one of two is nearer from their middle on. -/
theorem abs_upper_le {l u v : ℚ} (hlu : l < u) (h : l + u ≤ 2 * v) :
    |u - v| ≤ |l - v| ∧ (|l - v| = |u - v| → l + u = 2 * v) := by
  have hl : |l - v| = v - l := by
    rw [abs_sub_comm]
    exact abs_of_pos (by linarith)
  rw [hl]
  refine ⟨abs_le.2 ⟨by linarith, by linarith⟩, fun htie => ?_⟩
  rcases abs_choice (u - v) with hu | hu <;> linarith

/-- The lower one of two is nearer up to their middle. -/
theorem abs_lower_le {l u v : ℚ} (hlu : l < u) (h : 2 * v ≤ l + u) :
    |l - v| ≤ |u - v| ∧ (|u - v| = |l - v| → l + u = 2 * v) := by
  have hneg := abs_upper_le (l := -u) (u := -l) (v := -v) (by linarith) (by linarith)
  have habs : ∀ x : ℚ, |-x - -v| = |x - v| := fun x => by rw [neg_sub_neg, abs_sub_comm]
  rw [habs, habs] at hneg
  exact ⟨hneg.1, fun htie => by linarith [hneg.2 htie]⟩

/-- **What is read is nearest to the decimal.** -/
theorem isNearest_nearest (d : Decimal) : IsNearest d.value d.nearest := by
  have hle : d.nearest ≤ infinity := Nat.min_le_right _ _
  have hboth : ∀ m ≤ infinity, m ≠ d.nearest → |value d.nearest - d.value| ≤ |value m - d.value| ∧
      (|value m - d.value| = |value d.nearest - d.value| → d.nearest % 2 = 0) := by
    intro m hm hne
    rcases Nat.lt_or_gt_of_ne hne with hlt | hgt
    · obtain ⟨k, hk⟩ : ∃ k, d.nearest = k + 1 := ⟨d.nearest - 1, by omega⟩
      have hpass := (lt_nearest_iff_value (d := d) (n := k) (by omega)).1 (by omega)
      have hmk : value m ≤ value k := value_strictMono.monotone (by omega)
      have hmn : value m < value d.nearest := value_strictMono hlt
      rw [← hk] at hpass
      have hmiddle : value m + value d.nearest ≤ 2 * d.value := by rcases hpass with h | ⟨h, -⟩ <;> linarith
      obtain ⟨hnearer, htie⟩ := abs_upper_le hmn hmiddle
      refine ⟨hnearer, fun heq => ?_⟩
      rcases hpass with h | ⟨-, hodd⟩
      · linarith [htie heq]
      · omega
    · have hpass := mt (lt_nearest_iff_value (d := d) (n := d.nearest) (by omega)).2 (Nat.lt_irrefl _)
      have hsm : value (d.nearest + 1) ≤ value m := value_strictMono.monotone hgt
      have hmn : value d.nearest < value m := value_strictMono hgt
      rw [not_or, not_lt] at hpass
      obtain ⟨hnearer, htie⟩ := abs_lower_le hmn (hpass.1.trans (by linarith))
      refine ⟨hnearer, fun heq => ?_⟩
      have hmiddle : value d.nearest + value (d.nearest + 1) = 2 * d.value :=
        le_antisymm (by linarith [htie heq]) hpass.1
      exact Nat.mod_two_ne_one.1 (fun hodd => hpass.2 ⟨hmiddle, hodd⟩)
  refine ⟨hle, fun m hm => ?_, fun m hm hne htie => ?_⟩
  · by_cases hne : m = d.nearest
    · rw [hne]
    · exact (hboth m hm hne).1
  · rw [significand_mod_two]
    exact (hboth m hm hne).2 htie

/-- Only what is not beyond half of the least subnormal is read as zero. -/
theorem nearest_eq_zero_iff {d : Decimal} : d.nearest = 0 ↔ d.value ≤ 1 / 2 ^ 1075 := by
  have hone : units 1 = 1 := by decide
  have hhalf : ∀ k : ℕ, (1 : ℚ) / 2 ^ k = 2 * (1 / 2 ^ (k + 1)) := fun k => by
    rw [pow_succ]
    field_simp
  have hpass := lt_nearest_iff_value (d := d) (n := 0) (by decide)
  rw [value_zero, zero_add, zero_add, value, hone, Nat.cast_one, hhalf 1074, Nat.zero_mod] at hpass
  rw [← Nat.le_zero, ← Nat.not_lt, hpass, ← not_lt]
  generalize (1 : ℚ) / 2 ^ 1075 = half
  constructor
  · exact fun h hlt => h (.inl (by linarith))
  · rintro h (hlt | ⟨-, hodd⟩)
    · exact h (by linarith)
    · cases hodd

/-- What is read as infinity begins at the middle between the largest finite double and the next power of two. -/
theorem nearest_eq_infinity_iff {d : Decimal} : d.nearest = infinity ↔ 2 ^ 1024 - 2 ^ 970 ≤ d.value := by
  have hle : d.nearest ≤ infinity := Nat.min_le_right _ _
  have hodd : (infinity - 1) % 2 = 1 := by decide
  have hlt : infinity - 1 < infinity := by decide
  have hmiddle : value (infinity - 1) + value (infinity - 1 + 1) = 2 * (2 ^ 1024 - 2 ^ 970) := by
    have hlast : value (infinity - 1 + 1) = 2 ^ 1024 := value_infinity
    have hpow : (2 : ℚ) ^ 971 = 2 ^ 970 * 2 := pow_succ 2 970
    rw [value_pred_infinity, hlast, hpow]
    generalize (2 : ℚ) ^ 1024 = a
    generalize (2 : ℚ) ^ 970 = b
    ring
  have hpass := lt_nearest_iff_value (d := d) hlt
  rw [hmiddle, hodd] at hpass
  have heq : d.nearest = infinity ↔ infinity - 1 < d.nearest := by omega
  rw [heq, hpass, le_iff_lt_or_eq]
  generalize (2 : ℚ) ^ 1024 - 2 ^ 970 = edge
  constructor
  · rintro (h | ⟨h, -⟩)
    · exact .inl (by linarith)
    · exact .inr (by linarith)
  · rintro (h | h)
    · exact .inl (by linarith)
    · exact .inr ⟨by linarith, rfl⟩

end Binary64

/-! ## Numerals of the same number -/

namespace Denotes

variable {w : List Char} {q : ℚ}

theorem wholeValue_zeros (k : Nat) (ds : List Char) : wholeValue (List.replicate k '0' ++ ds) = wholeValue ds := by
  rw [wholeValue_eq_ofDigitChars, Nat.ofDigitChars_append, Nat.ofDigitChars_replicate_zero, Nat.mul_zero,
    wholeValue_eq_ofDigitChars]

theorem fractionValue_zeros (fs : List Char) (k : Nat) :
    fractionValue (fs ++ List.replicate k '0') = fractionValue fs := by
  rw [fractionValue_eq_ofDigitChars, Nat.ofDigitChars_append, Nat.ofDigitChars_replicate_zero, List.length_append,
    List.length_replicate, fractionValue_eq_ofDigitChars]
  push_cast
  rw [pow_add]
  field_simp

theorem isDigit_of_mem_zeros {k : Nat} : ∀ c ∈ List.replicate k '0', c.isDigit = true := by
  intro c hc
  rw [List.eq_of_mem_replicate hc]
  rfl

theorem isDigit_append {ds ds' : List Char} (h : ∀ c ∈ ds, c.isDigit = true) (h' : ∀ c ∈ ds', c.isDigit = true) :
    ∀ c ∈ ds ++ ds', c.isDigit = true :=
  fun c hc => (List.mem_append.1 hc).elim (h c) (h' c)

theorem point_not_mem {ds : List Char} (hds : ∀ c ∈ ds, c.isDigit = true) : '.' ∉ ds := fun hmem => by
  cases hds _ hmem

/-- Zeros in front count nothing. -/
theorem leadingZeros (h : Denotes w q) (k : Nat) : Denotes (List.replicate k '0' ++ w) q := by
  cases h with
  | whole hne hds =>
    have hwhole := Denotes.whole (List.append_ne_nil_of_right_ne_nil (List.replicate k '0') hne)
      (isDigit_append isDigit_of_mem_zeros hds)
    rwa [wholeValue_zeros] at hwhole
  | @pointed ds fs hne hds hfs =>
    have hpointed := Denotes.pointed (List.append_ne_nil_of_right_ne_nil (List.replicate k '0') hne)
      (isDigit_append isDigit_of_mem_zeros hds) hfs
    rwa [wholeValue_zeros, List.append_assoc] at hpointed

/-- A bare point counts nothing. -/
theorem barePoint (h : Denotes w q) (hw : '.' ∉ w) : Denotes (w ++ ['.']) q := by
  cases h with
  | whole hne hds =>
    have hpointed := Denotes.pointed hne hds (List.forall_mem_nil _)
    rwa [fractionValue, add_zero] at hpointed
  | pointed => exact absurd (List.mem_append_right _ List.mem_cons_self) hw

/-- Zeros behind the point count nothing at the end. -/
theorem trailingZeros (h : Denotes w q) (hw : '.' ∈ w) (k : Nat) : Denotes (w ++ List.replicate k '0') q := by
  cases h with
  | whole _ hds => exact absurd hw (point_not_mem hds)
  | @pointed ds fs hne hds hfs =>
    have hpointed := Denotes.pointed hne hds (isDigit_append hfs (isDigit_of_mem_zeros (k := k)))
    rwa [fractionValue_zeros, ← List.cons_append, ← List.append_assoc] at hpointed

theorem spells (h : Denotes w q) : Spells w (.number (Decimal.ofNumeral w).toFloat) := .number h.isNumeral

theorem toNat_toBits (w : List Char) : (Decimal.ofNumeral w).toFloat.toBits.toNat = (Decimal.ofNumeral w).nearest :=
  toNat_toBits_ofMagnitude (Nat.min_le_right _ _)

/-- Numerals of the same number are read as the same double. -/
theorem ofLexeme?_congr {w' : List Char} (h : Denotes w q) (h' : Denotes w' q) :
    Token.ofLexeme? w' = some (.number (Decimal.ofNumeral w).toFloat) := by
  have hnearest : (Decimal.ofNumeral w').nearest = (Decimal.ofNumeral w).nearest :=
    nearest_congr (h'.eq_value.symm.trans h.eq_value)
  rw [h'.spells.ofLexeme?, Decimal.toFloat, Decimal.toFloat, hnearest]

end Denotes

/-- **A numeral is read as the double nearest to the number that it stands for**, wherever it stands and however long it
is: ties go to the even significand, what is not beyond half of the least subnormal is zero, and infinity begins at the
middle between the largest finite double and the next power of two.  Nothing but the number matters, so zeros in front,
a bare point and zeros behind the point change nothing, and a larger number is never read as less. -/
theorem numeral_nearest {w : List Char} {q : ℚ} (h : Denotes w q) :
    ∃ x : Float, Token.ofLexeme? w = some (.number x) ∧
      (∀ (c : Cursor) (rest : List Char), c.skipSpaces.rest = w ++ rest → Longest w rest →
        c.get.1 = .ok (.number x)) ∧
      IsNearest q x.toBits.toNat ∧
      (x.toBits.toNat = 0 ↔ q ≤ 1 / 2 ^ 1075) ∧
      (x.toBits.toNat = infinity ↔ 2 ^ 1024 - 2 ^ 970 ≤ q) ∧
      (∀ k, Token.ofLexeme? (List.replicate k '0' ++ w) = some (.number x)) ∧
      ('.' ∉ w → Token.ofLexeme? (w ++ ['.']) = some (.number x)) ∧
      ('.' ∈ w → ∀ k, Token.ofLexeme? (w ++ List.replicate k '0') = some (.number x)) ∧
      ∀ w' q' x', Denotes w' q' → Token.ofLexeme? w' = some (.number x') → q ≤ q' →
        x.toBits.toNat ≤ x'.toBits.toNat := by
  refine ⟨(Decimal.ofNumeral w).toFloat, h.spells.ofLexeme?, fun c rest hr hw => ?_, ?_, ?_, ?_,
    fun k => h.ofLexeme?_congr (h.leadingZeros k), fun hw => h.ofLexeme?_congr (h.barePoint hw),
    fun hw k => h.ofLexeme?_congr (h.trailingZeros hw k), fun w' q' x' h' hx' hle => ?_⟩
  · rw [Cursor.get_of_spells hr hw h.spells]
  · rw [Denotes.toNat_toBits, h.eq_value]
    exact isNearest_nearest _
  · rw [Denotes.toNat_toBits, nearest_eq_zero_iff, ← h.eq_value]
  · rw [Denotes.toNat_toBits, nearest_eq_infinity_iff, ← h.eq_value]
  · obtain rfl : (Decimal.ofNumeral w').toFloat = x' := by
      have hx := h'.spells.ofLexeme?.symm.trans hx'
      injection hx with hx
      injection hx
    rw [Denotes.toNat_toBits, Denotes.toNat_toBits]
    exact nearest_mono (h.eq_value ▸ h'.eq_value ▸ hle)

/-- The first whole number that is no double lies in the middle of two, and is read as the even one below. -/
theorem numeral_nearest_tie :
    let w := ['9', '0', '0', '7', '1', '9', '9', '2', '5', '4', '7', '4', '0', '9', '9', '3']
    Denotes w (2 ^ 53 + 1) ∧ IsNearest (2 ^ 53 + 1) 0x4340000000000000 ∧
      Token.ofLexeme? ('0' :: '0' :: w) = some (.number (ofMagnitude 0x4340000000000000)) := by
  intro w
  have hdigits : IsNumeral w := .whole (List.cons_ne_nil _ _) (List.all_eq_true.1 rfl)
  have hdecimal : Decimal.ofNumeral w = ⟨2 ^ 53 + 1, 0⟩ := by decide +kernel
  have hw : Denotes w (2 ^ 53 + 1) := by
    have hvalue := hdigits.denotes
    rw [hdecimal, Decimal.value] at hvalue
    norm_num at hvalue ⊢
    exact hvalue
  have hnearest : (Decimal.ofNumeral w).nearest = 0x4340000000000000 := by decide +kernel
  obtain ⟨x, hx, -, hbits, -, -, hzeros, -⟩ := numeral_nearest hw
  have hread := hw.spells.ofLexeme?
  rw [Decimal.toFloat, hnearest, hx] at hread
  obtain rfl : x = ofMagnitude 0x4340000000000000 := by
    injection hread with hread
    injection hread
  rw [toNat_toBits_ofMagnitude (by decide)] at hbits
  exact ⟨hw, hbits, hzeros 2⟩

end Calculator
