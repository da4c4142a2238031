import Calculator.Proofs.Exact
import Mathlib
/-!
# Proofs.Rounding — where one magnitude ends and the next begins

Each magnitude is as many units above the one before as its exponent says (`units_succ`), so the units grow with the
magnitude.  A fraction is rounded past a magnitude exactly if it lies beyond the middle between that one and the next,
or in the middle and the magnitude is odd (`lt_nearest_iff`).  This one rule has no cases for the binades, for
subnormals or for overflow, and says all about `nearest`: what is smaller is never rounded to more, and what is rounded
to the same magnitude is an interval.
-/
namespace Calculator
namespace Binary64

/-! ## Units -/

/-- A significand of 53 bits at most, in its place.  The carry out of it is the next power of two. -/
theorem units_of_significand {s f : Nat} (hf : f ≤ 2 ^ 53) (hs : s = 0 ∨ 2 ^ 52 ≤ f) :
    units (s * Nat.pow 2 52 + f) = f * Nat.pow 2 s := by
  have hpow : Nat.pow 2 52 = 2 ^ 52 := rfl
  rw [units, significand, doublings, hpow]
  rcases Nat.lt_or_ge f (2 ^ 52) with hlt | hge
  · obtain rfl : s = 0 := hs.resolve_right (Nat.not_le.2 hlt)
    rw [Nat.zero_mul, Nat.zero_add, if_pos (Nat.div_eq_of_lt hlt), Nat.div_eq_of_lt hlt]
  · rcases Nat.lt_or_ge f (2 ^ 53) with hlt' | hge'
    · have hquotient : (s * 2 ^ 52 + f) / 2 ^ 52 = s + 1 := by omega
      have hremainder : 2 ^ 52 + (s * 2 ^ 52 + f) % 2 ^ 52 = f := by omega
      rw [hquotient, if_neg (Nat.succ_ne_zero s), hremainder, Nat.add_sub_cancel]
    · obtain rfl : f = 2 ^ 53 := Nat.le_antisymm hf hge'
      have hquotient : (s * 2 ^ 52 + 2 ^ 53) / 2 ^ 52 = s + 2 := by omega
      have hremainder : 2 ^ 52 + (s * 2 ^ 52 + 2 ^ 53) % 2 ^ 52 = 2 ^ 52 := by omega
      have hsucc : Nat.pow 2 (s + 1) = 2 * Nat.pow 2 s := Nat.pow_succ'
      have hdoublings : s + 2 - 1 = s + 1 := rfl
      have hcarry : 2 ^ 52 * 2 = 2 ^ 53 := rfl
      rw [hquotient, if_neg (Nat.succ_ne_zero _), hremainder, hdoublings, hsucc, ← Nat.mul_assoc, hcarry]

theorem significand_lt (n : Nat) : significand n < 2 ^ 53 := by
  have hpow : Nat.pow 2 52 = 2 ^ 52 := rfl
  rw [significand, hpow]
  split <;> omega

theorem le_significand (n : Nat) : doublings n = 0 ∨ 2 ^ 52 ≤ significand n := by
  have hpow : Nat.pow 2 52 = 2 ^ 52 := rfl
  rw [doublings, significand, hpow]
  split <;> omega

theorem significand_mod_two (n : Nat) : significand n % 2 = n % 2 := by
  have hpow : Nat.pow 2 52 = 2 ^ 52 := rfl
  have h := doublings_add_significand n
  rw [hpow] at h
  omega

/-- **The next magnitude is one unit further, doubled as often as its exponent says.** -/
theorem units_succ (n : Nat) : units (n + 1) = units n + Nat.pow 2 (doublings n) := by
  have hnext := units_of_significand (s := doublings n) (f := significand n + 1) (significand_lt n)
    ((le_significand n).imp_right Nat.le_succ_of_le)
  rw [← Nat.add_assoc, doublings_add_significand, Nat.succ_mul] at hnext
  exact hnext

theorem units_strictMono : StrictMono units :=
  strictMono_nat_of_lt_succ (fun n => by
    rw [units_succ]
    exact Nat.lt_add_of_pos_right (Nat.two_pow_pos _))

/-- Twice the middle between a magnitude and the next. -/
def middle (n : Nat) : Nat := units n + units (n + 1)

theorem middle_lt_of_lt {n m : Nat} (h : n < m) : middle n < 2 * units m := by
  have hn : units n < units m := units_strictMono h
  have hle : units (n + 1) ≤ units m := units_strictMono.monotone h
  rw [middle]
  omega

theorem lt_middle_of_lt {n m : Nat} (h : m < n) : 2 * units (m + 1) < middle n := by
  have hle : units (m + 1) ≤ units n := units_strictMono.monotone h
  have hn : units n < units (n + 1) := units_strictMono (Nat.lt_succ_self n)
  rw [middle]
  omega

/-! ## Where a fraction is cut -/

/-- The significand of a fraction of units is cut where it has 53 bits, or at the unit. -/
theorem quotient_shiftOf {u q s : Nat} (hs : shiftOf u = s) (hq : q = u / Nat.pow 2 s) :
    q < 2 ^ 53 ∧ (s = 0 ∨ 2 ^ 52 ≤ q) := by
  subst hs hq
  rcases Nat.eq_zero_or_pos u with rfl | hpos
  · exact ⟨by decide, .inl rfl⟩
  have hlog : u.log2 < 53 + shiftOf u := by
    rw [shiftOf]
    omega
  have hpow : 2 ^ (53 + shiftOf u) = 2 ^ 53 * Nat.pow 2 (shiftOf u) := Nat.pow_add 2 53 _
  have hlt : u < 2 ^ (53 + shiftOf u) := (Nat.log2_lt (Nat.ne_of_gt hpos)).1 hlog
  refine ⟨(Nat.div_lt_iff_lt_mul (Nat.two_pow_pos _)).2 (hpow ▸ hlt), ?_⟩
  rcases Nat.eq_zero_or_pos (shiftOf u) with hzero | hshift
  · exact .inl hzero
  · right
    have hsum : 52 + shiftOf u = u.log2 := by
      rw [shiftOf] at hshift ⊢
      omega
    have hle : 2 ^ (52 + shiftOf u) ≤ u := by
      rw [hsum]
      exact Nat.log2_self_le (Nat.ne_of_gt hpos)
    rw [Nat.pow_add] at hle
    exact (Nat.le_div_iff_mul_le (Nat.two_pow_pos _)).2 hle

/-- Rounding goes up beyond the half, and at the half from an odd number. -/
theorem lt_roundHalfEven_iff (num den : Nat) :
    num / den < roundHalfEven num den ↔
      den < 2 * (num % den) ∨ den = 2 * (num % den) ∧ num / den % 2 = 1 := by
  rw [roundHalfEven]
  rcases Nat.lt_trichotomy (2 * (num % den)) den with h | h | h
  · rw [Nat.compare_eq_lt.2 h]
    exact ⟨fun hlt => absurd hlt (Nat.lt_irrefl _), fun hor => by omega⟩
  · rw [Nat.compare_eq_eq.2 h]
    show num / den < num / den + num / den % 2 ↔ _
    omega
  · rw [Nat.compare_eq_gt.2 h]
    exact ⟨fun _ => .inl h, fun _ => Nat.lt_succ_self _⟩

theorem roundHalfEven_bounds (num den : Nat) :
    num / den ≤ roundHalfEven num den ∧ roundHalfEven num den ≤ num / den + 1 := by
  rw [roundHalfEven]
  split <;> omega

/-- A fraction lies beyond the middle between a magnitude and the next, or in the middle and the magnitude is odd. -/
def PassesMiddle (num den n : Nat) : Prop :=
  middle n * den < 2 * (num * Nat.pow 2 1074) ∨ middle n * den = 2 * (num * Nat.pow 2 1074) ∧ n % 2 = 1

/-- A fraction lies between the magnitude that it is cut to and the next one, and is rounded to one of the two. -/
theorem exists_truncation (num : Nat) {den : Nat} (hden : 0 < den) :
    ∃ n, units n * den ≤ num * Nat.pow 2 1074 ∧ num * Nat.pow 2 1074 < units (n + 1) * den ∧
      ∃ r, nearest num den = min r infinity ∧ n ≤ r ∧ r ≤ n + 1 ∧ (n < r ↔ PassesMiddle num den n) := by
  simp only [nearest, PassesMiddle]
  generalize num * Nat.pow 2 1074 = scaled
  generalize hshift : shiftOf (scaled / den) = shift
  obtain ⟨width, hwidth⟩ : ∃ width, width = den * Nat.pow 2 shift := ⟨_, rfl⟩
  obtain ⟨f, hf⟩ : ∃ f, f = scaled / width := ⟨_, rfl⟩
  have hquotient : f = scaled / den / Nat.pow 2 shift := by rw [hf, hwidth, Nat.div_div_eq_div_mul]
  obtain ⟨hlt, hcut⟩ := quotient_shiftOf hshift hquotient
  have hfloor := units_of_significand (Nat.le_of_lt hlt) hcut
  have hceiling := units_of_significand (f := f + 1) hlt (hcut.imp_right Nat.le_succ_of_le)
  rw [← Nat.add_assoc] at hceiling
  have hlow : units (shift * Nat.pow 2 52 + f) * den = width * f := by
    rw [hfloor, hwidth]
    ac_rfl
  have hhigh : units (shift * Nat.pow 2 52 + f + 1) * den = width * f + width := by
    rw [hceiling, hwidth, ← Nat.mul_succ, Nat.succ_eq_add_one]
    ac_rfl
  have hmiddle : middle (shift * Nat.pow 2 52 + f) * den = 2 * (width * f) + width := by
    rw [middle, Nat.add_mul, hlow, hhigh]
    omega
  have hparity : (shift * Nat.pow 2 52 + f) % 2 = f % 2 := by
    show (shift * 2 ^ 52 + f) % 2 = f % 2
    omega
  have hmod : scaled % width < width := Nat.mod_lt _ (hwidth ▸ Nat.mul_pos hden (Nat.two_pow_pos _))
  have hsplit := Nat.div_add_mod scaled width
  obtain ⟨hle, hge⟩ := roundHalfEven_bounds scaled width
  have hround := lt_roundHalfEven_iff scaled width
  rw [← hf] at hsplit hle hge hround
  refine ⟨shift * Nat.pow 2 52 + f, ?_, ?_, shift * Nat.pow 2 52 + roundHalfEven scaled width, ?_, ?_, ?_, ?_⟩
  · omega
  · omega
  · rw [hwidth]
  · omega
  · omega
  · rw [hmiddle, hparity, Nat.add_lt_add_iff_left, hround]
    omega

/-- **A fraction is rounded past a magnitude exactly if it passes the middle between it and the next one.** -/
theorem lt_nearest_iff {n num den : Nat} (hden : 0 < den) (hn : n < infinity) :
    n < nearest num den ↔ PassesMiddle num den n := by
  obtain ⟨cut, hlow, hhigh, r, hr, hle, hge, hround⟩ := exists_truncation num hden
  rw [hr, Nat.lt_min, and_iff_left hn]
  rcases Nat.lt_trichotomy n cut with hlt | rfl | hgt
  · have hmiddle := Nat.mul_lt_mul_of_pos_right (middle_lt_of_lt hlt) hden
    rw [Nat.mul_assoc] at hmiddle
    have hpasses : PassesMiddle num den n := .inl (Nat.lt_of_lt_of_le hmiddle (Nat.mul_le_mul_left 2 hlow))
    exact iff_of_true (Nat.lt_of_lt_of_le hlt hle) hpasses
  · exact hround
  · have hmiddle := Nat.mul_lt_mul_of_pos_right (lt_middle_of_lt hgt) hden
    rw [Nat.mul_assoc] at hmiddle
    rw [PassesMiddle]
    omega

end Binary64
end Calculator
