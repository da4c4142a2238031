import Calculator.Proofs.Nearest
/-!
# Proofs.Shortest — no shorter decimal reads back

The decimals that read back as a magnitude are an interval around its value, so if any point of a grid is among them,
one of the two neighbours of the value is, and nearer (`neighbour?_eq_some`, `neighbour?_eq_none`).  The search goes
from the coarsest grid to the finest, so it ends on the first grid with a point in the interval.

A decimal with few digits lies on a coarse grid, unless it is so far below the value that the power of ten with the
digits of the value lies between them; then that one reads back too, and lies on every grid.  So the search finds the
fewest digits, and of the decimals with so many the nearest (`exists_digits_shortest`).
-/
namespace Calculator

/-- The number can be written with so many significant digits. -/
def HasDigits (k : Nat) (q : ℚ) : Prop := ∃ (m : Nat) (e : ℤ), m < 10 ^ k ∧ q = m * 10 ^ e

theorem HasDigits.pos {p : Nat} {q : ℚ} (h : HasDigits p q) (hq : q ≠ 0) : 1 ≤ p := by
  obtain ⟨m, e, hm, rfl⟩ := h
  rcases Nat.eq_zero_or_pos p with rfl | hp
  · rw [Nat.pow_zero, Nat.lt_one_iff] at hm
    rw [hm, Nat.cast_zero, zero_mul] at hq
    exact absurd rfl hq
  · exact hp

namespace Binary64

variable {n step : Nat} {d : Decimal}

/-! ## Decimals of one scale -/

theorem value_le_value_iff {a b s : Nat} : (⟨a, s⟩ : Decimal).value ≤ (⟨b, s⟩ : Decimal).value ↔ a ≤ b := by
  rw [Decimal.value, Decimal.value, div_le_div_iff_of_pos_right (by positivity), Nat.cast_le]

/-- A multiple of the step is not between the two neighbours. -/
theorem mul_step_le_or_le (hstep : 0 < step) (a m : Nat) :
    m * step ≤ a / step * step ∧ m * step ≤ a ∨ a / step * step + step ≤ m * step ∧ a < m * step := by
  rcases Nat.lt_or_ge (a / step) m with hlt | hle
  · have hmul : (a / step + 1) * step ≤ m * step := Nat.mul_le_mul_right step hlt
    have hlt' : a < m * step := (Nat.div_lt_iff_lt_mul hstep).1 hlt
    rw [Nat.succ_mul] at hmul
    exact .inr ⟨hmul, hlt'⟩
  · exact .inl ⟨Nat.mul_le_mul_right step hle, (Nat.le_div_iff_mul_le hstep).1 hle⟩

/-! ## One grid -/

section
variable (hd : d.nearest = n) (hstep : 0 < step)
include hd hstep

/-- If a point of the grid reads back, so does the neighbour on its side, which is not further away. -/
theorem neighbour_of_multiple {m : Nat} (hm : (⟨m * step, d.scale⟩ : Decimal).nearest = n) :
    (⟨d.digits / step * step, d.scale⟩ : Decimal).nearest = n ∧ m * step ≤ d.digits / step * step ∨
      (⟨d.digits / step * step + step, d.scale⟩ : Decimal).nearest = n ∧ d.digits / step * step + step ≤ m * step := by
  have hlower : d.digits / step * step ≤ d.digits := Nat.div_mul_le_self _ _
  have hupper : d.digits < d.digits / step * step + step := Nat.lt_div_mul_add hstep
  rcases mul_step_le_or_le hstep d.digits m with ⟨hle, -⟩ | ⟨hge, -⟩
  · exact .inl ⟨nearest_of_between hm hd (value_le_value_iff.2 hle) (value_le_value_iff.2 hlower), hle⟩
  · exact .inr ⟨nearest_of_between hd hm (value_le_value_iff.2 hupper.le) (value_le_value_iff.2 hge), hge⟩

theorem neighbour?_eq_none (h : neighbour? n d step = none) (m : Nat) :
    (⟨m * step, d.scale⟩ : Decimal).nearest ≠ n := by
  intro hm
  simp only [neighbour?] at h
  rcases neighbour_of_multiple hd hstep hm with ⟨hread, -⟩ | ⟨hread, -⟩
  · rw [if_pos hread] at h
    split at h
    · split at h <;> cases h
    · cases h
  · rw [if_pos hread] at h
    split at h
    · split at h <;> cases h
    · cases h

/-- **A neighbour that is a hit is the nearest point of the grid that reads back.** -/
theorem neighbour?_eq_some {hit : Decimal} (h : neighbour? n d step = some hit) :
    ∃ m, hit = ⟨m * step, d.scale⟩ ∧ m ≤ d.digits / step + 1 ∧
      ∀ m', (⟨m' * step, d.scale⟩ : Decimal).nearest = n →
        Nat.dist (m * step) d.digits ≤ Nat.dist (m' * step) d.digits := by
  have hlower : d.digits / step * step ≤ d.digits := Nat.div_mul_le_self _ _
  have hupper : d.digits < d.digits / step * step + step := Nat.lt_div_mul_add hstep
  have hsucc : (d.digits / step + 1) * step = d.digits / step * step + step := Nat.succ_mul _ _
  simp only [neighbour?] at h
  split at h
  · split at h
    · split at h
      · rename_i hnear
        cases h
        refine ⟨_, rfl, Nat.le_succ _, fun m' hm' => ?_⟩
        rcases mul_step_le_or_le hstep d.digits m' with hle | hge <;> simp only [Nat.dist] <;> omega
      · rename_i hnear
        cases h
        refine ⟨_, by rw [hsucc], Nat.le_refl _, fun m' hm' => ?_⟩
        rcases mul_step_le_or_le hstep d.digits m' with hle | hge <;> simp only [Nat.dist] <;> omega
    · rename_i hno
      cases h
      refine ⟨_, rfl, Nat.le_succ _, fun m' hm' => ?_⟩
      rcases neighbour_of_multiple hd hstep hm' with ⟨-, hle⟩ | ⟨hread, -⟩
      · simp only [Nat.dist]
        omega
      · exact absurd hread hno
  · rename_i hno
    split at h
    · cases h
      refine ⟨_, by rw [hsucc], Nat.le_refl _, fun m' hm' => ?_⟩
      rcases neighbour_of_multiple hd hstep hm' with ⟨hread, -⟩ | ⟨-, hge⟩
      · exact absurd hread hno
      · simp only [Nat.dist]
        omega
    · cases h

end

/-! ## All grids -/

/-- **The search ends on the first grid with a point that reads back, and with the nearest such point.** -/
theorem exists_grid_coarsest (hd : d.nearest = n) : ∀ k, ∃ j m, j ≤ k ∧
    coarsest n d k = ⟨m * Nat.pow 10 j, d.scale⟩ ∧ m ≤ d.digits / Nat.pow 10 j + 1 ∧
    (∀ m', (⟨m' * Nat.pow 10 j, d.scale⟩ : Decimal).nearest = n →
      Nat.dist (m * Nat.pow 10 j) d.digits ≤ Nat.dist (m' * Nat.pow 10 j) d.digits) ∧
    ∀ i m', j < i → i ≤ k → (⟨m' * Nat.pow 10 i, d.scale⟩ : Decimal).nearest ≠ n
  | 0 => by
    have hone : Nat.pow 10 0 = 1 := rfl
    refine ⟨0, d.digits, Nat.le_refl 0, ?_, ?_, fun m' _ => ?_, fun i m' hlt hle => ?_⟩
    · rw [coarsest, hone, Nat.mul_one]
    · rw [hone, Nat.div_one]
      exact Nat.le_succ _
    · rw [hone, Nat.mul_one, Nat.dist_self]
      exact Nat.zero_le _
    · omega
  | k + 1 => by
    have hstep : 0 < Nat.pow 10 (k + 1) := Nat.pow_pos (by decide)
    cases hn : neighbour? n d (Nat.pow 10 (k + 1)) with
    | none =>
      obtain ⟨j, m, hj, heq, hm, hnear, hnone⟩ := exists_grid_coarsest hd k
      refine ⟨j, m, Nat.le_succ_of_le hj, ?_, hm, hnear, fun i m' hlt hle => ?_⟩
      · rw [coarsest, hn, Option.getD_none, heq]
      · rcases Nat.lt_or_eq_of_le hle with hle | rfl
        · exact hnone i m' hlt (Nat.le_of_lt_succ hle)
        · exact neighbour?_eq_none hd hstep hn m'
    | some hit =>
      obtain ⟨m, rfl, hm, hnear⟩ := neighbour?_eq_some hd hstep hn
      refine ⟨k + 1, m, Nat.le_refl _, ?_, hm, hnear, fun i m' hlt hle => ?_⟩
      · rw [coarsest, hn, Option.getD_some]
      · omega

/-! ## Few digits mean a coarse grid -/

/-- Of the decimals that read back, one with few digits is on a coarse grid, or there is a nearer one that is. -/
theorem exists_multiple_of_hasDigits {d' : Decimal} {l p : Nat} (hd : d.nearest = n) (hd' : d'.nearest = n)
    (hl : 10 ^ (l - 1) ≤ d.digits) (hp : 1 ≤ p) (hpl : p ≤ l) (h : HasDigits p d'.value) :
    ∃ m, (⟨m * Nat.pow 10 (l - p), d.scale⟩ : Decimal).nearest = n ∧
      |(⟨m * Nat.pow 10 (l - p), d.scale⟩ : Decimal).value - d.value| ≤ |d'.value - d.value| := by
  obtain ⟨m, e, hm, he⟩ := h
  have hten : (0 : ℚ) < 10 := by norm_num
  rcases le_or_gt (⟨10 ^ (l - 1), d.scale⟩ : Decimal).value d'.value with hle | hlt
  · -- the last of the digits is on the grid
    have hexponent : (l : ℤ) ≤ p + e + d.scale := by
      have hlt : (10 : ℚ) ^ ((l - 1 : ℕ) : ℤ) < 10 ^ (p + e + d.scale : ℤ) := by
        have hm' : (m : ℚ) < 10 ^ p := by exact_mod_cast hm
        have hpos : (0 : ℚ) < 10 ^ e := zpow_pos hten e
        rw [Decimal.value, he, div_le_iff₀ (by positivity)] at hle
        calc (10 : ℚ) ^ ((l - 1 : ℕ) : ℤ) = ((10 ^ (l - 1) : ℕ) : ℚ) := by
              rw [zpow_natCast]
              push_cast
              rfl
          _ ≤ m * 10 ^ e * 10 ^ d.scale := hle
          _ < 10 ^ p * 10 ^ e * 10 ^ d.scale := by gcongr
          _ = 10 ^ (p + e + d.scale : ℤ) := by
              rw [zpow_add₀ hten.ne', zpow_add₀ hten.ne', zpow_natCast, zpow_natCast]
      have hexponents := (zpow_lt_zpow_iff_right₀ (by norm_num : (1 : ℚ) < 10)).1 hlt
      omega
    obtain ⟨c, hc⟩ := Int.eq_ofNat_of_zero_le (a := p + e + d.scale - l) (by omega)
    have hvalue : (⟨m * 10 ^ c * Nat.pow 10 (l - p), d.scale⟩ : Decimal).value = d'.value := by
      have hpow : Nat.pow 10 (l - p) = 10 ^ (l - p) := rfl
      have hsplit : (e : ℤ) = c + (l - p : ℕ) - d.scale := by omega
      rw [Decimal.value, he, hsplit, hpow, zpow_sub₀ hten.ne', zpow_add₀ hten.ne', zpow_natCast, zpow_natCast,
        zpow_natCast]
      push_cast
      ring
    exact ⟨_, (nearest_congr hvalue).trans hd', by rw [hvalue]⟩
  · -- the power of ten with the digits of the value lies between
    have hpow : 10 ^ (p - 1) * Nat.pow 10 (l - p) = 10 ^ (l - 1) := by
      show 10 ^ (p - 1) * 10 ^ (l - p) = 10 ^ (l - 1)
      rw [← Nat.pow_add]
      congr 1
      omega
    have hbelow : (⟨10 ^ (l - 1), d.scale⟩ : Decimal).value ≤ d.value := value_le_value_iff.2 hl
    refine ⟨10 ^ (p - 1), ?_, ?_⟩
    · rw [hpow]
      exact nearest_of_between hd' hd hlt.le hbelow
    · rw [hpow, abs_of_nonpos (by linarith), abs_of_nonpos (by linarith)]
      linarith

/-! ## The shortest decimal -/

theorem value_exact (n : Nat) : (exact n).value = value n := by
  have hvalue := exact_value n
  rw [Decimal.value, value]
  generalize 1074 = k at hvalue ⊢
  have hpow : Nat.pow 2 k = 2 ^ k := rfl
  have hpow' : Nat.pow 10 (exact n).scale = 10 ^ (exact n).scale := rfl
  rw [hpow, hpow'] at hvalue
  rw [div_eq_div_iff (by positivity) (by positivity)]
  exact_mod_cast hvalue

theorem abs_value_sub (a b s : Nat) :
    |(⟨a, s⟩ : Decimal).value - (⟨b, s⟩ : Decimal).value| = Nat.dist a b / 10 ^ s := by
  simp only [Decimal.value]
  rw [div_sub_div_same, abs_div, abs_of_pos (by positivity : (0 : ℚ) < 10 ^ s)]
  congr 1
  rcases Nat.le_total a b with hle | hle
  · rw [Nat.dist_eq_sub_of_le hle, Nat.cast_sub hle, abs_sub_comm]
    exact abs_of_nonneg (sub_nonneg.2 (Nat.cast_le.2 hle))
  · rw [Nat.dist_eq_sub_of_le_right hle, Nat.cast_sub hle]
    exact abs_of_nonneg (sub_nonneg.2 (Nat.cast_le.2 hle))

/-- A point of a grid next to a number of `l` digits has no digit for the places below the grid. -/
theorem hasDigits_of_grid {l j m : Nat} (hj : j < l) (hm : m ≤ 10 ^ (l - j)) (s : Nat) :
    HasDigits (l - j) (⟨m * Nat.pow 10 j, s⟩ : Decimal).value := by
  have hpow : Nat.pow 10 j = 10 ^ j := rfl
  rcases Nat.lt_or_eq_of_le hm with hlt | rfl
  · refine ⟨m, j - s, hlt, ?_⟩
    rw [Decimal.value, hpow, zpow_sub₀ (by norm_num), zpow_natCast, zpow_natCast]
    push_cast
    ring
  · -- a carry out of all digits leaves a power of ten
    refine ⟨1, l - s, Nat.one_lt_pow (by omega) (by decide), ?_⟩
    rw [Decimal.value, hpow, ← Nat.pow_add, Nat.sub_add_cancel hj.le, zpow_sub₀ (by norm_num), zpow_natCast,
      zpow_natCast]
    push_cast
    ring

theorem lt_pow_length_toDigits (a : Nat) : a < 10 ^ (Nat.toDigits 10 a).length :=
  (Nat.length_toDigits_le_iff (by decide) Nat.length_toDigits_pos).1 (Nat.le_refl _)

theorem pow_length_toDigits_le {a : Nat} (ha : a ≠ 0) : 10 ^ ((Nat.toDigits 10 a).length - 1) ≤ a := by
  rcases Nat.eq_zero_or_pos ((Nat.toDigits 10 a).length - 1) with hzero | hpos
  · rw [hzero]
    exact Nat.one_le_iff_ne_zero.2 ha
  · refine Nat.le_of_not_lt (fun hlt => ?_)
    have hle := (Nat.length_toDigits_le_iff (by decide) hpos).2 hlt
    omega

/-- **No decimal that reads back has fewer digits than the shortest**, and none with as many is nearer to the value. -/
theorem exists_digits_shortest (hn : n ≤ infinity) (h0 : n ≠ 0) : ∃ k, HasDigits k (shortest n).value ∧
    (∀ (d' : Decimal) (p : Nat), d'.nearest = n → HasDigits p d'.value → k ≤ p) ∧
    ∀ d' : Decimal, d'.nearest = n → HasDigits k d'.value → |(shortest n).value - value n| ≤ |d'.value - value n| := by
  have hd := nearest_exact hn
  have hdigits : (exact n).digits ≠ 0 := by
    intro hzero
    have hvalue : (exact n).value = 0 := by rw [Decimal.value, hzero, Nat.cast_zero, zero_div]
    exact h0 (hd.symm.trans (nearest_eq_zero_iff.2 (hvalue ▸ by positivity)))
  obtain ⟨l, hl⟩ : ∃ l, l = (Nat.toDigits 10 (exact n).digits).length := ⟨_, rfl⟩
  have hpos : 0 < l := hl ▸ Nat.length_toDigits_pos
  have hupper : (exact n).digits < 10 ^ l := hl ▸ lt_pow_length_toDigits _
  have hlower : 10 ^ (l - 1) ≤ (exact n).digits := hl ▸ pow_length_toDigits_le hdigits
  obtain ⟨j, m, hj, hshortest, hm, hnear, hnone⟩ := exists_grid_coarsest hd (l - 1)
  replace hshortest : shortest n = ⟨m * Nat.pow 10 j, (exact n).scale⟩ := by rw [← hshortest, shortest, hl]
  have hjl : j < l := by omega
  have hcarry : m ≤ 10 ^ (l - j) := by
    have hquotient : (exact n).digits / Nat.pow 10 j < 10 ^ (l - j) := by
      refine (Nat.div_lt_iff_lt_mul (Nat.pow_pos (by decide))).2 ?_
      show _ < 10 ^ (l - j) * 10 ^ j
      rwa [← Nat.pow_add, Nat.sub_add_cancel hjl.le]
    omega
  rw [hshortest, ← value_exact]
  refine ⟨l - j, hasDigits_of_grid hjl hcarry _, fun d' p hd' hp => ?_, fun d' hd' hk => ?_⟩
  · by_contra hlt
    have hne : d'.value ≠ 0 := fun hzero => h0 (hd'.symm.trans (nearest_eq_zero_iff.2 (hzero ▸ by positivity)))
    have hone := hp.pos hne
    obtain ⟨m', hm', -⟩ := exists_multiple_of_hasDigits hd hd' hlower hone (by omega) hp
    exact hnone (l - p) m' (by omega) (by omega) hm'
  · obtain ⟨m', hm', hle⟩ := exists_multiple_of_hasDigits hd hd' hlower (by omega) (Nat.sub_le l j) hk
    rw [Nat.sub_sub_self hjl.le] at hm' hle
    refine le_trans ?_ hle
    have hdist : (Nat.dist (m * Nat.pow 10 j) (exact n).digits : ℚ) ≤ Nat.dist (m' * Nat.pow 10 j) (exact n).digits :=
      Nat.cast_le.2 (hnear m' hm')
    rw [abs_value_sub, abs_value_sub]
    gcongr

end Binary64
end Calculator
