import Calculator.Binary64.Shortest
/-!
# Proofs.Exact — a double is nearest to its own value

`exact` writes the value of a magnitude as a decimal, which is the same number (`exact_value`), infinity taken as the
power of two where the finite magnitudes end.  Reading the nearest magnitude of that decimal gives the magnitude back
(`nearest_exact`): the quotient is the number of units, it is cut where its significand ends, and nothing is left over
to round.

What is nearest to a fraction does not depend on how the fraction is written.  The search for the shortest decimal ends
with one that reads back, if only with the exact one (`nearest_shortest`).
-/
namespace Calculator
namespace Binary64

/-! ## The value -/

/-- Powers of two that go below one are powers of five over powers of ten. -/
theorem mul_pow_sub (s d b : Nat) :
    s * Nat.pow 2 (d - b) * Nat.pow 5 (b - d) * Nat.pow 2 b = s * Nat.pow 2 d * Nat.pow 10 (b - d) := by
  have hten : Nat.pow 10 (b - d) = Nat.pow 2 (b - d) * Nat.pow 5 (b - d) := Nat.mul_pow 2 5 (b - d)
  have hsum : Nat.pow 2 (d - b) * Nat.pow 2 b = Nat.pow 2 d * Nat.pow 2 (b - d) := by
    show 2 ^ (d - b) * 2 ^ b = 2 ^ d * 2 ^ (b - d)
    rw [← Nat.pow_add, ← Nat.pow_add]
    congr 1
    omega
  calc s * Nat.pow 2 (d - b) * Nat.pow 5 (b - d) * Nat.pow 2 b
      = s * Nat.pow 5 (b - d) * (Nat.pow 2 (d - b) * Nat.pow 2 b) := by ac_rfl
    _ = s * Nat.pow 5 (b - d) * (Nat.pow 2 d * Nat.pow 2 (b - d)) := by rw [hsum]
    _ = s * Nat.pow 2 d * Nat.pow 10 (b - d) := by rw [hten]; ac_rfl

/-- **The decimal of a magnitude is its number of units of `2 ^ -1074`.** -/
theorem exact_value (n : Nat) : (exact n).digits * Nat.pow 2 1074 = units n * Nat.pow 10 (exact n).scale := by
  simp only [exact, units]
  generalize 1074 = b
  exact mul_pow_sub (significand n) (doublings n) b

theorem units_eq_pow {n j k : Nat} (hs : significand n = Nat.pow 2 52) (hd : 52 + doublings n = j + k) :
    units n = Nat.pow 2 j * Nat.pow 2 k := by
  rw [units, hs]
  show 2 ^ 52 * 2 ^ doublings n = 2 ^ j * 2 ^ k
  rw [← Nat.pow_add, ← Nat.pow_add, hd]

/-! ## What is nearest -/

theorem roundHalfEven_mul_right (num den : Nat) {k : Nat} (hk : 0 < k) :
    roundHalfEven (num * k) (den * k) = roundHalfEven num den := by
  have hcompare : compare (2 * (num * k % (den * k))) (den * k) = compare (2 * (num % den)) den := by
    rw [Nat.mul_mod_mul_right, ← Nat.mul_assoc]
    simp only [Nat.compare_eq_ite_lt, Nat.mul_lt_mul_right hk]
  simp only [roundHalfEven, Nat.mul_div_mul_right _ _ hk, hcompare]

/-- A fraction may be written with any common factor. -/
theorem nearest_mul_right (num den : Nat) {k : Nat} (hk : 0 < k) : nearest (num * k) (den * k) = nearest num den := by
  have hscaled : ∀ p, num * k * p = num * p * k := fun p => Nat.mul_right_comm num k p
  have hdiv : ∀ p, num * p * k / (den * k) = num * p / den := fun p => Nat.mul_div_mul_right _ _ hk
  simp only [nearest, hscaled, hdiv, Nat.mul_right_comm den k, roundHalfEven_mul_right _ _ hk]

theorem roundHalfEven_mul_self (q : Nat) {den : Nat} (h : 0 < den) : roundHalfEven (q * den) den = q := by
  have hcompare : compare (2 * (q * den % den)) den = .lt := by
    rw [Nat.mul_mod_left]
    exact Nat.compare_eq_lt.2 h
  simp only [roundHalfEven, hcompare, Nat.mul_div_cancel _ h]

theorem log2_mul_two_pow {n : Nat} (h : n ≠ 0) : ∀ k, (n * Nat.pow 2 k).log2 = n.log2 + k
  | 0 => congrArg Nat.log2 (Nat.mul_one n)
  | k + 1 => by
    have hk : n * Nat.pow 2 k ≠ 0 := Nat.mul_ne_zero h (Nat.ne_of_gt (Nat.two_pow_pos k))
    have hsucc : n * Nat.pow 2 (k + 1) = 2 * (n * Nat.pow 2 k) := by
      rw [Nat.mul_left_comm]
      exact congrArg (n * ·) Nat.pow_succ'
    rw [hsucc, Nat.log2_two_mul hk, log2_mul_two_pow h k, Nat.add_assoc]

/-- A number of units is cut where the significand of its magnitude ends. -/
theorem shiftOf_units (n : Nat) : shiftOf (units n) = doublings n := by
  have hpow : Nat.pow 2 52 = 2 ^ 52 := rfl
  rw [shiftOf, units, significand, doublings, hpow]
  split
  · rename_i hn
    rw [hn]
    show (n * 1).log2 - 52 = 0
    rw [Nat.mul_one, Nat.sub_eq_zero_iff_le]
    rcases Nat.eq_zero_or_pos n with rfl | hpos
    · decide
    · exact Nat.le_of_lt_succ ((Nat.log2_lt (Nat.ne_of_gt hpos)).2 (by omega))
  · have hlog : (2 ^ 52 + n % 2 ^ 52).log2 = 52 := by
      rw [Nat.log2_eq_iff] <;> omega
    rw [log2_mul_two_pow (by omega), hlog, Nat.add_sub_cancel_left]

theorem doublings_add_significand (n : Nat) : doublings n * Nat.pow 2 52 + significand n = n := by
  have hpow : Nat.pow 2 52 = 2 ^ 52 := rfl
  rw [doublings, significand, hpow]
  split <;> omega

/-- **The magnitude nearest to the value of a magnitude is that magnitude.** -/
theorem nearest_exact {n : Nat} (h : n ≤ infinity) : (exact n).nearest = n := by
  have hten : 0 < Nat.pow 10 (exact n).scale := Nat.pow_pos (by decide)
  have hquotient : units n * Nat.pow 10 (exact n).scale / Nat.pow 10 (exact n).scale = units n :=
    Nat.mul_div_cancel _ hten
  have hround : roundHalfEven (units n * Nat.pow 10 (exact n).scale)
      (Nat.pow 10 (exact n).scale * Nat.pow 2 (doublings n)) = significand n := by
    rw [units, Nat.mul_assoc, Nat.mul_comm (Nat.pow 2 _)]
    exact roundHalfEven_mul_self _ (Nat.mul_pos hten (Nat.two_pow_pos _))
  simp only [Decimal.nearest, nearest, exact_value, hquotient, shiftOf_units, hround]
  rw [doublings_add_significand, Nat.min_eq_left h]

/-! ## The shortest decimal -/

theorem nearest_of_neighbour? {n step : Nat} {d hit : Decimal} (h : neighbour? n d step = some hit) :
    hit.nearest = n := by
  simp only [neighbour?] at h
  split at h
  · rename_i hlower
    split at h
    · rename_i hupper
      split at h <;> cases h
      · exact hlower
      · exact hupper
    · cases h
      exact hlower
  · split at h
    · rename_i hupper
      cases h
      exact hupper
    · cases h

theorem nearest_coarsest {n : Nat} {d : Decimal} (h : d.nearest = n) (k : Nat) : (coarsest n d k).nearest = n := by
  induction k with
  | zero =>
    simp only [coarsest]
    exact h
  | succ k ih =>
    simp only [coarsest]
    cases hn : neighbour? n d (Nat.pow 10 (k + 1)) with
    | none => exact ih
    | some hit => exact nearest_of_neighbour? hn

/-- **The shortest decimal of a magnitude reads back as it.** -/
theorem nearest_shortest {n : Nat} (h : n ≤ infinity) : (shortest n).nearest = n := by
  rw [shortest]
  exact nearest_coarsest (nearest_exact h) _

end Binary64
end Calculator
