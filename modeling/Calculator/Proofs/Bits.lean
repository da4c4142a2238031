import Calculator.Binary64
import Mathlib
/-!
# Proofs.Bits — a double is its bits

`Float.ofBits` takes the fields of a word apart and puts them together again, since of all words that mean NaN only one
is a double's.  Every other word comes through unchanged, so a magnitude up to infinity is the magnitude of the double
made from it, and a double without the sign bit is made from its magnitude.  Above infinity there is only NaN.
Two words mean zero.  Negation is a change of the top bit, for all but NaN.
-/
namespace Calculator
namespace Binary64

open Float.Model (Format)
open Float.Model.UnpackedFloat

/-! ## The fields of a word -/

section
variable (b : BitVec Format.binary64.numBits)

theorem toNat_unpackMantissa : (unpackMantissa b).toNat = b.toNat % 2 ^ 52 := by
  simp [unpackMantissa]

theorem toNat_unpackExponent : (unpackExponent b).toNat = b.toNat / 2 ^ 52 % 2 ^ 11 := by
  simp [unpackExponent, Nat.shiftRight_eq_div_pow]

theorem toNat_unpackSign : (unpackSign b).toNat = b.toNat / 2 ^ 63 % 2 := by
  simp [unpackSign, Nat.shiftRight_eq_div_pow]

/-- The word has the form of NaN. -/
theorem isNaNBits_iff : isNaNBits b = true ↔ infinity < b.toNat % 2 ^ 63 := by
  have hb : b.toNat < 2 ^ 64 := b.isLt
  have hexp : unpackExponent b = -1#_ ↔ b.toNat / 2 ^ 52 % 2 ^ 11 = 2 ^ 11 - 1 := by
    rw [← BitVec.toNat_inj, toNat_unpackExponent]
    rfl
  have hman : unpackMantissa b = 0#_ ↔ b.toNat % 2 ^ 52 = 0 := by
    rw [← BitVec.toNat_inj, toNat_unpackMantissa]
    rfl
  rw [isNaNBits, decide_eq_true_iff, Ne, hexp, hman, infinity]
  omega

end

/-! ## The word of the other sign -/

/-- The same exponent and mantissa under the other sign. -/
def flipSign (b : BitVec Format.binary64.numBits) : BitVec Format.binary64.numBits :=
  packComponents Format.binary64 (-Sign.ofBitVec (unpackSign b)) (unpackExponent b) (unpackMantissa b)

section
variable (b : BitVec Format.binary64.numBits)

theorem unpackSign_flipSign : unpackSign (flipSign b) = (-Sign.ofBitVec (unpackSign b)).toBitVec :=
  unpackSign_packComponents _ _ _

theorem unpackExponent_flipSign : unpackExponent (flipSign b) = unpackExponent b := unpackExponent_packComponents

theorem unpackMantissa_flipSign : unpackMantissa (flipSign b) = unpackMantissa b := unpackMantissa_packComponents

theorem unpack_flipSign : unpack Format.binary64 (flipSign b) = (unpack Format.binary64 b).neg := by
  simp only [unpack, unpackSign_flipSign, unpackExponent_flipSign, unpackMantissa_flipSign, Sign.ofBitVec_toBitVec]
  repeat' split
  all_goals rfl

/-- The sign is the top bit. -/
theorem toNat_flipSign : (flipSign b).toNat = (b.toNat + 2 ^ 63) % 2 ^ 64 := by
  have hb : b.toNat < 2 ^ 64 := b.isLt
  have hf : (flipSign b).toNat < 2 ^ 64 := (flipSign b).isLt
  have hexp := congrArg BitVec.toNat (unpackExponent_flipSign b)
  have hman := congrArg BitVec.toNat (unpackMantissa_flipSign b)
  have hsign : (unpackSign (flipSign b)).toNat = 1 - (unpackSign b).toNat := by
    rw [unpackSign_flipSign]
    generalize unpackSign b = s
    revert s
    decide
  rw [toNat_unpackExponent, toNat_unpackExponent] at hexp
  rw [toNat_unpackMantissa, toNat_unpackMantissa] at hman
  rw [toNat_unpackSign, toNat_unpackSign] at hsign
  omega

end

/-! ## Words and doubles -/

/-- **A word that has not the form of NaN is the word of its double.** -/
theorem toBits_ofBits {u : UInt64} (h : ¬ infinity < u.toNat % 2 ^ 63) : (Float.ofBits u).toBits = u := by
  have hbits : ¬ @isNaNBits Format.binary64 u.toBitVec = true := by
    rw [isNaNBits_iff]
    exact h
  have hpack := @pack_unpack Format.binary64 u.toBitVec (by decide)
  rw [if_neg hbits] at hpack
  exact UInt64.toBitVec_inj.1 hpack

/-- **Above infinity there is only NaN.** -/
theorem isNaN_iff (x : Float) : x.isNaN = true ↔ infinity < magnitude x := by
  have hvalid := x.toModel.valid
  have hnan : x.isNaN = true ↔ x.toBits.toBitVec = packedNaN Format.binary64 := isNaN_unpack_iff_of_valid hvalid
  have hmagnitude : infinity < magnitude x ↔ @isNaNBits Format.binary64 x.toBits.toBitVec = true :=
    (isNaNBits_iff _).symm
  rw [hnan, hmagnitude]
  constructor
  · intro h
    rw [h]
    exact isNaNBits_packedNaN
  · intro h
    obtain ⟨hexp, hman⟩ := of_decide_eq_true h
    exact hvalid.eq_packedNaN hexp hman

theorem magnitude_le_infinity {x : Float} (h : x.isNaN = false) : magnitude x ≤ infinity := by
  rw [Bool.eq_false_iff, Ne, isNaN_iff] at h
  exact Nat.not_lt.1 h

/-! ## Doubles made from a magnitude -/

section
variable {n : Nat} (h : n ≤ infinity)
include h

theorem toNat_toBits_ofMagnitude : (ofMagnitude n).toBits.toNat = n := by
  rw [infinity] at h
  have hword : (UInt64.ofNat n).toNat = n := by
    rw [UInt64.toNat_ofNat']
    omega
  rw [ofMagnitude, toBits_ofBits, hword]
  rw [hword, infinity]
  omega

theorem magnitude_ofMagnitude : magnitude (ofMagnitude n) = n := by
  rw [magnitude, toNat_toBits_ofMagnitude h]
  rw [infinity] at h
  show n % 2 ^ 63 = n
  omega

theorem isNegative_ofMagnitude : isNegative (ofMagnitude n) = false := by
  rw [isNegative, toNat_toBits_ofMagnitude h, decide_eq_false_iff_not]
  rw [infinity] at h
  show ¬ 2 ^ 63 ≤ n
  omega

theorem isNaN_ofMagnitude : (ofMagnitude n).isNaN = false := by
  rw [Bool.eq_false_iff, Ne, isNaN_iff, magnitude_ofMagnitude h]
  exact Nat.not_lt.2 h

end

/-- A double without the sign bit is made from its magnitude. -/
theorem ofMagnitude_magnitude {x : Float} (h : isNegative x = false) : ofMagnitude (magnitude x) = x := by
  have hlt : x.toBits.toNat < Nat.pow 2 63 := Nat.not_le.1 (of_decide_eq_false h)
  rw [ofMagnitude, magnitude, Nat.mod_eq_of_lt hlt, UInt64.ofNat_toNat, Float.ofBits_toBits]

/-! ## Zero -/

/-- Only the words of zero have neither exponent nor mantissa. -/
theorem exists_unpack_eq_zero_iff (b : BitVec Format.binary64.numBits) :
    (∃ s, unpack Format.binary64 b = .zero s) ↔ b.toNat % 2 ^ 63 = 0 := by
  have hexp : unpackExponent b = 0#_ ↔ b.toNat / 2 ^ 52 % 2 ^ 11 = 0 := by
    rw [← BitVec.toNat_inj, toNat_unpackExponent]
    rfl
  have hman : unpackMantissa b = 0#_ ↔ b.toNat % 2 ^ 52 = 0 := by
    rw [← BitVec.toNat_inj, toNat_unpackMantissa]
    rfl
  have hzero : b.toNat % 2 ^ 63 = 0 ↔ unpackExponent b = 0#_ ∧ unpackMantissa b = 0#_ := by
    rw [hexp, hman]
    omega
  have hne : ¬ (0#_ : BitVec Format.binary64.exponentBits) = -1#_ := by decide
  rw [hzero, unpack]
  constructor
  · rintro ⟨s, h⟩
    split at h
    · split at h <;> cases h
    · split at h
      · rename_i hexp
        split at h
        · rename_i hman
          exact ⟨hexp, hman⟩
        · cases h
      · cases h
  · rintro ⟨hexp, hman⟩
    exact ⟨_, by rw [if_neg (hexp ▸ hne), if_pos hexp, dif_pos hman]⟩

/-- **Equal to zero are the zeros of both signs**, and no NaN, infinity or subnormal number. -/
theorem beq_zero_iff {x : Float} : (x == 0.0) = true ↔ x.toBits = 0 ∨ x.toBits = 0x8000000000000000 := by
  have hlt : x.toBits.toNat < 2 ^ 64 := x.toBits.toNat_lt
  have hbits : x.toBits = 0 ∨ x.toBits = 0x8000000000000000 ↔ x.toBits.toBitVec.toNat % 2 ^ 63 = 0 := by
    rw [← UInt64.toNat_inj, ← UInt64.toNat_inj]
    show x.toBits.toNat = 0 ∨ x.toBits.toNat = 2 ^ 63 ↔ x.toBits.toNat % 2 ^ 63 = 0
    omega
  have hzero : (0.0 : Float).toModel.unpack = .zero .positive := rfl
  have hbeq : (x == 0.0) = (x.toModel.unpack.compare (.zero .positive) == some .eq) := by
    rw [← hzero]
    rfl
  rw [hbits, ← exists_unpack_eq_zero_iff, hbeq]
  show _ ↔ ∃ s, x.toModel.unpack = _
  cases x.toModel.unpack with
  | zero s => simp [Float.Model.UnpackedFloat.compare]
  | notANumber => simp [Float.Model.UnpackedFloat.compare]
  | infinity s => cases s <;> simp [Float.Model.UnpackedFloat.compare]
  | finite s => cases s <;> simp [Float.Model.UnpackedFloat.compare]

/-! ## Negation -/

theorem toNat_toBits_neg {x : Float} (h : x.isNaN = false) :
    (-x).toBits.toNat = (x.toBits.toNat + 2 ^ 63) % 2 ^ 64 := by
  have hle : x.toBits.toBitVec.toNat % 2 ^ 63 ≤ infinity := magnitude_le_infinity h
  have hbits : ¬ isNaNBits (flipSign x.toBits.toBitVec) = true := by
    rw [isNaNBits_iff, toNat_flipSign]
    omega
  have hpack := @pack_unpack Format.binary64 (flipSign x.toBits.toBitVec) (by decide)
  rw [if_neg hbits, unpack_flipSign] at hpack
  exact (congrArg BitVec.toNat hpack).trans (toNat_flipSign _)

/-- **A negative double is the negation of the one made from its magnitude.** -/
theorem neg_ofMagnitude_magnitude {x : Float} (hs : isNegative x = true) (hn : x.isNaN = false) :
    -ofMagnitude (magnitude x) = x := by
  have hle := magnitude_le_infinity hn
  have hge : 2 ^ 63 ≤ x.toBits.toNat := of_decide_eq_true hs
  have hlt : x.toBits.toNat < 2 ^ 64 := x.toBits.toNat_lt
  have hmod : magnitude x = x.toBits.toNat % 2 ^ 63 := rfl
  rw [← Float.toBits_inj, ← UInt64.toNat_inj, toNat_toBits_neg (isNaN_ofMagnitude hle), toNat_toBits_ofMagnitude hle]
  omega

end Binary64
end Calculator
