import Iambic.Single.Basic

/-!
# The interchange format of singles

A single is written as a sign bit, an eight-bit exponent and a 23-bit fraction. Exponent zero
holds the fraction itself in units; each later exponent adds the hidden digit and doubles the
unit. All NaN patterns are read as the one NaN.
-/
namespace Iambic.Single

/-- The units of a biased exponent and a fraction. -/
def unitsOf (biased fraction : Nat) : Nat :=
  if biased = 0 then fraction else (0x800000 + fraction) <<< (biased - 1)

theorem onGrid_unitsOf {biased fraction : Nat} (hb : biased < 255) (hf : fraction < 0x800000) :
    OnGrid (unitsOf biased fraction) := by
  unfold unitsOf
  split
  · refine ⟨?_, Nat.lt_trans hf (by decide)⟩
    have hdvd : 1 <<< exponent (fraction <<< 0) ∣ fraction <<< 0 := dvd_of_le (by omega) 0
    rwa [Nat.shiftLeft_zero] at hdvd
  · refine ⟨dvd_of_le (by omega) _, ?_⟩
    rw [Nat.shiftLeft_eq]
    calc (0x800000 + fraction) * 2 ^ (biased - 1)
        < 2 ^ 24 * 2 ^ (biased - 1) := Nat.mul_lt_mul_of_pos_right (by omega) (Nat.two_pow_pos _)
      _ ≤ 2 ^ 24 * 2 ^ 253 := Nat.mul_le_mul_left _ (Nat.pow_le_pow_right (by decide) (by omega))
      _ = unitsAtEnd := by decide

def ofBits (bits : UInt32) : Single :=
  let negative := 0x80000000 ≤ bits.toNat
  let biased := bits.toNat / 0x800000 % 0x100
  let fraction := bits.toNat % 0x800000
  if h : biased < 255 then
    .finite negative (unitsOf biased fraction) (onGrid_unitsOf h (Nat.mod_lt _ (by decide)))
  else if fraction = 0 then .infinite negative
  else .nan

/-- The biased exponent and the fraction of a count of units as one number, which grows with
the count: its steps on its grid, and a carry into the exponent for each doubling. -/
def magnitudeBits (units : Nat) : Nat := exponent units * 0x800000 + units >>> exponent units

def signBit (negative : Bool) : Nat := if negative then 0x80000000 else 0

/-- The pattern of a single, unless it is NaN, which has many. -/
def toBits? : Single → Option UInt32
  | .finite negative units _ => some (.ofNat (signBit negative + magnitudeBits units))
  | .infinite negative => some (.ofNat (signBit negative + 0x7f800000))
  | .nan => none

theorem exponent_shiftLeft {digits : Nat} (hlow : 0x800000 ≤ digits) (hhigh : digits < 0x1000000)
    (e : Nat) : exponent (digits <<< e) = e := by
  have hpos : digits <<< e ≠ 0 := by
    rw [Nat.shiftLeft_eq]
    exact Nat.mul_ne_zero (by omega) (Nat.ne_of_gt (Nat.two_pow_pos e))
  have hlt : (digits <<< e).log2 < 24 + e := by
    rw [Nat.log2_lt hpos, Nat.shiftLeft_eq, Nat.pow_add]
    exact Nat.mul_lt_mul_of_pos_right hhigh (Nat.two_pow_pos e)
  have hle : 23 + e ≤ (digits <<< e).log2 := by
    rw [Nat.le_log2 hpos, Nat.shiftLeft_eq, Nat.pow_add]
    exact Nat.mul_le_mul_right _ hlow
  unfold exponent
  omega

/-- What is written for a count is what it was read from. -/
theorem magnitudeBits_unitsOf {biased fraction : Nat} (hf : fraction < 0x800000) :
    magnitudeBits (unitsOf biased fraction) = biased * 0x800000 + fraction := by
  unfold unitsOf magnitudeBits
  split
  · have hlog : exponent fraction = 0 := by
      by_cases h0 : fraction = 0
      · subst h0
        decide
      · have hlt : fraction.log2 < 23 := (Nat.log2_lt h0).mpr hf
        unfold exponent
        omega
    rw [hlog, Nat.shiftRight_zero]
    omega
  · rw [exponent_shiftLeft (by omega) (by omega), Nat.shiftLeft_shiftRight]
    omega

/-- All but NaN is written with the bits from which it was read, so equal singles are equal bit for
bit. -/
theorem toBits?_ofBits {bits : UInt32} (h : ofBits bits ≠ .nan) :
    (ofBits bits).toBits? = some bits := by
  have hlt := bits.toNat_lt
  have hsign : signBit (0x80000000 ≤ bits.toNat) = bits.toNat / 0x80000000 * 0x80000000 := by
    unfold signBit
    simp only [decide_eq_true_eq]
    split <;> omega
  unfold ofBits at h ⊢
  dsimp only at h ⊢
  split
  · rw [toBits?, magnitudeBits_unitsOf (Nat.mod_lt _ (by decide)), hsign]
    rw [show bits.toNat / 0x80000000 * 0x80000000 +
      (bits.toNat / 0x800000 % 0x100 * 0x800000 + bits.toNat % 0x800000) = bits.toNat by omega]
    exact congrArg some bits.ofNat_toNat
  · rename_i hbiased
    rw [dif_neg hbiased] at h
    split
    · rw [toBits?, hsign]
      rw [show bits.toNat / 0x80000000 * 0x80000000 + 0x7f800000 = bits.toNat by omega]
      exact congrArg some bits.ofNat_toNat
    · rename_i hfraction
      rw [if_neg hfraction] at h
      exact absurd rfl h

end Iambic.Single
