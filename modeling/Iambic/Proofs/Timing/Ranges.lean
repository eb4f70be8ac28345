import Iambic.Proofs.Single.Order
import Iambic.Timing

/-!
# How long elements and gaps can be

In single precision a longer length and a greater weight never give a shorter result. So at any
speed and with any weights the lengths stay below those of the slowest speed with the greatest
weights.
-/
namespace Iambic
open Single

/-- The units of the ratio of a weight to its base. -/
def ratioUnits (weight base : Nat) : Nat :=
  nearest (weight * unitsPerOne * unitsPerOne) (base * unitsPerOne)

theorem unitsPerOne_pos : 0 < unitsPerOne := by decide

theorem ratioUnits_mono {weight weight' base : Nat} (hb : 0 < base) (h : weight ≤ weight') :
    ratioUnits weight base ≤ ratioUnits weight' base := by
  have hpos : 0 < base * unitsPerOne := Nat.mul_pos hb unitsPerOne_pos
  apply nearest_mono hpos hpos
  exact Nat.mul_le_mul_right _ (Nat.mul_le_mul_right _ (Nat.mul_le_mul_right _ h))

theorem ratioUnits_le {weight base : Nat} (hb : 0 < base) (hw : weight ≤ 256) :
    ratioUnits weight base ≤ 256 * unitsPerOne := by
  apply nearest_le (Nat.mul_pos hb unitsPerOne_pos) (onGrid_whole (by decide))
  calc weight * unitsPerOne * unitsPerOne ≤ 256 * unitsPerOne * (base * unitsPerOne) :=
    Nat.mul_le_mul (Nat.mul_le_mul_right _ hw) (Nat.le_mul_of_pos_left _ hb)

/-- The product of a length and the ratio of its weight, in units. -/
def weightedUnits (length weight base : Nat) : Nat :=
  nearest (length * unitsPerOne * ratioUnits weight base) unitsPerOne

theorem weightedUnits_mono {length length' weight weight' base : Nat} (hb : 0 < base)
    (hl : length ≤ length') (hw : weight ≤ weight') :
    weightedUnits length weight base ≤ weightedUnits length' weight' base := by
  apply nearest_mono unitsPerOne_pos unitsPerOne_pos
  apply Nat.mul_le_mul_right
  exact Nat.mul_le_mul (Nat.mul_le_mul_right _ hl) (ratioUnits_mono hb hw)

theorem weightedUnits_lt {length weight base : Nat} (hl : length ≤ 0x1000000) (hb : 0 < base)
    (hw : weight ≤ 256) : weightedUnits length weight base < unitsAtEnd := by
  have hgrid : OnGrid (0x1000000 * 256 * unitsPerOne) := by decide
  refine Nat.lt_of_le_of_lt (nearest_le unitsPerOne_pos hgrid ?_) hgrid.2
  calc length * unitsPerOne * ratioUnits weight base
      ≤ 0x1000000 * unitsPerOne * (256 * unitsPerOne) :=
        Nat.mul_le_mul (Nat.mul_le_mul_right _ hl) (ratioUnits_le hb hw)
    _ = 0x1000000 * 256 * unitsPerOne * unitsPerOne := by rw [← Nat.mul_assoc, Nat.mul_right_comm 0x1000000]

theorem onGrid_weightedUnits {length weight base : Nat} (hl : length ≤ 0x1000000) (h0 : 0 < base)
    (hw : weight ≤ 256) : OnGrid (weightedUnits length weight base) :=
  onGrid_nearest (weightedUnits_lt hl h0 hw)

theorem weight_le (weight : UInt8) : weight.toNat ≤ 256 := Nat.le_of_lt weight.toNat_lt

/-- A length of at most 24 digits and its weight are singles, so only the ratio and the product are
rounded. -/
theorem product_eq_finite {length base : Nat} (weight : UInt8) (hl : length ≤ 0x1000000)
    (h0 : 0 < base) (hb : base ≤ 0x1000000) :
    ofNat length * (ofNat weight.toNat / ofNat base) =
      .finite false (weightedUnits length weight.toNat base)
        (onGrid_weightedUnits hl h0 (weight_le weight)) := by
  have hw := weight_le weight
  have hbase : base * unitsPerOne ≠ 0 := Nat.ne_of_gt (Nat.mul_pos h0 unitsPerOne_pos)
  have hratio : OnGrid (ratioUnits weight.toNat base) :=
    onGrid_nearest (Nat.lt_of_le_of_lt (ratioUnits_le h0 hw) (by decide))
  have hdiv : ofNat weight.toNat / ofNat base =
      .finite false (ratioUnits weight.toNat base) hratio := by
    rw [ofNat_eq_finite (Nat.le_trans hw (by decide)), ofNat_eq_finite hb,
      finite_div_finite _ _ _ _ hbase]
    exact round_of_lt false hratio.2
  rw [hdiv, ofNat_eq_finite hl, finite_mul_finite]
  exact round_of_lt false (onGrid_weightedUnits hl h0 hw).2

theorem weighted_eq {length base : Nat} (weight : UInt8) (hl : length ≤ 0x1000000) (h0 : 0 < base)
    (hb : base ≤ 0x1000000) :
    weighted length weight base = weightedUnits length weight.toNat base / unitsPerOne := by
  rw [weighted, product_eq_finite weight hl h0 hb]
  rfl

/-- With a weight that is a multiple of its base a length is multiplied exactly. -/
theorem weighted_mul {length base times : Nat} {weight : UInt8} (hw : weight.toNat = times * base)
    (h0 : 0 < base) (hb : base ≤ 0x1000000) (hl : length ≤ 0x1000000)
    (hp : length * times ≤ 0x1000000) : weighted length weight base = length * times := by
  have htimes : times ≤ 0x1000000 :=
    calc times ≤ times * base := Nat.le_mul_of_pos_right times h0
      _ = weight.toNat := hw.symm
      _ ≤ 0x1000000 := Nat.le_trans (weight_le weight) (by decide)
  have hratio : ratioUnits weight.toNat base = times * unitsPerOne := by
    rw [ratioUnits, hw, Nat.mul_right_comm times base, Nat.mul_assoc (times * unitsPerOne)]
    exact nearest_mul (Nat.mul_pos h0 unitsPerOne_pos) (onGrid_whole htimes)
  have hproduct : weightedUnits length weight.toNat base = length * times * unitsPerOne := by
    rw [weightedUnits, hratio, Nat.mul_right_comm length, ← Nat.mul_assoc length]
    exact nearest_mul unitsPerOne_pos (onGrid_whole hp)
  rw [weighted_eq weight hl h0 hb, hproduct, Nat.mul_div_cancel _ unitsPerOne_pos]

/-- With a weight equal to its base a length is left as it is. -/
theorem weighted_self {length : Nat} {weight : UInt8} (hl : length ≤ 0x1000000)
    (hw : 0 < weight.toNat) : weighted length weight weight.toNat = length := by
  have hbase : weight.toNat ≤ 0x1000000 :=
    Nat.le_trans (weight_le weight) (by decide)
  have hone : length * 1 ≤ 0x1000000 := by rwa [Nat.mul_one]
  rw [weighted_mul (Nat.one_mul _).symm hw hbase hl hone, Nat.mul_one]

theorem weighted_mono {length length' base : Nat} {weight weight' : UInt8} (hl : length ≤ length')
    (hl' : length' ≤ 0x1000000) (hw : weight ≤ weight') (h0 : 0 < base) (hb : base ≤ 0x1000000) :
    weighted length weight base ≤ weighted length' weight' base := by
  rw [weighted_eq weight (Nat.le_trans hl hl') h0 hb, weighted_eq weight' hl' h0 hb]
  exact Nat.div_le_div_right (weightedUnits_mono h0 hl (UInt8.le_iff_toNat_le.mp hw))

namespace Config

theorem nominalDit_le (c : Config) : c.nominalDit ≤ parisDit := Nat.div_le_self _ _

theorem weighted_le {length bound base : Nat} (weight : UInt8) (hl : length ≤ bound)
    (hbound : bound ≤ 0x1000000) (h0 : 0 < base) (hb : base ≤ 0x1000000) :
    weighted length weight base ≤ weighted bound 255 base :=
  weighted_mono hl hbound (UInt8.le_iff_toNat_le.mpr (Nat.le_of_lt_succ weight.toNat_lt)) h0 hb

/-- The dit at one word per minute with the greatest weight. -/
theorem dit_le (c : Config) : c.dit ≤ 6120000 :=
  Nat.le_trans (weighted_le c.weights.dit c.nominalDit_le (by decide) (by decide) (by decide))
    (by decide)

theorem dit_digits (c : Config) : c.dit ≤ 0x1000000 := Nat.le_trans c.dit_le (by decide)

theorem dah_lt (c : Config) : c.dah < 0x10000000 :=
  Nat.lt_of_le_of_lt (weighted_le c.weights.dah c.dit_le (by decide) (by decide) (by decide))
    (by decide)

theorem gap_lt (c : Config) : c.gap < 0x2000000 :=
  Nat.lt_of_le_of_lt (weighted_le c.weights.gap c.dit_le (by decide) (by decide) (by decide))
    (by decide)

theorem duration_lt (c : Config) (x : Element) : c.duration x < 0x10000000 := by
  cases x with
  | dit => exact Nat.lt_of_le_of_lt c.dit_le (by decide)
  | dah => exact c.dah_lt

end Config
end Iambic
