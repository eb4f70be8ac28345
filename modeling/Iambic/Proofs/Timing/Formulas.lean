import Iambic.Proofs.Config.Bounds
import Iambic.Proofs.Single.Error
import Iambic.Proofs.Timing.Ranges

/-!
# How close the lengths come to their formulas

The ratio of a weight to its base is rounded, and then its product with the length. So a length is
off by no more than the share of two roundings before it is cut to whole microseconds. With the
standard weights nothing is rounded at all.
-/
namespace Iambic
open Single

variable {length weight base : Nat}

/-- A ratio that is not zero has all its digits. -/
theorem digits_of_ratio (hw : 1 ≤ weight) (h0 : 0 < base) (hb : base ≤ 0x1000000) :
    0x800000 ≤ weight * unitsPerOne * unitsPerOne / (base * unitsPerOne) := by
  rw [Nat.le_div_iff_mul_le (Nat.mul_pos h0 unitsPerOne_pos)]
  calc 0x800000 * (base * unitsPerOne) ≤ 0x800000 * (0x1000000 * unitsPerOne) := by gcongr
    _ ≤ 1 * unitsPerOne * unitsPerOne := by decide
    _ ≤ weight * unitsPerOne * unitsPerOne := by gcongr

theorem le_ratioUnits (hw : 1 ≤ weight) (h0 : 0 < base) (hb : base ≤ 0x1000000) :
    0x800000 ≤ ratioUnits weight base := by
  have hscale := Nat.mul_pos h0 unitsPerOne_pos
  exact le_nearest hscale (by decide)
    ((Nat.le_div_iff_mul_le hscale).mp (digits_of_ratio hw h0 hb))

theorem ratioUnits_rounds (hw : 1 ≤ weight) (h0 : 0 < base) (hb : base ≤ 0x1000000) :
    Rounds (weight * unitsPerOne) (ratioUnits weight base * base) := by
  have hunits : (0 : ℚ) < unitsPerOne := by exact_mod_cast unitsPerOne_pos
  have h := nearest_rounds (Nat.mul_pos h0 unitsPerOne_pos) (digits_of_ratio hw h0 hb)
  push_cast at h
  rw [← mul_assoc] at h
  exact h.of_mul_right hunits

theorem weightedUnits_rounds (hl : 1 ≤ length) (hr : 0x800000 ≤ ratioUnits weight base) :
    Rounds (length * ratioUnits weight base) (weightedUnits length weight base) := by
  have hunits : (0 : ℚ) < unitsPerOne := by exact_mod_cast unitsPerOne_pos
  have hdigits : 0x800000 ≤ length * unitsPerOne * ratioUnits weight base / unitsPerOne := by
    rw [Nat.mul_right_comm, Nat.mul_div_cancel _ unitsPerOne_pos]
    exact hr.trans (Nat.le_mul_of_pos_left _ hl)
  have h := nearest_rounds unitsPerOne_pos hdigits
  push_cast at h
  rw [mul_right_comm] at h
  exact h.of_mul_right hunits

/-- The product that is cut to whole microseconds is off by two roundings. -/
theorem weightedUnits_error (length weight : Nat) (h0 : 0 < base) (hb : base ≤ 0x1000000) :
    (length * weight * unitsPerOne : ℚ) * (1 - roundoff) ^ 2 ≤
        weightedUnits length weight base * base ∧
      weightedUnits length weight base * base ≤
        (length * weight * unitsPerOne : ℚ) * (1 + roundoff) ^ 2 := by
  obtain rfl | hl := Nat.eq_zero_or_pos length
  · simp [weightedUnits]
  obtain rfl | hw := Nat.eq_zero_or_pos weight
  · simp [weightedUnits, ratioUnits]
  have hratio := (ratioUnits_rounds hw h0 hb).mul_right (Nat.cast_nonneg length)
  have hproduct := (weightedUnits_rounds hl (le_ratioUnits hw h0 hb)).mul_right
    (Nat.cast_nonneg base)
  have hexact : (weight * unitsPerOne * length : ℚ) = length * weight * unitsPerOne := by ring
  have hrounded : (ratioUnits weight base * base * length : ℚ) =
    length * ratioUnits weight base * base := by ring
  rw [hexact, hrounded] at hratio
  exact hratio.twice hproduct

/-- The whole parts of two quotients are as far apart as the quotients at most, if that is a whole
number. -/
theorem abs_div_sub_div_le {a b c d k : Nat} (hb : 0 < b) (hd : 0 < d)
    (hupper : a * d ≤ (c + k * d) * b) (hlower : c * b ≤ (a + k * b) * d) :
    |((a / b : Nat) : ℤ) - (c / d : Nat)| ≤ k := by
  have hle : a / b ≤ c / d + k := by
    rw [← Nat.add_mul_div_right c k hd]
    exact div_le_div_of_mul_le hb hd hupper
  have hge : c / d ≤ a / b + k := by
    rw [← Nat.add_mul_div_right a k hb]
    exact div_le_div_of_mul_le hd hb hlower
  rw [abs_le]
  omega

/-- A weighted length is as close to its formula as two roundings leave it. -/
theorem weighted_near {bound k : Nat} {weight : UInt8} (hl : length ≤ 0x1000000)
    (h0 : 0 < base) (hb : base ≤ 0x1000000) (hbound : length * weight.toNat ≤ bound)
    (hk : (bound : ℚ) * ((1 + roundoff) ^ 2 - 1) ≤ k * base) :
    |(weighted length weight base : ℤ) - (length * weight.toNat / base : Nat)| ≤ k := by
  obtain ⟨hlower, hupper⟩ := weightedUnits_error length weight.toNat h0 hb
  rw [weighted_eq weight hl h0 hb]
  generalize weightedUnits length weight.toNat base = units at *
  have hunits : (0 : ℚ) ≤ unitsPerOne := Nat.cast_nonneg _
  have hproduct : (0 : ℚ) ≤ length * weight.toNat :=
    mul_nonneg (Nat.cast_nonneg _) (Nat.cast_nonneg _)
  have hmore : (0 : ℚ) ≤ (1 + roundoff) ^ 2 - 1 := by norm_num [roundoff]
  have hless : 1 - (1 - roundoff) ^ 2 ≤ (1 + roundoff) ^ 2 - 1 := by norm_num [roundoff]
  have hbound : (length * weight.toNat : ℚ) ≤ bound := by exact_mod_cast hbound
  have hmoved : (length * weight.toNat * unitsPerOne : ℚ) * ((1 + roundoff) ^ 2 - 1) ≤
      k * base * unitsPerOne :=
    calc (length * weight.toNat * unitsPerOne : ℚ) * ((1 + roundoff) ^ 2 - 1)
        = length * weight.toNat * ((1 + roundoff) ^ 2 - 1) * unitsPerOne := mul_right_comm _ _ _
      _ ≤ bound * ((1 + roundoff) ^ 2 - 1) * unitsPerOne :=
        mul_le_mul_of_nonneg_right (mul_le_mul_of_nonneg_right hbound hmore) hunits
      _ ≤ k * base * unitsPerOne := mul_le_mul_of_nonneg_right hk hunits
  apply abs_div_sub_div_le unitsPerOne_pos h0
  · have h : (units * base : ℚ) ≤ (length * weight.toNat + k * base) * unitsPerOne := by linarith
    exact_mod_cast h
  · have hlost := mul_le_mul_of_nonneg_left hless (mul_nonneg hproduct hunits)
    have h : (length * weight.toNat * unitsPerOne : ℚ) ≤ (units + k * unitsPerOne) * base := by
      linarith
    exact_mod_cast h

namespace Config

theorem dit_le_of_inRange {c : Config} (h : c.weights.InRange) : c.dit ≤ 2376000 := by
  have hp : c.weights.dit ≤ 99 := UInt8.le_iff_toNat_le.mpr h.2.2.2
  calc c.dit ≤ weighted parisDit 99 50 :=
      weighted_mono c.nominalDit_le (by decide) hp (by decide) (by decide)
    _ ≤ 2376000 := by decide

/-- With the standard weights the dit and the gap are what the speed gives, and the dah is three
times as long. With any weights that are accepted the dit and the gap are within a microsecond, and
the dah within three, of the whole microseconds of their formulas. -/
theorem lengths_follow_formulas (c : Config) :
    let nominal := 1200000 / max c.speed.toNat 1
    (c.weights = ⟨30, 50, 50⟩ → c.dit = nominal ∧ c.dah = 3 * nominal ∧ c.gap = nominal) ∧
    (c.weights.InRange →
      |(c.dit : ℤ) - (nominal * c.weights.dit.toNat / 50 : Nat)| ≤ 1 ∧
      |(c.gap : ℤ) - (c.dit * c.weights.gap.toNat / 50 : Nat)| ≤ 1 ∧
      |(c.dah : ℤ) - (c.dit * c.weights.dah.toNat / 10 : Nat)| ≤ 3) := by
  intro nominal
  have hnominal : nominal ≤ 1200000 := c.nominalDit_le
  have hdigits : nominal ≤ 0x1000000 := hnominal.trans (by decide)
  constructor
  · intro hw
    have hfifty : 0 < (50 : UInt8).toNat := by decide
    have hdit : c.dit = nominal := by
      rw [dit, hw]
      exact weighted_self hdigits hfifty
    refine ⟨hdit, ?_, ?_⟩
    · rw [dah, hdit, hw, Nat.mul_comm 3]
      exact weighted_mul (by decide) (by decide) (by decide) hdigits (by omega)
    · rw [gap, hdit, hw]
      exact weighted_self hdigits hfifty
  · intro hw
    have hdit := dit_le_of_inRange hw
    obtain ⟨⟨-, hl⟩, hs, -, hp⟩ := hw
    have hdit' : c.dit ≤ 0x1000000 := hdit.trans (by decide)
    refine ⟨?_, ?_, ?_⟩
    · exact weighted_near (k := 1) hdigits (by decide) (by decide) (Nat.mul_le_mul hnominal hp)
        (by norm_num [roundoff])
    · exact weighted_near (k := 1) hdit' (by decide) (by decide) (Nat.mul_le_mul hdit hs)
        (by norm_num [roundoff])
    · exact weighted_near (k := 3) hdit' (by decide) (by decide) (Nat.mul_le_mul hdit hl)
        (by norm_num [roundoff])

/-- Seven words per minute with the standard weights, and the longest elements that are accepted, of
which the dah has more digits than a single keeps. -/
theorem lengths_follow_formulas_at_longest :
    let c : Config := { Config.standard with speed := 7 }
    let d : Config := { Config.standard with speed := 1, weights := ⟨90, 99, 99⟩ }
    (c.weights = ⟨30, 50, 50⟩ ∧ d.weights.InRange) ∧
      c.dah = 3 * 171428 ∧ |(d.dah : ℤ) - (d.dit * 90 / 10 : Nat)| ≤ 3 := by
  intro c d
  have hstandard : c.weights = ⟨30, 50, 50⟩ := rfl
  have hrange : d.weights.InRange := by decide
  obtain ⟨-, hdah, -⟩ := (lengths_follow_formulas c).1 hstandard
  obtain ⟨-, -, hlongest⟩ := (lengths_follow_formulas d).2 hrange
  exact ⟨⟨hstandard, hrange⟩, hdah.trans (by decide), hlongest⟩

end Config
end Iambic
