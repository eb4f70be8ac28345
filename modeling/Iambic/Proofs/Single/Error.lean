import Iambic.Proofs.Single.Order
import Mathlib.Algebra.Order.Field.Basic
import Mathlib.Tactic.GCongr
import Mathlib.Tactic.Linarith
import Mathlib.Tactic.Positivity
import Mathlib.Tactic.Ring

/-!
# How far rounding goes

Rounding moves a number of at least 24 digits by half a step at most, which is a fixed small share of
it. Where several roundings follow one another their shares add up.
-/
namespace Iambic.Single

/-- A quotient of at least 24 digits is moved by half a step at most. -/
theorem nearest_near {num den : Nat} (hd : 0 < den) (h : 0x800000 ≤ num / den) :
    0x1000000 * (nearest num den * den) ≤ 0x1000001 * num ∧
      0xffffff * num ≤ 0x1000000 * (nearest num den * den) := by
  have hstep := shiftLeft_exponent_le h
  have hpos : 0 < den <<< exponent (num / den) := by
    rw [Nat.shiftLeft_eq]
    exact Nat.mul_pos hd (Nat.two_pow_pos _)
  have hnear := halfEven_near hpos num
  have heq : nearest num den * den =
      halfEven num (den <<< exponent (num / den)) * (den <<< exponent (num / den)) := by
    rw [nearest, Nat.shiftLeft_eq, Nat.shiftLeft_eq]
    ring
  rw [heq]
  generalize halfEven num (den <<< exponent (num / den)) = steps at hnear
  generalize den <<< exponent (num / den) = step at *
  constructor <;> nlinarith

/-- The greatest share of a number by which one rounding moves it. -/
def roundoff : ℚ := 1 / 0x1000000

theorem roundoff_bounds : 0 < 1 - roundoff ∧ 0 < 1 + roundoff ∧
    (1 - 5 * roundoff) * (1 + roundoff) ≤ (1 - roundoff) ^ 3 ∧
    (1 + roundoff) ^ 3 ≤ (1 + 5 * roundoff) * (1 - roundoff) := by
  norm_num [roundoff]

/-- `y` is as near to `x` as one rounding leaves it. -/
structure Rounds (x y : ℚ) : Prop where
  lower : x * (1 - roundoff) ≤ y
  upper : y ≤ x * (1 + roundoff)

namespace Rounds
variable {x y z c : ℚ}

theorem mul_right (h : Rounds x y) (hc : 0 ≤ c) : Rounds (x * c) (y * c) := by
  constructor
  · rw [mul_right_comm]
    exact mul_le_mul_of_nonneg_right h.lower hc
  · rw [mul_right_comm]
    exact mul_le_mul_of_nonneg_right h.upper hc

theorem of_mul_right (h : Rounds (x * c) (y * c)) (hc : 0 < c) : Rounds x y := by
  constructor
  · apply le_of_mul_le_mul_right _ hc
    rw [mul_right_comm]
    exact h.lower
  · apply le_of_mul_le_mul_right _ hc
    rw [mul_right_comm]
    exact h.upper

/-- Two roundings one after the other. -/
theorem twice (hxy : Rounds x y) (hyz : Rounds y z) :
    x * (1 - roundoff) ^ 2 ≤ z ∧ z ≤ x * (1 + roundoff) ^ 2 := by
  have hless : 0 ≤ 1 - roundoff := roundoff_bounds.1.le
  have hmore : 0 ≤ 1 + roundoff := roundoff_bounds.2.1.le
  constructor
  · calc x * (1 - roundoff) ^ 2 = x * (1 - roundoff) * (1 - roundoff) := by ring
      _ ≤ y * (1 - roundoff) := mul_le_mul_of_nonneg_right hxy.lower hless
      _ ≤ z := hyz.lower
  · calc z ≤ y * (1 + roundoff) := hyz.upper
      _ ≤ x * (1 + roundoff) * (1 + roundoff) := mul_le_mul_of_nonneg_right hxy.upper hmore
      _ = x * (1 + roundoff) ^ 2 := by ring

end Rounds

theorem nearest_rounds {num den : Nat} (hd : 0 < den) (h : 0x800000 ≤ num / den) :
    Rounds num (nearest num den * den) := by
  obtain ⟨hupper, hlower⟩ := nearest_near hd h
  have hupper : (0x1000000 : ℚ) * (nearest num den * den) ≤ 0x1000001 * num := by
    exact_mod_cast hupper
  have hlower : (0xffffff : ℚ) * num ≤ 0x1000000 * (nearest num den * den) := by
    exact_mod_cast hlower
  constructor <;> rw [roundoff] <;> linarith

/-- A share in percent of which both parts, their quotient and its product are rounded is off by
less than five roundings. All are counted in units, `U` of them to the one. -/
theorem percent_error {t d T D S P U : ℚ} (hU : 0 < U) (ht : 0 ≤ t) (hD : 0 ≤ D) (hP : 0 ≤ P)
    (rt : Rounds (t * U) T) (rd : Rounds (d * U) D) (rs : Rounds (T * U) (S * D))
    (rp : Rounds (S * (100 * U)) (P * U)) :
    100 * t * U * (1 - 5 * roundoff) ≤ P * d ∧ P * d ≤ 100 * t * U * (1 + 5 * roundoff) := by
  obtain ⟨hless, hmore, hlow, hhigh⟩ := roundoff_bounds
  obtain ⟨tl, tu⟩ := rt
  obtain ⟨dl, du⟩ := rd
  obtain ⟨sl, su⟩ := rs
  rw [← mul_assoc] at rp
  obtain ⟨pl, pu⟩ := rp.of_mul_right hU
  generalize 1 - roundoff = l at *
  generalize 1 + roundoff = m at *
  -- The roundings are taken back one by one, from the product to the two parts.
  constructor
  · apply le_of_mul_le_mul_right _ (mul_pos hU hmore)
    calc 100 * t * U * (1 - 5 * roundoff) * (U * m)
        = 100 * t * U * U * ((1 - 5 * roundoff) * m) := by ring
      _ ≤ 100 * t * U * U * l ^ 3 := by gcongr
      _ = 100 * U * l ^ 2 * (t * U * l) := by ring
      _ ≤ 100 * U * l ^ 2 * T := by gcongr
      _ = 100 * l * (T * U * l) := by ring
      _ ≤ 100 * l * (S * D) := mul_le_mul_of_nonneg_left sl (by positivity)
      _ = S * 100 * l * D := by ring
      _ ≤ P * (d * U * m) := by gcongr
      _ = P * d * (U * m) := by ring
  · apply le_of_mul_le_mul_right _ (mul_pos hU hless)
    calc P * d * (U * l) = P * (d * U * l) := by ring
      _ ≤ P * D := by gcongr
      _ ≤ S * 100 * m * D := by gcongr
      _ = 100 * m * (S * D) := by ring
      _ ≤ 100 * m * (T * U * m) := mul_le_mul_of_nonneg_left su (by positivity)
      _ = 100 * U * m ^ 2 * T := by ring
      _ ≤ 100 * U * m ^ 2 * (t * U * m) := by gcongr
      _ = 100 * t * U * U * m ^ 3 := by ring
      _ ≤ 100 * t * U * U * ((1 + 5 * roundoff) * l) := by gcongr
      _ = 100 * t * U * (1 + 5 * roundoff) * (U * l) := by ring

end Iambic.Single
