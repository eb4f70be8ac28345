import Iambic.Single.Basic

/-!
# Rounding to the nearest single

A quotient is rounded to a whole number with ties to the even neighbour. A single keeps 24
binary digits, so a larger quotient is rounded to whole steps of the grid on which it lies.
-/
namespace Iambic

/-- The whole number nearest to `num / den`, and of two equally near the even one. -/
def halfEven (num den : Nat) : Nat :=
  let whole := num / den
  let rest := num % den
  if 2 * rest < den then whole
  else if den < 2 * rest then whole + 1
  else whole + whole % 2

theorem halfEven_mul_left {den : Nat} (h : 0 < den) (n : Nat) : halfEven (n * den) den = n := by
  simp [halfEven, h, Nat.mul_mod_left]

theorem le_halfEven (num den : Nat) : num / den ≤ halfEven num den := by
  unfold halfEven
  dsimp only
  split
  · exact Nat.le_refl _
  · split <;> omega

theorem halfEven_le (num den : Nat) : halfEven num den ≤ num / den + 1 := by
  unfold halfEven
  dsimp only
  split
  · omega
  · split <;> omega

/-- Twice the distance from the rounded number to the quotient is at most one. -/
theorem halfEven_near {den : Nat} (h : 0 < den) (num : Nat) :
    2 * num ≤ (2 * halfEven num den + 1) * den ∧ 2 * halfEven num den * den ≤ 2 * num + den := by
  have hd := Nat.div_add_mod num den
  have hr := Nat.mod_lt num h
  unfold halfEven
  dsimp only
  generalize num / den = q at *
  generalize num % den = r at *
  have h0 : 2 * q * den = 2 * (den * q) := by rw [Nat.mul_assoc, Nat.mul_comm q]
  have h1 : (2 * q + 1) * den = 2 * (den * q) + den := by rw [Nat.add_mul, Nat.one_mul, h0]
  have h2 : 2 * (q + 1) * den = 2 * (den * q) + 2 * den := by rw [Nat.mul_add, Nat.add_mul, h0]
  have h3 : (2 * (q + 1) + 1) * den = 2 * (den * q) + 3 * den := by
    rw [Nat.add_mul, Nat.one_mul, h2]
    omega
  split
  · omega
  · split
    · omega
    · obtain even | odd : q % 2 = 0 ∨ q % 2 = 1 := by omega
      · simp only [even, Nat.add_zero]
        omega
      · simp only [odd]
        omega

namespace Single

/-- The count of units nearest to `num / den` units on the grid where the quotient lies. -/
def nearest (num den : Nat) : Nat :=
  halfEven num (den <<< exponent (num / den)) <<< exponent (num / den)

/-- On its grid a quotient makes up at most a full 24 digits of steps, also when the last step
is due to rounding. -/
theorem halfEven_le_digits (num den : Nat) :
    halfEven num (den <<< exponent (num / den)) ≤ 0x1000000 := by
  have hq : num / den < 2 ^ 24 * 2 ^ exponent (num / den) := by
    rw [← Nat.pow_add]
    refine Nat.lt_of_lt_of_le Nat.lt_log2_self (Nat.pow_le_pow_right (by decide) ?_)
    unfold exponent
    omega
  have hdiv : num / (den <<< exponent (num / den)) < 2 ^ 24 := by
    rw [Nat.shiftLeft_eq, ← Nat.div_div_eq_div_mul]
    exact Nat.div_lt_of_lt_mul (by rwa [Nat.mul_comm])
  have := halfEven_le num (den <<< exponent (num / den))
  omega

theorem dvd_nearest (num den : Nat) : 1 <<< exponent (nearest num den) ∣ nearest num den :=
  dvd_of_le (halfEven_le_digits num den) _

/-- The single nearest to `num / den` units; from `2¹²⁸` on it is infinite. -/
def round (negative : Bool) (num den : Nat) : Single :=
  if h : nearest num den < unitsAtEnd then
    .finite negative (nearest num den) ⟨dvd_nearest num den, h⟩
  else .infinite negative

end Single
end Iambic
