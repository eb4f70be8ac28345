import Iambic.Single.Arithmetic
import Iambic.Single.Bits

/-!
# The order of singles

Rounding keeps the order of quotients and leaves the numbers on their grid alone. So what is computed
in single precision grows with its operands. The patterns of positive numbers have their order too.
-/
namespace Iambic

/-- The greater of two quotients does not have the smaller whole part. -/
theorem div_le_div_of_mul_le {a b c d : Nat} (hb : 0 < b) (hd : 0 < d) (h : a * d ≤ c * b) :
    a / b ≤ c / d := by
  rw [Nat.le_div_iff_mul_le hd, ← Nat.mul_le_mul_right_iff hb]
  calc a / b * d * b = a / b * b * d := Nat.mul_right_comm _ _ _
    _ ≤ a * d := Nat.mul_le_mul_right d (Nat.div_mul_le_self a b)
    _ ≤ c * b := h

theorem halfEven_mul_right {d : Nat} (hd : 0 < d) (a b : Nat) :
    halfEven (a * d) (b * d) = halfEven a b := by
  have hlow : 2 * (a % b * d) < b * d ↔ 2 * (a % b) < b := by
    rw [← Nat.mul_assoc, Nat.mul_lt_mul_right hd]
  have hhigh : b * d < 2 * (a % b * d) ↔ b < 2 * (a % b) := by
    rw [← Nat.mul_assoc, Nat.mul_lt_mul_right hd]
  simp only [halfEven, Nat.mul_div_mul_right a b hd, Nat.mul_mod_mul_right, hlow, hhigh]

theorem halfEven_le_halfEven {a b : Nat} (h : a ≤ b) (den : Nat) :
    halfEven a den ≤ halfEven b den := by
  obtain hlt | heq := Nat.lt_or_eq_of_le (Nat.div_le_div_right (c := den) h)
  · have hupper := halfEven_le a den
    have hlower := le_halfEven b den
    omega
  · -- With the same whole part the rests decide.
    have hrest : a % den ≤ b % den := by
      have ha := Nat.div_add_mod a den
      have hb := Nat.div_add_mod b den
      rw [heq] at ha
      omega
    simp only [halfEven, heq]
    repeat' split
    all_goals omega

/-- The greater of two quotients is not rounded to less than the smaller one. -/
theorem halfEven_mono {a b c d : Nat} (hb : 0 < b) (hd : 0 < d) (h : a * d ≤ c * b) :
    halfEven a b ≤ halfEven c d := by
  rw [← halfEven_mul_right hd a b, ← halfEven_mul_right hb c d, Nat.mul_comm d b]
  exact halfEven_le_halfEven h _

namespace Single

theorem exponent_mono {m n : Nat} (h : m ≤ n) : exponent m ≤ exponent n := by
  have hlog : m.log2 ≤ n.log2 := by
    by_cases hm : m = 0
    · simp [hm]
    · exact (Nat.le_log2 (by omega)).mpr (Nat.le_trans (Nat.log2_self_le hm) h)
  unfold exponent
  omega

/-- A quotient of at least 24 digits makes up half of that number of steps. -/
theorem shiftLeft_exponent_le {num den : Nat} (h : 0x800000 ≤ num / den) :
    0x800000 * (den <<< exponent (num / den)) ≤ num := by
  have hq : num / den ≠ 0 := by omega
  have hlog : 23 + exponent (num / den) = (num / den).log2 := by
    have : 23 ≤ (num / den).log2 := (Nat.le_log2 hq).mpr h
    unfold exponent
    omega
  have hpow : 2 ^ 23 * 2 ^ exponent (num / den) ≤ num / den := by
    rw [← Nat.pow_add, hlog]
    exact Nat.log2_self_le hq
  rw [Nat.shiftLeft_eq]
  calc 2 ^ 23 * (den * 2 ^ exponent (num / den))
      = den * (2 ^ 23 * 2 ^ exponent (num / den)) := Nat.mul_left_comm _ _ _
    _ ≤ den * (num / den) := Nat.mul_le_mul_left _ hpow
    _ ≤ num := Nat.mul_div_le _ _

/-- From the second grid on, a quotient makes up at least half of the 24 digits of steps. -/
theorem le_halfEven_digits {num den : Nat} (h : exponent (num / den) ≠ 0) :
    0x800000 ≤ halfEven num (den <<< exponent (num / den)) := by
  have hq : num / den ≠ 0 := fun h0 => h (by rw [h0]; decide)
  have hd : 0 < den := by
    apply Nat.pos_of_ne_zero
    rintro rfl
    simp at hq
  have hnormal : 0x800000 ≤ num / den := by
    change 2 ^ 23 ≤ num / den
    apply (Nat.le_log2 hq).mp
    unfold exponent at h
    omega
  have hstep : 0 < den <<< exponent (num / den) := by
    rw [Nat.shiftLeft_eq]
    exact Nat.mul_pos hd (Nat.two_pow_pos _)
  calc 0x800000 ≤ num / (den <<< exponent (num / den)) :=
        (Nat.le_div_iff_mul_le hstep).mpr (shiftLeft_exponent_le hnormal)
    _ ≤ halfEven num (den <<< exponent (num / den)) := le_halfEven _ _

/-- The greater of two quotients is not nearest to less than the smaller one. -/
theorem nearest_mono {a b c d : Nat} (hb : 0 < b) (hd : 0 < d) (h : a * d ≤ c * b) :
    nearest a b ≤ nearest c d := by
  have hfloor := div_le_div_of_mul_le hb hd h
  obtain hlt | heq := Nat.lt_or_eq_of_le (exponent_mono hfloor)
  · -- On the finer grid even the last step is not above the first one of the coarser grid.
    have hdigits : 2 ^ 23 ≤ halfEven c (d <<< exponent (c / d)) := le_halfEven_digits (by omega)
    simp only [nearest, Nat.shiftLeft_eq]
    calc halfEven a (b * 2 ^ exponent (a / b)) * 2 ^ exponent (a / b)
        ≤ 2 ^ 24 * 2 ^ exponent (a / b) :=
          Nat.mul_le_mul_right _ (by simpa [Nat.shiftLeft_eq] using halfEven_le_digits a b)
      _ = 2 ^ 23 * 2 ^ (exponent (a / b) + 1) := by rw [Nat.pow_succ]; omega
      _ ≤ 2 ^ 23 * 2 ^ exponent (c / d) :=
          Nat.mul_le_mul_left _ (Nat.pow_le_pow_right (by decide) hlt)
      _ ≤ halfEven c (d * 2 ^ exponent (c / d)) * 2 ^ exponent (c / d) :=
          Nat.mul_le_mul_right _ (by simpa [Nat.shiftLeft_eq] using hdigits)
  · simp only [nearest, heq, Nat.shiftLeft_eq]
    apply Nat.mul_le_mul_right
    apply halfEven_mono (Nat.mul_pos hb (Nat.two_pow_pos _)) (Nat.mul_pos hd (Nat.two_pow_pos _))
    rw [← Nat.mul_assoc, ← Nat.mul_assoc]
    exact Nat.mul_le_mul_right _ h

/-- Rounding looks at a quotient, not at how it is written. -/
theorem nearest_congr {a b c d : Nat} (hb : 0 < b) (hd : 0 < d) (h : a * d = c * b) :
    nearest a b = nearest c d :=
  Nat.le_antisymm (nearest_mono hb hd (Nat.le_of_eq h)) (nearest_mono hd hb (Nat.le_of_eq h.symm))

@[simp] theorem nearest_zero (den : Nat) : nearest 0 den = 0 := by simp [nearest, halfEven]

/-- A count of the grid is its own nearest. -/
theorem nearest_of_onGrid {units : Nat} (h : OnGrid units) : nearest units 1 = units := by
  obtain ⟨steps, hsteps⟩ := h.1
  have hu : units = steps * 2 ^ exponent units := by
    rwa [Nat.shiftLeft_eq, Nat.one_mul, Nat.mul_comm] at hsteps
  simp only [nearest, Nat.div_one, Nat.shiftLeft_eq, Nat.one_mul]
  generalize exponent units = e at hu
  rw [hu, halfEven_mul_left (Nat.two_pow_pos e)]

/-- A quotient that comes out at a count of the grid is not rounded. -/
theorem nearest_mul {units den : Nat} (hd : 0 < den) (h : OnGrid units) :
    nearest (units * den) den = units := by
  rw [nearest_congr hd (by decide) (Nat.mul_one (units * den)), nearest_of_onGrid h]

/-- A quotient up to a count of the grid is not rounded above it. -/
theorem nearest_le {num den units : Nat} (hd : 0 < den) (h : OnGrid units)
    (hle : num ≤ units * den) : nearest num den ≤ units := by
  have hmono : nearest num den ≤ nearest units 1 :=
    nearest_mono hd (by decide) (by rwa [Nat.mul_one])
  rwa [nearest_of_onGrid h] at hmono

/-- A quotient from a count of the grid on is not rounded below it. -/
theorem le_nearest {num den units : Nat} (hd : 0 < den) (h : OnGrid units)
    (hle : units * den ≤ num) : units ≤ nearest num den := by
  have hmono : nearest units 1 ≤ nearest num den :=
    nearest_mono (by decide) hd (by rwa [Nat.mul_one])
  rwa [nearest_of_onGrid h] at hmono

theorem onGrid_nearest {num den : Nat} (h : nearest num den < unitsAtEnd) :
    OnGrid (nearest num den) := ⟨dvd_nearest num den, h⟩

theorem round_of_lt {num den : Nat} (negative : Bool) (h : nearest num den < unitsAtEnd) :
    round negative num den = .finite negative (nearest num den) (onGrid_nearest h) :=
  dif_pos h

/-- A whole number of at most 24 digits is a single. -/
theorem onGrid_whole {n : Nat} (h : n ≤ 0x1000000) : OnGrid (n * unitsPerOne) := by
  rw [unitsPerOne, Nat.shiftLeft_eq, Nat.one_mul, ← Nat.shiftLeft_eq]
  refine ⟨dvd_of_le h 149, ?_⟩
  rw [Nat.shiftLeft_eq]
  calc n * 2 ^ 149 ≤ 0x1000000 * 2 ^ 149 := Nat.mul_le_mul_right _ h
    _ < unitsAtEnd := by decide

theorem ofNat_eq_finite {n : Nat} (h : n ≤ 0x1000000) :
    ofNat n = .finite false (n * unitsPerOne) (onGrid_whole h) := by
  have hnear := nearest_of_onGrid (onGrid_whole h)
  have hlt : nearest (n * unitsPerOne) 1 < unitsAtEnd := by
    rw [hnear]
    exact (onGrid_whole h).2
  rw [ofNat, round_of_lt false hlt]
  simp only [hnear]

/-! ## Patterns -/

theorem unitsOf_lt_shiftLeft {biased fraction : Nat} (hf : fraction < 0x800000) :
    unitsOf biased fraction < 0x800000 <<< biased := by
  unfold unitsOf
  split
  · rename_i hb
    rwa [hb, Nat.shiftLeft_zero]
  · rename_i hb
    obtain ⟨e, rfl⟩ := Nat.exists_eq_succ_of_ne_zero hb
    rw [Nat.shiftLeft_eq, Nat.shiftLeft_eq, Nat.pow_succ, Nat.succ_sub_one, ← Nat.mul_assoc,
      Nat.mul_right_comm]
    exact Nat.mul_lt_mul_of_pos_right (by omega) (Nat.two_pow_pos e)

theorem shiftLeft_le_unitsOf {biased fraction : Nat} (hb : biased ≠ 0) :
    0x800000 <<< (biased - 1) ≤ unitsOf biased fraction := by
  rw [unitsOf, if_neg hb, Nat.shiftLeft_eq, Nat.shiftLeft_eq]
  exact Nat.mul_le_mul_right _ (Nat.le_add_right _ _)

/-- Of two patterns the greater one, read as a number, has the more units. -/
theorem unitsOf_lt {b f b' f' : Nat} (hf : f < 0x800000)
    (h : b * 0x800000 + f < b' * 0x800000 + f') (hf' : f' < 0x800000) :
    unitsOf b f < unitsOf b' f' := by
  obtain rfl | hlt : b = b' ∨ b < b' := by omega
  · have hfraction : f < f' := by omega
    unfold unitsOf
    split
    · exact hfraction
    · simp only [Nat.shiftLeft_eq]
      exact Nat.mul_lt_mul_of_pos_right (by omega) (Nat.two_pow_pos _)
  · calc unitsOf b f < 0x800000 <<< b := unitsOf_lt_shiftLeft hf
      _ ≤ 0x800000 <<< (b' - 1) := by
        rw [Nat.shiftLeft_eq, Nat.shiftLeft_eq]
        exact Nat.mul_le_mul_left _ (Nat.pow_le_pow_right (by decide) (by omega))
      _ ≤ unitsOf b' f' := shiftLeft_le_unitsOf (by omega)

theorem unitsOf_le_iff (b b' : Nat) {f f' : Nat} (hf : f < 0x800000) (hf' : f' < 0x800000) :
    unitsOf b f ≤ unitsOf b' f' ↔ b * 0x800000 + f ≤ b' * 0x800000 + f' := by
  constructor
  · intro h
    apply Nat.not_lt.mp
    intro hlt
    exact absurd (unitsOf_lt hf' hlt hf) (Nat.not_lt.mpr h)
  · intro h
    obtain hlt | heq := Nat.lt_or_eq_of_le h
    · exact Nat.le_of_lt (unitsOf_lt hf hlt hf')
    · obtain ⟨rfl, rfl⟩ : b = b' ∧ f = f' := by omega
      exact Nat.le_refl _

end Single
end Iambic
