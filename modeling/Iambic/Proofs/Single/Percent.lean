import Iambic.Proofs.Config.Bounds
import Iambic.Proofs.Single.Error
import Iambic.Proofs.Timing.Ranges

/-!
# Shares in percent

The share of one count of microseconds in another, in percent, takes four roundings in single
precision. The result grows with the first count, it stays close to the exact percentage, and it is
one hundred when the two counts are equal.
-/
namespace Iambic.Single

/-- The rational number that a single stands for, if it is finite. -/
def number? (x : Single) : Option ℚ := x.units?.map fun u : ℤ => (u : ℚ) / unitsPerOne

theorem cast_unitsPerOne_pos : (0 : ℚ) < unitsPerOne := by exact_mod_cast unitsPerOne_pos

theorem le_iff_number {x y : Single} {a b : ℚ} (hx : x.number? = some a)
    (hy : y.number? = some b) : x ≤ y ↔ a ≤ b := by
  obtain ⟨u, hu, rfl⟩ := Option.map_eq_some_iff.mp hx
  obtain ⟨v, hv, rfl⟩ := Option.map_eq_some_iff.mp hy
  rw [le_iff_units hu hv, div_le_div_iff_of_pos_right cast_unitsPerOne_pos, Int.cast_le]

theorem number?_ofNat {n : Nat} (h : n ≤ 0x1000000) : (ofNat n).number? = some (n : ℚ) := by
  rw [ofNat_eq_finite h]
  have hdiv : (n * unitsPerOne / unitsPerOne : ℚ) = n :=
    mul_div_cancel_right₀ _ cast_unitsPerOne_pos.ne'
  simp [number?, units?, signed, hdiv]

/-- The percentages are the numbers from 0 to 100. -/
theorem isPercent_iff_number {x : Single} :
    x.IsPercent ↔ ∃ a, x.number? = some a ∧ 0 ≤ a ∧ a ≤ 100 := by
  rw [isPercent_iff]
  constructor
  · rintro ⟨u, hu, hlow, hhigh⟩
    refine ⟨u / unitsPerOne, Option.map_eq_some_iff.mpr ⟨u, hu, rfl⟩, ?_, ?_⟩
    · exact div_nonneg (by exact_mod_cast hlow) cast_unitsPerOne_pos.le
    · rw [div_le_iff₀ cast_unitsPerOne_pos]
      exact_mod_cast hhigh
  · rintro ⟨a, ha, hlow, hhigh⟩
    obtain ⟨u, hu, rfl⟩ := Option.map_eq_some_iff.mp ha
    rw [div_le_iff₀ cast_unitsPerOne_pos] at hhigh
    rw [le_div_iff₀ cast_unitsPerOne_pos, zero_mul] at hlow
    exact ⟨u, hu, by exact_mod_cast hlow, by exact_mod_cast hhigh⟩

/-- What a clock can count stays below this. -/
def clockEnd : Nat := 0x8000000000000000

theorem onGrid_clockEnd : OnGrid (clockEnd * unitsPerOne) := by decide

/-- The units of a whole number. -/
def wholeUnits (n : Nat) : Nat := nearest (n * unitsPerOne) 1

/-- The units of the share of `t` in `d`. -/
def shareUnits (t d : Nat) : Nat := nearest (wholeUnits t * unitsPerOne) (wholeUnits d)

/-- The units of the share of `t` in `d` in percent. -/
def percentUnits (t d : Nat) : Nat := nearest (shareUnits t d * (100 * unitsPerOne)) unitsPerOne

variable {n t d : Nat}

theorem le_wholeUnits (hn : 1 ≤ n) : unitsPerOne ≤ wholeUnits n := by
  apply le_nearest (by decide) (by decide)
  simpa using Nat.mul_le_mul_right unitsPerOne hn

theorem wholeUnits_pos (hn : 1 ≤ n) : 0 < wholeUnits n :=
  Nat.lt_of_lt_of_le unitsPerOne_pos (le_wholeUnits hn)

theorem wholeUnits_le (hn : n < clockEnd) : wholeUnits n ≤ clockEnd * unitsPerOne := by
  apply nearest_le (by decide) onGrid_clockEnd
  rw [Nat.mul_one]
  exact Nat.mul_le_mul_right _ hn.le

theorem shareUnits_le (ht : t < clockEnd) (hd : 1 ≤ d) :
    shareUnits t d ≤ clockEnd * unitsPerOne := by
  apply nearest_le (wholeUnits_pos hd) onGrid_clockEnd
  exact Nat.mul_le_mul (wholeUnits_le ht) (le_wholeUnits hd)

theorem onGrid_wholeUnits (hn : n < clockEnd) : OnGrid (wholeUnits n) :=
  onGrid_nearest (Nat.lt_of_le_of_lt (wholeUnits_le hn) onGrid_clockEnd.2)

theorem wholeUnits_mono {m : Nat} (h : m ≤ n) : wholeUnits m ≤ wholeUnits n :=
  nearest_mono (by decide) (by decide) (by gcongr)

theorem ofNat_eq_wholeUnits (hn : n < clockEnd) :
    ofNat n = .finite false (wholeUnits n) (onGrid_wholeUnits hn) :=
  round_of_lt false (onGrid_wholeUnits hn).2

theorem onGrid_shareUnits (ht : t < clockEnd) (hd : 1 ≤ d) : OnGrid (shareUnits t d) :=
  onGrid_nearest (Nat.lt_of_le_of_lt (shareUnits_le ht hd) onGrid_clockEnd.2)

theorem onGrid_percentUnits (ht : t < clockEnd) (hd : 1 ≤ d) : OnGrid (percentUnits t d) := by
  have hgrid : OnGrid (clockEnd * (100 * unitsPerOne)) := by decide
  refine onGrid_nearest (Nat.lt_of_le_of_lt (nearest_le unitsPerOne_pos hgrid ?_) hgrid.2)
  calc shareUnits t d * (100 * unitsPerOne)
      ≤ clockEnd * unitsPerOne * (100 * unitsPerOne) :=
        Nat.mul_le_mul_right _ (shareUnits_le ht hd)
    _ = clockEnd * (100 * unitsPerOne) * unitsPerOne := Nat.mul_right_comm _ _ _

/-- The share in percent as it is computed. -/
theorem percent_eq_finite (ht : t < clockEnd) (hd : 1 ≤ d) (hd' : d < clockEnd) :
    ofNat t / ofNat d * ofNat 100 =
      .finite false (percentUnits t d) (onGrid_percentUnits ht hd) := by
  have hdiv : ofNat t / ofNat d = .finite false (shareUnits t d) (onGrid_shareUnits ht hd) := by
    rw [ofNat_eq_wholeUnits ht, ofNat_eq_wholeUnits hd', finite_div_finite _ _ _ _ (Nat.ne_of_gt (wholeUnits_pos hd))]
    exact round_of_lt false (onGrid_shareUnits ht hd).2
  rw [hdiv, ofNat_hundred, finite_mul_finite]
  exact round_of_lt false (onGrid_percentUnits ht hd).2

theorem percentUnits_mono {t' : Nat} (hd : 1 ≤ d) (h : t ≤ t') :
    percentUnits t d ≤ percentUnits t' d := by
  have hpos := wholeUnits_pos hd
  have hwhole := wholeUnits_mono h
  have hshare : shareUnits t d ≤ shareUnits t' d := nearest_mono hpos hpos (by gcongr)
  exact nearest_mono unitsPerOne_pos unitsPerOne_pos (by gcongr)

theorem percentUnits_self (hd : 1 ≤ d) : percentUnits d d = 100 * unitsPerOne := by
  have hshare : shareUnits d d = unitsPerOne := by
    rw [shareUnits, Nat.mul_comm]
    exact nearest_mul (wholeUnits_pos hd) (by decide)
  rw [percentUnits, hshare, Nat.mul_comm]
  exact nearest_mul unitsPerOne_pos (by decide)

theorem percentUnits_zero (d : Nat) : percentUnits 0 d = 0 := by
  simp [percentUnits, shareUnits, wholeUnits]

/-- What is computed is off the exact percentage by less than five roundings. -/
theorem percentUnits_error (hd : 1 ≤ d) (hd' : d < clockEnd) :
    100 * t * unitsPerOne * (1 - 5 * roundoff) ≤ (percentUnits t d : ℚ) * d ∧
      (percentUnits t d : ℚ) * d ≤ 100 * t * unitsPerOne * (1 + 5 * roundoff) := by
  obtain rfl | ht := Nat.eq_zero_or_pos t
  · simp [percentUnits_zero]
  have hpos := wholeUnits_pos hd
  -- Times are counted in so many units that no quotient runs out of digits.
  have hnormal {n : Nat} (hn : 1 ≤ n) : 0x800000 ≤ n * unitsPerOne / 1 := by
    rw [Nat.div_one]
    exact Nat.le_trans (by decide) (Nat.le_mul_of_pos_left unitsPerOne hn)
  have hratio : 0x800000 ≤ wholeUnits t * unitsPerOne / wholeUnits d := by
    rw [Nat.le_div_iff_mul_le hpos]
    calc 0x800000 * wholeUnits d ≤ 0x800000 * (clockEnd * unitsPerOne) :=
          Nat.mul_le_mul_left _ (wholeUnits_le hd')
      _ ≤ unitsPerOne * unitsPerOne := by decide
      _ ≤ wholeUnits t * unitsPerOne := Nat.mul_le_mul_right _ (le_wholeUnits ht)
  have hshare : 0x800000 ≤ shareUnits t d :=
    le_nearest hpos (by decide) ((Nat.le_div_iff_mul_le hpos).mp hratio)
  have hproduct : 0x800000 ≤ shareUnits t d * (100 * unitsPerOne) / unitsPerOne := by
    rw [Nat.le_div_iff_mul_le unitsPerOne_pos]
    exact Nat.mul_le_mul hshare (Nat.le_mul_of_pos_left _ (by decide))
  have rt := nearest_rounds (by decide) (hnormal ht)
  have rd := nearest_rounds (by decide) (hnormal hd)
  have rs := nearest_rounds hpos hratio
  have rp := nearest_rounds unitsPerOne_pos hproduct
  push_cast at rt rd rs rp
  rw [mul_one] at rt rd
  exact percent_error cast_unitsPerOne_pos (Nat.cast_nonneg t) (Nat.cast_nonneg _)
    (Nat.cast_nonneg _) rt rd rs rp

/-! ## Sharp percentages -/

theorem wholeUnits_eq (hn : n ≤ 0x1000000) : wholeUnits n = n * unitsPerOne :=
  nearest_of_onGrid (onGrid_whole hn)

/-- The share of a sharp percentage comes out as that of the percentage in one hundred. -/
theorem percentUnits_of_sharp {p : Nat} (hp : p ≤ 100) (hd : 1 ≤ d) (hd' : d ≤ 0x1000000)
    (h : 100 * t = p * d) : percentUnits t d = percentUnits p 100 := by
  have ht : t ≤ d := by
    have : p * d ≤ 100 * d := Nat.mul_le_mul_right d hp
    omega
  have hshare : shareUnits t d = shareUnits p 100 := by
    apply nearest_congr (wholeUnits_pos hd) (wholeUnits_pos (by decide))
    rw [wholeUnits_eq hd', wholeUnits_eq (ht.trans hd'), wholeUnits_eq (hp.trans (by decide)),
      wholeUnits_eq (by decide)]
    calc t * unitsPerOne * unitsPerOne * (100 * unitsPerOne)
        = 100 * t * (unitsPerOne * unitsPerOne * unitsPerOne) := by ring
      _ = p * d * (unitsPerOne * unitsPerOne * unitsPerOne) := by rw [h]
      _ = p * unitsPerOne * unitsPerOne * (d * unitsPerOne) := by ring
  rw [percentUnits, percentUnits, hshare]

/-- The whole percentages that come out below themselves. -/
def roundedDown : List Nat := [53, 59]

/-- The whole percentages that come out above themselves. -/
def roundedUp : List Nat := [15, 27, 30, 54, 60]

theorem percentUnits_hundred : ∀ p ≤ 100,
    (p * unitsPerOne ≤ percentUnits p 100 ↔ p ∉ roundedDown) ∧
      (percentUnits p 100 ≤ p * unitsPerOne ↔ p ∉ roundedUp) := by
  decide +kernel

/-- Of a count of at most 24 digits a greater one is more than the whole. -/
theorem lt_percentUnits (hd : 1 ≤ d) (hd' : d < 0x1000000) (h : d < t) :
    100 * unitsPerOne < percentUnits t d := by
  have hnext : nearest (0x1000000 * unitsPerOne) 0xffffff ≤ shareUnits (d + 1) d := by
    apply nearest_mono (by decide) (wholeUnits_pos hd)
    rw [wholeUnits_eq hd'.le, wholeUnits_eq hd']
    calc 0x1000000 * unitsPerOne * (d * unitsPerOne)
        = 0x1000000 * d * (unitsPerOne * unitsPerOne) := by ring
      _ ≤ (d + 1) * 0xffffff * (unitsPerOne * unitsPerOne) := Nat.mul_le_mul_right _ (by omega)
      _ = (d + 1) * unitsPerOne * unitsPerOne * 0xffffff := by ring
  calc 100 * unitsPerOne
      < nearest (nearest (0x1000000 * unitsPerOne) 0xffffff * (100 * unitsPerOne)) unitsPerOne := by
        decide
    _ ≤ percentUnits (d + 1) d := nearest_mono unitsPerOne_pos unitsPerOne_pos (by gcongr)
    _ ≤ percentUnits t d := percentUnits_mono hd h

example : percentUnits 0x1000001 0x1000000 = 100 * unitsPerOne := by decide

end Iambic.Single
