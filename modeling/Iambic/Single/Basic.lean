/-!
# Single-precision numbers

A finite single is a sign and a whole count of units, one unit being the least positive single,
`2⁻¹⁴⁹`. Counts of 25 binary digits and more lie on grids that double with each digit, and end
before `2¹²⁸`. Zero keeps its sign, the two zeros compare equal, and a NaN compares with nothing.
-/
namespace Iambic

namespace Single

/-- The units in the number one. -/
def unitsPerOne : Nat := 1 <<< 149

/-- The units in `2¹²⁸`, which no finite single reaches. -/
def unitsAtEnd : Nat := unitsPerOne <<< 128

/-- How often the unit is doubled on the grid of a count: once for each binary digit after 24. -/
def exponent (units : Nat) : Nat := units.log2 - 23

/-- The counts that belong to a single. -/
def OnGrid (units : Nat) : Prop := 1 <<< exponent units ∣ units ∧ units < unitsAtEnd

instance (units : Nat) : Decidable (OnGrid units) := inferInstanceAs (Decidable (_ ∧ _))

theorem onGrid_zero : OnGrid 0 := by decide

/-- A count of at most 24 digits, doubled any number of times, divides into steps of its grid. -/
theorem dvd_of_le {digits : Nat} (h : digits ≤ 0x1000000) (e : Nat) :
    1 <<< exponent (digits <<< e) ∣ digits <<< e := by
  simp only [Nat.shiftLeft_eq, Nat.one_mul]
  obtain hlt | rfl : digits < 2 ^ 24 ∨ digits = 2 ^ 24 := by omega
  · by_cases h0 : digits * 2 ^ e = 0
    · rw [h0]
      exact Nat.dvd_zero _
    · have hlog : (digits * 2 ^ e).log2 < 24 + e := by
        rw [Nat.log2_lt h0, Nat.pow_add]
        exact Nat.mul_lt_mul_of_pos_right hlt (Nat.two_pow_pos e)
      have hle : exponent (digits * 2 ^ e) ≤ e := by
        unfold exponent
        omega
      exact Nat.dvd_trans (Nat.pow_dvd_pow 2 hle) (Nat.dvd_mul_left _ _)
  · rw [← Nat.pow_add, exponent, Nat.log2_two_pow]
    exact Nat.pow_dvd_pow 2 (by omega)

end Single

inductive Single where
  | finite (negative : Bool) (units : Nat) (onGrid : Single.OnGrid units)
  | infinite (negative : Bool)
  | nan
deriving DecidableEq

namespace Single

/-- Zero with a sign. -/
def signedZero (negative : Bool) : Single := .finite negative 0 onGrid_zero

def zero : Single := signedZero false

def isNaN (x : Single) : Bool := x == .nan

/-- A count of units with a sign. -/
def signed (negative : Bool) (units : Nat) : Int := if negative then -units else units

protected def le : Single → Single → Bool
  | .nan, _ => false
  | _, .nan => false
  | .infinite s, .infinite t => s || !t
  | .infinite s, .finite _ _ _ => s
  | .finite _ _ _, .infinite t => !t
  | .finite s a _, .finite t b _ => signed s a ≤ signed t b

/-- Strictly below: at most, and not at least. -/
protected def lt (x y : Single) : Bool := x.le y && !y.le x

/-- Equal as numbers, so the two zeros are equal. -/
def equal (x y : Single) : Bool := x.le y && y.le x

instance : LE Single := ⟨fun x y => x.le y⟩
instance : LT Single := ⟨fun x y => x.lt y⟩
instance (x y : Single) : Decidable (x ≤ y) := inferInstanceAs (Decidable (x.le y = true))
instance (x y : Single) : Decidable (x < y) := inferInstanceAs (Decidable (x.lt y = true))

theorem finite_le_finite {s t : Bool} {a b : Nat} {ha : OnGrid a} {hb : OnGrid b} :
    Single.finite s a ha ≤ .finite t b hb ↔ signed s a ≤ signed t b := by
  change decide _ = true ↔ _
  simp

theorem not_le_nan (x : Single) : ¬ x ≤ Single.nan := by
  cases x <;> simp [LE.le, Single.le]

theorem lt_iff {x y : Single} : x < y ↔ x ≤ y ∧ ¬ y ≤ x := by
  simp [LT.lt, LE.le, Single.lt]

end Single
end Iambic
