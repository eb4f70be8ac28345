import Iambic.Proofs.Single.Percent

/-!
# The speed that is really sent

A word of any length but zero takes a positive number of seconds. The speed is then a number, and it
falls as the word gets longer.
-/
namespace Iambic
open Single

/-- The units of the seconds in a number of microseconds. -/
def secondsUnits (us : Nat) : Nat := nearest (wholeUnits us * unitsPerOne) (1000000 * unitsPerOne)

/-- The units of the number of words of the given length in a minute. -/
def speedUnits (us : Nat) : Nat := nearest (60 * unitsPerOne * unitsPerOne) (secondsUnits us)

theorem million_pos : 0 < 1000000 * unitsPerOne := by decide

variable {us us' : Nat}

theorem secondsUnits_mono (h : us ≤ us') : secondsUnits us ≤ secondsUnits us' := by
  have hwhole := wholeUnits_mono h
  exact nearest_mono million_pos million_pos (by gcongr)

/-- A microsecond is more than `2⁻²⁰` seconds. -/
theorem le_secondsUnits (h : 1 ≤ us) : 1 <<< 129 ≤ secondsUnits us := by
  apply le_nearest million_pos (by decide)
  calc 1 <<< 129 * (1000000 * unitsPerOne) ≤ unitsPerOne * unitsPerOne := by decide
    _ ≤ wholeUnits us * unitsPerOne := Nat.mul_le_mul_right _ (le_wholeUnits h)

theorem secondsUnits_pos (h : 1 ≤ us) : 0 < secondsUnits us :=
  Nat.lt_of_lt_of_le (by decide) (le_secondsUnits h)

theorem onGrid_secondsUnits (h : us < clockEnd) : OnGrid (secondsUnits us) := by
  have hle : secondsUnits us ≤ clockEnd * unitsPerOne := by
    apply nearest_le million_pos onGrid_clockEnd
    exact Nat.mul_le_mul (wholeUnits_le h) (Nat.le_mul_of_pos_left _ (by decide))
  exact onGrid_nearest (Nat.lt_of_le_of_lt hle onGrid_clockEnd.2)

theorem onGrid_speedUnits (h : 1 ≤ us) : OnGrid (speedUnits us) := by
  have hgrid : OnGrid (60 * 0x100000 * unitsPerOne) := by decide
  have hle : speedUnits us ≤ 60 * 0x100000 * unitsPerOne := by
    apply nearest_le (secondsUnits_pos h) hgrid
    calc 60 * unitsPerOne * unitsPerOne ≤ 60 * 0x100000 * unitsPerOne * 1 <<< 129 := by decide
      _ ≤ 60 * 0x100000 * unitsPerOne * secondsUnits us := Nat.mul_le_mul_left _ (le_secondsUnits h)
  exact onGrid_nearest (Nat.lt_of_le_of_lt hle hgrid.2)

/-- The longer the word the fewer of it fit into a minute. -/
theorem speedUnits_anti (hpos : 1 ≤ us) (h : us ≤ us') : speedUnits us' ≤ speedUnits us := by
  apply nearest_mono (secondsUnits_pos (hpos.trans h)) (secondsUnits_pos hpos)
  exact Nat.mul_le_mul_left _ (secondsUnits_mono h)

namespace Config
variable {c c' : Config}

theorem parisWord_lt (c : Config) : c.parisWord < 0x80000000 := by
  have hdit := c.dit_le
  have hdah := c.dah_lt
  have hgap := c.gap_lt
  unfold parisWord
  omega

/-- The speed as it is computed. -/
theorem effectiveSpeed_eq_finite (h : 0 < c.parisWord) :
    c.effectiveSpeed = .finite false (speedUnits c.parisWord) (onGrid_speedUnits h) := by
  have hclock : c.parisWord < clockEnd := c.parisWord_lt.trans (by decide)
  have hmillion : ofNat 1000000 = .finite false (1000000 * unitsPerOne) (by decide) := by decide
  have hsixty : ofNat 60 = .finite false (60 * unitsPerOne) (by decide) := by decide
  have hseconds : ofNat c.parisWord / ofNat 1000000 =
      .finite false (secondsUnits c.parisWord) (onGrid_secondsUnits hclock) := by
    rw [ofNat_eq_wholeUnits hclock, hmillion, finite_div_finite _ _ _ _ (by decide)]
    exact round_of_lt false (onGrid_secondsUnits hclock).2
  have hpos := secondsUnits_pos h
  have hzero :
      ¬ Single.finite false (secondsUnits c.parisWord) (onGrid_secondsUnits hclock) ≤ zero := by
    rw [zero, signedZero, finite_le_finite]
    simp only [signed, Bool.false_eq_true, if_false]
    omega
  rw [effectiveSpeed, hseconds, if_neg hzero, hsixty, finite_div_finite _ _ _ _ hpos.ne']
  exact round_of_lt false (onGrid_speedUnits h).2

theorem effectiveSpeed_anti (hpos : 0 < c'.parisWord) (h : c'.parisWord ≤ c.parisWord) :
    c.effectiveSpeed ≤ c'.effectiveSpeed := by
  rw [effectiveSpeed_eq_finite hpos, effectiveSpeed_eq_finite (hpos.trans_le h), finite_le_finite]
  simp only [signed, Bool.false_eq_true, if_false]
  exact_mod_cast speedUnits_anti hpos h

end Config
end Iambic
