import Iambic.Proofs.Timing.Speed
import Iambic.Timing.Checked

/-!
# Nothing overflows

Whatever the speed and the weights, checked arithmetic refuses nothing and comes to the same
lengths: they are cut from numbers, no divisor is zero, and no sum comes near the end of a word. The
speed that is really sent is a number too, and zero only if a dit takes no time.
-/
namespace Iambic
open Single

theorem speedUnits_pos {us : Nat} (h0 : 1 ≤ us) (h : us < clockEnd) : 0 < speedUnits us := by
  have hle : secondsUnits us ≤ clockEnd * unitsPerOne := by
    apply nearest_le million_pos onGrid_clockEnd
    exact Nat.mul_le_mul (wholeUnits_le h) (Nat.le_mul_of_pos_left _ (by decide))
  apply Nat.lt_of_lt_of_le Nat.one_pos
  apply le_nearest (secondsUnits_pos h0) (by decide)
  calc 1 * secondsUnits us ≤ 1 * (clockEnd * unitsPerOne) := Nat.mul_le_mul_left 1 hle
    _ ≤ 60 * unitsPerOne * unitsPerOne := by decide

namespace Checked

theorem weighted?_eq {length base : Nat} {weight : UInt8} (hl : length ≤ 0x1000000) (h0 : 0 < base)
    (hb : base ≤ 0x1000000) (h : weighted length weight base < 0x8000000000000000) :
    weighted? length weight base = some (weighted length weight base) := by
  have hcut := weighted_eq weight hl h0 hb
  rw [weighted?, product_eq_finite weight hl h0 hb, hcut]
  exact count?_of_lt (hcut ▸ h)

theorem parisWord?_of_lt {dit dah gap : Nat} (hdit : dit < 0x10000000) (hdah : dah < 0x10000000)
    (hgap : gap < 0x10000000) : parisWord? dit dah gap =
      some (10 * dit + 4 * dah + 9 * gap + 4 * 3 * dit + 7 * dit) := by
  simp (disch := omega) only [parisWord?, Option.bind_eq_bind, Option.bind_some, mul?_of_lt,
    add?_of_lt]

theorem pollInterval?_of_lt {dit dah : Nat} (h : dit < 0x10000000) :
    pollInterval? dit dah = some (max (min dit dah * 5 / 100) minPollInterval) := by
  simp (disch := omega) only [pollInterval?, Option.bind_eq_bind, Option.bind_some,
    mul?_of_lt, div?_of_lt, Option.pure_def]

end Checked

/-- A length of zero stays zero with any weight. -/
theorem weighted_zero (weight : UInt8) {base : Nat} (h0 : 0 < base) (hb : base ≤ 0x1000000) :
    weighted 0 weight base = 0 := by
  rw [weighted_eq weight (by decide) h0 hb, weightedUnits, Nat.zero_mul, Nat.zero_mul, nearest_zero,
    Nat.zero_div]

namespace Config
open Checked

theorem nominalDit?_eq (c : Config) : c.nominalDit? = some c.nominalDit :=
  div?_of_lt (by omega) (by decide)

theorem dit?_eq (c : Config) : c.dit? = some c.dit := by
  have hnominal : c.nominalDit ≤ 0x1000000 := c.nominalDit_le.trans (by decide)
  have hlt : c.dit < 0x8000000000000000 := Nat.lt_of_le_of_lt c.dit_le (by decide)
  rw [dit] at hlt ⊢
  rw [dit?, nominalDit?_eq, Option.bind_eq_bind, Option.bind_some]
  exact weighted?_eq hnominal (by decide) (by decide) hlt

/-- What is weighted from the dit is not refused if it fits a word. -/
theorem weighted?_dit (c : Config) {weight : UInt8} {base : Nat} (h0 : 0 < base)
    (hb : base ≤ 0x1000000) (h : weighted c.dit weight base < 0x8000000000000000) :
    (c.dit?.bind fun dit => weighted? dit weight base) = some (weighted c.dit weight base) := by
  rw [dit?_eq, Option.bind_some]
  exact weighted?_eq c.dit_digits h0 hb h

theorem dah?_eq (c : Config) : c.dah? = some c.dah := by
  have hlt : c.dah < 0x8000000000000000 := c.dah_lt.trans (by decide)
  rw [dah] at hlt ⊢
  exact c.weighted?_dit (by decide) (by decide) hlt

theorem gap?_eq (c : Config) : c.gap? = some c.gap := by
  have hlt : c.gap < 0x8000000000000000 := c.gap_lt.trans (by decide)
  rw [gap] at hlt ⊢
  exact c.weighted?_dit (by decide) (by decide) hlt

theorem dit_lt (c : Config) : c.dit < 0x10000000 := Nat.lt_of_le_of_lt c.dit_le (by decide)

theorem parisWord?_eq (c : Config) : c.parisWord? = some c.parisWord := by
  rw [parisWord?, dit?_eq, Option.bind_eq_bind, Option.bind_some, dah?_eq, Option.bind_some,
    gap?_eq, Option.bind_some, parisWord]
  exact parisWord?_of_lt c.dit_lt c.dah_lt (c.gap_lt.trans (by decide))

theorem pollInterval?_eq (c : Config) : c.pollInterval? = some c.pollInterval := by
  rw [pollInterval?, dit?_eq, Option.bind_eq_bind, Option.bind_some, dah?_eq, Option.bind_some,
    pollInterval]
  exact pollInterval?_of_lt c.dit_lt

theorem dit_le_parisWord (c : Config) : c.dit ≤ c.parisWord := by
  unfold parisWord
  omega

theorem parisWord_eq_zero_iff (c : Config) : c.parisWord = 0 ↔ c.dit = 0 := by
  constructor
  · intro h
    exact Nat.eq_zero_of_le_zero (h ▸ c.dit_le_parisWord)
  · intro h
    have hdah : c.dah = 0 := by rw [dah, h, weighted_zero _ (by decide) (by decide)]
    have hgap : c.gap = 0 := by rw [gap, h, weighted_zero _ (by decide) (by decide)]
    rw [parisWord, h, hdah, hgap]

/-- The speed that is really sent is a number. It is zero if a dit takes no time, and otherwise
positive. -/
theorem number?_effectiveSpeed (c : Config) : ∃ speed, c.effectiveSpeed.number? = some speed ∧
    (c.dit = 0 ∧ speed = 0 ∨ 0 < c.dit ∧ 0 < speed) := by
  obtain h | h := Nat.eq_zero_or_pos c.parisWord
  · have hspeed : c.effectiveSpeed = .zero := by
      rw [effectiveSpeed, h]
      decide
    refine ⟨0, ?_, .inl ⟨c.parisWord_eq_zero_iff.mp h, rfl⟩⟩
    rw [hspeed]
    simp [number?, units?, zero, signedZero, signed]
  · have hdit : 0 < c.dit := by
      apply Nat.pos_of_ne_zero
      exact fun hzero => h.ne' (c.parisWord_eq_zero_iff.mpr hzero)
    have hpos := speedUnits_pos h (c.parisWord_lt.trans (by decide))
    refine ⟨speedUnits c.parisWord / unitsPerOne, ?_, .inr ⟨hdit, ?_⟩⟩
    · rw [effectiveSpeed_eq_finite h]
      simp [number?, units?, signed]
    · exact div_pos (by exact_mod_cast hpos) cast_unitsPerOne_pos

/-- For any configuration checked arithmetic refuses nothing, and the lengths stay below fixed
bounds. -/
theorem lengths_never_overflow (c : Config) :
    (c.nominalDit? = some c.nominalDit ∧ c.dit? = some c.dit ∧ c.dah? = some c.dah ∧
      c.gap? = some c.gap ∧ c.parisWord? = some c.parisWord ∧
      c.pollInterval? = some c.pollInterval) ∧
    (c.dit < 2 ^ 23 ∧ c.gap < 2 ^ 25 ∧ c.dah < 2 ^ 28 ∧ c.parisWord < 2 ^ 31 ∧
      50 ≤ c.pollInterval) ∧
    ∃ speed, c.effectiveSpeed.number? = some speed ∧
      (c.dit = 0 ∧ speed = 0 ∨ 0 < c.dit ∧ 0 < speed) := by
  refine ⟨⟨c.nominalDit?_eq, c.dit?_eq, c.dah?_eq, c.gap?_eq, c.parisWord?_eq,
    c.pollInterval?_eq⟩, ⟨?_, c.gap_lt, c.dah_lt, c.parisWord_lt, ?_⟩, c.number?_effectiveSpeed⟩
  · exact Nat.lt_of_le_of_lt c.dit_le (by decide)
  · exact Nat.le_max_right _ _

end Config
end Iambic
