import Iambic.Config.Validity
import Iambic.Proofs.Single.Order

/-!
# The bounds of a configuration

A percentage is a number, so no infinity and no NaN is one, and negative zero is. A configuration is
refused for the first bound that it breaks, and it is accepted if it breaks none.
-/
namespace Iambic

namespace Single

/-- The units of a number, with their sign. The infinities and NaN are no numbers. -/
def units? : Single → Option Int
  | .finite negative units _ => some (signed negative units)
  | .infinite _ | .nan => none

theorem ofNat_hundred : ofNat 100 = .finite false (100 * unitsPerOne) (by decide) := by decide

/-- To lie from 0 to 100 is to be a number that does. -/
theorem isPercent_iff {x : Single} :
    x.IsPercent ↔ ∃ u ∈ x.units?, 0 ≤ u ∧ u ≤ 100 * (unitsPerOne : Int) := by
  rw [IsPercent, ofNat_hundred]
  cases x with
  | finite negative units h => simp [zero, signedZero, finite_le_finite, units?, signed]
  | infinite negative => cases negative <;> simp [zero, signedZero, LE.le, Single.le, units?]
  | nan => simp [not_le_nan, units?]

theorem le_iff_units {x y : Single} {u v : Int} (hx : x.units? = some u) (hy : y.units? = some v) :
    x ≤ y ↔ u ≤ v := by
  cases x with
  | finite s a ha =>
    cases y with
    | finite t b hb =>
      rw [finite_le_finite, ← Option.some.inj hx, ← Option.some.inj hy]
    | infinite t => cases hy
    | nan => cases hy
  | infinite s => cases hx
  | nan => cases hx

/-- The patterns of the percentages: those from that of zero to that of one hundred, and that of
negative zero. -/
theorem isPercent_ofBits_iff {bits : UInt32} :
    (ofBits bits).IsPercent ↔ bits.toNat ≤ 0x42c80000 ∨ bits.toNat = 0x80000000 := by
  have hlt := bits.toNat_lt
  have hf : bits.toNat % 0x800000 < 0x800000 := Nat.mod_lt _ (by decide)
  rw [isPercent_iff]
  unfold ofBits
  dsimp only
  split
  · have hzero : unitsOf 0 0 = 0 := rfl
    have hhundred : unitsOf 133 0x480000 = 100 * unitsPerOne := by decide
    have hfraction : 0x480000 < 0x800000 := by decide
    have hzerofraction : 0 < 0x800000 := by decide
    have hle := unitsOf_le_iff (bits.toNat / 0x800000 % 0x100) 133 hf hfraction
    have hnone := unitsOf_le_iff (bits.toNat / 0x800000 % 0x100) 0 hf hzerofraction
    rw [hhundred] at hle
    rw [hzero] at hnone
    simp only [units?, Option.mem_def, Option.some.injEq, exists_eq_left', signed, decide_eq_true_eq]
    split <;> omega
  · have hno : ¬ (bits.toNat ≤ 0x42c80000 ∨ bits.toNat = 0x80000000) := by omega
    split
    · exact iff_of_false (by simp [units?]) hno
    · exact iff_of_false (by simp [units?]) hno

end Single

/-- Each weight lies in the range that the engine accepts. -/
def Weights.InRange (w : Weights) : Prop :=
  (10 ≤ w.dah.toNat ∧ w.dah.toNat ≤ 90) ∧ w.gap.toNat ≤ 99 ∧ (10 ≤ w.dit.toNat ∧ w.dit.toNat ≤ 99)

instance (w : Weights) : Decidable w.InRange := inferInstanceAs (Decidable (_ ∧ _))

/-- What is asked of a configuration, and the error that tells that it does not hold. -/
structure Bound where
  error : ConfigError
  holds : Prop
  [decidable : Decidable holds]

instance (b : Bound) : Decidable b.holds := b.decidable

/-- The error of the first bound that does not hold. -/
def firstError? (bounds : List Bound) : Option ConfigError :=
  (bounds.find? fun b => !decide b.holds).map Bound.error

theorem firstError?_cons (b : Bound) (bounds : List Bound) :
    firstError? (b :: bounds) = if b.holds then firstError? bounds else some b.error := by
  by_cases h : b.holds <;> simp [firstError?, h]

namespace Config
variable {c : Config} {error : ConfigError}

/-- The bounds in the order in which they are looked at. -/
def bounds (c : Config) : List Bound :=
  [⟨.zeroSpeed, 1 ≤ c.speed.toNat⟩,
    ⟨.windowOpening c.memory.window.opens,
      ∃ s ∈ c.memory.window.opens.units?, 0 ≤ s ∧ s ≤ 100 * (Single.unitsPerOne : Int)⟩,
    ⟨.windowClosing c.memory.window.closes,
      ∃ t ∈ c.memory.window.closes.units?, 0 ≤ t ∧ t ≤ 100 * (Single.unitsPerOne : Int)⟩,
    ⟨.windowInverted c.memory.window,
      ∃ s ∈ c.memory.window.opens.units?, ∃ t ∈ c.memory.window.closes.units?, s ≤ t⟩,
    ⟨.dahWeight c.weights.dah, 10 ≤ c.weights.dah.toNat ∧ c.weights.dah.toNat ≤ 90⟩,
    ⟨.gapWeight c.weights.gap, c.weights.gap.toNat ≤ 99⟩,
    ⟨.ditWeight c.weights.dit, 10 ≤ c.weights.dit.toNat ∧ c.weights.dit.toNat ≤ 99⟩]

/-- The error tells of a bound that does not hold, while all bounds before it do. -/
def BreaksFirst (c : Config) (error : ConfigError) : Prop :=
  ∃ before b after, c.bounds = before ++ b :: after ∧ (∀ a ∈ before, a.holds) ∧ ¬ b.holds ∧
    b.error = error

theorem inverted_iff {w : Window} (ho : w.opens.IsPercent) (hc : w.closes.IsPercent) :
    w.closes < w.opens ↔ ¬ ∃ s ∈ w.opens.units?, ∃ t ∈ w.closes.units?, s ≤ t := by
  obtain ⟨s, hs, -⟩ := Single.isPercent_iff.mp ho
  obtain ⟨t, ht, -⟩ := Single.isPercent_iff.mp hc
  rw [Option.mem_def] at hs ht
  rw [Single.lt_iff, Single.le_iff_units ht hs, Single.le_iff_units hs ht]
  simp only [hs, ht, Option.mem_def, Option.some.injEq, exists_eq_left']
  omega

theorem error?_eq_firstError? (c : Config) : c.error? = firstError? c.bounds := by
  have hspeed : c.speed = 0 ↔ ¬ 1 ≤ c.speed.toNat := by
    rw [← UInt32.toNat_inj]
    simp
  have hgap : 99 < c.weights.gap ↔ ¬ c.weights.gap.toNat ≤ 99 := by
    rw [UInt8.lt_iff_toNat_lt]
    simp
  simp only [error?, bounds, firstError?_cons, hspeed, hgap, ite_not, ← Single.isPercent_iff,
    UInt8.le_iff_toNat_le]
  by_cases ho : c.memory.window.opens.IsPercent
  · by_cases hc : c.memory.window.closes.IsPercent
    · simp only [ho, hc, inverted_iff ho hc, if_true, ite_not]
      rfl
    · simp only [hc, if_false]
  · simp only [ho, if_false]

theorem error?_eq_none_iff : c.error? = none ↔ ∀ b ∈ c.bounds, b.holds := by
  rw [error?_eq_firstError?, firstError?, Option.map_eq_none_iff, List.find?_eq_none]
  simp

theorem error?_eq_some_iff : c.error? = some error ↔ c.BreaksFirst error := by
  rw [error?_eq_firstError?, firstError?, Option.map_eq_some_iff]
  simp only [List.find?_eq_some_iff_append, BreaksFirst]
  constructor
  · rintro ⟨b, ⟨hb, before, after, heq, hbefore⟩, herror⟩
    exact ⟨before, b, after, heq, by simpa using hbefore, by simpa using hb, herror⟩
  · rintro ⟨before, b, after, heq, hbefore, hb, herror⟩
    exact ⟨b, ⟨by simpa using hb, before, after, heq, by simpa using hbefore⟩, herror⟩

theorem error?_eq_none_iff_valid : c.error? = none ↔ c.Valid := by
  rw [error?_eq_none_iff]
  simp only [bounds, List.forall_mem_cons, List.not_mem_nil, ← Single.isPercent_iff]
  constructor
  · rintro ⟨hs, ho, hc, ⟨u, hu, v, hv, huv⟩, hdah, hgap, hdit, -⟩
    exact ⟨hs, ho, hc, (Single.le_iff_units hu hv).mpr huv, hdah, hgap, hdit⟩
  · intro h
    obtain ⟨u, hu, -⟩ := Single.isPercent_iff.mp h.opens
    obtain ⟨v, hv, -⟩ := Single.isPercent_iff.mp h.closes
    have huv : u ≤ v := (Single.le_iff_units hu hv).mp h.ordered
    exact ⟨h.speed, h.opens, h.closes, ⟨u, hu, v, hv, huv⟩, h.dah, h.gap, h.dit, by simp⟩

end Config
end Iambic
