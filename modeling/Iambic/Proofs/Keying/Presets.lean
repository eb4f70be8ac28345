import Iambic.Keying
import Iambic.Proofs.Config.Bounds

/-!
# From settings to configurations

Whatever numbers are stored, the window of the configuration is in range, so what can be refused is
the speed, a window that closes before it opens, and the working weights. What the factory set is
never refused. Settings that have adopted their preset's memory policy are keyed the same without
the preset.
-/
namespace Iambic

namespace Single

/-- The units of the nearest percentage. NaN counts as zero. -/
def clampedUnits : Single → Int
  | .finite negative units _ => max 0 (min (signed negative units) (100 * unitsPerOne))
  | .infinite negative => if negative then 0 else 100 * unitsPerOne
  | .nan => 0

theorem clampedUnits_range (x : Single) :
    0 ≤ x.clampedUnits ∧ x.clampedUnits ≤ 100 * (unitsPerOne : Int) := by
  have hpos : 0 ≤ (unitsPerOne : Int) := Int.natCast_nonneg _
  cases x with
  | finite s a h => simp only [clampedUnits]; omega
  | infinite s => simp only [clampedUnits]; split <;> omega
  | nan => simp only [clampedUnits]; omega

theorem finite_lt_finite {s t : Bool} {a b : Nat} {ha : OnGrid a} {hb : OnGrid b} :
    Single.finite s a ha < .finite t b hb ↔ signed s a < signed t b := by
  rw [lt_iff, finite_le_finite, finite_le_finite]
  omega

theorem units?_toPercent (x : Single) : x.toPercent.units? = some x.clampedUnits := by
  have hzero : zero = .finite false 0 onGrid_zero := rfl
  have hpos : 0 ≤ (unitsPerOne : Int) := Int.natCast_nonneg _
  rw [toPercent, clamp, ofNat_hundred, hzero]
  cases x with
  | finite s a h =>
    have hnumber : (Single.finite s a h).isNaN = false := rfl
    have hlow : signed false 0 = 0 := rfl
    have hhigh : signed false (100 * unitsPerOne) = 100 * (unitsPerOne : Int) := by
      simp [signed]
    simp only [hnumber, finite_lt_finite, hlow, hhigh, Bool.false_eq_true, if_false, clampedUnits]
    split
    · simp only [units?, hlow, Option.some.injEq]
      omega
    · split
      · simp only [units?, hhigh, Option.some.injEq]
        omega
      · simp only [units?, Option.some.injEq]
        omega
  | infinite s => cases s <;> rfl
  | nan => rfl

theorem isPercent_toPercent (x : Single) : x.toPercent.IsPercent :=
  isPercent_iff.mpr ⟨x.clampedUnits, x.units?_toPercent, x.clampedUnits_range⟩

end Single

/-- The window, once it is brought into range, does not close before it opens. -/
def Window.Ordered (w : Window) : Prop := w.opens.clampedUnits ≤ w.closes.clampedUnits

instance (w : Window) : Decidable w.Ordered := inferInstanceAs (Decidable (_ ≤ _))

namespace Preset

theorem factory_ordered (p : Preset) : p.factory.memory.window.Ordered := by
  have h55 : (Window.mk (.ofNat 55) (.ofNat 99)).Ordered := by decide
  have h60 : (Window.mk (.ofNat 60) (.ofNat 99)).Ordered := by decide
  match p with
  | .styled .superKeyer _ => exact h55
  | .styled .accukeyer _ | .styled .curtisA _ | .noMemory | .manual => exact h60

theorem factory_inRange (p : Preset) : p.factory.weights.InRange := by
  have hsuper : Weights.InRange ⟨28, 48, 52⟩ := by decide
  have haccu : Weights.InRange ⟨30, 50, 50⟩ := by decide
  have hcurtis : Weights.InRange ⟨32, 52, 48⟩ := by decide
  match p with
  | .styled .superKeyer _ => exact hsuper
  | .styled .curtisA _ => exact hcurtis
  | .styled .accukeyer _ | .noMemory | .manual => exact haccu

theorem ne_manual_of_slot? {p : Preset} {slot : Fin 10} (h : p.slot? = some slot) :
    p ≠ .manual := by
  rintro rfl
  simp [slot?] at h

/-- Where the operator has written nothing the factory decides. -/
theorem resolve_of_not_isWritten {p : Preset} {table : Table} {slot : Fin 10}
    (hs : p.slot? = some slot) (hw : (table.get slot).isWritten = false) :
    p.resolve (some table) = p.factory := by
  rw [resolve_of_slot? hs]
  exact if_neg (Bool.eq_false_iff.mp hw)

end Preset

namespace Keying
variable {k : Keying}

theorem inForce_eq (k : Keying) : k.inForce =
    if k.preset = .manual then k.memory else (k.preset.resolve (some k.table)).memory := by
  rw [inForce, active?]
  by_cases hp : k.preset = .manual <;> simp [hp]

/-- Only the speed, the weights and the order of the window are left to be checked. -/
theorem config_valid_iff : k.config.Valid ↔
    1 ≤ k.speed.toNat ∧ k.weights.InRange ∧ k.inForce.window.Ordered := by
  have ho := k.inForce.window.opens.units?_toPercent
  have hc := k.inForce.window.closes.units?_toPercent
  rw [config_eq]
  constructor
  · intro h
    exact ⟨h.speed, ⟨h.dah, h.gap, h.dit⟩, (Single.le_iff_units ho hc).mp h.ordered⟩
  · rintro ⟨hspeed, ⟨hdah, hgap, hdit⟩, hordered⟩
    exact ⟨hspeed, Single.isPercent_toPercent _, Single.isPercent_toPercent _,
      (Single.le_iff_units ho hc).mpr hordered, hdah, hgap, hdit⟩

theorem adoptMemory_eq (k : Keying) :
    k.adoptMemory = { k with memory := k.active?.elim k.memory Preset.Definition.memory } := by
  rw [adoptMemory]
  cases k.active? <;> rfl

theorem adoptWeights_eq (k : Keying) :
    k.adoptWeights = { k with weights := k.active?.elim k.weights Preset.Definition.weights } := by
  rw [adoptWeights]
  cases k.active? <;> rfl

@[simp] theorem active?_adoptMemory (k : Keying) : k.adoptMemory.active? = k.active? := by
  rw [adoptMemory_eq]
  rfl

@[simp] theorem active?_adoptWeights (k : Keying) : k.adoptWeights.active? = k.active? := by
  rw [adoptWeights_eq]
  rfl

@[simp] theorem memory_adoptMemory (k : Keying) : k.adoptMemory.memory = k.inForce := by
  rw [adoptMemory, inForce]
  cases k.active? <;> rfl

@[simp] theorem inForce_adoptMemory (k : Keying) : k.adoptMemory.inForce = k.inForce := by
  rw [inForce, active?_adoptMemory, memory_adoptMemory, inForce]
  cases k.active? <;> rfl

@[simp] theorem inForce_adoptWeights (k : Keying) : k.adoptWeights.inForce = k.inForce := by
  rw [inForce, active?_adoptWeights, adoptWeights_eq, inForce]

/-- Whatever is stored, neither end of the window is ever out of range. A configuration is accepted
just if the speed is not zero, the working weights are in range, and the window of the selected
preset, or for a manual selection the working one, does not close before it opens once both ends are
brought into range. So if the operator has written nothing for the selected preset and its weights
are adopted, only a speed of zero is refused. -/
theorem config_accepted_iff (k : Keying) :
    (∀ x, k.config.error? ≠ some (.windowOpening x) ∧ k.config.error? ≠ some (.windowClosing x)) ∧
    (k.config.error? = none ↔
      let window :=
        if k.preset = .manual then k.memory.window
        else (k.preset.resolve (some k.table)).memory.window
      1 ≤ k.speed.toNat ∧ k.weights.InRange ∧
        window.opens.clampedUnits ≤ window.closes.clampedUnits) ∧
    ∀ slot, k.preset.slot? = some slot → (k.table.get slot).isWritten = false →
      (k.adoptWeights.config.error? = none ↔ 1 ≤ k.speed.toNat) := by
  refine ⟨?_, ?_, ?_⟩
  · intro x
    have ho : k.config.memory.window.opens.IsPercent := by
      rw [config_eq]
      exact Single.isPercent_toPercent _
    have hc : k.config.memory.window.closes.IsPercent := by
      rw [config_eq]
      exact Single.isPercent_toPercent _
    rw [Config.error?, if_neg (not_not_intro ho), if_neg (not_not_intro hc)]
    constructor <;> (repeat' split) <;> simp
  · have hwindow : k.inForce.window =
        if k.preset = .manual then k.memory.window
        else (k.preset.resolve (some k.table)).memory.window := by
      rw [inForce_eq, apply_ite MemorySettings.window]
    rw [Config.error?_eq_none_iff_valid, config_valid_iff, hwindow]
    rfl
  · intro slot hs hw
    have hactive : k.active? = some k.preset.factory := by
      rw [active?, if_neg (Preset.ne_manual_of_slot? hs), Preset.resolve_of_not_isWritten hs hw]
    have hadopted : k.adoptWeights = { k with weights := k.preset.factory.weights } := by
      rw [adoptWeights_eq, hactive]
      rfl
    have hmemory : k.inForce = k.preset.factory.memory := by rw [inForce, hactive]
    rw [Config.error?_eq_none_iff_valid, config_valid_iff, inForce_adoptWeights, hmemory, hadopted]
    exact and_iff_left ⟨k.preset.factory_inRange, k.preset.factory_ordered⟩

/-- A preset that keeps only dits, whose entry has weights but no window, with working weights that
would be refused and a working window of NaN. -/
theorem config_accepted_iff_of_unwritten :
    let table := Preset.Table.blank.set 7 ⟨⟨⟨.zero, .signedZero true⟩, true, true, true⟩, ⟨5, 200, 0⟩⟩
    let k : Keying := { Keying.standard with
      preset := .styled .curtisA .dit
      memory.window := ⟨.nan, .infinite true⟩
      weights := ⟨0, 255, 100⟩
      table := table }
    (k.preset.slot? = some 7 ∧ (k.table.get 7).isWritten = false ∧ ¬ k.weights.InRange) ∧
      k.config.error? = some (.dahWeight 0) ∧
      (k.adoptWeights.config.error? = none ↔ 1 ≤ k.speed.toNat) := by
  intro table k
  have hs : k.preset.slot? = some 7 := rfl
  have hw : (k.table.get 7).isWritten = false := by decide
  exact ⟨⟨hs, hw, by decide⟩, by decide, (config_accepted_iff k).2.2 7 hs hw⟩

/-- Settings that have adopted the memory policy of their preset are keyed as before, also when the
selection becomes manual. Adopting the policy or the weights again changes nothing more, the order
of the two does not matter, each replaces its own part of the settings and leaves the selected
definition as it is, and for a manual selection neither does anything. -/
theorem adopted_settings (k : Keying) :
    (k.adoptMemory.config = k.config ∧
      ({ k.adoptMemory with preset := .manual } : Keying).config = k.config) ∧
    (k.adoptMemory.adoptMemory = k.adoptMemory ∧ k.adoptWeights.adoptWeights = k.adoptWeights ∧
      k.adoptMemory.adoptWeights = k.adoptWeights.adoptMemory) ∧
    (k.adoptMemory = { k with memory := k.active?.elim k.memory Preset.Definition.memory } ∧
      k.adoptWeights = { k with weights := k.active?.elim k.weights Preset.Definition.weights }) ∧
    (k.adoptMemory.active? = k.active? ∧ k.adoptWeights.active? = k.active?) ∧
    ({ k with preset := .manual } : Keying).adoptMemory = { k with preset := .manual } ∧
      ({ k with preset := .manual } : Keying).adoptWeights = { k with preset := .manual } := by
  refine ⟨⟨?_, ?_⟩, ⟨?_, ?_, ?_⟩, ⟨adoptMemory_eq k, adoptWeights_eq k⟩,
    ⟨active?_adoptMemory k, active?_adoptWeights k⟩, rfl, rfl⟩
  · have hframe : k.adoptMemory = { k with memory := k.adoptMemory.memory } := by
      rw [adoptMemory_eq]
    rw [config_eq, inForce_adoptMemory, hframe, config_eq]
  · have hmanual : ({ k.adoptMemory with preset := .manual } : Keying).inForce = k.inForce :=
      memory_adoptMemory k
    rw [config_eq, hmanual, adoptMemory_eq, config_eq]
  · rw [adoptMemory_eq k.adoptMemory, active?_adoptMemory, adoptMemory_eq]
    cases k.active? <;> rfl
  · rw [adoptWeights_eq k.adoptWeights, active?_adoptWeights, adoptWeights_eq]
    cases k.active? <;> rfl
  · rw [adoptWeights_eq k.adoptMemory, active?_adoptMemory, adoptMemory_eq k.adoptWeights,
      active?_adoptWeights, adoptMemory_eq, adoptWeights_eq]

end Keying
end Iambic
