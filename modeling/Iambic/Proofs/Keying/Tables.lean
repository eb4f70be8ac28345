import Iambic.Proofs.Keying.Presets

/-!
# What the operator's table decides

A preset stands for a written definition, whatever the table holds. So a table can be filled up
with what its presets stand for, and nothing is keyed differently. A table in which nothing is
written says the same as no table and as the factory's. Only the entry of the selected preset has a
say at all.
-/
namespace Iambic

namespace Preset
variable {p : Preset} {slot : Fin 10} {t t' : Table}

theorem factory_isWritten (p : Preset) : p.factory.isWritten := by
  match p with
  | .styled style remembered => cases style <;> cases remembered <;> decide
  | .noMemory | .manual => decide

theorem resolve_isWritten (p : Preset) (table? : Option Table) : (p.resolve table?).isWritten := by
  cases table? with
  | none =>
    rw [resolve_none]
    exact p.factory_isWritten
  | some t =>
    cases hs : p.slot? with
    | none =>
      rw [resolve_of_slot?_eq_none hs]
      exact p.factory_isWritten
    | some slot =>
      rw [resolve_of_slot? hs]
      split
      · assumption
      · exact p.factory_isWritten

/-- Of a table only the entry of the preset matters. -/
theorem resolve_congr (h : ∀ slot, p.slot? = some slot → t'.get slot = t.get slot) :
    p.resolve (some t') = p.resolve (some t) := by
  cases hs : p.slot? with
  | none => rw [resolve_of_slot?_eq_none hs, resolve_of_slot?_eq_none hs]
  | some slot => rw [resolve_of_slot? hs, resolve_of_slot? hs, h slot hs]

/-- An entry that says what the preset stands for anyway changes nothing. -/
theorem resolve_of_get {table? : Option Table}
    (h : ∀ slot, p.slot? = some slot → t.get slot = p.resolve table?) :
    p.resolve (some t) = p.resolve table? := by
  cases hs : p.slot? with
  | none => rw [resolve_of_slot?_eq_none hs, resolve_of_slot?_eq_none hs]
  | some slot => rw [resolve_of_slot? hs, h slot hs, if_pos (p.resolve_isWritten table?)]

/-- A table in which nothing is written says what no table says. -/
theorem resolve_of_unwritten (h : ∀ slot, (t.get slot).isWritten = false) :
    p.resolve (some t) = p.resolve none := by
  rw [resolve_none]
  cases hs : p.slot? with
  | none => exact resolve_of_slot?_eq_none hs (some t)
  | some slot => exact resolve_of_not_isWritten hs (h slot)

namespace Table

/-- Every entry replaced by what its preset stands for. -/
def resolved (t : Table) : Table := Vector.ofFn fun slot => (ofSlot slot).resolve (some t)

theorem get_resolved (hs : p.slot? = some slot) : t.resolved.get slot = p.resolve (some t) := by
  rw [← slot?_eq_some_iff.mp hs]
  exact Vector.getElem_ofFn slot.isLt

theorem get_factory (hs : p.slot? = some slot) : factory.get slot = p.factory := by
  rw [← slot?_eq_some_iff.mp hs]
  exact List.getElem_map Preset.factory

end Table

@[simp] theorem resolve_resolved (p : Preset) (t : Table) :
    p.resolve (some t.resolved) = p.resolve (some t) :=
  resolve_of_get fun _ hs => Table.get_resolved hs

@[simp] theorem resolve_factory (p : Preset) : p.resolve (some .factory) = p.resolve none := by
  apply resolve_of_get
  intro slot hs
  rw [Table.get_factory hs, resolve_none]

end Preset

namespace Keying
variable {k : Keying} {t t' : Preset.Table}

/-- The settings with another table. -/
def withTable (k : Keying) (t : Preset.Table) : Keying := { k with table := t }

theorem active?_withTable (k : Keying) (t : Preset.Table) : (k.withTable t).active? =
    if k.preset = .manual then none else some (k.preset.resolve (some t)) := rfl

/-- The configuration reads the table only for what the selected preset stands for. -/
theorem config_withTable (h : (k.withTable t').active? = (k.withTable t).active?) :
    (k.withTable t').config = (k.withTable t).config := by
  have hmemory : (k.withTable t').inForce = (k.withTable t).inForce := by
    rw [inForce, inForce, h]
    rfl
  rw [config_eq, config_eq, hmemory]
  rfl

/-- Whatever the table holds, a preset stands for a written definition. If every entry is replaced
by what its preset stands for, any settings still select the same definition and give the same
configuration. A table in which nothing is written says what no table and what the factory's table
says. The configuration is the same with any table that has the entry of the selected preset, and
for a manual selection, which has none, with any table at all. -/
theorem resolution_stable (t : Preset.Table) :
    (∀ p : Preset, (p.resolve none).isWritten ∧ (p.resolve (some t)).isWritten) ∧
    (∀ k : Keying, (k.withTable t.resolved).active? = (k.withTable t).active? ∧
      (k.withTable t.resolved).config = (k.withTable t).config) ∧
    ((∀ slot, (t.get slot).isWritten = false) → ∀ p : Preset,
      p.resolve (some t) = p.resolve none ∧ p.resolve (some t) = p.resolve (some .factory)) ∧
    ∀ (k : Keying) (t' : Preset.Table),
      (∀ slot, k.preset.slot? = some slot → t'.get slot = t.get slot) →
        (k.withTable t').config = (k.withTable t).config := by
  refine ⟨fun p => ⟨p.resolve_isWritten none, p.resolve_isWritten (some t)⟩, ?_, ?_, ?_⟩
  · intro k
    have hactive : (k.withTable t.resolved).active? = (k.withTable t).active? := by
      rw [active?_withTable, active?_withTable, Preset.resolve_resolved]
    exact ⟨hactive, config_withTable hactive⟩
  · intro hblank p
    have hnone : p.resolve (some t) = p.resolve none := Preset.resolve_of_unwritten hblank
    exact ⟨hnone, hnone.trans p.resolve_factory.symm⟩
  · intro k t' hsame
    apply config_withTable
    rw [active?_withTable, active?_withTable, Preset.resolve_congr hsame]

/-- A table whose only entry has weights but no window. Once the operator has written it, it is used;
an entry of NaN for another preset than the selected one is not. -/
theorem resolution_stable_of_written_entry :
    let half : Preset.Definition := ⟨⟨⟨.zero, .signedZero true⟩, true, true, true⟩, ⟨5, 200, 0⟩⟩
    let own : Preset.Definition := ⟨⟨⟨.ofNat 20, .ofNat 80⟩, false, true, true⟩, ⟨40, 60, 45⟩⟩
    let blank : Preset.Table := Preset.Table.blank.setIfInBounds 7 half
    let t : Preset.Table := blank.setIfInBounds 7 own
    let t' : Preset.Table := t.setIfInBounds 2 ⟨⟨⟨.nan, .infinite true⟩, false, false, true⟩, ⟨1, 2, 3⟩⟩
    let k : Keying := { Keying.standard with preset := .styled .curtisA .dit }
    ((∀ slot, (blank.get slot).isWritten = false) ∧ (t'.get 2).isWritten ∧
      ∀ slot, k.preset.slot? = some slot → t'.get slot = t.get slot) ∧
      k.preset.resolve (some blank) = k.preset.resolve (some .factory) ∧
      ((k.withTable t).active? = some own ∧ (k.withTable t.resolved).active? = some own ∧
        (k.withTable t.resolved).config = (k.withTable t).config ∧
        (k.withTable t).config ≠ (k.withTable blank).config) ∧
      (k.withTable t').config = (k.withTable t).config := by
  intro half own blank t t' k
  have hblank : ∀ slot, (blank.get slot).isWritten = false := by decide
  have hwritten : (t'.get 2).isWritten := by decide
  have hsame : ∀ slot, k.preset.slot? = some slot → t'.get slot = t.get slot := by decide
  have hown : (k.withTable t).active? = some own := by decide
  obtain ⟨-, -, hfactory, -⟩ := resolution_stable blank
  obtain ⟨-, hresolved, -, hother⟩ := resolution_stable t
  exact ⟨⟨hblank, hwritten, hsame⟩, (hfactory hblank k.preset).2,
    ⟨hown, (hresolved k).1.trans hown, (hresolved k).2, by decide⟩, hother k t' hsame⟩

end Keying
end Iambic
