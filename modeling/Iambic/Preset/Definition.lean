import Iambic.MemorySettings
import Iambic.Preset

/-!
# What presets stand for

A preset stands for memory settings and three weights. The operator's table may replace what the
factory set; an entry that was never written is recognised by its zeros and does not count.
-/
namespace Iambic

namespace Remembered

def hasDit : Remembered → Bool
  | both | dit => true
  | dah => false

def hasDah : Remembered → Bool
  | both | dah => true
  | dit => false

end Remembered

namespace Preset

structure Definition where
  memory : MemorySettings
  weights : Weights
deriving DecidableEq

/-- An entry for each slot. -/
abbrev Table := Vector Definition 10

namespace Definition

/-- An entry that nobody has written. -/
def blank : Definition where
  memory := ⟨⟨.zero, .zero⟩, false, false, false⟩
  weights := ⟨0, 0, 0⟩

/-- Neither the window nor the weights are all zero. -/
def isWritten (d : Definition) : Bool :=
  let windowUnset := d.memory.window.opens.equal .zero && d.memory.window.closes.equal .zero
  let weightsUnset := d.weights == ⟨0, 0, 0⟩
  !(windowUnset || weightsUnset)

end Definition

/-- The definition of a style that remembers the given elements. -/
def Definition.ofStyle (style : Style) (r : Remembered) : Definition :=
  match style with
  | .superKeyer => ⟨⟨⟨.ofNat 55, .ofNat 99⟩, r.hasDit, r.hasDah, true⟩, ⟨28, 48, 52⟩⟩
  | .accukeyer => ⟨⟨⟨.ofNat 60, .ofNat 99⟩, r.hasDit, r.hasDah, true⟩, ⟨30, 50, 50⟩⟩
  | .curtisA => ⟨⟨⟨.ofNat 60, .ofNat 99⟩, r.hasDit, r.hasDah, false⟩, ⟨32, 52, 48⟩⟩

/-- The preset that the operator begins with. -/
def standard : Preset := .styled .accukeyer .both

/-- The factory's definition; a manual setting, which has none, is given the standard one. -/
def factory : Preset → Definition
  | styled style remembered => .ofStyle style remembered
  | noMemory => ⟨⟨⟨.ofNat 60, .ofNat 99⟩, false, false, false⟩, ⟨30, 50, 50⟩⟩
  | manual => .ofStyle .accukeyer .both

namespace Table

def blank : Table := Vector.replicate 10 .blank

/-- The table that says what the factory says. -/
def factory : Table := ⟨(all.map Preset.factory).toArray, by decide⟩

end Table

/-- The operator's entry if it was written, and else the factory's. -/
def resolve (p : Preset) (table? : Option Table) : Definition :=
  match p.slot?, table? with
  | some slot, some table => if table[slot].isWritten then table[slot] else p.factory
  | _, _ => p.factory

theorem resolve_none (p : Preset) : p.resolve none = p.factory := by
  cases h : p.slot? <;> simp only [resolve, h]

theorem resolve_of_slot? {p : Preset} {slot : Fin 10} (h : p.slot? = some slot) (table : Table) :
    p.resolve (some table) = if (table.get slot).isWritten then table.get slot else p.factory := by
  simp only [resolve, h]
  rfl

theorem resolve_of_slot?_eq_none {p : Preset} (h : p.slot? = none) (table? : Option Table) :
    p.resolve table? = p.factory := by
  simp only [resolve, h]

end Preset
end Iambic
