import Iambic.Preset.Definition

/-!
# The operator's settings

The operator selects a preset and keeps working settings beside it. The speed, the mode and the
weights of the engine's configuration always come from the working settings. The memory policy
comes from the selected preset, or from the working settings when the selection is manual.
-/
namespace Iambic

structure Keying where
  preset : Preset
  speed : UInt32
  mode : IambicMode
  memory : MemorySettings
  /-- Dit and dah are exchanged, for left-handed operators. -/
  swapped : Bool
  weights : Weights
  table : Preset.Table
deriving DecidableEq

namespace Keying

def standard : Keying where
  preset := .standard
  speed := 20
  mode := .b
  memory := ⟨⟨.ofNat 60, .ofNat 99⟩, true, true, true⟩
  swapped := false
  weights := ⟨30, 50, 50⟩
  table := .blank

/-- What the selected preset stands for; a manual selection stands for nothing. -/
def active? (k : Keying) : Option Preset.Definition :=
  if k.preset = .manual then none else some (k.preset.resolve (some k.table))

/-- The working memory settings are taken from the preset. -/
def adoptMemory (k : Keying) : Keying :=
  match k.active? with
  | some d => { k with memory := d.memory }
  | none => k

/-- The working weights are taken from the preset. -/
def adoptWeights (k : Keying) : Keying :=
  match k.active? with
  | some d => { k with weights := d.weights }
  | none => k

/-- The engine's configuration. It is made from the working settings, and then the selected preset
replaces the memory policy. Nothing but the window is brought into range. -/
def config (k : Keying) : Config :=
  let working : Config := ⟨k.speed, k.weights, k.memory.policy, k.mode⟩
  match k.active? with
  | some d => { working with memory := d.memory.policy }
  | none => working

/-- The memory settings in force. -/
def inForce (k : Keying) : MemorySettings :=
  match k.active? with
  | some d => d.memory
  | none => k.memory

theorem config_eq (k : Keying) : k.config = ⟨k.speed, k.weights, k.inForce.policy, k.mode⟩ := by
  rw [config, inForce]
  cases k.active? <;> rfl

end Keying
end Iambic
