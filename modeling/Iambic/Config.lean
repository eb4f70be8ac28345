import Iambic.Element
import Iambic.Single.Arithmetic

/-!
# Keyer configuration

What the keying engine is told: the speed, the weights of the three lengths, the iambic mode,
and the policy by which a paddle closed during an element is remembered.
-/
namespace Iambic

/-- Mode B sends one element more after a squeeze is let go; mode A stops. -/
inductive IambicMode where
  | a
  | b
deriving DecidableEq, Repr

/-- How the paddles that decide on the extra element of mode B are followed: a snapshot keeps
the last closed ones, live takes the paddles as they are. -/
inductive SqueezeMode where
  | snapshot
  | live
deriving DecidableEq, Repr

/-- The share of an element, in percent, during which the paddles are heard. -/
structure Window where
  opens : Single
  closes : Single
deriving DecidableEq

/-- When the paddles are heard, for which elements, and how a squeeze is followed. -/
structure MemoryPolicy where
  window : Window
  remembers : ElementSet
  squeeze : SqueezeMode
deriving DecidableEq

/-- The weights L, S and P, in this order. -/
structure Weights where
  /-- The dah, in tenths of a dit. -/
  dah : UInt8
  /-- The gap, in fiftieths of a dit. -/
  gap : UInt8
  /-- The dit, in fiftieths of its nominal length. -/
  dit : UInt8
deriving DecidableEq

structure Config where
  /-- Words per minute, counted by the word PARIS. -/
  speed : UInt32
  weights : Weights
  memory : MemoryPolicy
  mode : IambicMode
deriving DecidableEq

/-- Twenty words per minute in mode B, with both elements remembered at any time. -/
def Config.standard : Config where
  speed := 20
  weights := ⟨30, 50, 50⟩
  memory := ⟨⟨.zero, .ofNat 100⟩, .both, .snapshot⟩
  mode := .b

end Iambic
