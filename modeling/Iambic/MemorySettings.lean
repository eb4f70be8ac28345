import Iambic.Config

/-!
# Memory as the operator sets it

The operator sets the two ends of the window, a switch for each element, and a latch. The policy
that the engine follows is made from these, with the window brought into range.
-/
namespace Iambic

/-- The elements that are switched on. -/
def ElementSet.ofSwitches : Bool → Bool → ElementSet
  | true, true => both
  | true, false => ⟨true, false⟩
  | false, true => ⟨false, true⟩
  | false, false => empty

/-- A keyer with a state latch follows the paddles live. -/
def SqueezeMode.ofLatch (latch : Bool) : SqueezeMode := if latch then live else snapshot

/-- The nearest percentage, and zero for NaN. -/
def Single.toPercent (x : Single) : Single := if x.isNaN then .zero else x.clamp .zero (.ofNat 100)

def Window.toPercent (w : Window) : Window := ⟨w.opens.toPercent, w.closes.toPercent⟩

structure MemorySettings where
  window : Window
  /-- The dit is remembered. -/
  dit : Bool
  /-- The dah is remembered. -/
  dah : Bool
  /-- A squeeze is decided by the state of the paddles, not by an edge. -/
  latch : Bool
deriving DecidableEq

def MemorySettings.policy (m : MemorySettings) : MemoryPolicy where
  window := m.window.toPercent
  remembers := .ofSwitches m.dit m.dah
  squeeze := .ofLatch m.latch

end Iambic
