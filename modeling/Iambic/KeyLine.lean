import Iambic.Pin
import Iambic.Signal

/-!
# The transmitter's key line

The line is driven through a pin that may refuse a write. It is high while the key is down, or
low if it is inverted. A refused write of a key signal is counted, as nobody can be told of it.
-/
namespace Iambic

structure KeyLine where
  pin : Pin
  inverted : Bool
  errors : Nat

namespace KeyLine

def idle (refuses : Nat → Bool) (inverted : Bool) : KeyLine := ⟨⟨refuses, []⟩, inverted, 0⟩

/-- The error counter stops here. -/
def maxErrors : Nat := 0xffffffff

/-- The pin is driven for the key to be down or up. -/
def set (k : KeyLine) (down : Bool) : KeyLine := { k with pin := k.pin.drive (down != k.inverted) }

/-- What becomes of the next attempt. -/
def attempt (k : KeyLine) : Except HardwareError Unit :=
  if k.pin.accepts then .ok () else .error .pinFailed

/-- Only key signals reach the line. -/
def accept (k : KeyLine) : Signal → KeyLine
  | .key down _ =>
    match k.attempt with
    | .ok () => k.set down
    | .error _ => { k.set down with errors := min (k.errors + 1) maxErrors }
  | _ => k

def acceptAll (k : KeyLine) (signals : List Signal) : KeyLine := signals.foldl accept k

end KeyLine
end Iambic
