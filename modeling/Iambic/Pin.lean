/-!
# Pins

An input pin shows the level of a contact, and a closed contact pulls it low. An output pin is
driven high or low. Either may fail.
-/
namespace Iambic

inductive HardwareError where
  | pinFailed
  | outOfRange
deriving DecidableEq

def HardwareError.message : HardwareError → String
  | pinFailed => "GPIO operation failed"
  | outOfRange => "Invalid configuration"

/-- What a pin shows when it is read. -/
inductive Reading where
  | low
  | high
  | failed
deriving DecidableEq

def Reading.closed? : Reading → Option Bool
  | low => some true
  | high => some false
  | failed => none

/-- An attempt to drive a pin. -/
structure Write where
  high : Bool
  accepted : Bool
deriving DecidableEq

/-- An output pin, with the attempts made so far; `refuses n` tells whether attempt `n`, counted
from zero, is refused. -/
structure Pin where
  refuses : Nat → Bool
  writes : List Write

def Pin.drive (p : Pin) (high : Bool) : Pin :=
  { p with writes := p.writes ++ [⟨high, !p.refuses p.writes.length⟩] }

def Pin.accepts (p : Pin) : Bool := !p.refuses p.writes.length

end Iambic
