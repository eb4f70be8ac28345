import Iambic.Timing

/-!
# The lengths in checked arithmetic

The lengths are computed once more in words of 64 bits that carry a sign. A result that such a word
does not hold is refused, and so are a division by zero and a single that is no number from zero on.
-/
namespace Iambic

namespace Checked

/-- A count, if a word holds it. -/
def count? (n : Nat) : Option Nat := if n < 0x8000000000000000 then some n else none

def add? (a b : Nat) : Option Nat := count? (a + b)
def mul? (a b : Nat) : Option Nat := count? (a * b)
def div? (a b : Nat) : Option Nat := if b = 0 then none else count? (a / b)

/-- The whole part of a number from zero on. -/
def whole? : Single → Option Nat
  | .finite false units _ => count? (units / Single.unitsPerOne)
  | _ => none

def weighted? (length : Nat) (weight : UInt8) (base : Nat) : Option Nat :=
  whole? (.ofNat length * (.ofNat weight.toNat / .ofNat base))

/-- The length of the word PARIS, summed up from left to right. -/
def parisWord? (dit dah gap : Nat) : Option Nat := do
  let elements ← add? (← mul? 10 dit) (← mul? 4 dah)
  let letters ← add? elements (← mul? 9 gap)
  let spaced ← add? letters (← mul? (← mul? 4 3) dit)
  add? spaced (← mul? 7 dit)

def pollInterval? (dit dah : Nat) : Option Nat := do
  return max (← div? (← mul? (min dit dah) 5) 100) minPollInterval

theorem count?_of_lt {n : Nat} (h : n < 0x8000000000000000) : count? n = some n := if_pos h

theorem add?_of_lt {a b : Nat} (h : a + b < 0x8000000000000000) : add? a b = some (a + b) :=
  count?_of_lt h

theorem mul?_of_lt {a b : Nat} (h : a * b < 0x8000000000000000) : mul? a b = some (a * b) :=
  count?_of_lt h

theorem div?_of_lt {a b : Nat} (hb : 0 < b) (ha : a < 0x8000000000000000) :
    div? a b = some (a / b) := by
  rw [div?, if_neg (Nat.ne_of_gt hb)]
  exact count?_of_lt (Nat.lt_of_le_of_lt (Nat.div_le_self a b) ha)

end Checked

namespace Config
open Checked

def nominalDit? (c : Config) : Option Nat := div? parisDit (max c.speed.toNat 1)

def dit? (c : Config) : Option Nat := do weighted? (← c.nominalDit?) c.weights.dit 50
def dah? (c : Config) : Option Nat := do weighted? (← c.dit?) c.weights.dah 10
def gap? (c : Config) : Option Nat := do weighted? (← c.dit?) c.weights.gap 50

def parisWord? (c : Config) : Option Nat := do Checked.parisWord? (← c.dit?) (← c.dah?) (← c.gap?)
def pollInterval? (c : Config) : Option Nat := do Checked.pollInterval? (← c.dit?) (← c.dah?)

end Config
end Iambic
