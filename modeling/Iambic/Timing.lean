import Iambic.Config

/-!
# Lengths of elements and gaps

The nominal dit follows from the speed, the dit from it by its weight, and the dah and the gap
from the dit by theirs. A length is multiplied by its weight in single precision and cut to whole
microseconds.
-/
namespace Iambic

/-- The dit of one word per minute, in microseconds. -/
def parisDit : Nat := 1200000

/-- The shortest time between two polls, in microseconds. -/
def minPollInterval : Nat := 50

/-- A length times `weight / base`, in single precision, cut to whole microseconds. -/
def weighted (length : Nat) (weight : UInt8) (base : Nat) : Nat :=
  (Single.ofNat length * (Single.ofNat weight.toNat / Single.ofNat base)).whole

namespace Config

/-- The dit before its weight. A speed of zero counts as one. -/
def nominalDit (c : Config) : Nat := parisDit / max c.speed.toNat 1

def dit (c : Config) : Nat := weighted c.nominalDit c.weights.dit 50
def dah (c : Config) : Nat := weighted c.dit c.weights.dah 10
def gap (c : Config) : Nat := weighted c.dit c.weights.gap 50

def duration (c : Config) : Element → Nat
  | .dit => c.dit
  | .dah => c.dah

/-- The dah in dits. -/
def dashRatio (c : Config) : Single := .ofNat c.weights.dah.toNat / .ofNat 10

/-- The length of the word PARIS: ten dits, four dahs, the nine gaps inside its letters, and
the spaces between its letters and after it, which take their length from the dit alone. -/
def parisWord (c : Config) : Nat := 10 * c.dit + 4 * c.dah + 9 * c.gap + 4 * 3 * c.dit + 7 * c.dit

/-- The words per minute that are really sent; none if a word takes no time. -/
def effectiveSpeed (c : Config) : Single :=
  let seconds := Single.ofNat c.parisWord / .ofNat 1000000
  if seconds ≤ .zero then .zero else .ofNat 60 / seconds

/-- The weights are so far from 30, 50 and 50 that the speed visibly differs. -/
def deviates (c : Config) : Bool :=
  c.weights.dah < 20 || 40 < c.weights.dah || c.weights.gap < 30 || 70 < c.weights.gap ||
    c.weights.dit < 30 || 70 < c.weights.dit

/-- How long a poller waits: five percent of the shorter element, but not too short a time. -/
def pollInterval (c : Config) : Nat := max (min c.dit c.dah * 5 / 100) minPollInterval

end Config
end Iambic
