import Iambic.Contact
import Iambic.Edge
import Iambic.Keying
import Iambic.Pin

/-!
# Sampling the paddles

Two contacts are read in turn, the dit contact first, and their debounced levels are told as
edges of the paddles. When the paddles are swapped, each contact stands for the other paddle.
-/
namespace Iambic

/-- How often each contact has been read. -/
structure ReadCount where
  dit : Nat
  dah : Nat
deriving DecidableEq

structure Sampler where
  dit : Contact
  dah : Contact
  debounce : Nat
  swapped : Bool
  reads : ReadCount
deriving DecidableEq

namespace Sampler

def rest : Sampler := ⟨.rest, .rest, 0, false, ⟨0, 0⟩⟩

/-- The longest debounce time, in microseconds. -/
def maxDebounce : Nat := 100000

def setDebounce (s : Sampler) (us : Int) : Except HardwareError Sampler :=
  if 0 ≤ us ∧ us ≤ maxDebounce then .ok { s with debounce := us.toNat } else .error .outOfRange

def setSwap (s : Sampler) (swapped : Bool) : Sampler := { s with swapped := swapped }

/-- The operator's settings say which contact is which paddle. -/
def adopt (s : Sampler) (k : Keying) : Sampler := s.setSwap k.swapped

/-- The paddle for which a contact stands. -/
def paddle (s : Sampler) (contact : Element) : Element :=
  if s.swapped then contact.opposite else contact

/-- The debounced levels of the contacts. -/
def contacts (s : Sampler) : ElementSet := ⟨s.dit.stable, s.dah.stable⟩

/-- The debounced levels of the paddles. -/
def levels (s : Sampler) : ElementSet := if s.swapped then s.contacts.swap else s.contacts

/-- The edge of a contact between two of its states, if its level changed. -/
def edges (s : Sampler) (contact : Element) (before after : Contact) (now : Instant) : List Edge :=
  (before.change? after).toList.map fun closed => ⟨.paddle (s.paddle contact), closed, now⟩

/-- Both contacts take their new levels. -/
def observe (s : Sampler) (closed : ElementSet) (now : Instant) : Sampler × List Edge :=
  let dit := s.dit.observe s.debounce closed.dit now
  let dah := s.dah.observe s.debounce closed.dah now
  ({ s with dit := dit, dah := dah }, s.edges .dit s.dit dit now ++ s.edges .dah s.dah dah now)

/-- The dah contact is not read when the dit contact cannot be. -/
def countReads (s : Sampler) (dit : Reading) : Sampler :=
  { s with
    reads.dit := s.reads.dit + 1
    reads.dah := if dit = .failed then s.reads.dah else s.reads.dah + 1 }

/-- A sample in which a reading fails leaves the levels as they are. -/
def sample (s : Sampler) (now : Instant) (dit dah : Reading) :
    Sampler × Except HardwareError (List Edge) :=
  match dit.closed?, dah.closed? with
  | some ditClosed, some dahClosed =>
    let (s, edges) := (s.countReads dit).observe ⟨ditClosed, dahClosed⟩ now
    (s, .ok edges)
  | _, _ => (s.countReads dit, .error .pinFailed)

theorem has_levels (s : Sampler) (e : Element) : s.levels.has e = s.contacts.has (s.paddle e) := by
  unfold levels paddle
  split <;> simp

end Sampler
end Iambic
