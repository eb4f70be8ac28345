import Iambic.Clock

/-!
# One debounced contact

A level that is read becomes a candidate, and the candidate becomes the contact's level once it
has held for the debounce time. A reading of the old level takes the candidate back.
-/
namespace Iambic

structure Contact where
  /-- The debounced level: closed or not. -/
  stable : Bool
  candidate : Bool
  /-- When the candidate was first read. -/
  since : Instant
deriving DecidableEq

namespace Contact

def rest : Contact := ⟨false, false, .zero⟩

/-- The candidate is the level just read, dated to the first reading that showed it. -/
def follow (c : Contact) (closed : Bool) (now : Instant) : Contact :=
  if closed = c.candidate then c else { c with candidate := closed, since := now }

/-- The candidate becomes the level if it has held long enough. -/
def settle (c : Contact) (debounce : Nat) (now : Instant) : Contact :=
  if (debounce : Int) ≤ now.since c.since then { c with stable := c.candidate } else c

def observe (c : Contact) (debounce : Nat) (closed : Bool) (now : Instant) : Contact :=
  (c.follow closed now).settle debounce now

/-- The level after a reading, if it is not the one before. -/
def change? (before after : Contact) : Option Bool :=
  if after.stable = before.stable then none else some after.stable

@[simp] theorem candidate_follow (c : Contact) (closed : Bool) (now : Instant) :
    (c.follow closed now).candidate = closed := by
  unfold follow
  split
  · exact Eq.symm ‹_›
  · rfl

@[simp] theorem stable_follow (c : Contact) (closed : Bool) (now : Instant) :
    (c.follow closed now).stable = c.stable := by
  unfold follow
  split <;> rfl

/-- A reading becomes the level when it has held for the debounce time. -/
theorem stable_observe (c : Contact) (debounce : Nat) (closed : Bool) (now : Instant) :
    (c.observe debounce closed now).stable =
      if (debounce : Int) ≤ now.since (c.follow closed now).since then closed else c.stable := by
  unfold observe settle
  split <;> simp

end Contact
end Iambic
