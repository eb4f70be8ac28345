import Iambic.Edge

/-!
# From the interrupt to the engine

Edges wait in a bounded queue, in the order in which they came. A full queue drops the edge that
comes and counts it; the counter wraps at 32 bits.
-/
namespace Iambic

structure Channel where
  /-- One more than the edges that can wait. -/
  size : Nat
  /-- The waiting edges, the oldest first. -/
  pending : List Edge
  dropped : UInt32

namespace Channel
variable {c : Channel}

def empty (size : Nat) : Channel := ⟨size, [], 0⟩

/-- The number of edges that can wait. -/
def places (c : Channel) : Nat := c.size - 1

def isFull (c : Channel) : Bool := c.size ≤ c.pending.length + 1

/-- The channel after the push, and whether it took the edge. -/
def push (c : Channel) (edge : Edge) : Channel × Bool :=
  if c.isFull then ({ c with dropped := c.dropped + 1 }, false)
  else ({ c with pending := c.pending ++ [edge] }, true)

def pop (c : Channel) : Option (Edge × Channel) :=
  match c.pending with
  | edge :: pending => some (edge, { c with pending := pending })
  | [] => none

theorem isFull_iff : c.isFull ↔ c.places ≤ c.pending.length := by
  rw [isFull, places, decide_eq_true_iff]
  omega

theorem push_of_le (h : c.places ≤ c.pending.length) (edge : Edge) :
    c.push edge = ({ c with dropped := c.dropped + 1 }, false) := by
  rw [push, if_pos (isFull_iff.mpr h)]

theorem push_of_lt (h : c.pending.length < c.places) (edge : Edge) :
    c.push edge = ({ c with pending := c.pending ++ [edge] }, true) := by
  rw [push, if_neg (mt isFull_iff.mp (Nat.not_le.mpr h))]

theorem places_push (c : Channel) (edge : Edge) : (c.push edge).1.places = c.places := by
  unfold push
  split <;> rfl

end Channel
end Iambic
