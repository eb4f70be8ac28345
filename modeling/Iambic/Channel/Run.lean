import Iambic.Channel

/-!
# Runs of the channel

One side pushes and the other side pops, in any order. The log tells what became of each edge.
Which of the pushes find a place can be told from the script alone, by counting.
-/
namespace Iambic.Channel

inductive Act where
  | push (edge : Edge)
  | pop

@[simp] def Act.pushed? : Act → Option Edge
  | push edge => some edge
  | pop => none

/-- The edges of a script that find a place, when some of the places are in use at first. -/
def accepted (places : Nat) : Nat → List Act → List Edge
  | _, [] => []
  | inUse, .push edge :: acts =>
    if inUse < places then edge :: accepted places (inUse + 1) acts else accepted places inUse acts
  | inUse, .pop :: acts => accepted places (inUse - 1) acts

inductive Event where
  | taken (edge : Edge)
  | refused (edge : Edge)
  | popped (edge : Edge)
deriving DecidableEq

namespace Event

@[simp] def taken? : Event → Option Edge
  | taken edge => some edge
  | refused _ | popped _ => none

@[simp] def refused? : Event → Option Edge
  | refused edge => some edge
  | taken _ | popped _ => none

@[simp] def popped? : Event → Option Edge
  | popped edge => some edge
  | taken _ | refused _ => none

@[simp] def pushed? : Event → Option Edge
  | taken edge | refused edge => some edge
  | popped _ => none

/-- What became of a push. -/
def ofPush (edge : Edge) (taken : Bool) : Event := if taken then .taken edge else .refused edge

end Event

/-- Nothing comes out of an empty channel. -/
def act (c : Channel) : Act → Channel × List Event
  | .push edge =>
    let (c, taken) := c.push edge
    (c, [.ofPush edge taken])
  | .pop =>
    match c.pop with
    | some (edge, c) => (c, [.popped edge])
    | none => (c, [])

def run (c : Channel) : List Act → Channel × List Event
  | [] => (c, [])
  | a :: acts =>
    let after := (c.act a).1.run acts
    (after.1, (c.act a).2 ++ after.2)

end Iambic.Channel
