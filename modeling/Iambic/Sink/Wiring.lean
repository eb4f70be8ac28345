import Iambic.Receiver
import Iambic.Sink

/-!
# A sink as one receiver

The receivers at the leaves of a sink make up one receiver. They may act on a state that they share.
-/
namespace Iambic.Sink
variable {ι : Type}

/-- The receiver that a sink is, given the receivers at its leaves. -/
def receiver {α : Type} (r : ι → Receiver α) : Sink ι → Receiver α
  | silent => .silent
  | leaf i => r i
  | relay inner => (inner.receiver r).relay
  | pair first second => (first.receiver r).pair (second.receiver r)

/-- The sink without a receiver. -/
def mute [DecidableEq ι] (i : ι) : Sink ι → Sink ι
  | silent => silent
  | leaf j => if j = i then silent else leaf j
  | relay inner => relay (inner.mute i)
  | pair first second => pair (first.mute i) (second.mute i)

/-- The sinks differ only in their relays and in how their pairs are nested. -/
inductive Regrouped : Sink ι → Sink ι → Prop where
  | refl (a : Sink ι) : Regrouped a a
  | symm {a b : Sink ι} (h : Regrouped a b) : Regrouped b a
  | trans {a b c : Sink ι} (hab : Regrouped a b) (hbc : Regrouped b c) : Regrouped a c
  | relay (a : Sink ι) : Regrouped (relay a) a
  | assoc (a b c : Sink ι) : Regrouped (pair (pair a b) c) (pair a (pair b c))
  | pair {a a' b b' : Sink ι} (ha : Regrouped a a') (hb : Regrouped b b') :
      Regrouped (pair a b) (pair a' b')

end Iambic.Sink
