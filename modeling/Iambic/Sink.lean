import Iambic.Signal

/-!
# Where signals go

Receivers are joined into a tree. A pair hands a signal first to its first part and then to its
second, a relay hands it on, and a silent sink drops it. The leaves carry the names of the
receivers.
-/
namespace Iambic

inductive Sink (ι : Type) where
  | silent
  | leaf (receiver : ι)
  | relay (inner : Sink ι)
  | pair (first second : Sink ι)

namespace Sink
variable {ι : Type}

/-- The receivers from left to right. -/
def leaves : Sink ι → List ι
  | silent => []
  | leaf receiver => [receiver]
  | relay inner => inner.leaves
  | pair first second => first.leaves ++ second.leaves

/-- The deliveries that one signal makes, in their order. -/
def deliver (s : Signal) : Sink ι → List (ι × Signal)
  | silent => []
  | leaf receiver => [(receiver, s)]
  | relay inner => inner.deliver s
  | pair first second => first.deliver s ++ second.deliver s

/-- The deliveries of a sequence of signals. -/
def deliverAll (sink : Sink ι) (signals : List Signal) : List (ι × Signal) :=
  signals.flatMap fun s => sink.deliver s

theorem deliver_eq_map (sink : Sink ι) (s : Signal) :
    sink.deliver s = sink.leaves.map fun receiver => (receiver, s) := by
  induction sink with
  | silent => rfl
  | leaf receiver => rfl
  | relay inner ih => exact ih
  | pair first second ihf ihs => simp [deliver, leaves, ihf, ihs]

theorem deliverAll_append (sink : Sink ι) (xs ys : List Signal) :
    sink.deliverAll (xs ++ ys) = sink.deliverAll xs ++ sink.deliverAll ys := by
  simp [deliverAll]

end Sink
end Iambic
