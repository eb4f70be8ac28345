import Iambic.Engine.Run
import Iambic.KeyLine

/-!
# The engine at its transmitter

The engine drives the key line: each of its signals goes there at once, and the line tells it
nothing in return.
-/
namespace Iambic

structure Transmitter where
  engine : Engine
  line : KeyLine

namespace Transmitter

/-- Nothing is sent, and the pin has not been driven; `refuses` tells which attempts will fail. -/
def rest (c : Config) (refuses : Nat → Bool) (inverted : Bool) : Transmitter :=
  ⟨.rest c, .idle refuses inverted⟩

def step (t : Transmitter) (i : Input) : Transmitter :=
  let outcome := t.engine.step i
  ⟨outcome.engine, t.line.acceptAll outcome.signals⟩

def run (t : Transmitter) (inputs : List Input) : Transmitter := inputs.foldl step t

theorem run_append (t : Transmitter) (xs ys : List Input) :
    t.run (xs ++ ys) = (t.run xs).run ys :=
  List.foldl_append

/-- The line is no more than the receiver of the engine's signals. -/
theorem run_eq (t : Transmitter) (inputs : List Input) :
    t.run inputs =
      ⟨(t.engine.run inputs).engine, t.line.acceptAll (t.engine.run inputs).signals⟩ := by
  induction inputs generalizing t with
  | nil => rfl
  | cons i inputs ih =>
    change (t.step i).run inputs = _
    rw [ih, Engine.run_cons, Outcome.andThen, KeyLine.acceptAll, KeyLine.acceptAll,
      List.foldl_append]
    rfl

end Transmitter
end Iambic
