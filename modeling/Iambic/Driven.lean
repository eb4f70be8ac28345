import Iambic.Receiver
import Iambic.Recorder
import Iambic.Transmitter

/-!
# The engine and the receiver that it drives

Each signal of the engine is told to the receiver at once, and the receiver tells the engine nothing
in return. The transmitter's key line is such a receiver, and so is a recording.
-/
namespace Iambic

structure Driven (α : Type) where
  engine : Engine
  state : α

namespace Driven
variable {α : Type}

def step (r : Receiver α) (d : Driven α) (i : Input) : Driven α :=
  let outcome := d.engine.step i
  ⟨outcome.engine, r.acceptAll d.state outcome.signals⟩

def run (r : Receiver α) (d : Driven α) (inputs : List Input) : Driven α := inputs.foldl (step r) d

theorem run_eq (r : Receiver α) (d : Driven α) (inputs : List Input) :
    d.run r inputs =
      ⟨(d.engine.run inputs).engine, r.acceptAll d.state (d.engine.run inputs).signals⟩ := by
  induction inputs generalizing d with
  | nil => rfl
  | cons i inputs ih =>
    change (d.step r i).run r inputs = _
    rw [ih, Engine.run_cons, Outcome.andThen, Receiver.acceptAll_append]
    rfl

end Driven

/-- Of all calls the key line names that for the key only. -/
def KeyLine.receiver : Receiver KeyLine where
  key down t line := line.accept (.key down t)

def Recording.receiver : Receiver Recording where
  started x t r := r ++ [.started x t]
  finished x t r := r ++ [.finished x t]
  key down t r := r ++ [.key down t]
  memory x _ t r := r ++ [.armed x t]
  squeeze t r := r ++ [.squeeze t]

theorem KeyLine.accept_receiver (line : KeyLine) (s : Signal) :
    receiver.accept line s = line.accept s := by
  cases s <;> rfl

theorem KeyLine.acceptAll_receiver (line : KeyLine) (signals : List Signal) :
    receiver.acceptAll line signals = line.acceptAll signals := by
  rw [Receiver.acceptAll, KeyLine.acceptAll, funext₂ KeyLine.accept_receiver]

theorem Recording.acceptAll_receiver (r : Recording) (signals : List Signal) :
    receiver.acceptAll r signals = r ++ .ofSignals signals := by
  induction signals generalizing r with
  | nil => exact (List.append_nil r).symm
  | cons s signals ih =>
    have hs : receiver.accept r s = r ++ [.ofSignal s] := by cases s <;> rfl
    change receiver.acceptAll (receiver.accept r s) signals = _
    rw [ih, hs, List.append_assoc]
    rfl

/-- The transmitter is the engine that drives a key line. -/
theorem Transmitter.run_eq_driven (t : Transmitter) (inputs : List Input) :
    let d := Driven.run KeyLine.receiver ⟨t.engine, t.line⟩ inputs
    t.run inputs = ⟨d.engine, d.state⟩ := by
  simp only [Driven.run_eq, Transmitter.run_eq, KeyLine.acceptAll_receiver]

/-- The recorder is the engine that drives a recording, as long as this is not cleared. -/
theorem Recorder.run_eq_driven (r : Recorder) (inputs : List Input) :
    let d := Driven.run Recording.receiver ⟨r.engine, r.recording⟩ inputs
    r.run (inputs.map .input) = ⟨d.engine, d.state⟩ := by
  simp only [Driven.run_eq, Recorder.run_inputs, Recorder.record, Recording.acceptAll_receiver]

end Iambic
