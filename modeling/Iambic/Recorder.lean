import Iambic.Engine.Run
import Iambic.Recording

/-!
# The engine and its recording

All that the engine tells is recorded at once. The recording can be cleared at any moment, also
while an element is sent; the engine is not told of it.
-/
namespace Iambic

structure Recorder where
  engine : Engine
  recording : Recording

namespace Recorder

/-- What happens to the engine or to its recording. -/
inductive Act where
  | input (input : Input)
  | clear

/-- Nothing is sent and nothing is recorded. -/
def rest (c : Config) : Recorder := ⟨.rest c, []⟩

/-- What came out of the engine is recorded. -/
def record (r : Recorder) (o : Outcome) : Recorder :=
  ⟨o.engine, r.recording ++ .ofSignals o.signals⟩

def act (r : Recorder) : Act → Recorder
  | .input i => r.record (r.engine.step i)
  | .clear => { r with recording := [] }

def run (r : Recorder) (acts : List Act) : Recorder := acts.foldl act r

/-- As long as the recording is not cleared it is all that the engine tells. -/
theorem run_inputs (r : Recorder) (inputs : List Input) :
    r.run (inputs.map .input) = r.record (r.engine.run inputs) := by
  induction inputs generalizing r with
  | nil => simp [run, record, Engine.run, Engine.quiet, Recording.ofSignals]
  | cons i inputs ih =>
    change (r.act (.input i)).run (inputs.map .input) = _
    rw [ih, Engine.run_cons]
    simp [act, record, Outcome.andThen, Recording.ofSignals]

end Recorder
end Iambic
