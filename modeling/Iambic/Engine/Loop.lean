import Iambic.Engine.Tick

/-!
# A tick pass by pass

A tick looks at the phase, acts on it, and is done, unless it finds that the gap is over. Then the
engine becomes idle and the phase is looked at again.
-/
namespace Iambic.Engine

/-- One look at the phase: what came of it, and whether the tick goes on. -/
structure Pass where
  outcome : Outcome
  again : Bool

def pass (e : Engine) (now : Instant) : Pass :=
  match e.phase with
  | .idle => ⟨e.resume now, false⟩
  | .sending _ => ⟨(e.listen now).andThen fun e => e.finishIfDue now, false⟩
  | .gap =>
    if now < e.gapEnd then ⟨e.quiet, false⟩
    else ⟨({ e with phase := .idle } : Engine).quiet, true⟩

/-- From this engine on the tick is done after so many passes, with this outcome of them all. -/
inductive Passes (now : Instant) : Engine → Nat → Outcome → Prop where
  | done {e : Engine} (h : (e.pass now).again = false) : Passes now e 1 (e.pass now).outcome
  | again {e : Engine} {n : Nat} {o : Outcome} (h : (e.pass now).again = true)
      (rest : Passes now (e.pass now).outcome.engine n o) :
      Passes now e (n + 1) ((e.pass now).outcome.andThen fun _ => o)

end Iambic.Engine
