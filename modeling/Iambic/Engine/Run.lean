import Iambic.Engine.Tick

/-!
# Runs of the engine

The engine is fed edges, paddle positions, ticks, resets and configurations in any order. Only
ticks give signals.
-/
namespace Iambic

inductive Input where
  | edge (edge : Edge)
  | paddles (paddles : ElementSet)
  | tick (now : Instant)
  | reset
  | configure (config : Config)

namespace Engine

def step (e : Engine) : Input → Outcome
  | .edge edge => (e.onEdge edge).quiet
  | .paddles paddles => (e.setPaddles paddles).quiet
  | .tick now => e.tick now
  | .reset => e.reset.quiet
  | .configure c => (e.configure c).1.quiet

def run (e : Engine) : List Input → Outcome
  | [] => e.quiet
  | i :: inputs => (e.step i).andThen fun e => e.run inputs

@[simp] theorem run_nil (e : Engine) : e.run [] = e.quiet := rfl

theorem run_cons (e : Engine) (i : Input) (inputs : List Input) :
    e.run (i :: inputs) = (e.step i).andThen fun e => e.run inputs := rfl

theorem run_append (e : Engine) (xs ys : List Input) :
    e.run (xs ++ ys) = (e.run xs).andThen fun e => e.run ys := by
  induction xs generalizing e with
  | nil => simp [run_nil, quiet, Outcome.andThen]
  | cons i xs ih => simp [run_cons, ih, Outcome.andThen_assoc]

end Engine
end Iambic
