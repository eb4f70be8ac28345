import Iambic.Channel
import Iambic.Engine.Run

/-!
# The engine behind its channel

A poll takes the waiting edges out of the channel one by one, each of which the engine is given
at once, and then ticks the engine.
-/
namespace Iambic

structure Station where
  engine : Engine
  channel : Channel

/-- What a poll did. -/
structure Poll where
  applied : Nat
  signals : List Signal
deriving DecidableEq

namespace Station

def push (s : Station) (edge : Edge) : Station × Bool :=
  let (channel, taken) := s.channel.push edge
  ({ s with channel := channel }, taken)

/-- The oldest waiting edge leaves the channel for the engine. -/
def take (s : Station) : Station :=
  match s.channel.pop with
  | some (edge, channel) => ⟨s.engine.onEdge edge, channel⟩
  | none => s

/-- One edge is taken for each that is waiting. -/
def drain (s : Station) : Station := s.channel.pending.foldl (fun s _ => s.take) s

def poll (s : Station) (now : Instant) : Station × Poll :=
  let drained := s.drain
  let outcome := drained.engine.tick now
  ({ drained with engine := outcome.engine }, ⟨s.channel.pending.length, outcome.signals⟩)

/-- The engine is fed past the channel. -/
def feed (s : Station) (inputs : List Input) : Station × List Signal :=
  let outcome := s.engine.run inputs
  ({ s with engine := outcome.engine }, outcome.signals)

theorem drain_eq (s : Station) :
    s.drain = ⟨s.channel.pending.foldl Engine.onEdge s.engine, { s.channel with pending := [] }⟩ := by
  obtain ⟨e, c⟩ := s
  obtain ⟨size, pending, dropped⟩ := c
  unfold drain
  induction pending generalizing e with
  | nil => rfl
  | cons edge pending ih => exact ih (e.onEdge edge)

end Station
end Iambic
