import Iambic.Station.Polling

/-!
# An engine without a channel

The same pushes and polls with the bare engine: an edge is told to it at once if it finds a place,
and a poll ticks it at its own time. Of the channel only a number is left, that of the edges which
the next poll will count. It is known from the script alone.
-/
namespace Iambic

structure Direct where
  engine : Engine
  /-- The edges that were told since the last poll. -/
  waiting : Nat
deriving DecidableEq

namespace Direct

def rest (c : Config) : Direct := ⟨.rest c, 0⟩

def push (places : Nat) (d : Direct) (edge : Edge) : Direct × Bool :=
  if d.waiting < places then (⟨d.engine.onEdge edge, d.waiting + 1⟩, true) else (d, false)

def serve (places : Nat) (d : Direct) : Station.Task → Direct × Station.Answer
  | .push edge =>
    let (d, taken) := d.push places edge
    (d, .pushed taken)
  | .poll now =>
    let outcome := d.engine.tick now
    (⟨outcome.engine, 0⟩, .polled ⟨d.waiting, outcome.signals⟩)

def serveAll (places : Nat) (d : Direct) : List Station.Task → Direct × List Station.Answer
  | [] => (d, [])
  | task :: tasks =>
    let after := (d.serve places task).1.serveAll places tasks
    (after.1, (d.serve places task).2 :: after.2)

/-- The poll counts as many steps as edges wait. The engine is ticked when none is left, and what it
signals is answered when the poll ends. -/
inductive Stage where
  | resting
  | draining (now : Instant) (applied : Nat)
  | closing (poll : Poll)
deriving DecidableEq

/-- A bare engine, a poll of which may be under way. -/
structure Polling where
  direct : Direct
  stage : Stage
deriving DecidableEq

namespace Polling

def rest (c : Config) : Direct.Polling := ⟨.rest c, .resting⟩

def move (places : Nat) (p : Direct.Polling) :
    Polling.Move → Direct.Polling × List Station.Answer
  | .push edge =>
    let (direct, taken) := p.direct.push places edge
    ({ p with direct := direct }, [.pushed taken])
  | .poll now =>
    match p.stage with
    | .resting => ({ p with stage := .draining now 0 }, [])
    | .draining _ _ | .closing _ => (p, [])
  | .go =>
    match p.stage with
    | .resting => (p, [])
    | .draining now applied =>
      match p.direct.waiting with
      | 0 =>
        let outcome := p.direct.engine.tick now
        (⟨⟨outcome.engine, 0⟩, .closing ⟨applied, outcome.signals⟩⟩, [])
      | waiting + 1 => (⟨⟨p.direct.engine, waiting⟩, .draining now (applied + 1)⟩, [])
    | .closing poll => ({ p with stage := .resting }, [.polled poll])

def run (places : Nat) (p : Direct.Polling) : List Polling.Move → Direct.Polling × List Station.Answer
  | [] => (p, [])
  | m :: moves =>
    let after := (p.move places m).1.run places moves
    (after.1, (p.move places m).2 ++ after.2)

end Polling
end Direct

/-- The bare engine has been told the waiting edges already. -/
def Station.direct (s : Station) : Direct :=
  ⟨s.channel.pending.foldl Engine.onEdge s.engine, s.channel.pending.length⟩

/-- Once the channel was found empty the bare engine has been ticked too, before the edges that have
come since. -/
def Polling.direct (p : Polling) : Direct.Polling :=
  match p.stage with
  | .resting => ⟨p.station.direct, .resting⟩
  | .draining now applied => ⟨p.station.direct, .draining now applied⟩
  | .closing now applied =>
    let outcome := p.station.engine.tick now
    ⟨{ p.station with engine := outcome.engine }.direct, .closing ⟨applied, outcome.signals⟩⟩

end Iambic
