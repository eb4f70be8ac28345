import Iambic.Channel.Run
import Iambic.Station

/-!
# Pushes in the middle of a poll

The interrupt may push an edge at any time, also between two steps of a poll. Here a poll is cut
into its steps: it takes the waiting edges one by one, finds the channel empty, and ticks the
engine.
-/
namespace Iambic

namespace Station

/-- What is asked of a station whose polls nothing interrupts. -/
inductive Task where
  | push (edge : Edge)
  | poll (now : Instant)

/-- What is answered: whether the edge was taken, and what the poll did. -/
inductive Answer where
  | pushed (taken : Bool)
  | polled (poll : Poll)
deriving DecidableEq

def serve (s : Station) : Task → Station × Answer
  | .push edge =>
    let (s, taken) := s.push edge
    (s, .pushed taken)
  | .poll now =>
    let (s, poll) := s.poll now
    (s, .polled poll)

def serveAll (s : Station) : List Task → Station × List Answer
  | [] => (s, [])
  | task :: tasks =>
    let after := (s.serve task).1.serveAll tasks
    (after.1, (s.serve task).2 :: after.2)

end Station

/-- How far a poll has come, what its time is, and how many edges it has taken. -/
inductive Stage where
  | resting
  | draining (now : Instant) (applied : Nat)
  /-- The channel was found empty, and the tick is still to come. -/
  | closing (now : Instant) (applied : Nat)

/-- A station whose poll may be under way. -/
structure Polling where
  station : Station
  stage : Stage

namespace Polling

inductive Move where
  | push (edge : Edge)
  /-- A poll is begun, unless one is under way. -/
  | poll (now : Instant)
  /-- The poll that is under way goes on by one step. -/
  | go

@[simp] def Move.pushed? : Move → Option Edge
  | push edge => some edge
  | poll _ | go => none

inductive Event where
  | channel (event : Channel.Event)
  | polled (poll : Poll)
deriving DecidableEq

namespace Event

@[simp] def channel? : Event → Option Channel.Event
  | channel event => some event
  | polled _ => none

@[simp] def pushed? : Event → Option Edge
  | channel event => event.pushed?
  | polled _ => none

/-- What the event answers to a push or a poll. That an edge is handed over answers neither. -/
@[simp] def answer? : Event → Option Station.Answer
  | channel (.taken _) => some (.pushed true)
  | channel (.refused _) => some (.pushed false)
  | channel (.popped _) => none
  | polled poll => some (.polled poll)

end Event

/-- No edge waits, and the engine is at rest. -/
def rest (c : Config) (size : Nat) : Polling := ⟨⟨.rest c, .empty size⟩, .resting⟩

/-- The oldest waiting edge goes to the engine. -/
def take (p : Polling) (now : Instant) (applied : Nat) : Polling × List Event :=
  match p.station.channel.pop with
  | some (edge, channel) =>
    (⟨⟨p.station.engine.onEdge edge, channel⟩, .draining now (applied + 1)⟩,
      [.channel (.popped edge)])
  | none => ({ p with stage := .closing now applied }, [])

def close (p : Polling) (now : Instant) (applied : Nat) : Polling × List Event :=
  let outcome := p.station.engine.tick now
  (⟨{ p.station with engine := outcome.engine }, .resting⟩, [.polled ⟨applied, outcome.signals⟩])

def move (p : Polling) : Move → Polling × List Event
  | .push edge =>
    let (channel, log) := p.station.channel.act (.push edge)
    ({ p with station.channel := channel }, log.map .channel)
  | .poll now =>
    match p.stage with
    | .resting => ({ p with stage := .draining now 0 }, [])
    | .draining _ _ | .closing _ _ => (p, [])
  | .go =>
    match p.stage with
    | .resting => (p, [])
    | .draining now applied => p.take now applied
    | .closing now applied => p.close now applied

def run (p : Polling) : List Move → Polling × List Event
  | [] => (p, [])
  | m :: moves =>
    let after := (p.move m).1.run moves
    (after.1, (p.move m).2 ++ after.2)

/-- The moves of a task if nothing interrupts them. -/
def moves (s : Station) : Station.Task → List Move
  | .push edge => [.push edge]
  | .poll now => .poll now :: List.replicate (s.channel.pending.length + 2) .go

end Polling
end Iambic
