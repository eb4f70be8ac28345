import Iambic.KeyLine
import Iambic.Sampler
import Iambic.Station

/-!
# The whole path

In each round the contacts are sampled and their edges are pushed into the channel. After a set
number of rounds the engine is polled, and its key signals drive the key line.
-/
namespace Iambic

/-- What the two contacts read, from some time on. -/
structure Scene where
  time : Instant
  dit : Reading
  dah : Reading
deriving DecidableEq

structure Rig where
  sampler : Sampler
  station : Station
  keyLine : KeyLine
  /-- The readings that the contacts give now. -/
  dit : Reading
  dah : Reading
  /-- What the contacts will give later. -/
  scenes : List Scene
  /-- The rounds since the last poll. -/
  waited : Nat
  /-- The rounds from one poll to the next; less than one counts as one. -/
  pollEvery : Nat

/-- What happened in a round. -/
structure Round where
  now : Instant
  /-- The edges that were seen, and whether the channel took them. -/
  edges : List (Edge × Bool)
  failure? : Option HardwareError
  poll : Poll
  writes : List Write

namespace Rig

/-- The scenes whose time has come are taken from the head of the script. -/
def play (r : Rig) (now : Instant) : Rig :=
  let due := r.scenes.takeWhile fun scene => scene.time ≤ now
  let later := r.scenes.dropWhile fun scene => scene.time ≤ now
  match due.getLast? with
  | some scene => { r with dit := scene.dit, dah := scene.dah, scenes := later }
  | none => r

/-- The edges are pushed one after the other. -/
def pushAll (station : Station) : List Edge → Station × List (Edge × Bool)
  | [] => (station, [])
  | edge :: edges =>
    let (pushed, taken) := station.push edge
    let (after, rest) := pushAll pushed edges
    (after, (edge, taken) :: rest)

/-- The contacts are sampled and what is seen is pushed. -/
def observe (r : Rig) (now : Instant) : Rig × List (Edge × Bool) × Option HardwareError :=
  let (sampler, seen) := r.sampler.sample now r.dit r.dah
  match seen with
  | .ok edges =>
    let (station, pushed) := pushAll r.station edges
    ({ r with sampler := sampler, station := station }, pushed, none)
  | .error error => ({ r with sampler := sampler }, [], some error)

/-- The engine is polled if its turn has come, and the key line follows. -/
def poll (r : Rig) (now : Instant) : Rig × Poll × List Write :=
  if r.waited + 1 < r.pollEvery then ({ r with waited := r.waited + 1 }, ⟨0, []⟩, [])
  else
    let (station, poll) := r.station.poll now
    let keyLine := r.keyLine.acceptAll poll.signals
    ({ r with station := station, keyLine := keyLine, waited := 0 }, poll,
      keyLine.pin.writes.drop r.keyLine.pin.writes.length)

def round (r : Rig) (now : Instant) : Rig × Round :=
  let (r, edges, failure?) := (r.play now).observe now
  let (r, poll, writes) := r.poll now
  (r, ⟨now, edges, failure?, poll, writes⟩)

def run (r : Rig) : List Instant → Rig × List Round
  | [] => (r, [])
  | now :: times =>
    let (r, first) := r.round now
    let (r, rest) := r.run times
    (r, first :: rest)

end Rig
end Iambic
