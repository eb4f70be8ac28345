import Iambic.Engine.Run

/-!
# Scripted paddles

A trace is a list of edges in any order of time. It is played to an engine on a grid of ticks
that begins at zero: each edge comes right before the first tick that is not earlier than it.
-/
namespace Iambic

abbrev Trace := List Edge

namespace Trace

def press (line : Line) (time : Instant) : Trace := [⟨line, true, time⟩]
def release (line : Line) (time : Instant) : Trace := [⟨line, false, time⟩]

/-- One line closed at `first` and opened at `last`. -/
def hold (line : Line) (first last : Instant) : Trace := press line first ++ release line last

/-- Both paddles closed at `first` and opened at `last`. -/
def squeeze (first last : Instant) : Trace :=
  press (.paddle .dit) first ++ press (.paddle .dah) first ++
    release (.paddle .dit) last ++ release (.paddle .dah) last

/-- The edge comes before the edges of its time and of later times. -/
def insert (edge : Edge) : Trace → Trace
  | [] => [edge]
  | next :: rest => if edge.time ≤ next.time then edge :: next :: rest else next :: insert edge rest

/-- The edges by time; edges of one time stay in their order. -/
def ordered (t : Trace) : Trace := t.foldr insert []

/-- What a trace made of an engine, and whether the clock ended before the next tick. -/
structure Playback extends Outcome where
  overran : Bool
deriving DecidableEq

/-- The engine is told the first edges, as long as their time has come; the others remain. -/
def tell (e : Engine) (now : Instant) : Trace → Engine × Trace
  | [] => (e, [])
  | edge :: rest => if edge.time ≤ now then tell (e.onEdge edge) now rest else (e, edge :: rest)

/-- The engine is ticked from `now` on up to `last`, and it is told the edges whose time has come
before each tick. -/
def playFrom (step : Int) (last : Instant) (e : Engine) (t : Trace) (now : Instant) : Playback :=
  if _ : now ≤ last then
    let told := tell e now t
    let ticked := told.1.tick now
    match _ : Instant.ofInt? (now.us + max step 1) with
    | some next =>
      let rest := playFrom step last ticked.engine told.2 next
      ⟨⟨rest.engine, ticked.signals ++ rest.signals⟩, rest.overran⟩
    | none => ⟨ticked, true⟩
  else ⟨e.quiet, false⟩
termination_by (last.us + 1 - now.us).toNat
decreasing_by
  have hle := Instant.le_iff.mp ‹now ≤ last›
  have hnext := Instant.ofInt?_eq_some_iff.mp ‹_›
  omega

/-- The trace is played to the engine on the grid from zero to `last`. -/
def play (t : Trace) (e : Engine) (step : Int) (last : Instant) : Playback :=
  playFrom step last e t.ordered .zero

/-- The inputs for ticks at the given times, with each edge before the first tick that is not
earlier than it. -/
def schedule : Trace → List Instant → List Input
  | _, [] => []
  | t, now :: times =>
    (t.takeWhile fun edge => edge.time ≤ now).map Input.edge ++
      .tick now :: schedule (t.dropWhile fun edge => edge.time ≤ now) times

def ticks (step : Int) (last : Instant) : List Instant := Instant.grid .zero last step

def inputs (t : Trace) (step : Int) (last : Instant) : List Input :=
  t.ordered.schedule (ticks step last)

/-- The time after the last tick does not fit the clock. -/
def overruns (step : Int) (last : Instant) : Bool :=
  !(ticks step last).isEmpty && 0x8000000000000000 ≤ (last.us / max step 1 + 1) * max step 1

end Trace
end Iambic
