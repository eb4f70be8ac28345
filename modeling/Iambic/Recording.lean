import Iambic.Signal

/-!
# Recordings of what the engine told

A recording keeps the signals in their order, without the flag of a memory signal. From it the
elements, the intervals during which they were keyed, and the gaps between these are read off.
-/
namespace Iambic

inductive Entry where
  | started (element : Element) (time : Instant)
  | finished (element : Element) (time : Instant)
  | key (down : Bool) (time : Instant)
  | armed (element : Element) (time : Instant)
  | squeeze (time : Instant)
deriving DecidableEq

def Entry.ofSignal : Signal → Entry
  | .started x t => .started x t
  | .finished x t => .finished x t
  | .key down t => .key down t
  | .memory x _ t => .armed x t
  | .squeeze t => .squeeze t

/-- Why a recording cannot be read. -/
inductive RecordingError where
  /-- Another element ended than the one that was begun. -/
  | mismatch
  /-- A length does not fit the clock. -/
  | overflow
deriving DecidableEq

structure Interval where
  element : Element
  start : Instant
  finish : Instant
deriving DecidableEq

def Interval.duration (i : Interval) : Except RecordingError Int :=
  match i.finish.since? i.start with
  | some d => .ok d
  | none => .error .overflow

def Element.mark : Element → Char
  | .dit => '.'
  | .dah => '-'

abbrev Recording := List Entry

namespace Recording

def ofSignals (signals : List Signal) : Recording := signals.map Entry.ofSignal

/-- The elements in the order in which they were begun. -/
def elements (r : Recording) : List Element :=
  r.filterMap fun
    | .started x _ => some x
    | _ => none

/-- The elements as dots and dashes. -/
def morse (r : Recording) : String := String.ofList (r.elements.map Element.mark)

/-- The intervals from a beginning to the next end, given the element that is being keyed. An
element that is begun anew is forgotten, and so is one that is still keyed at the end. -/
def intervalsFrom (keyed? : Option (Element × Instant)) :
    Recording → Except RecordingError (List Interval)
  | [] => .ok []
  | .started x t :: r => intervalsFrom (some (x, t)) r
  | .finished x t :: r =>
    match keyed? with
    | none => intervalsFrom none r
    | some (y, start) =>
      if y = x then (intervalsFrom none r).map (⟨x, start, t⟩ :: ·) else .error .mismatch
  | _ :: r => intervalsFrom keyed? r

def intervals (r : Recording) : Except RecordingError (List Interval) := intervalsFrom none r

/-- The times from the end of each interval to the start of the next. -/
def gapsBetween : List Interval → Except RecordingError (List Int)
  | i :: j :: rest =>
    match j.start.since? i.finish with
    | some d => (gapsBetween (j :: rest)).map (d :: ·)
    | none => .error .overflow
  | _ => .ok []

def gaps (r : Recording) : Except RecordingError (List Int) := r.intervals.bind gapsBetween

def squeezes (r : Recording) : Nat :=
  r.countP fun
    | .squeeze _ => true
    | _ => false

def arms (r : Recording) : Nat :=
  r.countP fun
    | .armed _ _ => true
    | _ => false

end Recording
end Iambic
