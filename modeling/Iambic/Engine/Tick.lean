import Iambic.Engine.Memory

/-!
# One tick of the engine

An element that is due ends at its own deadline, however late the tick is, and its gap begins
there. When the gap is over the engine looks for the next element in the same tick: first in its
queue, then at the paddles.
-/
namespace Iambic.Engine

/-- Both paddles alternate, one paddle repeats its element, and none sends nothing. -/
def chosen? (paddles : ElementSet) (last : Element) : Option Element :=
  match paddles.dit, paddles.dah with
  | true, true => some last.opposite
  | true, false => some .dit
  | false, true => some .dah
  | false, false => none

def begin (e : Engine) (x : Element) (now : Instant) : Outcome :=
  ⟨{ e with
      phase := .sending x
      current := x
      last := x
      elementStart := now
      elementEnd := now.later (e.config.duration x)
      squeezed := false },
    [.started x now, .key true now]⟩

/-- The next element, if there is one, begins now. -/
def resume (e : Engine) (now : Instant) : Outcome :=
  match e.queue with
  | x :: rest => { e with queue := rest }.begin x now
  | [] =>
    match chosen? e.paddles e.last with
    | some x => e.begin x now
    | none => e.quiet

/-- Places for elements that wait to be sent. -/
def queueCapacity : Nat := 4

/-- An element that finds no place is lost. -/
def enqueue (queue : List Element) (x : Element) : List Element :=
  if queue.length < queueCapacity then queue ++ [x] else queue

/-- Mode B adds the opposite element after a squeeze, unless the paddles it decides on are still
both closed or memory has requested that element. -/
def bonus? (e : Engine) : Option Element :=
  if e.config.mode = .b ∧ e.squeezed ∧ e.reference ≠ .both ∧ !e.requested.has e.current.opposite then
    some e.current.opposite
  else none

/-- The elements that the end of the current one puts into the queue. -/
def earned (e : Engine) : List Element := e.requested.toList ++ e.bonus?.toList

/-- The current element ends at its deadline and the gap begins. -/
def finish (e : Engine) : Outcome :=
  ⟨{ e with
      phase := .gap
      queue := e.earned.foldl enqueue e.queue
      requested := .empty
      gapStart := e.elementEnd
      gapEnd := e.elementEnd.later e.config.gap },
    [.finished e.current e.elementEnd, .key false e.elementEnd]⟩

def finishIfDue (e : Engine) (now : Instant) : Outcome :=
  if e.elementEnd ≤ now then e.finish else e.quiet

def tick (e : Engine) (now : Instant) : Outcome :=
  match e.phase with
  | .idle => e.resume now
  | .sending _ => (e.listen now).andThen fun e => e.finishIfDue now
  | .gap => if now < e.gapEnd then e.quiet else { e with phase := .idle }.resume now

end Iambic.Engine
