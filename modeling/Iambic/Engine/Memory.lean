import Iambic.Engine.Basic

/-!
# Listening during an element

While the memory window is open, a closed paddle of the opposite element is requested once, and
both paddles closed together are noticed once in each element.
-/
namespace Iambic.Engine

/-- The elapsed share of the current element in percent, and zero before it begins. -/
def progress (e : Engine) (now : Instant) : Single :=
  let duration := e.elementEnd.since e.elementStart
  let elapsed := now.since e.elementStart
  if duration ≤ 0 ∨ elapsed < 0 then .zero
  else .ofNat elapsed.toNat / .ofNat duration.toNat * .ofNat 100

/-- An element is being sent, and its progress lies in the window, the ends included. -/
def windowOpen (e : Engine) (now : Instant) : Bool :=
  e.isKeyDown && e.config.memory.window.opens ≤ e.progress now &&
    e.progress now ≤ e.config.memory.window.closes

/-- Whether the opposite paddle is closed, may be remembered, and is not yet requested. -/
def hearsOpposite (e : Engine) : Bool :=
  e.paddles.has e.current.opposite && e.config.memory.remembers.has e.current.opposite &&
    !e.requested.has e.current.opposite

def armOpposite (e : Engine) (now : Instant) : Outcome :=
  if e.hearsOpposite then
    ⟨{ e with requested := e.requested.put e.current.opposite true },
      [.memory e.current.opposite true now]⟩
  else e.quiet

def noticeSqueeze (e : Engine) (now : Instant) : Outcome :=
  if e.paddles = .both ∧ !e.squeezed then ⟨{ e with squeezed := true }, [.squeeze now]⟩
  else e.quiet

def listen (e : Engine) (now : Instant) : Outcome :=
  if e.windowOpen now then (e.armOpposite now).andThen fun e => e.noticeSqueeze now
  else e.quiet

end Iambic.Engine
