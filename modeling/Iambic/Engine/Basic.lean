import Iambic.Config.Validity
import Iambic.Edge
import Iambic.Signal
import Iambic.Timing

/-!
# The keying engine

The engine is idle, sends an element, or waits out the gap after one. It remembers elements that
are to be sent before the paddles are looked at again, and it acts only when it is ticked: all
its decisions compare the clock with the deadlines of the element and of the gap.
-/
namespace Iambic

inductive Phase where
  | idle
  | sending (element : Element)
  | gap
deriving DecidableEq

def Phase.element? : Phase → Option Element
  | sending e => some e
  | idle | gap => none

structure Engine where
  config : Config
  phase : Phase
  /-- The element that was begun last, as memory sees it. -/
  current : Element
  /-- The element that was begun last, as alternation sees it. -/
  last : Element
  elementStart : Instant
  elementEnd : Instant
  gapStart : Instant
  gapEnd : Instant
  /-- The closed paddles. -/
  paddles : ElementSet
  /-- The elements to be sent before the paddles are looked at, the next one first. -/
  queue : List Element
  /-- The elements to be queued when the current one ends. -/
  requested : ElementSet
  /-- Both paddles were found closed during the current element. -/
  squeezed : Bool
  /-- The closed paddles on which mode B decides. -/
  reference : ElementSet
deriving DecidableEq

/-- An engine after some step, with the signals it gave during the step. -/
structure Outcome where
  engine : Engine
  signals : List Signal
deriving DecidableEq

namespace Outcome

/-- The step `next` follows, and its signals come after those already given. -/
def andThen (o : Outcome) (next : Engine → Outcome) : Outcome :=
  let after := next o.engine
  ⟨after.engine, o.signals ++ after.signals⟩

theorem andThen_assoc (o : Outcome) (f g : Engine → Outcome) :
    (o.andThen f).andThen g = o.andThen fun e => (f e).andThen g := by
  simp [andThen]

end Outcome

namespace Engine

/-- Nothing is sent, no paddle is closed, and nothing is remembered. -/
def rest (c : Config) : Engine where
  config := c
  phase := .idle
  current := .dit
  last := .dah
  elementStart := .zero
  elementEnd := .zero
  gapStart := .zero
  gapEnd := .zero
  paddles := .empty
  queue := []
  requested := .empty
  squeezed := false
  reference := .empty

def quiet (e : Engine) : Outcome := ⟨e, []⟩

/-- The engine is idle again and forgets the paddles, its memory and the squeeze. -/
def reset (e : Engine) : Engine :=
  { e with
    phase := .idle
    current := .dit
    last := .dah
    elementStart := .zero
    elementEnd := .zero
    gapStart := .zero
    gapEnd := .zero
    paddles := .empty
    queue := []
    requested := .empty
    squeezed := false
    reference := .empty }

/-- A valid configuration replaces the old one, and the engine is reset. Any other one is refused
with the reason for it, and the engine is as it was. -/
def configure (e : Engine) (c : Config) : Engine × Except ConfigError Unit :=
  match c.error? with
  | some error => (e, .error error)
  | none => ({ e with config := c }.reset, .ok ())

/-- An engine that was never used is given the configuration, if this is accepted. -/
def start? (c : Config) : Except ConfigError Engine :=
  let (e, result) := (rest .standard).configure c
  result.map fun () => e

theorem reset_eq (e : Engine) : e.reset = rest e.config := rfl

theorem configure_of_error {c : Config} {error : ConfigError} (e : Engine)
    (h : c.error? = some error) : e.configure c = (e, .error error) := by
  simp only [configure, h]

/-- Nothing of the engine is left when it accepts a configuration. -/
theorem configure_of_valid {c : Config} (e : Engine) (h : c.error? = none) :
    e.configure c = (rest c, .ok ()) := by
  simp only [configure, h, reset_eq]

theorem configure_eq_ok_iff {c : Config} (e : Engine) :
    (e.configure c).2 = .ok () ↔ c.error? = none := by
  cases h : c.error? with
  | some error => simp [configure_of_error e h]
  | none => simp [configure_of_valid e h]

theorem configure_eq_error_iff {c : Config} {error : ConfigError} (e : Engine) :
    (e.configure c).2 = .error error ↔ c.error? = some error := by
  cases h : c.error? with
  | some error => simp [configure_of_error e h]
  | none => simp [configure_of_valid e h]

theorem start?_of_error {c : Config} {error : ConfigError} (h : c.error? = some error) :
    start? c = .error error := by
  rw [start?, configure_of_error _ h]
  rfl

theorem start?_of_valid {c : Config} (h : c.error? = none) : start? c = .ok (rest c) := by
  rw [start?, configure_of_valid _ h]
  rfl

theorem start?_eq_ok_iff {c : Config} {e : Engine} :
    start? c = .ok e ↔ c.error? = none ∧ rest c = e := by
  cases h : c.error? with
  | some error => simp [start?_of_error h]
  | none => simp [start?_of_valid h]

def isKeyDown (e : Engine) : Bool := e.phase.element?.isSome

/-- A snapshot is kept while no paddle is closed. -/
def setPaddles (e : Engine) (paddles : ElementSet) : Engine :=
  { e with
    paddles := paddles
    reference :=
      match e.config.memory.squeeze with
      | .snapshot => if paddles = .empty then e.reference else paddles
      | .live => paddles }

/-- An edge of a paddle changes that paddle; the straight key is not the engine's concern. -/
def onEdge (e : Engine) (edge : Edge) : Engine :=
  match edge.line with
  | .paddle x => e.setPaddles (e.paddles.put x edge.closed)
  | .straightKey => e

end Engine
end Iambic
