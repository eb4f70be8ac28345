import Iambic.Proofs.Engine.Steps

/-!
# The state of a reachable engine

Memory requests only the opposite of the element that is sent, the end of an element queues at
most that one, and the next element empties the queue again. So the queue never holds more than
one element and never refuses one.
-/
namespace Iambic.Engine
variable {e : Engine} {x : Element} {now : Instant}

/-- The engines that edges, paddle positions, ticks, resets and configurations lead to, from the
standard engine or from one with a valid configuration. -/
inductive Reachable : Engine → Prop where
  | standard : Reachable (rest .standard)
  | start {c : Config} {e : Engine} (h : start? c = .ok e) : Reachable e
  | step {e : Engine} (i : Input) (h : Reachable e) : Reachable (e.step i).engine

theorem Reachable.run (h : e.Reachable) (inputs : List Input) :
    (e.run inputs).engine.Reachable := by
  induction inputs generalizing e with
  | nil => exact h
  | cons i inputs ih => exact ih (.step i h)

structure Idle (e : Engine) : Prop where
  queue : e.queue = []
  requested : e.requested = .empty

structure Sends (e : Engine) (x : Element) : Prop where
  current : e.current = x
  last : e.last = x
  queue : e.queue = []
  own : e.requested.has x = false
  opposite : e.requested.has x.opposite → e.config.memory.remembers.has x.opposite
  deadline : e.elementEnd = e.elementStart.later (e.config.duration x)
  /-- A squeeze is noticed no sooner than memory has heard the opposite paddle. -/
  squeeze : e.squeezed → e.config.memory.remembers.has x.opposite → e.requested.has x.opposite

structure Pauses (e : Engine) : Prop where
  current : e.current = e.last
  queue : e.queue = [] ∨ e.queue = [e.last.opposite]
  requested : e.requested = .empty
  start : e.gapStart = e.elementEnd
  deadline : e.gapEnd = e.gapStart.later e.config.gap

structure Sound (e : Engine) : Prop where
  idle : e.phase = .idle → e.Idle
  sending : ∀ x, e.phase = .sending x → e.Sends x
  gap : e.phase = .gap → e.Pauses
  reference : e.paddles ≠ .empty ∨ e.config.memory.squeeze = .live → e.reference = e.paddles

/-- Each of the elements finds a place when they are queued one after the other. -/
def Fits : List Element → List Element → Prop
  | _, [] => True
  | queue, x :: xs => queue.length < queueCapacity ∧ Fits (enqueue queue x) xs

theorem rest_sound (c : Config) : (rest c).Sound where
  idle _ := ⟨rfl, rfl⟩
  sending _ h := nomatch h
  gap h := nomatch h
  reference _ := rfl

/-- The paddles and the reference play no part in the three phases. -/
theorem Sound.withPaddles (h : e.Sound) {paddles reference : ElementSet}
    (hr : paddles ≠ .empty ∨ e.config.memory.squeeze = .live → reference = paddles) :
    ({ e with paddles := paddles, reference := reference } : Engine).Sound where
  idle hp := { h.idle hp with }
  sending x hp := { h.sending x hp with }
  gap hp := { h.gap hp with }
  reference := hr

theorem Sound.setPaddles (h : e.Sound) (paddles : ElementSet) : (e.setPaddles paddles).Sound := by
  apply h.withPaddles
  intro hp
  cases hs : e.config.memory.squeeze with
  | snapshot =>
    have hn : paddles ≠ .empty := hp.resolve_right (by simp [hs])
    simp only [if_neg hn]
  | live => rfl

/-- An element may begin wherever nothing else is queued or requested. -/
theorem begin_sound (hq : e.queue = []) (hr : e.requested = .empty)
    (h : e.paddles ≠ .empty ∨ e.config.memory.squeeze = .live → e.reference = e.paddles) :
    (e.begin x now).engine.Sound where
  idle hp := nomatch hp
  sending y hp := by
    obtain rfl : x = y := Phase.sending.inj hp
    refine ⟨rfl, rfl, hq, ?_, ?_, rfl, nofun⟩
    · exact hr ▸ ElementSet.has_empty x
    · intro ho
      have ho : e.requested.has x.opposite := ho
      simp [hr] at ho
  gap hp := nomatch hp
  reference := h

theorem has_listened (e : Engine) (now : Instant) (y : Element) :
    (e.listened now).requested.has y =
      (e.requested.has y || e.hears now && decide (y = e.current.opposite)) := by
  cases hh : e.hears now with
  | false => simp [listened, hh]
  | true =>
    by_cases hy : y = e.current.opposite <;> simp [listened, hh, ElementSet.has_put, hy]

/-- The opposite paddle is requested at the latest when both paddles are noticed. -/
theorem hears_of_notices (hn : e.notices now)
    (hm : e.config.memory.remembers.has e.current.opposite) :
    e.hears now || e.requested.has e.current.opposite := by
  have hw : e.windowOpen now ∧ e.paddles = .both := by
    simp only [notices, Bool.and_eq_true, decide_eq_true_eq] at hn
    exact hn.1
  cases hr : e.requested.has e.current.opposite <;> simp [hears, hearsOpposite, hw, hm, hr]

theorem Sends.listened (h : e.Sends x) (now : Instant) : (e.listened now).Sends x := by
  obtain rfl := h.current
  refine { h with own := ?_, opposite := ?_, squeeze := ?_ }
  · rw [has_listened, h.own]
    simp
  · intro ho
    rw [has_listened] at ho
    cases hr : e.requested.has e.current.opposite with
    | true => exact h.opposite hr
    | false =>
      have hh : e.hears now := by simpa [hr] using ho
      simp only [hears, hearsOpposite, Bool.and_eq_true] at hh
      exact hh.2.1.2
  · intro hs hm
    rw [has_listened]
    have hs : e.squeezed || e.notices now := hs
    rcases Bool.or_eq_true_iff.mp hs with hs | hn
    · rw [h.squeeze hs hm]
      rfl
    · have := hears_of_notices hn hm
      simpa [Bool.or_comm] using this

theorem Sound.listened (h : e.Sound) (hx : e.phase = .sending x) (now : Instant) :
    (e.listened now).Sound := by
  have hp : (e.listened now).phase = .sending x := hx
  refine ⟨?_, ?_, ?_, h.reference⟩
  · simp [hp]
  · intro y hy
    obtain rfl : x = y := Phase.sending.inj (hp.symm.trans hy)
    exact (h.sending x hx).listened now
  · simp [hp]

/-- Before an element begins at most its opposite's memory is in the queue, and it empties it. -/
theorem Sound.next (h : e.Sound) {queue : List Element}
    (hp : e.phase = .idle ∨ e.phase = .gap ∧ e.gapEnd ≤ now)
    (hn : e.queue = x :: queue ∨ e.queue = [] ∧ queue = [] ∧ chosen? e.paddles e.last = some x) :
    queue = [] ∧ e.requested = .empty ∧
      (e.phase = .gap ∧ e.queue = [e.last.opposite] ∧ x = e.last.opposite ∨
        e.queue = [] ∧ chosen? e.paddles e.last = some x) := by
  rcases hp with hp | ⟨hp, -⟩
  · have hi := h.idle hp
    rw [hi.queue] at hn
    rcases hn.resolve_left nofun with ⟨-, hq, hc⟩
    exact ⟨hq, hi.requested, .inr ⟨hi.queue, hc⟩⟩
  · have hg := h.gap hp
    rcases hg.queue with hq | hq <;> rw [hq] at hn
    · rcases hn.resolve_left nofun with ⟨-, hq', hc⟩
      exact ⟨hq', hg.requested, .inr ⟨hq, hc⟩⟩
    · rcases List.cons.inj (hn.resolve_right nofun) with ⟨rfl, rfl⟩
      exact ⟨rfl, hg.requested, .inl ⟨hp, hq, rfl⟩⟩

/-- An element that ends leaves its opposite in the queue, or nothing. -/
theorem Sends.finish_eq (h : e.Sends x) :
    e.finish = ⟨{ e with
      phase := .gap
      queue := if e.Pending then [x.opposite] else []
      requested := .empty
      gapStart := e.elementEnd
      gapEnd := e.elementEnd.later e.config.gap },
      [.finished x e.elementEnd, .key false e.elementEnd]⟩ := by
  obtain rfl := h.current
  rw [finish, earned_eq h.own, h.queue]
  split <;> rfl

theorem Sends.fits (h : e.Sends x) : Fits e.queue e.earned := by
  obtain rfl := h.current
  rw [h.queue, earned_eq h.own]
  split
  · exact ⟨by decide, trivial⟩
  · exact trivial

theorem finish_sound (h : e.Sound) (hx : e.phase = .sending x) : e.finish.engine.Sound := by
  have hs := h.sending x hx
  rw [hs.finish_eq]
  refine ⟨nofun, nofun, fun _ => ⟨?_, ?_, rfl, rfl, rfl⟩, h.reference⟩
  · exact hs.current.trans hs.last.symm
  · change (if e.Pending then _ else _) = _ ∨ (if e.Pending then _ else _) = [e.last.opposite]
    rw [hs.last]
    split
    · exact .inr rfl
    · exact .inl rfl

theorem tick_sound (h : e.Sound) (now : Instant) : (e.tick now).engine.Sound := by
  cases e.turn now with
  | waits _ eq => rw [eq]; exact h
  | settles hp _ hq _ eq =>
    rw [eq]
    exact ⟨fun _ => ⟨hq, (h.gap hp).requested⟩, nofun, nofun, h.reference⟩
  | begins x queue hp hnext eq =>
    rcases h.next hp hnext with ⟨rfl, hr, -⟩
    rw [eq]
    exact begin_sound rfl hr h.reference
  | listens x hp _ eq =>
    rw [eq, listen_engine]
    exact h.listened hp now
  | ends x hp _ eq =>
    rw [eq, Outcome.andThen_engine, listen_engine]
    exact finish_sound (h.listened hp now) hp

/-- The tick that ends an element, in closed form. -/
theorem tick_due (h : e.Sound) (hp : e.phase = .sending x) (due : e.elementEnd ≤ now) :
    e.tick now = ⟨{ e.listened now with
      phase := .gap
      queue := if (e.listened now).Pending then [x.opposite] else []
      requested := .empty
      gapStart := e.elementEnd
      gapEnd := e.elementEnd.later e.config.gap },
      (e.listen now).signals ++ [.finished x e.elementEnd, .key false e.elementEnd]⟩ := by
  have hf := ((h.sending x hp).listened now).finish_eq
  rw [tick_sending_due hp due, Outcome.andThen, listen_engine, hf]
  rfl

theorem step_sound (h : e.Sound) (i : Input) : (e.step i).engine.Sound := by
  cases i with
  | edge edge =>
    change (e.onEdge edge).Sound
    rw [onEdge]
    cases edge.line with
    | paddle x => exact h.setPaddles _
    | straightKey => exact h
  | paddles paddles => exact h.setPaddles paddles
  | tick now => exact tick_sound h now
  | reset => exact rest_sound e.config
  | configure c =>
    change (e.configure c).1.Sound
    cases hc : c.error? with
    | some error =>
      rw [configure_of_error e hc]
      exact h
    | none =>
      rw [configure_of_valid e hc]
      exact rest_sound c

theorem run_sound (h : e.Sound) (inputs : List Input) : (e.run inputs).engine.Sound := by
  induction inputs generalizing e with
  | nil => exact h
  | cons i inputs ih => exact ih (step_sound h i)

theorem Reachable.sound (h : e.Reachable) : e.Sound := by
  induction h with
  | standard => exact rest_sound .standard
  | @start c e h =>
    obtain ⟨-, rfl⟩ := start?_eq_ok_iff.mp h
    exact rest_sound c
  | step i h ih => exact step_sound ih i

/-- Whatever a reachable engine has been through, its state is sound, no more than one element
waits in its queue, and at the end of an element none of those that are queued is refused. -/
theorem reachable_engine_sound (h : e.Reachable) :
    e.Sound ∧ e.queue.length ≤ 1 ∧ ∀ x now, e.phase = .sending x →
      Fits (e.listen now).engine.queue (e.listen now).engine.earned := by
  have hs := h.sound
  apply And.intro hs
  constructor
  · cases hp : e.phase with
    | idle => simp [(hs.idle hp).queue]
    | sending x => simp [(hs.sending x hp).queue]
    | gap => rcases (hs.gap hp).queue with hq | hq <;> simp [hq]
  · intro x now hp
    rw [listen_engine]
    exact ((hs.sending x hp).listened now).fits

/-- Both paddles are closed, and the dah is remembered in the middle of the first dit. -/
theorem reachable_engine_sound_in_dit :
    let e := ((rest .standard).run [.paddles .both, .tick .zero, .tick (.clamp 30000)]).engine
    (e.Reachable ∧ e.phase = .sending .dit ∧ e.requested = .only .dah) ∧
      e.Sound ∧ e.queue.length ≤ 1 ∧ ∀ x now, e.phase = .sending x →
        Fits (e.listen now).engine.queue (e.listen now).engine.earned := by
  intro e
  have hr : e.Reachable := Reachable.standard.run _
  exact ⟨⟨hr, by decide, by decide⟩, reachable_engine_sound hr⟩

end Iambic.Engine
