import Iambic.Engine.Loop
import Iambic.Proofs.Engine.Deadlines

/-!
# One transition for each tick

A tick ends after its second pass at the latest, since an idle engine is always done. It begins or
ends one element at most. If it does neither, the engine has heard all that it can hear at that
time, so the same tick changes nothing when it is made again.
-/
namespace Iambic.Engine
variable {e : Engine} {now : Instant}

/-! ## Passes -/

/-- There are two passes when the gap is over, and otherwise one. -/
def passes (e : Engine) (now : Instant) : Nat := if e.phase = .gap ∧ e.gapEnd ≤ now then 2 else 1

theorem passes_le (e : Engine) (now : Instant) : e.passes now ≤ 2 := by
  unfold passes
  split <;> decide

theorem again_iff : (e.pass now).again = true ↔ e.phase = .gap ∧ e.gapEnd ≤ now := by
  rw [← Instant.not_lt]
  cases hp : e.phase with
  | idle | sending x => simp [pass, hp]
  | gap => by_cases h : now < e.gapEnd <;> simp [pass, hp, h]

theorem passes_of_done (h : (e.pass now).again = false) : e.passes now = 1 :=
  if_neg fun hover => Bool.false_ne_true (h.symm.trans (again_iff.mpr hover))

theorem passes_of_again (h : (e.pass now).again = true) : e.passes now = 2 :=
  if_pos (again_iff.mp h)

theorem outcome_of_done (h : (e.pass now).again = false) : (e.pass now).outcome = e.tick now := by
  cases hp : e.phase with
  | idle | sending x => simp only [pass, tick, hp]
  | gap =>
    by_cases hn : now < e.gapEnd
    · simp only [pass, tick, hp, if_pos hn]
    · simp [pass, hp, hn] at h

theorem outcome_of_again (h : (e.pass now).again = true) :
    (e.pass now).outcome = ({ e with phase := .idle } : Engine).quiet := by
  obtain ⟨hp, hover⟩ := again_iff.mp h
  simp only [pass, hp, if_neg (Instant.not_lt.mpr hover)]

/-- An idle engine is done in one pass. -/
theorem idle_done (hp : e.phase = .idle) : (e.pass now).again = false := by
  simp only [pass, hp]

/-- The passes make up the tick, and there are no more of them than told. -/
theorem passes_iff {n : Nat} {o : Outcome} :
    Passes now e n o ↔ n = e.passes now ∧ o = e.tick now := by
  constructor
  · intro h
    induction h with
    | done h => exact ⟨(passes_of_done h).symm, outcome_of_done h⟩
    | @again e n o h rest ih =>
      rw [outcome_of_again h] at ih ⊢
      obtain ⟨rfl, rfl⟩ := ih
      obtain ⟨hp, hover⟩ := again_iff.mp h
      rw [passes_of_again h, passes_of_done (idle_done rfl), tick_gap_over hp hover]
      exact ⟨rfl, rfl⟩
  · rintro ⟨rfl, rfl⟩
    cases h : (e.pass now).again with
    | false =>
      rw [passes_of_done h, ← outcome_of_done h]
      exact .done h
    | true =>
      obtain ⟨hp, hover⟩ := again_iff.mp h
      have hidle : (({ e with phase := .idle } : Engine).pass now).again = false := idle_done rfl
      have hrest : Passes now (e.pass now).outcome.engine 1 (e.tick now) := by
        rw [outcome_of_again h, tick_gap_over hp hover, ← outcome_of_done hidle]
        exact .done hidle
      have hall := hrest.again h
      rw [outcome_of_again h] at hall
      rw [passes_of_again h]
      exact hall

/-! ## Transitions -/

theorem keys_listen (e : Engine) (now : Instant) : keys (e.listen now).signals = [] := by
  rw [keys, List.filterMap_eq_nil_iff]
  intro s hs
  rcases mem_listen hs with rfl | rfl <;> rfl

/-- The key moves when an element begins or ends, and at no other time. -/
theorem length_keys_tick (e : Engine) (now : Instant) :
    (keys (e.tick now).signals).length =
      ((e.tick now).signals.filter Signal.isElement).length := by
  cases e.turn now with
  | waits _ eq | settles _ _ _ _ eq | begins _ _ _ _ eq => rw [eq]; rfl
  | listens _ _ _ eq => rw [eq, keys_listen, filter_isElement_listen]; rfl
  | ends _ _ _ eq =>
    rw [eq, Outcome.andThen_signals, keys_append, keys_listen, List.filter_append,
      filter_isElement_listen]
    rfl

theorem length_isElement_tick (e : Engine) (now : Instant) :
    ((e.tick now).signals.filter Signal.isElement).length ≤ 1 := by
  rcases filter_isElement_tick e now with h | ⟨x, h⟩ | ⟨x, t, h⟩ <;> simp [h]

/-! ## Ticks that are made again -/

theorem and_not_or_and_not (a b : Bool) : (a && !(b || a && !b)) = false := by
  cases a <;> cases b <;> rfl

/-- What has been heard is not heard again. -/
theorem listen_listened (e : Engine) (now : Instant) :
    (e.listened now).listen now = (e.listened now).quiet := by
  have hh : (e.listened now).hears now = false := by
    have hr := has_listened e now e.current.opposite
    change (e.windowOpen now && (e.paddles.has e.current.opposite &&
      e.config.memory.remembers.has e.current.opposite &&
      !(e.listened now).requested.has e.current.opposite)) = false
    rw [hr, hears, hearsOpposite, decide_eq_true rfl, Bool.and_true]
    simp only [← Bool.and_assoc]
    exact and_not_or_and_not _ _
  have hn : (e.listened now).notices now = false := by
    change (e.windowOpen now && decide (e.paddles = .both) &&
      !(e.squeezed || e.windowOpen now && decide (e.paddles = .both) && !e.squeezed)) = false
    exact and_not_or_and_not _ _
  exact listen_quiet hh hn

/-- A tick that neither begins nor ends an element has done all that it can do. -/
theorem tick_tick (h : (e.tick now).signals.filter Signal.isElement = []) :
    (e.tick now).engine.tick now = (e.tick now).engine.quiet := by
  cases e.turn now with
  | waits _ eq =>
    rw [eq]
    exact eq
  | settles _ _ hq hp eq =>
    rw [eq]
    exact resume_empty hq hp
  | begins _ _ _ _ eq =>
    rw [eq] at h
    cases h
  | listens x hx early eq =>
    rw [eq, listen_engine]
    have hlistened : (e.listened now).phase = .sending x := hx
    rw [tick_sending_early hlistened early]
    exact listen_listened e now
  | ends _ _ _ eq =>
    rw [eq, Outcome.andThen_signals, List.filter_append] at h
    cases (List.append_eq_nil_iff.mp h).2

/-- In any state and at any time a tick is done after two passes at the latest. It begins or ends
one element at most, with one movement of the key for it. If it does neither, the same tick made
again gives no signal and leaves the engine as it is. -/
theorem one_transition_each_tick (e : Engine) (now : Instant) :
    let elements := (e.tick now).signals.filter Signal.isElement
    ((∀ n o, Passes now e n o ↔ n = e.passes now ∧ o = e.tick now) ∧ e.passes now ≤ 2) ∧
      elements.length ≤ 1 ∧ (keys (e.tick now).signals).length = elements.length ∧
      (elements = [] → (e.tick now).engine.tick now = (e.tick now).engine.quiet) := by
  intro elements
  have hpasses : ∀ n o, Passes now e n o ↔ n = e.passes now ∧ o = e.tick now :=
    fun _ _ => passes_iff
  exact ⟨⟨hpasses, e.passes_le now⟩, length_isElement_tick e now, length_keys_tick e now, tick_tick⟩

/-- In the middle of a dit both paddles are noticed, and they are not noticed again. -/
theorem one_transition_each_tick_in_dit :
    let e := ((rest .standard).run [.paddles .both, .tick .zero]).engine
    let now := Instant.clamp 30000
    ((e.tick now).signals = [.memory .dah true now, .squeeze now] ∧
      (e.tick now).signals.filter Signal.isElement = []) ∧
      (e.tick now).engine.tick now = (e.tick now).engine.quiet := by
  intro e now
  have hquiet : (e.tick now).signals.filter Signal.isElement = [] := by decide
  exact ⟨⟨by decide, hquiet⟩, (one_transition_each_tick e now).2.2.2 hquiet⟩

end Iambic.Engine
