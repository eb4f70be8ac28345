import Iambic.Proofs.Engine.Succession

/-!
# After the paddles are let go

While no paddle is closed the engine hears nothing, so what it has remembered is all that it still
sends. A tick before the deadline changes nothing, and every other one takes the engine one stage
nearer to rest. There are four stages: the end of an element, its gap, and both once more for the
one element that may be owed.
-/
namespace Iambic

/-- The elements that the signals begin, with their times. -/
def starts (signals : List Signal) : List (Element × Instant) := signals.filterMap Signal.start?

theorem starts_append (a b : List Signal) : starts (a ++ b) = starts a ++ starts b :=
  List.filterMap_append

namespace Engine
variable {e : Engine} {now : Instant}

/-- The end of the element that is sent, or of the gap. An idle engine waits for no time. -/
def deadline? (e : Engine) : Option Instant :=
  match e.phase with
  | .idle => none
  | .sending _ => some e.elementEnd
  | .gap => some e.gapEnd

/-- No deadline lies after `now`. -/
def Due (e : Engine) (now : Instant) : Prop := ∀ t ∈ e.deadline?, t ≤ now

instance (e : Engine) (now : Instant) : Decidable (e.Due now) :=
  inferInstanceAs (Decidable (∀ t ∈ e.deadline?, t ≤ now))

/-- Every tick comes when the deadline has passed that the engine has at that tick. -/
def AllDue (e : Engine) : List Instant → Prop
  | [] => True
  | now :: times => e.Due now ∧ (e.tick now).engine.AllDue times

instance decidableAllDue : (e : Engine) → (times : List Instant) → Decidable (e.AllDue times)
  | _, [] => .isTrue trivial
  | e, now :: times =>
    have := decidableAllDue (e.tick now).engine times
    inferInstanceAs (Decidable (_ ∧ _))

/-- The ticks past a deadline that it takes to be idle, if no paddle is closed. -/
def stages (e : Engine) : Nat :=
  match e.phase with
  | .idle => 0
  | .gap => if e.queue = [] then 1 else 3
  | .sending _ => if e.Pending then 4 else 2

theorem stages_le (e : Engine) : e.stages ≤ 4 := by
  unfold stages
  split
  · decide
  · split <;> decide
  · split <;> decide

theorem phase_of_stages (h : e.stages = 0) : e.phase = .idle := by
  unfold stages at h
  split at h
  · assumption
  · split at h <;> cases h
  · split at h <;> cases h

/-- With no paddle closed, listening hears nothing. -/
theorem listen_open (hp : e.paddles = .empty) (now : Instant) : e.listen now = e.quiet := by
  have hh : e.hearsOpposite = false := by simp [hearsOpposite, hp]
  have hb : e.paddles ≠ .both := hp ▸ ElementSet.empty_ne_both
  rw [listen]
  split
  · simp [armOpposite, noticeSqueeze, hh, hb, Outcome.andThen, quiet]
  · rfl

theorem tick_open_early (hp : e.paddles = .empty) (hd : ¬ e.Due now) :
    e.tick now = e.quiet := by
  cases e.turn now with
  | waits _ eq => exact eq
  | settles hg hover _ _ _ => exact absurd (by simpa [Due, deadline?, hg] using hover) hd
  | begins _ _ hg _ _ =>
    apply absurd _ hd
    rcases hg with hi | ⟨hg, hover⟩
    · simp [Due, deadline?, hi]
    · simpa [Due, deadline?, hg] using hover
  | listens _ _ _ eq => rw [eq, listen_open hp]
  | ends _ hs hover _ => exact absurd (by simpa [Due, deadline?, hs] using hover) hd

/-- A tick past the deadline takes one stage. At the third last one it begins the element that is
owed, and at no other one. -/
theorem tick_open_due (h : e.Sound) (hp : e.paddles = .empty) (hd : e.Due now) :
    (e.tick now).engine.stages = e.stages - 1 ∧
      (e.stages = 3 → starts (e.tick now).signals = [(e.last.opposite, now)]) ∧
      (e.stages ≠ 3 → starts (e.tick now).signals = [] ∧
        (e.tick now).engine.last = e.last) := by
  cases e.turn now with
  | waits hw eq =>
    have hs : e.stages = 0 := by
      rcases hw with ⟨hi, -, -⟩ | ⟨hg, hearly⟩
      · simp [stages, hi]
      · have hover : e.gapEnd ≤ now := by simpa [Due, deadline?, hg] using hd
        exact absurd hover (Instant.not_le.mpr hearly)
    rw [eq, hs]
    exact ⟨hs, fun h3 => absurd h3 (by decide), fun _ => ⟨rfl, rfl⟩⟩
  | settles hg _ hq _ eq =>
    have hs : e.stages = 1 := by simp [stages, hg, hq]
    rw [eq, hs]
    exact ⟨rfl, fun h3 => absurd h3 (by decide), fun _ => ⟨rfl, rfl⟩⟩
  | begins x queue hg hnext eq =>
    rcases h.next hg hnext with ⟨rfl, hr, ⟨hg, hq, rfl⟩ | ⟨-, hc⟩⟩
    · have hs : e.stages = 3 := by simp [stages, hg, hq]
      rw [eq, hs]
      refine ⟨?_, fun _ => rfl, fun hn => absurd rfl hn⟩
      -- The element that was owed has neither memory nor a squeeze of its own.
      simp [stages, begin, Pending, hr]
    · rw [hp] at hc
      cases hc
  | listens x hs hearly _ =>
    have hover : e.elementEnd ≤ now := by simpa [Due, deadline?, hs] using hd
    exact absurd hover (Instant.not_le.mpr hearly)
  | ends x hs _ eq =>
    rw [eq, listen_open hp, Outcome.andThen_engine, Outcome.andThen_signals, quiet_engine,
      (h.sending x hs).finish_eq]
    by_cases hw : e.Pending
    · have hn : e.stages = 4 := by simp [stages, hs, hw]
      rw [hn]
      exact ⟨by simp [stages, hw], fun h3 => absurd h3 (by decide), fun _ => ⟨rfl, rfl⟩⟩
    · have hn : e.stages = 2 := by simp [stages, hs, hw]
      rw [hn]
      exact ⟨by simp [stages, hw], fun h3 => absurd h3 (by decide), fun _ => ⟨rfl, rfl⟩⟩

theorem tick_open (hp : e.paddles = .empty) (now : Instant) :
    (e.tick now).engine.paddles = .empty := by
  rw [(tick_frame e now).2.1, hp]

/-- Of open paddles no more than the opposite of the last element comes, and only if it is owed
before the last two stages. -/
theorem starts_open (h : e.Sound) (hp : e.paddles = .empty) (times : List Instant) :
    starts (e.run (times.map .tick)).signals = [] ∨
      3 ≤ e.stages ∧ ∃ t, starts (e.run (times.map .tick)).signals = [(e.last.opposite, t)] := by
  induction times generalizing e with
  | nil => exact .inl rfl
  | cons now times ih =>
    have ih := ih (tick_sound h now) (tick_open hp now)
    rw [List.map_cons, run_tick, Outcome.andThen_signals, starts_append]
    by_cases hd : e.Due now
    · rcases tick_open_due h hp hd with ⟨hs, hbegins, hnot⟩
      by_cases h3 : e.stages = 3
      · -- The element that begins leaves two stages, too few for another one.
        right
        rcases ih with ih | ⟨hle, -⟩
        · exact ⟨by omega, now, by rw [hbegins h3, ih]; rfl⟩
        · omega
      · rcases hnot h3 with ⟨hnone, hlast⟩
        rw [hnone, List.nil_append]
        rw [hs, hlast] at ih
        rcases ih with ih | ⟨hle, ht⟩
        · exact .inl ih
        · exact .inr ⟨by omega, ht⟩
    · rw [tick_open_early hp hd] at ih ⊢
      exact ih

theorem stages_run (h : e.Sound) (hp : e.paddles = .empty) {times : List Instant}
    (hd : e.AllDue times) :
    (e.run (times.map .tick)).engine.stages = e.stages - times.length := by
  induction times generalizing e with
  | nil => rfl
  | cons now times ih =>
    rcases hd with ⟨hnow, hd⟩
    have hs := (tick_open_due h hp hnow).1
    have hrest := ih (tick_sound h now) (tick_open hp now) hd
    rw [hs] at hrest
    rw [List.map_cons, run_tick, Outcome.andThen_engine, hrest, List.length_cons]
    omega

theorem paddles_run_ticks (hp : e.paddles = .empty) (times : List Instant) :
    (e.run (times.map .tick)).engine.paddles = .empty := by
  induction times generalizing e with
  | nil => exact hp
  | cons now times ih => exact ih (tick_open hp now)

/-- An idle engine stays as it is while no paddle is closed. -/
theorem run_idle_open (h : e.Sound) (hi : e.phase = .idle) (hp : e.paddles = .empty)
    (times : List Instant) : e.run (times.map .tick) = e.quiet := by
  induction times with
  | nil => rfl
  | cons now times ih =>
    have ht : e.tick now = e.quiet := (tick_idle hi).trans (resume_empty (h.idle hi).queue hp)
    rw [List.map_cons, run_tick, ht]
    exact ih

/-- The engine is idle with the key up, it remembers nothing, and ticks neither change it nor make
it signal. -/
structure Quiescent (e : Engine) : Prop where
  phase : e.phase = .idle
  keyUp : e.isKeyDown = false
  queue : e.queue = []
  requested : e.requested = .empty
  still : ∀ times : List Instant, e.run (times.map .tick) = e.quiet

/-- However it was left, once both paddles are open an engine begins at most one element more, the
opposite of its last one, and any four ticks that each come when the deadline has passed bring it
to rest for good. -/
theorem no_runaway_keying (h : e.Reachable) (hp : e.paddles = .empty) :
    (∀ times : List Instant, starts (e.run (times.map .tick)).signals = [] ∨
      ∃ t, starts (e.run (times.map .tick)).signals = [(e.last.opposite, t)]) ∧
    ∀ times : List Instant, times.length = 4 → e.AllDue times →
      (e.run (times.map .tick)).engine.Quiescent := by
  constructor
  · intro times
    exact (starts_open h.sound hp times).imp_right And.right
  · intro times hl hd
    have hs : (e.run (times.map .tick)).engine.Sound := run_sound h.sound _
    have hopen := paddles_run_ticks hp times
    have hi : (e.run (times.map .tick)).engine.phase = .idle := by
      apply phase_of_stages
      have := e.stages_le
      rw [stages_run h.sound hp hd, hl]
      omega
    have hk : (e.run (times.map .tick)).engine.isKeyDown = false := by rw [isKeyDown, hi]; rfl
    exact ⟨hi, hk, (hs.idle hi).queue, (hs.idle hi).requested, run_idle_open hs hi hopen⟩

/-- Both paddles are let go in the first dit after a squeeze, and the dah is the last element. -/
theorem no_runaway_keying_after_squeeze :
    let e := ((rest .standard).run
      [.paddles .both, .tick .zero, .tick (.clamp 30000), .paddles .empty]).engine
    let times : List Instant := [.clamp 60000, .clamp 120000, .clamp 400000, .clamp 400000]
    (e.Reachable ∧ e.paddles = .empty ∧ e.AllDue times ∧
      starts (e.run (times.map .tick)).signals = [(.dah, .clamp 120000)]) ∧
      (starts (e.run (times.map .tick)).signals = [] ∨
        ∃ t, starts (e.run (times.map .tick)).signals = [(.dah, t)]) ∧
      (e.run (times.map .tick)).engine.Quiescent := by
  intro e times
  have hr : e.Reachable := Reachable.standard.run _
  have hp : e.paddles = .empty := by decide
  have hd : e.AllDue times := by decide
  have h := no_runaway_keying hr hp
  exact ⟨⟨hr, hp, hd, by decide⟩, h.1 times, h.2 times rfl hd⟩

end Engine
end Iambic
