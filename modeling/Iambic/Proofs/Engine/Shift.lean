import Iambic.Proofs.Engine.Soundness
import Iambic.Proofs.Timing.Ranges
import Mathlib.Data.List.Forall2

/-!
# Another clock

An engine compares the clock with times that it has read from the same clock, so a clock that is ahead
by a constant makes no difference but in the times that are told. The times of an engine at rest are
zero on any clock, and they are never compared with anything. The clock must not come near the ends of
its range, where deadlines are cut off.
-/
namespace Iambic

/-- Far from the ends of the clock's range. -/
def Instant.Inner (t : Instant) : Prop := -0x4000000000000000 ≤ t.us ∧ t.us < 0x4000000000000000

instance (t : Instant) : Decidable t.Inner := inferInstanceAs (Decidable (_ ∧ _))

/-- The second instant is `d` after the first. -/
def Instant.Shifted (d : Int) (t t' : Instant) : Prop := t'.us = t.us + d

/-- The same signal, told `d` later. -/
inductive Signal.Shifted (d : Int) : Signal → Signal → Prop
  | started {t t' : Instant} (x : Element) (h : t.Shifted d t') :
      Shifted d (.started x t) (.started x t')
  | finished {t t' : Instant} (x : Element) (h : t.Shifted d t') :
      Shifted d (.finished x t) (.finished x t')
  | key {t t' : Instant} (down : Bool) (h : t.Shifted d t') : Shifted d (.key down t) (.key down t')
  | memory {t t' : Instant} (x : Element) (armed : Bool) (h : t.Shifted d t') :
      Shifted d (.memory x armed t) (.memory x armed t')
  | squeeze {t t' : Instant} (h : t.Shifted d t') : Shifted d (.squeeze t) (.squeeze t')

/-- The same input, a tick `d` later. The times of edges do not matter. -/
inductive Input.Shifted (d : Int) : Input → Input → Prop
  | edge {edge edge' : Edge} (line : edge'.line = edge.line) (closed : edge'.closed = edge.closed) :
      Shifted d (.edge edge) (.edge edge')
  | paddles (paddles : ElementSet) : Shifted d (.paddles paddles) (.paddles paddles)
  | tick {now now' : Instant} (h : now.Shifted d now') : Shifted d (.tick now) (.tick now')
  | reset : Shifted d .reset .reset
  | configure (c : Config) : Shifted d (.configure c) (.configure c)

/-- The times that an engine keeps. -/
structure Times where
  elementStart : Instant
  elementEnd : Instant
  gapStart : Instant
  gapEnd : Instant

namespace Engine
variable {e : Engine} {d : Int} {now now' : Instant} {times : Times}

/-- The engine with other times. -/
def timed (e : Engine) (times : Times) : Engine :=
  { e with
    elementStart := times.elementStart
    elementEnd := times.elementEnd
    gapStart := times.gapStart
    gapEnd := times.gapEnd }

/-- The engine without its times. -/
def timeless (e : Engine) : Engine := e.timed ⟨.zero, .zero, .zero, .zero⟩

/-- Of the times those that still count are `d` later: while an element is sent its start and its
end, and in a gap the end of the gap. Both ends of the element fit the clock. -/
structure KeptLater (d : Int) (e : Engine) (times : Times) : Prop where
  start : e.isKeyDown → e.elementStart.Shifted d times.elementStart
  finish : e.isKeyDown → e.elementEnd.Shifted d times.elementEnd
  fits : e.isKeyDown → e.elementEnd.us + e.config.gap < 0x7fffffffffffffff ∧
    times.elementEnd.us + e.config.gap < 0x7fffffffffffffff
  gap : e.phase = .gap → e.gapEnd.Shifted d times.gapEnd

end Engine

/-- The same outcome on a clock that is `d` ahead. -/
def Outcome.Shifted (d : Int) (o o' : Outcome) : Prop :=
  List.Forall₂ (Signal.Shifted d) o.signals o'.signals ∧
    ∃ times, o'.engine = o.engine.timed times ∧ o.engine.KeptLater d times

namespace Engine
variable {e : Engine} {d : Int} {now now' : Instant} {times : Times}

theorem quiet_shifted (h : e.KeptLater d times) :
    Outcome.Shifted d e.quiet (e.timed times).quiet :=
  ⟨.nil, times, rfl, h⟩

theorem keptLater_of_idle (h : e.phase = .idle) : e.KeptLater d times := by
  have hk : ¬ e.isKeyDown := by simp [isKeyDown, h, Phase.element?]
  exact ⟨fun hd => absurd hd hk, fun hd => absurd hd hk, fun hd => absurd hd hk,
    fun hg => nomatch h.symm.trans hg⟩

/-- The zeros of an engine at rest do not move with the clock. -/
theorem rest_shifted (c : Config) : Outcome.Shifted d (rest c).quiet (rest c).quiet :=
  ⟨.nil, ⟨.zero, .zero, .zero, .zero⟩, rfl, keptLater_of_idle rfl⟩

theorem us_later_of_inner {t : Instant} {span : Nat} (ht : t.Inner) (hs : span < 0x10000000) :
    (t.later span).us = t.us + span := by
  have h : t.us < 0x4000000000000000 := ht.2
  rw [Instant.us_later]
  omega

theorem begin_shifted (x : Element) (hn : now.Inner) (hn' : now'.Inner) (hs : now.Shifted d now') :
    Outcome.Shifted d (e.begin x now) ((e.timed times).begin x now') := by
  have hx := e.config.duration_lt x
  have hend := us_later_of_inner hn hx
  have hend' := us_later_of_inner hn' hx
  have hgap := e.config.gap_lt
  have hlt : now.us < 0x4000000000000000 := hn.2
  have hlt' : now'.us < 0x4000000000000000 := hn'.2
  have hshift : now'.us = now.us + d := hs
  refine ⟨.cons (.started x hs) (.cons (.key true hs) .nil),
    ⟨now', now'.later (e.config.duration x), times.gapStart, times.gapEnd⟩, rfl, ?_⟩
  refine ⟨fun _ => hs, fun _ => ?_, fun _ => ?_, nofun⟩
  · change (now'.later (e.config.duration x)).us = (now.later (e.config.duration x)).us + d
    omega
  · change (now.later (e.config.duration x)).us + (e.config.gap : Int) < _ ∧
      (now'.later (e.config.duration x)).us + (e.config.gap : Int) < _
    omega

theorem resume_shifted (h : e.phase = .idle) (hn : now.Inner) (hn' : now'.Inner)
    (hs : now.Shifted d now') :
    Outcome.Shifted d (e.resume now) ((e.timed times).resume now') := by
  cases hq : e.queue with
  | cons x queue =>
    have hq' : (e.timed times).queue = x :: queue := hq
    simp only [resume, hq, hq']
    exact begin_shifted (e := { e with queue := queue }) x hn hn' hs
  | nil =>
    have hq' : (e.timed times).queue = [] := hq
    have hchosen : chosen? (e.timed times).paddles (e.timed times).last =
        chosen? e.paddles e.last := rfl
    simp only [resume, hq, hq', hchosen]
    cases chosen? e.paddles e.last with
    | some x => exact begin_shifted x hn hn' hs
    | none => exact quiet_shifted (keptLater_of_idle h)

theorem since_shifted {t s t' s' : Instant} (ht : t.Shifted d t') (hs : s.Shifted d s') :
    t'.since s' = t.since s := by
  have ht : t'.us = t.us + d := ht
  have hs : s'.us = s.us + d := hs
  have heq : t'.us - s'.us = t.us - s.us := by omega
  rw [Instant.since, Instant.since, heq]

theorem le_shifted_iff {t s t' s' : Instant} (ht : t.Shifted d t') (hs : s.Shifted d s') :
    t' ≤ s' ↔ t ≤ s := by
  have ht : t'.us = t.us + d := ht
  have hs : s'.us = s.us + d := hs
  rw [Instant.le_iff, Instant.le_iff]
  omega

theorem windowOpen_timed (h : e.KeptLater d times) (hs : now.Shifted d now') :
    (e.timed times).windowOpen now' = e.windowOpen now := by
  cases hk : e.isKeyDown with
  | false =>
    have hk' : (e.timed times).isKeyDown = false := hk
    simp only [windowOpen, hk, hk', Bool.false_and]
  | true =>
    have hduration : times.elementEnd.since times.elementStart =
        e.elementEnd.since e.elementStart := since_shifted (h.finish hk) (h.start hk)
    have helapsed : now'.since times.elementStart = now.since e.elementStart :=
      since_shifted hs (h.start hk)
    have hprogress : (e.timed times).progress now' = e.progress now := by
      simp only [progress, timed, hduration, helapsed]
    rw [windowOpen, windowOpen, hprogress]
    rfl

theorem listen_shifted (h : e.KeptLater d times) (hs : now.Shifted d now') :
    Outcome.Shifted d (e.listen now) ((e.timed times).listen now') := by
  have hw := windowOpen_timed h hs
  have hhears : (e.timed times).hears now' = e.hears now := by
    rw [hears, hears, hw]
    rfl
  have hnotices : (e.timed times).notices now' = e.notices now := by
    rw [notices, notices, hw]
    rfl
  have hlistened : (e.timed times).listened now' = (e.listened now).timed times := by
    rw [listened, hhears, hnotices]
    rfl
  have hkept : (e.listened now).KeptLater d times := { h with }
  rw [listen_eq, listen_eq, hhears, hnotices, hlistened]
  refine ⟨List.rel_append ?_ ?_, times, rfl, hkept⟩
  · split
    · exact .cons (.memory _ true hs) .nil
    · exact .nil
  · split
    · exact .cons (.squeeze hs) .nil
    · exact .nil

theorem finish_shifted (h : e.KeptLater d times) (hk : e.isKeyDown) :
    Outcome.Shifted d e.finish (e.timed times).finish := by
  have hend := h.finish hk
  obtain ⟨hfits, hfits'⟩ := h.fits hk
  have hshift : times.elementEnd.us = e.elementEnd.us + d := hend
  refine ⟨.cons (.finished e.current hend) (.cons (.key false hend) .nil),
    ⟨times.elementStart, times.elementEnd, times.elementEnd, times.elementEnd.later e.config.gap⟩,
    rfl, nofun, nofun, nofun, fun _ => ?_⟩
  change (times.elementEnd.later e.config.gap).us = (e.elementEnd.later e.config.gap).us + d
  rw [Instant.us_later, Instant.us_later]
  omega

theorem finishIfDue_shifted (h : e.KeptLater d times) (hk : e.isKeyDown)
    (hs : now.Shifted d now') :
    Outcome.Shifted d (e.finishIfDue now) ((e.timed times).finishIfDue now') := by
  have hdue : (e.timed times).elementEnd ≤ now' ↔ e.elementEnd ≤ now :=
    le_shifted_iff (h.finish hk) hs
  by_cases hd : e.elementEnd ≤ now
  · rw [finishIfDue, finishIfDue, if_pos hd, if_pos (hdue.mpr hd)]
    exact finish_shifted h hk
  · rw [finishIfDue, finishIfDue, if_neg hd, if_neg (mt hdue.mp hd)]
    exact quiet_shifted h

end Engine

theorem Outcome.Shifted.andThen {d : Int} {o o' : Outcome} {next : Engine → Outcome}
    {next' : Engine → Outcome} (h : Outcome.Shifted d o o')
    (hn : ∀ times, o.engine.KeptLater d times →
      Outcome.Shifted d (next o.engine) (next' (o.engine.timed times))) :
    Outcome.Shifted d (o.andThen next) (o'.andThen next') := by
  obtain ⟨hsignals, times, hengine, hkept⟩ := h
  obtain ⟨hmore, hlast⟩ := hn times hkept
  rw [Outcome.andThen, Outcome.andThen, hengine]
  exact ⟨List.rel_append hsignals hmore, hlast⟩

namespace Engine
variable {e : Engine} {d : Int} {now now' : Instant} {times : Times}

theorem tick_shifted (h : e.KeptLater d times) (hn : now.Inner) (hn' : now'.Inner)
    (hs : now.Shifted d now') : Outcome.Shifted d (e.tick now) ((e.timed times).tick now') := by
  have hphase : (e.timed times).phase = e.phase := rfl
  cases hp : e.phase with
  | idle =>
    simp only [tick, hphase, hp]
    exact resume_shifted hp hn hn' hs
  | sending x =>
    have hk : e.isKeyDown := by rw [isKeyDown, hp]; rfl
    simp only [tick, hphase, hp]
    apply (listen_shifted h hs).andThen
    intro times hkept
    rw [listen_engine] at hkept ⊢
    exact finishIfDue_shifted hkept hk hs
  | gap =>
    have hover : times.gapEnd ≤ now' ↔ e.gapEnd ≤ now := le_shifted_iff (h.gap hp) hs
    by_cases hg : e.gapEnd ≤ now
    · rw [tick_gap_over hp hg, tick_gap_over (hphase.trans hp) (hover.mpr hg)]
      exact resume_shifted (e := { e with phase := .idle }) rfl hn hn' hs
    · rw [tick_gap_early hp (Instant.not_le.mp hg),
        tick_gap_early (hphase.trans hp) (Instant.not_le.mp (mt hover.mp hg))]
      exact quiet_shifted h

/-- One step of engines that differ only in the times they have kept. -/
theorem step_shifted {i i' : Input} (h : e.KeptLater d times) (hi : Input.Shifted d i i')
    (hn : ∀ now ∈ i.tick?, now.Inner) (hn' : ∀ now ∈ i'.tick?, now.Inner) :
    Outcome.Shifted d (e.step i) ((e.timed times).step i') := by
  cases hi with
  | @edge edge edge' hline hclosed =>
    simp only [step, onEdge, hline, hclosed]
    cases edge.line with
    | paddle x => exact ⟨.nil, times, rfl, { h with }⟩
    | straightKey => exact quiet_shifted h
  | paddles paddles => exact ⟨.nil, times, rfl, { h with }⟩
  | tick hs => exact tick_shifted h (hn _ rfl) (hn' _ rfl) hs
  | reset => exact rest_shifted e.config
  | configure c =>
    cases hc : c.error? with
    | some error =>
      rw [step, step, configure_of_error _ hc, configure_of_error _ hc]
      exact quiet_shifted h
    | none =>
      rw [step, step, configure_of_valid _ hc, configure_of_valid _ hc]
      exact rest_shifted c

theorem run_shifted {inputs inputs' : List Input} (h : e.KeptLater d times)
    (hi : List.Forall₂ (Input.Shifted d) inputs inputs')
    (hn : ∀ i ∈ inputs, ∀ now ∈ i.tick?, now.Inner)
    (hn' : ∀ i ∈ inputs', ∀ now ∈ i.tick?, now.Inner) :
    Outcome.Shifted d (e.run inputs) ((e.timed times).run inputs') := by
  induction hi generalizing e times with
  | nil => exact quiet_shifted h
  | cons hi _ ih =>
    rw [List.forall_mem_cons] at hn hn'
    apply (step_shifted h hi hn.1 hn'.1).andThen
    intro times hkept
    exact ih hkept hn.2 hn'.2

/-- A run from rest on a clock that is ahead by a constant, neither clock near the ends of its range,
signals the same things later by that constant, and after each input the engine is the same but for
the times it keeps. -/
theorem clock_origin_unobservable (c : Config) {inputs inputs' : List Input}
    (hi : List.Forall₂ (Input.Shifted d) inputs inputs')
    (hn : ∀ i ∈ inputs, ∀ now ∈ i.tick?, now.Inner)
    (hn' : ∀ i ∈ inputs', ∀ now ∈ i.tick?, now.Inner) (n : Nat) :
    let o := (rest c).run (inputs.take n)
    let o' := (rest c).run (inputs'.take n)
    List.Forall₂ (Signal.Shifted d) o.signals o'.signals ∧
      o'.engine.timeless = o.engine.timeless := by
  intro o o'
  have hkept : (rest c).KeptLater d ⟨.zero, .zero, .zero, .zero⟩ := keptLater_of_idle rfl
  obtain ⟨hsignals, times, hengine, -⟩ := run_shifted hkept (List.forall₂_take n hi)
    (fun i h => hn i (List.mem_of_mem_take h)) (fun i h => hn' i (List.mem_of_mem_take h))
  have hengine : o'.engine = o.engine.timed times := hengine
  exact ⟨hsignals, by rw [hengine]; rfl⟩

/-- A squeeze that is let go in the first dit, a reset in the middle of the dah that memory has kept,
and another dah. One of the clocks passes its origin on the way. -/
theorem clock_origin_unobservable_of_squeeze :
    let inputs (t : Int) : List Input := [.paddles .both, .tick (.clamp t),
      .tick (.clamp (t + 30000)), .paddles .empty, .tick (.clamp (t + 60000)),
      .tick (.clamp (t + 120000)), .reset, .paddles (.only .dah), .tick (.clamp (t + 130000))]
    let o := (rest .standard).run (inputs 5)
    let o' := (rest .standard).run (inputs (-70000))
    ((∀ i ∈ inputs 5, ∀ now ∈ i.tick?, now.Inner) ∧
      (∀ i ∈ inputs (-70000), ∀ now ∈ i.tick?, now.Inner) ∧
      List.Forall₂ (Input.Shifted (-70005)) (inputs 5) (inputs (-70000)) ∧
      o.signals.length = 10 ∧ o.engine.phase = .sending .dah) ∧
      List.Forall₂ (Signal.Shifted (-70005)) o.signals o'.signals ∧
      o'.engine.timeless = o.engine.timeless := by
  intro inputs o o'
  have hi : List.Forall₂ (Input.Shifted (-70005)) (inputs 5) (inputs (-70000)) :=
    .cons (.paddles _) <| .cons (.tick rfl) <| .cons (.tick rfl) <| .cons (.paddles _) <|
      .cons (.tick rfl) <| .cons (.tick rfl) <| .cons .reset <| .cons (.paddles _) <|
      .cons (.tick rfl) .nil
  have hn : ∀ i ∈ inputs 5, ∀ now ∈ i.tick?, now.Inner := by decide
  have hn' : ∀ i ∈ inputs (-70000), ∀ now ∈ i.tick?, now.Inner := by decide
  exact ⟨⟨hn, hn', hi, by decide, by decide⟩,
    clock_origin_unobservable .standard hi hn hn' 9⟩

end Engine
end Iambic
