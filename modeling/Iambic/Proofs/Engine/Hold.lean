import Iambic.Proofs.Engine.Release
import Mathlib.Logic.Function.Iterate

/-!
# Paddles that are held

While every tick finds the same paddles closed, memory and mode B owe nothing but what the paddles
ask for anyhow. So the elements follow one another as the paddles choose them, whenever the ticks
come.
-/
namespace Iambic

namespace Signal

def finish? : Signal → Option (Element × Instant)
  | .finished x t => some (x, t)
  | _ => none

end Signal

/-- The elements that the signals end, with their times. -/
def finishes (signals : List Signal) : List (Element × Instant) := signals.filterMap Signal.finish?

theorem finishes_append (a b : List Signal) : finishes (a ++ b) = finishes a ++ finishes b :=
  List.filterMap_append

namespace Engine
variable {e : Engine} {p : ElementSet} {next : Element → Element} {x : Element} {now : Instant}
  {inputs : List Input}

theorem starts_listen (e : Engine) (now : Instant) : starts (e.listen now).signals = [] := by
  refine List.filterMap_eq_nil_iff.mpr fun s hs => ?_
  rcases mem_listen hs with rfl | rfl <;> rfl

theorem starts_finish (e : Engine) : starts e.finish.signals = [] := rfl

theorem finishes_listen (e : Engine) (now : Instant) : finishes (e.listen now).signals = [] := by
  refine List.filterMap_eq_nil_iff.mpr fun s hs => ?_
  rcases mem_listen hs with rfl | rfl <;> rfl

/-- After each element the paddles choose as `next` tells. -/
def Chooses (p : ElementSet) (next : Element → Element) : Prop :=
  ∀ last, chosen? p last = some (next last)

theorem chooses_both : Chooses .both Element.opposite := fun _ => rfl

theorem chooses_only (x : Element) : Chooses (.only x) fun _ => x := by
  intro last
  cases x <;> rfl

theorem Chooses.ne_empty (hn : Chooses p next) : p ≠ .empty := by
  intro hp
  have hnone : chosen? p .dit = none := chosen?_eq_none_iff.mpr hp
  rw [hn] at hnone
  exact nomatch hnone

/-- If the opposite paddle is closed, it is chosen. -/
theorem Chooses.eq_opposite (hn : Chooses p next) (h : p.has x.opposite) : next x = x.opposite := by
  rcases chosen?_eq_some_iff.mp (hn x) with hp | ⟨-, hx⟩
  · rw [hp, ElementSet.only, ElementSet.has_put] at h
    by_cases ho : x.opposite = next x
    · exact ho.symm
    · simp [ho] at h
  · exact hx

/-- What is owed, or may come to be owed, is what comes next anyhow. -/
structure Held (next : Element → Element) (e : Engine) : Prop where
  sound : e.Sound
  queued : e.phase = .gap → e.queue ≠ [] → next e.last = e.last.opposite
  heard : ∀ x, e.phase = .sending x → e.requested.has x.opposite ∨ e.squeezed →
    next x = x.opposite

theorem rest_held (c : Config) : (rest c).Held next := ⟨rest_sound c, nofun, nofun⟩

theorem Held.listened (h : e.Held next) (hn : Chooses p next) (hp : e.paddles = p)
    (hx : e.phase = .sending x) (now : Instant) (ho : (e.listened now).requested.has x.opposite ∨
      (e.listened now).squeezed) : next x = x.opposite := by
  obtain rfl := (h.sound.sending x hx).current
  -- What is heard now was heard from the opposite paddle, which the paddles then choose too.
  have hclosed (hc : e.hears now ∨ e.notices now) : next e.current = e.current.opposite := by
    apply hn.eq_opposite
    rw [← hp]
    rcases hc with hh | hh
    · simp only [hears, hearsOpposite, Bool.and_eq_true] at hh
      exact hh.2.1.1
    · simp only [notices, Bool.and_eq_true, decide_eq_true_eq] at hh
      rw [hh.1.2]
      exact ElementSet.has_both _
  rcases ho with ho | ho
  · rw [has_listened] at ho
    rcases Bool.or_eq_true_iff.mp ho with hr | hh
    · exact h.heard _ hx (.inl hr)
    · exact hclosed (.inl (Bool.and_eq_true_iff.mp hh).1)
  · rcases Bool.or_eq_true_iff.mp ho with hs | hs
    · exact h.heard _ hx (.inr hs)
    · exact hclosed (.inr hs)

/-- What a tick can do while paddles are held. -/
inductive Beat (next : Element → Element) (e : Engine) (now : Instant) : Prop where
  | waits (phase : e.phase = .gap) (early : now < e.gapEnd) (eq : e.tick now = e.quiet)
  | begins (ready : e.phase = .idle ∨ e.phase = .gap ∧ e.gapEnd ≤ now)
      (eq : e.tick now = ({ e with queue := [] } : Engine).begin (next e.last) now)
  | listens (x : Element) (phase : e.phase = .sending x) (early : now < e.elementEnd)
      (eq : e.tick now = e.listen now)
  | ends (x : Element) (phase : e.phase = .sending x) (due : e.elementEnd ≤ now)
      (eq : e.tick now = (e.listen now).andThen finish)

theorem Held.beat (h : e.Held next) (hn : Chooses p next) (hp : e.paddles = p) (now : Instant) :
    e.Beat next now := by
  have hclosed : e.paddles ≠ .empty := hp ▸ hn.ne_empty
  cases e.turn now with
  | waits phase eq =>
    rcases phase with ⟨-, -, hopen⟩ | ⟨hg, early⟩
    · exact absurd hopen hclosed
    · exact .waits hg early eq
  | settles _ _ _ hopen _ => exact absurd hopen hclosed
  | begins x queue ready hnext eq =>
    rcases h.sound.next ready hnext with ⟨rfl, -, hx⟩
    obtain rfl : x = next e.last := by
      rcases hx with ⟨hg, hq, hx⟩ | ⟨-, hc⟩
      · rw [hx, h.queued hg (by simp [hq])]
      · rw [hp, hn] at hc
        exact (Option.some.inj hc).symm
    exact .begins ready eq
  | listens x phase early eq => exact .listens x phase early eq
  | ends x phase due eq => exact .ends x phase due eq

theorem Held.tick (h : e.Held next) (hn : Chooses p next) (hp : e.paddles = p) (now : Instant) :
    (e.tick now).engine.Held next := by
  have hsound := tick_sound h.sound now
  cases h.beat hn hp now with
  | waits _ _ eq => rw [eq]; exact h
  | begins ready eq =>
    have hr : e.requested = .empty := by
      rcases ready with hi | ⟨hg, -⟩
      · exact (h.sound.idle hi).requested
      · exact (h.sound.gap hg).requested
    rw [eq] at hsound ⊢
    refine ⟨hsound, nofun, fun x _ ho => ?_⟩
    have ho : e.requested.has x.opposite ∨ false := ho
    simp [hr] at ho
  | listens x hx _ eq =>
    rw [eq, listen_engine] at hsound ⊢
    have hphase : (e.listened now).phase = .sending x := hx
    refine ⟨hsound, fun hg => (nomatch hphase.symm.trans hg), fun y hy ho => ?_⟩
    obtain rfl : x = y := Phase.sending.inj (hphase.symm.trans hy)
    exact h.listened hn hp hx now ho
  | ends x hx _ eq =>
    have hs := (h.sound.sending x hx).listened now
    rw [eq, Outcome.andThen_engine, listen_engine] at hsound ⊢
    refine ⟨hsound, fun _ hq => ?_, nofun⟩
    -- Memory has heard the opposite paddle, or mode B adds its element after a squeeze.
    have hpending : (e.listened now).Pending := by
      by_contra hno
      rw [hs.finish_eq, if_neg hno] at hq
      exact hq rfl
    change next (e.listened now).last = (e.listened now).last.opposite
    rw [hs.last]
    apply h.listened hn hp hx now
    rw [Pending, hs.current] at hpending
    exact hpending.imp_right fun hb => hb.2.1

theorem Held.still {i : Input} {paddles reference : ElementSet} (h : e.Held next)
    (eq : e.step i = ({ e with paddles := paddles, reference := reference } : Engine).quiet) :
    ({ e with paddles := paddles, reference := reference } : Engine).Held next := by
  have hsound := step_sound h.sound i
  rw [eq] at hsound
  exact ⟨hsound, h.queued, h.heard⟩

/-- Whenever the ticks come, each element is the one that the held paddles choose after the one
before it. -/
theorem Held.elements (h : e.Held next) (hn : Chooses p next) (hc : Course e inputs)
    (hl : ∀ l ∈ e.looks inputs, l.paddles = p) {k : Nat} {s : Element × Instant}
    (hs : (starts (e.run inputs).signals)[k]? = some s) : s.1 = next^[k + 1] e.last := by
  induction hc generalizing k with
  | nil e => simp [starts] at hs
  | still paddles reference noTick eq _ ih =>
    rw [looks_of_tick?_eq_none noTick, eq] at hl
    rw [run_still eq] at hs
    exact ih (h.still eq) hl hs
  | @tick e inputs now _ ih =>
    rw [looks_tick, List.forall_mem_cons] at hl
    obtain ⟨hp, hl⟩ := hl
    have ih := fun {k} => ih (k := k) (h.tick hn hp now) hl
    rw [run_tick, Outcome.andThen_signals, starts_append] at hs
    cases h.beat hn hp now with
    | waits _ _ eq =>
      rw [eq] at hs ih
      exact ih hs
    | begins _ eq =>
      rw [eq] at hs ih
      cases k with
      | zero =>
        obtain rfl : (next e.last, now) = s := Option.some.inj hs
        rfl
      | succ k => exact ih hs
    | listens x _ _ eq =>
      rw [eq, starts_listen] at hs
      rw [eq, listen_engine] at ih
      exact ih (by simpa using hs)
    | ends x _ _ eq =>
      rw [eq, Outcome.andThen_engine, listen_engine] at hs ih
      rw [Outcome.andThen_signals, starts_append, starts_listen, starts_finish] at hs
      exact ih hs

end Engine
end Iambic
