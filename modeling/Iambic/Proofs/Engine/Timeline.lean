import Iambic.Proofs.Engine.Hold
import Iambic.Proofs.Engine.Looks
import Mathlib.Tactic.Ring

/-!
# Held paddles on a grid of ticks

If the ticks come at equal distances and both elements and the gap are multiples of the distance,
every deadline of an engine with held paddles falls on a tick. So nothing is ever late, and each
element begins and ends when the lengths before it say.
-/
namespace Iambic

namespace Engine
variable {x : Element} {now : Instant}

/-- Each event whose ideal time the clock can show happens then, unless that is after `last`: then it
does not happen. -/
def OnTime (last : Int) (events : List (Element × Instant)) (ideal : Nat → Element × Int) : Prop :=
  ∀ k (t : Instant), t.us = (ideal k).2 →
    events[k]? = if t.us ≤ last then some ((ideal k).1, t) else none

/-- Nothing is expected from `late` on: `last` is passed and nothing happens, or the clock has
ended. -/
def Beyond {α : Type} (last late : Int) (events : List α) : Prop :=
  events = [] ∧ last < late ∨ 0x7fffffffffffffff < late

section onTime
variable {last late : Int} {events : List (Element × Instant)} {ideal : Nat → Element × Int}

theorem Beyond.filterMap {α β : Type} {signals : List α} (h : Beyond last late signals)
    (f : α → Option β) : Beyond last late (signals.filterMap f) :=
  h.imp_left fun h => ⟨congrArg (List.filterMap f) h.1, h.2⟩

theorem OnTime.cons (h : OnTime last events fun k => ideal (k + 1)) (h0 : ideal 0 = (x, now.us))
    (hl : now.us ≤ last) : OnTime last ((x, now) :: events) ideal := by
  intro k t ht
  cases k with
  | zero =>
    rw [h0] at ht ⊢
    obtain rfl : t = now := Instant.ext ht
    rw [if_pos hl]
    rfl
  | succ k => exact h k t ht

theorem Beyond.onTime (hb : Beyond last late events) (h : ∀ k, late ≤ (ideal k).2) :
    OnTime last events ideal := by
  intro k t ht
  have := h k
  rcases hb with ⟨rfl, hl⟩ | hl
  · rw [if_neg (by omega)]
    rfl
  · have := t.lt_end
    omega

end onTime

end Engine

/-- From the start of the element after `x` it is so long to the start of the element `k` places
later. -/
def Config.offset (c : Config) (next : Element → Element) (x : Element) : Nat → Nat
  | 0 => 0
  | k + 1 => c.duration (next x) + c.gap + c.offset next (next x) k

/-- The starts of the elements after `x`, if the first one begins at `begun`. -/
def Config.idealStart (c : Config) (next : Element → Element) (x : Element) (begun : Int) (k : Nat) :
    Element × Int :=
  (next^[k + 1] x, begun + c.offset next x k)

/-- The ends of the elements after `x`, if the first one begins at `begun`. -/
def Config.idealEnd (c : Config) (next : Element → Element) (x : Element) (begun : Int) (k : Nat) :
    Element × Int :=
  (next^[k + 1] x, begun + c.offset next x k + c.duration (next^[k + 1] x))

/-- Neither element nor the gap is empty, and their lengths are multiples of `d`. -/
def Config.Meshes (c : Config) (d : Nat) : Prop := ∀ n ∈ [c.dit, c.dah, c.gap], 0 < n ∧ d ∣ n

instance (c : Config) (d : Nat) : Decidable (c.Meshes d) :=
  inferInstanceAs (Decidable (∀ n ∈ [c.dit, c.dah, c.gap], 0 < n ∧ d ∣ n))

namespace Config
variable {c : Config} {next : Element → Element} {x : Element} {begun : Int} {d : Nat}

theorem idealStart_succ (k : Nat) : c.idealStart next x begun (k + 1) =
    c.idealStart next (next x) (begun + c.duration (next x) + c.gap) k := by
  simp only [idealStart, offset, Function.iterate_succ_apply, Prod.mk.injEq, true_and]
  push_cast
  ring

theorem idealEnd_succ (k : Nat) : c.idealEnd next x begun (k + 1) =
    c.idealEnd next (next x) (begun + c.duration (next x) + c.gap) k := by
  simp only [idealEnd, offset, Function.iterate_succ_apply, Prod.mk.injEq, true_and]
  push_cast
  ring

theorem le_idealStart (c : Config) (next : Element → Element) (x : Element) (begun : Int) (k : Nat) :
    begun ≤ (c.idealStart next x begun k).2 := by
  simp only [idealStart]
  omega

/-- No element ends before the first one. -/
theorem le_idealEnd (c : Config) (next : Element → Element) (x : Element) (begun : Int) (k : Nat) :
    begun + c.duration (next x) ≤ (c.idealEnd next x begun k).2 := by
  cases k with
  | zero => simp [idealEnd, offset]
  | succ k =>
    rw [idealEnd_succ]
    simp only [idealEnd]
    omega

theorem Meshes.duration (h : c.Meshes d) (x : Element) : 0 < c.duration x ∧ d ∣ c.duration x := by
  cases x with
  | dit => exact h c.dit (by simp)
  | dah => exact h c.dah (by simp)

theorem Meshes.gap (h : c.Meshes d) : 0 < c.gap ∧ d ∣ c.gap := h c.gap (by simp)

end Config

namespace Engine
variable {e : Engine} {p : ElementSet} {next : Element → Element} {x : Element} {now : Instant}
  {inputs : List Input} {c : Config} {d : Nat} {t last begun : Int}

/-- The looks are at times `t`, `t + d`, … up to `last`, and find the paddles `p`. -/
structure Paced (p : ElementSet) (d : Nat) (t last : Int) (looks : List Look) : Prop where
  look : ∀ (k : Nat) (l : Look), looks[k]? = some l →
    l.time.us = t + k * d ∧ l.paddles = p ∧ l.time.us ≤ last
  stop : last < t + looks.length * d

theorem Paced.cons {l : Look} {looks : List Look} (h : Paced p d t last (l :: looks)) :
    l.time.us = t ∧ l.paddles = p ∧ t ≤ last ∧ Paced p d (t + d) last looks := by
  obtain ⟨htime, hp, hl⟩ := h.look 0 l rfl
  have htime : l.time.us = t := by simpa using htime
  refine ⟨htime, hp, htime ▸ hl, fun k l' hl' => ?_, ?_⟩
  · obtain ⟨htime, hp, hl⟩ := h.look (k + 1) l' hl'
    refine ⟨?_, hp, hl⟩
    rw [htime]
    push_cast
    ring
  · have hstop := h.stop
    rw [List.length_cons] at hstop
    push_cast at hstop
    have hsplit : ((looks.length : Int) + 1) * d = looks.length * d + d := by ring
    omega

/-- At the time `t` of the next tick the engine waits to begin an element at `begun`. -/
structure Ready (d : Nat) (t begun : Int) (e : Engine) : Prop where
  phase : e.phase = .idle ∧ begun = t ∨ e.phase = .gap ∧ e.gapEnd.us = begun
  ahead : t ≤ begun
  grid : (d : Int) ∣ begun - t

/-- At the time `t` of the next tick the engine sends an element that ends at `ending`. -/
structure Busy (d : Nat) (t ending : Int) (x : Element) (e : Engine) : Prop where
  phase : e.phase = .sending x
  deadline : e.elementEnd.us = ending
  ahead : t ≤ ending
  grid : (d : Int) ∣ ending - t

/-- A time that is ahead on the grid is not passed by the next tick. -/
theorem grid_step {ahead : Int} (h : t < ahead) (hd : (d : Int) ∣ ahead - t) :
    t + d ≤ ahead ∧ (d : Int) ∣ ahead - (t + d) := by
  have hle := Int.le_of_dvd (by omega) hd
  refine ⟨by omega, ?_⟩
  rw [← Int.sub_sub]
  exact Int.dvd_sub hd (Int.dvd_refl _)

theorem Ready.tick (hr : e.Ready d t begun) (h : e.Held next) (hn : Chooses p next)
    (hp : e.paddles = p) (ht : now.us = t) :
    t < begun ∧ e.tick now = e.quiet ∧ e.Ready d (t + d) begun ∨
      t = begun ∧ e.tick now = ({ e with queue := [] } : Engine).begin (next e.last) now := by
  cases h.beat hn hp now with
  | waits hg early eq =>
    have hgap : e.gapEnd.us = begun := by
      rcases hr.phase with ⟨hi, -⟩ | ⟨-, hgap⟩
      · exact nomatch hg.symm.trans hi
      · exact hgap
    have hlt : t < begun := by rw [← ht, ← hgap]; exact early
    obtain ⟨hahead, hgrid⟩ := grid_step hlt hr.grid
    exact .inl ⟨hlt, eq, .inr ⟨hg, hgap⟩, hahead, hgrid⟩
  | begins ready eq =>
    refine .inr ⟨?_, eq⟩
    rcases hr.phase with ⟨-, hb⟩ | ⟨hg, hgap⟩
    · exact hb.symm
    · have hover : e.gapEnd ≤ now := by
        rcases ready with hi | ⟨-, hover⟩
        · exact nomatch hg.symm.trans hi
        · exact hover
      rw [Instant.le_iff] at hover
      have := hr.ahead
      omega
  | listens _ hx | ends _ hx =>
    rcases hr.phase with ⟨hi, -⟩ | ⟨hg, -⟩
    · exact nomatch hx.symm.trans hi
    · exact nomatch hx.symm.trans hg

theorem Busy.tick {ending : Int} (hb : e.Busy d t ending x) (h : e.Held next) (hn : Chooses p next)
    (hp : e.paddles = p) (ht : now.us = t) :
    t < ending ∧ e.tick now = e.listen now ∧ (e.listened now).Busy d (t + d) ending x ∨
      t = ending ∧ e.tick now = (e.listen now).andThen finish := by
  cases h.beat hn hp now with
  | waits hg => exact nomatch hb.phase.symm.trans hg
  | begins ready =>
    rcases ready with hi | ⟨hg, -⟩
    · exact nomatch hb.phase.symm.trans hi
    · exact nomatch hb.phase.symm.trans hg
  | listens _ _ early eq =>
    have hlt : t < ending := by rw [← ht, ← hb.deadline]; exact early
    obtain ⟨hahead, hgrid⟩ := grid_step hlt hb.grid
    exact .inl ⟨hlt, eq, hb.phase, hb.deadline, hahead, hgrid⟩
  | ends _ _ due eq =>
    have due : e.elementEnd.us ≤ now.us := due
    have := hb.ahead
    have := hb.deadline
    exact .inr ⟨by omega, eq⟩

/-- A deadline that is set at a tick lies ahead on the grid. -/
theorem later_on_grid {span : Nat} (hpos : 0 < span) (hd : d ∣ span) (ht : now.us = t)
    (hfits : t + span ≤ 0x7fffffffffffffff) :
    (now.later span).us = t + span ∧ t + d ≤ t + span ∧ (d : Int) ∣ t + span - (t + d) := by
  have hgrid : (d : Int) ∣ t + span - t := by
    rw [add_sub_cancel_left]
    exact Int.natCast_dvd_natCast.mpr hd
  refine ⟨?_, grid_step (by omega) hgrid⟩
  rw [Instant.us_later]
  omega

theorem begin_busy (hm : e.config.Meshes d) (ht : now.us = t) (x : Element)
    (hfits : t + e.config.duration x ≤ 0x7fffffffffffffff) :
    (e.begin x now).engine.Busy d (t + d) (t + e.config.duration x) x := by
  obtain ⟨hpos, hd⟩ := hm.duration x
  obtain ⟨hend, hahead, hgrid⟩ := later_on_grid hpos hd ht hfits
  exact ⟨rfl, hend, hahead, hgrid⟩

theorem finish_ready (hm : e.config.Meshes d) (ht : e.elementEnd.us = t)
    (hfits : t + e.config.gap ≤ 0x7fffffffffffffff) :
    e.finish.engine.Ready d (t + d) (t + e.config.gap) := by
  obtain ⟨hpos, hd⟩ := hm.gap
  obtain ⟨hend, hahead, hgrid⟩ := later_on_grid hpos hd ht hfits
  exact ⟨.inr ⟨rfl, hend⟩, hahead, hgrid⟩

/-- The elements after `x` begin and end on time, if the first one begins at `begun`. -/
structure KeepsTime (last : Int) (c : Config) (next : Element → Element) (x : Element) (begun : Int)
    (signals : List Signal) : Prop where
  begins : OnTime last (starts signals) (c.idealStart next x begun)
  ends : OnTime last (finishes signals) (c.idealEnd next x begun)

section keepsTime
variable {signals : List Signal} {b f : Instant}

theorem Beyond.keepsTime (hb : Beyond last begun signals) :
    KeepsTime last c next x begun signals := by
  constructor
  · exact (hb.filterMap _).onTime (c.le_idealStart next x begun)
  · refine (hb.filterMap _).onTime fun k => ?_
    have := c.le_idealEnd next x begun k
    omega

/-- The first element has begun, and nothing is expected from its end on. -/
theorem Beyond.keepsTime_started (hb : Beyond last (b.us + c.duration (next x)) signals)
    (hl : b.us ≤ last) : KeepsTime last c next x b.us (.started (next x) b :: signals) := by
  constructor
  · refine OnTime.cons ((hb.filterMap _).onTime fun k => ?_) ?_ hl
    · rw [Config.idealStart_succ]
      have := c.le_idealStart next (next x) (b.us + c.duration (next x) + c.gap) k
      omega
    · simp [Config.idealStart, Config.offset]
  · exact (hb.filterMap _).onTime (c.le_idealEnd next x b.us)

/-- The first element has begun and ended, and the others follow after the gap. -/
theorem KeepsTime.cons
    (h : KeepsTime last c next (next x) (b.us + c.duration (next x) + c.gap) signals)
    (hf : f.us = b.us + c.duration (next x)) (hl : f.us ≤ last) :
    KeepsTime last c next x b.us (.started (next x) b :: .finished (next x) f :: signals) := by
  constructor
  · refine OnTime.cons ?_ ?_ (by omega)
    · simp only [Config.idealStart_succ]
      exact h.begins
    · simp [Config.idealStart, Config.offset]
  · refine OnTime.cons ?_ ?_ hl
    · simp only [Config.idealEnd_succ]
      exact h.ends
    · simp [Config.idealEnd, Config.offset, hf]

/-- Listening neither begins nor ends an element. -/
theorem KeepsTime.listen {s : Signal} (h : KeepsTime last c next x begun (s :: signals)) (e : Engine)
    (now : Instant) : KeepsTime last c next x begun (s :: ((e.listen now).signals ++ signals)) := by
  have hs : starts (s :: ((e.listen now).signals ++ signals)) = starts (s :: signals) := by
    rw [← List.singleton_append, starts_append, starts_append, starts_listen, List.nil_append,
      ← starts_append]
    rfl
  have hf : finishes (s :: ((e.listen now).signals ++ signals)) = finishes (s :: signals) := by
    rw [← List.singleton_append, finishes_append, finishes_append, finishes_listen, List.nil_append,
      ← finishes_append]
    rfl
  exact ⟨hs ▸ h.begins, hf ▸ h.ends⟩

/-- The first element has begun, and the tick that ends it is over. -/
theorem KeepsTime.ended
    (h : KeepsTime last c next (next x) (b.us + c.duration (next x) + c.gap) signals)
    (hx : e.current = next x) (hend : e.elementEnd.us = b.us + c.duration (next x))
    (hl : e.elementEnd.us ≤ last) :
    KeepsTime last c next x b.us
      (.started (next x) b :: (((e.listen now).andThen finish).signals ++ signals)) := by
  have hsignals : (e.listened now).finish.signals =
      [.finished (next x) e.elementEnd, .key false e.elementEnd] := by
    rw [← hx]
    rfl
  have hdone : KeepsTime last c next x b.us
      (.started (next x) b :: ((e.listened now).finish.signals ++ signals)) := by
    rw [hsignals]
    exact { h.cons hend hl with }
  rw [Outcome.andThen_signals, listen_engine, List.append_assoc]
  exact hdone.listen e now

end keepsTime

/-- A run on the grid keeps time: an engine that is ready begins the coming elements when it should
and ends them so, and a busy one goes on so with the element that it has begun. -/
theorem Held.timeline (h : e.Held next) (hn : Chooses p next) (hcfg : e.config = c)
    (hm : c.Meshes d) (hc : Course e inputs) (hl : Paced p d t last (e.looks inputs)) :
    (∀ begun, e.Ready d t begun →
      KeepsTime last c next e.last begun (e.run inputs).signals) ∧
    ∀ x b, e.last = next x → b.us ≤ last → e.Busy d t (b.us + c.duration (next x)) (next x) →
      KeepsTime last c next x b.us (.started (next x) b :: (e.run inputs).signals) := by
  -- On the inputs; both parts at once, since an engine is ready and busy in turn.
  induction hc generalizing t with
  | nil e =>
    have hstop : last < t := by simpa [looks] using hl.stop
    constructor
    · intro begun hr
      exact Beyond.keepsTime (.inl ⟨rfl, hstop.trans_le hr.ahead⟩)
    · intro x b _ hb hbusy
      exact Beyond.keepsTime_started (.inl ⟨rfl, hstop.trans_le hbusy.ahead⟩) hb
  | still paddles reference noTick eq _ ih =>
    rw [looks_of_tick?_eq_none noTick, eq] at hl
    obtain ⟨hready, hbusy⟩ := ih (h.still eq) hcfg hl
    rw [run_still eq]
    constructor
    · intro begun hr
      exact hready begun { hr with }
    · intro x b hx hb hsends
      exact hbusy x b hx hb { hsends with }
  | @tick e inputs now _ ih =>
    subst hcfg
    rw [looks_tick] at hl
    obtain ⟨ht, hp, hlast, hl⟩ := hl.cons
    have ht : now.us = t := ht
    obtain ⟨hready, hbusy⟩ := ih (h.tick hn hp now) (tick_config e now) hl
    rw [run_tick, Outcome.andThen_signals]
    constructor
    · intro begun hr
      rcases hr.tick h hn hp ht with ⟨-, eq, hr⟩ | ⟨rfl, eq⟩
      · rw [eq] at hready ⊢
        exact hready begun hr
      · subst ht
        rw [eq] at hbusy ⊢
        -- A deadline that the clock cuts off is that of an element of which no end is expected.
        by_cases hfits : now.us + (e.config.duration (next e.last) : Int) ≤ 0x7fffffffffffffff
        · have hbegun := begin_busy (e := { e with queue := [] }) hm rfl (next e.last) hfits
          exact { hbusy e.last now rfl hlast hbegun with }
        · exact { Beyond.keepsTime_started (.inr (not_le.mp hfits)) hlast with }
    · intro x b hx hb hsends
      rcases hsends.tick h hn hp ht with ⟨-, eq, hsends⟩ | ⟨rfl, eq⟩
      · rw [eq, listen_engine] at hbusy ⊢
        exact (hbusy x b hx hb hsends).listen e now
      · have hcurrent : e.current = next x := (h.sound.sending _ hsends.phase).current
        have hend : e.elementEnd.us = b.us + e.config.duration (next x) := hsends.deadline
        have hnext : (e.listened now).finish.engine.last = next x := hx
        rw [eq, Outcome.andThen_engine, listen_engine, hnext] at hready
        rw [eq]
        refine KeepsTime.ended ?_ hcurrent hend (by omega)
        rw [Outcome.andThen_engine, listen_engine]
        by_cases hfits : b.us + (e.config.duration (next x) : Int) + (e.config.gap : Int) ≤
            0x7fffffffffffffff
        · exact hready _ (finish_ready (e := e.listened now) hm hend hfits)
        · exact Beyond.keepsTime (.inr (not_le.mp hfits))

theorem paced_grid (p : ElementSet) (hd : 0 < d) (last : Instant) :
    Paced p d 0 last.us ((Instant.grid .zero last d).map fun now => ⟨now, p⟩) := by
  have hstep : max (d : Int) 1 = d := by omega
  have hlength := Instant.length_grid .zero last d
  have hzero : Instant.zero.us = 0 := rfl
  rw [hstep, hzero, Int.sub_zero] at hlength
  constructor
  · intro k l hl
    obtain ⟨now, hnow, rfl⟩ := Option.map_eq_some_iff.mp (List.getElem?_map .. ▸ hl)
    obtain ⟨hk, rfl⟩ := List.getElem?_eq_some_iff.mp hnow
    have htime := Instant.us_getElem_grid hk
    rw [hstep, hzero] at htime
    refine ⟨htime, rfl, htime ▸ ?_⟩
    rw [hlength] at hk
    split at hk
    · omega
    · have hle : (k : Int) * d ≤ last.us / d * d :=
        Int.mul_le_mul_of_nonneg_right (by omega) (by omega)
      have := Int.ediv_mul_le last.us (b := (d : Int)) (by omega)
      omega
  · rw [List.length_map, hlength]
    split
    · rename_i hl
      have hl : last.us < 0 := hl
      omega
    · rename_i hl
      have hl : 0 ≤ last.us := Int.not_lt.mp hl
      have hq : 0 ≤ last.us / d := Int.ediv_nonneg hl (by omega)
      rw [Int.toNat_of_nonneg (by omega), Int.zero_add]
      exact Int.lt_ediv_add_one_mul_self last.us (by omega)

end Engine

theorem Config.offset_opposite (c : Config) (x : Element) (k : Nat) :
    c.offset .opposite x k =
      (k + 1) / 2 * c.duration x.opposite + k / 2 * c.duration x + k * c.gap := by
  induction k generalizing x with
  | zero => simp [offset]
  | succ k ih =>
    have hk : (k + 1 + 1) / 2 = k / 2 + 1 := by omega
    rw [offset, ih, Element.opposite_opposite, hk]
    ring

theorem Config.offset_const (c : Config) (x y : Element) (k : Nat) :
    c.offset (fun _ => x) y k = k * (c.duration x + c.gap) := by
  induction k generalizing y with
  | zero => simp [offset]
  | succ k ih =>
    rw [offset, ih]
    ring

/-- Dit and dah in turn, the dit first. -/
def alternating (k : Nat) : Element := if k % 2 = 0 then .dit else .dah

theorem iterate_opposite (k : Nat) : Element.opposite^[k + 1] .dah = alternating k := by
  induction k with
  | zero => rfl
  | succ k ih =>
    rw [Function.iterate_succ_apply', ih, alternating, alternating]
    rcases Nat.mod_two_eq_zero_or_one k with hk | hk
    · simp [hk, Nat.add_mod, Element.opposite]
    · simp [hk, Nat.add_mod, Element.opposite]

namespace Config
variable {c : Config}

theorem idealStart_opposite (k : Nat) : c.idealStart .opposite .dah 0 k =
    (alternating k, (((k + 1) / 2 * c.dit + k / 2 * c.dah + k * c.gap : Nat) : Int)) := by
  rw [idealStart, iterate_opposite, offset_opposite, Int.zero_add]
  rfl

theorem idealEnd_opposite (k : Nat) : c.idealEnd .opposite .dah 0 k =
    (alternating k, (((k + 1) / 2 * c.dit + k / 2 * c.dah + k * c.gap : Nat) : Int) +
      c.duration (alternating k)) := by
  rw [idealEnd, iterate_opposite, offset_opposite, Int.zero_add]
  rfl

theorem idealStart_const (x : Element) (k : Nat) : c.idealStart (fun _ => x) .dah 0 k =
    (x, ((k * (c.duration x + c.gap) : Nat) : Int)) := by
  rw [idealStart, Function.iterate_succ_apply', offset_const, Int.zero_add]

theorem idealEnd_const (x : Element) (k : Nat) : c.idealEnd (fun _ => x) .dah 0 k =
    (x, ((k * (c.duration x + c.gap) : Nat) : Int) + c.duration x) := by
  rw [idealEnd, Function.iterate_succ_apply', offset_const, Int.zero_add]

end Config

namespace Engine
variable {c : Config} {p : ElementSet} {next : Element → Element} {inputs : List Input}

/-- A run from rest that finds the same paddles closed at every tick of a grid. -/
theorem keepsTime_grid {d : Nat} {last : Instant} (hn : Chooses p next) (hm : c.Meshes d)
    (ho : ∀ i ∈ inputs, i.Ordinary)
    (hl : (rest c).looks inputs = (Instant.grid .zero last d).map fun now => ⟨now, p⟩) :
    KeepsTime last.us c next .dah 0 ((rest c).run inputs).signals := by
  have hd : 0 < d := Nat.pos_of_dvd_of_pos hm.gap.2 hm.gap.1
  have hpaced : Paced p d 0 last.us ((rest c).looks inputs) := hl ▸ paced_grid p hd last
  have hready : (rest c).Ready d 0 0 := ⟨.inl ⟨rfl, rfl⟩, le_rfl, by simp⟩
  exact ((rest_held c).timeline hn rfl hm (course _ ho) hpaced).1 0 hready

/-- With both paddles held from rest dit and dah alternate, and with one paddle its element is
repeated, whenever the ticks come. If they come at `0`, `d`, `2 * d` and so on, and both elements and
the gap are multiples of `d`, each element begins when those before it and their gaps are over, and
ends after its own length: there is no drift. -/
theorem held_paddles_keep_time (ho : ∀ i ∈ inputs, i.Ordinary) :
    let looks := (rest c).looks inputs
    let begun := starts ((rest c).run inputs).signals
    let ended := finishes ((rest c).run inputs).signals
    ((∀ l ∈ looks, l.paddles = .both) → ∀ k s, begun[k]? = some s → s.1 = alternating k) ∧
    (∀ x, (∀ l ∈ looks, l.paddles = .only x) → ∀ s ∈ begun, s.1 = x) ∧
    ∀ d last, c.Meshes d →
      ((looks = (Instant.grid .zero last d).map fun now => ⟨now, .both⟩) →
        let start (k : Nat) := (k + 1) / 2 * c.dit + k / 2 * c.dah + k * c.gap
        OnTime last.us begun (fun k => (alternating k, start k)) ∧
        OnTime last.us ended fun k => (alternating k, start k + c.duration (alternating k))) ∧
      ∀ x, (looks = (Instant.grid .zero last d).map fun now => ⟨now, .only x⟩) →
        let start (k : Nat) := k * (c.duration x + c.gap)
        OnTime last.us begun (fun k => (x, start k)) ∧
        OnTime last.us ended fun k => (x, start k + c.duration x) := by
  intro looks begun ended
  have hcourse := course (rest c) ho
  refine ⟨fun hl k s hs => ?_, fun x hl s hs => ?_, fun d last hm => ⟨fun hl => ?_, fun x hl => ?_⟩⟩
  · rw [← iterate_opposite]
    exact (rest_held c).elements chooses_both hcourse hl hs
  · obtain ⟨k, hk⟩ := List.getElem?_of_mem hs
    rw [(rest_held c).elements (chooses_only x) hcourse hl hk, Function.iterate_succ_apply']
  · obtain ⟨hbegun, hended⟩ := keepsTime_grid chooses_both hm ho hl
    rw [funext Config.idealStart_opposite] at hbegun
    rw [funext Config.idealEnd_opposite] at hended
    exact ⟨hbegun, hended⟩
  · obtain ⟨hbegun, hended⟩ := keepsTime_grid (chooses_only x) hm ho hl
    rw [funext (Config.idealStart_const x)] at hbegun
    rw [funext (Config.idealEnd_const x)] at hended
    exact ⟨hbegun, hended⟩

/-- Dit, dah and the next dit with both paddles held, which bounce once between two ticks, and two
dahs with the one paddle held. -/
theorem held_paddles_keep_time_at_twenty :
    let grid := Instant.grid .zero (.clamp 420000) (60000 : Nat)
    let bounce : List Input := [.edge ⟨.paddle .dah, false, .zero⟩, .edge ⟨.paddle .dah, true, .zero⟩]
    let both : List Input := .paddles .both :: .tick .zero :: bounce ++ grid.tail.map .tick
    let single : List Input := .paddles (.only .dah) :: grid.map .tick
    let begun inputs := starts ((rest .standard).run inputs).signals
    let ended inputs := finishes ((rest .standard).run inputs).signals
    ((∀ i ∈ both, i.Ordinary) ∧ (∀ i ∈ single, i.Ordinary) ∧ Config.standard.Meshes 60000 ∧
      (rest .standard).looks both = grid.map (fun now => ⟨now, .both⟩) ∧
      (rest .standard).looks single = grid.map (fun now => ⟨now, .only .dah⟩) ∧
      begun both = [(.dit, .zero), (.dah, .clamp 120000), (.dit, .clamp 360000)] ∧
      ended single = [(.dah, .clamp 180000), (.dah, .clamp 420000)]) ∧
      (∀ k s, (begun both)[k]? = some s → s.1 = alternating k) ∧
      (begun both)[2]? = some (alternating 2, .clamp 360000) ∧
      (ended both)[2]? = some (alternating 2, .clamp 420000) ∧
      (∀ s ∈ begun single, s.1 = .dah) ∧
      (begun single)[1]? = some (.dah, .clamp 240000) ∧
      (ended single)[1]? = some (.dah, .clamp 420000) := by
  intro grid bounce both single begun ended
  have hb : ∀ i ∈ both, i.Ordinary := by decide
  have hs : ∀ i ∈ single, i.Ordinary := by decide
  have hm : Config.standard.Meshes 60000 := by decide
  have hbl : (rest .standard).looks both = grid.map (fun now => ⟨now, .both⟩) := by decide
  have hsl : (rest .standard).looks single = grid.map (fun now => ⟨now, .only .dah⟩) := by decide
  obtain ⟨hturn, -, hbgrid⟩ := held_paddles_keep_time (c := .standard) hb
  obtain ⟨-, hrepeat, hsgrid⟩ := held_paddles_keep_time (c := .standard) hs
  obtain ⟨hbegun, hended⟩ := (hbgrid 60000 (.clamp 420000) hm).1 hbl
  obtain ⟨hbegun', hended'⟩ := (hsgrid 60000 (.clamp 420000) hm).2 .dah hsl
  refine ⟨⟨hb, hs, hm, hbl, hsl, by decide, by decide⟩, hturn ?_, hbegun 2 (.clamp 360000) (by decide),
    hended 2 (.clamp 420000) (by decide), hrepeat .dah ?_, hbegun' 1 (.clamp 240000) (by decide),
    hended' 1 (.clamp 420000) (by decide)⟩
  · rw [hbl]
    decide
  · rw [hsl]
    decide

end Engine
end Iambic
