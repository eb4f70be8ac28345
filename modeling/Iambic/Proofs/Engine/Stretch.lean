import Iambic.Proofs.Config.Bounds
import Iambic.Proofs.Engine.Deadlines
import Iambic.Proofs.Timing.Monotone

/-!
# How far polling stretches the code

A poll finds at most one deadline, and it finds it late. With polls no further apart than the poll
interval the end of an element is told within one interval of its deadline. The element after it
waits for the gap, and for the poll after that at which the end was told if the gap is shorter, so
it begins within one more interval.
-/
namespace Iambic

/-! ## The poll interval -/

namespace Config

/-- The poll interval is a twentieth of the dit, but not below its least value. -/
theorem Valid.pollInterval_eq {c : Config} (h : c.Valid) :
    c.pollInterval = max 50 (c.dit / 20) := by
  have hle := h.dit_le_dah
  rw [pollInterval, minPollInterval, Nat.min_eq_left hle]
  omega

end Config

/-! ## Polls -/

/-- The polls, each of which makes one tick, come in order, and none is more than `p` after the one
before it. -/
def Polled (p : Nat) (inputs : List Input) : Prop :=
  (inputs.filterMap Input.tick?).IsChain fun a b => a ≤ b ∧ b.us ≤ a.us + (p : Int)

instance (p : Nat) (inputs : List Input) : Decidable (Polled p inputs) :=
  inferInstanceAs (Decidable (List.IsChain _ _))

theorem Polled.of_append {p : Nat} {xs ys : List Input} {now : Instant}
    (h : Polled p (xs ++ .tick now :: ys)) :
    (∀ last ∈ (xs.filterMap Input.tick?).getLast?, last ≤ now ∧ now.us ≤ last.us + p) ∧
      Polled p (.tick now :: ys) := by
  rw [Polled, List.filterMap_append, List.isChain_append] at h
  obtain ⟨-, hys, hlast⟩ := h
  exact ⟨fun last hl => hlast last hl now rfl, hys⟩

namespace Engine
variable {e : Engine} {c : Config} {x : Element} {now t : Instant} {inputs before after : List Input}
  {p : Nat}

/-- A tick that leaves an element on its way is not after its end. -/
theorem le_elementEnd_of_tick (h : (e.tick now).engine.phase = .sending x) :
    now ≤ (e.tick now).engine.elementEnd := by
  cases e.turn now with
  | waits hp eq =>
    rw [eq] at h
    obtain ⟨hi, -⟩ | ⟨hg, -⟩ := hp
    · exact nomatch hi.symm.trans h
    · exact nomatch hg.symm.trans h
  | settles _ _ _ _ eq =>
    rw [eq] at h
    exact nomatch h
  | begins _ _ _ _ eq =>
    rw [eq]
    exact Instant.le_later now _
  | listens _ _ early eq =>
    rw [eq, listen_engine]
    exact Int.le_of_lt early
  | ends _ _ _ eq =>
    rw [eq] at h
    exact nomatch h

/-- While an element is sent there has been a tick, and the last one was not after its end. -/
theorem exists_tick_le_elementEnd (ho : ∀ i ∈ inputs, i.Ordinary)
    (hx : ((rest c).run inputs).engine.phase = .sending x) :
    ∃ last ∈ (inputs.filterMap Input.tick?).getLast?,
      last ≤ ((rest c).run inputs).engine.elementEnd := by
  induction inputs using List.reverseRecOn with
  | nil => exact nomatch hx
  | append_singleton inputs i ih =>
    have hrun : ((rest c).run (inputs ++ [i])).engine =
        (((rest c).run inputs).engine.step i).engine := by
      rw [run_append]
      rfl
    rw [hrun] at hx ⊢
    rw [List.filterMap_append]
    obtain ⟨now, rfl⟩ | ⟨ht, paddles, reference, hs⟩ := step_ordinary _ (ho i (by simp))
    · exact ⟨now, by simp [Input.tick?], le_elementEnd_of_tick hx⟩
    · rw [hs] at hx ⊢
      have hnone : [i].filterMap Input.tick? = [] := by simp [ht]
      rw [hnone, List.append_nil]
      exact ih (fun j hj => ho j (List.mem_append_left _ hj)) hx

/-- The end of an element is told within one interval of it. -/
theorem finished_in_time (ho : ∀ i ∈ before, i.Ordinary)
    (hp : Polled p (before ++ .tick now :: after))
    (hf : .finished x t ∈ (((rest c).run before).engine.tick now).signals) :
    t ≤ now ∧ now.us ≤ t.us + p := by
  have h : ((rest c).run before).engine.Sound := run_sound (rest_sound c) before
  obtain ⟨y, hy, rfl, due⟩ := due_of_finished h hf
  obtain ⟨last, hlast, hle⟩ := exists_tick_le_elementEnd ho hy
  have hnow := (hp.of_append.1 last hlast).2
  rw [Instant.le_iff] at hle
  exact ⟨due, by omega⟩

/-- A gap lasts, and nothing is told, as long as no tick comes at its end. -/
theorem run_waiting (h : Course e inputs) (hp : e.phase = .gap)
    (hearly : ∀ t ∈ inputs.filterMap Input.tick?, t < e.gapEnd) :
    (e.run inputs).signals = [] ∧ (e.run inputs).engine.phase = .gap ∧
      (e.run inputs).engine.gapEnd = e.gapEnd := by
  induction h with
  | nil e => exact ⟨rfl, hp, rfl⟩
  | @tick e inputs now _ ih =>
    change ∀ t ∈ now :: inputs.filterMap Input.tick?, t < e.gapEnd at hearly
    obtain ⟨hnow, hearly⟩ := List.forall_mem_cons.mp hearly
    rw [run_tick]
    rw [tick_gap_early hp hnow] at ih ⊢
    exact ih hp hearly
  | still paddles reference ht hs _ ih =>
    rw [List.filterMap_cons_none ht] at hearly
    rw [run_still hs]
    exact ih hp hearly

/-- When the gap is over an element begins if one is queued or a paddle is closed. -/
theorem tick_begins (hp : e.phase = .gap) (hover : e.gapEnd ≤ now)
    (hneed : e.queue ≠ [] ∨ e.paddles ≠ .empty) :
    ∃ x, (e.tick now).signals = [.started x now, .key true now] := by
  rw [tick_gap_over hp hover, tick_idle rfl]
  obtain ⟨hq, hn, -⟩ | ⟨x, queue, -, hr⟩ := resume_cases { e with phase := .idle } now
  · obtain hneed | hneed := hneed
    · exact absurd hq hneed
    · exact absurd hn hneed
  · rw [hr]
    exact ⟨x, rfl⟩

/-- The first poll after the gap comes within one interval of its end, or within one interval of the
poll that began it. -/
theorem next_poll_le {wait later : List Input} {next : Instant} {span : Nat}
    (h : Polled p ((.tick now :: wait) ++ .tick next :: later)) (hnow : now.us ≤ t.us + p)
    (hwait : ∀ l ∈ wait.filterMap Input.tick?, l < t.later span) :
    next.us ≤ t.us + (max span p : Nat) + p := by
  have hlast := h.of_append.1
  change ∀ l ∈ (now :: wait.filterMap Input.tick?).getLast?, _ at hlast
  cases hw : (wait.filterMap Input.tick?).getLast? with
  | none =>
    rw [List.getLast?_eq_none_iff.mp hw] at hlast
    have hnext := (hlast now rfl).2
    omega
  | some l =>
    rw [List.getLast?_cons, hw] at hlast
    have hnext := (hlast l rfl).2
    have hearly := hwait l (List.mem_of_getLast? hw)
    rw [Instant.lt_iff, Instant.us_later] at hearly
    omega

/-- How far polling stretches the code. If no two polls are further apart than the poll interval, a
twentieth of the dit but at least fifty microseconds, the end of every element is told no later than
one interval after it. At the first poll after that which is not before the end of the gap the next
element begins, if one is queued or a paddle is closed then, and this is no later than one interval
after the gap, or after one interval if that is longer. -/
theorem polling_stretches_little (hv : c.Valid) (ho : ∀ i ∈ before ++ .tick now :: after, i.Ordinary)
    (hp : Polled c.pollInterval (before ++ .tick now :: after)) :
    c.pollInterval = max 50 (c.dit / 20) ∧
    ∀ x t, .finished x t ∈ (((rest c).run before).engine.tick now).signals →
      (t ≤ now ∧ now.us ≤ t.us + c.pollInterval) ∧
      let e := (((rest c).run before).engine.tick now).engine
      ∀ wait next later, after = wait ++ .tick next :: later →
        (∀ l ∈ wait.filterMap Input.tick?, l < t.later c.gap) → t.later c.gap ≤ next →
        (e.run wait).engine.queue ≠ [] ∨ (e.run wait).engine.paddles ≠ .empty →
        (∃ y, .started y next ∈ ((e.run wait).engine.tick next).signals ∧
          nextStart? (e.run after).signals = some (y, next)) ∧
        min (t.us + c.gap) 0x7fffffffffffffff ≤ next.us ∧
        next.us ≤ t.us + (max c.gap c.pollInterval : Nat) + c.pollInterval := by
  refine ⟨hv.pollInterval_eq, fun x t hf => ?_⟩
  have hbefore : ∀ i ∈ before, i.Ordinary := fun i hi => ho i (List.mem_append_left _ hi)
  have hend := finished_in_time hbefore hp hf
  refine ⟨hend, ?_⟩
  rintro e wait next later rfl hwait hover hneed
  have hsound : ((rest c).run before).engine.Sound := run_sound (rest_sound c) before
  obtain ⟨hgap, hgapEnd⟩ := tick_of_finished hsound hf
  rw [run_config hbefore] at hgapEnd
  have hcourse : Course e wait := course e fun i hi => ho i (by simp [hi])
  obtain ⟨hquiet, hgap', hgapEnd'⟩ := run_waiting hcourse hgap (hgapEnd ▸ hwait)
  obtain ⟨y, hy⟩ := tick_begins hgap' (hgapEnd'.trans hgapEnd ▸ hover) hneed
  refine ⟨⟨y, by simp [hy], ?_⟩, ?_, next_poll_le hp.of_append.2 hend.2 hwait⟩
  · rw [run_append, Outcome.andThen_signals, hquiet, run_tick, Outcome.andThen_signals, hy]
    rfl
  · rwa [Instant.le_iff, Instant.us_later] at hover

/-- A dit of fifty microseconds is found thirty late, and its gap thirty late again. -/
theorem polling_stretches_little_at_short_dits :
    let c : Config := { Config.standard with speed := 24000 }
    let before := [.paddles .both, .tick .zero, .tick (.clamp 30)]
    let after := [.tick (.clamp 95), .paddles .empty, .tick (.clamp 130)]
    let e := ((rest c).run before).engine
    let f := (e.tick (.clamp 80)).engine
    (c.Valid ∧ (∀ i ∈ before ++ .tick (.clamp 80) :: after, i.Ordinary) ∧
      Polled c.pollInterval (before ++ .tick (.clamp 80) :: after) ∧
      .finished .dit (.clamp 50) ∈ (e.tick (.clamp 80)).signals) ∧
    c.pollInterval = max 50 (c.dit / 20) ∧ (80 : Int) ≤ 50 + c.pollInterval ∧
    (∃ y, nextStart? (f.run after).signals = some (y, .clamp 130)) ∧
    (130 : Int) ≤ 50 + (max c.gap c.pollInterval : Nat) + c.pollInterval := by
  intro c before after e f
  have hv : c.Valid := Config.error?_eq_none_iff_valid.mp (by decide)
  have ho : ∀ i ∈ before ++ .tick (.clamp 80) :: after, i.Ordinary := by decide
  have hp : Polled c.pollInterval (before ++ .tick (.clamp 80) :: after) := by decide
  have hf : .finished .dit (.clamp 50) ∈ (e.tick (.clamp 80)).signals := by decide
  obtain ⟨heq, hend⟩ := polling_stretches_little hv ho hp
  obtain ⟨⟨-, htold⟩, hnext⟩ := hend _ _ hf
  obtain ⟨⟨y, -, hy⟩, -, hlate⟩ :=
    hnext [.tick (.clamp 95), .paddles .empty] (.clamp 130) [] rfl (by decide) (by decide) (by decide)
  exact ⟨⟨hv, ho, hp, hf⟩, heq, htold, ⟨y, hy⟩, hlate⟩

end Engine
end Iambic
