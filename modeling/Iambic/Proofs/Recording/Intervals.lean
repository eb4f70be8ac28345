import Iambic.Proofs.Recording.Reading
import Iambic.Proofs.Timing.Ranges
import Iambic.Recorder

/-!
# The intervals of a recorded engine

While an element is sent the recording is open at its beginning, or at nothing if that was cleared.
So an end never meets the beginning of another element, however restarts and clears cut the
recording. If nothing cuts it, the intervals are the words of the engine, and on a clock that does
not run backwards the gap of the configuration lies between them.
-/
namespace Iambic

open Recording

/-- A deadline that is near enough is at a distance that the clock can show. -/
theorem Instant.since?_later (t : Instant) {span : Nat} (h : span < 0x10000000) :
    (t.later span).since? t = some ((t.later span).us - t.us) := by
  have := t.lt_end
  rw [since?_eq_some_iff, us_later]
  omega

/-- The interval has a length, and in the recording the key goes down where it starts and then up
where it ends. -/
structure Interval.KeyedIn (r : Recording) (i : Interval) : Prop where
  ordered : i.start ≤ i.finish
  duration : i.duration = .ok (i.finish.us - i.start.us)
  key : [(true, i.start), (false, i.finish)] <:+: r.keyTimes

theorem Interval.KeyedIn.append {r : Recording} {i : Interval} (h : i.KeyedIn r) (s : Recording) :
    i.KeyedIn (r ++ s) where
  ordered := h.ordered
  duration := h.duration
  key := by
    rw [keyTimes_append]
    exact h.key.trans (List.prefix_append _ _).isInfix

/-- The element that is being keyed, with its beginning. -/
def Engine.keyed? (e : Engine) : Option (Element × Instant) :=
  e.phase.element?.map fun x => (x, e.elementStart)

theorem Engine.Tracks.keyed? {e : Engine} {last? : Option OpenWord} (t : e.Tracks last?) :
    e.keyed? = last?.map fun w => (w.element, w.begun) := by
  cases last? with
  | none => rw [Engine.keyed?, show e.phase.element? = none from t]; rfl
  | some w => rw [Engine.keyed?, t.phase, t.begun]; rfl

namespace Recorder
variable {r : Recorder} {e : Engine} {first now : Instant} {x : Element} {acts : List Act}
  {inputs : List Input}

/-- An element that ends where the key went down last has been keyed from there on. -/
theorem keyedIn_of_sends {log : Recording} (h : e.Sends x)
    (hdown : [(true, e.elementStart)] <:+ log.keyTimes) :
    Interval.KeyedIn (log ++ [.finished x e.elementEnd, .key false e.elementEnd])
      ⟨x, e.elementStart, e.elementEnd⟩ where
  ordered := h.deadline ▸ Instant.le_later _ _
  duration := by
    simp only [Interval.duration, h.deadline]
    rw [Instant.since?_later _ (e.config.duration_lt x)]
  key := by
    rcases hdown with ⟨before, heq⟩
    rw [keyTimes_append, ← heq, List.append_assoc]
    exact (List.suffix_append before _).isInfix

/-- Nothing begins before `first`. What the recording is open at while an element is sent is that
element, and there the key went down last. -/
structure Sound (first : Instant) (r : Recorder) : Prop where
  engine : r.engine.Sound
  begun : ∀ x, r.engine.phase = .sending x → first ≤ r.engine.elementStart
  keyed : ∀ x, r.engine.phase = .sending x → ∀ k ∈ keyedAfter none r.recording,
    k = (x, r.engine.elementStart) ∧ [(true, r.engine.elementStart)] <:+ r.recording.keyTimes
  intervals : ∃ is, r.recording.intervals = .ok is ∧
    ∀ i ∈ is, first ≤ i.start ∧ i.KeyedIn r.recording

theorem rest_sound (c : Config) (first : Instant) : (rest c).Sound first where
  engine := Engine.rest_sound c
  begun _ hp := nomatch hp
  keyed _ hp := nomatch hp
  intervals := ⟨[], rfl, by simp⟩

theorem Sound.clear (h : r.Sound first) : (r.act .clear).Sound first where
  engine := h.engine
  begun := h.begun
  keyed _ _ _ hk := nomatch hk
  intervals := ⟨[], rfl, by simp⟩

/-- While the engine tells nothing the recording stays as it is. -/
theorem record_quiet (r : Recorder) (e : Engine) : r.record e.quiet = ⟨e, r.recording⟩ := by
  simp [record, ofSignals]

theorem record_andThen (r : Recorder) (o : Outcome) (next : Engine → Outcome) :
    r.record (o.andThen next) = (r.record o).record (next o.engine) := by
  simp [record, ofSignals]

/-- Listening is of no concern to the intervals. -/
theorem listen_reading (e : Engine) (now : Instant) (keyed? : Option (Element × Instant)) :
    intervalsFrom keyed? (ofSignals (e.listen now).signals) = .ok [] ∧
      keyedAfter keyed? (ofSignals (e.listen now).signals) = keyed? ∧
      keyTimes (ofSignals (e.listen now).signals) = [] := by
  rw [Engine.listen_eq]
  cases e.hears now <;> cases e.notices now <;> exact ⟨rfl, rfl, rfl⟩

/-- If nothing ends, the intervals stay as they are. -/
theorem Sound.intervals_append (h : r.Sound first) {s : Recording}
    (hs : intervalsFrom (keyedAfter none r.recording) s = .ok []) :
    ∃ is, (r.recording ++ s).intervals = .ok is ∧
      ∀ i ∈ is, first ≤ i.start ∧ i.KeyedIn (r.recording ++ s) := by
  rcases h.intervals with ⟨is, heq, his⟩
  refine ⟨is, ?_, fun i hi => ⟨(his i hi).1, (his i hi).2.append s⟩⟩
  simpa using Recording.intervals_append heq hs

/-- What is sent after a step that tells nothing was sent before it. -/
theorem Sound.quiet {f : Engine} (h : r.Sound first) (hf : f.Sound)
    (hp : ∀ x, f.phase = .sending x →
      r.engine.phase = .sending x ∧ f.elementStart = r.engine.elementStart) :
    (r.record f.quiet).Sound first := by
  rw [record_quiet]
  refine ⟨hf, fun x hx => ?_, fun x hx => ?_, h.intervals⟩
  · obtain ⟨hx, hstart⟩ := hp x hx
    exact hstart ▸ h.begun x hx
  · obtain ⟨hx, hstart⟩ := hp x hx
    exact hstart ▸ h.keyed x hx

theorem Sound.begin {f : Engine} (h : r.Sound first) (hf : (f.begin x now).engine.Sound)
    (hnow : first ≤ now) : (r.record (f.begin x now)).Sound first where
  engine := hf
  begun _ _ := hnow
  keyed y hp k hk := by
    obtain rfl : x = y := Phase.sending.inj hp
    change k ∈ keyedAfter none (r.recording ++ [.started x now, .key true now]) at hk
    rw [keyedAfter_append] at hk
    obtain rfl := Option.mem_some.mp hk
    refine ⟨rfl, ?_⟩
    change _ <:+ keyTimes (r.recording ++ [.started x now, .key true now])
    rw [keyTimes_append]
    exact List.suffix_append _ _
  intervals := h.intervals_append rfl

theorem Sound.listen (h : r.Sound first) (hp : r.engine.phase = .sending x) (now : Instant) :
    (r.record (r.engine.listen now)).Sound first := by
  obtain ⟨hi, hk, ht⟩ := listen_reading r.engine now (keyedAfter none r.recording)
  refine ⟨?_, ?_, ?_, h.intervals_append hi⟩
  · change (r.engine.listen now).engine.Sound
    rw [Engine.listen_engine]
    exact h.engine.listened hp now
  · simp only [record, Engine.listen_engine]
    exact h.begun
  · simp only [record, Engine.listen_engine, keyedAfter_append, hk, keyTimes_append, ht,
      List.append_nil]
    exact h.keyed

/-- The recording is open at the element that ends, and that adds its interval, or at nothing. -/
theorem Sound.finish (h : r.Sound first) (hp : r.engine.phase = .sending x) :
    (r.record r.engine.finish).Sound first := by
  refine ⟨Engine.finish_sound h.engine hp, nofun, nofun, ?_⟩
  have hs := h.engine.sending x hp
  have hlog : ofSignals r.engine.finish.signals =
      [.finished x r.engine.elementEnd, .key false r.engine.elementEnd] := by
    rw [← hs.current]
    rfl
  simp only [record, hlog]
  cases hk : keyedAfter none r.recording with
  | none =>
    apply h.intervals_append
    rw [hk]
    rfl
  | some k =>
    obtain ⟨rfl, hdown⟩ := h.keyed x hp k hk
    rcases h.intervals with ⟨is, heq, his⟩
    refine ⟨is ++ [⟨x, r.engine.elementStart, r.engine.elementEnd⟩], ?_, ?_⟩
    · apply Recording.intervals_append heq
      rw [hk]
      exact if_pos rfl
    · intro i hi
      rcases List.mem_append.mp hi with hi | hi
      · exact ⟨(his i hi).1, (his i hi).2.append _⟩
      · obtain rfl := List.mem_singleton.mp hi
        exact ⟨h.begun x hp, keyedIn_of_sends hs hdown⟩

theorem Sound.tick (h : r.Sound first) (hnow : first ≤ now) :
    (r.record (r.engine.tick now)).Sound first := by
  have hs := Engine.tick_sound h.engine now
  cases r.engine.turn now with
  | waits _ eq =>
    rw [eq]
    exact h.quiet h.engine fun x hp => ⟨hp, rfl⟩
  | settles _ _ _ _ eq =>
    rw [eq] at hs ⊢
    exact h.quiet hs nofun
  | begins x queue _ _ eq =>
    rw [eq] at hs ⊢
    exact h.begin hs hnow
  | listens x hp _ eq =>
    rw [eq]
    exact h.listen hp now
  | ends x hp _ eq =>
    rw [eq, record_andThen]
    have hp' : (r.record (r.engine.listen now)).engine.phase = .sending x := by
      simp only [record, Engine.listen_engine]
      exact hp
    exact (h.listen hp now).finish hp'

theorem Sound.act (h : r.Sound first) {a : Act} (ha : ∀ now, a = .input (.tick now) → first ≤ now) :
    (r.act a).Sound first := by
  cases a with
  | clear => exact h.clear
  | input i =>
    change (r.record (r.engine.step i)).Sound first
    by_cases ho : i.Ordinary
    · rcases r.engine.step_ordinary ho with ⟨now, rfl⟩ | ⟨-, paddles, reference, hi⟩
      · exact h.tick (ha now rfl)
      · have hs := Engine.step_sound h.engine i
        rw [hi] at hs ⊢
        exact h.quiet hs fun x hp => ⟨hp, rfl⟩
    · have hs := Engine.step_sound h.engine i
      rw [Engine.step_not_ordinary r.engine ho] at hs ⊢
      exact h.quiet hs nofun

theorem Sound.run (h : r.Sound first) (ha : ∀ now, .input (.tick now) ∈ acts → first ≤ now) :
    (r.run acts).Sound first := by
  induction acts generalizing r with
  | nil => exact h
  | cons a acts ih =>
    apply ih (h.act fun now heq => ha now (heq ▸ List.mem_cons_self ..))
    exact fun now hmem => ha now (List.mem_cons_of_mem a hmem)

/-- Uncut, a recording is told in whole words, and the intervals are theirs. -/
theorem complete_run (c : Config) (ho : ∀ i ∈ inputs, i.Ordinary) :
    let r := (rest c).run (inputs.map .input)
    ∃ is, r.recording.Complete r.engine.keyed? is ∧
      ((inputs.filterMap Input.tick?).Pairwise (· ≤ ·) → is.IsChain (Interval.SpacedBy c.gap)) := by
  have hs := Engine.rest_sound c
  obtain ⟨words, last?, heq, ht, -⟩ :=
    Engine.run_transcript hs (show (Engine.rest c).Tracks none from rfl) ho
  rw [transcript_none, List.flatMap_nil, List.nil_append] at heq
  refine ⟨words.map Word.interval, ?_, ?_⟩
  · rw [run_inputs]
    simp only [record, rest, List.nil_append, ht.keyed?, heq]
    exact complete_transcript words last?
  · intro hm
    have hchain := Engine.isChain_spaced (Engine.course (Engine.rest c) ho) hs hm
    rw [heq] at hchain
    exact isChain_intervals hchain

/-- However ticks, restarts and clears follow each other, the recording can be read: the length of
each interval fits the clock, and in it the key goes down and up. On a clock that is never before
zero the gaps fit it too. A recording that nothing cuts is complete, and if besides the clock does
not run backwards, each gap is no shorter than that of the configuration, unless the clock ends
before it. -/
theorem intervals_sound (c : Config) :
    (∀ acts, let r := (rest c).run acts
      (∃ is, r.recording.intervals = .ok is ∧ ∀ i ∈ is, i.KeyedIn r.recording) ∧
        ((∀ now, .input (.tick now) ∈ acts → .zero ≤ now) → ∃ gaps, r.recording.gaps = .ok gaps)) ∧
    ∀ inputs : List Input, (∀ i ∈ inputs, i.Ordinary) →
      let r := (rest c).run (inputs.map .input)
      ∃ is, r.recording.Complete r.engine.keyed? is ∧
        ((∀ now ∈ inputs.filterMap Input.tick?, .zero ≤ now) →
          (inputs.filterMap Input.tick?).Pairwise (· ≤ ·) →
          ∃ gaps, r.recording.gaps = .ok gaps ∧ List.Forall₂
            (fun (i : Interval) (gap : Int) => i.finish.us + c.gap < 0x8000000000000000 → c.gap ≤ gap)
            is.dropLast gaps) := by
  have hgaps : ∀ acts is, (∀ now, .input (.tick now) ∈ acts → .zero ≤ now) →
      ((rest c).run acts).recording.intervals = .ok is →
      ((rest c).run acts).recording.gaps = .ok (spans is) := by
    intro acts is hacts heq
    obtain ⟨_, heq', his⟩ := ((rest_sound c .zero).run hacts).intervals
    obtain rfl := Except.ok.inj (heq.symm.trans heq')
    rw [gaps, heq]
    exact gapsBetween_eq fun i hi => ⟨(his i hi).1, (his i hi).2.ordered⟩
  constructor
  · intro acts r
    have hleast : ∀ now, Instant.clamp (-0x8000000000000000) ≤ now := Instant.first_le
    obtain ⟨is, heq, his⟩ :=
      ((rest_sound c (.clamp (-0x8000000000000000))).run fun now _ => hleast now).intervals
    exact ⟨⟨is, heq, fun i hi => (his i hi).2⟩, fun hacts => ⟨spans is, hgaps acts is hacts heq⟩⟩
  · intro inputs ho r
    obtain ⟨is, hcomplete, hspaced⟩ := complete_run c ho
    refine ⟨is, hcomplete, fun hzero hm => ⟨spans is, ?_, forall₂_spans (hspaced hm)⟩⟩
    apply hgaps _ is _ hcomplete.intervals
    intro now hnow
    apply hzero now
    exact List.mem_filterMap.mpr ⟨.tick now, by simpa using hnow, rfl⟩

/-- A clear in the first dit and a reset in the dah leave nothing of them, and two dits follow. Without
them the first two elements are kept, and a gap that is longer than the least one, while the third
is still keyed. -/
theorem intervals_sound_after_clear_and_reset :
    let acts : List Act := [.input (.paddles .both), .input (.tick .zero), .clear,
      .input (.tick (.clamp 60000)), .input (.tick (.clamp 120000)), .input .reset,
      .input (.paddles (.only .dit)), .input (.tick (.clamp 130000)),
      .input (.tick (.clamp 190000)), .input (.tick (.clamp 255000)),
      .input (.tick (.clamp 330000))]
    let inputs : List Input := [.paddles .both, .tick .zero, .tick (.clamp 60000),
      .tick (.clamp 125000), .tick (.clamp 305000), .tick (.clamp 365000)]
    let r := (rest .standard).run acts
    let s := (rest .standard).run (inputs.map .input)
    ((∀ now, .input (.tick now) ∈ acts → .zero ≤ now) ∧ (∀ i ∈ inputs, i.Ordinary) ∧
      (∀ now ∈ inputs.filterMap Input.tick?, .zero ≤ now) ∧
      (inputs.filterMap Input.tick?).Pairwise (· ≤ ·) ∧
      s.engine.keyed? = some (.dit, .clamp 365000)) ∧
    (r.recording.intervals = .ok [⟨.dit, .clamp 130000, .clamp 190000⟩,
      ⟨.dit, .clamp 255000, .clamp 315000⟩] ∧ r.recording.gaps = .ok [65000]) ∧
    (∃ is, r.recording.intervals = .ok is ∧ ∀ i ∈ is, i.KeyedIn r.recording) ∧
      (∃ gaps, r.recording.gaps = .ok gaps) ∧
      ∃ is, s.recording.Complete (some (.dit, .clamp 365000)) is ∧
        ∃ gaps, s.recording.gaps = .ok gaps ∧ List.Forall₂
          (fun (i : Interval) (gap : Int) => i.finish.us + Config.standard.gap <
            0x8000000000000000 → Config.standard.gap ≤ gap) is.dropLast gaps := by
  intro acts inputs r s
  have hacts : ∀ now, .input (.tick now) ∈ acts → .zero ≤ now := by
    intro now h
    simp only [acts, List.mem_cons, Act.input.injEq, Input.tick.injEq, reduceCtorEq,
      List.not_mem_nil, false_or, or_false] at h
    rcases h with rfl | rfl | rfl | rfl | rfl | rfl | rfl <;> decide
  have ho : ∀ i ∈ inputs, i.Ordinary := by decide
  have hzero : ∀ now ∈ inputs.filterMap Input.tick?, .zero ≤ now := by decide
  have hm : (inputs.filterMap Input.tick?).Pairwise (· ≤ ·) := by decide
  have hkeyed : s.engine.keyed? = some (.dit, .clamp 365000) := by decide
  obtain ⟨hcut, huncut⟩ := intervals_sound .standard
  obtain ⟨is, hcomplete, hgaps⟩ := huncut inputs ho
  rw [hkeyed] at hcomplete
  exact ⟨⟨hacts, ho, hzero, hm, hkeyed⟩, ⟨rfl, rfl⟩, (hcut acts).1, (hcut acts).2 hacts,
    is, hcomplete, hgaps hzero hm⟩

end Recorder
end Iambic
