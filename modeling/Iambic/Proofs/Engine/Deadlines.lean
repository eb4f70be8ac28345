import Iambic.Proofs.Engine.Succession
import Mathlib.Data.List.Chain

/-!
# Lengths and gaps on the clock

However the clock runs, an element ends at its own deadline, and what is queued waits for the end
of the gap. If the clock does not run backwards, no element comes before the end of the gap, and
the calls are told in the order of their times.
-/
namespace Iambic

namespace Instant

instance : Trans (α := Instant) (· ≤ ·) (· ≤ ·) (· ≤ ·) := ⟨le_trans⟩

end Instant

namespace Signal

/-- An element begins or ends. -/
def isElement : Signal → Bool
  | .started _ _ => true
  | .finished _ _ => true
  | _ => false

/-- The time of an element or of the key. -/
def callTime? : Signal → Option Instant
  | .started _ t => some t
  | .finished _ t => some t
  | .key _ t => some t
  | _ => none

end Signal

/-- An element that begins is the next to end, when it has lasted its time, and between two ends
one begins. -/
def EndsInTime (c : Config) : Signal → Signal → Prop
  | .started x t, .finished y t' => y = x ∧ t'.us = min (t.us + c.duration x) 0x7fffffffffffffff
  | .finished _ _, .started _ _ => True
  | _, _ => False

/-- No element begins before the gap after the one that has ended is over. -/
def SpacedBy (gap : Nat) : Signal → Signal → Prop
  | .finished _ t, .started _ u => t.later gap ≤ u
  | _, _ => True

/-- The times of the elements and of the key. -/
def callTimes (signals : List Signal) : List Instant := signals.filterMap Signal.callTime?

theorem OpenWord.filter_isElement (w : OpenWord) :
    w.signals.filter Signal.isElement = [.started w.element w.begun] := by
  rcases w with ⟨x, t, _ | m, _ | s⟩ <;> rfl

theorem Word.filter_isElement (w : Word) : w.signals.filter Signal.isElement =
    [.started w.element w.begun, .finished w.element w.ended] := by
  rw [signals, List.filter_append, OpenWord.filter_isElement]
  rfl

theorem Word.Proper.endsInTime {c : Config} {w : Word} (h : w.Proper c) :
    EndsInTime c (.started w.element w.begun) (.finished w.element w.ended) := by
  constructor
  · rfl
  · rw [h.ended, Instant.us_later]

/-- A transcript tells of no element, or of the beginning of one first. -/
theorem endsInTime_transcript (c : Config) (words : List Word) (last? : Option OpenWord)
    (x : Element) (t : Instant) :
    ∀ s ∈ ((transcript words last?).filter Signal.isElement).head?,
      EndsInTime c (.finished x t) s := by
  intro s hs
  cases words with
  | nil =>
    cases last? with
    | none => simp at hs
    | some w =>
      rw [transcript_nil_some, OpenWord.filter_isElement] at hs
      obtain rfl : .started w.element w.begun = s := by simpa using hs
      trivial
  | cons w words =>
    rw [transcript_cons, List.filter_append, Word.filter_isElement] at hs
    obtain rfl : .started w.element w.begun = s := by simpa using hs
    trivial

theorem isChain_transcript {c : Config} {words : List Word} (last? : Option OpenWord)
    (h : ∀ w ∈ words, w.Proper c) :
    ((transcript words last?).filter Signal.isElement).IsChain (EndsInTime c) := by
  induction words with
  | nil =>
    cases last? with
    | none => simp
    | some w => rw [transcript_nil_some, OpenWord.filter_isElement]; simp
  | cons w words ih =>
    rcases List.forall_mem_cons.mp h with ⟨hw, hrest⟩
    rw [transcript_cons, List.filter_append, Word.filter_isElement]
    apply List.IsChain.cons_cons hw.endsInTime
    apply List.isChain_cons.mpr
    exact ⟨endsInTime_transcript c words last? w.element w.ended, ih hrest⟩

namespace Engine
variable {e : Engine} {x : Element} {now t : Instant} {inputs : List Input}

/-- In a run an element that has begun is the next to end, at its own deadline. -/
theorem isChain_run (h : e.Sound) (ho : ∀ i ∈ inputs, i.Ordinary) :
    ((e.run inputs).signals.filter Signal.isElement).IsChain (EndsInTime e.config) := by
  rcases e.exists_tracks with ⟨last?, hl⟩
  rcases run_transcript h hl ho with ⟨words, next?, heq, -, hp⟩
  have hchain := isChain_transcript next? hp
  rw [← heq, List.filter_append] at hchain
  exact hchain.right_of_append

/-- No element and no position of the key comes before `b`, by the deadlines and by the ticks
that are still to come. -/
def Floor (e : Engine) (b : Instant) (inputs : List Input) : Prop :=
  match e.phase with
  | .idle => ∀ t ∈ inputs.filterMap Input.tick?, b ≤ t
  | .sending _ => b ≤ e.elementEnd
  | .gap => b ≤ e.gapEnd

theorem callTimes_listen (e : Engine) (now : Instant) : callTimes (e.listen now).signals = [] := by
  apply List.filterMap_eq_nil_iff.mpr
  intro s hs
  rcases mem_listen hs with rfl | rfl <;> rfl

theorem callTimes_append (a b : List Signal) :
    callTimes (a ++ b) = callTimes a ++ callTimes b := List.filterMap_append

/-- If the clock does not run backwards the calls are in the order of their times. -/
theorem isChain_callTimes {b : Instant} (c : Course e inputs)
    (hm : (inputs.filterMap Input.tick?).Pairwise (· ≤ ·)) (h : e.Sound)
    (hb : e.Floor b inputs) : (b :: callTimes (e.run inputs).signals).IsChain (· ≤ ·) := by
  -- What is told next is never before the floor, and the floor rises to it.
  induction c generalizing b with
  | nil e => simp [callTimes]
  | @tick e inputs now _ ih =>
    change List.Pairwise _ (now :: inputs.filterMap Input.tick?) at hm
    rcases List.pairwise_cons.mp hm with ⟨hnow, hm⟩
    have hs := tick_sound h now
    rw [run_tick, Outcome.andThen_signals, callTimes_append]
    cases e.turn now with
    | waits hw eq =>
      rw [eq] at ih hs ⊢
      apply ih hm hs
      rcases hw with ⟨hp, -⟩ | ⟨hp, -⟩
      · simp only [Floor, quiet_engine, hp] at hb ⊢
        intro t ht
        exact hb t (List.mem_cons_of_mem now ht)
      · simpa only [Floor, quiet_engine, hp] using hb
    | settles hp hover _ _ eq =>
      rw [eq] at ih hs ⊢
      apply ih hm hs
      simp only [Floor, hp] at hb
      intro t ht
      exact Instant.le_trans hb (Instant.le_trans hover (hnow t ht))
    | begins x queue hp _ eq =>
      have hbn : b ≤ now := by
        rcases hp with hp | ⟨hp, hover⟩
        · simp only [Floor, hp] at hb
          exact hb now (List.mem_cons_self ..)
        · simp only [Floor, hp] at hb
          exact Instant.le_trans hb hover
      rw [eq] at ih hs ⊢
      have hrest := ih (b := now) hm hs (Instant.le_later now _)
      exact .cons_cons hbn (.cons_cons (Instant.le_refl now) hrest)
    | listens x hp _ eq =>
      rw [eq] at ih hs ⊢
      rw [callTimes_listen, List.nil_append]
      apply ih hm hs
      simpa only [Floor, listen_engine, listened, hp] using hb
    | ends x hp due _ =>
      have htick := tick_due h hp due
      have hbe : b ≤ e.elementEnd := by simpa only [Floor, hp] using hb
      rw [htick] at ih hs ⊢
      rw [callTimes_append, callTimes_listen, List.nil_append]
      have hrest := ih (b := e.elementEnd) hm hs (Instant.le_later e.elementEnd _)
      exact .cons_cons hbe (.cons_cons (Instant.le_refl e.elementEnd) hrest)
  | @still e i inputs _ _ ht hi _ ih =>
    rw [List.filterMap_cons_none ht] at hm
    have hs := step_sound h i
    rw [hi] at hs
    rw [run_still hi]
    apply ih hm hs
    simpa only [Floor, List.filterMap_cons_none ht] using hb

/-- The end of an element is told with its deadline, at a tick that is not before it. -/
theorem due_of_finished (h : e.Sound) (hf : .finished x t ∈ (e.tick now).signals) :
    ∃ y, e.phase = .sending y ∧ t = e.elementEnd ∧ e.elementEnd ≤ now := by
  rcases due_of_isFinish hf rfl with ⟨y, hp, due⟩
  rw [tick_due h hp due] at hf
  rcases List.mem_append.mp hf with hl | hl
  · exact nomatch isFinish_of_mem_listen hl
  · have hl : x = y ∧ t = e.elementEnd := by simpa using hl
    exact ⟨y, hp, hl.2, due⟩

/-- The end of an element is told at its deadline, where the gap begins. -/
theorem tick_of_finished (h : e.Sound) (hf : .finished x t ∈ (e.tick now).signals) :
    (e.tick now).engine.phase = .gap ∧ (e.tick now).engine.gapEnd = t.later e.config.gap := by
  rcases due_of_finished h hf with ⟨y, hp, rfl, due⟩
  rw [tick_due h hp due]
  exact ⟨rfl, rfl⟩

/-- What is queued waits for the end of the gap, however the clock runs. -/
theorem gapEnd_le_of_queued {y : Element} {u : Instant} (c : Course e inputs) (h : e.Sound)
    (hp : e.phase = .gap) (hq : e.queue ≠ [])
    (hn : nextStart? (e.run inputs).signals = some (y, u)) : e.gapEnd ≤ u := by
  have hq := (h.gap hp).queue.resolve_left hq
  rw [nextStart?_run_queued c hp hq, Option.map_eq_some_iff] at hn
  rcases hn with ⟨l, hl, heq⟩
  rcases Prod.mk.inj heq with ⟨-, rfl⟩
  have hover := List.head?_dropWhile_not (fun l : Look => decide (l.time < e.gapEnd))
    (e.looks inputs)
  rw [show List.head? (List.dropWhile _ _) = some l from hl] at hover
  exact Instant.not_lt.mp (by simpa using hover)

theorem mem_callTimes_of_nextStart? {signals : List Signal} {y : Element} {u : Instant}
    (h : nextStart? signals = some (y, u)) : u ∈ callTimes signals := by
  rcases List.exists_of_findSome?_eq_some h with ⟨s, hs, heq⟩
  apply List.mem_filterMap.mpr
  exists s, hs
  cases s with
  | started x t =>
    obtain ⟨-, rfl⟩ : x = y ∧ t = u := by simpa [Signal.start?] using heq
    rfl
  | _ => exact nomatch heq

/-- Every element waits for the end of the gap if the clock does not run backwards. -/
theorem gapEnd_le_of_sorted {y : Element} {u : Instant} (c : Course e inputs) (h : e.Sound)
    (hp : e.phase = .gap) (hm : (inputs.filterMap Input.tick?).Pairwise (· ≤ ·))
    (hn : nextStart? (e.run inputs).signals = some (y, u)) : e.gapEnd ≤ u := by
  have hb : e.Floor e.gapEnd inputs := by
    simp only [Floor, hp]
    exact Instant.le_refl e.gapEnd
  have hchain := List.isChain_iff_pairwise.mp (isChain_callTimes c hm h hb)
  exact (List.pairwise_cons.mp hchain).1 u (mem_callTimes_of_nextStart? hn)

/-- If an element is the first to begin or end and it begins, it is the next. -/
theorem nextStart?_of_head? {signals : List Signal} {y : Element} {u : Instant}
    (h : (signals.filter Signal.isElement).head? = some (.started y u)) :
    nextStart? signals = some (y, u) := by
  induction signals with
  | nil => exact nomatch h
  | cons s signals ih =>
    cases s with
    | started x t =>
      obtain ⟨rfl, rfl⟩ : x = y ∧ t = u := by simpa [Signal.isElement] using h
      rfl
    | finished x t => simp [Signal.isElement] at h
    | key _ _ | memory _ _ _ | squeeze _ => exact ih h

theorem filter_isElement_listen (e : Engine) (now : Instant) :
    (e.listen now).signals.filter Signal.isElement = [] := by
  rw [List.filter_eq_nil_iff]
  intro s hs
  rcases mem_listen hs with rfl | rfl <;> exact Bool.false_ne_true

/-- At a tick no more than one element begins or ends. -/
theorem filter_isElement_tick (e : Engine) (now : Instant) :
    (e.tick now).signals.filter Signal.isElement = [] ∨
      (∃ x, (e.tick now).signals.filter Signal.isElement = [.started x now]) ∨
      ∃ x t, (e.tick now).signals.filter Signal.isElement = [.finished x t] := by
  cases e.turn now with
  | waits _ eq | settles _ _ _ _ eq => exact .inl (by rw [eq]; rfl)
  | begins x _ _ _ eq => exact .inr (.inl ⟨x, by rw [eq]; rfl⟩)
  | listens _ _ _ eq => exact .inl (by rw [eq, filter_isElement_listen])
  | ends _ _ _ eq =>
    right; right
    rw [eq, Outcome.andThen_signals, List.filter_append, filter_isElement_listen]
    exact ⟨_, _, rfl⟩

/-- If the clock does not run backwards, an element waits for the end of the gap before it. -/
theorem isChain_spaced (c : Course e inputs) (h : e.Sound)
    (hm : (inputs.filterMap Input.tick?).Pairwise (· ≤ ·)) :
    ((e.run inputs).signals.filter Signal.isElement).IsChain (SpacedBy e.config.gap) := by
  induction c with
  | nil e => exact .nil
  | @tick e inputs now rest ih =>
    change List.Pairwise _ (now :: inputs.filterMap Input.tick?) at hm
    have hm := (List.pairwise_cons.mp hm).2
    have hs := tick_sound h now
    have ih := ih hs hm
    rw [tick_config] at ih
    rw [run_tick, Outcome.andThen_signals, List.filter_append]
    rcases filter_isElement_tick e now with hq | ⟨x, hq⟩ | ⟨x, t, hq⟩ <;> rw [hq]
    · exact ih
    · exact List.isChain_cons.mpr ⟨fun s _ => by cases s <;> trivial, ih⟩
    · refine List.isChain_cons.mpr ⟨fun s hfirst => ?_, ih⟩
      have hf : .finished x t ∈ (e.tick now).signals :=
        (List.mem_filter.mp (hq ▸ List.mem_singleton_self _)).1
      obtain ⟨hp, hgap⟩ := tick_of_finished h hf
      cases s with
      | started y u =>
        have hover := gapEnd_le_of_sorted rest hs hp hm (nextStart?_of_head? hfirst)
        rwa [hgap] at hover
      | finished _ _ | key _ _ | memory _ _ _ | squeeze _ => trivial
  | @still e i inputs _ _ ht hi _ ih =>
    rw [List.filterMap_cons_none ht] at hm
    have hs := step_sound h i
    rw [hi] at hs
    rw [run_still hi]
    exact ih hs hm

theorem sorted_callTimes (c : Course e inputs) (h : e.Sound)
    (hm : (inputs.filterMap Input.tick?).Pairwise (· ≤ ·)) :
    (callTimes (e.run inputs).signals).Pairwise (· ≤ ·) := by
  let b : Instant := .clamp (-0x8000000000000000)
  have hleast : ∀ t, b ≤ t := Instant.first_le
  have hb : e.Floor b inputs := by
    cases hp : e.phase with
    | idle => simp only [Floor, hp]; exact fun t _ => hleast t
    | sending x => simp only [Floor, hp]; exact hleast e.elementEnd
    | gap => simp only [Floor, hp]; exact hleast e.gapEnd
  exact (List.pairwise_cons.mp (List.isChain_iff_pairwise.mp (isChain_callTimes c hm h hb))).2

/-- However the clock runs, an element that begins lasts its time, up to the end of the clock, and
what the end of an element has queued waits for the end of the gap. If the clock does not run
backwards every element waits for it, and the elements and the key come in the order of their
times. -/
theorem element_times (h : e.Reachable) (ho : ∀ i ∈ inputs, i.Ordinary) :
    ((e.run inputs).signals.filter Signal.isElement).IsChain (EndsInTime e.config) ∧
    (∀ now x t, .finished x t ∈ (e.tick now).signals →
      (e.tick now).engine.queue ≠ [] ∨ (inputs.filterMap Input.tick?).Pairwise (· ≤ ·) →
      ∀ y u, nextStart? ((e.tick now).engine.run inputs).signals = some (y, u) →
        min (t.us + (e.config.gap : Int)) 0x7fffffffffffffff ≤ u.us) ∧
    ((inputs.filterMap Input.tick?).Pairwise (· ≤ ·) →
      (callTimes (e.run inputs).signals).Pairwise (· ≤ ·)) := by
  refine ⟨isChain_run h.sound ho, ?_, sorted_callTimes (course e ho) h.sound⟩
  intro now x t hf hwhy y u hn
  have hs := tick_sound h.sound now
  have hc := course (e.tick now).engine ho
  rcases tick_of_finished h.sound hf with ⟨hp, hgap⟩
  have hover : (e.tick now).engine.gapEnd ≤ u := by
    rcases hwhy with hq | hm
    · exact gapEnd_le_of_queued hc hs hp hq hn
    · exact gapEnd_le_of_sorted hc hs hp hm hn
  rw [hgap] at hover
  rwa [Instant.le_iff, Instant.us_later] at hover

/-- Both paddles are closed until the first dit has ended late, and the dah waits for its gap. -/
theorem element_times_after_squeeze :
    let e := ((rest .standard).run [.paddles .both, .tick .zero, .tick (.clamp 30000)]).engine
    let inputs := [.paddles .empty, .tick (.clamp 110000), .tick (.clamp 150000)]
    let f := (e.tick (.clamp 70000)).engine
    (e.Reachable ∧ (∀ i ∈ inputs, i.Ordinary) ∧ f.queue = [.dah] ∧
      .finished .dit (.clamp 60000) ∈ (e.tick (.clamp 70000)).signals ∧
      (inputs.filterMap Input.tick?).Pairwise (· ≤ ·) ∧
      nextStart? (f.run inputs).signals = some (.dah, .clamp 150000)) ∧
    ((e.run inputs).signals.filter Signal.isElement).IsChain (EndsInTime e.config) ∧
      (min (60000 + (e.config.gap : Int)) 0x7fffffffffffffff ≤ 150000) ∧
      (callTimes (e.run inputs).signals).Pairwise (· ≤ ·) := by
  intro e inputs f
  have hr : e.Reachable := Reachable.standard.run _
  have ho : ∀ i ∈ inputs, i.Ordinary := by decide
  have hf : .finished .dit (.clamp 60000) ∈ (e.tick (.clamp 70000)).signals := by decide
  have hq : f.queue = [.dah] := by decide
  have hm : (inputs.filterMap Input.tick?).Pairwise (· ≤ ·) := by decide
  have hn : nextStart? (f.run inputs).signals = some (.dah, .clamp 150000) := by decide
  rcases element_times hr ho with ⟨hchain, hstart, hsorted⟩
  exact ⟨⟨hr, ho, hq, hf, hm, hn⟩, hchain, hstart _ _ _ hf (.inr hm) _ _ hn, hsorted hm⟩

end Engine
end Iambic
