import Iambic.Proofs.Engine.Words

/-!
# Which element comes next

What memory and mode B owe is sent at the first tick after the gap, whatever the paddles do. If
nothing is owed, the next element is the one that the paddles ask for at the first tick, from the
end of the gap on, at which one is closed.
-/
namespace Iambic

/-- What the engine finds at a tick. -/
structure Look where
  time : Instant
  paddles : ElementSet

def Look.closed (l : Look) : Bool := decide (l.paddles ≠ .empty)

/-- After `p` the paddles ask for `q`: its paddle alone is closed, or both are and it is not `p`. -/
def Look.Asks (l : Look) (p q : Element) : Prop :=
  l.paddles = .only q ∨ l.paddles = .both ∧ q = p.opposite

/-- After `p`, of which something may be owed, `q` begins at `t`, if these are the looks since the
end of the gap. -/
def Follows (p : Element) (owed : Prop) (looks : List Look) (q : Element) (t : Instant) : Prop :=
  ∃ l, l.time = t ∧ (owed ∧ looks.head? = some l ∧ q = p.opposite ∨
    ¬ owed ∧ looks.find? Look.closed = some l ∧ l.Asks p q)

namespace Signal

def start? : Signal → Option (Element × Instant)
  | .started x t => some (x, t)
  | _ => none

def isFinish : Signal → Bool
  | .finished _ _ => true
  | _ => false

def isMemory : Signal → Bool
  | .memory _ _ _ => true
  | _ => false

def isSqueeze : Signal → Bool
  | .squeeze _ => true
  | _ => false

end Signal

/-- The first element that the signals begin. -/
def nextStart? (signals : List Signal) : Option (Element × Instant) :=
  signals.findSome? Signal.start?

theorem nextStart?_append (a b : List Signal) :
    nextStart? (a ++ b) = (nextStart? a).or (nextStart? b) := List.findSome?_append

/-- The first closed paddles decide, as the engine chooses. -/
theorem findSome?_chosen_eq_some_iff {looks : List Look} {p q : Element} {t : Instant} :
    (looks.findSome? fun l => (Engine.chosen? l.paddles p).map fun x => (x, l.time)) =
        some (q, t) ↔ ∃ l, l.time = t ∧ looks.find? Look.closed = some l ∧ l.Asks p q := by
  induction looks with
  | nil => simp
  | cons l looks ih =>
    by_cases hl : l.paddles = .empty
    · have hc : l.closed = false := by simp [Look.closed, hl]
      rw [List.findSome?_cons, Engine.chosen?_eq_none_iff.mpr hl, List.find?_cons_of_neg (by simp [hc])]
      exact ih
    · have hc : l.closed = true := by simp [Look.closed, hl]
      rcases Option.ne_none_iff_exists'.mp (mt Engine.chosen?_eq_none_iff.mp hl) with ⟨x, hx⟩
      rw [List.findSome?_cons, hx, List.find?_cons_of_pos hc]
      have ha : l.Asks p q ↔ x = q := by
        rw [Look.Asks, ← Engine.chosen?_eq_some_iff, hx, Option.some.injEq]
      constructor
      · intro h
        obtain ⟨rfl, rfl⟩ : x = q ∧ l.time = t := by simpa using h
        exact ⟨l, rfl, rfl, ha.mpr rfl⟩
      · rintro ⟨_, rfl, heq, hask⟩
        obtain rfl := Option.some.inj heq
        rw [ha.mp hask]
        rfl

namespace Engine
variable {e : Engine} {x : Element} {now : Instant} {inputs : List Input}

/-- The looks of a run, one for each tick. -/
def looks (e : Engine) : List Input → List Look
  | [] => []
  | i :: inputs =>
    i.tick?.toList.map (fun now => ⟨now, e.paddles⟩) ++ (e.step i).engine.looks inputs

/-- The looks from the first one on at which the gap is over. -/
def looksAfterGap (e : Engine) (inputs : List Input) : List Look :=
  (e.looks inputs).dropWhile fun l => l.time < e.gapEnd

@[simp] theorem looks_tick (e : Engine) (now : Instant) (inputs : List Input) :
    e.looks (.tick now :: inputs) = ⟨now, e.paddles⟩ :: (e.tick now).engine.looks inputs := rfl

theorem looks_of_tick?_eq_none {i : Input} (h : i.tick? = none) :
    e.looks (i :: inputs) = (e.step i).engine.looks inputs := by
  simp [looks, h]

theorem looks_append (e : Engine) (xs ys : List Input) :
    e.looks (xs ++ ys) = e.looks xs ++ (e.run xs).engine.looks ys := by
  induction xs generalizing e with
  | nil => rfl
  | cons i xs ih =>
    rw [List.cons_append, looks, looks, ih, List.append_assoc]
    rfl

theorem looksAfterGap_of_lt (h : now < e.gapEnd) :
    e.looksAfterGap (.tick now :: inputs) =
      ((e.tick now).engine.looks inputs).dropWhile fun l => l.time < e.gapEnd :=
  List.dropWhile_cons_of_pos (by simpa using h)

theorem looksAfterGap_of_le (h : e.gapEnd ≤ now) :
    e.looksAfterGap (.tick now :: inputs) = e.looks (.tick now :: inputs) :=
  List.dropWhile_cons_of_neg (by simpa using Instant.not_lt.mpr h)

theorem looksAfterGap_of_tick?_eq_none {i : Input} {paddles reference : ElementSet}
    (ht : i.tick? = none)
    (hs : e.step i = ({ e with paddles := paddles, reference := reference } : Engine).quiet) :
    e.looksAfterGap (i :: inputs) =
      ({ e with paddles := paddles, reference := reference } : Engine).looksAfterGap inputs := by
  rw [looksAfterGap, looks_of_tick?_eq_none ht, hs]
  rfl

/-- What is queued begins at the first look since the end of the gap. -/
theorem nextStart?_run_queued (c : Course e inputs) (hp : e.phase = .gap) (hq : e.queue = [x]) :
    nextStart? (e.run inputs).signals =
      (e.looksAfterGap inputs).head?.map fun l => (x, l.time) := by
  induction c with
  | nil e => rfl
  | @tick e inputs now _ ih =>
    rw [run_tick, Outcome.andThen_signals]
    by_cases hn : now < e.gapEnd
    · rw [looksAfterGap_of_lt hn]
      rw [tick_gap_early hp hn] at ih ⊢
      exact ih hp hq
    · have hover := Instant.not_lt.mp hn
      have ht : e.tick now = ({ e with phase := .idle, queue := [] } : Engine).begin x now := by
        rw [tick_gap_over hp hover, tick_idle rfl]
        simp only [resume, hq]
      rw [looksAfterGap_of_le hover, looks_tick, ht]
      rfl
  | still _ _ ht hs _ ih =>
    rw [run_still hs, looksAfterGap_of_tick?_eq_none ht hs]
    exact ih hp hq

/-- An idle engine sends what the paddles ask for at the first look at which one is closed. -/
theorem nextStart?_run_idle (c : Course e inputs) (hp : e.phase = .idle) (hq : e.queue = []) :
    nextStart? (e.run inputs).signals = (e.looks inputs).findSome? fun l =>
      (chosen? l.paddles e.last).map fun x => (x, l.time) := by
  induction c with
  | nil e => rfl
  | @tick e inputs now _ ih =>
    rw [run_tick, Outcome.andThen_signals, looks_tick, List.findSome?_cons]
    rw [tick_idle hp] at ih ⊢
    rcases resume_cases e now with ⟨-, hn, hr⟩ | ⟨y, queue, hnext, hr⟩
    · rw [hr] at ih ⊢
      rw [chosen?_eq_none_iff.mpr hn]
      exact ih hp hq
    · rw [hq] at hnext
      rcases hnext.resolve_left nofun with ⟨-, -, hc⟩
      rw [hc, hr]
      rfl
  | still _ _ ht hs _ ih =>
    rw [run_still hs, looks_of_tick?_eq_none ht, hs]
    exact ih hp hq

/-- With nothing queued the engine is idle from the first look since the end of the gap. -/
theorem nextStart?_run_gap (c : Course e inputs) (hp : e.phase = .gap) (hq : e.queue = []) :
    nextStart? (e.run inputs).signals = (e.looksAfterGap inputs).findSome? fun l =>
      (chosen? l.paddles e.last).map fun x => (x, l.time) := by
  induction c with
  | nil e => rfl
  | @tick e inputs now rest ih =>
    by_cases hn : now < e.gapEnd
    · rw [run_tick, Outcome.andThen_signals, looksAfterGap_of_lt hn]
      rw [tick_gap_early hp hn] at ih ⊢
      exact ih hp hq
    · have hover := Instant.not_lt.mp hn
      have ht := tick_gap_over hp hover
      -- The gap is over, so the tick is already one of an idle engine.
      have hc : Course { e with phase := .idle } (.tick now :: inputs) := .tick now (ht ▸ rest)
      have hidle := nextStart?_run_idle hc rfl hq
      rw [looksAfterGap_of_le hover, looks_tick, run_tick, ht]
      exact hidle
  | still _ _ ht hs _ ih =>
    rw [run_still hs, looksAfterGap_of_tick?_eq_none ht hs]
    exact ih hp hq

theorem start?_of_mem_listen {s : Signal} (h : s ∈ (e.listen now).signals) : s.start? = none := by
  rcases mem_listen h with rfl | rfl <;> rfl

theorem isFinish_of_mem_listen {s : Signal} (h : s ∈ (e.listen now).signals) :
    s.isFinish = false := by
  rcases mem_listen h with rfl | rfl <;> rfl

/-- A tick that begins an element begins no other, and the word of it is still empty. -/
theorem tick_of_started {t : Instant} (h : e.Sound) (hx : .started x t ∈ (e.tick now).signals) :
    (e.tick now).signals = [.started x now, .key true now] ∧
      (e.tick now).engine.TracksWord ⟨x, now, none, none⟩ := by
  cases e.turn now with
  | waits _ eq => simp [eq] at hx
  | settles _ _ _ _ eq => simp [eq] at hx
  | begins y queue hp hnext eq =>
    rcases h.next hp hnext with ⟨-, hr, -⟩
    rw [eq] at hx ⊢
    obtain ⟨rfl, -⟩ : x = y ∧ t = now := by simpa [begin] using hx
    exact ⟨rfl, begin_tracksWord x now hr⟩
  | listens _ _ _ eq =>
    rw [eq] at hx
    exact nomatch start?_of_mem_listen hx
  | ends _ _ _ eq =>
    rw [eq, Outcome.andThen_signals, List.mem_append] at hx
    rcases hx with hx | hx
    · exact nomatch start?_of_mem_listen hx
    · simp [finish] at hx

/-- In a run from `e` the tick at `stop`, after the inputs `during`, is the first that ends an
element. -/
structure EndsAt (e : Engine) (during : List Input) (stop : Instant) : Prop where
  lasts : ∀ s ∈ (e.run during).signals, s.isFinish = false
  ends : ∃ s ∈ ((e.run during).engine.tick stop).signals, s.isFinish = true

/-- Up to the tick at `stop` memory was signalled, or in mode B a squeeze, while the reference was
no longer of both paddles at that tick. -/
def Owed (e : Engine) (during : List Input) (stop : Instant) : Prop :=
  let before := e.run during
  let log := before.signals ++ (before.engine.tick stop).signals
  log.any Signal.isMemory ∨
    before.engine.config.mode = .b ∧ log.any Signal.isSqueeze ∧ before.engine.reference ≠ .both

theorem any_isMemory_middle (w : OpenWord) : w.middle.any Signal.isMemory = w.memory?.isSome := by
  rcases w with ⟨x, t, _ | m, _ | s⟩ <;> rfl

theorem any_isSqueeze_middle (w : OpenWord) :
    w.middle.any Signal.isSqueeze = w.squeeze?.isSome := by
  rcases w with ⟨x, t, _ | m, _ | s⟩ <;> rfl

theorem nextStart?_middle (w : OpenWord) : nextStart? w.middle = none := by
  rcases w with ⟨x, t, _ | m, _ | s⟩ <;> rfl

/-- As long as no element ends, the run adds to the word that is open. -/
theorem run_lasting {t : Instant} (h : e.Sound) (tw : e.TracksWord ⟨x, t, none, none⟩)
    (ho : ∀ i ∈ inputs, i.Ordinary) (hl : ∀ s ∈ (e.run inputs).signals, s.isFinish = false) :
    ∃ w, w.element = x ∧ w.middle = (e.run inputs).signals ∧
      (e.run inputs).engine.TracksWord w := by
  obtain ⟨words, next?, heq, tn, -⟩ :=
    run_transcript h (show e.Tracks (some ⟨x, t, none, none⟩) from tw) ho
  cases words with
  | cons w words =>
    have hw : .finished w.element w.ended ∈ transcript (w :: words) next? := by
      simp [transcript, Word.signals]
    rw [← heq] at hw
    rcases List.mem_append.mp hw with hw | hw
    · simp [transcript, OpenWord.signals, OpenWord.middle] at hw
    · cases hl _ hw
  | nil =>
    cases next? with
    | none => simp [transcript, OpenWord.signals] at heq
    | some w =>
      simp only [transcript_nil_some, OpenWord.signals, OpenWord.middle, List.cons_append,
        List.nil_append, List.cons.injEq, Signal.started.injEq] at heq
      exact ⟨w, heq.1.1.symm, heq.2.2.symm, tn⟩

/-- Only a tick at or after the deadline of an element ends it. -/
theorem due_of_isFinish {s : Signal} (hs : s ∈ (e.tick now).signals) (hf : s.isFinish = true) :
    ∃ x, e.phase = .sending x ∧ e.elementEnd ≤ now := by
  cases e.turn now with
  | waits _ eq => simp [eq] at hs
  | settles _ _ _ _ eq => simp [eq] at hs
  | begins x _ _ _ eq =>
    have hs : s = .started x now ∨ s = .key true now := by simpa [eq, begin] using hs
    rcases hs with rfl | rfl <;> exact nomatch hf
  | listens _ _ _ eq =>
    rw [eq] at hs
    exact nomatch hf.symm.trans (isFinish_of_mem_listen hs)
  | ends x hp due _ => exact ⟨x, hp, due⟩

/-- The end of an element queues its opposite just if it is owed. -/
theorem EndsAt.gap {t : Instant} {during : List Input} {stop : Instant} (h : e.Sound)
    (tw : e.TracksWord ⟨x, t, none, none⟩) (ho : ∀ i ∈ during, i.Ordinary)
    (he : e.EndsAt during stop) :
    let g := (e.run during).engine.tick stop
    (g.engine.phase = .gap ∧ g.engine.last = x) ∧
      (e.Owed during stop → g.engine.queue = [x.opposite]) ∧
      (¬ e.Owed during stop → g.engine.queue = []) ∧
      nextStart? ((e.run during).signals ++ g.signals) = none := by
  rcases run_lasting h tw ho he.lasts with ⟨w, rfl, hm, tw⟩
  rcases he.ends with ⟨s, hs, hfin⟩
  have hf : (e.run during).engine.Sound := run_sound h during
  rcases due_of_isFinish hs hfin with ⟨-, -, due⟩
  have htick := tick_due hf tw.phase due
  have hlog : (e.run during).signals ++ ((e.run during).engine.tick stop).signals =
      ((e.run during).engine.heard stop w).middle ++
        [.finished w.element (e.run during).engine.elementEnd,
          .key false (e.run during).engine.elementEnd] := by
    rw [tw.middle_heard hf stop, hm, List.append_assoc, htick]
  have howed : e.Owed during stop ↔ ((e.run during).engine.listened stop).Pending := by
    have tl := tw.heard hf stop
    have hc := ((hf.sending _ tw.phase).listened stop).current
    simp only [Owed, Pending, hlog, List.any_append, any_isMemory_middle, any_isSqueeze_middle,
      tl.memory, tl.squeeze, hc]
    simp only [List.any_cons, List.any_nil, Signal.isMemory, Signal.isSqueeze, Bool.or_false]
    rfl
  have hlast := (hf.sending _ tw.phase).last
  dsimp only
  rw [hlog, nextStart?_append, nextStart?_middle, howed, htick]
  refine ⟨⟨rfl, hlast⟩, ?_, ?_, rfl⟩
  · intro hp
    exact if_pos hp
  · intro hp
    exact if_neg hp

/-- In a run either no element ends, or some tick is the first to end one. -/
theorem exists_endsAt (c : Course e inputs) :
    (∀ s ∈ (e.run inputs).signals, s.isFinish = false) ∨
      ∃ during stop after, inputs = during ++ .tick stop :: after ∧ e.EndsAt during stop := by
  induction c with
  | nil e => exact .inl (by simp)
  | @tick e inputs now _ ih =>
    by_cases hf : ∃ s ∈ (e.tick now).signals, s.isFinish = true
    · exact .inr ⟨[], now, inputs, rfl, by simp, hf⟩
    · have hn : ∀ s ∈ (e.tick now).signals, s.isFinish = false := by simpa using hf
      rcases ih with hl | ⟨during, stop, after, rfl, he⟩
      · left
        intro s hs
        exact (List.mem_append.mp hs).elim (hn s) (hl s)
      · refine .inr ⟨.tick now :: during, stop, after, rfl, fun s hs => ?_, he.ends⟩
        exact (List.mem_append.mp hs).elim (hn s) (he.lasts s)
  | @still e i inputs _ _ _ hs _ ih =>
    rcases ih with hl | ⟨during, stop, after, rfl, he⟩
    · exact .inl (by rwa [run_still hs])
    · refine .inr ⟨i :: during, stop, after, rfl, ?_, ?_⟩
      · rw [run_still hs]
        exact he.lasts
      · rw [run_still hs]
        exact he.ends

/-- Once an element has ended the next one follows by what is owed. -/
theorem nextStart?_run_endsAt {p q : Element} {t u : Instant} {during after : List Input}
    {stop : Instant} (h : e.Sound) (tw : e.TracksWord ⟨p, t, none, none⟩)
    (ho : ∀ i ∈ during ++ .tick stop :: after, i.Ordinary) (he : e.EndsAt during stop) :
    nextStart? (e.run (during ++ .tick stop :: after)).signals = some (q, u) ↔
      Follows p (e.Owed during stop)
        (((e.run during).engine.tick stop).engine.looksAfterGap after) q u := by
  obtain ⟨ho, -, ha⟩ : (∀ i ∈ during, i.Ordinary) ∧ _ ∧ ∀ i ∈ after, i.Ordinary := by
    simpa [or_imp, forall_and] using ho
  rcases he.gap h tw ho with ⟨⟨hp, hl⟩, hq, hq', hn⟩
  have hc := course ((e.run during).engine.tick stop).engine ha
  have hrun : nextStart? (e.run (during ++ .tick stop :: after)).signals =
      nextStart? (((e.run during).engine.tick stop).engine.run after).signals := by
    rw [run_append, Outcome.andThen_signals, run_tick, Outcome.andThen_signals,
      ← List.append_assoc, nextStart?_append, hn]
    rfl
  rw [hrun]
  by_cases hw : e.Owed during stop
  · rw [nextStart?_run_queued hc hp (hq hw), Option.map_eq_some_iff]
    simp only [Follows, hw, true_and, not_true_eq_false, false_and, or_false]
    constructor
    · rintro ⟨l, hl, heq⟩
      rcases Prod.mk.inj heq with ⟨rfl, rfl⟩
      exact ⟨l, rfl, hl, rfl⟩
    · rintro ⟨l, rfl, hl, rfl⟩
      exact ⟨l, hl, rfl⟩
  · rw [nextStart?_run_gap hc hp (hq' hw), hl, findSome?_chosen_eq_some_iff]
    simp [Follows, hw]

/-- An element is repeated only when its paddle alone is closed. -/
theorem only_of_follows_self {p : Element} {owed : Prop} {looks : List Look} {t : Instant}
    (h : Follows p owed looks p t) : ∃ l ∈ looks, l.time = t ∧ l.paddles = .only p := by
  rcases h with ⟨l, hl, ⟨-, -, hp⟩ | ⟨-, hf, ha⟩⟩
  · exact absurd hp p.ne_opposite
  · refine ⟨l, List.mem_of_find?_eq_some hf, hl, ?_⟩
    exact ha.resolve_right fun ⟨_, hp⟩ => p.ne_opposite hp

/-- After a tick of a reachable engine that begins `p`, and on ordinary inputs, an element `q`
begins next at `u` just if some tick ends `p` and the looks since the end of its gap tell so:
owed, it is the opposite and comes with the first look; not owed, it is what the paddles ask for
at the first look with a closed one. From rest the paddles are asked as after a dah. Every cut of
a run is a run, so this names the tick as well as its time. -/
theorem next_element :
    (∀ {e : Engine} {p : Element} {t now : Instant} {inputs : List Input}, e.Reachable →
      .started p t ∈ (e.tick now).signals → (∀ i ∈ inputs, i.Ordinary) →
      let b := (e.tick now).engine
      (e.tick now).signals = [.started p now, .key true now] ∧
      (∀ q u, nextStart? (b.run inputs).signals = some (q, u) ↔
        ∃ during stop after, inputs = during ++ .tick stop :: after ∧ b.EndsAt during stop ∧
          Follows p (b.Owed during stop)
            (((b.run during).engine.tick stop).engine.looksAfterGap after) q u) ∧
      ∀ u, nextStart? (b.run inputs).signals = some (p, u) →
        ∃ l ∈ b.looks inputs, l.time = u ∧ l.paddles = .only p) ∧
    ∀ (c : Config) (inputs : List Input), (∀ i ∈ inputs, i.Ordinary) → ∀ q u,
      nextStart? ((rest c).run inputs).signals = some (q, u) ↔
        Follows .dah False ((rest c).looks inputs) q u := by
  constructor
  · intro e p t now inputs hr hx ho b
    have hb : b.Sound := tick_sound hr.sound now
    rcases tick_of_started hr.sound hx with ⟨hsig, tw⟩
    have hiff : ∀ q u, nextStart? (b.run inputs).signals = some (q, u) ↔
        ∃ during stop after, inputs = during ++ .tick stop :: after ∧ b.EndsAt during stop ∧
          Follows p (b.Owed during stop)
            (((b.run during).engine.tick stop).engine.looksAfterGap after) q u := by
      intro q u
      constructor
      · intro hn
        rcases exists_endsAt (course b ho) with hl | ⟨during, stop, after, rfl, he⟩
        · rcases run_lasting hb tw ho hl with ⟨w, -, hm, -⟩
          rw [← hm, nextStart?_middle] at hn
          exact nomatch hn
        · exact ⟨during, stop, after, rfl, he, (nextStart?_run_endsAt hb tw ho he).mp hn⟩
      · rintro ⟨during, stop, after, rfl, he, hf⟩
        exact (nextStart?_run_endsAt hb tw ho he).mpr hf
    refine ⟨hsig, hiff, ?_⟩
    intro u hn
    rcases (hiff p u).mp hn with ⟨during, stop, after, rfl, -, hf⟩
    rcases only_of_follows_self hf with ⟨l, hl, htime, honly⟩
    refine ⟨l, ?_, htime, honly⟩
    rw [looks_append, looks_tick]
    have hl := (List.dropWhile_sublist _).subset hl
    exact List.mem_append_right _ (List.mem_cons_of_mem _ hl)
  · intro c inputs ho q u
    rw [nextStart?_run_idle (course (rest c) ho) rfl rfl, findSome?_chosen_eq_some_iff]
    simp [Follows, rest]

/-- Both paddles are closed for the first half of the first dit, and the dah is owed. -/
theorem next_element_after_squeeze :
    let inputs := [.tick (.clamp 30000), .paddles .empty, .tick (.clamp 60000),
      .tick (.clamp 90000), .tick (.clamp 130000)]
    let e := (rest .standard).setPaddles .both
    let b := (e.tick .zero).engine
    (e.Reachable ∧ .started .dit .zero ∈ (e.tick .zero).signals ∧ ∀ i ∈ inputs, i.Ordinary) ∧
      (∃ during stop after, inputs = during ++ .tick stop :: after ∧ b.EndsAt during stop ∧
        Follows .dit (b.Owed during stop)
          (((b.run during).engine.tick stop).engine.looksAfterGap after) .dah (.clamp 130000)) ∧
      Follows .dah False ((rest .standard).looks [.paddles .both, .tick .zero]) .dit .zero := by
  intro inputs e b
  have hr : e.Reachable := .step (.paddles .both) .standard
  have hx : .started .dit .zero ∈ (e.tick .zero).signals := by decide
  have ho : ∀ i ∈ inputs, i.Ordinary := by decide
  refine ⟨⟨hr, hx, ho⟩, ?_, ?_⟩
  · exact ((next_element.1 hr hx ho).2.1 .dah (.clamp 130000)).mp (by decide)
  · exact (next_element.2 .standard [.paddles .both, .tick .zero] (by decide) .dit .zero).mp
      (by decide)

end Engine
end Iambic
