import Iambic.Proofs.Engine.Soundness

/-!
# The language of the signals

Between two restarts the engine speaks in words, one for each element: it begins and the key goes
down, memory may hear the opposite paddle, a squeeze may be noticed, and it ends and the key goes
up. A run stops at the end of a word, or in the middle of one that is still to be ended.
-/
namespace Iambic

/-- An element that is begun, with the times at which memory and a squeeze were signalled. -/
structure OpenWord where
  element : Element
  begun : Instant
  memory? : Option Instant
  squeeze? : Option Instant

/-- An element with its end. -/
structure Word extends OpenWord where
  ended : Instant

namespace OpenWord

/-- What is signalled while the element lasts. -/
def middle (w : OpenWord) : List Signal :=
  (w.memory?.map fun t => .memory w.element.opposite true t).toList ++
    (w.squeeze?.map .squeeze).toList

def signals (w : OpenWord) : List Signal :=
  [.started w.element w.begun, .key true w.begun] ++ w.middle

/-- Memory hears only what it may remember. -/
def Allowed (remembers : ElementSet) (w : OpenWord) : Prop :=
  w.memory?.isSome → remembers.has w.element.opposite

end OpenWord

def Word.signals (w : Word) : List Signal :=
  w.toOpenWord.signals ++ [.finished w.element w.ended, .key false w.ended]

/-- Memory keeps to its policy, and the element ends when it has lasted its time. -/
structure Word.Proper (c : Config) (w : Word) : Prop where
  allowed : w.Allowed c.memory.remembers
  ended : w.ended = w.begun.later (c.duration w.element)

/-- Whole words, and one that may be open. -/
def transcript (words : List Word) (last? : Option OpenWord) : List Signal :=
  words.flatMap Word.signals ++ last?.elim [] OpenWord.signals

@[simp] theorem transcript_none (words : List Word) :
    transcript words none = words.flatMap Word.signals := by
  simp [transcript]

@[simp] theorem transcript_nil_some (w : OpenWord) : transcript [] (some w) = w.signals := rfl

theorem transcript_cons (w : Word) (words : List Word) (last? : Option OpenWord) :
    transcript (w :: words) last? = w.signals ++ transcript words last? := by
  simp [transcript]

theorem transcript_append (words more : List Word) (last? : Option OpenWord) :
    transcript (words ++ more) last? = words.flatMap Word.signals ++ transcript more last? := by
  simp [transcript]

def Signal.key? : Signal → Option Bool
  | .key down _ => some down
  | _ => none

/-- The positions of the key, in the order in which they were told. -/
def keys (signals : List Signal) : List Bool := signals.filterMap Signal.key?

theorem keys_append (a b : List Signal) : keys (a ++ b) = keys a ++ keys b :=
  List.filterMap_append

theorem OpenWord.keys_signals (w : OpenWord) : keys w.signals = [true] := by
  rcases w with ⟨x, t, _ | m, _ | s⟩ <;> rfl

theorem Word.keys_signals (w : Word) : keys w.signals = [true, false] := by
  rw [signals, keys_append, OpenWord.keys_signals]
  rfl

theorem keys_transcript_cons (w : Word) (words : List Word) (last? : Option OpenWord) :
    keys (transcript (w :: words) last?) = true :: false :: keys (transcript words last?) := by
  rw [transcript_cons, keys_append, Word.keys_signals]
  rfl

/-- The key goes down at every even place and up at every odd one. -/
theorem getElem?_keys_transcript {words : List Word} {last? : Option OpenWord} {n : Nat}
    {down : Bool} (h : (keys (transcript words last?))[n]? = some down) :
    down = decide (n % 2 = 0) := by
  induction words generalizing n with
  | nil =>
    cases last? with
    | none => simp [keys] at h
    | some w =>
      rw [transcript_nil_some, OpenWord.keys_signals] at h
      obtain ⟨rfl, rfl⟩ : n = 0 ∧ down = true := by
        cases n with
        | zero => exact ⟨rfl, by simpa using h.symm⟩
        | succ n => simp at h
      rfl
  | cons w words ih =>
    rw [keys_transcript_cons] at h
    match n with
    | 0 => simpa using h.symm
    | 1 => simpa using h.symm
    | n + 2 => rw [ih h, Nat.add_mod_right]

theorem getLast?_keys_transcript (words : List Word) (last? : Option OpenWord) :
    (keys (transcript words last?)).getLast? = some true ↔ last?.isSome := by
  induction words with
  | nil =>
    cases last? with
    | none => simp [keys]
    | some w => simp [OpenWord.keys_signals]
  | cons w words ih =>
    rw [keys_transcript_cons, ← ih]
    cases keys (transcript words last?) with
    | nil => simp
    | cons k ks => simp [List.getLast?_cons_cons]

namespace Engine
variable {e : Engine} {last? : Option OpenWord} {inputs : List Input}

/-- The open word is the element that is being sent, with what it has heard so far. -/
structure TracksWord (e : Engine) (w : OpenWord) : Prop where
  phase : e.phase = .sending w.element
  begun : e.elementStart = w.begun
  memory : w.memory?.isSome = e.requested.has w.element.opposite
  squeeze : w.squeeze?.isSome = e.squeezed

/-- A word is open just while an element is sent. -/
def Tracks (e : Engine) : Option OpenWord → Prop
  | none => e.phase.element? = none
  | some w => e.TracksWord w

/-- Any engine may be taken up in the middle of a word. -/
theorem exists_tracks (e : Engine) : ∃ last?, e.Tracks last? := by
  cases hp : e.phase with
  | idle => exact ⟨none, by rw [Tracks, hp]; rfl⟩
  | gap => exact ⟨none, by rw [Tracks, hp]; rfl⟩
  | sending x =>
    refine ⟨some ⟨x, e.elementStart, if e.requested.has x.opposite then some e.elementStart else none,
      if e.squeezed then some e.elementStart else none⟩, hp, rfl, ?_, ?_⟩
    · cases e.requested.has x.opposite <;> rfl
    · cases e.squeezed <;> rfl

theorem Tracks.isSome (t : e.Tracks last?) : last?.isSome = e.isKeyDown := by
  cases last? with
  | none => rw [isKeyDown, show e.phase.element? = none from t]; rfl
  | some w => rw [isKeyDown, t.phase]; rfl

theorem Tracks.eq_none (t : e.Tracks last?) (h : e.phase.element? = none) : last? = none := by
  cases last? with
  | none => rfl
  | some w => simp [t.phase, Phase.element?] at h

theorem Tracks.eq_some {x : Element} (t : e.Tracks last?) (h : e.phase = .sending x) :
    ∃ w, last? = some w ∧ w.element = x ∧ e.TracksWord w := by
  cases last? with
  | none => simp [Tracks, h, Phase.element?] at t
  | some w => exact ⟨w, rfl, Phase.sending.inj (t.phase.symm.trans h), t⟩

theorem Tracks.withPaddles (t : e.Tracks last?) {paddles reference : ElementSet} :
    ({ e with paddles := paddles, reference := reference } : Engine).Tracks last? := by
  cases last? with
  | none => exact t
  | some w => exact { t with }

theorem TracksWord.allowed {w : OpenWord} (t : e.TracksWord w) (h : e.Sound) :
    w.Allowed e.config.memory.remembers := by
  intro hm
  exact (h.sending _ t.phase).opposite (t.memory ▸ hm)

/-- The word after a tick that is spent listening. -/
def heard (e : Engine) (now : Instant) (w : OpenWord) : OpenWord :=
  { w with
    memory? := if e.hears now then some now else w.memory?
    squeeze? := if e.notices now then some now else w.squeeze? }

/-- Memory hears once, a squeeze is noticed once, and never memory after the squeeze. -/
theorem TracksWord.middle_heard {w : OpenWord} (t : e.TracksWord w) (h : e.Sound)
    (now : Instant) : (e.heard now w).middle = w.middle ++ (e.listen now).signals := by
  have hs := h.sending _ t.phase
  have hc := hs.current
  -- After a squeeze the opposite is requested or may not be, so memory no longer hears it.
  have hm : e.hears now → w.memory? = none ∧ w.squeeze? = none := by
    intro hh
    simp only [hears, hearsOpposite, hc, Bool.and_eq_true, Bool.not_eq_true'] at hh
    rcases hh with ⟨-, ⟨-, hrem⟩, hreq⟩
    have hq : e.squeezed = false := by
      apply Bool.eq_false_iff.mpr
      intro hq
      have := hs.squeeze hq hrem
      simp [hreq] at this
    constructor
    · simpa [hreq] using t.memory
    · simpa [hq] using t.squeeze
  have hn : e.notices now → w.squeeze? = none := by
    intro hh
    simp only [notices, Bool.and_eq_true, Bool.not_eq_true'] at hh
    simpa [hh.2] using t.squeeze
  rw [listen_eq, hc]
  cases hh : e.hears now <;> cases hk : e.notices now <;>
    simp [heard, OpenWord.middle, hh, hk, hm, hn]

theorem TracksWord.signals_heard {w : OpenWord} (t : e.TracksWord w) (h : e.Sound)
    (now : Instant) : (e.heard now w).signals = w.signals ++ (e.listen now).signals := by
  rw [OpenWord.signals, t.middle_heard h now, ← List.append_assoc]
  rfl

theorem TracksWord.heard {w : OpenWord} (t : e.TracksWord w) (h : e.Sound) (now : Instant) :
    (e.listened now).TracksWord (e.heard now w) where
  phase := t.phase
  begun := t.begun
  memory := by
    have hc := (h.sending _ t.phase).current
    change (if e.hears now then some now else w.memory?).isSome = _
    rw [has_listened, hc]
    cases e.hears now <;> simp [t.memory, Engine.heard]
  squeeze := by
    change (if e.notices now then some now else w.squeeze?).isSome = (e.squeezed || e.notices now)
    cases e.notices now <;> simp [t.squeeze]

theorem begin_tracksWord (x : Element) (now : Instant) (hr : e.requested = .empty) :
    (e.begin x now).engine.TracksWord ⟨x, now, none, none⟩ := by
  refine ⟨rfl, rfl, ?_, rfl⟩
  change false = e.requested.has x.opposite
  rw [hr, ElementSet.has_empty]

/-- A step adds to the open word, ends it, or begins one. -/
theorem step_transcript (h : e.Sound) (t : e.Tracks last?) {i : Input} (ho : i.Ordinary) :
    ∃ words next?, transcript [] last? ++ (e.step i).signals = transcript words next? ∧
      (e.step i).engine.Tracks next? ∧ ∀ w ∈ words, w.Proper e.config := by
  rcases e.step_ordinary ho with ⟨now, rfl⟩ | ⟨-, paddles, reference, hi⟩
  · change ∃ words next?, transcript [] last? ++ (e.tick now).signals = _ ∧
      (e.tick now).engine.Tracks next? ∧ _
    cases e.turn now with
    | waits hp eq =>
      have hn : last? = none := t.eq_none (by rcases hp with ⟨hp, -⟩ | ⟨hp, -⟩ <;> rw [hp] <;> rfl)
      exact ⟨[], none, by rw [eq, hn]; rfl, by rw [eq]; exact hn ▸ t, by simp⟩
    | settles hp _ _ _ eq =>
      have hn : last? = none := t.eq_none (by rw [hp]; rfl)
      exact ⟨[], none, by rw [eq, hn]; rfl, by rw [eq]; rfl, by simp⟩
    | begins x queue hp hnext eq =>
      have hn : last? = none := t.eq_none (by rcases hp with hp | ⟨hp, -⟩ <;> rw [hp] <;> rfl)
      rcases h.next hp hnext with ⟨-, hr, -⟩
      refine ⟨[], some ⟨x, now, none, none⟩, by rw [eq, hn]; rfl, ?_, by simp⟩
      rw [eq]
      exact begin_tracksWord x now hr
    | listens x hp _ eq =>
      rcases t.eq_some hp with ⟨w, rfl, -, tw⟩
      refine ⟨[], some (e.heard now w), ?_, ?_, by simp⟩
      · rw [eq]
        exact (tw.signals_heard h now).symm
      · rw [eq, listen_engine]
        exact tw.heard h now
    | ends x hp due _ =>
      rcases t.eq_some hp with ⟨w, rfl, rfl, tw⟩
      have th := tw.heard h now
      rw [tick_due h hp due]
      refine ⟨[⟨e.heard now w, e.elementEnd⟩], none, ?_, rfl, ?_⟩
      · have hw : (e.heard now w).element = w.element := rfl
        simp [Word.signals, tw.signals_heard h now, hw]
      · simp only [List.mem_singleton, forall_eq]
        refine ⟨th.allowed (h.listened hp now), ?_⟩
        rw [th.begun.symm]
        exact (h.sending _ hp).deadline
  · exact ⟨[], last?, by simp [hi], by rw [hi]; exact t.withPaddles, by simp⟩

theorem run_transcript (h : e.Sound) (t : e.Tracks last?) (ho : ∀ i ∈ inputs, i.Ordinary) :
    ∃ words next?, transcript [] last? ++ (e.run inputs).signals = transcript words next? ∧
      (e.run inputs).engine.Tracks next? ∧ ∀ w ∈ words, w.Proper e.config := by
  induction inputs generalizing e last? with
  | nil => exact ⟨[], last?, by simp, t, by simp⟩
  | cons i inputs ih =>
    rcases List.forall_mem_cons.mp ho with ⟨hi, ho⟩
    rcases step_transcript h t hi with ⟨words, mid?, hw, tm, hp⟩
    rcases ih (step_sound h i) tm ho with ⟨more, next?, hm, tn, hq⟩
    refine ⟨words ++ more, next?, ?_, tn, ?_⟩
    · rw [run_cons, Outcome.andThen_signals, ← List.append_assoc, hw, transcript_append, ← hm]
      simp [transcript]
    · rw [step_config hi] at hq
      intro w hw
      exact (List.mem_append.mp hw).elim (hp w) (hq w)

/-- How a run from rest is told. -/
structure Spoken (c : Config) (o : Outcome) : Prop where
  words : ∃ words last?, o.signals = transcript words last? ∧ (∀ w ∈ words, w.Proper c) ∧
    (∀ w ∈ last?, w.Allowed c.memory.remembers) ∧ last?.isSome = o.engine.isKeyDown
  /-- The key alternates, down first. -/
  alternate : ∀ n down, (keys o.signals)[n]? = some down → down = decide (n % 2 = 0)
  keyDown : o.engine.isKeyDown ↔ (keys o.signals).getLast? = some true

theorem spoken_run {c : Config} (ho : ∀ i ∈ inputs, i.Ordinary) :
    Spoken c ((rest c).run inputs) := by
  have hs : (rest c).Sound := rest_sound c
  obtain ⟨words, last?, heq, ht, hp⟩ :=
    run_transcript hs (show (rest c).Tracks none from rfl) ho
  rw [transcript_none, List.flatMap_nil, List.nil_append] at heq
  refine ⟨⟨words, last?, heq, hp, ?_, ht.isSome⟩, ?_, ?_⟩
  · rintro w rfl
    have hr : ((rest c).run inputs).engine.Sound := run_sound hs inputs
    have := TracksWord.allowed ht hr
    rwa [run_config ho] at this
  · intro n down h
    rw [heq] at h
    exact getElem?_keys_transcript h
  · rw [heq, getLast?_keys_transcript, ht.isSome]

/-- From rest to the next restart the signals are words: an element begins, memory may hear the
opposite paddle, then a squeeze may be noticed, and the element ends. Only the last word may be
open, and it is just while the key is down. A restart signals nothing and drops the open word:
what follows is told as from rest. -/
theorem run_speaks_in_words {c : Config} (ho : ∀ i ∈ inputs, i.Ordinary) :
    Spoken c ((rest c).run inputs) ∧ ∀ restart after, ¬ Input.Ordinary restart →
      let again := (rest (restart.nextConfig c)).run after
      (rest c).run (inputs ++ restart :: after) =
        ⟨again.engine, ((rest c).run inputs).signals ++ again.signals⟩ := by
  apply And.intro (spoken_run ho)
  intro restart after hr
  have hc : ((rest c).run inputs).engine.config = c := run_config ho
  have hstep := step_not_ordinary ((rest c).run inputs).engine hr
  rw [hc] at hstep
  rw [run_append, Outcome.andThen, run_still hstep]

/-- A squeeze during a dit, its end and the dah after it, which a reset cuts off. -/
theorem run_speaks_in_words_of_squeeze :
    let inputs := [.paddles .both, .tick .zero, .tick (.clamp 30000), .tick (.clamp 60000),
      .tick (.clamp 120000)]
    ((∀ i ∈ inputs, Input.Ordinary i) ∧ ¬ Input.Ordinary .reset ∧
      ((rest .standard).run inputs).engine.phase = .sending .dah) ∧
      Spoken .standard ((rest .standard).run inputs) ∧
      (rest .standard).run (inputs ++ [.reset, .tick .zero]) =
        ⟨((rest .standard).run [.tick .zero]).engine, ((rest .standard).run inputs).signals ++
          ((rest .standard).run [.tick .zero]).signals⟩ := by
  intro inputs
  have ho : ∀ i ∈ inputs, Input.Ordinary i := by decide
  have h := run_speaks_in_words (c := .standard) ho
  exact ⟨⟨ho, id, by decide⟩, h.1, h.2 .reset [.tick .zero] id⟩

end Engine
end Iambic
