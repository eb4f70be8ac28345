import Iambic.Engine.Run

/-!
# What one input does

An ordinary input leaves the engine at work: only a tick sends, and every other one touches
nothing but the paddles and the reference. The remaining inputs put the engine to rest. Listening
and the end of an element are given in closed form, and a tick makes one of five turns.
-/
namespace Iambic

/-- The input neither resets the engine nor gives it a configuration that it accepts. -/
def Input.Ordinary : Input → Prop
  | .edge _ => True
  | .paddles _ => True
  | .tick _ => True
  | .reset => False
  | .configure c => c.error? ≠ none

instance : (i : Input) → Decidable i.Ordinary
  | .edge _ | .paddles _ | .tick _ => .isTrue trivial
  | .reset => .isFalse id
  | .configure c => inferInstanceAs (Decidable (c.error? ≠ none))

/-- The configuration after a restart: the new one if there is one, or else the old one. -/
def Input.nextConfig (c : Config) : Input → Config
  | .configure c' => c'
  | _ => c

/-- The time of a tick. -/
def Input.tick? : Input → Option Instant
  | .tick now => some now
  | _ => none

namespace ElementSet

theorem toList_eq_opposite {s : ElementSet} {x : Element} (h : s.has x = false) :
    s.toList = if s.has x.opposite then [x.opposite] else [] := by
  cases x with
  | dit => cases hd : s.has .dah <;> simp [toList, Element.opposite, h, hd]
  | dah => cases hd : s.has .dit <;> simp [toList, Element.opposite, h, hd]

def only (x : Element) : ElementSet := empty.put x true

theorem empty_ne_both : empty ≠ both := by decide

end ElementSet

namespace Outcome

@[simp] theorem andThen_engine (o : Outcome) (next : Engine → Outcome) :
    (o.andThen next).engine = (next o.engine).engine := rfl

@[simp] theorem andThen_signals (o : Outcome) (next : Engine → Outcome) :
    (o.andThen next).signals = o.signals ++ (next o.engine).signals := rfl

end Outcome

namespace Engine
variable {e : Engine} {i : Input} {x : Element} {now : Instant}

@[simp] theorem quiet_engine (e : Engine) : e.quiet.engine = e := rfl
@[simp] theorem quiet_signals (e : Engine) : e.quiet.signals = [] := rfl

theorem configure_of_refused {c : Config} (e : Engine) (h : c.error? ≠ none) :
    (e.configure c).1 = e := by
  rcases Option.ne_none_iff_exists'.mp h with ⟨error, hc⟩
  rw [configure_of_error e hc]

/-- Of an edge, a position of the paddles and a refused configuration nothing is seen but in the
paddles and the reference. -/
theorem step_ordinary (e : Engine) (h : i.Ordinary) :
    (∃ now, i = .tick now) ∨ i.tick? = none ∧ ∃ paddles reference,
      e.step i = ({ e with paddles := paddles, reference := reference } : Engine).quiet := by
  cases i with
  | edge edge =>
    cases hl : edge.line with
    | paddle x => exact .inr ⟨rfl, _, _, by simp only [step, onEdge, hl]; rfl⟩
    | straightKey => exact .inr ⟨rfl, e.paddles, e.reference, by simp only [step, onEdge, hl]⟩
  | paddles paddles => exact .inr ⟨rfl, _, _, rfl⟩
  | tick now => exact .inl ⟨now, rfl⟩
  | reset => exact h.elim
  | configure c =>
    exact .inr ⟨rfl, e.paddles, e.reference, by rw [step, configure_of_refused e h]⟩

theorem step_not_ordinary (e : Engine) (h : ¬ i.Ordinary) :
    e.step i = (rest (i.nextConfig e.config)).quiet := by
  cases i with
  | edge edge => exact absurd trivial h
  | paddles paddles => exact absurd trivial h
  | tick now => exact absurd trivial h
  | reset => rfl
  | configure c =>
    have hc : c.error? = none := Decidable.not_not.mp h
    rw [step, configure_of_valid e hc]
    rfl

/-- A run on ordinary inputs, split into its ticks and what happens between them. -/
inductive Course : Engine → List Input → Prop where
  | nil (e : Engine) : Course e []
  | tick {e : Engine} {inputs : List Input} (now : Instant)
      (rest : Course (e.tick now).engine inputs) : Course e (.tick now :: inputs)
  | still {e : Engine} {i : Input} {inputs : List Input} (paddles reference : ElementSet)
      (noTick : i.tick? = none)
      (eq : e.step i = ({ e with paddles := paddles, reference := reference } : Engine).quiet)
      (rest : Course { e with paddles := paddles, reference := reference } inputs) :
      Course e (i :: inputs)

theorem course (e : Engine) {inputs : List Input} (ho : ∀ i ∈ inputs, i.Ordinary) :
    Course e inputs := by
  induction inputs generalizing e with
  | nil => exact .nil e
  | cons i inputs ih =>
    rcases List.forall_mem_cons.mp ho with ⟨hi, hrest⟩
    rcases e.step_ordinary hi with ⟨now, rfl⟩ | ⟨ht, paddles, reference, hs⟩
    · exact .tick now (ih _ hrest)
    · exact .still paddles reference ht hs (ih _ hrest)

@[simp] theorem run_tick (e : Engine) (now : Instant) (inputs : List Input) :
    e.run (.tick now :: inputs) = (e.tick now).andThen fun e => e.run inputs := rfl

theorem run_still {e f : Engine} {i : Input} (h : e.step i = f.quiet) (inputs : List Input) :
    e.run (i :: inputs) = f.run inputs := by
  rw [run_cons, h]
  rfl

theorem run_edges (e : Engine) (edges : List Edge) :
    e.run (edges.map .edge) = (edges.foldl onEdge e).quiet := by
  induction edges generalizing e with
  | nil => rfl
  | cons edge edges ih => exact ih (e.onEdge edge)

/-- At this tick the opposite paddle is requested. -/
def hears (e : Engine) (now : Instant) : Bool := e.windowOpen now && e.hearsOpposite

/-- At this tick both paddles are noticed. -/
def notices (e : Engine) (now : Instant) : Bool :=
  e.windowOpen now && decide (e.paddles = .both) && !e.squeezed

/-- What listening leaves in the engine. -/
def listened (e : Engine) (now : Instant) : Engine :=
  { e with
    requested := if e.hears now then e.requested.put e.current.opposite true else e.requested
    squeezed := e.squeezed || e.notices now }

theorem listen_eq (e : Engine) (now : Instant) :
    e.listen now = ⟨e.listened now,
      (if e.hears now then [.memory e.current.opposite true now] else []) ++
        if e.notices now then [.squeeze now] else []⟩ := by
  by_cases hw : e.windowOpen now
  · by_cases ho : e.hearsOpposite <;> by_cases hp : e.paddles = .both <;> cases hs : e.squeezed <;>
      simp [listen, listened, hears, notices, hw, ho, hp, hs, armOpposite, noticeSqueeze, quiet,
        Outcome.andThen] <;> cases e <;> simp_all
  · simp [listen, listened, hears, notices, hw, quiet]

@[simp] theorem listen_engine (e : Engine) (now : Instant) :
    (e.listen now).engine = e.listened now := by
  rw [listen_eq]

theorem listen_quiet (hh : e.hears now = false) (hn : e.notices now = false) :
    e.listen now = e.quiet := by
  rw [listen_eq]
  simp [listened, hh, hn, quiet]

theorem mem_listen {s : Signal} (h : s ∈ (e.listen now).signals) :
    s = .memory e.current.opposite true now ∨ s = .squeeze now := by
  rw [listen_eq, List.mem_append] at h
  rcases h with h | h
  · exact .inl (by simpa using (List.mem_ite_nil_right.mp h).2)
  · exact .inr (by simpa using (List.mem_ite_nil_right.mp h).2)

/-- The end of the current element will queue its opposite: it is requested, or mode B adds it. -/
def Pending (e : Engine) : Prop :=
  e.requested.has e.current.opposite ∨ e.config.mode = .b ∧ e.squeezed ∧ e.reference ≠ .both

instance (e : Engine) : Decidable e.Pending := inferInstanceAs (Decidable (_ ∨ _))

/-- Memory and mode B never both queue an element. -/
theorem earned_eq (h : e.requested.has e.current = false) :
    e.earned = if e.Pending then [e.current.opposite] else [] := by
  rw [earned, ElementSet.toList_eq_opposite h]
  cases hr : e.requested.has e.current.opposite <;> simp [bonus?, Pending, hr]
  split <;> simp

theorem chosen?_eq_none_iff {paddles : ElementSet} {last : Element} :
    chosen? paddles last = none ↔ paddles = .empty := by
  rcases paddles with ⟨_ | _, _ | _⟩ <;> simp [chosen?, ElementSet.empty]

/-- A paddle that is closed alone sends its element, and both paddles alternate. -/
theorem chosen?_eq_some_iff {paddles : ElementSet} {last x : Element} :
    chosen? paddles last = some x ↔
      paddles = .only x ∨ paddles = .both ∧ x = last.opposite := by
  rcases paddles with ⟨_ | _, _ | _⟩ <;> cases x <;> cases last <;> decide

/-- What a tick can do, in any state of the engine. -/
inductive Turn (e : Engine) (now : Instant) : Prop where
  /-- Nothing is to be sent, or not yet. -/
  | waits (phase : e.phase = .idle ∧ e.queue = [] ∧ e.paddles = .empty ∨
      e.phase = .gap ∧ now < e.gapEnd) (eq : e.tick now = e.quiet)
  /-- The gap is over and nothing is to be sent. -/
  | settles (phase : e.phase = .gap) (passed : e.gapEnd ≤ now) (queue : e.queue = [])
      (paddles : e.paddles = .empty)
      (eq : e.tick now = ({ e with phase := .idle } : Engine).quiet)
  /-- An element begins, from the queue or else from the paddles. -/
  | begins (x : Element) (queue : List Element)
      (phase : e.phase = .idle ∨ e.phase = .gap ∧ e.gapEnd ≤ now)
      (next : e.queue = x :: queue ∨
        e.queue = [] ∧ queue = [] ∧ chosen? e.paddles e.last = some x)
      (eq : e.tick now = ({ e with queue := queue } : Engine).begin x now)
  /-- The element goes on. -/
  | listens (x : Element) (phase : e.phase = .sending x) (early : now < e.elementEnd)
      (eq : e.tick now = e.listen now)
  /-- The element is due, and the gap begins. -/
  | ends (x : Element) (phase : e.phase = .sending x) (due : e.elementEnd ≤ now)
      (eq : e.tick now = (e.listen now).andThen finish)

theorem resume_empty (hq : e.queue = []) (hp : e.paddles = .empty) : e.resume now = e.quiet := by
  simp only [resume, hq, chosen?_eq_none_iff.mpr hp]

theorem resume_cases (e : Engine) (now : Instant) :
    (e.queue = [] ∧ e.paddles = .empty ∧ e.resume now = e.quiet) ∨
      ∃ x queue, (e.queue = x :: queue ∨
          e.queue = [] ∧ queue = [] ∧ chosen? e.paddles e.last = some x) ∧
        e.resume now = ({ e with queue := queue } : Engine).begin x now := by
  cases hq : e.queue with
  | cons x queue => exact .inr ⟨x, queue, .inl rfl, by simp only [resume, hq]⟩
  | nil =>
    rcases hc : chosen? e.paddles e.last with _ | x
    · have hp := chosen?_eq_none_iff.mp hc
      exact .inl ⟨rfl, hp, resume_empty hq hp⟩
    · right
      exists x, [], .inr ⟨rfl, rfl, rfl⟩
      simp only [resume, hq, hc]
      rw [← hq]

theorem tick_idle (hp : e.phase = .idle) : e.tick now = e.resume now := by
  simp only [tick, hp]

theorem tick_gap_early (hp : e.phase = .gap) (h : now < e.gapEnd) : e.tick now = e.quiet := by
  simp only [tick, hp, if_pos h]

/-- When the gap is over a tick does what it does to an idle engine. -/
theorem tick_gap_over (hp : e.phase = .gap) (h : e.gapEnd ≤ now) :
    e.tick now = ({ e with phase := .idle } : Engine).tick now := by
  simp only [tick, hp, if_neg (Instant.not_lt.mpr h)]

theorem tick_sending_early (hp : e.phase = .sending x) (h : now < e.elementEnd) :
    e.tick now = e.listen now := by
  have hend : ¬ (e.listened now).elementEnd ≤ now := Instant.not_le.mpr h
  simp [tick, hp, Outcome.andThen, finishIfDue, hend, listen_eq]

theorem tick_sending_due (hp : e.phase = .sending x) (h : e.elementEnd ≤ now) :
    e.tick now = (e.listen now).andThen finish := by
  have hend : (e.listened now).elementEnd ≤ now := h
  simp [tick, hp, Outcome.andThen, finishIfDue, hend]

theorem turn (e : Engine) (now : Instant) : e.Turn now := by
  cases hp : e.phase with
  | idle =>
    have ht : e.tick now = e.resume now := tick_idle hp
    rcases resume_cases e now with ⟨hq, hn, hr⟩ | ⟨x, queue, hnext, hr⟩
    · exact .waits (.inl ⟨hp, hq, hn⟩) (ht.trans hr)
    · exact .begins x queue (.inl hp) hnext (ht.trans hr)
  | sending x =>
    by_cases hd : e.elementEnd ≤ now
    · exact .ends x hp hd (tick_sending_due hp hd)
    · have hearly := Instant.not_le.mp hd
      exact .listens x hp hearly (tick_sending_early hp hearly)
  | gap =>
    by_cases hn : now < e.gapEnd
    · exact .waits (.inr ⟨hp, hn⟩) (tick_gap_early hp hn)
    · have hover := Instant.not_lt.mp hn
      have ht := tick_gap_over hp hover
      rcases resume_cases { e with phase := .idle } now with ⟨hq, hc, hr⟩ | ⟨x, queue, hnext, hr⟩
      · exact .settles hp hover hq hc (ht.trans hr)
      · exact .begins x queue (.inr ⟨hp, hover⟩) hnext (ht.trans hr)

/-- A tick reads the configuration, the paddles and the reference, and changes none of them. -/
theorem tick_frame (e : Engine) (now : Instant) :
    (e.tick now).engine.config = e.config ∧ (e.tick now).engine.paddles = e.paddles ∧
      (e.tick now).engine.reference = e.reference := by
  cases e.turn now with
  | waits _ eq => rw [eq]; exact ⟨rfl, rfl, rfl⟩
  | settles _ _ _ _ eq => rw [eq]; exact ⟨rfl, rfl, rfl⟩
  | begins _ _ _ _ eq => rw [eq]; exact ⟨rfl, rfl, rfl⟩
  | listens _ _ _ eq => rw [eq, listen_engine]; exact ⟨rfl, rfl, rfl⟩
  | ends _ _ _ eq => rw [eq, Outcome.andThen_engine, listen_engine]; exact ⟨rfl, rfl, rfl⟩

theorem tick_config (e : Engine) (now : Instant) : (e.tick now).engine.config = e.config :=
  (tick_frame e now).1

theorem step_config (ho : i.Ordinary) : (e.step i).engine.config = e.config := by
  rcases e.step_ordinary ho with ⟨now, rfl⟩ | ⟨-, _, _, hi⟩
  · exact tick_config e now
  · rw [hi]
    rfl

theorem run_config {inputs : List Input} (ho : ∀ i ∈ inputs, i.Ordinary) :
    (e.run inputs).engine.config = e.config := by
  induction inputs generalizing e with
  | nil => rfl
  | cons i inputs ih =>
    rcases List.forall_mem_cons.mp ho with ⟨hi, ho⟩
    exact (ih ho).trans (step_config hi)

end Engine
end Iambic
