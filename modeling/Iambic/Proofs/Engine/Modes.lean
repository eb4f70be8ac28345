import Iambic.Proofs.Engine.Soundness

/-!
# What the modes can change

The iambic mode, the squeeze mode and the reference have a say in nothing but the bonus. So two
engines that differ in these alone do the same as long as they agree on the bonus. They do where
memory may take the opposite element, as memory has then taken it at the latest when the squeeze
was noticed. And a snapshot differs from the live paddles only while no paddle is closed, so it can
be told from them only after both paddles have been let go at once.
-/
namespace Iambic

/-- The input leaves the configuration as it is. -/
def Input.KeepsConfig : Input → Prop
  | .configure c => c.error? ≠ none
  | _ => True

instance : (i : Input) → Decidable i.KeepsConfig
  | .configure c => inferInstanceAs (Decidable (c.error? ≠ none))
  | .edge _ | .paddles _ | .tick _ | .reset => .isTrue trivial

/-- The outcome with another engine in the place of its own. -/
def Outcome.mapEngine (o : Outcome) (f : Engine → Engine) : Outcome := ⟨f o.engine, o.signals⟩

theorem Outcome.mapEngine_andThen {o : Outcome} {f g : Engine → Engine}
    {next : Engine → Outcome} (h : next (f o.engine) = (next o.engine).mapEngine g) :
    (o.mapEngine f).andThen next = (o.andThen next).mapEngine g := by
  simp only [andThen, mapEngine, h]

namespace Engine
variable {e : Engine} {x : Element} {now : Instant} {i : Input} {inputs : List Input}
  {mode : IambicMode} {squeeze : SqueezeMode} {reference : ElementSet}

/-- The engine in other modes and with another reference. -/
def vary (e : Engine) (mode : IambicMode) (squeeze : SqueezeMode) (reference : ElementSet) :
    Engine :=
  { e with
    config := { e.config with mode := mode, memory.squeeze := squeeze }
    reference := reference }

theorem listen_vary (e : Engine) (now : Instant) :
    (e.vary mode squeeze reference).listen now =
      (e.listen now).mapEngine fun f => f.vary mode squeeze reference := by
  rw [listen_eq, listen_eq]
  rfl

theorem resume_vary (e : Engine) (now : Instant) :
    (e.vary mode squeeze reference).resume now =
      (e.resume now).mapEngine fun f => f.vary mode squeeze reference := by
  have hchosen : chosen? (e.vary mode squeeze reference).paddles
      (e.vary mode squeeze reference).last = chosen? e.paddles e.last := rfl
  cases hq : e.queue with
  | cons x queue =>
    have hv : (e.vary mode squeeze reference).queue = x :: queue := hq
    simp only [resume, hq, hv]
    rfl
  | nil =>
    have hv : (e.vary mode squeeze reference).queue = [] := hq
    simp only [resume, hq, hv, hchosen]
    cases chosen? e.paddles e.last <;> rfl

/-- The end of an element is the same if the engines agree on its bonus. -/
theorem finishIfDue_vary (h : (e.vary mode squeeze reference).bonus? = e.bonus?)
    (now : Instant) : (e.vary mode squeeze reference).finishIfDue now =
      (e.finishIfDue now).mapEngine fun f => f.vary mode squeeze reference := by
  have hend : (e.vary mode squeeze reference).elementEnd = e.elementEnd := rfl
  have hearned : (e.vary mode squeeze reference).earned = e.earned := by
    rw [earned, h]
    rfl
  rw [finishIfDue, finishIfDue, hend]
  split
  · rw [finish, hearned]
    rfl
  · rfl

/-- A tick of engines that agree on the bonus of the element that is sent. -/
theorem tick_vary (h : ∀ x, e.phase = .sending x →
      ((e.listened now).vary mode squeeze reference).bonus? = (e.listened now).bonus?) :
    (e.vary mode squeeze reference).tick now =
      (e.tick now).mapEngine fun f => f.vary mode squeeze reference := by
  have hp : (e.vary mode squeeze reference).phase = e.phase := rfl
  cases hs : e.phase with
  | idle =>
    simp only [tick, hp, hs]
    exact resume_vary e now
  | sending x =>
    simp only [tick, hp, hs, listen_vary]
    apply Outcome.mapEngine_andThen
    rw [listen_engine]
    exact finishIfDue_vary (h x hs) now
  | gap =>
    by_cases hg : now < e.gapEnd
    · rw [tick_gap_early hs hg, tick_gap_early (hp.trans hs) hg]
      rfl
    · have hover := Instant.not_lt.mp hg
      rw [tick_gap_over hs hover, tick_gap_over (hp.trans hs) hover]
      exact resume_vary { e with phase := .idle } now

theorem step_keepsConfig (hk : i.KeepsConfig) : (e.step i).engine.config = e.config := by
  cases i with
  | reset => rfl
  | edge _ | paddles _ | tick _ => exact step_config trivial
  | configure c => exact step_config hk

/-- Where memory may take the opposite element there is no bonus: a squeeze is noticed no sooner
than memory has taken it. -/
theorem Sends.bonus?_eq_none (h : e.Sends x) (hm : e.config.memory.remembers.has x.opposite) :
    e.bonus? = none := by
  obtain rfl := h.current
  apply if_neg
  rintro ⟨-, hs, -, hr⟩
  simp [h.squeeze hs hm] at hr

theorem bonus?_eq_none_of_mode (h : e.config.mode = .a) : e.bonus? = none := by
  apply if_neg
  rintro ⟨hb, -⟩
  rw [h] at hb
  cases hb

/-- If memory takes both elements, no modes and no reference give a bonus. -/
theorem bonus?_vary_of_both (h : e.Sound) (hm : e.config.memory.remembers = .both)
    (hx : e.phase = .sending x) :
    ((e.listened now).vary mode squeeze reference).bonus? = (e.listened now).bonus? := by
  have hs := (h.sending x hx).listened now
  have hs' : ((e.listened now).vary mode squeeze reference).Sends x := { hs with }
  have ho : (e.listened now).config.memory.remembers.has x.opposite := by
    rw [show (e.listened now).config.memory.remembers = .both from hm]
    exact ElementSet.has_both x.opposite
  rw [hs.bonus?_eq_none ho, hs'.bonus?_eq_none ho]

/-! ## The iambic mode -/

/-- The engine in another iambic mode. -/
def withMode (e : Engine) (mode : IambicMode) : Engine := { e with config.mode := mode }

theorem tick_withMode (h : e.Sound) (hm : e.config.memory.remembers = .both) (now : Instant) :
    (e.withMode mode).tick now = (e.tick now).mapEngine fun f => f.withMode mode := by
  obtain ⟨hc, -, hr⟩ := tick_frame e now
  calc (e.withMode mode).tick now
      = (e.tick now).mapEngine fun f => f.vary mode e.config.memory.squeeze e.reference :=
        tick_vary fun x hx => bonus?_vary_of_both h hm hx
    _ = (e.tick now).mapEngine fun f => f.withMode mode := by
      rw [← hr, ← hc]
      rfl

theorem step_withMode (h : e.Sound) (hm : e.config.memory.remembers = .both)
    (hk : i.KeepsConfig) :
    (e.withMode mode).step i = (e.step i).mapEngine fun f => f.withMode mode := by
  cases i with
  | edge edge =>
    simp only [step, onEdge]
    cases edge.line <;> rfl
  | paddles paddles => rfl
  | tick now => exact tick_withMode h hm now
  | reset => rfl
  | configure c =>
    rw [step, step, configure_of_refused _ hk, configure_of_refused _ hk]
    rfl

theorem run_withMode (h : e.Sound) (hm : e.config.memory.remembers = .both)
    (hk : ∀ i ∈ inputs, i.KeepsConfig) :
    (e.withMode mode).run inputs = (e.run inputs).mapEngine fun f => f.withMode mode := by
  induction inputs generalizing e with
  | nil => rfl
  | cons i inputs ih =>
    rcases List.forall_mem_cons.mp hk with ⟨hi, hk⟩
    rw [run_cons, step_withMode h hm hi]
    apply Outcome.mapEngine_andThen
    apply ih (step_sound h i) _ hk
    rw [step_keepsConfig hi, hm]

/-- What the end of an element queues where memory may take the opposite one. -/
theorem queue_tick_due (h : e.Sound) (hp : e.phase = .sending x)
    (hm : e.config.memory.remembers.has x.opposite) (due : e.elementEnd ≤ now) :
    (e.tick now).engine.queue = (e.listened now).requested.toList := by
  have hs := (h.sending x hp).listened now
  have hb : (e.listened now).bonus? = none := hs.bonus?_eq_none hm
  obtain rfl := hs.current
  rw [tick_due h hp due]
  change (if (e.listened now).Pending then _ else _) = _
  rw [← earned_eq hs.own, earned, hb]
  exact List.append_nil _

/-- If memory takes both elements the iambic mode cannot be observed: in the other mode an engine
signals the same in every run, and is left the same but for the mode. Every cut of a run is a run,
so this holds after each step. And in every reachable engine an element whose opposite memory may
take ends without a bonus, and queues what memory has requested. -/
theorem iambic_mode_unobservable :
    (∀ {e : Engine} {inputs : List Input}, e.Reachable → e.config.memory.remembers = .both →
      (∀ i ∈ inputs, i.KeepsConfig) → ∀ mode,
        (e.withMode mode).run inputs = (e.run inputs).mapEngine fun f => f.withMode mode) ∧
    ∀ {e : Engine} {x : Element} {now : Instant}, e.Reachable → e.phase = .sending x →
      e.config.memory.remembers.has x.opposite →
        (e.listen now).engine.bonus? = none ∧ (e.elementEnd ≤ now →
          (e.tick now).engine.queue = (e.listen now).engine.requested.toList) := by
  constructor
  · intro e inputs hr hm hk mode
    exact run_withMode hr.sound hm hk
  · intro e x now hr hp hm
    rw [listen_engine]
    constructor
    · exact ((hr.sound.sending x hp).listened now).bonus?_eq_none hm
    · exact queue_tick_due hr.sound hp hm

/-- Both paddles are let go in the first dit after a squeeze, and the dah follows in either mode. -/
theorem iambic_mode_unobservable_after_squeeze :
    let inputs := [.paddles .both, .tick .zero, .tick (.clamp 30000), .paddles .empty,
      .tick (.clamp 60000), .tick (.clamp 120000), .reset]
    let e := ((rest .standard).run (inputs.take 4)).engine
    ((rest .standard).Reachable ∧ (∀ i ∈ inputs, i.KeepsConfig) ∧ e.phase = .sending .dit ∧
      e.squeezed ∧ e.elementEnd = .clamp 60000) ∧
      ((rest .standard).withMode .a).run inputs =
        ((rest .standard).run inputs).mapEngine (fun f => f.withMode .a) ∧
      (e.listen (.clamp 60000)).engine.bonus? = none ∧
      (e.tick (.clamp 60000)).engine.queue =
        (e.listen (.clamp 60000)).engine.requested.toList := by
  intro inputs e
  have hr : (rest .standard).Reachable := .standard
  have hk : ∀ i ∈ inputs, i.KeepsConfig := by decide
  have hp : e.phase = .sending .dit := by decide
  have hd : e.elementEnd = .clamp 60000 := by decide
  have h : (e.listen (.clamp 60000)).engine.bonus? = none ∧ (e.elementEnd ≤ .clamp 60000 →
      (e.tick (.clamp 60000)).engine.queue = (e.listen (.clamp 60000)).engine.requested.toList) :=
    iambic_mode_unobservable.2 (hr.run (inputs.take 4)) hp (by decide)
  exact ⟨⟨hr, hk, hp, by decide, hd⟩, iambic_mode_unobservable.1 hr rfl hk .a, h.1,
    h.2 (by rw [hd]; exact Instant.le_refl _)⟩

/-! ## The squeeze mode -/

/-- The engine in another squeeze mode and with another reference. -/
def withSqueeze (e : Engine) (squeeze : SqueezeMode) (reference : ElementSet) : Engine :=
  { e with config.memory.squeeze := squeeze, reference := reference }

/-- While no paddle is closed the reference does not hold a squeeze. -/
def NoPastSqueeze (e : Engine) : Prop := e.paddles = .empty → e.reference ≠ .both

/-- Somewhere in the run both paddles are let go at once. -/
def DropsBoth (e : Engine) (inputs : List Input) : Prop :=
  ∃ before after, inputs = before ++ .paddles .empty :: after ∧
    (e.run before).engine.paddles = .both

theorem DropsBoth.cons (h : (e.step i).engine.DropsBoth inputs) : e.DropsBoth (i :: inputs) := by
  obtain ⟨before, after, rfl, hb⟩ := h
  exact ⟨i :: before, after, rfl, hb⟩

theorem DropsBoth.append (h : e.DropsBoth inputs) (more : List Input) :
    e.DropsBoth (inputs ++ more) := by
  obtain ⟨before, after, rfl, hb⟩ := h
  exact ⟨before, after ++ more, by simp, hb⟩

theorem not_dropsBoth (h : ∀ paddles, .paddles paddles ∉ inputs) : ¬ e.DropsBoth inputs := by
  rintro ⟨before, after, rfl, -⟩
  exact h .empty (by simp)

theorem noPastSqueeze_setPaddles (h : e.Sound) (hn : e.NoPastSqueeze) {paddles : ElementSet}
    (hd : paddles = .empty → e.paddles ≠ .both) : (e.setPaddles paddles).NoPastSqueeze := by
  intro hp
  obtain rfl : paddles = .empty := hp
  cases hs : e.config.memory.squeeze with
  | live => simpa only [setPaddles, hs] using ElementSet.empty_ne_both
  | snapshot =>
    simp only [setPaddles, hs, if_pos]
    by_cases he : e.paddles = .empty
    · exact hn he
    · rw [h.reference (.inl he)]
      exact hd rfl

/-- One edge never opens both paddles at once. -/
theorem ne_both_of_put {s : ElementSet} {closed : Bool} (h : s.put x closed = .empty) :
    s ≠ .both := by
  rintro rfl
  have := congrArg (ElementSet.has · x.opposite) h
  simp [ElementSet.has_put] at this

theorem noPastSqueeze_step (h : e.Sound) (hn : e.NoPastSqueeze) (hk : i.KeepsConfig)
    (hd : i = .paddles .empty → e.paddles ≠ .both) : (e.step i).engine.NoPastSqueeze := by
  cases i with
  | edge edge =>
    change (e.onEdge edge).NoPastSqueeze
    rw [onEdge]
    cases edge.line with
    | paddle x => exact noPastSqueeze_setPaddles h hn ne_both_of_put
    | straightKey => exact hn
  | paddles paddles =>
    apply noPastSqueeze_setPaddles h hn
    rintro rfl
    exact hd rfl
  | tick now =>
    obtain ⟨-, hp, hr⟩ := tick_frame e now
    intro he
    change (e.tick now).engine.reference ≠ .both
    rw [hr]
    exact hn (hp.symm.trans he)
  | reset => exact fun _ => ElementSet.empty_ne_both
  | configure c =>
    change (e.configure c).1.NoPastSqueeze
    rwa [configure_of_refused e hk]

/-- Why two engines in different squeeze modes agree on every bonus of a run: there is none, or
neither ever takes open paddles for a squeeze. -/
def AgreeOnBonus (e : Engine) (squeeze : SqueezeMode) (reference : ElementSet)
    (inputs : List Input) : Prop :=
  e.config.mode = .a ∨ e.config.memory.remembers = .both ∨
    e.NoPastSqueeze ∧ (e.withSqueeze squeeze reference).NoPastSqueeze ∧ ¬ e.DropsBoth inputs

theorem bonus?_withSqueeze (h : e.Sound) (h' : (e.withSqueeze squeeze reference).Sound)
    (ha : e.AgreeOnBonus squeeze reference inputs) (hx : e.phase = .sending x) :
    ((e.listened now).vary e.config.mode squeeze reference).bonus? =
      (e.listened now).bonus? := by
  rcases ha with hm | hm | ⟨hn, hn', -⟩
  · have hm' : ((e.listened now).vary e.config.mode squeeze reference).config.mode = .a := hm
    rw [bonus?_eq_none_of_mode hm', bonus?_eq_none_of_mode (e := e.listened now) hm]
  · exact bonus?_vary_of_both h hm hx
  · -- While a paddle is closed both references are the paddles.
    have hboth : reference = .both ↔ e.reference = .both := by
      by_cases he : e.paddles = .empty
      · exact iff_of_false (hn' he) (hn he)
      · rw [h.reference (.inl he), show reference = e.paddles from h'.reference (.inl he)]
    simp [bonus?, vary, listened, hboth]

theorem tick_withSqueeze (h : e.Sound) (h' : (e.withSqueeze squeeze reference).Sound)
    (ha : e.AgreeOnBonus squeeze reference inputs) (now : Instant) :
    (e.withSqueeze squeeze reference).tick now =
      (e.tick now).mapEngine fun f => f.withSqueeze squeeze reference := by
  calc (e.withSqueeze squeeze reference).tick now
      = (e.tick now).mapEngine fun f => f.vary e.config.mode squeeze reference :=
        tick_vary fun x hx => bonus?_withSqueeze h h' ha hx
    _ = (e.tick now).mapEngine fun f => f.withSqueeze squeeze reference := by
      rw [← tick_config e now]
      rfl

/-- One step keeps the engines the same but for the squeeze mode and the reference. -/
theorem step_withSqueeze (h : e.Sound) (h' : (e.withSqueeze squeeze reference).Sound)
    (hk : i.KeepsConfig) (ha : e.AgreeOnBonus squeeze reference inputs) :
    ∃ next, (e.withSqueeze squeeze reference).step i =
      (e.step i).mapEngine fun f => f.withSqueeze squeeze next := by
  cases i with
  | edge edge =>
    simp only [step, onEdge]
    cases edge.line with
    | paddle x => exact ⟨_, rfl⟩
    | straightKey => exact ⟨reference, rfl⟩
  | paddles paddles => exact ⟨_, rfl⟩
  | tick now => exact ⟨reference, tick_withSqueeze h h' ha now⟩
  | reset => exact ⟨.empty, rfl⟩
  | configure c =>
    exists reference
    rw [step, step, configure_of_refused _ hk, configure_of_refused _ hk]
    rfl

theorem agreeOnBonus_step {next : ElementSet} (h : e.Sound)
    (h' : (e.withSqueeze squeeze reference).Sound) (hk : i.KeepsConfig)
    (ha : e.AgreeOnBonus squeeze reference (i :: inputs))
    (hs : (e.withSqueeze squeeze reference).step i =
      (e.step i).mapEngine fun f => f.withSqueeze squeeze next) :
    (e.step i).engine.AgreeOnBonus squeeze next inputs := by
  rcases ha with hm | hm | ⟨hn, hn', hd⟩
  · exact .inl ((congrArg Config.mode (step_keepsConfig hk)).trans hm)
  · exact .inr (.inl ((congrArg (·.memory.remembers) (step_keepsConfig hk)).trans hm))
  · have hi : i = .paddles .empty → e.paddles ≠ .both := by
      rintro rfl hb
      exact hd ⟨[], inputs, rfl, hb⟩
    have hnext := noPastSqueeze_step h' hn' hk hi
    rw [hs] at hnext
    exact .inr (.inr ⟨noPastSqueeze_step h hn hk hi, hnext, fun hr => hd hr.cons⟩)

theorem run_withSqueeze (h : e.Sound) (h' : (e.withSqueeze squeeze reference).Sound)
    (hk : ∀ i ∈ inputs, i.KeepsConfig) (ha : e.AgreeOnBonus squeeze reference inputs) :
    ∃ next, (e.withSqueeze squeeze reference).run inputs =
      (e.run inputs).mapEngine fun f => f.withSqueeze squeeze next := by
  induction inputs generalizing e reference with
  | nil => exact ⟨reference, rfl⟩
  | cons i inputs ih =>
    rcases List.forall_mem_cons.mp hk with ⟨hi, hk⟩
    rcases step_withSqueeze h h' hi ha with ⟨mid, hs⟩
    have hm : ((e.step i).engine.withSqueeze squeeze mid).Sound := by
      have := step_sound h' i
      rwa [hs] at this
    rcases ih (step_sound h i) hm hk (agreeOnBonus_step h h' hi ha hs) with ⟨next, hr⟩
    exists next
    rw [run_cons, hs]
    exact Outcome.mapEngine_andThen hr

/-- In another squeeze mode a run from rest signals the same, and leaves the engine the same but
for the squeeze mode and the reference. -/
def SqueezeHidden (c : Config) (squeeze : SqueezeMode) (inputs : List Input) : Prop :=
  ∃ reference, (rest { c with memory.squeeze := squeeze }).run inputs =
    ((rest c).run inputs).mapEngine fun e => e.withSqueeze squeeze reference

/-- The squeeze mode cannot be observed in mode A, if memory takes both elements, or as long as
both paddles are not let go at once; and so never by an engine that is told single edges. This
holds of every cut of the run, that is after each step. -/
theorem squeeze_mode_unobservable {c : Config} {squeeze : SqueezeMode} {inputs : List Input}
    (hk : ∀ i ∈ inputs, i.KeepsConfig) :
    (c.mode = .a ∨ c.memory.remembers = .both ∨ ¬ (rest c).DropsBoth inputs →
      ∀ done, done <+: inputs → SqueezeHidden c squeeze done) ∧
    ((∀ paddles, .paddles paddles ∉ inputs) →
      ∀ done, done <+: inputs → SqueezeHidden c squeeze done) := by
  have hall : c.mode = .a ∨ c.memory.remembers = .both ∨ ¬ (rest c).DropsBoth inputs →
      ∀ done, done <+: inputs → SqueezeHidden c squeeze done := by
    rintro ha done ⟨more, rfl⟩
    have hk : ∀ i ∈ done, i.KeepsConfig := fun i hi => hk i (List.mem_append_left more hi)
    apply run_withSqueeze (e := rest c) (rest_sound c) (rest_sound _) hk
    rcases ha with hm | hm | hd
    · exact .inl hm
    · exact .inr (.inl hm)
    · refine .inr (.inr ⟨?_, ?_, fun hr => hd (hr.append more)⟩)
      · exact fun _ => ElementSet.empty_ne_both
      · exact fun _ => ElementSet.empty_ne_both
  exact ⟨hall, fun hp => hall (.inr (.inr (not_dropsBoth hp)))⟩

/-- A squeeze of a dit without memory, let go one paddle after the other: the bonus comes, and the
references differ by then. -/
theorem squeeze_mode_unobservable_of_edges :
    let c : Config := { Config.standard with memory.remembers := .empty }
    let dit closed := Input.edge ⟨.paddle .dit, closed, .zero⟩
    let dah closed := Input.edge ⟨.paddle .dah, closed, .zero⟩
    let inputs := [dit true, dah true, .tick .zero, .tick (.clamp 30000), dit false, dah false,
      .tick (.clamp 60000), .tick (.clamp 120000)]
    ((∀ i ∈ inputs, i.KeepsConfig) ∧ ¬ (rest c).DropsBoth inputs ∧
      (∀ paddles, .paddles paddles ∉ inputs) ∧
      ((rest c).run inputs).engine.phase = .sending .dah ∧
      ((rest c).run inputs).engine.reference ≠
        ((rest { c with memory.squeeze := .live }).run inputs).engine.reference) ∧
      SqueezeHidden c .live inputs ∧ SqueezeHidden c .live (inputs.take 5) := by
  intro c dit dah inputs
  have hk : ∀ i ∈ inputs, i.KeepsConfig := by decide
  have hp : ∀ paddles, .paddles paddles ∉ inputs := by simp [inputs, dit, dah]
  have hd : ¬ (rest c).DropsBoth inputs := not_dropsBoth hp
  refine ⟨⟨hk, hd, hp, by decide, by decide⟩, ?_, ?_⟩
  · exact (squeeze_mode_unobservable hk).1 (.inr (.inr hd)) inputs (List.prefix_refl inputs)
  · exact (squeeze_mode_unobservable hk).2 hp (inputs.take 5) (List.take_prefix 5 inputs)

/-- After a squeeze that is dropped at once the bonus comes live, and not with a snapshot. -/
example :
    let c : Config := { Config.standard with memory.remembers := .empty }
    let inputs := [.paddles .both, .tick .zero, .tick (.clamp 30000), .paddles .empty,
      .tick (.clamp 60000)]
    ((rest c).run inputs).engine.queue = [] ∧
      ((rest { c with memory.squeeze := .live }).run inputs).engine.queue = [.dah] := by
  decide

end Engine
end Iambic
