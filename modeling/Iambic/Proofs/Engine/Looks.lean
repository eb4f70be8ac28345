import Iambic.Proofs.Engine.Modes
import Iambic.Proofs.Engine.Succession

/-!
# Only the looks matter

An engine that follows the paddles live does in a run what it does when it is shown the looks
alone, the positions of the paddles that the ticks find. Any other engine does as the live one if
its bonus has no use for the reference, or if both paddles are never let go at once. So two runs of
it with the same looks cannot be told apart, whatever happens between the ticks.
-/
namespace Iambic

deriving instance DecidableEq for Look

theorem Input.Ordinary.keepsConfig {i : Input} (h : i.Ordinary) : i.KeepsConfig := by
  cases i with
  | configure c => exact h
  | edge _ | paddles _ | tick _ | reset => trivial

/-- The same signals, and the same engine but for the reference. -/
def Outcome.EqButReference (o o' : Outcome) : Prop :=
  ∃ reference, o' = o.mapEngine fun e => { e with reference := reference }

namespace Engine
variable {c : Config} {e f : Engine} {xs ys inputs : List Input}

/-- The engine finds these paddles closed, and its reference follows them. -/
def facing (e : Engine) (paddles : ElementSet) : Engine :=
  { e with paddles := paddles, reference := paddles }

/-- What an engine does that is shown one look after the other. -/
def watch (e : Engine) : List Look → Outcome
  | [] => e.quiet
  | l :: looks => ((e.facing l.paddles).tick l.time).andThen fun e => e.watch looks

theorem facing_paddles (h : e.reference = e.paddles) : e.facing e.paddles = e := by
  cases e
  cases h
  rfl

/-- What an engine faces at first is forgotten at the first look, or else at the end. -/
theorem watch_facing (e : Engine) (paddles last : ElementSet) (looks : List Look) :
    ((e.facing paddles).watch looks).mapEngine (fun f => f.facing last) =
      (e.watch looks).mapEngine fun f => f.facing last := by
  cases looks <;> rfl

/-- A live engine is shown by a run no more than its looks. -/
theorem run_eq_watch (h : e.Sound) (hl : e.config.memory.squeeze = .live)
    (ho : ∀ i ∈ inputs, i.Ordinary) :
    ∃ paddles, e.run inputs =
      (e.watch (e.looks inputs)).mapEngine fun f => f.facing paddles := by
  induction inputs generalizing e with
  | nil =>
    exists e.paddles
    change e.quiet = (e.facing e.paddles).quiet
    rw [facing_paddles (h.reference (.inr hl))]
  | cons i inputs ih =>
    rcases List.forall_mem_cons.mp ho with ⟨hi, ho⟩
    have hsound : (e.step i).engine.Sound := step_sound h i
    have hlive : (e.step i).engine.config.memory.squeeze = .live := by rw [step_config hi, hl]
    obtain ⟨last, hrun⟩ := ih hsound hlive ho
    exists last
    rcases e.step_ordinary hi with ⟨now, rfl⟩ | ⟨ht, paddles, reference, hs⟩
    · rw [looks_tick, watch, facing_paddles (h.reference (.inr hl)), run_cons, Outcome.andThen,
        hrun]
      rfl
    · rw [looks_of_tick?_eq_none ht, ← watch_facing e paddles, run_still hs]
      have hstep : (e.step i).engine = e.facing paddles := by
        have hr := hsound.reference (.inr hlive)
        rw [hs] at hr ⊢
        simp only [quiet_engine] at hr ⊢
        rw [facing, hr]
      rw [hs, quiet_engine] at hstep hrun
      rw [hs, quiet_engine, ← hstep]
      exact hrun

/-- What becomes of the paddles is told by the input and the paddles alone. -/
theorem paddles_step_congr (h : e.paddles = f.paddles) (i : Input) :
    (e.step i).engine.paddles = (f.step i).engine.paddles := by
  cases i with
  | edge edge =>
    simp only [step, onEdge]
    cases edge.line with
    | paddle x => exact congrArg (fun s => s.put x edge.closed) h
    | straightKey => exact h
  | paddles paddles => rfl
  | tick now => exact (tick_frame e now).2.1.trans (h.trans (tick_frame f now).2.1.symm)
  | reset => rfl
  | configure c =>
    cases hc : c.error? with
    | some error =>
      rw [step, step, configure_of_error e hc, configure_of_error f hc]
      exact h
    | none =>
      rw [step, step, configure_of_valid e hc, configure_of_valid f hc]

theorem looks_congr (h : e.paddles = f.paddles) (inputs : List Input) :
    e.looks inputs = f.looks inputs := by
  induction inputs generalizing e f with
  | nil => rfl
  | cons i inputs ih => rw [looks, looks, h, ih (paddles_step_congr h i)]

theorem paddles_run_congr (h : e.paddles = f.paddles) (inputs : List Input) :
    (e.run inputs).engine.paddles = (f.run inputs).engine.paddles := by
  induction inputs generalizing e f with
  | nil => exact h
  | cons i inputs ih => exact ih (paddles_step_congr h i)

/-- Two runs of a live engine with the same looks and the same paddles in the end are the same. -/
theorem run_eq_of_looks (h : e.Sound) (hl : e.config.memory.squeeze = .live)
    (hx : ∀ i ∈ xs, i.Ordinary) (hy : ∀ i ∈ ys, i.Ordinary) (hlooks : e.looks xs = e.looks ys) :
    (e.run xs).signals = (e.run ys).signals ∧
      ((e.run xs).engine.paddles = (e.run ys).engine.paddles → e.run xs = e.run ys) := by
  obtain ⟨px, hrx⟩ := run_eq_watch h hl hx
  obtain ⟨py, hry⟩ := run_eq_watch h hl hy
  rw [hrx, hry, hlooks]
  apply And.intro rfl
  intro hp
  obtain rfl : px = py := hp
  rfl

theorem withSqueeze_self {squeeze : SqueezeMode} (h : e.config.memory.squeeze = squeeze) :
    e.withSqueeze squeeze e.reference = e := by
  cases h
  rfl

/-- Engines of one configuration that are the same live are the same but for the reference. -/
theorem eqButReference_of_live {o o' : Outcome} {r r' : ElementSet}
    (hc : o.engine.config = o'.engine.config)
    (h : o.mapEngine (fun e => e.withSqueeze .live r) =
      o'.mapEngine fun e => e.withSqueeze .live r') : o.EqButReference o' := by
  obtain ⟨e, signals⟩ := o
  obtain ⟨f, _⟩ := o'
  obtain ⟨hengine, rfl⟩ := Outcome.mk.inj h
  have hc : e.config = f.config := hc
  have hf : { e with config := f.config, reference := f.reference } = f :=
    congrArg (fun g : Engine => { g with config := f.config, reference := f.reference }) hengine
  exists f.reference
  rw [← hc] at hf
  exact congrArg (fun g => (⟨g, signals⟩ : Outcome)) hf.symm

/-- An engine whose bonus has no use for the reference, or that never sees both paddles let go at
once, does as the live one. -/
theorem squeezeHidden_live (ho : ∀ i ∈ inputs, i.Ordinary)
    (h : c.memory.squeeze = .live ∨ c.mode = .a ∨ c.memory.remembers = .both ∨
      ¬ (rest c).DropsBoth inputs) : SqueezeHidden c .live inputs := by
  have hk : ∀ i ∈ inputs, i.KeepsConfig := fun i hi => (ho i hi).keepsConfig
  by_cases hl : c.memory.squeeze = .live
  · exists ((rest c).run inputs).engine.reference
    have hc : { c with memory.squeeze := .live } = c := by rw [← hl]
    have hrun : ((rest c).run inputs).engine.config = c := run_config ho
    rw [hc, Outcome.mapEngine, withSqueeze_self (by rw [hrun, hl])]
  · apply run_withSqueeze (e := rest c) (rest_sound c) (rest_sound _) hk
    rcases h.resolve_left hl with hm | hm | hd
    · exact .inl hm
    · exact .inr (.inl hm)
    · exact .inr (.inr ⟨fun _ => ElementSet.empty_ne_both, fun _ => ElementSet.empty_ne_both, hd⟩)

/-- Two runs from rest with the same looks, each of which goes as that of the live engine. -/
theorem eqButReference_of_looks (hx : ∀ i ∈ xs, i.Ordinary) (hy : ∀ i ∈ ys, i.Ordinary)
    (sx : SqueezeHidden c .live xs) (sy : SqueezeHidden c .live ys)
    (hlooks : (rest c).looks xs = (rest c).looks ys) :
    ((rest c).run xs).signals = ((rest c).run ys).signals ∧
      (((rest c).run xs).engine.paddles = ((rest c).run ys).engine.paddles →
        ((rest c).run xs).EqButReference ((rest c).run ys)) := by
  let live : Engine := rest { c with memory.squeeze := .live }
  obtain ⟨rx, hrx⟩ : ∃ r, live.run xs = _ := sx
  obtain ⟨ry, hry⟩ : ∃ r, live.run ys = _ := sy
  have hpaddles : (rest c).paddles = live.paddles := rfl
  rw [looks_congr hpaddles xs, looks_congr hpaddles ys] at hlooks
  obtain ⟨hsignals, hrun⟩ := run_eq_of_looks (rest_sound _) rfl hx hy hlooks
  rw [hrx, hry] at hsignals
  apply And.intro hsignals
  intro hp
  rw [paddles_run_congr hpaddles xs, paddles_run_congr hpaddles ys] at hp
  have hsame := hrun hp
  rw [hrx, hry] at hsame
  exact eqButReference_of_live ((run_config hx).trans (run_config hy).symm) hsame

theorem map_time_looks (e : Engine) (inputs : List Input) :
    (e.looks inputs).map Look.time = inputs.filterMap Input.tick? := by
  induction inputs generalizing e with
  | nil => rfl
  | cons i inputs ih =>
    rw [looks, List.map_append, ih, List.map_map, List.filterMap_cons]
    cases i.tick? <;> rfl

theorem length_looks (e : Engine) (inputs : List Input) :
    (e.looks inputs).length = (inputs.filterMap Input.tick?).length := by
  rw [← map_time_looks e, List.length_map]

/-- The look of the last tick, after which the paddles are as it found them. -/
theorem looks_concat_tick (e : Engine) (done : List Input) (now : Instant) :
    e.looks (done ++ [.tick now]) =
      e.looks done ++ [⟨now, (e.run (done ++ [.tick now])).engine.paddles⟩] := by
  have hp : (e.run (done ++ [.tick now])).engine.paddles = (e.run done).engine.paddles := by
    rw [run_append]
    exact (tick_frame (e.run done).engine now).2.1
  rw [hp, looks_append]
  rfl

/-- Runs with the same looks have the same looks up to the same tick. -/
theorem looks_eq_of_isPrefix {xdone ydone : List Input} {s t : Instant}
    (hlooks : e.looks xs = e.looks ys) (hx : xdone ++ [.tick s] <+: xs)
    (hy : ydone ++ [.tick t] <+: ys)
    (hticks : (xdone.filterMap Input.tick?).length = (ydone.filterMap Input.tick?).length) :
    e.looks (xdone ++ [.tick s]) = e.looks (ydone ++ [.tick t]) := by
  obtain ⟨xrest, rfl⟩ := hx
  obtain ⟨yrest, rfl⟩ := hy
  rw [looks_append, looks_append e (ydone ++ [Input.tick t])] at hlooks
  refine (List.append_inj hlooks ?_).1
  rw [looks_concat_tick, looks_concat_tick, List.length_append, List.length_append,
    length_looks, length_looks, hticks]
  rfl

/-- If the paddles are followed live, in mode A, or if memory takes both elements, nothing of a run
from rest counts but its looks: two runs whose ticks come at the same times and find the same
paddles signal the same, and each tick of one leaves the engine as the same tick of the other does,
but for the reference. What happens between the ticks is not seen. -/
theorem only_looks_matter
    (hc : c.memory.squeeze = .live ∨ c.mode = .a ∨ c.memory.remembers = .both)
    (hx : ∀ i ∈ xs, i.Ordinary) (hy : ∀ i ∈ ys, i.Ordinary)
    (hlooks : (rest c).looks xs = (rest c).looks ys) :
    ((rest c).run xs).signals = ((rest c).run ys).signals ∧
      ∀ xdone ydone s t, xdone ++ [.tick s] <+: xs → ydone ++ [.tick t] <+: ys →
        (xdone.filterMap Input.tick?).length = (ydone.filterMap Input.tick?).length →
          ((rest c).run (xdone ++ [.tick s])).EqButReference
            ((rest c).run (ydone ++ [.tick t])) := by
  have hlive (inputs : List Input) (ho : ∀ i ∈ inputs, i.Ordinary) :
      SqueezeHidden c .live inputs :=
    squeezeHidden_live ho (by rcases hc with hc | hc | hc <;> simp [hc])
  constructor
  · exact (eqButReference_of_looks hx hy (hlive xs hx) (hlive ys hy) hlooks).1
  · intro xdone ydone s t hxdone hydone hticks
    have hx' : ∀ i ∈ xdone ++ [.tick s], i.Ordinary := fun i hi => hx i (hxdone.subset hi)
    have hy' : ∀ i ∈ ydone ++ [.tick t], i.Ordinary := fun i hi => hy i (hydone.subset hi)
    have hcut := looks_eq_of_isPrefix hlooks hxdone hydone hticks
    apply (eqButReference_of_looks hx' hy' (hlive _ hx') (hlive _ hy') hcut).2
    rw [looks_concat_tick, looks_concat_tick] at hcut
    exact congrArg Look.paddles (List.append_singleton_inj.mp hcut).2

/-- A squeeze of a dit without memory. In the one run both paddles are let go at once, and in the
other one after the other, with a bounce, the straight key and a touch in the gap. The bonus comes
in both. -/
theorem only_looks_matter_of_bounces :
    let c : Config := { Config.standard with memory.remembers := .empty, memory.squeeze := .live }
    let edge line closed := Input.edge ⟨line, closed, .zero⟩
    let xs := [.paddles .both, .tick .zero, .tick (.clamp 30000), .paddles .empty,
      .tick (.clamp 60000), .tick (.clamp 120000)]
    let ydone := [edge (.paddle .dah) true, edge (.paddle .dit) true, .tick .zero,
      edge (.paddle .dit) false, edge (.paddle .dit) true, edge .straightKey true,
      .tick (.clamp 30000), edge (.paddle .dit) false, edge (.paddle .dah) false,
      .tick (.clamp 60000), edge (.paddle .dit) true, edge (.paddle .dit) false]
    let ys := ydone ++ [.tick (.clamp 120000)]
    ((∀ i ∈ xs, i.Ordinary) ∧ (∀ i ∈ ys, i.Ordinary) ∧ (rest c).looks xs = (rest c).looks ys ∧
      ((rest c).run xs).engine.phase = .sending .dah) ∧
      ((rest c).run xs).signals = ((rest c).run ys).signals ∧
      ((rest c).run xs).EqButReference ((rest c).run ys) := by
  intro c edge xs ydone ys
  have hx : ∀ i ∈ xs, i.Ordinary := by decide
  have hy : ∀ i ∈ ys, i.Ordinary := by decide
  have hlooks : (rest c).looks xs = (rest c).looks ys := by decide
  have h := only_looks_matter (.inl rfl) hx hy hlooks
  exact ⟨⟨hx, hy, hlooks, by decide⟩, h.1, h.2 (xs.take 5) ydone (.clamp 120000) (.clamp 120000)
    (List.prefix_refl _) (List.prefix_refl _) (by decide)⟩

end Engine
end Iambic
