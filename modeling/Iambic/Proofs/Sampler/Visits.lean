import Iambic.Proofs.Engine.Looks
import Iambic.Proofs.Sampler.Replay
import Iambic.Visit

/-!
# The engine behind the sampler

An engine that is told the edges of a sampler finds at each tick the levels that the sampler shows.
If the contacts are exchanged and the swap is turned round, the levels are the same, and only the
edges of one sample come in the other order. As edges come one by one, the reference that this may
change is never of use, and no one can tell the one sampler from the other.
-/
namespace Iambic

namespace Sampler
variable {s t : Sampler} {e : Engine} {v : Visit} {visits : List Visit}

theorem adjust_eq (s : Sampler) (debounces : List Int) :
    ∃ debounce, s.adjust debounces = { s with debounce := debounce } := by
  induction debounces generalizing s with
  | nil => exact ⟨s.debounce, rfl⟩
  | cons us debounces ih =>
    rw [adjust, List.foldl_cons, act_debounce]
    exact ih _

/-- A visit keeps the swap, and its edges bring the lines to its levels. -/
theorem foldl_visit (s : Sampler) (v : Visit) :
    (s.visit v).1.swapped = s.swapped ∧
      (s.visit v).2.foldl ElementSet.after s.levels = (s.visit v).1.levels := by
  obtain ⟨debounce, hd⟩ := s.adjust_eq v.debounces
  rw [visit, hd]
  exact foldl_sample { s with debounce := debounce } v.sampled v.dit v.dah

/-- A contact tells one edge at most. -/
theorem length_edges_le (s : Sampler) (contact : Element) (before after : Contact)
    (now : Instant) : (s.edges contact before after now).length ≤ 1 := by
  rw [edges, List.length_map]
  exact Option.length_toList_le

theorem length_visit_le (s : Sampler) (v : Visit) : (s.visit v).2.length ≤ 2 := by
  have hobserve (s : Sampler) (closed : ElementSet) (now : Instant) :
      (s.observe closed now).2.length ≤ 2 := by
    have hdit := s.length_edges_le .dit s.dit (s.dit.observe s.debounce closed.dit now) now
    have hdah := s.length_edges_le .dah s.dah (s.dah.observe s.debounce closed.dah now) now
    rw [observe, List.length_append]
    omega
  simp only [visit, act, sample]
  cases v.dit.closed? with
  | none => simp
  | some ditClosed =>
    cases v.dah.closed? with
    | none => simp
    | some dahClosed => exact hobserve _ _ _

/-- The levels of the sampler at the ticks. -/
def looks (s : Sampler) : List Visit → List Look
  | [] => []
  | v :: visits => ⟨v.ticked, (s.visit v).1.levels⟩ :: (s.visit v).1.looks visits

/-- An engine that sees the levels of the sampler sees them again after a visit. -/
theorem paddles_run_visit (h : e.paddles = s.levels) (v : Visit) :
    (e.run ((s.visit v).2.map .edge)).engine.paddles = (s.visit v).1.levels := by
  rw [Engine.paddles_run_edges, h, (s.foldl_visit v).2]

theorem looks_edges (e : Engine) (edges : List Edge) : e.looks (edges.map .edge) = [] := by
  induction edges generalizing e with
  | nil => rfl
  | cons edge edges ih => exact ih _

theorem looks_inputs (h : e.paddles = s.levels) (visits : List Visit) :
    e.looks (s.inputs visits) = s.looks visits := by
  induction visits generalizing s e with
  | nil => rfl
  | cons v visits ih =>
    have hv := paddles_run_visit h v
    rw [inputs, Engine.looks_append, looks_edges, List.nil_append, Engine.looks_tick, hv, looks]
    congr 1
    exact ih ((Engine.tick_frame _ v.ticked).2.1.trans hv)

theorem paddles_run_inputs (h : e.paddles = s.levels) (visits : List Visit) :
    (e.run (s.inputs visits)).engine.paddles = (s.visitAll visits).1.levels := by
  induction visits generalizing s e with
  | nil => exact h
  | cons v visits ih =>
    rw [inputs, Engine.run_append, Outcome.andThen_engine, Engine.run_tick]
    exact ih ((Engine.tick_frame _ v.ticked).2.1.trans (paddles_run_visit h v))

theorem ordinary_inputs (s : Sampler) (visits : List Visit) :
    ∀ i ∈ s.inputs visits, i.Ordinary := by
  induction visits generalizing s with
  | nil => simp [inputs]
  | cons v visits ih =>
    intro i hi
    rcases List.mem_append.mp hi with hi | hi
    · obtain ⟨edge, -, rfl⟩ := List.mem_map.mp hi
      trivial
    · rcases List.mem_cons.mp hi with rfl | hi
      · trivial
      · exact ih _ i hi

theorem paddles_notMem_inputs (s : Sampler) (visits : List Visit) (paddles : ElementSet) :
    .paddles paddles ∉ s.inputs visits := by
  induction visits generalizing s with
  | nil => simp [inputs]
  | cons v visits ih => simp [inputs, ih]

/-! ## Exchanged contacts -/

/-- The contacts of `t` are those of `s` exchanged, and its swap is the other one. How often the
contacts have been read does not matter. -/
structure Mirrors (s t : Sampler) : Prop where
  dit : t.dit = s.dah
  dah : t.dah = s.dit
  debounce : t.debounce = s.debounce
  swapped : t.swapped = !s.swapped

theorem Mirrors.levels (m : s.Mirrors t) : t.levels = s.levels := by
  have hcontacts : t.contacts = s.contacts.swap := by
    rw [contacts, m.dit, m.dah]
    rfl
  rw [Sampler.levels, Sampler.levels, hcontacts, m.swapped]
  cases s.swapped <;> rfl

theorem Mirrors.edges (m : s.Mirrors t) (contact : Element) (before after : Contact)
    (now : Instant) :
    t.edges contact before after now = s.edges contact.opposite before after now := by
  have hpaddle : t.paddle contact = s.paddle contact.opposite := by
    rw [paddle, paddle, m.swapped]
    cases s.swapped <;> simp
  rw [Sampler.edges, Sampler.edges, hpaddle]

/-- One edge comes in no order. -/
theorem reverse_edges (s : Sampler) (contact : Element) (before after : Contact) (now : Instant) :
    (s.edges contact before after now).reverse = s.edges contact before after now := by
  rw [Sampler.edges]
  cases before.change? after <;> rfl

theorem Mirrors.observe (m : s.Mirrors t) (closed : ElementSet) (now : Instant) :
    (s.observe closed now).1.Mirrors (t.observe closed.swap now).1 ∧
      (t.observe closed.swap now).2 = (s.observe closed now).2.reverse := by
  constructor
  · refine ⟨?_, ?_, m.debounce, m.swapped⟩
    · change t.dit.observe t.debounce closed.dah now = s.dah.observe s.debounce closed.dah now
      rw [m.dit, m.debounce]
    · change t.dah.observe t.debounce closed.dit now = s.dit.observe s.debounce closed.dit now
      rw [m.dah, m.debounce]
  · change t.edges .dit t.dit (t.dit.observe t.debounce closed.dah now) now ++
        t.edges .dah t.dah (t.dah.observe t.debounce closed.dit now) now =
      (s.edges .dit s.dit (s.dit.observe s.debounce closed.dit now) now ++
        s.edges .dah s.dah (s.dah.observe s.debounce closed.dah now) now).reverse
    rw [List.reverse_append, reverse_edges, reverse_edges, m.edges, m.edges, m.dit, m.dah,
      m.debounce]
    rfl

theorem Mirrors.countReads (m : s.Mirrors t) (dit dah : Reading) :
    (s.countReads dit).Mirrors (t.countReads dah) := { m with }

theorem Mirrors.sample (m : s.Mirrors t) (now : Instant) (dit dah : Reading) :
    (s.act (.sample now dit dah)).1.Mirrors (t.act (.sample now dah dit)).1 ∧
      (t.act (.sample now dah dit)).2 = (s.act (.sample now dit dah)).2.reverse := by
  have mc := m.countReads dit dah
  simp only [act, Sampler.sample]
  cases dit.closed? with
  | none => cases dah.closed? <;> exact ⟨mc, rfl⟩
  | some ditClosed =>
    cases dah.closed? with
    | none => exact ⟨mc, rfl⟩
    | some dahClosed => exact mc.observe ⟨ditClosed, dahClosed⟩ now

theorem Mirrors.adjust (m : s.Mirrors t) (debounces : List Int) :
    (s.adjust debounces).Mirrors (t.adjust debounces) := by
  induction debounces generalizing s t with
  | nil => exact m
  | cons us debounces ih =>
    rw [Sampler.adjust, Sampler.adjust, List.foldl_cons, List.foldl_cons, act_debounce,
      act_debounce]
    exact ih { m with debounce := by simp only [m.debounce] }

theorem Mirrors.visit (m : s.Mirrors t) (v : Visit) :
    (s.visit v).1.Mirrors (t.visit v.exchange).1 ∧
      (t.visit v.exchange).2 = (s.visit v).2.reverse :=
  (m.adjust v.debounces).sample v.sampled v.dit v.dah

theorem Mirrors.visitAll (m : s.Mirrors t) (visits : List Visit) :
    (s.visitAll visits).1.Mirrors (t.visitAll (visits.map .exchange)).1 ∧
      (t.visitAll (visits.map .exchange)).2 = (s.visitAll visits).2.map .reverse := by
  induction visits generalizing s t with
  | nil => exact ⟨m, rfl⟩
  | cons v visits ih =>
    obtain ⟨mv, hedges⟩ := m.visit v
    obtain ⟨mrest, hrest⟩ := ih mv
    exact ⟨mrest, List.cons_eq_cons.mpr ⟨hedges, hrest⟩⟩

theorem Mirrors.looks (m : s.Mirrors t) (visits : List Visit) :
    t.looks (visits.map .exchange) = s.looks visits := by
  induction visits generalizing s t with
  | nil => rfl
  | cons v visits ih =>
    have mv := (m.visit v).1
    rw [List.map_cons, Sampler.looks, mv.levels, ih mv]
    rfl

/-- Left-handed keying is an exact mirror. A sampler that is swapped and whose contacts are
exchanged shows the same levels as the plain one and tells the edges of each sample in the other
order, and an engine behind it signals the same and is left the same but for the reference. This
holds of any number of visits, and so after each tick. -/
theorem left_handed_unobservable (c : Config) (visits : List Visit) :
    let plain := rest.visitAll visits
    let mirrored := (rest.setSwap true).visitAll (visits.map .exchange)
    ((Engine.rest c).run (rest.inputs visits)).EqButReference
        ((Engine.rest c).run ((rest.setSwap true).inputs (visits.map .exchange))) ∧
      mirrored.1.levels = plain.1.levels ∧ mirrored.2 = plain.2.map .reverse := by
  intro plain mirrored
  have m : rest.Mirrors (rest.setSwap true) := ⟨rfl, rfl, rfl, rfl⟩
  obtain ⟨mafter, hedges⟩ := m.visitAll visits
  refine ⟨?_, mafter.levels, hedges⟩
  have hlive (s : Sampler) (visits : List Visit) :
      Engine.SqueezeHidden c .live (s.inputs visits) :=
    Engine.squeezeHidden_live (ordinary_inputs s visits)
      (.inr (.inr (.inr (Engine.not_dropsBoth (paddles_notMem_inputs s visits)))))
  have hplain : (Engine.rest c).paddles = rest.levels := rfl
  have hmirrored : (Engine.rest c).paddles = (rest.setSwap true).levels := rfl
  apply (Engine.eqButReference_of_looks (ordinary_inputs _ _) (ordinary_inputs _ _)
    (hlive _ _) (hlive _ _) ?_).2
  · rw [paddles_run_inputs hplain, paddles_run_inputs hmirrored, mafter.levels]
  · rw [looks_inputs hplain, looks_inputs hmirrored, m.looks]

/-- Both contacts close at once, and the reference keeps the one whose edge came first. -/
example :
    let visits : List Visit :=
      [⟨[], .zero, .low, .low, .zero⟩, ⟨[], .clamp 10, .high, .high, .clamp 10⟩]
    let reference (inputs : List Input) := ((Engine.rest .standard).run inputs).engine.reference
    reference (rest.inputs visits) = .only .dah ∧
      reference ((rest.setSwap true).inputs (visits.map .exchange)) = .only .dit := by
  decide

end Sampler
end Iambic
