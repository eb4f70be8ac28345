import Iambic.Proofs.Sampler.Visits
import Iambic.Transmitter

/-!
# From the contacts to the engine

An engine that is polled after every sample, through a channel that takes every edge, does as one
that is told the edges at once. So it sees the sampler's levels. A sample tells no more than two
edges and a poll leaves none waiting, and a channel in which two can wait takes them all.
-/
namespace Iambic

namespace Station

/-- A poll is a run of the engine on the waiting edges and a tick. -/
theorem poll_eq (s : Station) (now : Instant) :
    let o := s.engine.run (s.channel.pending.map .edge ++ [.tick now])
    s.poll now = (⟨o.engine, { s.channel with pending := [] }⟩,
      ⟨s.channel.pending.length, o.signals⟩) := by
  have hrun : s.engine.run (s.channel.pending.map .edge ++ [.tick now]) =
      (s.channel.pending.foldl Engine.onEdge s.engine).tick now := by
    rw [Engine.run_append, Engine.run_edges]
    simp [Outcome.andThen]
  rw [hrun, poll, drain_eq]

theorem push_of_lt {s : Station} (h : s.channel.pending.length < s.channel.places) (edge : Edge) :
    s.push edge = ({ s with channel.pending := s.channel.pending ++ [edge] }, true) := by
  rw [push, Channel.push_of_lt h]

/-- Only an edge that finds a place is taken. -/
theorem lt_of_push {s : Station} {edge : Edge} (h : (s.push edge).2 = true) :
    s.channel.pending.length < s.channel.places := by
  rcases Nat.lt_or_ge s.channel.pending.length s.channel.places with hroom | hfull
  · exact hroom
  · rw [push, Channel.push_of_le hfull] at h
    cases h

end Station

namespace Rig
variable {s : Station} {r : Rig} {edges : List Edge} {v : Visit} {visits : List Visit}

theorem pushAll_cons (s : Station) (edge : Edge) (edges : List Edge) :
    pushAll s (edge :: edges) = ((pushAll (s.push edge).1 edges).1,
      (edge, (s.push edge).2) :: (pushAll (s.push edge).1 edges).2) := rfl

/-- Edges that are all taken wait in their order. -/
theorem pushAll_of_taken (h : ∀ p ∈ (pushAll s edges).2, p.2) :
    (pushAll s edges).1 = { s with channel.pending := s.channel.pending ++ edges } := by
  induction edges generalizing s with
  | nil => simp [pushAll]
  | cons edge edges ih =>
    rw [pushAll_cons] at h ⊢
    rcases List.forall_mem_cons.mp h with ⟨hedge, h⟩
    rw [ih h, Station.push_of_lt (Station.lt_of_push hedge)]
    simp

/-- Edges for which there is room are all taken. -/
theorem taken_pushAll (h : s.channel.pending.length + edges.length ≤ s.channel.places) :
    ∀ p ∈ (pushAll s edges).2, p.2 := by
  induction edges generalizing s with
  | nil => simp [pushAll]
  | cons edge edges ih =>
    rw [List.length_cons] at h
    rw [pushAll_cons, Station.push_of_lt (by omega)]
    refine List.forall_mem_cons.mpr ⟨rfl, ih ?_⟩
    rw [List.length_append, List.length_singleton]
    change _ ≤ s.channel.places
    omega

/-- A sample that fails pushes nothing. -/
theorem observe_eq (r : Rig) (now : Instant) :
    let told := r.sampler.act (.sample now r.dit r.dah)
    let pushed := pushAll r.station told.2
    ∃ failure?, r.observe now =
      ({ r with sampler := told.1, station := pushed.1 }, pushed.2, failure?) := by
  simp only [observe, Sampler.act]
  rcases r.sampler.sample now r.dit r.dah with ⟨sampler, error | edges⟩
  · exact ⟨some error, rfl⟩
  · exact ⟨none, rfl⟩

/-- The engine with its key line, without what goes before it. -/
def transmitter (r : Rig) : Transmitter := ⟨r.station.engine, r.keyLine⟩

/-- The engine is polled in every round, and no edge waits. -/
structure Prompt (r : Rig) : Prop where
  everyRound : r.pollEvery ≤ 1
  pending : r.station.channel.pending = []

/-- A poll is a run of the transmitter on the waiting edges and a tick, and leaves none waiting. -/
theorem poll_of_everyRound (h : r.pollEvery ≤ 1) (now : Instant) :
    (r.poll now).1.sampler = r.sampler ∧ (r.poll now).1.Prompt ∧
      (r.poll now).1.station.channel.size = r.station.channel.size ∧
      (r.poll now).1.transmitter =
        r.transmitter.run (r.station.channel.pending.map .edge ++ [.tick now]) := by
  have hturn : ¬ r.waited + 1 < r.pollEvery := by omega
  rw [poll, if_neg hturn, Station.poll_eq, Transmitter.run_eq]
  exact ⟨rfl, ⟨h, rfl⟩, rfl, rfl⟩

/-- The edges of the visit are pushed, and the engine is yet to be polled. -/
def loaded (r : Rig) (v : Visit) : Rig :=
  { r.meet v with
    sampler := (r.sampler.visit v).1
    station := (pushAll r.station (r.sampler.visit v).2).1 }

theorem visit_eq (r : Rig) (v : Visit) :
    r.visit v = (((r.loaded v).poll v.ticked).1, (pushAll r.station (r.sampler.visit v).2).2) := by
  obtain ⟨failure?, hobserve⟩ := (r.meet v).observe_eq v.sampled
  rw [visit, hobserve]
  rfl

theorem Prompt.visit (h : r.Prompt) (v : Visit) :
    (r.visit v).1.Prompt ∧ (r.visit v).1.sampler = (r.sampler.visit v).1 := by
  rw [visit_eq]
  obtain ⟨hsampler, hprompt, -⟩ := poll_of_everyRound (r := r.loaded v) h.everyRound v.ticked
  exact ⟨hprompt, hsampler⟩

theorem Prompt.visitAll (h : r.Prompt) (visits : List Visit) :
    (r.visitAll visits).1.Prompt ∧
      (r.visitAll visits).1.sampler = (r.sampler.visitAll visits).1 := by
  induction visits generalizing r with
  | nil => exact ⟨h, rfl⟩
  | cons v visits ih =>
    obtain ⟨hprompt, hsampler⟩ := h.visit v
    rw [Sampler.visitAll, ← hsampler]
    exact ih hprompt

/-- Edges that are all taken reach the transmitter in the visit that tells them. -/
theorem Prompt.transmitter_visit (h : r.Prompt) (ht : ∀ p ∈ (r.visit v).2, p.2) :
    (r.visit v).1.station.channel.size = r.station.channel.size ∧
      (r.visit v).1.transmitter =
        r.transmitter.run ((r.sampler.visit v).2.map .edge ++ [.tick v.ticked]) := by
  rw [visit_eq] at ht ⊢
  have hstation : (r.loaded v).station =
      { r.station with channel.pending := (r.sampler.visit v).2 } := by
    rw [loaded, pushAll_of_taken ht, h.pending, List.nil_append]
  have htransmitter : (r.loaded v).transmitter = r.transmitter := by
    rw [transmitter, hstation]
    rfl
  obtain ⟨-, -, hsize, hrun⟩ := poll_of_everyRound (r := r.loaded v) h.everyRound v.ticked
  rw [hstation] at hsize hrun
  rw [htransmitter] at hrun
  exact ⟨hsize, hrun⟩

/-- As long as every edge is taken, it is as if the transmitter were told the edges at once. -/
theorem Prompt.transmitter_visitAll (h : r.Prompt) (ht : ∀ p ∈ (r.visitAll visits).2, p.2) :
    (r.visitAll visits).1.transmitter = r.transmitter.run (r.sampler.inputs visits) := by
  induction visits generalizing r with
  | nil => rfl
  | cons v visits ih =>
    have hfirst : ∀ p ∈ (r.visit v).2, p.2 := fun p hp => ht p (List.mem_append_left _ hp)
    have hrest : ∀ p ∈ ((r.visit v).1.visitAll visits).2, p.2 :=
      fun p hp => ht p (List.mem_append_right _ hp)
    obtain ⟨hprompt, hsampler⟩ := h.visit v
    rw [Rig.visitAll, ih hprompt hrest, (h.transmitter_visit hfirst).2, hsampler,
      ← Transmitter.run_append, Sampler.inputs, List.append_assoc]
    rfl

/-- Nothing waits when the edges come, so there is room for both. -/
theorem Prompt.taken_visit (h : r.Prompt) (hs : 3 ≤ r.station.channel.size) (v : Visit) :
    ∀ p ∈ (r.visit v).2, p.2 := by
  rw [visit_eq]
  apply taken_pushAll
  have := r.sampler.length_visit_le v
  rw [h.pending, List.length_nil, Channel.places]
  omega

theorem Prompt.taken_visitAll (h : r.Prompt) (hs : 3 ≤ r.station.channel.size) :
    ∀ p ∈ (r.visitAll visits).2, p.2 := by
  induction visits generalizing r with
  | nil => simp [Rig.visitAll]
  | cons v visits ih =>
    have hfirst := h.taken_visit hs v
    have hsize := (h.transmitter_visit hfirst).1
    intro p hp
    rcases List.mem_append.mp hp with hp | hp
    · exact hfirst p hp
    · exact ih (h.visit v).1 (hsize ▸ hs) p hp

/-- The engine sees the levels that the sampler shows. -/
structure InStep (r : Rig) : Prop extends Prompt r where
  paddles : r.station.engine.paddles = r.sampler.levels

theorem InStep.visit (h : r.InStep) (ht : ∀ p ∈ (r.visit v).2, p.2) : (r.visit v).1.InStep := by
  obtain ⟨hprompt, hsampler⟩ := h.toPrompt.visit v
  refine ⟨hprompt, ?_⟩
  have hengine : (r.visit v).1.station.engine =
      (r.station.engine.run ((r.sampler.visit v).2.map .edge ++ [.tick v.ticked])).engine := by
    have htransmitter := (h.toPrompt.transmitter_visit ht).2
    rw [Transmitter.run_eq] at htransmitter
    exact congrArg Transmitter.engine htransmitter
  rw [hengine, hsampler, Engine.run_append, Outcome.andThen_engine]
  exact (Engine.tick_frame _ v.ticked).2.1.trans (Sampler.paddles_run_visit h.paddles v)

/-- The script moves the contacts only. -/
theorem InStep.play (h : r.InStep) (now : Instant) : (r.play now).InStep := by
  rw [Rig.play]
  split
  · exact ⟨⟨h.everyRound, h.pending⟩, h.paddles⟩
  · exact h

theorem run_cons (r : Rig) (now : Instant) (times : List Instant) :
    r.run (now :: times) = (((r.round now).1.run times).1,
      (r.round now).2 :: ((r.round now).1.run times).2) := rfl

/-- In rounds by a script, as in visits, the engine sees the sampler's levels as long as the channel
has taken every edge. -/
theorem InStep.run (h : r.InStep) {times : List Instant}
    (ht : ∀ round ∈ (r.run times).2, ∀ p ∈ round.edges, p.2) : (r.run times).1.InStep := by
  induction times generalizing r with
  | nil => exact h
  | cons now times ih =>
    rw [run_cons] at ht ⊢
    obtain ⟨hfirst, hrest⟩ := List.forall_mem_cons.mp ht
    obtain ⟨hrig, hedges⟩ := r.round_eq_visit now
    rw [hedges] at hfirst
    have hround : (r.round now).1.InStep := by
      rw [hrig]
      exact (h.play now).visit hfirst
    exact ih hround hrest

/-- From rest, with any swap, any size of the channel and any configuration: after each visit no
edge waits, and if the channel has taken every edge so far the engine sees the levels that the
sampler shows. A channel in which two edges can wait takes them all. -/
theorem contacts_reach_engine (swapped : Bool) (size : Nat) (c : Config) (keyLine : KeyLine)
    (visits : List Visit) :
    let after := (rest swapped size c keyLine).visitAll visits
    after.1.station.channel.pending = [] ∧
      ((∀ p ∈ after.2, p.2) → after.1.station.engine.paddles = after.1.sampler.levels) ∧
      (3 ≤ size → ∀ p ∈ after.2, p.2) := by
  intro after
  have hrest : (rest swapped size c keyLine).Prompt := ⟨Nat.le_refl 1, rfl⟩
  obtain ⟨hprompt, hsampler⟩ := hrest.visitAll visits
  refine ⟨hprompt.pending, ?_, fun hs => hrest.taken_visitAll hs⟩
  intro ht
  have hengine : after.1.station.engine =
      ((Engine.rest c).run ((Sampler.rest.setSwap swapped).inputs visits)).engine := by
    have htransmitter := hrest.transmitter_visitAll ht
    rw [Transmitter.run_eq] at htransmitter
    exact congrArg Transmitter.engine htransmitter
  have hopen : (Engine.rest c).paddles = (Sampler.rest.setSwap swapped).levels := by
    cases swapped <;> rfl
  rw [hengine, hsampler]
  exact Sampler.paddles_run_inputs hopen visits

/-- Both contacts close at once, one of them cannot be read, and the other one opens and is
debounced. With the swap the paddle of the dit is the one that stays closed. -/
theorem contacts_reach_engine_of_squeeze :
    let visits : List Visit := [⟨[], .zero, .low, .low, .zero⟩,
      ⟨[], .clamp 10, .low, .failed, .clamp 20⟩, ⟨[100, -1], .clamp 30, .high, .low, .clamp 30⟩,
      ⟨[], .clamp 130, .high, .low, .clamp 140⟩]
    let after := (rest true 3 .standard (.idle (fun _ => false) false)).visitAll visits
    ((∀ p ∈ after.2, p.2) ∧ after.2.length = 3 ∧ after.1.sampler.levels = .only .dit) ∧
      after.1.station.channel.pending = [] ∧
      after.1.station.engine.paddles = after.1.sampler.levels ∧ ∀ p ∈ after.2, p.2 := by
  intro visits after
  have ht : ∀ p ∈ after.2, p.2 := by decide
  have h := contacts_reach_engine true 3 .standard (.idle (fun _ => false) false) visits
  exact ⟨⟨ht, by decide, by decide⟩, h.1, h.2.1 ht, h.2.2 (by decide)⟩

/-- With room for one edge only, the second of two that come at once is lost. -/
example :
    let after := (rest false 2 .standard (.idle (fun _ => false) false)).visitAll
      [⟨[], .zero, .low, .low, .zero⟩]
    after.2.map Prod.snd = [true, false] ∧ after.1.sampler.levels = .both ∧
      after.1.station.engine.paddles = .only .dit := by
  decide

end Rig
end Iambic
