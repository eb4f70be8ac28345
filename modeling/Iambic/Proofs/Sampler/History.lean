import Iambic.Proofs.Sampler.Replay
import Mathlib.Data.List.Chain
import Mathlib.Data.List.DropRight

/-!
# What debouncing tells

A contact keeps a candidate and a date. They stand for the whole history of its readings: the
candidate is the level that was read last, and the date is that of the first reading since which the
level has held. So a level is told just when it has held for the debounce time and is not the one
that was told before.
-/
namespace Iambic

/-- What a sample finds at one contact. -/
structure Glimpse where
  time : Instant
  closed : Bool
deriving DecidableEq

/-- The time of the first of those last glimpses that all show the level. -/
def heldSince? (closed : Bool) (seen : List Glimpse) : Option Instant :=
  (seen.rtakeWhile (·.closed = closed)).head?.map (·.time)

theorem heldSince?_concat (closed : Bool) (seen : List Glimpse) (g : Glimpse) :
    heldSince? closed (seen ++ [g]) =
      if g.closed = closed then some ((heldSince? closed seen).getD g.time) else none := by
  rw [heldSince?, heldSince?, List.rtakeWhile_concat]
  by_cases h : g.closed = closed
  · rw [if_pos (by simpa using h), if_pos h]
    cases seen.rtakeWhile (·.closed = closed) <;> rfl
  · rw [if_neg (by simpa using h), if_neg h]
    rfl

theorem heldSince?_eq_none {closed : Bool} {seen : List Glimpse}
    (h : ∀ g ∈ seen.getLast?, g.closed ≠ closed) : heldSince? closed seen = none := by
  induction seen using List.reverseRecOn with
  | nil => rfl
  | append_singleton seen g _ => rw [heldSince?_concat, if_neg (h g (by simp))]

namespace Contact
variable {c : Contact} {seen : List Glimpse}

/-- The candidate is the level that was seen last. Unless it is the contact's level, it is dated to
the glimpse since which it has held. -/
structure Follows (c : Contact) (seen : List Glimpse) : Prop where
  last : ∀ g ∈ seen.getLast?, g.closed = c.candidate
  dated : c.stable = c.candidate ∨ heldSince? c.candidate seen = some c.since

theorem follows_rest : rest.Follows [] := ⟨by simp, .inl rfl⟩

theorem Follows.follow (h : c.Follows seen) (closed : Bool) (now : Instant) :
    (c.follow closed now).Follows (seen ++ [⟨now, closed⟩]) := by
  refine ⟨by simp, ?_⟩
  rw [candidate_follow, stable_follow, heldSince?_concat, if_pos rfl]
  by_cases hc : closed = c.candidate
  · rw [Contact.follow, if_pos hc, hc]
    refine h.dated.imp_right fun hdated => ?_
    rw [hdated]
    rfl
  · -- Another level was seen last, so this one has held since now.
    right
    have hnone : heldSince? closed seen = none := by
      apply heldSince?_eq_none
      intro g hg hclosed
      exact hc (hclosed.symm.trans (h.last g hg))
    rw [hnone, Contact.follow, if_neg hc]
    rfl

theorem Follows.settle (h : c.Follows seen) (debounce : Nat) (now : Instant) :
    (c.settle debounce now).Follows seen := by
  unfold Contact.settle
  split
  · exact ⟨h.last, .inl rfl⟩
  · exact h

theorem Follows.observe (h : c.Follows seen) (debounce : Nat) (closed : Bool) (now : Instant) :
    (c.observe debounce closed now).Follows (seen ++ [⟨now, closed⟩]) :=
  (h.follow closed now).settle debounce now

/-- A reading changes the level just if it is another level that has held for the debounce time. -/
theorem Follows.change?_observe (h : c.Follows seen) (debounce : Nat) (closed v : Bool)
    (now : Instant) :
    c.change? (c.observe debounce closed now) = some v ↔ closed = v ∧ c.stable ≠ v ∧
      ∃ t, heldSince? v (seen ++ [⟨now, closed⟩]) = some t ∧ (debounce : Int) ≤ now.since t := by
  have hdated := (h.follow closed now).dated
  rw [candidate_follow, stable_follow] at hdated
  rw [change?, stable_observe]
  by_cases hc : c.stable = closed
  · rw [hc, ite_self, if_pos rfl]
    refine iff_of_false (Option.some_ne_none v).symm ?_
    rintro ⟨hclosed, hne, -⟩
    exact hne hclosed
  · have hsince := hdated.resolve_left hc
    by_cases hheld : (debounce : Int) ≤ now.since (c.follow closed now).since
    · rw [if_pos hheld, if_neg (Ne.symm hc), Option.some.injEq]
      constructor
      · rintro rfl
        exact ⟨rfl, hc, _, hsince, hheld⟩
      · exact And.left
    · rw [if_neg hheld, if_pos rfl]
      refine iff_of_false (Option.some_ne_none v).symm ?_
      rintro ⟨rfl, -, t, ht, hlong⟩
      obtain rfl : _ = t := Option.some.inj (hsince.symm.trans ht)
      exact hheld hlong

end Contact

namespace Sampler
variable {s : Sampler} {x : Element} {now : Instant} {dit dah : Reading}

def contact (s : Sampler) : Element → Contact
  | .dit => s.dit
  | .dah => s.dah

theorem stable_contact (s : Sampler) (x : Element) : (s.contact x).stable = s.contacts.has x := by
  cases x <;> rfl

/-- Both contacts, if both could be read. -/
def closed? (dit dah : Reading) : Option ElementSet :=
  match dit.closed?, dah.closed? with
  | some ditClosed, some dahClosed => some ⟨ditClosed, dahClosed⟩
  | _, _ => none

/-- What an act finds at a contact: a sample that succeeds finds its level. -/
def Act.glimpse? (x : Element) : Act → Option Glimpse
  | .sample now dit dah => (closed? dit dah).map fun closed => ⟨now, closed.has x⟩
  | _ => none

/-- The readings of a contact in the samples that have succeeded. -/
def glimpses (x : Element) (acts : List Act) : List Glimpse := acts.filterMap (Act.glimpse? x)

/-- The debounce time that an act sets. -/
def Act.debounce? : Act → Option Nat
  | .debounce us => if 0 ≤ us ∧ us ≤ maxDebounce then some us.toNat else none
  | _ => none

/-- A sample succeeds if both contacts could be read. -/
theorem sample_eq (s : Sampler) (now : Instant) (dit dah : Reading) :
    s.sample now dit dah =
      match closed? dit dah with
      | some closed => (((s.countReads dit).observe closed now).1, .ok (s.observe closed now).2)
      | none => (s.countReads dit, .error .pinFailed) := by
  unfold sample closed?
  cases dit.closed? <;> cases dah.closed? <;> rfl

theorem act_sample (s : Sampler) (now : Instant) (dit dah : Reading) :
    s.act (.sample now dit dah) =
      match closed? dit dah with
      | some closed => (((s.countReads dit).observe closed now).1, (s.observe closed now).2)
      | none => (s.countReads dit, []) := by
  rw [act, sample_eq]
  cases closed? dit dah <;> rfl

theorem contact_observe (s : Sampler) (closed : ElementSet) (now : Instant) (x : Element) :
    (s.observe closed now).1.contact x =
      (s.contact x).observe s.debounce (closed.has x) now := by
  cases x <;> rfl

theorem contact_countReads (s : Sampler) (dit : Reading) (x : Element) :
    (s.countReads dit).contact x = s.contact x := by
  cases x <;> rfl

/-- Nothing but what is found at a contact changes it. -/
theorem contact_act (s : Sampler) (a : Act) (x : Element) :
    (s.act a).1.contact x =
      match a.glimpse? x with
      | some g => (s.contact x).observe s.debounce g.closed g.time
      | none => s.contact x := by
  cases a with
  | sample now dit dah =>
    rw [act_sample, Act.glimpse?]
    cases closed? dit dah with
    | none => exact s.contact_countReads dit x
    | some closed =>
      change ((s.countReads dit).observe closed now).1.contact x = _
      rw [contact_observe, contact_countReads]
      rfl
  | debounce us =>
    rw [act_debounce]
    cases x <;> rfl
  | swap swapped => cases x <;> rfl
  | adopt k => cases x <;> rfl

theorem debounce_act (s : Sampler) (a : Act) :
    (s.act a).1.debounce = a.debounce?.getD s.debounce := by
  cases a with
  | sample now dit dah =>
    rw [act_sample]
    cases closed? dit dah <;> rfl
  | debounce us =>
    rw [act_debounce, Act.debounce?]
    split <;> rfl
  | swap swapped => rfl
  | adopt k => rfl

theorem glimpses_cons (x : Element) (a : Act) (acts : List Act) :
    glimpses x (a :: acts) = (a.glimpse? x).toList ++ glimpses x acts := by
  rw [glimpses, List.filterMap_cons]
  cases a.glimpse? x <;> rfl

theorem follows_act {seen : List Glimpse} (h : (s.contact x).Follows seen) (a : Act) :
    ((s.act a).1.contact x).Follows (seen ++ (a.glimpse? x).toList) := by
  rw [contact_act]
  cases a.glimpse? x with
  | none => simpa using h
  | some g => exact h.observe s.debounce g.closed g.time

theorem follows_run {seen : List Glimpse} (h : (s.contact x).Follows seen) (acts : List Act) :
    ((s.run acts).1.contact x).Follows (seen ++ glimpses x acts) := by
  induction acts generalizing s seen with
  | nil => simpa [glimpses, run] using h
  | cons a acts ih =>
    rw [glimpses_cons, ← List.append_assoc]
    exact ih (follows_act h a)

/-- The debounce time is the one that was accepted last. -/
theorem debounce_run (s : Sampler) (acts : List Act) :
    (s.run acts).1.debounce = (acts.filterMap Act.debounce?).getLastD s.debounce := by
  induction acts generalizing s with
  | nil => rfl
  | cons a acts ih =>
    change ((s.act a).1.run acts).1.debounce = _
    rw [ih, debounce_act, List.filterMap_cons]
    cases a.debounce? with
    | none => rfl
    | some us => rw [List.getLastD_cons]; rfl

/-! ## The levels that are told of one contact -/

/-- The levels told of a contact, among the edges of one act. -/
def levelsOf (s : Sampler) (x : Element) (edges : List Edge) : List Bool :=
  edges.filterMap fun edge => if edge.line = .paddle (s.paddle x) then some edge.closed else none

/-- All levels told of a contact, under whatever name. -/
def told (s : Sampler) (x : Element) : List Act → List Bool
  | [] => []
  | a :: acts => s.levelsOf x (s.act a).2 ++ (s.act a).1.told x acts

theorem levelsOf_edges (s : Sampler) (x y : Element) (before after : Contact) (now : Instant) :
    s.levelsOf x (s.edges y before after now) =
      if y = x then (before.change? after).toList else [] := by
  rw [levelsOf, edges]
  cases before.change? after with
  | none => simp
  | some closed => by_cases h : y = x <;> simp [paddle_eq_paddle_iff, h]

theorem levelsOf_observe (s : Sampler) (closed : ElementSet) (now : Instant) (x : Element) :
    s.levelsOf x (s.observe closed now).2 =
      ((s.contact x).change? ((s.observe closed now).1.contact x)).toList := by
  change s.levelsOf x (s.edges .dit s.dit _ now ++ s.edges .dah s.dah _ now) = _
  rw [levelsOf, List.filterMap_append, ← levelsOf, ← levelsOf, levelsOf_edges, levelsOf_edges]
  cases x
  · exact List.append_nil _
  · rfl

/-- Of a contact its change is told, and nothing else. -/
theorem levelsOf_act (s : Sampler) (a : Act) (x : Element) :
    s.levelsOf x (s.act a).2 = ((s.contact x).change? ((s.act a).1.contact x)).toList := by
  have hquiet (after : Sampler × List Edge) (hedges : after.2 = [])
      (hcontact : after.1.contact x = s.contact x) :
      s.levelsOf x after.2 = ((s.contact x).change? (after.1.contact x)).toList := by
    rw [hedges, hcontact, Contact.change?, if_pos rfl]
    rfl
  have hcontact := s.contact_act a x
  cases a with
  | sample now dit dah =>
    rw [act_sample]
    cases closed? dit dah with
    | none => exact hquiet _ rfl (s.contact_countReads dit x)
    | some closed => exact s.levelsOf_observe closed now x
  | debounce us =>
    refine hquiet _ ?_ hcontact
    rw [act]
    split <;> rfl
  | swap swapped => exact hquiet _ rfl hcontact
  | adopt k => exact hquiet _ rfl hcontact

/-- The levels told of a contact bring it from the first level to the last one, each to another. -/
theorem isChain_told (s : Sampler) (x : Element) (acts : List Act) :
    ((s.contact x).stable :: s.told x acts).IsChain (· ≠ ·) ∧
      ((s.run acts).1.contact x).stable = (s.told x acts).getLastD (s.contact x).stable := by
  induction acts generalizing s with
  | nil => exact ⟨.singleton _, rfl⟩
  | cons a acts ih =>
    obtain ⟨hchain, hlast⟩ := ih (s.act a).1
    change _ ∧ (((s.act a).1.run acts).1.contact x).stable = _
    rw [hlast, told, levelsOf_act, Contact.change?]
    by_cases h : ((s.act a).1.contact x).stable = (s.contact x).stable
    · rw [if_pos h, ← h]
      exact ⟨hchain, rfl⟩
    · rw [if_neg h]
      refine ⟨List.isChain_cons_cons.mpr ⟨Ne.symm h, hchain⟩, ?_⟩
      change _ = (_ :: (s.act a).1.told x acts).getLastD _
      rw [List.getLastD_cons]

/-- The edges of a sample are those of the dit contact and then those of the dah contact, one of
each at most, and they bear its time. -/
theorem lines_observe (s : Sampler) (closed : ElementSet) (now : Instant) :
    ((s.observe closed now).2.map fun edge => (edge.line, edge.time)).Sublist
      [(.paddle (s.paddle .dit), now), (.paddle (s.paddle .dah), now)] := by
  have hline (x : Element) (before after : Contact) :
      ((s.edges x before after now).map fun edge => (edge.line, edge.time)).Sublist
        [(.paddle (s.paddle x), now)] := by
    rw [edges]
    cases before.change? after with
    | none => exact List.nil_sublist _
    | some closed => exact List.Sublist.refl _
  change ((s.edges .dit s.dit _ now ++ s.edges .dah s.dah _ now).map _).Sublist _
  rw [List.map_append]
  exact (hline .dit _ _).append (hline .dah _ _)

theorem mem_observe_iff (s : Sampler) (closed : ElementSet) (now : Instant) (x : Element)
    (v : Bool) :
    ⟨.paddle (s.paddle x), v, now⟩ ∈ (s.observe closed now).2 ↔
      (s.contact x).change? ((s.contact x).observe s.debounce (closed.has x) now) = some v := by
  rw [← contact_observe, ← Option.mem_toList, ← levelsOf_observe, levelsOf, List.mem_filterMap]
  constructor
  · intro h
    exact ⟨_, h, if_pos rfl⟩
  · rintro ⟨⟨line, level, time⟩, hedge, htold⟩
    obtain ⟨rfl, hlevel⟩ := Option.ite_none_right_eq_some.mp htold
    obtain rfl : level = v := Option.some.inj hlevel
    obtain rfl : time = now := by
      have htime := (s.lines_observe closed now).subset (List.mem_map_of_mem hedge)
      simp only [List.mem_cons, Prod.mk.injEq, List.not_mem_nil, or_false] at htime
      exact htime.elim And.right And.right
    exact hedge

/-! ## The whole of it -/

/-- Debouncing tells just the levels that have held. After any acts, a sample in which both contacts
can be read tells a level of a contact if and only if it reads this level, the contact is at the other
one, and the samples have read it without a break for the debounce time, which is the one that was
accepted last; samples that failed do not count. It tells one edge of each contact at most, the dit
contact's first, and at its own time. A sample in which a contact cannot be read fails and leaves
both contacts as they are, and a debounce time that is refused leaves the sampler as it is. The levels
told of a contact alternate, beginning with the closed one, and the contact is at the last of them. -/
theorem debounce_tells_held_levels (acts : List Act) :
    let s := (rest.run acts).1
    (∀ now dit dah, match closed? dit dah with
      | some closed => ∃ edges, (s.sample now dit dah).2 = .ok edges ∧
          (edges.map fun edge => (edge.line, edge.time)).Sublist
            [(.paddle (s.paddle .dit), now), (.paddle (s.paddle .dah), now)] ∧
          ∀ x v, ⟨.paddle (s.paddle x), v, now⟩ ∈ edges ↔
            closed.has x = v ∧ s.contacts.has x ≠ v ∧
              ∃ t, heldSince? v (glimpses x (acts ++ [.sample now dit dah])) = some t ∧
                ((acts.filterMap Act.debounce?).getLastD 0 : Int) ≤ now.since t
      | none => (s.sample now dit dah).2 = .error .pinFailed ∧
          (∀ x, (s.sample now dit dah).1.contact x = s.contact x) ∧
          (s.sample now dit dah).1.levels = s.levels) ∧
    (∀ us, s.setDebounce us = .error .outOfRange → (s.act (.debounce us)).1 = s) ∧
    ∀ x, (false :: rest.told x acts).IsChain (· ≠ ·) ∧
      s.contacts.has x = (rest.told x acts).getLastD false := by
  intro s
  refine ⟨fun now dit dah => ?_, ?_, ?_⟩
  · rw [sample_eq]
    cases hread : closed? dit dah with
    | some closed =>
      refine ⟨_, rfl, s.lines_observe closed now, fun x v => ?_⟩
      have hseen : glimpses x (acts ++ [.sample now dit dah]) =
          glimpses x acts ++ [⟨now, closed.has x⟩] := by
        rw [glimpses, List.filterMap_append, ← glimpses]
        simp [Act.glimpse?, hread]
      have hfollows : (s.contact x).Follows ([] ++ glimpses x acts) :=
        follows_run (by cases x <;> exact Contact.follows_rest) acts
      have hdebounce : s.debounce = (acts.filterMap Act.debounce?).getLastD 0 :=
        debounce_run rest acts
      rw [mem_observe_iff, hfollows.change?_observe, hseen, ← hdebounce, stable_contact]
      rfl
    | none => exact ⟨rfl, s.contact_countReads dit, rfl⟩
  · intro us hrefused
    rw [act, hrefused]
  · intro x
    have hrest : (rest.contact x).stable = false := by cases x <;> rfl
    obtain ⟨hchain, hlast⟩ := rest.isChain_told x acts
    rw [hrest] at hchain hlast
    exact ⟨hchain, (s.stable_contact x).symm.trans hlast⟩

/-- A contact bounces, and one sample fails while it is held. -/
theorem debounce_tells_held_levels_of_bounce :
    let acts := [.debounce 5000, .sample .zero .low .high, .sample (.clamp 1000) .high .high,
      .sample (.clamp 2000) .low .high, .sample (.clamp 3000) .failed .high]
    ∃ edges, ((rest.run acts).1.sample (.clamp 7000) .low .high).2 = .ok edges ∧
      ⟨.paddle .dit, true, .clamp 7000⟩ ∈ edges := by
  intro acts
  obtain ⟨edges, hedges, -, htells⟩ :=
    (debounce_tells_held_levels acts).1 (.clamp 7000) .low .high
  exact ⟨edges, hedges, (htells .dit true).mpr ⟨rfl, by decide, .clamp 2000, by decide, by decide⟩⟩

end Sampler
end Iambic
