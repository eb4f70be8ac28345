import Iambic.Channel.Run

/-!
# Nothing is lost in the channel

What the channel takes comes out in the same order, however pushes and pops alternate. It refuses an
edge when all places are taken and only then, and counts it. So the script alone tells which edges
it takes.
-/
namespace Iambic.Channel
variable {c c' : Channel} {n : Nat} {log : List Event} {edge : Edge}

/-- What holds of a channel of size `n` that was empty at first and has gone through the events of
the log. -/
structure Conserves (n : Nat) (c : Channel) (log : List Event) : Prop where
  size : c.size = n
  room : c.pending.length ≤ n - 1
  order : log.filterMap Event.popped? ++ c.pending = log.filterMap Event.taken?
  dropped : c.dropped.toNat = (log.filterMap Event.refused?).length % 0x100000000
  /-- An edge is refused when all places are taken, and then it is only counted. -/
  push : ∀ edge, c.push edge =
    if c.pending.length = n - 1 then ({ c with dropped := c.dropped + 1 }, false)
    else ({ c with pending := c.pending ++ [edge] }, true)

theorem push_eq (hs : c.size = n) (hr : c.pending.length ≤ n - 1) (edge : Edge) :
    c.push edge =
      if c.pending.length = n - 1 then ({ c with dropped := c.dropped + 1 }, false)
      else ({ c with pending := c.pending ++ [edge] }, true) := by
  have hplaces : c.places = n - 1 := congrArg (· - 1) hs
  by_cases hfull : c.pending.length = n - 1
  · rw [if_pos hfull]
    exact push_of_le (by omega) edge
  · rw [if_neg hfull]
    exact push_of_lt (by omega) edge

theorem pending_of_pop (hp : c.pop = some (edge, c')) :
    c.pending = edge :: c'.pending ∧ c' = { c with pending := c'.pending } := by
  cases hq : c.pending with
  | nil => simp [pop, hq] at hp
  | cons first pending =>
    simp only [pop, hq, Option.some.injEq, Prod.mk.injEq] at hp
    obtain ⟨rfl, rfl⟩ := hp
    exact ⟨rfl, rfl⟩

theorem places_of_pop (hp : c.pop = some (edge, c')) : c'.places = c.places := by
  rw [(pending_of_pop hp).2]
  rfl

theorem pending_of_pop_eq_none (hp : c.pop = none) : c.pending = [] := by
  cases hq : c.pending with
  | nil => rfl
  | cons first pending => simp [pop, hq] at hp

theorem empty_conserves (n : Nat) : Conserves n (empty n) [] :=
  ⟨rfl, Nat.zero_le _, rfl, rfl, push_eq rfl (Nat.zero_le _)⟩

theorem Conserves.act_push (h : Conserves n c log) (edge : Edge) :
    Conserves n (c.act (.push edge)).1 (log ++ (c.act (.push edge)).2) := by
  have hs := h.size
  have hr := h.room
  rw [Channel.act, h.push edge]
  by_cases hfull : c.pending.length = n - 1
  · rw [if_pos hfull]
    refine ⟨hs, hr, ?_, ?_, push_eq hs hr⟩
    · simpa [Event.ofPush, List.filterMap_cons] using h.order
    · simp [Event.ofPush, UInt32.toNat_add, h.dropped]
  · rw [if_neg hfull]
    have hroom : (c.pending ++ [edge]).length ≤ n - 1 := by
      rw [List.length_append, List.length_singleton]
      omega
    refine ⟨hs, hroom, ?_, ?_, push_eq hs hroom⟩
    · simp [Event.ofPush, List.filterMap_cons, ← h.order]
    · simpa [Event.ofPush, List.filterMap_cons] using h.dropped

theorem Conserves.pop (h : Conserves n c log) (hp : c.pop = some (edge, c')) :
    Conserves n c' (log ++ [.popped edge]) := by
  obtain ⟨hpending, hc⟩ := pending_of_pop hp
  have hs : c'.size = n := by rw [hc]; exact h.size
  have hr : c'.pending.length ≤ n - 1 := by
    have := h.room
    rw [hpending, List.length_cons] at this
    omega
  refine ⟨hs, hr, ?_, ?_, push_eq hs hr⟩
  · simpa [List.filterMap_cons, hpending] using h.order
  · rw [hc]
    simpa [List.filterMap_cons] using h.dropped

theorem Conserves.act (h : Conserves n c log) (a : Act) :
    Conserves n (c.act a).1 (log ++ (c.act a).2) := by
  cases a with
  | push edge => exact h.act_push edge
  | pop =>
    rw [Channel.act]
    split
    · rename_i hp
      exact h.pop hp
    · simpa using h

theorem Conserves.run (h : Conserves n c log) (acts : List Act) :
    Conserves n (c.run acts).1 (log ++ (c.run acts).2) := by
  induction acts generalizing c log with
  | nil => simpa [Channel.run] using h
  | cons a acts ih =>
    rw [Channel.run, ← List.append_assoc]
    exact ih (h.act a)

/-! ## The log and the script -/

theorem pushed_ofPush (edge : Edge) (taken : Bool) :
    (Event.ofPush edge taken).pushed? = some edge := by
  cases taken <;> rfl

theorem pushed_act (c : Channel) (a : Act) :
    (c.act a).2.filterMap Event.pushed? = a.pushed?.toList := by
  cases a with
  | push edge => exact List.filterMap_cons_some (pushed_ofPush edge (c.push edge).2)
  | pop =>
    rw [act]
    split <;> rfl

/-- Each push of the script is taken or refused, in its turn. -/
theorem pushed_run (c : Channel) (acts : List Act) :
    (c.run acts).2.filterMap Event.pushed? = acts.filterMap Act.pushed? := by
  induction acts generalizing c with
  | nil => rfl
  | cons a acts ih =>
    rw [run, List.filterMap_append, ih, pushed_act]
    cases a <;> rfl

theorem taken_run (c : Channel) (acts : List Act) :
    (c.run acts).2.filterMap Event.taken? = accepted c.places c.pending.length acts := by
  induction acts generalizing c with
  | nil => rfl
  | cons a acts ih =>
    rw [run, List.filterMap_append, ih]
    cases a with
    | push edge =>
      rw [act, accepted]
      by_cases h : c.pending.length < c.places
      · rw [if_pos h, push_of_lt h]
        simp [Event.ofPush, places]
      · rw [if_neg h, push_of_le (Nat.not_lt.mp h)]
        rfl
    | pop =>
      rw [act, accepted]
      split
      · rename_i edge c' hp
        obtain ⟨hpending, hc⟩ := pending_of_pop hp
        rw [hpending, hc]
        rfl
      · rename_i hp
        rw [pending_of_pop_eq_none hp]
        rfl

end Iambic.Channel
