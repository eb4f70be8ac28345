import Iambic.Trace
import Mathlib.Data.List.Sort

/-!
# The order of the edges of a trace

A trace is put in order by time, and edges of one time stay in their order. These two facts fix what
comes out: a trace that is ordered by time is known from its edges at each time.
-/
namespace Iambic.Trace
variable {t u : Trace} {edge : Edge} {time : Instant}

instance : Std.Total fun a b : Edge => a.time ≤ b.time :=
  ⟨fun a b => Int.le_total a.time.us b.time.us⟩

instance : IsTrans Edge fun a b => a.time ≤ b.time := ⟨fun _ _ _ => Instant.le_trans⟩

theorem insert_eq (edge : Edge) (t : Trace) :
    insert edge t = t.orderedInsert (fun a b => a.time ≤ b.time) edge := by
  induction t with
  | nil => rfl
  | cons next rest ih => rw [insert, List.orderedInsert_cons, ih]

theorem ordered_eq (t : Trace) : t.ordered = t.insertionSort fun a b => a.time ≤ b.time := by
  induction t with
  | nil => rfl
  | cons edge t ih =>
    rw [List.insertionSort_cons, ← ih, ← insert_eq]
    rfl

theorem pairwise_ordered (t : Trace) : t.ordered.Pairwise fun a b => a.time ≤ b.time := by
  rw [ordered_eq]
  exact List.pairwise_insertionSort _ t

/-- The edges of one time, in their order. -/
def simultaneous (t : Trace) (time : Instant) : Trace := t.filter fun edge => edge.time = time

theorem simultaneous_cons (edge : Edge) (t : Trace) (time : Instant) :
    simultaneous (edge :: t) time =
      if edge.time = time then edge :: t.simultaneous time else t.simultaneous time := by
  simp only [simultaneous, List.filter_cons, decide_eq_true_eq]

theorem mem_simultaneous :
    edge ∈ t.simultaneous time ↔ edge ∈ t ∧ edge.time = time := by
  simp [simultaneous]

theorem simultaneous_filter (t : Trace) (p : Instant → Bool) (time : Instant) :
    simultaneous (t.filter fun edge => p edge.time) time =
      if p time then t.simultaneous time else [] := by
  induction t with
  | nil => simp [simultaneous]
  | cons edge t ih =>
    by_cases hedge : edge.time = time
    · subst hedge
      by_cases hp : p edge.time <;> simp [simultaneous_cons, hp, ih]
    · by_cases hp : p edge.time <;> simp [simultaneous_cons, hp, hedge, ih]

/-- An edge passes only edges of other times. -/
theorem simultaneous_insert (edge : Edge) (t : Trace) (time : Instant) :
    (insert edge t).simultaneous time = simultaneous (edge :: t) time := by
  induction t with
  | nil => rfl
  | cons next rest ih =>
    rw [insert]
    split
    · rfl
    · rename_i hlate
      have hne : ¬ (edge.time = time ∧ next.time = time) := by
        rintro ⟨rfl, hnext⟩
        exact hlate (hnext ▸ Instant.le_refl _)
      simp only [simultaneous_cons, ih]
      by_cases hedge : edge.time = time
      · have hnext : next.time ≠ time := fun hnext => hne ⟨hedge, hnext⟩
        simp only [if_pos hedge, if_neg hnext]
      · simp only [if_neg hedge]

/-- Edges of one time stay in their order. -/
theorem simultaneous_ordered (t : Trace) (time : Instant) :
    t.ordered.simultaneous time = t.simultaneous time := by
  induction t with
  | nil => rfl
  | cons edge t ih =>
    change (insert edge (ordered t)).simultaneous time = _
    rw [simultaneous_insert, simultaneous_cons, simultaneous_cons, ih]

theorem time_le_of_mem {first : Edge} (ht : (first :: t).Pairwise fun a b => a.time ≤ b.time)
    (h : edge ∈ first :: t) : first.time ≤ edge.time := by
  rcases List.mem_cons.mp h with rfl | h
  · exact Instant.le_refl _
  · exact (List.pairwise_cons.mp ht).1 edge h

/-- Edges that are ordered by time are known from the edges of each time. -/
theorem eq_of_simultaneous_eq (ht : t.Pairwise fun a b => a.time ≤ b.time)
    (hu : u.Pairwise fun a b => a.time ≤ b.time)
    (h : ∀ time, t.simultaneous time = u.simultaneous time) : t = u := by
  induction t generalizing u with
  | nil =>
    cases u with
    | nil => rfl
    | cons b u => simpa [simultaneous] using h b.time
  | cons a t ih =>
    cases u with
    | nil => simpa [simultaneous] using h a.time
    | cons b u =>
      have ha : a ∈ b :: u :=
        (mem_simultaneous.mp (h a.time ▸ mem_simultaneous.mpr ⟨List.mem_cons_self, rfl⟩)).1
      have hb : b ∈ a :: t :=
        (mem_simultaneous.mp (h b.time ▸ mem_simultaneous.mpr ⟨List.mem_cons_self, rfl⟩)).1
      -- Each of the two is among the other's edges, so neither comes later.
      have hab : b.time = a.time :=
        Instant.ext (Int.le_antisymm (time_le_of_mem hu ha) (time_le_of_mem ht hb))
      obtain rfl : a = b := by
        have hfirst := h a.time
        rw [simultaneous_cons, simultaneous_cons, if_pos rfl, if_pos hab] at hfirst
        exact (List.cons.inj hfirst).1
      rw [ih ht.of_cons hu.of_cons]
      intro time
      have hrest := h time
      rw [simultaneous_cons, simultaneous_cons] at hrest
      split at hrest
      · exact (List.cons.inj hrest).2
      · exact hrest

end Iambic.Trace
