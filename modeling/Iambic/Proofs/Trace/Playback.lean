import Iambic.Proofs.Engine.Steps
import Iambic.Proofs.Trace.Order
import Mathlib.Data.List.TakeWhile

/-!
# How a trace is played

The loop that plays a trace ticks the engine at the points of a grid, each of them once. An edge that
is due by the last tick is told once, right before the first tick that is not earlier than it; no
other edge is told. Only the order of the edges of one time matters for what is played.
-/
namespace Iambic

/-- The edge that the input tells. -/
def Input.edge? : Input → Option Edge
  | .edge e => some e
  | _ => none

namespace Instant

theorem grid_of_lt {first last : Instant} {step : Int} (h : last < first) :
    grid first last step = [] := if_pos h

/-- Short of a step nothing follows the first point. -/
theorem grid_eq_singleton {first last : Instant} {step : Int} (h : first ≤ last)
    (hs : last.us < first.us + max step 1) : grid first last step = [first] := by
  have hle := le_iff.mp h
  have hspan : (last.us - first.us) / max step 1 = 0 :=
    Int.ediv_eq_zero_of_lt (by omega) (by omega)
  have hfirst : clamp first.us = first := Instant.ext (us_clamp ⟨first.first_le, first.lt_end⟩)
  rw [grid, if_neg (not_lt.mpr h), hspan]
  simp [hfirst]

/-- A grid goes on as the grid from its next point. -/
theorem grid_eq_cons {first next last : Instant} {step : Int} (h : first ≤ last)
    (hnext : next.us = first.us + max step 1) :
    grid first last step = first :: grid next last step := by
  have hle := le_iff.mp h
  by_cases hl : last < next
  · rw [grid_of_lt hl]
    exact grid_eq_singleton h (hnext ▸ lt_iff.mp hl)
  · have hspan : (last.us - next.us) / max step 1 = (last.us - first.us) / max step 1 - 1 := by
      rw [show last.us - next.us = last.us - first.us - max step 1 by omega,
        Int.sub_ediv_of_dvd _ (Int.dvd_refl _), Int.ediv_self (by omega)]
    have hstep : 0 ≤ (last.us - next.us) / max step 1 :=
      Int.ediv_nonneg (Int.sub_nonneg.mpr (not_lt.mp hl)) (by omega)
    apply List.ext_getElem
    · rw [List.length_cons, length_grid, length_grid, if_neg (not_lt.mpr h), if_neg hl, hspan]
      omega
    · intro k hk hk'
      rw [Instant.ext_iff, us_getElem_grid]
      cases k with
      | zero => simp
      | succ k =>
        rw [List.getElem_cons_succ, us_getElem_grid, hnext, Int.natCast_succ, Int.add_mul]
        omega
end Instant

namespace Trace
variable {e : Engine} {t u : Trace} {edge : Edge} {now last : Instant} {times : List Instant}
  {step : Int}

/-! ## The loop -/

theorem tell_eq (e : Engine) (now : Instant) (t : Trace) :
    tell e now t = ((t.takeWhile fun edge => edge.time ≤ now).foldl Engine.onEdge e,
      t.dropWhile fun edge => edge.time ≤ now) := by
  induction t generalizing e with
  | nil => rfl
  | cons edge t ih =>
    by_cases h : edge.time ≤ now
    · rw [tell, if_pos h, ih, List.takeWhile_cons_of_pos (by simpa using h),
        List.dropWhile_cons_of_pos (by simpa using h)]
      rfl
    · rw [tell, if_neg h, List.takeWhile_cons_of_neg (by simpa using h),
        List.dropWhile_cons_of_neg (by simpa using h)]
      rfl

theorem run_schedule_cons (e : Engine) (t : Trace) (now : Instant) (times : List Instant) :
    e.run (t.schedule (now :: times)) = ((tell e now t).1.tick now).andThen fun f =>
      f.run ((tell e now t).2.schedule times) := by
  rw [tell_eq, schedule, Engine.run_append, Engine.run_edges]
  rfl

/-- The points of the grid are counted until the clock ends. -/
theorem playFrom_eq (step : Int) (last : Instant) (e : Engine) (t : Trace) (now : Instant) :
    playFrom step last e t now = ⟨e.run (t.schedule (Instant.grid now last step)),
      decide (0x8000000000000000 ≤
        now.us + (Instant.grid now last step).length * max step 1)⟩ := by
  induction e, t, now using playFrom.induct step last with
  | case1 e t now h told ticked next hnext ih =>
    have hus := Instant.ofInt?_eq_some_iff.mp hnext
    have hcount : now.us + ((Instant.grid next last step).length + 1 : Nat) * max step 1 =
        next.us + (Instant.grid next last step).length * max step 1 := by
      rw [hus, Int.natCast_succ, Int.add_mul]
      omega
    rw [playFrom, dif_pos h, Instant.grid_eq_cons h hus, run_schedule_cons, List.length_cons, hcount]
    split
    · rename_i next' hnext'
      obtain rfl : next = next' := Option.some.inj (hnext.symm.trans hnext')
      dsimp only
      rw [show playFrom step last ((tell e now t).1.tick now).engine (tell e now t).2 next = _ from ih]
      rfl
    · rename_i hnone
      exact nomatch hnext.symm.trans hnone
  | case2 e t now h hnext =>
    have hlast := last.lt_end
    have hnow := now.first_le
    have hend : 0x8000000000000000 ≤ now.us + max step 1 := by
      by_contra hlt
      rw [Instant.ofInt?, dif_pos (by omega)] at hnext
      exact nomatch hnext
    rw [playFrom, dif_pos h, Instant.grid_eq_singleton h (by omega), run_schedule_cons]
    split
    · rename_i next' hnext'
      exact nomatch hnext.symm.trans hnext'
    · simp [schedule, Outcome.andThen, hend]
  | case3 e t now h =>
    have hnow := now.lt_end
    rw [playFrom, dif_neg h, Instant.grid_of_lt (Instant.not_le.mp h)]
    simp [schedule, hnow]

/-! ## The schedule -/

theorem lt_of_mem_dropWhile (ht : t.Pairwise fun a b => a.time ≤ b.time)
    (h : edge ∈ t.dropWhile fun edge => edge.time ≤ now) : now < edge.time := by
  induction t with
  | nil => exact nomatch h
  | cons first t ih =>
    rcases List.pairwise_cons.mp ht with ⟨hfirst, ht⟩
    by_cases hn : first.time ≤ now
    · rw [List.dropWhile_cons_of_pos (by simpa using hn)] at h
      exact ih ht h
    · rw [List.dropWhile_cons_of_neg (by simpa using hn)] at h
      rcases List.mem_cons.mp h with rfl | h
      · exact Instant.not_le.mp hn
      · exact Int.lt_of_lt_of_le (Instant.not_le.mp hn) (hfirst edge h)

theorem filterMap_edge?_map (edges : List Edge) :
    (edges.map Input.edge).filterMap Input.edge? = edges := by
  simp [List.filterMap_map, Function.comp_def, Input.edge?]

theorem filterMap_tick?_map (edges : List Edge) :
    (edges.map Input.edge).filterMap Input.tick? = [] := by
  simp [List.filterMap_map, Function.comp_def, Input.tick?]

/-- The engine is ticked at the given times. -/
theorem filterMap_tick?_schedule (t : Trace) (times : List Instant) :
    (t.schedule times).filterMap Input.tick? = times := by
  induction times generalizing t with
  | nil => rfl
  | cons now times ih =>
    rw [schedule, List.filterMap_append, filterMap_tick?_map]
    exact congrArg (now :: ·) (ih _)

/-- The engine is told the edges that are due by one of the times. -/
theorem filterMap_edge?_schedule (ht : t.Pairwise fun a b => a.time ≤ b.time)
    (times : List Instant) : (t.schedule times).filterMap Input.edge? =
      t.filter fun edge => times.any fun now => edge.time ≤ now := by
  induction times generalizing t with
  | nil => simp [schedule]
  | cons now times ih =>
    have hdue : (t.takeWhile fun edge => edge.time ≤ now).filter
        (fun edge => (now :: times).any fun now => edge.time ≤ now) =
          t.takeWhile fun edge => edge.time ≤ now := by
      apply List.filter_eq_self.mpr
      intro edge hedge
      rw [List.any_cons, List.mem_takeWhile_imp hedge, Bool.true_or]
    have hlater : (t.dropWhile fun edge => edge.time ≤ now).filter
        (fun edge => (now :: times).any fun now => edge.time ≤ now) =
          (t.dropWhile fun edge => edge.time ≤ now).filter
            fun edge => times.any fun now => edge.time ≤ now := by
      apply List.filter_congr
      intro edge hedge
      have hlt := Instant.not_le.mpr (lt_of_mem_dropWhile ht hedge)
      rw [List.any_cons, decide_eq_false hlt, Bool.false_or]
    calc (t.schedule (now :: times)).filterMap Input.edge?
        = t.takeWhile (fun edge => edge.time ≤ now) ++
            (schedule (t.dropWhile fun edge => edge.time ≤ now) times).filterMap Input.edge? := by
          rw [schedule, List.filterMap_append, filterMap_edge?_map]
          rfl
      _ = (t.takeWhile (fun edge => edge.time ≤ now) ++
            t.dropWhile fun edge => edge.time ≤ now).filter _ := by
          rw [ih (ht.sublist (List.dropWhile_sublist _)), List.filter_append, hdue, hlater]
      _ = t.filter _ := by rw [List.takeWhile_append_dropWhile]

/-- An edge stands before the first tick that is not earlier than it. -/
theorem placed_schedule (ht : t.Pairwise fun a b => a.time ≤ b.time) {before after : List Input}
    (h : t.schedule times = before ++ .edge edge :: after) :
    (∀ now ∈ before.filterMap Input.tick?, now < edge.time) ∧
      ∃ now, (after.filterMap Input.tick?).head? = some now ∧ edge.time ≤ now := by
  induction times generalizing t before with
  | nil => simp [schedule] at h
  | cons now times ih =>
    rw [schedule] at h
    rcases List.append_eq_append_iff.mp h with ⟨middle, rfl, heq⟩ | ⟨middle, heq, hafter⟩
    · -- The edge is told after this tick, so it was not due.
      cases middle with
      | nil => exact nomatch (List.cons.inj heq).1
      | cons i middle =>
        rw [List.cons_append] at heq
        obtain ⟨rfl, hrest⟩ := List.cons.inj heq
        have hlater := ht.sublist (List.dropWhile_sublist fun edge => decide (edge.time ≤ now))
        have hmem : edge ∈ t.dropWhile fun edge => edge.time ≤ now := by
          have htold : edge ∈ (schedule _ times).filterMap Input.edge? :=
            List.mem_filterMap.mpr ⟨.edge edge, by rw [hrest]; simp, rfl⟩
          rw [filterMap_edge?_schedule hlater] at htold
          exact List.mem_of_mem_filter htold
        rcases ih hlater hrest with ⟨hbefore, hnext⟩
        refine ⟨?_, hnext⟩
        rw [List.filterMap_append, filterMap_tick?_map]
        exact List.forall_mem_cons.mpr ⟨lt_of_mem_dropWhile ht hmem, hbefore⟩
    · -- The edge is one of those that are due at this tick.
      cases middle with
      | nil => exact nomatch (List.cons.inj hafter).1
      | cons i middle =>
        rw [List.cons_append] at hafter
        obtain ⟨rfl, rfl⟩ := List.cons.inj hafter
        obtain ⟨first, rest, hdue, rfl, hrest⟩ := List.map_eq_append_iff.mp heq
        obtain ⟨due, rest, rfl, hedge, rfl⟩ := List.map_eq_cons_iff.mp hrest
        obtain rfl : due = edge := Input.edge.inj hedge
        have hmem : due ∈ t.takeWhile fun edge => edge.time ≤ now := hdue ▸ by simp
        rw [filterMap_tick?_map, List.filterMap_append, filterMap_tick?_map]
        exact ⟨by simp, now, rfl, by simpa using List.mem_takeWhile_imp hmem⟩

/-- The inputs by which a trace is played on `k` steps of length `s` from zero on. -/
structure Scheduled (t : Trace) (s : Int) (k : Nat) (inputs : List Input) : Prop where
  /-- The ticks are at `0`, `s`, `2s`, …, `ks`. -/
  ticks : (inputs.filterMap Input.tick?).map Instant.us =
    (List.range (k + 1)).map fun i : Nat => i * s
  /-- Nothing else is told than edges. -/
  only : ∀ i ∈ inputs, i.tick?.isSome ∨ i.edge?.isSome
  ordered : (inputs.filterMap Input.edge?).Pairwise fun a b => a.time ≤ b.time
  /-- The edges up to the last tick are told once, those of one time in their order, and no others. -/
  once : ∀ time, simultaneous (inputs.filterMap Input.edge?) time =
    if time.us ≤ k * s then t.simultaneous time else []
  /-- An edge comes right before the first tick that is not earlier than it. -/
  placed : ∀ before edge after, inputs = before ++ .edge edge :: after →
    (∀ now ∈ before.filterMap Input.tick?, now < edge.time) ∧
      ∃ now, (after.filterMap Input.tick?).head? = some now ∧ edge.time ≤ now

theorem length_ticks (h : .zero ≤ last) :
    (ticks step last).length = (last.us / max step 1).toNat + 1 := by
  have hlast : 0 ≤ last.us := h
  have hk : 0 ≤ last.us / max step 1 := Int.ediv_nonneg hlast (by omega)
  rw [ticks, Instant.length_grid, if_neg (Instant.not_lt.mpr h)]
  change ((last.us - 0) / max step 1 + 1).toNat = _
  rw [Int.sub_zero]
  omega

theorem map_us_ticks (h : .zero ≤ last) : (ticks step last).map Instant.us =
    (List.range ((last.us / max step 1).toNat + 1)).map fun i : Nat => i * max step 1 := by
  apply List.ext_getElem
  · rw [List.length_map, List.length_map, List.length_range, length_ticks h]
  · intro i hi hi'
    rw [List.getElem_map, List.getElem_map, List.getElem_range]
    exact (Instant.us_getElem_grid _).trans (Int.zero_add _)

/-- A time is not after all ticks just if it is not after the last one. -/
theorem any_ticks_iff (h : .zero ≤ last) (time : Instant) :
    ((ticks step last).any fun now => time ≤ now) ↔
      time.us ≤ (last.us / max step 1).toNat * max step 1 := by
  have hus : (ticks step last).map Instant.us = _ := map_us_ticks h
  rw [List.any_eq_true]
  constructor
  · rintro ⟨now, hnow, hle⟩
    have hmem := List.mem_map_of_mem (f := Instant.us) hnow
    rw [hus] at hmem
    obtain ⟨i, hi, heq⟩ := List.mem_map.mp hmem
    have hik : (i : Int) ≤ (last.us / max step 1).toNat :=
      Int.ofNat_le.mpr (Nat.le_of_lt_succ (List.mem_range.mp hi))
    calc time.us ≤ now.us := of_decide_eq_true hle
      _ = i * max step 1 := heq.symm
      _ ≤ _ := Int.mul_le_mul_of_nonneg_right hik (by omega)
  · intro hle
    have hmem : ((last.us / max step 1).toNat : Int) * max step 1 ∈
        (ticks step last).map Instant.us := by
      rw [hus]
      exact List.mem_map.mpr ⟨_, List.mem_range.mpr (Nat.lt_succ_self _), rfl⟩
    obtain ⟨now, hnow, heq⟩ := List.mem_map.mp hmem
    exact ⟨now, hnow, by simpa [Instant.le_iff, heq] using hle⟩

theorem mem_schedule {i : Input} (h : i ∈ t.schedule times) : i.tick?.isSome ∨ i.edge?.isSome := by
  induction times generalizing t with
  | nil => exact nomatch h
  | cons now times ih =>
    rcases List.mem_append.mp h with h | h
    · obtain ⟨edge, -, rfl⟩ := List.mem_map.mp h
      exact .inr rfl
    · rcases List.mem_cons.mp h with rfl | h
      · exact .inl rfl
      · exact ih h

theorem scheduled_inputs (t : Trace) (h : .zero ≤ last) :
    t.Scheduled (max step 1) (last.us / max step 1).toNat (t.inputs step last) where
  ticks := by rw [inputs, filterMap_tick?_schedule, map_us_ticks h]
  only _ := mem_schedule
  ordered := by
    rw [inputs, filterMap_edge?_schedule t.pairwise_ordered]
    exact t.pairwise_ordered.filter _
  once time := by
    rw [inputs, filterMap_edge?_schedule t.pairwise_ordered,
      simultaneous_filter t.ordered fun time => (ticks step last).any fun now => time ≤ now,
      simultaneous_ordered]
    simp only [any_ticks_iff h]
  placed _ _ _ heq := placed_schedule t.pairwise_ordered heq

theorem overruns_iff (h : .zero ≤ last) :
    overruns step last ↔ 0x8000000000000000 ≤ (last.us / max step 1 + 1) * max step 1 := by
  have hne : (ticks step last).isEmpty = false := by
    rw [List.isEmpty_eq_false_iff, ← List.length_pos_iff, length_ticks h]
    exact Nat.succ_pos _
  rw [overruns, hne, Bool.not_false, Bool.true_and, decide_eq_true_eq]

/-- The playback in closed form. -/
theorem play_eq (e : Engine) (t : Trace) (step : Int) (last : Instant) :
    t.play e step last = ⟨e.run (t.inputs step last), overruns step last⟩ := by
  have hcount : decide (0x8000000000000000 ≤
      Instant.zero.us + (ticks step last).length * max step 1) = overruns step last := by
    rw [Bool.eq_iff_iff, decide_eq_true_eq]
    change 0x8000000000000000 ≤ 0 + _ ↔ _
    by_cases h : .zero ≤ last
    · have hk : 0 ≤ last.us / max step 1 := Int.ediv_nonneg h (by omega)
      rw [overruns_iff h, length_ticks h, Int.natCast_succ, Int.toNat_of_nonneg hk, Int.zero_add]
    · have hnone : ticks step last = [] := Instant.grid_of_lt (Instant.not_le.mp h)
      simp [overruns, hnone]
  rw [play, playFrom_eq, ← hcount]
  rfl

/-- A trace that is played up to a time before zero does nothing. Any other is played by its schedule,
on the ticks that are not after `last`. The time of a further tick does not fit the clock just if
`(k + 1) * s` exceeds it, and all ticks are made before that is found out. Another order of the edges
changes nothing, as long as those of one time stay in their order. -/
theorem play_as_scheduled (e : Engine) (t : Trace) (step : Int) (last : Instant) :
    let s := max step 1
    let k := (last.us / s).toNat
    (last < .zero → t.play e step last = ⟨e.quiet, false⟩) ∧
    (.zero ≤ last → k = last.us / s ∧ ∃ inputs, t.Scheduled s k inputs ∧
      (t.play e step last).toOutcome = e.run inputs ∧
      ((t.play e step last).overran ↔ 0x7fffffffffffffff < (k + 1) * s)) ∧
    ∀ u : Trace, (∀ time, u.simultaneous time = t.simultaneous time) →
      u.play e step last = t.play e step last := by
  intro s k
  refine ⟨?_, ?_, ?_⟩
  · intro h
    rw [play, playFrom, dif_neg (Instant.not_le.mpr h)]
  · intro h
    have hk : (k : Int) = last.us / s := Int.toNat_of_nonneg (Int.ediv_nonneg h (by omega))
    refine ⟨hk, t.inputs step last, scheduled_inputs t h, ?_, ?_⟩
    · rw [play_eq]
    · rw [play_eq, overruns_iff h, hk]
      exact Int.add_one_le_iff (a := 0x7fffffffffffffff)
  · intro u h
    have horder : u.ordered = t.ordered := by
      apply eq_of_simultaneous_eq u.pairwise_ordered t.pairwise_ordered
      intro time
      rw [simultaneous_ordered, simultaneous_ordered, h]
    rw [play, play, horder]

/-- Two ticks fit the clock, at zero and at `2⁶²`. Of the edges one is before zero, two are at the
last tick and one is after it. -/
theorem play_as_scheduled_at_end :
    let e := Engine.rest .standard
    let t : Trace := [⟨.paddle .dah, true, .clamp 0x4000000000000000⟩,
      ⟨.paddle .dah, false, .clamp 0x4000000000000000⟩, ⟨.paddle .dit, true, .clamp (-5)⟩,
      ⟨.paddle .dit, false, .clamp 0x4000000000000001⟩]
    let u : Trace := [⟨.paddle .dit, true, .clamp (-5)⟩,
      ⟨.paddle .dah, true, .clamp 0x4000000000000000⟩,
      ⟨.paddle .dit, false, .clamp 0x4000000000000001⟩,
      ⟨.paddle .dah, false, .clamp 0x4000000000000000⟩]
    let last := Instant.clamp 0x7fffffffffffffff
    (.zero ≤ last ∧ t ≠ u ∧ ∀ time, u.simultaneous time = t.simultaneous time) ∧
      (∃ inputs, t.Scheduled 0x4000000000000000 1 inputs ∧
        (t.play e 0x4000000000000000 last).toOutcome = e.run inputs) ∧
      (t.play e 0x4000000000000000 last).overran = true ∧
      u.play e 0x4000000000000000 last = t.play e 0x4000000000000000 last ∧
      t.play e 0x4000000000000000 (.clamp (-1)) = ⟨e.quiet, false⟩ := by
  intro e t u last
  have hlast : .zero ≤ last := by decide
  have hsame : ∀ time, u.simultaneous time = t.simultaneous time := by
    intro time
    by_cases hfirst : Instant.clamp (-5) = time
    · subst hfirst
      decide
    · by_cases htick : Instant.clamp 0x4000000000000000 = time
      · subst htick
        decide
      · simp only [t, u, simultaneous_cons, if_neg hfirst, if_neg htick]
  obtain ⟨-, hplayed, horder⟩ := play_as_scheduled e t 0x4000000000000000 last
  obtain ⟨-, inputs, hscheduled, heq, hoverran⟩ := hplayed hlast
  exact ⟨⟨hlast, by decide, hsame⟩, ⟨inputs, hscheduled, heq⟩, hoverran.mpr (by decide),
    horder u hsame, (play_as_scheduled e t 0x4000000000000000 (.clamp (-1))).1 (by decide)⟩

end Trace
end Iambic
