import Iambic.Engine.Run
import Iambic.Sampler.Run

/-!
# The edges and the levels of the paddles

The edges that the sampler tells, replayed on two open lines, give the levels that it shows, as
long as the swap is changed only while both contacts are at one level. A contact that is held while
the swap is changed was told to be closed under one name and will be told to be open under the
other, and the first line stays closed.
-/
namespace Iambic

namespace ElementSet

theorem put_has (s : ElementSet) (x : Element) : s.put x (s.has x) = s := by
  ext y
  rw [has_put]
  split
  · rename_i h
    rw [h]
  · rfl

/-- The lines after an edge: its paddle is as told. -/
def after (lines : ElementSet) (edge : Edge) : ElementSet :=
  match edge.line with
  | .paddle x => lines.put x edge.closed
  | .straightKey => lines

end ElementSet

/-- The lines that the edges leave, open at first. -/
def replay (edges : List Edge) : ElementSet := edges.foldl ElementSet.after .empty

/-- An engine that is told edges sees the lines that they leave. -/
theorem Engine.paddles_run_edges (e : Engine) (edges : List Edge) :
    (e.run (edges.map .edge)).engine.paddles = edges.foldl ElementSet.after e.paddles := by
  induction edges generalizing e with
  | nil => rfl
  | cons edge edges ih =>
    have h : (e.onEdge edge).paddles = e.paddles.after edge := by
      rw [onEdge, ElementSet.after]
      cases edge.line <;> rfl
    rw [List.foldl_cons, ← h]
    exact ih (e.onEdge edge)

namespace Sampler
variable {s : Sampler} {a : Act} {acts : List Act} {lines : ElementSet}

@[simp] theorem paddle_paddle (s : Sampler) (contact : Element) :
    s.paddle (s.paddle contact) = contact := by
  unfold paddle
  split <;> simp

theorem paddle_eq_paddle_iff {c d : Element} : s.paddle c = s.paddle d ↔ c = d := by
  constructor
  · intro h
    rw [← s.paddle_paddle c, h, paddle_paddle]
  · exact congrArg s.paddle

theorem act_debounce (s : Sampler) (us : Int) :
    (s.act (.debounce us)).1 =
      { s with debounce := if 0 ≤ us ∧ us ≤ maxDebounce then us.toNat else s.debounce } := by
  rw [act, setDebounce]
  by_cases hus : 0 ≤ us ∧ us ≤ maxDebounce
  · rw [if_pos hus, if_pos hus]
  · rw [if_neg hus, if_neg hus]

/-- The edge of a contact brings its line from the old level to the new one. -/
theorem foldl_edges {contact : Element} {before after : Contact} (now : Instant)
    (h : lines.has (s.paddle contact) = before.stable) :
    (s.edges contact before after now).foldl ElementSet.after lines =
      lines.put (s.paddle contact) after.stable := by
  rw [edges, Contact.change?]
  by_cases hc : after.stable = before.stable
  · rw [if_pos hc, hc, ← h, ElementSet.put_has]
    rfl
  · rw [if_neg hc]
    rfl

/-- The edges of a sample bring the lines from the levels before it to the levels after it. -/
theorem foldl_observe (s : Sampler) (closed : ElementSet) (now : Instant) :
    (s.observe closed now).2.foldl ElementSet.after s.levels =
      (s.observe closed now).1.levels := by
  let dit := s.dit.observe s.debounce closed.dit now
  let dah := s.dah.observe s.debounce closed.dah now
  change (s.edges .dit s.dit dit now ++ s.edges .dah s.dah dah now).foldl _ _ =
    ({ s with dit := dit, dah := dah } : Sampler).levels
  have hdit : s.levels.has (s.paddle .dit) = s.dit.stable := by
    rw [has_levels, paddle_paddle]
    rfl
  have hdah : (s.levels.put (s.paddle .dit) dit.stable).has (s.paddle .dah) = s.dah.stable := by
    have hne : s.paddle .dah ≠ s.paddle .dit := fun h => nomatch paddle_eq_paddle_iff.mp h
    rw [ElementSet.has_put, if_neg hne, has_levels, paddle_paddle]
    rfl
  rw [List.foldl_append, foldl_edges now hdit, foldl_edges now hdah]
  ext x
  obtain ⟨contact, rfl⟩ : ∃ contact, x = s.paddle contact := ⟨_, (s.paddle_paddle x).symm⟩
  have hcontact : ({ s with dit := dit, dah := dah } : Sampler).paddle (s.paddle contact) = contact :=
    s.paddle_paddle contact
  simp only [ElementSet.has_put, paddle_eq_paddle_iff, has_levels, paddle_paddle, hcontact]
  cases contact <;> rfl

/-- Another swap shows the same levels only if the contacts are at one level. -/
theorem levels_setSwap_iff {swapped : Bool} :
    s.levels = (s.setSwap swapped).levels ↔
      swapped = s.swapped ∨ s.dit.stable = s.dah.stable := by
  cases hs : s.swapped <;> cases swapped <;>
    simp [levels, setSwap, hs, contacts, ElementSet.swap, eq_comm]

/-- The act leaves the swap as it is, or both contacts are at one level. -/
def SwapsEvenly (s : Sampler) (a : Act) : Prop :=
  (s.act a).1.swapped = s.swapped ∨ s.dit.stable = s.dah.stable

/-- A sample keeps the swap, and its edges bring the lines to its levels, whatever is read. -/
theorem foldl_sample (s : Sampler) (now : Instant) (dit dah : Reading) :
    (s.act (.sample now dit dah)).1.swapped = s.swapped ∧
      (s.act (.sample now dit dah)).2.foldl ElementSet.after s.levels =
        (s.act (.sample now dit dah)).1.levels := by
  simp only [act, sample]
  cases dit.closed? with
  | none => exact ⟨rfl, rfl⟩
  | some ditClosed =>
    cases dah.closed? with
    | none => exact ⟨rfl, rfl⟩
    | some dahClosed => exact ⟨rfl, foldl_observe (s.countReads dit) _ now⟩

/-- The edges of one act bring the lines to the levels after it just if it swaps evenly. -/
theorem foldl_act_iff : (s.act a).2.foldl ElementSet.after s.levels = (s.act a).1.levels ↔
    s.SwapsEvenly a := by
  cases a with
  | sample now dit dah =>
    rcases foldl_sample s now dit dah with ⟨hswap, hlevels⟩
    exact iff_of_true hlevels (.inl hswap)
  | debounce us =>
    rw [SwapsEvenly, act, setDebounce]
    by_cases hus : 0 ≤ us ∧ us ≤ maxDebounce
    · rw [if_pos hus]
      exact iff_of_true rfl (.inl rfl)
    · rw [if_neg hus]
      exact iff_of_true rfl (.inl rfl)
  | swap swapped => exact levels_setSwap_iff
  | adopt k => exact levels_setSwap_iff

/-- Acts that swap evenly keep the lines at the levels. -/
theorem foldl_run (h : ∀ done a, done ++ [a] <+: acts → (s.run done).1.SwapsEvenly a) :
    (s.run acts).2.foldl ElementSet.after s.levels = (s.run acts).1.levels := by
  induction acts generalizing s with
  | nil => rfl
  | cons a acts ih =>
    have ha : s.SwapsEvenly a := h [] a ⟨acts, rfl⟩
    change ((s.act a).2 ++ ((s.act a).1.run acts).2).foldl _ _ = ((s.act a).1.run acts).1.levels
    rw [List.foldl_append, foldl_act_iff.mpr ha]
    apply ih
    intro done b hd
    exact h (a :: done) b (List.cons_prefix_cons.mpr ⟨rfl, hd⟩)

/-- The edges told so far, replayed on open lines, always give the levels just if each change of
the swap comes while the contacts are at one level. An engine that is told the edges sees what is
replayed. -/
theorem replay_eq_levels_iff (acts : List Act) :
    ((∀ done, done <+: acts → replay (rest.run done).2 = (rest.run done).1.levels) ↔
      ∀ done a, done ++ [a] <+: acts → (rest.run done).1.SwapsEvenly a) ∧
    ∀ c, ((Engine.rest c).run ((rest.run acts).2.map .edge)).engine.paddles =
      replay (rest.run acts).2 := by
  constructor
  · constructor
    · intro h done a hd
      have hbefore := h done ((List.prefix_append done [a]).trans hd)
      have hafter := h (done ++ [a]) hd
      rw [run_append, replay, List.foldl_append, ← replay, hbefore] at hafter
      change List.foldl _ _ (((rest.run done).1.act a).2 ++ []) = _ at hafter
      rw [List.append_nil] at hafter
      exact foldl_act_iff.mp hafter
    · intro h done hd
      exact foldl_run fun before a hb => h before a (hb.trans hd)
  · intro c
    exact Engine.paddles_run_edges (.rest c) _

/-- The swap is set while the contact of the dit is held. Both contacts are open again and so are
the levels, but the edges have left the dit closed. -/
theorem replay_ne_levels_of_swap_while_held :
    let acts := [.sample .zero .low .high, .swap true, .sample (.clamp 10) .high .high]
    (rest.run acts).1.contacts = .empty ∧
      replay (rest.run acts).2 = ⟨true, false⟩ ∧
      replay (rest.run acts).2 ≠ (rest.run acts).1.levels := by
  decide

end Sampler
end Iambic
