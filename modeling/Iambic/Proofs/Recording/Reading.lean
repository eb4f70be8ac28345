import Iambic.Proofs.Engine.Deadlines
import Iambic.Recording

/-!
# How a recording is read

What is recorded later adds to the intervals that were read before, and all that matters of the past
is the element that is still being keyed. Of words the intervals are those of the words.
-/
namespace Iambic

namespace Recording

/-- The ends of the elements, in the order in which they were told. -/
def ends (r : Recording) : List (Element × Instant) :=
  r.filterMap fun
    | .finished x t => some (x, t)
    | _ => none

/-- The positions of the key with their times. -/
def keyTimes (r : Recording) : List (Bool × Instant) :=
  r.filterMap fun
    | .key down t => some (down, t)
    | _ => none

/-- The element that is being keyed once the recording has been read, with its beginning. -/
def keyedAfter (keyed? : Option (Element × Instant)) : Recording → Option (Element × Instant)
  | [] => keyed?
  | .started x t :: r => keyedAfter (some (x, t)) r
  | .finished _ _ :: r => keyedAfter none r
  | _ :: r => keyedAfter keyed? r

theorem intervalsFrom_append (keyed? : Option (Element × Instant)) (r s : Recording) :
    intervalsFrom keyed? (r ++ s) = (intervalsFrom keyed? r).bind fun is =>
      (intervalsFrom (keyedAfter keyed? r) s).map (is ++ ·) := by
  induction r generalizing keyed? with
  | nil =>
    change intervalsFrom keyed? s = (intervalsFrom keyed? s).map ([] ++ ·)
    cases intervalsFrom keyed? s <;> rfl
  | cons entry r ih =>
    cases entry with
    | started x t => exact ih (some (x, t))
    | finished x t =>
      rcases keyed? with _ | ⟨y, start⟩
      · exact ih none
      · simp only [List.cons_append, intervalsFrom, keyedAfter, ih]
        by_cases h : y = x
        · rw [if_pos h, if_pos h]
          cases intervalsFrom none r with
          | error _ => rfl
          | ok is => cases intervalsFrom (keyedAfter none r) s <;> rfl
        · rw [if_neg h, if_neg h]
          rfl
    | key _ _ | armed _ _ | squeeze _ => exact ih keyed?

theorem keyedAfter_append (keyed? : Option (Element × Instant)) (r s : Recording) :
    keyedAfter keyed? (r ++ s) = keyedAfter (keyedAfter keyed? r) s := by
  induction r generalizing keyed? with
  | nil => rfl
  | cons entry r ih => cases entry <;> exact ih _

theorem elements_append (r s : Recording) : elements (r ++ s) = elements r ++ elements s :=
  List.filterMap_append

theorem ends_append (r s : Recording) : ends (r ++ s) = ends r ++ ends s := List.filterMap_append

theorem keyTimes_append (r s : Recording) : keyTimes (r ++ s) = keyTimes r ++ keyTimes s :=
  List.filterMap_append

theorem intervals_append {r s : Recording} {is js : List Interval} (hr : r.intervals = .ok is)
    (hs : intervalsFrom (keyedAfter none r) s = .ok js) : (r ++ s).intervals = .ok (is ++ js) := by
  rw [intervals, intervalsFrom_append, ← intervals, hr, Except.bind, hs]
  rfl

theorem ofSignals_append (a b : List Signal) : ofSignals (a ++ b) = ofSignals a ++ ofSignals b :=
  List.map_append

/-- The recording ends while `keyed?` is being keyed. It has an interval for each end of an element,
in their order; its elements are those of the intervals, and the one that is being keyed. The key
goes down and up with each interval, and it goes down with the element that is being keyed. -/
structure Complete (r : Recording) (keyed? : Option (Element × Instant)) (is : List Interval) :
    Prop where
  keyed : keyedAfter none r = keyed?
  intervals : r.intervals = .ok is
  ends : is.map (fun i => (i.element, i.finish)) = r.ends
  elements : r.elements = is.map Interval.element ++ keyed?.toList.map Prod.fst
  keyTimes : r.keyTimes = is.flatMap (fun i => [(true, i.start), (false, i.finish)]) ++
    keyed?.toList.map fun k => (true, k.2)

/-- While nothing is keyed a recording may go on as another one. -/
theorem Complete.append {r s : Recording} {keyed? : Option (Element × Instant)}
    {is js : List Interval} (hr : r.Complete none is) (hs : s.Complete keyed? js) :
    (r ++ s).Complete keyed? (is ++ js) where
  keyed := by rw [keyedAfter_append, hr.keyed, hs.keyed]
  intervals := by
    apply intervals_append hr.intervals
    rw [hr.keyed]
    exact hs.intervals
  ends := by rw [List.map_append, hr.ends, hs.ends, ends_append]
  elements := by
    rw [elements_append, hr.elements, hs.elements]
    simp
  keyTimes := by
    rw [keyTimes_append, hr.keyTimes, hs.keyTimes]
    simp

/-- The times between neighbours, whether or not they fit the clock. -/
def spans (is : List Interval) : List Int :=
  is.zipWith (fun i j => j.start.us - i.finish.us) is.tail

/-- From zero on all times between neighbours fit the clock. -/
theorem gapsBetween_eq {is : List Interval} (h : ∀ i ∈ is, .zero ≤ i.start ∧ i.start ≤ i.finish) :
    gapsBetween is = .ok (spans is) := by
  match is with
  | [] | [_] => rfl
  | i :: j :: rest =>
    rcases List.forall_mem_cons.mp h with ⟨⟨hi, hi'⟩, hrest⟩
    have hj := (hrest j (List.mem_cons_self ..)).1
    have hd : j.start.since? i.finish = some (j.start.us - i.finish.us) := by
      have := j.start.lt_end
      have := i.finish.lt_end
      rw [Instant.le_iff] at hi hi' hj
      rw [Instant.since?_eq_some_iff]
      change 0 ≤ _ at hi hj
      omega
    rw [gapsBetween, hd, gapsBetween_eq hrest]
    rfl

end Recording

open Recording

def Word.interval (w : Word) : Interval := ⟨w.element, w.begun, w.ended⟩

theorem OpenWord.complete (w : OpenWord) :
    (ofSignals w.signals).Complete (some (w.element, w.begun)) [] := by
  rcases w with ⟨x, t, _ | m, _ | s⟩ <;> exact ⟨rfl, rfl, rfl, rfl, rfl⟩

theorem Word.complete (w : Word) : (ofSignals w.signals).Complete none [w.interval] := by
  have hw := w.toOpenWord.complete
  rw [signals, ofSignals_append]
  refine ⟨?_, ?_, ?_, ?_, ?_⟩
  · rw [keyedAfter_append, hw.keyed]
    rfl
  · apply intervals_append hw.intervals
    rw [hw.keyed]
    exact if_pos rfl
  · rw [ends_append, ← hw.ends]
    rfl
  · rw [elements_append, hw.elements]
    rfl
  · rw [keyTimes_append, hw.keyTimes]
    rfl

theorem complete_transcript (words : List Word) (last? : Option OpenWord) :
    (ofSignals (transcript words last?)).Complete (last?.map fun w => (w.element, w.begun))
      (words.map Word.interval) := by
  induction words with
  | nil =>
    cases last? with
    | none => exact ⟨rfl, rfl, rfl, rfl, rfl⟩
    | some w => exact w.complete
  | cons w words ih =>
    rw [transcript_cons, ofSignals_append]
    exact w.complete.append ih

/-- The later interval begins when the gap after the earlier one is over. -/
def Interval.SpacedBy (gap : Nat) (i j : Interval) : Prop := i.finish.later gap ≤ j.start

theorem isChain_intervals {gap : Nat} {words : List Word} {last? : Option OpenWord}
    (h : ((transcript words last?).filter Signal.isElement).IsChain (SpacedBy gap)) :
    (words.map Word.interval).IsChain (Interval.SpacedBy gap) := by
  induction words with
  | nil => exact .nil
  | cons w words ih =>
    rw [transcript_cons, List.filter_append, Word.filter_isElement] at h
    have hrest := h.right_of_append
    cases words with
    | nil => exact .singleton _
    | cons w' words =>
      refine .cons_cons ?_ (ih hrest)
      rw [transcript_cons, List.filter_append, Word.filter_isElement] at h
      simp only [List.cons_append, List.nil_append, List.isChain_cons_cons] at h
      exact h.2.1

/-- After each interval but the last there is the gap, unless the clock ends before it. -/
theorem forall₂_spans {gap : Nat} {is : List Interval} (h : is.IsChain (Interval.SpacedBy gap)) :
    List.Forall₂ (fun (i : Interval) (d : Int) => i.finish.us + gap < 0x8000000000000000 → gap ≤ d)
      is.dropLast (spans is) := by
  match is with
  | [] | [_] => exact .nil
  | i :: j :: rest =>
    rcases List.isChain_cons_cons.mp h with ⟨hij, hrest⟩
    refine .cons ?_ (forall₂_spans hrest)
    intro hend
    change gap ≤ j.start.us - i.finish.us
    rw [Interval.SpacedBy, Instant.le_iff, Instant.us_later] at hij
    omega

end Iambic
