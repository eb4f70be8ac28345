import Iambic.Driven
import Iambic.Sink.Wiring
import Mathlib.Logic.Function.Iterate

/-!
# Signals fan out

A sink hands each signal to its leaves from left to right, and to each of them once. So nothing but
the leaves and their order is seen of a sink, a receiver that does nothing at a signal could as well
be missing there, and a receiver with a state of its own fares as if the engine drove it alone.
-/
namespace Iambic

namespace Sink
variable {ι α : Type} {sink : Sink ι} {s : Signal}

theorem deliverAll_eq (sink : Sink ι) (signals : List Signal) :
    sink.deliverAll signals = signals.flatMap fun s => sink.leaves.map fun i => (i, s) := by
  simp only [deliverAll, deliver_eq_map]

theorem accept_receiver (r : ι → Receiver α) (sink : Sink ι) (state : α) (s : Signal) :
    (sink.receiver r).accept state s =
      sink.leaves.foldl (fun state i => (r i).accept state s) state := by
  induction sink generalizing state with
  | silent => exact Receiver.accept_silent state s
  | leaf i => rfl
  | relay inner ih => rw [receiver, Receiver.accept_relay, ih, leaves]
  | pair first second ihf ihs =>
    rw [receiver, Receiver.accept_pair, ihf, ihs, leaves, List.foldl_append]

/-- What a sink does is what its receivers do with all that is delivered to them, in this order. -/
theorem acceptAll_receiver (r : ι → Receiver α) (sink : Sink ι) (state : α)
    (signals : List Signal) :
    (sink.receiver r).acceptAll state signals =
      (sink.deliverAll signals).foldl (fun state d => (r d.1).accept state d.2) state := by
  induction signals generalizing state with
  | nil => rfl
  | cons s signals ih =>
    change (sink.receiver r).acceptAll ((sink.receiver r).accept state s) signals = _
    rw [ih, accept_receiver, ← List.singleton_append, deliverAll_append, List.foldl_append]
    simp [deliverAll, deliver_eq_map, List.foldl_map]

theorem Regrouped.leaves_eq {a b : Sink ι} (h : Regrouped a b) : a.leaves = b.leaves := by
  induction h with
  | refl | relay => rfl
  | symm _ ih => exact ih.symm
  | trans _ _ ihab ihbc => exact ihab.trans ihbc
  | assoc a b c => simp [leaves]
  | pair _ _ iha ihb => simp [leaves, iha, ihb]

theorem Regrouped.deliverAll_eq {a b : Sink ι} (h : Regrouped a b) (signals : List Signal) :
    a.deliverAll signals = b.deliverAll signals := by
  rw [Sink.deliverAll_eq, Sink.deliverAll_eq, h.leaves_eq]

theorem accept_mute [DecidableEq ι] {r : ι → Receiver α} {i : ι} (h : (r i).Ignores s)
    (sink : Sink ι) (state : α) :
    ((sink.mute i).receiver r).accept state s = (sink.receiver r).accept state s := by
  induction sink generalizing state with
  | silent => rfl
  | leaf j =>
    rw [mute]
    split
    · rename_i hj
      rw [receiver, Receiver.accept_silent, receiver, hj, h]
    · rfl
  | relay inner ih => simp [mute, receiver, ih]
  | pair first second ihf ihs => simp [mute, receiver, ihf, ihs]

/-! ## Receivers with a state of their own -/

section Own
variable [DecidableEq ι] {σ : ι → Type} (r : ∀ i, Receiver (σ i)) (i : ι)

/-- A receiver is told a signal as often as its name occurs, and no other one touches its state. -/
theorem foldl_within_apply (s : Signal) (names : List ι) (states : ∀ i, σ i) :
    names.foldl (fun states j => ((r j).within j).accept states s) states i =
      (fun held => (r i).accept held s)^[names.count i] (states i) := by
  induction names generalizing states with
  | nil => rfl
  | cons j names ih =>
    rw [List.foldl_cons, ih, Receiver.accept_within]
    by_cases h : j = i
    · subst h
      rw [Function.update_self, List.count_cons_self, Function.iterate_succ_apply]
    · rw [Function.update_of_ne (Ne.symm h), List.count_cons_of_ne h]

theorem acceptAll_within_apply (h : sink.leaves.count i = 1) (states : ∀ i, σ i)
    (signals : List Signal) :
    (sink.receiver fun j => (r j).within j).acceptAll states signals i =
      (r i).acceptAll (states i) signals := by
  induction signals generalizing states with
  | nil => rfl
  | cons s signals ih =>
    change (sink.receiver fun j => (r j).within j).acceptAll
      ((sink.receiver fun j => (r j).within j).accept states s) signals i = _
    rw [ih, accept_receiver, foldl_within_apply, h, Function.iterate_one]
    rfl

/-- The engine drives a receiver in a sink as it drives that receiver alone. -/
theorem run_within (h : sink.leaves.count i = 1) (e : Engine) (states : ∀ i, σ i)
    (inputs : List Input) :
    let whole := Driven.run (sink.receiver fun j => (r j).within j) ⟨e, states⟩ inputs
    let alone := Driven.run (r i) ⟨e, states i⟩ inputs
    whole.engine = alone.engine ∧ whole.state i = alone.state := by
  simp only [Driven.run_eq, acceptAll_within_apply r i h, and_self]

end Own

/-- A sink delivers every call to each of its leaves once, from left to right, before the next one.
What it does is what its receivers do with these deliveries. Relays and the nesting of pairs are not
seen, nor is a receiver at a call that it does not name. A receiver with a state of its own that is
a leaf at one place ends as if the engine had driven it alone. -/
theorem fans_out [DecidableEq ι] (sink : Sink ι) :
    (∀ calls, sink.deliverAll calls = calls.flatMap fun s => sink.leaves.map fun i => (i, s)) ∧
    (∀ (α : Type) (r : ι → Receiver α) (state : α) (calls : List Signal),
      (sink.receiver r).acceptAll state calls =
        (sink.deliverAll calls).foldl (fun state d => (r d.1).accept state d.2) state) ∧
    (∀ other, sink.Regrouped other → ∀ (α : Type) (r : ι → Receiver α) (state : α) calls,
      other.deliverAll calls = sink.deliverAll calls ∧
        (other.receiver r).acceptAll state calls = (sink.receiver r).acceptAll state calls) ∧
    (∀ (α : Type) (r : ι → Receiver α) (i : ι) (s : Signal), (r i).Ignores s → ∀ state,
      ((sink.mute i).receiver r).accept state s = (sink.receiver r).accept state s) ∧
    ∀ (σ : ι → Type) (r : ∀ i, Receiver (σ i)) (i : ι), sink.leaves.count i = 1 →
      ∀ (e : Engine) (states : ∀ i, σ i) (inputs : List Input),
        let whole := Driven.run (sink.receiver fun j => (r j).within j) ⟨e, states⟩ inputs
        let alone := Driven.run (r i) ⟨e, states i⟩ inputs
        whole.engine = alone.engine ∧ whole.state i = alone.state := by
  refine ⟨sink.deliverAll_eq, fun α r => sink.acceptAll_receiver r, ?_, ?_, ?_⟩
  · intro other h α r state calls
    have hall := h.symm.deliverAll_eq calls
    rw [acceptAll_receiver, acceptAll_receiver, hall]
    exact ⟨rfl, rfl⟩
  · intro α r i s h state
    exact accept_mute h sink state
  · intro σ r i h e states inputs
    exact run_within r i h e states inputs

/-- Where the signals of a station go that keys a line and records. -/
inductive Outlet where
  | line
  | recording
deriving DecidableEq

namespace Outlet

def State : Outlet → Type
  | line => KeyLine
  | recording => Recording

def receiver : (i : Outlet) → Receiver i.State
  | line => KeyLine.receiver
  | recording => Recording.receiver

/-- A line that takes every write, and an empty recording. -/
def idle : (i : Outlet) → i.State
  | line => .idle (fun _ => false) false
  | recording => []

end Outlet

theorem fans_out_to_line_and_recording :
    let sink : Sink Outlet := .pair (.relay (.leaf .line)) (.pair .silent (.leaf .recording))
    let other : Sink Outlet := .pair (.pair (.leaf .line) .silent) (.relay (.leaf .recording))
    let shared := fun i : Outlet => i.receiver.within i
    let inputs := [.paddles ⟨true, false⟩, .tick .zero]
    let whole := Driven.run (sink.receiver shared) ⟨.rest .standard, Outlet.idle⟩ inputs
    (sink.Regrouped other ∧ (shared .line).Ignores (.squeeze .zero) ∧
      sink.leaves.count .recording = 1) ∧
    sink.deliverAll [.key true .zero, .squeeze .zero] =
      [(.line, .key true .zero), (.recording, .key true .zero),
        (.line, .squeeze .zero), (.recording, .squeeze .zero)] ∧
    other.deliverAll [.key true .zero, .squeeze .zero] =
      sink.deliverAll [.key true .zero, .squeeze .zero] ∧
    ((sink.mute .line).receiver shared).accept Outlet.idle (.squeeze .zero) =
      (sink.receiver shared).accept Outlet.idle (.squeeze .zero) ∧
    whole.state .recording = [.started .dit .zero, .key true .zero] := by
  intro sink other shared inputs whole
  have hgroup : sink.Regrouped other :=
    .trans (.symm (.assoc _ _ _)) (.pair (.pair (.relay _) (.refl _)) (.symm (.relay _)))
  have hline : (Outlet.receiver .line).Ignores (.squeeze .zero) := fun _ => rfl
  have hquiet : (shared .line).Ignores (.squeeze .zero) := hline.within
  have honce : sink.leaves.count .recording = 1 := by decide
  obtain ⟨hall, -, hother, hmute, hown⟩ := fans_out sink
  refine ⟨⟨hgroup, hquiet, honce⟩, hall _, ?_, ?_, ?_⟩
  · exact (hother other hgroup _ shared Outlet.idle _).1
  · exact hmute _ shared .line _ hquiet Outlet.idle
  · exact (hown Outlet.State Outlet.receiver .recording honce _ _ inputs).2.trans rfl

end Sink
end Iambic
