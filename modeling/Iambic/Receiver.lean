import Iambic.Signal
import Mathlib.Logic.Function.Basic

/-!
# What receives the signals

A receiver is told of each kind of signal by a call of its own, which acts on a state. It names the
calls that it needs, and at any other one it does nothing. Receivers are joined by handing each call
on: a relay to one receiver, and a pair to its first and then to its second.
-/
namespace Iambic

structure Receiver (α : Type) where
  started : Element → Instant → α → α := fun _ _ state => state
  finished : Element → Instant → α → α := fun _ _ state => state
  key : Bool → Instant → α → α := fun _ _ state => state
  memory : Element → Bool → Instant → α → α := fun _ _ _ state => state
  squeeze : Instant → α → α := fun _ state => state

namespace Receiver
variable {α : Type} {s : Signal}

/-- The call for a signal. -/
def accept (r : Receiver α) (state : α) : Signal → α
  | .started x t => r.started x t state
  | .finished x t => r.finished x t state
  | .key down t => r.key down t state
  | .memory x armed t => r.memory x armed t state
  | .squeeze t => r.squeeze t state

def acceptAll (r : Receiver α) (state : α) (signals : List Signal) : α :=
  signals.foldl r.accept state

def silent : Receiver α := {}

def relay (inner : Receiver α) : Receiver α where
  started x t state := inner.started x t state
  finished x t state := inner.finished x t state
  key down t state := inner.key down t state
  memory x armed t state := inner.memory x armed t state
  squeeze t state := inner.squeeze t state

def pair (first second : Receiver α) : Receiver α where
  started x t state := second.started x t (first.started x t state)
  finished x t state := second.finished x t (first.finished x t state)
  key down t state := second.key down t (first.key down t state)
  memory x armed t state := second.memory x armed t (first.memory x armed t state)
  squeeze t state := second.squeeze t (first.squeeze t state)

/-- The receiver among others, each of which has a state of its own. -/
def within {ι : Type} [DecidableEq ι] {σ : ι → Type} (i : ι) (r : Receiver (σ i)) :
    Receiver (∀ i, σ i) where
  started x t states := Function.update states i (r.started x t (states i))
  finished x t states := Function.update states i (r.finished x t (states i))
  key down t states := Function.update states i (r.key down t (states i))
  memory x armed t states := Function.update states i (r.memory x armed t (states i))
  squeeze t states := Function.update states i (r.squeeze t (states i))

/-- The receiver does nothing at this signal. -/
def Ignores (r : Receiver α) (s : Signal) : Prop := ∀ state, r.accept state s = state

@[simp] theorem accept_silent (state : α) (s : Signal) : silent.accept state s = state := by
  cases s <;> rfl

@[simp] theorem accept_relay (inner : Receiver α) (state : α) (s : Signal) :
    inner.relay.accept state s = inner.accept state s := by
  cases s <;> rfl

@[simp] theorem accept_pair (first second : Receiver α) (state : α) (s : Signal) :
    (first.pair second).accept state s = second.accept (first.accept state s) s := by
  cases s <;> rfl

@[simp] theorem accept_within {ι : Type} [DecidableEq ι] {σ : ι → Type} {i : ι} (r : Receiver (σ i))
    (states : ∀ i, σ i) (s : Signal) :
    (r.within i).accept states s = Function.update states i (r.accept (states i) s) := by
  cases s <;> rfl

theorem Ignores.within {ι : Type} [DecidableEq ι] {σ : ι → Type} {i : ι} {r : Receiver (σ i)}
    (h : r.Ignores s) : (r.within i).Ignores s := by
  intro states
  rw [accept_within, h, Function.update_eq_self]

theorem acceptAll_append (r : Receiver α) (state : α) (xs ys : List Signal) :
    r.acceptAll state (xs ++ ys) = r.acceptAll (r.acceptAll state xs) ys :=
  List.foldl_append

end Receiver
end Iambic
