/-!
# Dits and dahs

The two elements of the code, and sets of them. A set serves for the paddles that are closed,
the elements that may be remembered, and the elements that are requested.
-/
namespace Iambic

inductive Element where
  | dit
  | dah
deriving DecidableEq, Repr

namespace Element

def opposite : Element → Element
  | dit => dah
  | dah => dit

@[simp] theorem opposite_opposite (e : Element) : e.opposite.opposite = e := by cases e <;> rfl
@[simp] theorem opposite_ne (e : Element) : e.opposite ≠ e := by cases e <;> decide
@[simp] theorem ne_opposite (e : Element) : e ≠ e.opposite := by cases e <;> decide

end Element

structure ElementSet where
  dit : Bool
  dah : Bool
deriving DecidableEq, Repr

namespace ElementSet

def empty : ElementSet := ⟨false, false⟩
def both : ElementSet := ⟨true, true⟩

def has (s : ElementSet) : Element → Bool
  | .dit => s.dit
  | .dah => s.dah

/-- The set in which `e` is present or absent as told, and the other element as before. -/
def put (s : ElementSet) (e : Element) (present : Bool) : ElementSet :=
  match e with
  | .dit => { s with dit := present }
  | .dah => { s with dah := present }

/-- The set with dit and dah exchanged. -/
def swap (s : ElementSet) : ElementSet := ⟨s.dah, s.dit⟩

/-- The members, dit before dah. -/
def toList (s : ElementSet) : List Element := [Element.dit, .dah].filter s.has

@[ext] theorem ext_has {s t : ElementSet} (h : ∀ e, s.has e = t.has e) : s = t := by
  cases s
  cases t
  simp only [mk.injEq]
  exact ⟨h .dit, h .dah⟩

@[simp] theorem has_empty (e : Element) : empty.has e = false := by cases e <;> rfl
@[simp] theorem has_both (e : Element) : both.has e = true := by cases e <;> rfl

theorem has_put (s : ElementSet) (e f : Element) (present : Bool) :
    (s.put e present).has f = if f = e then present else s.has f := by
  cases e <;> cases f <;> rfl

@[simp] theorem has_swap (s : ElementSet) (e : Element) : s.swap.has e = s.has e.opposite := by
  cases e <;> rfl

end ElementSet
end Iambic
