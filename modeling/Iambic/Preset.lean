/-!
# Presets by name

Three styles of keyer, each with the memory of both elements or of one, a keyer without memory,
and a manual setting. All but the manual one have a slot in a table, and a name made from it.
-/
namespace Iambic

inductive Style where
  | superKeyer
  | accukeyer
  | curtisA
deriving DecidableEq, Repr

/-- The elements that a style remembers. -/
inductive Remembered where
  | both
  | dit
  | dah
deriving DecidableEq, Repr

inductive Preset where
  | styled (style : Style) (remembered : Remembered)
  | noMemory
  | manual
deriving DecidableEq, Repr

def Style.description : Style → String
  | superKeyer => "SuperKeyer"
  | accukeyer => "Accukeyer"
  | curtisA => "Curtis A"

def Remembered.description : Remembered → String
  | both => "Both"
  | dit => "Dit"
  | dah => "Dah"

namespace Preset

/-- The presets with a slot, in the order of their slots. -/
def all : List Preset :=
  [.styled .superKeyer .both, .styled .superKeyer .dit, .styled .superKeyer .dah,
    .styled .accukeyer .both, .styled .accukeyer .dit, .styled .accukeyer .dah,
    .styled .curtisA .both, .styled .curtisA .dit, .styled .curtisA .dah, .noMemory]

def slot? : Preset → Option (Fin 10)
  | styled .superKeyer .both => some 0
  | styled .superKeyer .dit => some 1
  | styled .superKeyer .dah => some 2
  | styled .accukeyer .both => some 3
  | styled .accukeyer .dit => some 4
  | styled .accukeyer .dah => some 5
  | styled .curtisA .both => some 6
  | styled .curtisA .dit => some 7
  | styled .curtisA .dah => some 8
  | noMemory => some 9
  | manual => none

def ofSlot (slot : Fin 10) : Preset := all.get slot

def ofIndex? (index : Nat) : Option Preset := all[index]?

theorem mem_all (p : Preset) : p ∈ manual :: all := by
  match p with
  | styled style remembered => cases style <;> cases remembered <;> decide
  | noMemory | manual => decide

@[simp] theorem slot?_ofSlot : ∀ slot : Fin 10, (ofSlot slot).slot? = some slot := by decide

theorem slot?_eq_some_iff {p : Preset} {slot : Fin 10} :
    p.slot? = some slot ↔ ofSlot slot = p := by
  constructor
  · intro h
    obtain rfl | hp := List.mem_cons.mp p.mem_all
    · cases h
    · obtain ⟨s, rfl⟩ := List.mem_iff_get.mp hp
      have hs : s = slot := Option.some.inj ((slot?_ofSlot s).symm.trans h)
      rw [hs]
      rfl
  · rintro rfl
    exact slot?_ofSlot slot

/-- A preset is found at its own index and nowhere else. -/
theorem ofIndex?_eq_some_iff {index : Nat} {p : Preset} :
    ofIndex? index = some p ↔ p.slot?.map Fin.val = some index := by
  rw [ofIndex?, List.getElem?_eq_some_iff, Option.map_eq_some_iff]
  constructor
  · rintro ⟨h, hp⟩
    exact ⟨⟨index, h⟩, slot?_eq_some_iff.mpr hp, rfl⟩
  · rintro ⟨slot, hs, rfl⟩
    exact ⟨slot.isLt, slot?_eq_some_iff.mp hs⟩

def name (p : Preset) : String :=
  match p.slot? with
  | some slot => "V" ++ toString slot.val
  | none => "MANUAL"

def description : Preset → String
  | styled style remembered => style.description ++ " " ++ remembered.description
  | noMemory => "No Memory"
  | manual => "Manual"

/-- The characters of a text, with the letters of ASCII in lower case. -/
def caseless (text : String) : List Char := text.toList.map Char.toLower

inductive NameError where
  | unknown
deriving DecidableEq

def NameError.message : NameError → String
  | unknown => "unknown preset name (expected V0-V9 or MANUAL)"

/-- The preset of a name, in any mix of upper and lower case. -/
def ofName (text : String) : Except NameError Preset :=
  match (manual :: all).find? fun p => caseless p.name == caseless text with
  | some p => .ok p
  | none => .error .unknown

end Preset
end Iambic
