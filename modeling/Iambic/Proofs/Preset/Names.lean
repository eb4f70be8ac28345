import Iambic.Preset
import Mathlib.Data.List.Forall2

/-!
# How preset names are spelled

A text names a preset just if it has the bytes of its name, where a letter may stand in either
case. Names are looked up by their characters. Since they consist of ASCII alone, and every other
character is written with bytes that ASCII does not use, the bytes tell the same, and no two names
are confused.
-/
namespace Iambic.Preset

/-- The bytes by which a text is written in UTF-8. -/
def bytes (text : String) : List UInt8 := text.toByteArray.data.toList

/-- A capital letter of ASCII. -/
def IsCapital (b : UInt8) : Prop := 0x41 ≤ b ∧ b ≤ 0x5a

instance (b : UInt8) : Decidable (IsCapital b) := inferInstanceAs (Decidable (_ ∧ _))

/-- The same byte, or the two cases of one letter of ASCII. -/
def SameLetter (a b : UInt8) : Prop :=
  a = b ∨ (IsCapital a ∧ b = a + 0x20) ∨ (IsCapital b ∧ a = b + 0x20)

instance (a b : UInt8) : Decidable (SameLetter a b) := inferInstanceAs (Decidable (_ ∨ _))

/-- As many bytes as in the name, and one by one the same letters. -/
def Spells (text name : String) : Prop := List.Forall₂ SameLetter (bytes text) (bytes name)

instance (text name : String) : Decidable (Spells text name) :=
  inferInstanceAs (Decidable (List.Forall₂ _ _ _))

/-! ## Characters and their bytes -/

/-- A character of ASCII. -/
def IsAscii (c : Char) : Prop := c.toNat < 0x80

instance (c : Char) : Decidable (IsAscii c) := inferInstanceAs (Decidable (_ < _))

theorem bytes_eq (text : String) : bytes text = text.toList.flatMap String.utf8EncodeChar := by
  rw [bytes, ← String.utf8Encode_toList, List.utf8Encode, List.toList_data_toByteArray]

theorem encode_of_isAscii {c : Char} (h : IsAscii c) : String.utf8EncodeChar c = [.ofNat c.toNat] :=
  if_pos (Nat.le_of_lt_succ h)

theorem toNat_byte {c : Char} (h : IsAscii c) : (UInt8.ofNat c.toNat).toNat = c.toNat := by
  have hlt : c.toNat < 0x80 := h
  rw [UInt8.toNat_ofNat']
  omega

/-- Outside ASCII even the first byte is none of ASCII. -/
theorem encode_of_not_isAscii {c : Char} (h : ¬ IsAscii c) :
    ∃ first rest, String.utf8EncodeChar c = first :: rest ∧ 0x80 ≤ first.toNat := by
  have hlow : ¬ c.val.toNat ≤ 127 := fun hle => h (Nat.lt_succ_of_le hle)
  simp only [String.utf8EncodeChar, if_neg hlow]
  -- Two, three or four bytes.
  repeat' split
  all_goals exact ⟨_, _, rfl, by rw [UInt8.toNat_ofNat']; omega⟩

theorem toNat_toLower (c : Char) : c.toLower.toNat =
    if 0x41 ≤ c.toNat ∧ c.toNat ≤ 0x5a then c.toNat + 0x20 else c.toNat := by
  by_cases h : 0x41 ≤ c.toNat ∧ c.toNat ≤ 0x5a
  · have hlower : c.toLower.toNat = (c.val + 0x20).toNat := congrArg Char.toNat (dif_pos h)
    have hlt : c.val.toNat + 0x20 < 2 ^ 32 :=
      Nat.lt_of_le_of_lt (Nat.add_le_add_right h.2 0x20) (by decide)
    rw [hlower, if_pos h, UInt32.toNat_add]
    exact Nat.mod_eq_of_lt hlt
  · have hlower : c.toLower = c := dif_neg h
    rw [hlower, if_neg h]

theorem isAscii_toLower_iff {c : Char} : IsAscii c.toLower ↔ IsAscii c := by
  rw [IsAscii, IsAscii, toNat_toLower]
  split <;> omega

theorem sameLetter_iff {a b : UInt8} : SameLetter a b ↔ a.toNat = b.toNat ∨
    (0x41 ≤ a.toNat ∧ a.toNat ≤ 0x5a ∧ b.toNat = a.toNat + 0x20) ∨
    (0x41 ≤ b.toNat ∧ b.toNat ≤ 0x5a ∧ a.toNat = b.toNat + 0x20) := by
  simp only [SameLetter, IsCapital, UInt8.le_iff_toNat_le, ← UInt8.toNat_inj, UInt8.toNat_add]
  have h20 : (0x20 : UInt8).toNat = 0x20 := rfl
  have h41 : (0x41 : UInt8).toNat = 0x41 := rfl
  have h5a : (0x5a : UInt8).toNat = 0x5a := rfl
  rw [h20, h41, h5a]
  omega

/-- Within ASCII the same letters are those that agree in lower case. -/
theorem sameLetter_iff_toLower {c n : Char} (hc : IsAscii c) (hn : IsAscii n) :
    SameLetter (.ofNat c.toNat) (.ofNat n.toNat) ↔ c.toLower = n.toLower := by
  rw [sameLetter_iff, toNat_byte hc, toNat_byte hn, ← Char.toNat_inj, toNat_toLower, toNat_toLower]
  split <;> split <;> omega

/-- A name of ASCII can be compared by its bytes or by its characters. -/
theorem forall₂_encode_iff {name : List Char} (h : ∀ n ∈ name, IsAscii n) (text : List Char) :
    List.Forall₂ SameLetter (text.flatMap String.utf8EncodeChar)
        (name.flatMap String.utf8EncodeChar) ↔
      text.map Char.toLower = name.map Char.toLower := by
  induction name generalizing text with
  | nil => cases text <;> simp
  | cons n name ih =>
    obtain ⟨hn, hname⟩ := List.forall_mem_cons.mp h
    cases text with
    | nil => simp [encode_of_isAscii hn]
    | cons c text =>
      simp only [List.flatMap_cons, List.map_cons, List.cons.injEq, encode_of_isAscii hn,
        List.cons_append, List.nil_append]
      by_cases hc : IsAscii c
      · rw [encode_of_isAscii hc, List.cons_append, List.nil_append, List.forall₂_cons,
          sameLetter_iff_toLower hc hn, ih hname]
      · -- The first bytes differ already, and so do the characters.
        obtain ⟨first, rest, hfirst, hge⟩ := encode_of_not_isAscii hc
        rw [hfirst, List.cons_append, List.forall₂_cons]
        constructor
        · rintro ⟨hsame, -⟩
          have hbyte := toNat_byte hn
          have hbelow : n.toNat < 0x80 := hn
          rw [sameLetter_iff, hbyte] at hsame
          omega
        · rintro ⟨hlower, -⟩
          rw [← isAscii_toLower_iff, hlower, isAscii_toLower_iff] at hc
          exact absurd hn hc

/-! ## Names -/

theorem isAscii_name (p : Preset) : ∀ c ∈ p.name.toList, IsAscii c := by
  have hall : ∀ p ∈ manual :: all, p.name.toList.all fun c => IsAscii c := by decide
  intro c hc
  exact of_decide_eq_true (List.all_eq_true.mp (hall p p.mem_all) c hc)

/-- No two names are the same in lower case. -/
theorem eq_of_caseless_name {p q : Preset} (h : caseless p.name = caseless q.name) : p = q := by
  have hall : ∀ p ∈ manual :: all, ∀ q ∈ manual :: all,
    caseless p.name = caseless q.name → p = q := by decide
  exact hall p p.mem_all q q.mem_all h

theorem spells_name_iff {text : String} {p : Preset} :
    Spells text p.name ↔ caseless p.name = caseless text := by
  rw [Spells, bytes_eq, bytes_eq, forall₂_encode_iff p.isAscii_name]
  exact eq_comm

theorem ofName_eq_ok_iff {text : String} {p : Preset} :
    ofName text = .ok p ↔ caseless p.name = caseless text := by
  rw [ofName]
  cases hfind : (manual :: all).find? fun p => caseless p.name == caseless text with
  | none =>
    have hnot := List.find?_eq_none.mp hfind p p.mem_all
    simp only [reduceCtorEq, false_iff]
    exact fun h => hnot (beq_iff_eq.mpr h)
  | some q =>
    have hfound := List.find?_some hfind
    have hq : caseless q.name = caseless text := beq_iff_eq.mp hfound
    simp only [Except.ok.injEq]
    constructor
    · rintro rfl
      exact hq
    · intro hp
      exact eq_of_caseless_name (hq.trans hp.symm)

theorem ofName_eq_error_iff {text : String} :
    ofName text = .error .unknown ↔ ∀ p, ofName text ≠ .ok p := by
  cases h : ofName text with
  | ok p => simp
  | error e => cases e; simp

/-- A text is read as a preset just if it spells the preset's name byte by byte, the letters of
ASCII in either case. At most one preset is spelled by a text, and a text that spells none is an
error. The presets with a slot are those of the indices below ten, each at its own index. -/
theorem names_read_exactly :
    (∀ (text : String) (p : Preset), ofName text = .ok p ↔ Spells text p.name) ∧
    (∀ (text : String) (p q : Preset), Spells text p.name → Spells text q.name → p = q) ∧
    (∀ text : String, ofName text = .error .unknown ↔ ∀ p : Preset, ¬ Spells text p.name) ∧
    (∀ (index : Nat) (p : Preset), ofIndex? index = some p ↔ p.slot?.map Fin.val = some index) ∧
    ∀ index : Nat, ofIndex? index = none ↔ 10 ≤ index := by
  have hread (text : String) (p : Preset) : ofName text = .ok p ↔ Spells text p.name := by
    rw [ofName_eq_ok_iff, spells_name_iff]
  refine ⟨hread, ?_, ?_, fun _ _ => ofIndex?_eq_some_iff, fun _ => List.getElem?_eq_none_iff⟩
  · intro text p q hp hq
    exact eq_of_caseless_name ((spells_name_iff.mp hp).trans (spells_name_iff.mp hq).symm)
  · intro text
    rw [ofName_eq_error_iff]
    exact forall_congr' fun p => not_congr (hread text p)

/-- The name of the fourth slot in small letters, and that of the manual setting in mixed ones. -/
theorem names_read_exactly_of_mixed_case :
    (Spells "v3" (ofSlot 3).name ∧ Spells "v3" (styled .accukeyer .both).name) ∧
      ofSlot 3 = styled .accukeyer .both ∧ ofName "mANuAl" = .ok manual := by
  have hslot : Spells "v3" (ofSlot 3).name := by decide
  have hname : Spells "v3" (styled .accukeyer .both).name := by decide
  exact ⟨⟨hslot, hname⟩, names_read_exactly.2.1 "v3" _ _ hslot hname,
    (names_read_exactly.1 "mANuAl" manual).mpr (by decide)⟩

end Iambic.Preset
