/-!
# The microsecond clock

A clock reading is a signed 64-bit count of microseconds. Deadlines and elapsed times stop at
the ends of that range. A checked difference is refused when it leaves the range.
-/
namespace Iambic

@[ext] structure Instant where
  us : Int
  first_le : -0x8000000000000000 ≤ us
  lt_end : us < 0x8000000000000000
deriving DecidableEq

namespace Instant

instance : LE Instant := ⟨fun a b => a.us ≤ b.us⟩
instance : LT Instant := ⟨fun a b => a.us < b.us⟩
instance (a b : Instant) : Decidable (a ≤ b) := inferInstanceAs (Decidable (a.us ≤ b.us))
instance (a b : Instant) : Decidable (a < b) := inferInstanceAs (Decidable (a.us < b.us))

theorem le_iff {a b : Instant} : a ≤ b ↔ a.us ≤ b.us := Iff.rfl
theorem lt_iff {a b : Instant} : a < b ↔ a.us < b.us := Iff.rfl
theorem not_lt {a b : Instant} : ¬ a < b ↔ b ≤ a := Int.not_lt
theorem not_le {a b : Instant} : ¬ a ≤ b ↔ b < a := Int.not_le
theorem le_refl (a : Instant) : a ≤ a := Int.le_refl _
theorem le_trans {a b c : Instant} (hab : a ≤ b) (hbc : b ≤ c) : a ≤ c := Int.le_trans hab hbc

def zero : Instant := ⟨0, by omega, by omega⟩

/-- The instant of a count that the clock can show. -/
def ofInt? (t : Int) : Option Instant :=
  if h : -0x8000000000000000 ≤ t ∧ t < 0x8000000000000000 then some ⟨t, h.1, h.2⟩ else none

/-- The instant nearest to a count. -/
def clamp (t : Int) : Instant :=
  ⟨max (-0x8000000000000000) (min t 0x7fffffffffffffff), by omega, by omega⟩

/-- The deadline `span` after `t`, or the last instant if the clock ends before it. -/
def later (t : Instant) (span : Nat) : Instant := clamp (t.us + span)

/-- The time from `s` to `t`, stopped at the ends of the clock's range. -/
def since (t s : Instant) : Int := (clamp (t.us - s.us)).us

/-- The time from `s` to `t`, if it lies in the clock's range. -/
def since? (t s : Instant) : Option Int := (ofInt? (t.us - s.us)).map us

/-- The instants `first`, `first + step`, … up to `last`; a step below one counts as one. -/
def grid (first last : Instant) (step : Int) : List Instant :=
  if last < first then []
  else (List.range ((last.us - first.us) / max step 1 + 1).toNat).map
    fun k : Nat => clamp (first.us + k * max step 1)

theorem us_clamp {t : Int} (h : -0x8000000000000000 ≤ t ∧ t < 0x8000000000000000) : (clamp t).us = t := by
  simp only [clamp]
  omega

theorem us_later (t : Instant) (span : Nat) :
    (t.later span).us = min (t.us + span) 0x7fffffffffffffff := by
  have := t.first_le
  simp only [later, clamp]
  omega

theorem le_later (t : Instant) (span : Nat) : t ≤ t.later span := by
  have := t.lt_end
  rw [le_iff, us_later]
  omega

theorem since_eq (t s : Instant) :
    t.since s = max (-0x8000000000000000) (min (t.us - s.us) 0x7fffffffffffffff) := rfl

theorem since?_eq_some_iff {t s : Instant} {d : Int} :
    t.since? s = some d ↔ d = t.us - s.us ∧ -0x8000000000000000 ≤ d ∧ d < 0x8000000000000000 := by
  unfold since? ofInt?
  split <;> simp <;> omega

theorem ofInt?_eq_some_iff {t : Int} {i : Instant} : ofInt? t = some i ↔ i.us = t := by
  unfold ofInt?
  split
  · rw [Option.some.injEq, Instant.ext_iff]
    exact eq_comm
  · have := i.first_le
    have := i.lt_end
    constructor
    · simp
    · omega

theorem length_grid (first last : Instant) (step : Int) :
    (grid first last step).length =
      if last < first then 0 else ((last.us - first.us) / max step 1 + 1).toNat := by
  unfold grid
  split <;> simp

/-- No point of a grid is moved to the ends of the clock's range. -/
theorem us_getElem_grid {first last : Instant} {step : Int} {k : Nat}
    (h : k < (grid first last step).length) :
    (grid first last step)[k].us = first.us + k * max step 1 := by
  have hk := h
  rw [length_grid] at hk
  split at hk
  · omega
  · rename_i hle
    have hlast : (k : Int) * max step 1 ≤ last.us - first.us :=
      Int.le_trans (Int.mul_le_mul_of_nonneg_right (by omega) (by omega)) (Int.ediv_mul_le _ (by omega))
    have hpos : 0 ≤ (k : Int) * max step 1 := Int.mul_nonneg (by omega) (by omega)
    have := first.first_le
    have := last.lt_end
    simp only [grid, if_neg hle, List.getElem_map, List.getElem_range]
    exact us_clamp (by omega)

end Instant
end Iambic
