import Iambic.Proofs.Engine.Words
import Iambic.Transmitter

/-!
# The level of the key line

Each key signal is one attempt to drive the pin, and no other signal is. So the attempts are the
positions of the key, one for one, and what the pin refuses changes nothing but the count of
errors and the level that the line is left at.
-/
namespace Iambic

theorem keys_cons (s : Signal) (signals : List Signal) :
    keys (s :: signals) = s.key?.toList ++ keys signals := by
  rw [keys, List.filterMap_cons]
  cases s.key? <;> rfl

/-- The level to which the pin has been driven. -/
def Pin.level? (p : Pin) : Option Bool := (p.writes.filter Write.accepted).getLast?.map Write.high

theorem Pin.level?_of_accepted {p : Pin} (h : ∀ w ∈ p.writes, w.accepted) :
    p.level? = (p.writes.map Write.high).getLast? := by
  rw [level?, List.filter_eq_self.mpr h, List.getLast?_map]

namespace KeyLine
variable {k : KeyLine} {s : Signal} {signals : List Signal}

/-- The line has been driven to its level for the key to be down. -/
def Keyed (k : KeyLine) : Prop := k.pin.level? = some (!k.inverted)

def refused (k : KeyLine) : Nat := k.pin.writes.countP fun w => !w.accepted

theorem accept_key (k : KeyLine) (down : Bool) (t : Instant) :
    k.accept (.key down t) = { k.set down with
      errors := if k.pin.accepts then k.errors else min (k.errors + 1) maxErrors } := by
  rw [accept, attempt]
  cases k.pin.accepts <;> rfl

theorem accept_frame (k : KeyLine) (s : Signal) :
    (k.accept s).inverted = k.inverted ∧ (k.accept s).pin.refuses = k.pin.refuses := by
  cases s with
  | key down t =>
    rw [accept_key]
    exact ⟨rfl, rfl⟩
  | started | finished | memory | squeeze => exact ⟨rfl, rfl⟩

theorem acceptAll_frame (k : KeyLine) (signals : List Signal) :
    (k.acceptAll signals).inverted = k.inverted ∧
      (k.acceptAll signals).pin.refuses = k.pin.refuses := by
  induction signals generalizing k with
  | nil => exact ⟨rfl, rfl⟩
  | cons s signals ih =>
    obtain ⟨hinverted, hrefuses⟩ := k.accept_frame s
    rw [← hinverted, ← hrefuses]
    exact ih (k.accept s)

/-- A key signal is one attempt, and any other signal none. -/
theorem writes_accept (k : KeyLine) (s : Signal) :
    (k.accept s).pin.writes = k.pin.writes ++ s.key?.toList.map fun down =>
      ⟨down != k.inverted, !k.pin.refuses k.pin.writes.length⟩ := by
  cases s with
  | key down t =>
    rw [accept_key]
    rfl
  | started | finished | memory | squeeze => exact (List.append_nil _).symm

/-- The levels that are attempted are the positions of the key. -/
theorem levels_acceptAll (k : KeyLine) (signals : List Signal) :
    (k.acceptAll signals).pin.writes.map Write.high =
      k.pin.writes.map Write.high ++ (keys signals).map fun down => down != k.inverted := by
  induction signals generalizing k with
  | nil => simp [acceptAll, keys]
  | cons s signals ih =>
    have hs := k.writes_accept s
    obtain ⟨hinverted, -⟩ := k.accept_frame s
    change ((k.accept s).acceptAll signals).pin.writes.map Write.high = _
    rw [ih, hs, hinverted, keys_cons]
    simp

/-- The line has told the truth about its attempts. -/
structure Honest (k : KeyLine) : Prop where
  accepted : ∀ n w, k.pin.writes[n]? = some w → w.accepted = !k.pin.refuses n
  errors : k.errors = min k.refused maxErrors

theorem Honest.idle (refuses : Nat → Bool) (inverted : Bool) :
    (idle refuses inverted).Honest where
  accepted := by simp [KeyLine.idle]
  errors := rfl

theorem Honest.accept (h : k.Honest) (s : Signal) : (k.accept s).Honest := by
  cases s with
  | key down t =>
    have hwrites := k.writes_accept (.key down t)
    simp only [Signal.key?, Option.toList_some, List.map_singleton] at hwrites
    constructor
    · intro n w hw
      rw [(k.accept_frame (.key down t)).2]
      rw [hwrites, List.getElem?_append] at hw
      split at hw
      · exact h.accepted n w hw
      · obtain ⟨hn, rfl⟩ : n - k.pin.writes.length = 0 ∧ _ = w := by
          simpa [List.getElem?_singleton] using hw
        have hlast : n = k.pin.writes.length := by omega
        rw [hlast]
    · rw [refused, hwrites, accept_key, List.countP_append, ← refused]
      have := h.errors
      cases hr : k.pin.refuses k.pin.writes.length <;> simp [Pin.accepts, hr] <;> omega
  | started | finished | memory | squeeze => exact h

theorem Honest.acceptAll (h : k.Honest) (signals : List Signal) :
    (k.acceptAll signals).Honest := by
  induction signals generalizing k with
  | nil => exact h
  | cons s signals ih => exact ih (h.accept s)

end KeyLine

namespace Transmitter
variable {c : Config} {inputs : List Input}

/-- What the pin has been told, with the level that it is left at. -/
structure FollowsEngine (t : Transmitter) (refuses : Nat → Bool) (inverted : Bool)
    (signals : List Signal) : Prop where
  /-- Each attempt is a position of the key, and each position an attempt. -/
  attempts : t.line.pin.writes.map Write.high = (keys signals).map (· != inverted)
  alternate : ∀ n w, t.line.pin.writes[n]? = some w → w.high = (decide (n % 2 = 0) != inverted)
  last : ∀ w, t.line.pin.writes.getLast? = some w → w.high = (t.engine.isKeyDown != inverted)
  accepted : ∀ n w, t.line.pin.writes[n]? = some w → w.accepted = !refuses n
  errors : t.line.errors = min t.line.refused KeyLine.maxErrors
  keyed : (∀ w ∈ t.line.pin.writes, w.accepted) → (t.line.Keyed ↔ t.engine.isKeyDown)

theorem run_rest_engine (c : Config) (refuses : Nat → Bool) (inverted : Bool)
    (inputs : List Input) :
    ((rest c refuses inverted).run inputs).engine = ((Engine.rest c).run inputs).engine := by
  rw [run_eq]
  rfl

theorem levels_run (c : Config) (refuses : Nat → Bool) (inverted : Bool)
    (inputs : List Input) :
    ((rest c refuses inverted).run inputs).line.pin.writes.map Write.high =
      (keys ((Engine.rest c).run inputs).signals).map (· != inverted) := by
  rw [run_eq]
  exact (KeyLine.idle refuses inverted).levels_acceptAll _

theorem honest_run (c : Config) (refuses : Nat → Bool) (inverted : Bool)
    (inputs : List Input) :
    ((rest c refuses inverted).run inputs).line.Honest := by
  rw [run_eq]
  exact (KeyLine.Honest.idle refuses inverted).acceptAll _

theorem run_frame (c : Config) (refuses : Nat → Bool) (inverted : Bool)
    (inputs : List Input) :
    let t := (rest c refuses inverted).run inputs
    t.line.inverted = inverted ∧ t.line.pin.refuses = refuses := by
  rw [run_eq]
  exact (KeyLine.idle refuses inverted).acceptAll_frame _

theorem followsEngine_run (ho : ∀ i ∈ inputs, i.Ordinary) (refuses : Nat → Bool)
    (inverted : Bool) :
    ((rest c refuses inverted).run inputs).FollowsEngine refuses inverted
      ((Engine.rest c).run inputs).signals := by
  have hsp : Engine.Spoken c ((Engine.rest c).run inputs) := Engine.spoken_run ho
  have hlevels := levels_run c refuses inverted inputs
  have honest := honest_run c refuses inverted inputs
  obtain ⟨hinverted, hrefuses⟩ := run_frame c refuses inverted inputs
  have hkey := hsp.keyDown
  rw [← run_rest_engine c refuses inverted] at hkey
  constructor
  case attempts => exact hlevels
  case accepted =>
    intro n w hw
    rw [honest.accepted n w hw, hrefuses]
  case errors => exact honest.errors
  case alternate =>
    intro n w hw
    have hn := congrArg (·[n]?) hlevels
    simp only [List.getElem?_map, hw, Option.map_some] at hn
    obtain ⟨down, hdown, hhigh⟩ := Option.map_eq_some_iff.mp hn.symm
    rw [← hhigh, hsp.alternate n down hdown]
  case last =>
    intro w hw
    have hlast := congrArg List.getLast? hlevels
    simp only [List.getLast?_map, hw, Option.map_some] at hlast
    obtain ⟨down, hdown, hhigh⟩ := Option.map_eq_some_iff.mp hlast.symm
    have hposition : ((rest c refuses inverted).run inputs).engine.isKeyDown = down := by
      rw [Bool.eq_iff_iff, hkey, hdown, Option.some_inj]
    rw [← hhigh, hposition]
  case keyed =>
    intro h
    rw [hkey, KeyLine.Keyed, hinverted, Pin.level?_of_accepted h, hlevels, List.getLast?_map]
    cases (keys ((Engine.rest c).run inputs).signals).getLast? with
    | none => simp
    | some down => cases down <;> simp

/-- From rest, without a restart, the pin is driven once for each key signal: for the key to be
down first, and in turn from then on. So it was last driven for the position the key is in.
Refusals are counted, and the engine never notices them. If there was none, the line is keyed just
while an element is being sent. -/
theorem key_line_follows_engine (ho : ∀ i ∈ inputs, i.Ordinary) (refuses : Nat → Bool)
    (inverted : Bool) :
    let t := (rest c refuses inverted).run inputs
    t.FollowsEngine refuses inverted ((Engine.rest c).run inputs).signals ∧
      t.engine = ((Engine.rest c).run inputs).engine ∧
      t.engine = ((rest c (fun _ => false) inverted).run inputs).engine := by
  have hengine := run_rest_engine c refuses inverted inputs
  have hsure := run_rest_engine c (fun _ => false) inverted inputs
  exact ⟨followsEngine_run ho refuses inverted, hengine, hengine.trans hsure.symm⟩

/-- An inverted line fails to let the key up after a dit, and is driven for the dah all the same.
The line that never fails is keyed for the dah. -/
theorem key_line_follows_engine_of_refused_write :
    let inputs := [.paddles .both, .tick .zero, .tick (.clamp 30000), .tick (.clamp 60000),
      .tick (.clamp 120000)]
    let t := (rest .standard (· == 1) true).run inputs
    let sure := (rest .standard (fun _ => false) true).run inputs
    ((∀ i ∈ inputs, Input.Ordinary i) ∧
      t.line.pin.writes = [⟨false, true⟩, ⟨true, false⟩, ⟨false, true⟩] ∧ t.line.errors = 1) ∧
      t.FollowsEngine (· == 1) true ((Engine.rest .standard).run inputs).signals ∧
      t.engine = sure.engine ∧ sure.line.Keyed := by
  intro inputs t sure
  have ho : ∀ i ∈ inputs, Input.Ordinary i := by decide
  obtain ⟨hfollows, -, hsame⟩ := key_line_follows_engine (c := .standard) ho (· == 1) true
  have hsure := key_line_follows_engine (c := .standard) ho (fun _ => false) true
  exact ⟨⟨ho, by decide, by decide⟩, hfollows, hsame, (hsure.1.keyed (by decide)).mpr (by decide)⟩

end Transmitter
end Iambic
