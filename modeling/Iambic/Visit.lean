import Iambic.Rig
import Iambic.Sampler.Run

/-!
# Visits to the contacts

In a visit the contacts are sampled once, and afterwards the engine is ticked. In between the edges
go to the engine, either at once or through the channel.
-/
namespace Iambic

structure Visit where
  /-- What the debounce time is set to before the contacts are sampled. -/
  debounces : List Int
  sampled : Instant
  dit : Reading
  dah : Reading
  ticked : Instant

/-- The visit with the contacts exchanged. -/
def Visit.exchange (v : Visit) : Visit := { v with dit := v.dah, dah := v.dit }

namespace Sampler

/-- A debounce time that is refused is passed over. -/
def adjust (s : Sampler) (debounces : List Int) : Sampler :=
  debounces.foldl (fun s us => (s.act (.debounce us)).1) s

/-- The sampler after the visit, with the edges that it tells. -/
def visit (s : Sampler) (v : Visit) : Sampler × List Edge :=
  (s.adjust v.debounces).act (.sample v.sampled v.dit v.dah)

/-- The sampler after the visits, with the edges that it tells in each of them. -/
def visitAll (s : Sampler) : List Visit → Sampler × List (List Edge)
  | [] => (s, [])
  | v :: visits =>
    let after := (s.visit v).1.visitAll visits
    (after.1, (s.visit v).2 :: after.2)

/-- What an engine is told that gets the edges at once. -/
def inputs (s : Sampler) : List Visit → List Input
  | [] => []
  | v :: visits => (s.visit v).2.map .edge ++ .tick v.ticked :: (s.visit v).1.inputs visits

end Sampler

namespace Rig

/-- Every contact is open, no edge waits, and the engine is polled in every round. -/
def rest (swapped : Bool) (size : Nat) (c : Config) (keyLine : KeyLine) : Rig where
  sampler := Sampler.rest.setSwap swapped
  station := ⟨.rest c, .empty size⟩
  keyLine := keyLine
  dit := .high
  dah := .high
  scenes := []
  waited := 0
  pollEvery := 1

/-- The debounce time and the contacts are as the visit has them. -/
def meet (r : Rig) (v : Visit) : Rig :=
  { r with sampler := r.sampler.adjust v.debounces, dit := v.dit, dah := v.dah }

/-- The edges of the visit go through the channel; each is told with whether the channel took it. -/
def visit (r : Rig) (v : Visit) : Rig × List (Edge × Bool) :=
  let seen := (r.meet v).observe v.sampled
  ((seen.1.poll v.ticked).1, seen.2.1)

/-- A round is a visit that finds the contacts as the script has them by then. -/
theorem round_eq_visit (r : Rig) (now : Instant) :
    let visited := (r.play now).visit ⟨[], now, (r.play now).dit, (r.play now).dah, now⟩
    (r.round now).1 = visited.1 ∧ (r.round now).2.edges = visited.2 := ⟨rfl, rfl⟩

def visitAll (r : Rig) : List Visit → Rig × List (Edge × Bool)
  | [] => (r, [])
  | v :: visits =>
    let after := (r.visit v).1.visitAll visits
    (after.1, (r.visit v).2 ++ after.2)

end Rig
end Iambic
