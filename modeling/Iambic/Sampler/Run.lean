import Iambic.Sampler

/-!
# Runs of the sampler

The sampler is sampled, and its debounce time and its swap are set, in any order. Only samples tell
edges.
-/
namespace Iambic.Sampler

inductive Act where
  | sample (now : Instant) (dit dah : Reading)
  | debounce (us : Int)
  | swap (swapped : Bool)
  | adopt (keying : Keying)

/-- A sample in which a reading fails tells no edges, and a refused debounce time changes nothing. -/
def act (s : Sampler) : Act → Sampler × List Edge
  | .sample now dit dah =>
    match s.sample now dit dah with
    | (s, .ok edges) => (s, edges)
    | (s, .error _) => (s, [])
  | .debounce us =>
    match s.setDebounce us with
    | .ok s => (s, [])
    | .error _ => (s, [])
  | .swap swapped => (s.setSwap swapped, [])
  | .adopt k => (s.adopt k, [])

/-- The sampler after the acts, with all edges that it has told. -/
def run (s : Sampler) : List Act → Sampler × List Edge
  | [] => (s, [])
  | a :: acts =>
    let after := (s.act a).1.run acts
    (after.1, (s.act a).2 ++ after.2)

theorem run_append (s : Sampler) (xs ys : List Act) :
    s.run (xs ++ ys) =
      (((s.run xs).1.run ys).1, (s.run xs).2 ++ ((s.run xs).1.run ys).2) := by
  induction xs generalizing s with
  | nil => rfl
  | cons a xs ih => simp only [List.cons_append, run, ih, List.append_assoc]

end Iambic.Sampler
