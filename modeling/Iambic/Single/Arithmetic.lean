import Iambic.Single.Rounding

/-!
# Arithmetic on singles

Each operation gives the single nearest to its exact result, ties to even. A product or quotient
is negative when just one operand is, and `0 · ∞`, `0 / 0` and `∞ / ∞` are NaN.
-/
namespace Iambic.Single

/-- The single nearest to a whole number. -/
def ofNat (n : Nat) : Single := round false (n * unitsPerOne) 1

protected def mul : Single → Single → Single
  | .nan, _ => .nan
  | _, .nan => .nan
  | .infinite s, .infinite t => .infinite (s != t)
  | .infinite s, .finite t b _ => if b = 0 then .nan else .infinite (s != t)
  | .finite s a _, .infinite t => if a = 0 then .nan else .infinite (s != t)
  | .finite s a _, .finite t b _ => round (s != t) (a * b) unitsPerOne

protected def div : Single → Single → Single
  | .nan, _ => .nan
  | _, .nan => .nan
  | .infinite _, .infinite _ => .nan
  | .infinite s, .finite t _ _ => .infinite (s != t)
  | .finite s _ _, .infinite t => signedZero (s != t)
  | .finite s a _, .finite t b _ =>
    if b = 0 then if a = 0 then .nan else .infinite (s != t)
    else round (s != t) (a * unitsPerOne) b

instance : Mul Single := ⟨Single.mul⟩
instance : Div Single := ⟨Single.div⟩

/-- The whole part of a positive number; a single that is no positive number has none. -/
def whole : Single → Nat
  | .finite false units _ => units / unitsPerOne
  | _ => 0

/-- The nearest number from `low` to `high`; a number between them keeps its sign of zero. -/
def clamp (x low high : Single) : Single :=
  if x < low then low else if high < x then high else x

theorem mul_def (x y : Single) : x * y = x.mul y := rfl
theorem div_def (x y : Single) : x / y = x.div y := rfl

theorem finite_mul_finite (s t : Bool) {a b : Nat} (ha : OnGrid a) (hb : OnGrid b) :
    Single.finite s a ha * .finite t b hb = round (s != t) (a * b) unitsPerOne := by
  simp only [mul_def, Single.mul]

theorem finite_div_finite (s t : Bool) {a b : Nat} (ha : OnGrid a) (hb : OnGrid b) (h : b ≠ 0) :
    Single.finite s a ha / .finite t b hb = round (s != t) (a * unitsPerOne) b := by
  simp only [div_def, Single.div, if_neg h]

end Iambic.Single
