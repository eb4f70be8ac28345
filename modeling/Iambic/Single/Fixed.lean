import Iambic.Single.Rounding

/-!
# Fixed-point text of singles

A number is written with a fixed count of decimal places, rounded from its exact value with
ties to even. Its sign is written even when every digit is zero.
-/
namespace Iambic

structure FixedFormat where
  places : Nat
  point : String
  minus : String
  infinity : String
  notANumber : String

namespace FixedFormat

/-- The number `scaled` in units of the last place, with every place written. -/
def digits (format : FixedFormat) (scaled : Nat) : String :=
  let fraction := toString (scaled % Nat.pow 10 format.places)
  toString (scaled / Nat.pow 10 format.places) ++ format.point ++
    "".pushn '0' (format.places - fraction.length) ++ fraction

def sign (format : FixedFormat) (negative : Bool) : String := if negative then format.minus else ""

def render (format : FixedFormat) : Single → String
  | .finite negative units _ =>
    format.sign negative ++
      format.digits (halfEven (units * Nat.pow 10 format.places) Single.unitsPerOne)
  | .infinite negative => format.sign negative ++ format.infinity
  | .nan => format.notANumber

end FixedFormat
end Iambic
