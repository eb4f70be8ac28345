import Iambic.Clock
import Iambic.Element

/-!
# Edges on the input lines

An edge tells that the contact of a line was closed or opened, and when. Besides the two paddles
there is a straight key.
-/
namespace Iambic

inductive Line where
  | paddle (element : Element)
  | straightKey
deriving DecidableEq

structure Edge where
  line : Line
  closed : Bool
  time : Instant
deriving DecidableEq

end Iambic
