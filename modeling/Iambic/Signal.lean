import Iambic.Clock
import Iambic.Element

/-!
# What the engine tells

An element begins and ends, the key goes down and up, an opposite paddle is remembered, and both
paddles are found closed.
-/
namespace Iambic

inductive Signal where
  | started (element : Element) (time : Instant)
  | finished (element : Element) (time : Instant)
  | key (down : Bool) (time : Instant)
  | memory (element : Element) (armed : Bool) (time : Instant)
  | squeeze (time : Instant)
deriving DecidableEq

def Signal.time : Signal → Instant
  | started _ t => t
  | finished _ t => t
  | key _ t => t
  | memory _ _ t => t
  | squeeze t => t

end Iambic
