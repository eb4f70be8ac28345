import Iambic.Config
import Iambic.Single.Fixed

/-!
# Valid configurations

Every bound that the keying engine relies on, in the order in which they are looked at. The
first one that does not hold is the reason for which a configuration is refused.
-/
namespace Iambic

inductive ConfigError where
  | zeroSpeed
  | windowOpening (percent : Single)
  | windowClosing (percent : Single)
  | windowInverted (window : Window)
  | dahWeight (weight : UInt8)
  | gapWeight (weight : UInt8)
  | ditWeight (weight : UInt8)
deriving DecidableEq

namespace ConfigError

/-- Percentages have one place, a half goes to the even neighbour, and a point divides them. -/
def percentFormat : FixedFormat where
  places := 1
  point := "."
  minus := "-"
  infinity := "inf"
  notANumber := "NaN"

def message : ConfigError → String
  | zeroSpeed => "speed_wpm must be > 0"
  | windowOpening x => "mem_block_start_pct must be 0-100 (got " ++ percentFormat.render x ++ ")"
  | windowClosing x => "mem_block_end_pct must be 0-100 (got " ++ percentFormat.render x ++ ")"
  | windowInverted w =>
    "memory window invalid (start=" ++ percentFormat.render w.opens ++
      "% > end=" ++ percentFormat.render w.closes ++ "%)"
  | dahWeight n => "timing_l must be 10-90 (got " ++ toString n.toNat ++ ")"
  | gapWeight n => "timing_s must be 0-99 (got " ++ toString n.toNat ++ ")"
  | ditWeight n => "timing_p must be 10-99 (got " ++ toString n.toNat ++ ")"

end ConfigError

/-- From 0 to 100; NaN is not. -/
def Single.IsPercent (x : Single) : Prop := .zero ≤ x ∧ x ≤ .ofNat 100

instance (x : Single) : Decidable x.IsPercent := inferInstanceAs (Decidable (_ ∧ _))

namespace Config

/-- The first bound that the configuration breaks. -/
def error? (c : Config) : Option ConfigError :=
  if c.speed = 0 then some .zeroSpeed
  else if ¬ c.memory.window.opens.IsPercent then some (.windowOpening c.memory.window.opens)
  else if ¬ c.memory.window.closes.IsPercent then some (.windowClosing c.memory.window.closes)
  else if c.memory.window.closes < c.memory.window.opens then some (.windowInverted c.memory.window)
  else if ¬ (10 ≤ c.weights.dah ∧ c.weights.dah ≤ 90) then some (.dahWeight c.weights.dah)
  else if 99 < c.weights.gap then some (.gapWeight c.weights.gap)
  else if ¬ (10 ≤ c.weights.dit ∧ c.weights.dit ≤ 99) then some (.ditWeight c.weights.dit)
  else none

/-- All bounds at once. -/
structure Valid (c : Config) : Prop where
  speed : 1 ≤ c.speed.toNat
  opens : c.memory.window.opens.IsPercent
  closes : c.memory.window.closes.IsPercent
  ordered : c.memory.window.opens ≤ c.memory.window.closes
  dah : 10 ≤ c.weights.dah.toNat ∧ c.weights.dah.toNat ≤ 90
  gap : c.weights.gap.toNat ≤ 99
  dit : 10 ≤ c.weights.dit.toNat ∧ c.weights.dit.toNat ≤ 99

end Config
end Iambic
