import BarScript.Indicator.Window

/-!
# Crossings

Two lines cross between their last two points if one was not above the other and now is.
-/

namespace BarScript.Indicator

open Scalar

variable {α : Type} [Scalar α]

/-- The last two items, the earlier one first. -/
def lastTwo : List α → Option (α × α)
  | [] => none
  | [_] => none
  | [a, b] => some (a, b)
  | _ :: rest => lastTwo rest

/-- Whether the first line crosses the second from below. -/
def crossesUp (first second : List α) : Bool :=
  match lastTwo first, lastTwo second with
  | some (a, a'), some (b, b') => le a b && lt b' a'
  | _, _ => false

/-- Whether the first line crosses the second from above. -/
def crossesDown (first second : List α) : Bool :=
  match lastTwo first, lastTwo second with
  | some (a, a'), some (b, b') => le b a && lt a' b'
  | _, _ => false

end BarScript.Indicator
