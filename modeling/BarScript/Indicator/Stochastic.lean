import BarScript.Indicator.Window

/-!
# The place of the close in the range of a window

`williamsR` says how far below the highest high of a window the close is, in percent of the range of
the window, counted downwards from 0 to -100.  `kdj` smooths the same place, counted upwards from 0
to 100, twice.  Highs, lows and closes are given separately; a window of one of them may be cut
short or empty if they are not aligned.
-/

namespace BarScript.Indicator

open Scalar

variable {α : Type} [Scalar α]

/-- The range of the highs and lows of one window, and the close at its end. -/
structure Span (α : Type) where
  high : α
  low : α
  close : α
  deriving Repr

/-- The span of the `period` bars from `start` on that end in `close`. -/
def span (highs lows : List α) (period : Nat) (start : Nat) (close : α) :
    Except Fault (Span α) := do
  let high ← maximum ((highs.drop start).take period)
  let low ← minimum ((lows.drop start).take period)
  return ⟨high, low, close⟩

/-- The closes that end a window, with the position where the window starts. -/
def windowEnds (period : Nat) (closes : List α) : List (α × Nat) :=
  (closes.drop (period - 1)).zipIdx

/-- Whether all three lists have a full window. -/
def haveWindow (highs lows closes : List α) (period : Int) : Bool :=
  0 < period && period ≤ highs.length && period ≤ lows.length && period ≤ closes.length

/-- The place of the close in its span from the bottom, in percent; halfway in a flat one. -/
def Span.fromLow (s : Span α) : Except Fault α :=
  if beq s.high s.low then .ok (ofNat 50)
  else do return (← div (s.close - s.low) (s.high - s.low)) * ofNat 100

/-- The place of the close in its span from the top, in negative percent; halfway in a flat one. -/
def Span.fromHigh (s : Span α) : Except Fault α :=
  if beq s.high s.low then .ok (-ofNat 50)
  else do return (← div (s.high - s.close) (s.high - s.low)) * -ofNat 100

/-- A place of the close for each window. -/
def places (place : Span α → Except Fault α) (highs lows closes : List α) (period : Int) :
    Except Fault (List α) :=
  if haveWindow highs lows closes period then
    (windowEnds period.toNat closes).mapM fun e => do
      place (← span highs lows period.toNat e.2 e.1)
  else .ok []

/-- A point of `kdj`. -/
structure KdjPoint (α : Type) where
  k : α
  d : α
  j : α
  deriving Repr

/-- A running average of length `n`: the new value counts once, the one before `n - 1` times. -/
def smooth (n : Int) (before value : α) : Except Fault α := do
  let weight ← ofInt (n - 1)
  let count ← ofInt n
  div (value + weight * before) count

/-- The points for a list of places, after a point with the given `k` and `d`. -/
def kdjFrom (kLength dLength : Int) (k d : α) : List α → Except Fault (List (KdjPoint α))
  | [] => .ok []
  | place :: rest => do
    let k ← smooth kLength k place
    let d ← smooth dLength d k
    let points ← kdjFrom kLength dLength k d rest
    return ⟨k, d, ofNat 3 * k - ofNat 2 * d⟩ :: points

/-- The place of the close smoothed to `k`, that smoothed to `d`, and `j = 3 k - 2 d`.  Both running
averages start from 50. -/
def kdj (highs lows closes : List α) (period kLength dLength : Int) :
    Except Fault (List (KdjPoint α)) :=
  if kLength ≤ 0 ∨ dLength ≤ 0 then .ok []
  else do
    kdjFrom kLength dLength (ofNat 50) (ofNat 50)
      (← places Span.fromLow highs lows closes period)

/-- The place of the close below the top of its window, from 0 down to -100. -/
def williamsR (highs lows closes : List α) (period : Int) : Except Fault (List α) :=
  places Span.fromHigh highs lows closes period

end BarScript.Indicator
