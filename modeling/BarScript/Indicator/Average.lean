import BarScript.Indicator.Window

/-!
# Averages and what is derived from them

The simple average `sma`, the exponential average `ema`, the convergence and divergence of two
exponential averages `macd`, and the bands around an average `bollinger`.
-/

namespace BarScript.Indicator

open Scalar

variable {α : Type} [Scalar α]

/-- The mean of each window. -/
def sma (prices : List α) (period : Int) : Except Fault (List α) :=
  overWindows period (mean period.toNat) prices

/-- The values of an exponential average after `value`, each moving by the fraction `weight` towards
the next price. -/
def emaFrom (weight : α) (value : α) : List α → List α
  | [] => []
  | price :: rest =>
    let next := value + (price - value) * weight
    next :: emaFrom weight next rest

/-- The exponential average.  Its first value is the mean of the first window, its weight
`2 / (period + 1)`. -/
def ema (prices : List α) (period : Int) : Except Fault (List α) :=
  if period ≤ 0 ∨ (prices.length : Int) < period then .ok []
  else do
    let n := period.toNat
    let weight ← div (ofNat 2) (ofNat n + ofNat 1)
    let first ← mean n (prices.take n)
    return first :: emaFrom weight first (prices.drop n)

/-- A point of `macd`. -/
structure MacdPoint (α : Type) where
  macd : α
  signal : α
  histogram : α
  deriving Repr

/-- The difference of a fast and a slow exponential average, the exponential average of that
difference, and how far the two are apart.  All three belong to the same price. -/
def macd (prices : List α) (fast slow signal : Int) : Except Fault (List (MacdPoint α)) := do
  let fastLine ← ema prices fast
  let slowLine ← ema prices slow
  let n := min fastLine.length slowLine.length
  let line := List.zipWith (· - ·) (lastN n fastLine) (lastN n slowLine)
  let signalLine ← ema line signal
  return List.zipWith (fun m s => ⟨m, s, m - s⟩) (lastN signalLine.length line) signalLine

/-- A point of `bollinger`. -/
structure Band (α : Type) where
  upper : α
  middle : α
  lower : α
  deriving Repr

/-- The band of a window of `n` prices: its mean, and on both sides of it the multiple of the
standard deviation of the whole window. -/
def band (n : Nat) (multiplier : α) (window : List α) : Except Fault (Band α) := do
  let middle ← mean n window
  let squares ← window.mapM fun p => square (p - middle)
  let variance ← mean n squares
  let width := sqrt variance * multiplier
  return ⟨middle + width, middle, middle - width⟩

/-- The band of each window. -/
def bollinger (prices : List α) (period : Int) (multiplier : α) : Except Fault (List (Band α)) :=
  overWindows period (band period.toNat multiplier) prices

end BarScript.Indicator
