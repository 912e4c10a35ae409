import BarScript.Indicator.Window

/-!
# Strength and rate of change

`rsi` weighs the upward moves of a window against the downward ones, `roc` is the change over a
number of bars in percent, `highest` and `lowest` are the extremes of a window.
-/

namespace BarScript.Indicator

open Scalar

variable {α : Type} [Scalar α]

/-- The size of a move upwards, zero for any other. -/
def gain (move : α) : α := if lt (ofNat 0) move then move else ofNat 0

/-- The size of a move downwards, zero for any other. -/
def loss (move : α) : α := if lt move (ofNat 0) then -move else ofNat 0

/-- The relative strength of a window of `n` moves, 100 if none of them goes down. -/
def strength (n : Nat) (window : List α) : Except Fault α := do
  let averageGain ← mean n (window.map gain)
  let averageLoss ← mean n (window.map loss)
  if beq averageLoss (ofNat 0) then return ofNat 100
  else
    let ratio ← div averageGain averageLoss
    let part ← div (ofNat 100) (ofNat 1 + ratio)
    return ofNat 100 - part

/-- The relative strength of each window of `period` moves. -/
def rsi (prices : List α) (period : Int) : Except Fault (List α) :=
  overWindows period (strength period.toNat) (moves prices)

/-- The change from `base` in percent, zero if the base is zero. -/
def percentChange (base price : α) : Except Fault α :=
  if beq base (ofNat 0) then .ok (ofNat 0)
  else do return (← div (price - base) base) * ofNat 100

/-- The change in percent over `period` bars. -/
def roc (prices : List α) (period : Int) : Except Fault (List α) :=
  if period ≤ 0 then .ok []
  else (prices.zip (prices.drop period.toNat)).mapM fun p => percentChange p.1 p.2

/-- The greatest price of each window. -/
def highest (prices : List α) (period : Int) : Except Fault (List α) :=
  overWindows period maximum prices

/-- The least price of each window. -/
def lowest (prices : List α) (period : Int) : Except Fault (List α) :=
  overWindows period minimum prices

end BarScript.Indicator
