import BarScript.Scalar

/-!
# Windows over a price list

A window is a run of consecutive prices.  Every indicator has one point for each full window, the
last point belonging to the last price.
-/

namespace BarScript.Indicator

variable {α : Type}

/-- The runs of `n` consecutive items, in order.  Where fewer than `n` items are left there are no
more. -/
def windows (n : Nat) : List α → List (List α)
  | [] => []
  | x :: xs =>
    let window := (x :: xs).take n
    if window.length = n then window :: windows n xs else []

/-- The differences of neighbouring items. -/
def moves [Sub α] (xs : List α) : List α := List.zipWith (fun a b => b - a) xs xs.tail

/-- The last item. -/
def latest (xs : List α) : Option α := xs.getLast?

/-- The last `n` items. -/
def lastN (n : Nat) (xs : List α) : List α := xs.drop (xs.length - n)

/-- One point for each window of `period` prices; none unless the period is positive. -/
def overWindows {β : Type} (period : Int) (point : List α → Except Fault β) (prices : List α) :
    Except Fault (List β) :=
  if period ≤ 0 then .ok [] else (windows period.toNat prices).mapM point

end BarScript.Indicator
