import BarScript.Number.Binary

/-!
# The arithmetic of prices

Indicators are computed over any type of numbers with the operations of `Scalar`, so that what holds
in exact arithmetic can be told apart from what holds of doubles.  Dividing, squaring and reading a
whole number can fail, each for a reason of its own (`Fault`); adding, subtracting and multiplying
cannot.  Comparisons answer a `Bool`, as not all doubles are ordered.
-/

namespace BarScript

/-- Why an arithmetic operation has no result. -/
inductive Fault where
  | divisionByZero
  /-- A finite number whose square is beyond the finite numbers. -/
  | squareOverflow
  /-- A whole number beyond the finite numbers. -/
  | intTooLarge
  /-- The greatest of no numbers. -/
  | emptyMaximum
  /-- The least of no numbers. -/
  | emptyMinimum
  /-- An infinity or NaN where a whole number is needed. -/
  | noWholePart (fault : Number.WholeFault)
  deriving Repr, DecidableEq

/-- The operations that indicators are computed with. -/
class Scalar (α : Type) extends Add α, Sub α, Mul α, Neg α where
  /-- A small whole number. -/
  ofNat : Nat → α
  /-- A whole number of any size. -/
  ofInt : Int → Except Fault α
  /-- The quotient; nothing is divided by zero. -/
  div : α → α → Except Fault α
  square : α → Except Fault α
  sqrt : α → α
  lt : α → α → Bool
  le : α → α → Bool
  beq : α → α → Bool

namespace Scalar

/-- Doubles: sums, products and comparisons of IEEE 754.  The square of a finite double has to be
finite.  It is the product of the double with itself, which rounds once; a power function with the
exponent two may differ from it in the last bit, but overflows for the same doubles. -/
instance : Scalar Float where
  ofNat := Float.ofNat
  ofInt n := ((Number.ofInt? n).map Except.ok).getD (.error .intTooLarge)
  div x y := if y == 0 then .error .divisionByZero else .ok (x / y)
  square x := if (x * x).isInf && !x.isInf then .error .squareOverflow else .ok (x * x)
  sqrt := Float.sqrt
  lt x y := x < y
  le x y := x ≤ y
  beq x y := x == y

variable {α : Type} [Scalar α]

/-- The sum of numbers, from zero, left to right, rounded at every step.  A sum that makes up for
what rounding loses is another one. -/
def sum (xs : List α) : α := xs.foldl (· + ·) (ofNat 0)

/-- The sum of `n` numbers divided by `n`. -/
def mean (n : Nat) (xs : List α) : Except Fault α := div (sum xs) (ofNat n)

/-- The greatest of a number and a list; the first one stays unless a later one is greater. -/
def maxFrom (x : α) (xs : List α) : α := xs.foldl (fun m y => if lt m y then y else m) x

/-- The least of a number and a list; the first one stays unless a later one is less. -/
def minFrom (x : α) (xs : List α) : α := xs.foldl (fun m y => if lt y m then y else m) x

/-- The greatest of the numbers of a list. -/
def maximum : List α → Except Fault α
  | [] => .error .emptyMaximum
  | x :: xs => .ok (maxFrom x xs)

/-- The least of the numbers of a list. -/
def minimum : List α → Except Fault α
  | [] => .error .emptyMinimum
  | x :: xs => .ok (minFrom x xs)

/-- The quotient inside a script, where dividing by zero gives zero. -/
def quotient (x y : α) : Except Fault α := if beq y (ofNat 0) then .ok (ofNat 0) else div x y

/-- The relative change from one price to the next; from a price of zero there is none. -/
def relativeChange (before now : α) : Except Fault α := quotient (now - before) before

end Scalar

end BarScript
