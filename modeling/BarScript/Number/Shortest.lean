import BarScript.Number.Binary

/-!
# The fewest decimal digits that read back to a double

The reals that round to a double `m · 2 ^ q` form an interval around it, whose ends belong to it
exactly when `m` is even.  For one digit, two digits and so on, the two neighbours of the value on
the grid of decimals with so many digits are tested against that interval in exact integer
arithmetic.  The first grid with a hit gives the digits (`Number.shortest`); of two hits the nearer
one is taken, and of two equally near ones the even one.
-/

namespace BarScript.Number

/-- The decimal number `digits · 10 ^ exponent`. -/
structure Decimal where
  digits : Nat
  exponent : Int
  deriving Repr, DecidableEq

/-- Removes the zeros at the end of the digits, at most `fuel` of them. -/
def Decimal.trim : Nat → Decimal → Decimal
  | 0, d => d
  | fuel + 1, d =>
    if d.digits ≠ 0 ∧ d.digits % 10 = 0 then
      Decimal.trim fuel ⟨d.digits / 10, d.exponent + 1⟩
    else d

/-- The least `e` with `n < 10 ^ e`, counted upwards from `e` for at most `fuel` steps. -/
def decimalLength (n : Nat) : Nat → Nat → Nat
  | 0, e => e
  | fuel + 1, e => if n < Nat.pow 10 e then e else decimalLength n fuel (e + 1)

/-- The number of decimal digits of a natural number. -/
def digitCount (n : Nat) : Nat := decimalLength n (n.log2 + 1) (n.log2 * 30 / 100)

/-- The interval of the reals that round to a double, over a common denominator: the numerators of
its lower end, the value and its upper end, and whether the ends belong to it. -/
structure Interval where
  lower : Nat
  value : Nat
  upper : Nat
  denominator : Nat
  closed : Bool

/-- The rounding interval of a positive double.  Below a power of two the next double is half as far
away as above it, save at the smallest exponent. -/
def Exact.interval (x : Exact) : Interval :=
  let narrow := x.mantissa == Nat.pow 2 52 && x.exponent != -1074
  let scale := Nat.pow 2 x.exponent.toNat
  { lower := (4 * x.mantissa - if narrow then 1 else 2) * scale
    value := 4 * x.mantissa * scale
    upper := (4 * x.mantissa + 2) * scale
    denominator := 4 * Nat.pow 2 (-x.exponent).toNat
    closed := x.mantissa % 2 == 0 }

/-- The exponent of the leading digit of `value / denominator`: `10 ^ e` is not greater than the
quotient and `10 ^ (e + 1)` is. -/
def leadingExponent (value denominator : Nat) : Int :=
  let guess : Int := (digitCount value : Int) - digitCount denominator
  let reached := value * Nat.pow 10 (-guess).toNat ≥ denominator * Nat.pow 10 guess.toNat
  if reached then guess else guess - 1

namespace Interval

/-- Whether `n / d` lies in the interval. -/
def holds (r : Interval) (n d : Nat) : Bool :=
  let low := compare (r.lower * d) (n * r.denominator)
  let high := compare (n * r.denominator) (r.upper * d)
  (low == .lt || (r.closed && low == .eq)) && (high == .lt || (r.closed && high == .eq))

/-- The neighbour of the value on the grid of multiples of `10 ^ step` that lies in the interval,
the nearer one if both do. -/
def pick (r : Interval) (step : Int) : Option Decimal :=
  let up := Nat.pow 10 step.toNat
  let down := Nat.pow 10 (-step).toNat
  let numerator := r.value * down
  let unit := r.denominator * up
  let below := numerator / unit
  let rest := numerator % unit
  let lowFits := r.holds (below * up) down
  let highFits := r.holds ((below + 1) * up) down
  let lowNearer := 2 * rest < unit || (2 * rest == unit && below % 2 == 0)
  if lowFits && (lowNearer || !highFits) then some ⟨below, step⟩
  else if highFits then some ⟨below + 1, step⟩
  else none

end Interval

/-- The fewest digits of a positive double that read back to it, without zeros at the end.
Seventeen digits always suffice. -/
def shortest (x : Exact) : Decimal :=
  let r := x.interval
  let lead := leadingExponent r.value r.denominator
  let grids := (List.range 17).map fun (n : Nat) => lead - (n : Int)
  ((grids.findSome? r.pick).getD ⟨x.mantissa, 0⟩).trim 20

end BarScript.Number
