/-!
# The exact value of a double

A finite double is `± m · 2 ^ q` for a natural number `m` and an integer `q`
(`Number.Exact`).  Rounding to a whole number and the text of a double are computed on `m` and
`q` in exact integer arithmetic.

Doubles that are not finite have no whole part; `WholeFault` says which of the two reasons holds.
-/

namespace BarScript.Number

/-- A finite double: `± mantissa · 2 ^ exponent`. -/
structure Exact where
  /-- The sign bit; zero has one too. -/
  negative : Bool
  mantissa : Nat
  exponent : Int
  deriving Repr, DecidableEq

/-- What a double denotes. -/
inductive Kind where
  | nan
  | infinite (negative : Bool)
  | finite (value : Exact)
  deriving Repr, DecidableEq

/-- Takes the sign, the exponent field and the fraction field of a double apart. -/
def kindOf (x : Float) : Kind :=
  let bits := x.toBits.toNat
  let negative := bits / Nat.pow 2 63 = 1
  let field : Nat := bits / Nat.pow 2 52 % Nat.pow 2 11
  let fraction := bits % Nat.pow 2 52
  if field = 2047 then
    if fraction = 0 then .infinite negative else .nan
  else if field = 0 then
    .finite ⟨negative, fraction, -1074⟩
  else
    .finite ⟨negative, Nat.pow 2 52 + fraction, (field : Int) - 1075⟩

/-- Why a double has no whole part. -/
inductive WholeFault where
  | infinite
  | nan
  deriving Repr, DecidableEq

/-- The wording for a double without whole part. -/
def WholeFault.message : WholeFault → String
  | infinite => "cannot convert float infinity to integer"
  | nan => "cannot convert float NaN to integer"

namespace Exact

/-- The sign as a factor. -/
def signed (x : Exact) (magnitude : Nat) : Int :=
  if x.negative then -(magnitude : Int) else magnitude

/-- The whole part: the value with its fraction cut off. -/
def truncate (x : Exact) : Int :=
  x.signed (x.mantissa * Nat.pow 2 x.exponent.toNat / Nat.pow 2 (-x.exponent).toNat)

/-- Whether the value is a whole number. -/
def isWhole (x : Exact) : Bool :=
  x.mantissa * Nat.pow 2 x.exponent.toNat % Nat.pow 2 (-x.exponent).toNat == 0

/-- The greatest whole number that is not greater. -/
def floor (x : Exact) : Int :=
  if x.negative && !x.isWhole then x.truncate - 1 else x.truncate

/-- The least whole number that is not less. -/
def ceil (x : Exact) : Int :=
  if !x.negative && !x.isWhole then x.truncate + 1 else x.truncate

end Exact

/-- A function of the exact value, where there is one. -/
def onExact {α : Type} (f : Exact → α) (x : Float) : Except WholeFault α :=
  match kindOf x with
  | .nan => .error .nan
  | .infinite _ => .error .infinite
  | .finite v => .ok (f v)

/-- The whole part of a double. -/
def truncate (x : Float) : Except WholeFault Int := onExact Exact.truncate x

/-- The greatest whole number that is not greater. -/
def floor (x : Float) : Except WholeFault Int := onExact Exact.floor x

/-- The least whole number that is not less. -/
def ceil (x : Float) : Except WholeFault Int := onExact Exact.ceil x

/-- Whether a double is a whole number; infinities and NaN are not. -/
def isWhole (x : Float) : Bool :=
  match kindOf x with
  | .finite v => v.isWhole
  | _ => false

/-- The double nearest to a whole number, a tie going to the even neighbour; `none` if the number
lies beyond the finite doubles. -/
def ofInt? (n : Int) : Option Float :=
  let x := Float.ofInt n
  if x.isInf then none else some x

/-- The double nearest to `digits · 10 ^ exponent`.  Exponents far outside the range of doubles are
cut short, since they give zero or infinity whatever their size. -/
def ofDecimal (digits : Nat) (exponent : Int) : Float :=
  if digits = 0 then 0.0
  else
    let places : Int := (Nat.log2 digits / 3 : Nat) + 400
    let e := max (-places) (min exponent 400)
    Float.ofScientific digits (e < 0) e.natAbs

end BarScript.Number
