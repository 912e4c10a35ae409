import BarScript.Number.Shortest

/-!
# The text of a double

Every printed double shows its shortest digits (`Number.shortest`).  A `Layout` decides how they are
set out: between two decimal exponents with a point, beyond them with an exponent.  `plain` is the
form used in answers and messages, `scriptLiteral` the one a script can read back, as the script
language has no exponents.
-/

namespace BarScript.Number

/-- The decisions of a text form of doubles. -/
structure Layout where
  /-- The least decimal exponent written with a point. -/
  leastPositional : Int
  /-- The first decimal exponent that is again written with an exponent. -/
  positionalEnd : Int
  /-- Whether a whole number keeps a `.0`. -/
  keepsPoint : Bool
  infinity : String
  nan : String

/-- The form of answers and messages: `3.0`, `1e-05`, `1.5e+300`, `inf`, `nan`. -/
def plain : Layout := ⟨-4, 16, true, "inf", "nan"⟩

/-- The form inside JSON text, which has its own names for what is not finite. -/
def jsonLayout : Layout := ⟨-4, 16, true, "Infinity", "NaN"⟩

/-- The form of numbers written into scripts: never an exponent, no `.0` on a whole number. -/
def scriptLiteral : Layout := ⟨-400, 400, false, "Infinity", "NaN"⟩

/-- The decimal digits of a natural number, most significant first. -/
def digitChars (n : Nat) : List Char := Nat.toDigits 10 n

/-- The digits of an exponent, at least two, after its sign. -/
def exponentChars (e : Int) : List Char :=
  let digits := digitChars e.natAbs
  (if e < 0 then '-' else '+') :: (List.replicate (2 - digits.length) '0' ++ digits)

/-- The digits followed by a point and what comes behind it, if anything is shown there. -/
def withPoint (whole fraction : List Char) (keepsPoint : Bool) : List Char :=
  match fraction with
  | [] => if keepsPoint then whole ++ ['.', '0'] else whole
  | _ => whole ++ '.' :: fraction

/-- Sets out a decimal number. -/
def Decimal.layOut (layout : Layout) (d : Decimal) : List Char :=
  let digits := digitChars d.digits
  let lead := d.exponent + (digits.length : Int) - 1
  if layout.leastPositional ≤ lead ∧ lead < layout.positionalEnd then
    if 0 ≤ d.exponent then
      withPoint (digits ++ List.replicate d.exponent.toNat '0') [] layout.keepsPoint
    else if 0 ≤ lead then
      withPoint (digits.take (lead.toNat + 1)) (digits.drop (lead.toNat + 1)) layout.keepsPoint
    else
      withPoint ['0'] (List.replicate (-lead - 1).toNat '0' ++ digits) layout.keepsPoint
  else
    withPoint (digits.take 1) (digits.drop 1) false ++ 'e' :: exponentChars lead

/-- The magnitude of a finite double. -/
def Exact.decimal (x : Exact) : Decimal :=
  if x.mantissa = 0 then ⟨0, 0⟩ else shortest x

/-- The text of a double in a layout. -/
def chars (layout : Layout) (x : Float) : List Char :=
  match kindOf x with
  | .nan => layout.nan.toList
  | .infinite negative => if negative then '-' :: layout.infinity.toList else layout.infinity.toList
  | .finite v =>
    if v.negative then '-' :: v.decimal.layOut layout else v.decimal.layOut layout

/-- The text of a double in answers and messages. -/
def text (x : Float) : String := String.ofList (chars plain x)

/-- The text of a whole number. -/
def intText (n : Int) : String :=
  if n < 0 then String.ofList ('-' :: digitChars n.natAbs) else String.ofList (digitChars n.natAbs)

/-- The text of a number inside a script: all digits of a whole number, else the shortest digits
with a point. -/
def scriptText (x : Float) : String :=
  match kindOf x with
  | .finite v => if v.isWhole then intText v.truncate else String.ofList (chars scriptLiteral x)
  | _ => String.ofList (chars scriptLiteral x)

end BarScript.Number
