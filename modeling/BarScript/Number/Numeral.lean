import BarScript.Number.Notation
import BarScript.Text.Blank
import BarScript.Text.Digit

/-!
# Numbers read from text

`Numeral.float?` and `Numeral.int?` read a number that stands alone in a text.  White space around
it, a sign, the decimal digits of every script and single underscores between digits are allowed;
the words `inf`, `infinity` and `nan`, in any case, are doubles too.  A double is the one nearest to
the decimal that is written.

A whole number of more than `maxIntDigits` digits is refused.
-/

namespace BarScript.Numeral

open Text

/-- The most digits a whole number may be written with. -/
def maxIntDigits : Nat := 4300

/-- The wording for a whole number with too many digits. -/
def tooLongMessage (digits : Nat) : String :=
  s!"Exceeds the limit ({maxIntDigits} digits) for integer string conversion: value has " ++
    s!"{digits} digits; use sys.set_int_max_str_digits() to increase the limit"

/-- Replaces every decimal digit by the ASCII digit of its value. -/
def asciiDigits (cs : List Char) : List Char :=
  cs.map fun c => match digitValue? c with
    | some d => Char.ofNat (48 + d)
    | none => c

/-- Removes the underscores that stand between two digits; `none` if one stands elsewhere. -/
def dropUnderscores (cs : List Char) : Option (List Char) :=
  go none cs
where
  go (before : Option Char) : List Char → Option (List Char)
    | [] => some []
    | '_' :: rest =>
      match before, rest with
      | some b, c :: _ => if isDigit b && isDigit c then go (some '_') rest else none
      | _, _ => none
    | c :: rest => (go (some c) rest).map (c :: ·)

/-- Splits a sign off: whether it was a minus, and what follows. -/
def splitSign : List Char → Bool × List Char
  | '-' :: rest => (true, rest)
  | '+' :: rest => (false, rest)
  | rest => (false, rest)

/-- The value of an exponent such as `e-05`; nothing at all is the exponent zero. -/
def exponent? : List Char → Option Int
  | [] => some 0
  | c :: rest =>
    if c = 'e' ∨ c = 'E' then
      let (negative, digits) := splitSign rest
      if digits.isEmpty || !digits.all isDigit then none
      else
        let n : Int := digitsValue digits
        some (if negative then -n else n)
    else none

/-- An unsigned decimal: digits with at most one point among or around them, then perhaps an
exponent. -/
def decimal? (cs : List Char) : Option Float :=
  let whole := cs.takeWhile isDigit
  let rest := cs.dropWhile isDigit
  let (fraction, rest) := match rest with
    | '.' :: r => (r.takeWhile isDigit, r.dropWhile isDigit)
    | r => ([], r)
  if whole.isEmpty && fraction.isEmpty then none
  else (exponent? rest).map fun e =>
    Number.ofDecimal (digitsValue (whole ++ fraction)) (e - fraction.length)

/-- The double named by a word without sign. -/
def word? (cs : List Char) : Option Float :=
  let word := String.ofList (cs.map Char.toLower)
  if word = "inf" ∨ word = "infinity" then some (1.0 / 0.0)
  else if word = "nan" then some (0.0 / 0.0)
  else none

/-- An unsigned double: a word or a decimal. -/
def unsigned? (cs : List Char) : Option Float := (word? cs).orElse fun _ => decimal? cs

/-- A double with an optional sign. -/
def signed? (cs : List Char) : Option Float :=
  let (negative, rest) := splitSign cs
  (unsigned? rest).map fun x => if negative then -x else x

/-- The double a text stands for. -/
def float? (s : String) : Option Float :=
  (dropUnderscores (asciiDigits (trim isWhiteSpace s.toList))).bind signed?

/-- What a text of a whole number can be. -/
inductive IntReading where
  | value (n : Int)
  /-- Not a whole number. -/
  | malformed
  /-- A whole number with too many digits. -/
  | tooLong (digits : Nat)
  deriving Repr, DecidableEq

/-- A whole number given by its digits. -/
def ofDigits (negative : Bool) (digits : List Char) : IntReading :=
  if maxIntDigits < digits.length then .tooLong digits.length
  else
    let n : Int := digitsValue digits
    .value (if negative then -n else n)

/-- The whole number a text stands for.  The number of digits is looked at before what follows
them. -/
def int? (s : String) : IntReading :=
  let (negative, rest) := splitSign (asciiDigits (trim isWhiteSpace s.toList))
  let written := rest.takeWhile fun c => isDigit c || c == '_'
  match dropUnderscores written with
  | none => .malformed
  | some digits =>
    if digits.isEmpty then .malformed
    else if maxIntDigits < digits.length then .tooLong digits.length
    else if written.length < rest.length then .malformed
    else ofDigits negative digits

end BarScript.Numeral
