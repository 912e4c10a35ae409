import BarScript.Text.Utf8

/-!
# The encoding of a text

A text that arrives as bytes may be written in UTF-8, UTF-16 or UTF-32.  If it begins with two ASCII
characters, as every JSON text of more than one character does, the zeros among its first four bytes
tell which (`Encoding.detect`).  `Encoding.read` says what a text is in each encoding.
-/

namespace BarScript.Text

/-- Which byte of a number comes first. -/
inductive ByteOrder where
  | bigEndian
  | littleEndian
  deriving Repr, DecidableEq

/-- The number of some bytes. -/
def ByteOrder.join (order : ByteOrder) (bytes : List Nat) : Nat :=
  match order with
  | bigEndian => bytes.foldl (fun n b => 256 * n + b) 0
  | littleEndian => bytes.foldr (fun b n => 256 * n + b) 0

/-- How characters are written as bytes. -/
inductive Encoding where
  | utf8
  /-- UTF-8 behind a byte order mark. -/
  | markedUtf8
  | utf16 (order : ByteOrder)
  | utf32 (order : ByteOrder)
  deriving Repr, DecidableEq

namespace Encoding

/-- The encoding that the first bytes of a text show. -/
def detect : List Nat → Encoding
  | 0xEF :: 0xBB :: 0xBF :: _ => markedUtf8
  | 0 :: 0 :: _ :: _ :: _ => utf32 .bigEndian
  | 0 :: _ :: _ :: _ :: _ => utf16 .bigEndian
  | _ :: 0 :: 0 :: 0 :: _ => utf32 .littleEndian
  | _ :: 0 :: _ :: _ :: _ => utf16 .littleEndian
  | [0, _] => utf16 .bigEndian
  | [_, 0] => utf16 .littleEndian
  | _ => utf8

/-! ### UTF-16 -/

/-- Whether a unit is the first half of a character. -/
def isHigh (unit : Nat) : Bool := 0xD800 ≤ unit && unit < 0xDC00

/-- Whether a unit is the second half of a character. -/
def isLow (unit : Nat) : Bool := 0xDC00 ≤ unit && unit < 0xE000

/-- The character of a code point; a half that stands alone is the replacement character. -/
def character (point : Nat) : Char :=
  if isHigh point || isLow point then '\uFFFD' else Char.ofNat point

/-- The numbers of two bytes each, if the bytes come out even. -/
def pairs (order : ByteOrder) : List Nat → Option (List Nat)
  | [] => some []
  | [_] => none
  | a :: b :: rest => (pairs order rest).map fun units => order.join [a, b] :: units

/-- The characters of units. -/
def ofUnits : List Nat → List Char
  | [] => []
  | [u] => [character u]
  | u :: v :: rest =>
    if isHigh u && isLow v then
      Char.ofNat (0x10000 + (u - 0xD800) * 0x400 + (v - 0xDC00)) :: ofUnits rest
    else character u :: ofUnits (v :: rest)

/-! ### UTF-32 -/

/-- The characters of four bytes each, if the bytes come out even and no number is beyond the last
code point. -/
def quadruples (order : ByteOrder) : List Nat → Option (List Char)
  | [] => some []
  | a :: b :: c :: d :: rest =>
    let point := order.join [a, b, c, d]
    if 0x10FFFF < point then none
    else (quadruples order rest).map fun cs => character point :: cs
  | _ => none

/-! ### Reading -/

/-- What the characters of a text in UTF-8 are if its bytes are read in an encoding. -/
def read (encoding : Encoding) (cs : List Char) : Option (List Char) :=
  match encoding with
  | utf8 => some cs
  | markedUtf8 => some (cs.drop 1)
  | utf16 order => (pairs order (cs.flatMap utf8Bytes)).map ofUnits
  | utf32 order => quadruples order (cs.flatMap utf8Bytes)

/-- The characters of a text in the encoding that its first bytes show. -/
def readDetected (cs : List Char) : Option (List Char) :=
  read (detect ((cs.take 4).flatMap utf8Bytes)) cs

end Encoding

end BarScript.Text
