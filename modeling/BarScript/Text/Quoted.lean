import BarScript.Text.CodePoint
import BarScript.Text.Printable

/-!
# Quoted text

A text inside a message is shown between quotes.  Single quotes are used unless the text has a
single quote and no double one.  The quote in use, the backslash, every character that is not
printable and every surrogate are written as escapes (`Text.quoted`).
-/

namespace BarScript.Text

/-- The digits of a number in base sixteen, filled up with zeros to a width. -/
def hexChars (width n : Nat) : List Char :=
  let digits := Nat.toDigits 16 n
  List.replicate (width - digits.length) '0' ++ digits

/-- A character between two marks `quote`. -/
def quotedChar (quote c : Char) : List Char :=
  if c = quote ∨ c = '\\' then ['\\', c]
  else if c = '\t' then ['\\', 't']
  else if c = '\n' then ['\\', 'n']
  else if c = '\r' then ['\\', 'r']
  else if isPrintable c then [c]
  else if c.toNat < 0x100 then '\\' :: 'x' :: hexChars 2 c.toNat
  else if c.toNat < 0x10000 then '\\' :: 'u' :: hexChars 4 c.toNat
  else '\\' :: 'U' :: hexChars 8 c.toNat

/-- A code point between two marks `quote`. -/
def quotedPoint (quote : Char) : CodePoint → List Char
  | .char c => quotedChar quote c
  | .surrogate place => '\\' :: 'u' :: hexChars 4 (0xD800 + place.val)

/-- The mark that a text is put between. -/
def quoteFor (ps : CodePoints) : Char :=
  if ps.contains (.char '\'') && !ps.contains (.char '"') then '"' else '\''

/-- A text between quotes. -/
def quoted (ps : CodePoints) : String :=
  let quote := quoteFor ps
  String.ofList (quote :: ps.flatMap (quotedPoint quote) ++ [quote])

end BarScript.Text
