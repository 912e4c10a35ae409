import BarScript.Json.Basic
import BarScript.Number.Notation
import BarScript.Text.Quoted

/-!
# JSON text

`Json.render` writes a value on one line, with `", "` between items and `": "` after names.  A
`Charset` decides which characters of a text stand for themselves: all but the quote, the backslash
and the control characters, or of these only the ASCII ones up to the tilde.  Every other character
is an escape, one beyond U+FFFF a pair of escapes.

`Json.renderPoints` writes a value whose texts may hold surrogates.  Every surrogate is an escape.
-/

namespace BarScript.Json

/-- Which characters JSON text is written with. -/
inductive Charset where
  | ascii
  | unicode
  deriving Repr, DecidableEq

/-- An escape for a 16-bit unit. -/
def unitEscape (n : Nat) : List Char := '\\' :: 'u' :: Text.hexChars 4 n

/-- The escape of a character: one unit, or two beyond U+FFFF. -/
def unicodeEscape (c : Char) : List Char :=
  if c.toNat < 0x10000 then unitEscape c.toNat
  else
    unitEscape (0xD800 + (c.toNat - 0x10000) / 0x400) ++
      unitEscape (0xDC00 + (c.toNat - 0x10000) % 0x400)

/-- A character inside a JSON text. -/
def escapeChar (charset : Charset) (c : Char) : List Char :=
  if c = '"' then ['\\', '"']
  else if c = '\\' then ['\\', '\\']
  else if c = '\n' then ['\\', 'n']
  else if c = '\r' then ['\\', 'r']
  else if c = '\t' then ['\\', 't']
  else if c = '\x08' then ['\\', 'b']
  else if c = '\x0c' then ['\\', 'f']
  else if c.toNat < 0x20 then unicodeEscape c
  else if charset = .ascii ∧ 0x7E < c.toNat then unicodeEscape c
  else [c]

/-- A code point of a text that is written in ASCII. -/
def escapePoint : CodePoint → List Char
  | .char c => escapeChar .ascii c
  | .surrogate place => unitEscape (0xD800 + place.val)

/-- What stands between the quotes of a text. -/
def escapeText (charset : Charset) (s : String) : List Char := s.toList.flatMap (escapeChar charset)

/-- What stands between the quotes of a text that is written in ASCII. -/
def escapePoints (ps : CodePoints) : List Char := ps.flatMap escapePoint

/-- A text between quotes, `escape` giving what stands there. -/
def stringChars {τ : Type} (escape : τ → List Char) (s : τ) : List Char :=
  '"' :: escape s ++ ['"']

/-- The items with `", "` between them. -/
def separated : List (List Char) → List Char
  | [] => []
  | [item] => item
  | item :: rest => item ++ ',' :: ' ' :: separated rest

section

variable {τ : Type} (escape : τ → List Char)

mutual

/-- The characters of a value's JSON text. -/
def chars : Json τ → List Char
  | .null => "null".toList
  | .bool true => "true".toList
  | .bool false => "false".toList
  | .int n => (Number.intText n).toList
  | .real x => Number.chars Number.jsonLayout x
  | .string s => stringChars escape s
  | .array items => '[' :: separated (itemChars items) ++ [']']
  | .object members => '\x7b' :: separated (memberChars members) ++ ['\x7d']

/-- The texts of the items of an array. -/
def itemChars : List (Json τ) → List (List Char)
  | [] => []
  | item :: rest => chars item :: itemChars rest

/-- The texts of the members of an object. -/
def memberChars : List (τ × Json τ) → List (List Char)
  | [] => []
  | (name, value) :: rest =>
    (stringChars escape name ++ ':' :: ' ' :: chars value) :: memberChars rest

end

end

/-- The JSON text of a value. -/
def render (charset : Charset) (value : Json) : String :=
  String.ofList (chars (escapeText charset) value)

/-- The JSON text of a value whose texts may hold surrogates, in ASCII. -/
def renderPoints (value : Json CodePoints) : String := String.ofList (chars escapePoints value)

end BarScript.Json
