import BarScript.Json.Basic
import BarScript.Number.Numeral
import BarScript.Text.CodePoint

/-!
# Reading JSON text

`Json.read` reads a text that holds one JSON value and nothing else but JSON white space.  Beyond
the standard the words `NaN`, `Infinity` and `-Infinity` are numbers; of members with one name the
last counts.  Three things make a reading fail (`Json.ReadError`): a text that is no JSON, whose
error has the position of the first code point that cannot be read; a value nested more than
`maxNesting` levels deep; a whole number with more digits than `Numeral.maxIntDigits`.

The text that is read and the texts of the value may hold surrogates.  The escapes of a high
surrogate and of a low one right behind it are one character; a surrogate that stands for itself in
the text is not put together with anything.  `Json.parse` reads a string, and gives U+FFFD for the
surrogates that are left.

A reader takes the code points that are left and gives a value and the code points left after it.
Words and numbers are read from the characters in front that they can be made of
(`Reader.atomFront`).
-/

namespace BarScript.Json

/-- Why a text cannot be read. -/
inductive ReadError where
  /-- No JSON text goes on like this; `position` counts code points from the start. -/
  | malformed (position : Nat)
  | tooDeep
  | intTooLong (digits : Nat)
  deriving Repr, DecidableEq

namespace Reader

/-- The deepest nesting of arrays and objects that is read. -/
def maxNesting : Nat := 990

/-- A failure inside a text, which knows what is left from the fault on. -/
inductive Fault (κ : Type) where
  | malformed (rest : List κ)
  | tooDeep
  | intTooLong (digits : Nat)

/-- A reader of an `α` at the front of a list of characters or code points. -/
abbrev Read (κ α : Type) := List κ → Except (Fault κ) (α × List κ)

/-- JSON white space. -/
def isSpace (p : CodePoint) : Bool :=
  p == .char ' ' || p == .char '\t' || p == .char '\n' || p == .char '\r'

/-- The text behind its leading white space. -/
def skipSpace (ps : CodePoints) : CodePoints := ps.dropWhile isSpace

/-! ### Texts -/

/-- The unit of an escape from its four digits; a digit may not be the last character. -/
def unit? : CodePoints → Option (Nat × CodePoints)
  | .char a :: .char b :: .char c :: .char d :: e :: rest => do
    let a ← Text.hexDigit? a
    let b ← Text.hexDigit? b
    let c ← Text.hexDigit? c
    let d ← Text.hexDigit? d
    return (((a * 16 + b) * 16 + c) * 16 + d, e :: rest)
  | _ => none

/-- The characters for the escapes with one letter. -/
def simpleEscape? : Char → Option Char
  | '"' => some '"'
  | '\\' => some '\\'
  | '/' => some '/'
  | 'b' => some '\x08'
  | 'f' => some '\x0c'
  | 'n' => some '\n'
  | 'r' => some '\r'
  | 't' => some '\t'
  | _ => none

/-- The code point of a unit, together with a second escape when the two are a surrogate pair. -/
def unitPoint (unit : Nat) (rest : CodePoints) :
    Except (Fault CodePoint) (CodePoint × CodePoints) :=
  if 0xD800 ≤ unit ∧ unit < 0xDC00 then
    match rest with
    | .char '\\' :: .char 'u' :: digits =>
      if digits.length < 5 then .ok (.ofUnit unit, rest)
      else match unit? digits with
        | none => .error (.malformed (.char 'u' :: digits))
        | some (low, rest') =>
          match (CodePoint.ofUnit unit).pair? (.ofUnit low) with
          | some c => .ok (.char c, rest')
          | none => .ok (.ofUnit unit, rest)
    | _ => .ok (.ofUnit unit, rest)
  else .ok (.ofUnit unit, rest)

/-- An escape behind its backslash; `start` is the text from the backslash on. -/
def escape (start : CodePoints) : Read CodePoint CodePoint
  | .char 'u' :: digits =>
    match unit? digits with
    | none => .error (.malformed (.char 'u' :: digits))
    | some (unit, rest) => unitPoint unit rest
  | .char c :: rest =>
    match simpleEscape? c with
    | some c => .ok (.char c, rest)
    | none => .error (.malformed start)
  | _ => .error (.malformed start)

/-- The code points up to the closing quote; `start` is the text from the opening quote on. -/
def stringBody (start : CodePoints) : Nat → CodePoints → Read CodePoint CodePoints
  | 0, _, _ => .error (.malformed start)
  | fuel + 1, done, ps =>
    match ps with
    | [] => .error (.malformed start)
    | .char '"' :: rest => .ok (done.reverse, rest)
    | [.char '\\'] => .error (.malformed start)
    | .char '\\' :: rest =>
      match escape ps rest with
      | .error f => .error f
      | .ok (p, rest') => stringBody start fuel (p :: done) rest'
    | .char c :: rest =>
      if c.toNat < 0x20 then .error (.malformed ps)
      else stringBody start fuel (.char c :: done) rest
    | p :: rest => stringBody start fuel (p :: done) rest

/-- A text behind its opening quote. -/
def string (ps : CodePoints) : Except (Fault CodePoint) (CodePoints × CodePoints) :=
  stringBody (.char '"' :: ps) (ps.length + 1) [] ps

/-! ### Numbers -/

/-- Whether a character is one of the digits 0 to 9. -/
def isAsciiDigit (c : Char) : Bool := '0' ≤ c && c ≤ '9'

/-- The digits of the fraction, if a point and a digit follow. -/
def fraction? : List Char → Option (List Char × List Char)
  | '.' :: cs =>
    match cs.takeWhile isAsciiDigit with
    | [] => none
    | digits => some (digits, cs.dropWhile isAsciiDigit)
  | _ => none

/-- The exponent, if a complete one follows. -/
def exponent? : List Char → Option (Int × List Char)
  | c :: cs =>
    if c = 'e' ∨ c = 'E' then
      let (negative, digits) := Numeral.splitSign cs
      match digits.takeWhile isAsciiDigit with
      | [] => none
      | written =>
        let n : Int := Text.digitsValue written
        some (if negative then -n else n, digits.dropWhile isAsciiDigit)
    else none
  | [] => none

/-- The whole digits of a number: a zero alone, or digits that do not start with one. -/
def wholeDigits : List Char → List Char × List Char
  | '0' :: cs => (['0'], cs)
  | cs => (cs.takeWhile isAsciiDigit, cs.dropWhile isAsciiDigit)

/-- A number without its sign; `start` is the text from the sign on. -/
def magnitude (start : List Char) (negative : Bool) (cs : List Char) :
    Except (Fault Char) (Json CodePoints × List Char) :=
  let (whole, rest) := wholeDigits cs
  if whole.isEmpty then .error (.malformed start)
  else
    let fraction := fraction? rest
    let rest := (fraction.map (·.2)).getD rest
    let exponent := exponent? rest
    let rest := (exponent.map (·.2)).getD rest
    if fraction.isNone && exponent.isNone then
      match Numeral.ofDigits negative whole with
      | .value n => .ok (.int n, rest)
      | .tooLong digits => .error (.intTooLong digits)
      | .malformed => .error (.malformed start)
    else
      let digits := (fraction.map (·.1)).getD []
      let power := (exponent.map (·.1)).getD 0
      let x := Number.ofDecimal (Text.digitsValue (whole ++ digits)) (power - digits.length)
      .ok (.real (if negative then -x else x), rest)

/-- A number. -/
def number : Read Char (Json CodePoints)
  | '-' :: cs => magnitude ('-' :: cs) true cs
  | cs => magnitude cs false cs

/-- The text behind a word, if the text begins with it. -/
def dropWord? : List Char → List Char → Option (List Char)
  | [], cs => some cs
  | w :: ws, c :: cs => if w = c then dropWord? ws cs else none
  | _ :: _, [] => none

/-- The values that are words. -/
def words : List (String × Json CodePoints) :=
  [("null", .null), ("true", .bool true), ("false", .bool false), ("NaN", .real (0.0 / 0.0)),
    ("Infinity", .real (1.0 / 0.0)), ("-Infinity", .real (-1.0 / 0.0))]

/-- A word or a number. -/
def wordOrNumber (cs : List Char) : Except (Fault Char) (Json CodePoints × List Char) :=
  match words.findSome? fun w => (dropWord? w.1.toList cs).map fun rest => (w.2, rest) with
  | some r => .ok r
  | none => number cs

/-- Whether words and numbers are made of such characters. -/
def isAtomChar (c : Char) : Bool := c.isAlphanum || c == '+' || c == '-' || c == '.'

/-- The characters in front that words and numbers are made of. -/
def atomFront : CodePoints → List Char × CodePoints
  | .char c :: rest =>
    if isAtomChar c then
      let (cs, rest) := atomFront rest
      (c :: cs, rest)
    else ([], .char c :: rest)
  | rest => ([], rest)

/-- A word or a number at the front of a text. -/
def atom (ps : CodePoints) : Except (Fault CodePoint) (Json CodePoints × CodePoints) :=
  let (cs, rest) := atomFront ps
  match wordOrNumber cs with
  | .ok (v, left) => .ok (v, left.map .char ++ rest)
  | .error (.malformed left) => .error (.malformed (left.map .char ++ rest))
  | .error .tooDeep => .error .tooDeep
  | .error (.intTooLong digits) => .error (.intTooLong digits)

/-! ### Arrays and objects -/

/-- The items up to the closing bracket. -/
def items (item : Read CodePoint (Json CodePoints)) :
    Nat → List (Json CodePoints) → Read CodePoint (List (Json CodePoints))
  | 0, _, ps => .error (.malformed ps)
  | fuel + 1, done, ps =>
    match item ps with
    | .error f => .error f
    | .ok (value, rest) =>
      match skipSpace rest with
      | .char ']' :: rest => .ok ((value :: done).reverse, rest)
      | .char ',' :: rest => items item fuel (value :: done) (skipSpace rest)
      | rest => .error (.malformed rest)

/-- An array behind its opening bracket. -/
def array (item : Read CodePoint (Json CodePoints)) : Read CodePoint (Json CodePoints) := fun ps =>
  match skipSpace ps with
  | .char ']' :: rest => .ok (.array [], rest)
  | ps => (items item (ps.length + 1) [] ps).map fun r => (.array r.1, r.2)

/-- A member: its name, a colon and its value. -/
def member (item : Read CodePoint (Json CodePoints)) :
    Read CodePoint (CodePoints × Json CodePoints)
  | .char '"' :: ps =>
    match string ps with
    | .error f => .error f
    | .ok (name, rest) =>
      match skipSpace rest with
      | .char ':' :: rest => (item (skipSpace rest)).map fun r => ((name, r.1), r.2)
      | rest => .error (.malformed rest)
  | ps => .error (.malformed ps)

/-- The members up to the closing brace. -/
def members (item : Read CodePoint (Json CodePoints)) :
    Nat → Members CodePoints → Read CodePoint (Members CodePoints)
  | 0, _, ps => .error (.malformed ps)
  | fuel + 1, done, ps =>
    match member item ps with
    | .error f => .error f
    | .ok (m, rest) =>
      match skipSpace rest with
      | .char '\x7d' :: rest => .ok ((m :: done).reverse, rest)
      | .char ',' :: rest => members item fuel (m :: done) (skipSpace rest)
      | rest => .error (.malformed rest)

/-- An object behind its opening brace. -/
def object (item : Read CodePoint (Json CodePoints)) : Read CodePoint (Json CodePoints) := fun ps =>
  match skipSpace ps with
  | .char '\x7d' :: rest => .ok (.object [], rest)
  | ps => (members item (ps.length + 1) [] ps).map fun r => (.object (Members.ofList r.1), r.2)

/-- A value that stands inside at most `room` more levels of arrays and objects. -/
def value : Nat → Read CodePoint (Json CodePoints)
  | _, .char '"' :: ps => (string ps).map fun r => (.string r.1, r.2)
  | 0, .char '[' :: _ => .error .tooDeep
  | 0, .char '\x7b' :: _ => .error .tooDeep
  | room + 1, .char '[' :: ps => array (value room) ps
  | room + 1, .char '\x7b' :: ps => object (value room) ps
  | _, ps => atom ps

/-- A value with at most `room` levels of nesting, and nothing behind it but white space. -/
def document (room : Nat) (ps : CodePoints) : Except (Fault CodePoint) (Json CodePoints) :=
  match value room (skipSpace ps) with
  | .error f => .error f
  | .ok (v, rest) =>
    match skipSpace rest with
    | [] => .ok v
    | rest => .error (.malformed rest)

end Reader

/-- The value that a text holds, if it has at most `room` levels of nesting.  A text may not begin
with a byte order mark. -/
def readWithin (room : Nat) (text : CodePoints) : Except ReadError (Json CodePoints) :=
  if text.head? = some (.char '\uFEFF') then .error (.malformed 0)
  else match Reader.document room text with
    | .ok v => .ok v
    | .error (.malformed rest) => .error (.malformed (text.length - rest.length))
    | .error .tooDeep => .error .tooDeep
    | .error (.intTooLong digits) => .error (.intTooLong digits)

/-- The value that a text holds. -/
def read (text : CodePoints) : Except ReadError (Json CodePoints) :=
  readWithin Reader.maxNesting text

/-- The value that a string holds, if it has at most `room` levels of nesting. -/
def parseWithin (room : Nat) (text : String) : Except ReadError Json :=
  (readWithin room (Text.points text)).map (mapTexts Text.plain)

/-- The value that a string holds. -/
def parse (text : String) : Except ReadError Json := parseWithin Reader.maxNesting text

end BarScript.Json
