import BarScript.Json.Basic
import BarScript.Number.Numeral
import BarScript.Schema.Checked

/-!
# Reading values from JSON

A `Reader` turns a JSON value into a checked value.  Numbers and flags may be written in several
ways: a number also as a flag or as a text, a flag also as a zero, a one or one of a few words.  A
record is read from the members of an object; members that no field asks for are ignored.
-/

namespace BarScript.Schema

/-- What turns a JSON value into an `α`. -/
abbrev Reader (α : Type) := Json → Checked α

variable {α : Type}

/-! ### Texts -/

/-- A text. -/
def text : Reader String
  | .string s => .valid s
  | j => .fail .notText j

/-- A text with at least one character. -/
def nonEmptyText : Reader String
  | .string s => if s.isEmpty then .fail .emptyText (.string s) else .valid s
  | j => .fail .notText j

/-- One of some words. -/
def choice (words : List (String × α)) : Reader α
  | .string s =>
    match words.find? fun w => w.1 == s with
    | some w => .valid w.2
    | none => .fail .notChoice (.string s)
  | j => .fail .notChoice j

/-! ### Numbers -/

/-- A double that a text spells out in ASCII, with nothing around it. -/
def plainNumber? (cs : List Char) : Option Float :=
  if cs.all fun c => c.toNat < 0x80 then Numeral.signed? cs else none

/-- Whether a text has underscores, none of them at an end or next to another. -/
def hasSingleUnderscores (cs : List Char) : Bool :=
  cs.contains '_' && cs.head? != some '_' && cs.getLast? != some '_' &&
    !(cs.zip cs.tail).contains ('_', '_')

/-- The double a text stands for.  There may be white space around it or underscores in it, but not
both. -/
def numberOfText? (s : String) : Option Float :=
  (plainNumber? (Text.trim Text.isWhiteSpace s.toList)).orElse fun _ =>
    if hasSingleUnderscores s.toList then plainNumber? (s.toList.filter fun c => c != '_') else none

/-- A double. -/
def number : Reader Float
  | .int n => ((Number.ofInt? n).map .valid).getD (.fail .notNumber (.int n))
  | .real x => .valid x
  | .bool b => .valid (if b then 1 else 0)
  | .string s => ((numberOfText? s).map .valid).getD (.fail .unreadableNumber (.string s))
  | j => .fail .notNumber j

/-- A text without a plus in front, which no minus may follow. -/
def dropPlus? : List Char → Option (List Char)
  | '+' :: '-' :: _ => none
  | '+' :: rest => some rest
  | cs => some cs

/-- What is left of a number behind a zero, `last`, or an underscore after one: the number from its
first other character on.  One character stays in front of a point or of the end. -/
def dropZeros? (last : Char) : List Char → Option (List Char)
  | [] => some [last]
  | c :: rest =>
    if c = '0' ∨ c = '_' then dropZeros? c rest
    else if ('1' ≤ c ∧ c ≤ '9') ∨ c = '-' then some (c :: rest)
    else if c = '.' then some (last :: '.' :: rest)
    else none

/-- A number without the zeros that it begins with.  It has to begin with a digit or a minus. -/
def dropLeadingZeros? : List Char → Option (List Char)
  | [] => none
  | c :: rest =>
    if c = '0' then dropZeros? c rest
    else if ('1' ≤ c ∧ c ≤ '9') ∨ c = '-' then some (c :: rest)
    else none

/-- A number without a point and the zeros behind it, of which there has to be one. -/
def dropZeroFraction (cs : List Char) : List Char :=
  match cs.dropWhile fun c => c != '.' with
  | _ :: zero :: zeros =>
    if (zero :: zeros).all fun c => c == '0' then cs.takeWhile fun c => c != '.' else cs
  | _ => cs

/-- A number without single underscores. -/
def dropUnderscores (cs : List Char) : List Char :=
  if hasSingleUnderscores cs then cs.filter fun c => c != '_' else cs

/-- The number of ASCII digits without superfluous zeros. -/
def natOfDigits? (digits : List Char) : Option Nat :=
  if digits.all (fun c => '0' ≤ c && c ≤ '9') && (digits == ['0'] || digits.head?.any (· != '0'))
  then some (Text.digitsValue digits) else none

/-- The whole number of its digits, with a minus in front if it is negative. -/
def plainWhole? : List Char → Option Int
  | '-' :: digits => (natOfDigits? digits).map fun n => -n
  | digits => (natOfDigits? digits).map fun n => n

/-- The whole number a text stands for.  There may be white space around it, a plus and zeros in
front, a fraction of zeros, and single underscores inside. -/
def wholeOfText? (s : String) : Option Int := do
  let unsigned ← dropPlus? (Text.trim Text.isWhiteSpace s.toList)
  let digits ← dropLeadingZeros? unsigned
  plainWhole? (dropUnderscores (dropZeroFraction digits))

/-- A whole number, perhaps as a text. -/
def whole : Reader Int
  | .int n => .valid n
  | .string s => ((wholeOfText? s).map .valid).getD (.fail .unreadableWhole (.string s))
  | j => .fail .notWhole j

/-! ### Flags -/

/-- The words for a flag that is not set. -/
def offWords : List String := ["0", "off", "f", "false", "n", "no"]

/-- The words for a flag that is set. -/
def onWords : List String := ["1", "on", "t", "true", "y", "yes"]

/-- The flag of a word, in any case. -/
def flagOfText? (s : String) : Option Bool :=
  let word := s.map Char.toLower
  if offWords.contains word then some false
  else if onWords.contains word then some true
  else none

/-- The flag of a whole number, which was written as `j`. -/
def flagOfInt (n : Int) (j : Json) : Checked Bool :=
  if n = 0 then .valid false else if n = 1 then .valid true else .fail .unreadableFlag j

/-- The size from which on a whole number does not fit into 64 bits. -/
def wordLimit : Nat := 0x8000000000000000

/-- A flag.  Whole numbers that do not fit into 64 bits are no flags at all. -/
def flag : Reader Bool
  | .bool b => .valid b
  | .string s => ((flagOfText? s).map .valid).getD (.fail .unreadableFlag (.string s))
  | .int n =>
    if -wordLimit ≤ n ∧ n < wordLimit then flagOfInt n (.int n) else .fail .notFlag (.int n)
  | .real x =>
    match Number.truncate x with
    | .ok n =>
      if Number.isWhole x && n.natAbs < wordLimit then flagOfInt n (.real x)
      else .fail .notFlag (.real x)
    | .error _ => .fail .notFlag (.real x)
  | j => .fail .notFlag j

/-! ### Lists, tables and records -/

/-- A value or `null`. -/
def optional (read : Reader α) : Reader (Option α)
  | .null => .valid none
  | j => (read j).map some

/-- The items of a list from an index on, each with its place. -/
def itemsFrom (read : Reader α) (index : Nat) : List Json → List (Checked α)
  | [] => []
  | j :: rest => (read j).within (.item index) :: itemsFrom read (index + 1) rest

/-- A list. -/
def list (read : Reader α) : Reader (List α)
  | .array items => .all (itemsFrom read 0 items)
  | j => .fail .notList j

/-- Values by name, in the order in which the names are given. -/
def table (read : Reader α) : Reader (List (String × α))
  | .object members =>
    .all (members.map fun m => ((read m.2).map fun a => (m.1, a)).within (.member m.1))
  | j => .fail .notTable j

/-- A record, read from the members of an object. -/
def record (fields : Json.Members → Checked α) : Reader α
  | .object members => fields members
  | j => .fail .notRecord j

/-- A field that has to be there. -/
def required (name : String) (read : Reader α) (members : Json.Members) : Checked α :=
  match members.get? name with
  | some j => (read j).within (.member name)
  | none => (Checked.fail .missing (.object members)).within (.member name)

/-- A field with several names, of which the first one that is there counts; without any the field
has a default value. -/
def withDefault (names : List String) (default : α) (read : Reader α) (members : Json.Members) :
    Checked α :=
  match names.find? fun name => (members.get? name).isSome with
  | some name => (read ((members.get? name).getD .null)).within (.member name)
  | none => .valid default

end BarScript.Schema
