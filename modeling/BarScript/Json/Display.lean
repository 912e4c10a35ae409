import BarScript.Json.Writer

/-!
# JSON values inside texts

Where a text is expected, a document may hold any other value; the text of that value is then taken
(`Json.display`).  A text stands for itself there, and between quotes inside an array or object.
-/

namespace BarScript.Json

mutual

/-- The text of a value inside an array or object. -/
def displayChars : Json CodePoints → List Char
  | .null => "None".toList
  | .bool true => "True".toList
  | .bool false => "False".toList
  | .int n => (Number.intText n).toList
  | .real x => (Number.text x).toList
  | .string s => (Text.quoted s).toList
  | .array items => '[' :: separated (displayItems items) ++ [']']
  | .object members => '\x7b' :: separated (displayMembers members) ++ ['\x7d']

/-- The texts of the items of an array. -/
def displayItems : List (Json CodePoints) → List (List Char)
  | [] => []
  | item :: rest => displayChars item :: displayItems rest

/-- The texts of the members of an object. -/
def displayMembers : List (CodePoints × Json CodePoints) → List (List Char)
  | [] => []
  | (name, value) :: rest =>
    ((Text.quoted name).toList ++ ':' :: ' ' :: displayChars value) :: displayMembers rest

end

/-- The text of a value. -/
def display : Json CodePoints → CodePoints
  | .string s => s
  | value => (displayChars value).map .char

end BarScript.Json
