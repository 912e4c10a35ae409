import BarScript.Json.Basic

/-!
# Checked values

Reading a document into a value does not stop at the first fault.  A `Checked` value is either valid
or the list of all issues in the order of the document's fields; an issue has a kind, the path to
its place, and the part of the document that is at fault.  Applying a checked function to a checked
value keeps the issues of both.
-/

namespace BarScript.Schema

/-- A step from a value to a part of it. -/
inductive Step where
  | member (name : String)
  | item (index : Nat)
  deriving Repr, DecidableEq

/-- What is wrong with a part of a document. -/
inductive IssueKind where
  | missing
  | notText
  | emptyText
  | notNumber
  /-- A text that does not read as a number. -/
  | unreadableNumber
  | notWhole
  /-- A text that does not read as a whole number. -/
  | unreadableWhole
  | notFlag
  /-- A text or a number that does not read as a flag. -/
  | unreadableFlag
  | notList
  | notTable
  /-- None of the words that are allowed. -/
  | notChoice
  | notRecord
  /-- The body of a request, or a record in it, that is no object. -/
  | notBodyRecord
  /-- Lists of a price history with different lengths. -/
  | misaligned
  /-- A text that is no JSON. -/
  | malformed
  deriving Repr, DecidableEq

/-- The name of a kind of issue. -/
def IssueKind.name : IssueKind → String
  | missing => "missing"
  | notText => "string_type"
  | emptyText => "string_too_short"
  | notNumber => "float_type"
  | unreadableNumber => "float_parsing"
  | notWhole => "int_type"
  | unreadableWhole => "int_parsing"
  | notFlag => "bool_type"
  | unreadableFlag => "bool_parsing"
  | notList => "list_type"
  | notTable => "dict_type"
  | notChoice => "literal_error"
  | notRecord => "model_type"
  | notBodyRecord => "model_attributes_type"
  | misaligned => "value_error"
  | malformed => "json_invalid"

/-- Something wrong at a place. -/
structure Issue where
  path : List Step
  kind : IssueKind
  /-- The value at fault; where a field is missing, the record without it. -/
  value : Json

/-- A value, or everything that is wrong with what it was read from. -/
inductive Checked (α : Type) where
  | valid (value : α)
  | invalid (issues : List Issue)

namespace Checked

variable {α β : Type}

/-- One issue about a value, at the place itself. -/
def fail (kind : IssueKind) (value : Json) : Checked α := invalid [⟨[], kind, value⟩]

/-- A function of a value that has been checked. -/
def map (f : α → β) : Checked α → Checked β
  | valid a => valid (f a)
  | invalid issues => invalid issues

/-- Applies a function; the issues of the function come first. -/
def apply : Checked (α → β) → Checked α → Checked β
  | valid f, a => map f a
  | invalid issues, valid _ => invalid issues
  | invalid issues, invalid more => invalid (issues ++ more)

instance : Applicative Checked where
  map := map
  pure := valid
  seq f a := f.apply (a ())

/-- Goes on with a value only if it is valid. -/
def andThen (a : Checked α) (f : α → Checked β) : Checked β :=
  match a with
  | valid a => f a
  | invalid issues => invalid issues

/-- The issues as seen from the value that a step leads away from. -/
def within (step : Step) : Checked α → Checked α
  | valid a => valid a
  | invalid issues => invalid (issues.map fun i => { i with path := step :: i.path })

/-- All values of a list, or the issues of all of them. -/
def all : List (Checked α) → Checked (List α)
  | [] => valid []
  | a :: rest => apply (map List.cons a) (all rest)

end Checked

end BarScript.Schema
