import BarScript.Json.Basic
import BarScript.Schema.Checked

/-!
# Replies

A reply is a document with a status, the issues of a body that is not understood, or a failure of
the service, which says nothing.

In a document a number that is not finite is written as `null`.  The issues of a body show the
values at fault as they are; a value with such a number cannot be written, and the service fails.
-/

namespace BarScript

namespace Json

mutual

/-- The value with `null` for every number that is not finite. -/
def finite : Json → Json
  | .real x => if x.isFinite then .real x else .null
  | .array items => .array (finiteItems items)
  | .object members => .object (finiteMembers members)
  | j => j

/-- The items with `null` for every number that is not finite. -/
def finiteItems : List Json → List Json
  | [] => []
  | j :: rest => finite j :: finiteItems rest

/-- The members with `null` for every number that is not finite. -/
def finiteMembers : List (String × Json) → List (String × Json)
  | [] => []
  | (name, j) :: rest => (name, finite j) :: finiteMembers rest

end

mutual

/-- Whether all numbers of a value are finite. -/
def isFinite : Json → Bool
  | .real x => x.isFinite
  | .array items => areFinite items
  | .object members => membersAreFinite members
  | _ => true

/-- Whether all numbers of the items are finite. -/
def areFinite : List Json → Bool
  | [] => true
  | j :: rest => isFinite j && areFinite rest

/-- Whether all numbers of the members are finite. -/
def membersAreFinite : List (String × Json) → Bool
  | [] => true
  | (_, j) :: rest => isFinite j && membersAreFinite rest

end

end Json

/-- What the service answers. -/
inductive Reply where
  | document (status : Nat) (body : Json)
  | issues (issues : List Schema.Issue)
  | failure

namespace Reply

/-- The status of a reply. -/
def status : Reply → Nat
  | document status _ => status
  | issues _ => 422
  | failure => 500

/-- A good reply. -/
def ok (body : Json) : Reply := document 200 body.finite

/-- A reply that shows issues with the values at fault. -/
def ofIssues (found : List Schema.Issue) : Reply :=
  if found.all fun i => i.value.isFinite then issues found else failure

/-- A reply that only says what is wrong. -/
def detail (status : Nat) (text : String) : Reply :=
  document status (.object [("detail", .string text)])

end Reply

end BarScript
