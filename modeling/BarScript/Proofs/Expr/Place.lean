import BarScript.Expr.Document

/-!
# The members that a node is read from

`Expr.ofDocument` reads an object by first reading every member in every way in which it may be
needed (`Expr.operandsOf`).  What a node takes of them can be said without that: the value in the
place of a number (`Json.Members.amount`), in the place of an operand (`Json.Members.operand`) and
in the place of a list of operands (`Json.Members.operands`), which are then read like any document
(`Expr.valueOr_operandsOf`, `Expr.operand_operandsOf`, `Expr.operands_operandsOf`).
-/

namespace BarScript

namespace Json

/-- The value in the place of a number. -/
def Members.amount (name : String) (members : Members CodePoints) : Json CodePoints :=
  (members.get? (ofString name)).getD (.int 0)

/-- The value in the place of an operand: where it is missing or empty, the object without
members. -/
def Members.operand (name : String) (members : Members CodePoints) : Json CodePoints :=
  match members.get? (ofString name) with
  | none => .object []
  | some value => if value.isEmpty then .object [] else value

/-- The values in the place of a list of operands, none where it is missing or empty. -/
def Members.operands (name : String) (members : Members CodePoints) :
    Except DocumentError (List (Json CodePoints)) :=
  match members.get? (ofString name) with
  | none => .ok []
  | some value =>
    if value.isEmpty then .ok []
    else match value with
      | .array items => .ok items
      | .string _ => .error .notNode
      | .object _ => .error .notNode
      | _ => .error .wrongKind

end Json

namespace Expr

/-- What a member reads as. -/
def operandOf : Json CodePoints → Operand
  | .array items => ⟨.array items, .error .notNode, itemsOf items⟩
  | value => ⟨value, ofDocument value, []⟩

@[simp] theorem operandOf_value (value : Json CodePoints) : (operandOf value).value = value := by
  cases value <;> rfl

@[simp] theorem operandOf_node (value : Json CodePoints) :
    (operandOf value).node = ofDocument value := by
  cases value <;> rfl

theorem operandsOf_eq_map (members : Json.Members CodePoints) :
    operandsOf members = members.map fun m => (m.1, operandOf m.2) := by
  induction members with
  | nil => rfl
  | cons m rest ih =>
    obtain ⟨name, value⟩ := m
    cases value <;> simp only [operandsOf, List.map_cons, operandOf, ih]

theorem itemsOf_eq_map (items : List (Json CodePoints)) : itemsOf items = items.map ofDocument := by
  induction items with
  | nil => rfl
  | cons item items ih => rw [itemsOf, ih, List.map_cons]

theorem find?_operandsOf (name : String) (members : Json.Members CodePoints) :
    Operand.find? name (operandsOf members) = (members.get? (ofString name)).map operandOf := by
  rw [operandsOf_eq_map, Operand.find?, Json.Members.get?, List.find?_map, Option.map_map,
    Option.map_map]
  rfl

theorem valueOr_operandsOf (name : String) (members : Json.Members CodePoints) :
    Operand.valueOr (.int 0) name (operandsOf members) = members.amount name := by
  rw [Operand.valueOr, find?_operandsOf, Option.map_map, Json.Members.amount]
  congr 1
  simp [Function.comp_def]

theorem operand_operandsOf (name : String) (members : Json.Members CodePoints) :
    Operand.operand name (operandsOf members) = ofDocument (members.operand name) := by
  rw [Operand.operand, find?_operandsOf, Json.Members.operand]
  cases members.get? (ofString name) with
  | none => rfl
  | some value =>
    simp only [Option.map_some, operandOf_value, operandOf_node]
    split <;> rfl

theorem operands_operandsOf (name : String) (members : Json.Members CodePoints) :
    Operand.operands name (operandsOf members) =
      members.operands name >>= fun items => items.mapM ofDocument := by
  rw [Operand.operands, find?_operandsOf, Json.Members.operands]
  cases members.get? (ofString name) with
  | none => rfl
  | some value =>
    simp only [Option.map_some, operandOf_value]
    split
    · rfl
    · cases value <;> try rfl
      simp only [operandOf, itemsOf_eq_map, List.mapM_map]
      rfl

end Expr

end BarScript
