import BarScript.Expr.Shape
import BarScript.Json.Display
import BarScript.Json.Reader

/-!
# Expressions as JSON documents

`Expr.document` writes an expression as a JSON object with a `type` and the parts of the node, and
`Expr.load` reads the text of such a document.  Reading is lenient: a member that is missing has a
default, an operand that is missing or empty is the object without members, and where a text or a
number is expected a value of another kind is converted if it can be.

The texts of an expression that is loaded may hold surrogates.  To be evaluated it is taken with
U+FFFD in their place (`Expr.plain`).

What cannot be read is a `DocumentError`.  Some of these are faults of the document as such, others
say that a value could not be converted (`DocumentError.message?`).
-/

namespace BarScript

section

variable {τ : Type}

namespace Node

/-- The name of a kind of node in a document. -/
def tag {β : Type} : Node β τ → String
  | .number _ => "NUMBER"
  | .text _ => "STRING"
  | .name _ => "IDENT"
  | .call _ _ => "CALL"
  | .history _ _ => "INDEX"
  | .unary _ _ => "UNARY"
  | .binary _ _ _ => "BINARY"
  | .comparison _ _ _ => "CMP"
  | .logical _ _ => "LOGICAL"
  | .negation _ => "NOT"

variable [OfString τ]

/-- The members of a node's document behind its type. -/
def documentMembers : Node (Json τ) τ → Json.Members τ
  | .number value => [(ofString "value", .real value)]
  | .text value => [(ofString "value", .string value)]
  | .name symbol => [(ofString "name", .string symbol)]
  | .call function arguments =>
    [(ofString "name", .string function), (ofString "args", .array arguments)]
  | .history operand bars => [(ofString "offset", .int bars), (ofString "child", operand)]
  | .unary operator operand => [(ofString "op", .string operator), (ofString "child", operand)]
  | .binary operator left right =>
    [(ofString "op", .string operator), (ofString "left", left), (ofString "right", right)]
  | .comparison operator left right =>
    [(ofString "op", .string operator), (ofString "left", left), (ofString "right", right)]
  | .logical operator operands =>
    [(ofString "op", .string operator), (ofString "children", .array operands)]
  | .negation operand => [(ofString "child", operand)]

/-- The document of a node. -/
def document (n : Node (Json τ) τ) : Json τ :=
  .object ((ofString "type", .string (ofString n.tag)) :: n.documentMembers)

end Node

/-- The document of an expression. -/
def Expr.document [OfString τ] (e : Expr τ) : Json τ := e.fold Node.document

end

/-- The text of an expression's document. -/
def Expr.dump (e : Expr CodePoints) : String := e.document.renderPoints

/-- The expression with its texts as code points. -/
def Expr.points (e : Expr) : Expr CodePoints := e.mapTexts Text.points

/-- The expression with U+FFFD in place of surrogates. -/
def Expr.plain (e : Expr CodePoints) : Expr := e.mapTexts Text.plain

/-- Why a document gives no expression. -/
inductive DocumentError where
  /-- The text is not JSON. -/
  | malformed
  | tooDeep
  | notObject
  /-- The `type` of an object, as shown, is not that of a node. -/
  | unknownType (shown : CodePoints)
  | excess (excess : Shape.Excess)
  /-- A text that is no number. -/
  | notNumber (text : CodePoints)
  /-- A text that is no whole number. -/
  | notWhole (text : CodePoints)
  | intTooLong (digits : Nat)
  | intTooLarge
  | noWholePart (fault : Number.WholeFault)
  /-- A value of a kind that cannot be converted, or that is not a list of operands. -/
  | wrongKind
  /-- An operand that is not an object. -/
  | notNode
  deriving Repr, DecidableEq

/-- The wording of an error; two kinds of error have none. -/
def DocumentError.message? : DocumentError → Option CodePoints
  | malformed => text "Invalid AST JSON"
  | tooDeep => text "AST JSON is nested too deeply"
  | notObject => text "AST JSON must be an object"
  | unknownType shown => some (ofString "Unknown AST node type '" ++ shown ++ ofString "'")
  | excess e => text e.message
  | notNumber s => text ("could not convert string to float: " ++ Text.quoted s)
  | notWhole s => text ("invalid literal for int() with base 10: " ++ Text.quoted s)
  | intTooLong digits => text (Numeral.tooLongMessage digits)
  | intTooLarge => text "int too large to convert to float"
  | noWholePart fault => text fault.message
  | wrongKind => none
  | notNode => none
where
  /-- A wording without surrogates. -/
  text (s : String) : Option CodePoints := some (ofString s)

namespace Json

/-- The text of a value that is a text without surrogates. -/
def text? : Json CodePoints → Option String
  | string s => Text.plain? s
  | _ => none

/-- Whether a value counts as empty where an operand or a list of operands is expected. -/
def isEmpty : Json CodePoints → Bool
  | null => true
  | bool b => !b
  | int n => n == 0
  | real x => x == 0
  | string s => s.isEmpty
  | array items => items.isEmpty
  | object members => members.isEmpty

/-- The double that a value stands for. -/
def toFloat : Json CodePoints → Except DocumentError Float
  | int n => ((Number.ofInt? n).map Except.ok).getD (.error .intTooLarge)
  | real x => .ok x
  | bool b => .ok (if b then 1 else 0)
  | string s => ((Numeral.float? (Text.plain s)).map Except.ok).getD (.error (.notNumber s))
  | _ => .error .wrongKind

/-- The whole number that a value stands for; the fraction of a double is cut off. -/
def toInt : Json CodePoints → Except DocumentError Int
  | int n => .ok n
  | real x => (Number.truncate x).mapError .noWholePart
  | bool b => .ok (if b then 1 else 0)
  | string s =>
    match Numeral.int? (Text.plain s) with
    | .value n => .ok n
    | .malformed => .error (.notWhole s)
    | .tooLong digits => .error (.intTooLong digits)
  | _ => .error .wrongKind

end Json

/-! ### Reading -/

/-- A member of an object, with what it reads as in the place of an operand and in the place of a
list of operands. -/
structure Operand where
  value : Json CodePoints
  node : Except DocumentError (Expr CodePoints)
  items : List (Except DocumentError (Expr CodePoints))

namespace Operand

/-- The member of a name. -/
def find? (name : String) (members : List (CodePoints × Operand)) : Option Operand :=
  (members.find? fun m => m.1 == ofString name).map (·.2)

/-- The value of a member, or a default if it is missing. -/
def valueOr (default : Json CodePoints) (name : String) (members : List (CodePoints × Operand)) :
    Json CodePoints :=
  ((find? name members).map (·.value)).getD default

/-- The error of an object that has no known type. -/
def typeError (type : Option (Json CodePoints)) : DocumentError :=
  .unknownType ((type.getD .null).display)

/-- The operand that a member holds. -/
def operand (name : String) (members : List (CodePoints × Operand)) :
    Except DocumentError (Expr CodePoints) :=
  match find? name members with
  | none => .error (typeError none)
  | some m => if m.value.isEmpty then .error (typeError none) else m.node

/-- The operands that a member holds. -/
def operands (name : String) (members : List (CodePoints × Operand)) :
    Except DocumentError (List (Expr CodePoints)) :=
  match find? name members with
  | none => .ok []
  | some m =>
    if m.value.isEmpty then .ok []
    else match m.value with
      | .array _ => m.items.mapM fun r => r
      | .string _ => .error .notNode
      | .object _ => .error .notNode
      | _ => .error .wrongKind

/-- The text that a member holds. -/
def shown (name : String) (members : List (CodePoints × Operand)) : CodePoints :=
  (valueOr (.string []) name members).display

/-- The node that the members of an object describe. -/
def toExpr (members : List (CodePoints × Operand)) : Except DocumentError (Expr CodePoints) := do
  let type := (find? "type" members).map (·.value)
  match type.bind Json.text? with
  | some "NUMBER" => return .mk (.number (← (valueOr (.int 0) "value" members).toFloat))
  | some "STRING" => return .mk (.text (shown "value" members))
  | some "IDENT" => return .mk (.name (shown "name" members))
  | some "CALL" => return .mk (.call (shown "name" members) (← operands "args" members))
  | some "INDEX" =>
    let child ← operand "child" members
    return .mk (.history child (← (valueOr (.int 0) "offset" members).toInt))
  | some "UNARY" => return .mk (.unary (shown "op" members) (← operand "child" members))
  | some "BINARY" =>
    let left ← operand "left" members
    let right ← operand "right" members
    return .mk (.binary (shown "op" members) left right)
  | some "CMP" =>
    let left ← operand "left" members
    let right ← operand "right" members
    return .mk (.comparison (shown "op" members) left right)
  | some "LOGICAL" =>
    return .mk (.logical (shown "op" members) (← operands "children" members))
  | some "NOT" => return .mk (.negation (← operand "child" members))
  | _ => .error (typeError type)

end Operand

namespace Expr

mutual

/-- The expression that a value describes. -/
def ofDocument : Json CodePoints → Except DocumentError (Expr CodePoints)
  | .object members => Operand.toExpr (operandsOf members)
  | _ => .error .notNode

/-- The members of an object with what they read as. -/
def operandsOf : List (CodePoints × Json CodePoints) → List (CodePoints × Operand)
  | [] => []
  | (name, .array items) :: rest =>
    (name, ⟨.array items, .error .notNode, itemsOf items⟩) :: operandsOf rest
  | (name, value) :: rest => (name, ⟨value, ofDocument value, []⟩) :: operandsOf rest

/-- The expressions that the items of an array describe. -/
def itemsOf : List (Json CodePoints) → List (Except DocumentError (Expr CodePoints))
  | [] => []
  | item :: rest => ofDocument item :: itemsOf rest

end

/-- The expression in the text of a document.  Its shape has to be within the limits. -/
def load (text : CodePoints) : Except DocumentError (Expr CodePoints) := do
  let value ← match Json.read text with
    | .ok value => pure value
    | .error (.malformed _) => throw .malformed
    | .error .tooDeep => throw .tooDeep
    | .error (.intTooLong digits) => throw (.intTooLong digits)
  match value with
  | .object _ =>
    let e ← ofDocument value
    match e.shape.excess? with
    | none => return e
    | some excess => throw (.excess excess)
  | _ => throw .notObject

end Expr

end BarScript
