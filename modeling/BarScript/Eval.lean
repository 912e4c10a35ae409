import BarScript.Builtin
import BarScript.Expr.Basic

/-!
# The meaning of expressions

`Node.eval` says what one node means, given what its operands mean.  A meaning is a function of the
number of bars one looks back, and looking back is all that a history node does.  The two things
that a node needs besides its operands, the history some bars ago and the call of a builtin
function, are given by an `Access`, so that the same rules serve for plain evaluation and for one
that remembers results.

`Expr.eval` is plain evaluation: each node is evaluated as often as it is met.
-/

namespace BarScript

/-- How an evaluation gets at the history and at the results of builtin functions. -/
structure Access (m : Type → Type) where
  /-- The history some bars ago. -/
  seriesAt : Int → m Series
  /-- A call of a function some bars ago. -/
  call : Builtin → List Value → Int → m Value

/-- What an operand means: its value some bars ago. -/
abbrev Meaning (m : Type → Type) := Int → m Value

section

variable {m : Type → Type} [Monad m] [MonadExceptOf EvalError m]

/-- Takes a result that may be an error into a monad with such errors. -/
def liftError {α : Type} : Except EvalError α → m α
  | .ok a => pure a
  | .error e => throw e

/-! ### Operators -/

/-- The result of a unary operator on a number. -/
def unaryResult (operator : String) (x : Float) : Except EvalError Float :=
  if operator = "+" then .ok x
  else if operator = "-" then .ok (-x)
  else .error (.unknownOperator .unary operator)

/-- The result of a binary operator on two numbers. -/
def binaryResult (operator : String) (x y : Float) : Except EvalError Float :=
  if operator = "+" then .ok (x + y)
  else if operator = "-" then .ok (x - y)
  else if operator = "*" then .ok (x * y)
  else if operator = "/" then ofFault (Scalar.quotient x y)
  else .error (.unknownOperator .binary operator)

/-- Whether two numbers compare as an operator says.  Numbers that are closer than the tolerance are
equal. -/
def compareNumbers (tolerance : Float) (operator : String) (x y : Float) :
    Except EvalError Bool :=
  if operator = ">" then .ok (y < x)
  else if operator = ">=" then .ok (y ≤ x)
  else if operator = "<" then .ok (x < y)
  else if operator = "<=" then .ok (x ≤ y)
  else if operator = "==" then .ok ((x - y).abs < tolerance)
  else if operator = "!=" then .ok (tolerance ≤ (x - y).abs)
  else .error (.unknownOperator .comparison operator)

/-- Compares two values of a kind that is only equal or different. -/
def compareSame {α : Type} [BEq α] (operator : String) (kind : ValueKind) (x y : α) :
    Except EvalError Bool :=
  if operator = "==" then .ok (x == y)
  else if operator = "!=" then .ok (x != y)
  else .error (.notDefined operator kind)

/-- Compares two values.  Nothing compares to an undefined value, and a boolean or text only to one
of its own kind. -/
def compareValues (tolerance : Float) (operator : String) (x y : Value) : Except EvalError Bool :=
  match x, y with
  | .boolean a, .boolean b => compareSame operator .boolean a b
  | .text a, .text b => compareSame operator .text a b
  | .boolean _, .undefined => .ok false
  | .text _, .undefined => .ok false
  | .undefined, .boolean _ => .ok false
  | .undefined, .text _ => .ok false
  | .boolean _, _ => .error (.cannotCompare x.kind y.kind)
  | .text _, _ => .error (.cannotCompare x.kind y.kind)
  | _, .boolean _ => .error (.cannotCompare x.kind y.kind)
  | _, .text _ => .error (.cannotCompare x.kind y.kind)
  | _, _ => do
    let a ← x.toNumber s!"Operator '{operator}'"
    let b ← y.toNumber s!"Operator '{operator}'"
    match a, b with
    | some a, some b => compareNumbers tolerance operator a b
    | _, _ => return false

/-- The numbers of two operands, if both are defined. -/
def bothNumbers (operator : String) (x y : Value) : Except EvalError (Option (Float × Float)) := do
  let a ← x.toNumber s!"Operator '{operator}'"
  let b ← y.toNumber s!"Operator '{operator}'"
  match a, b with
  | some a, some b => return some (a, b)
  | _, _ => return none

/-- What a binary operator makes of two values; undefined if one of them is. -/
def binaryValue (operator : String) (x y : Value) : Except EvalError Value := do
  match ← bothNumbers operator x y with
  | some (a, b) => return .number (← binaryResult operator a b)
  | none => return .undefined

/-- What a unary operator makes of a value; undefined if it is. -/
def unaryValue (operator : String) (x : Value) : Except EvalError Value := do
  match ← x.toNumber s!"Unary '{operator}'" with
  | some a => return .number (← unaryResult operator a)
  | none => return .undefined

/-- Whether all operands are true; those behind one that is not are left alone. -/
def allTrue (bars : Int) : List (Meaning m) → m Bool
  | [] => return true
  | operand :: rest => do
    if (← operand bars).truthy then allTrue bars rest else return false

/-- Whether any operand is true; those behind one that is are left alone. -/
def anyTrue (bars : Int) : List (Meaning m) → m Bool
  | [] => return false
  | operand :: rest => do
    if (← operand bars).truthy then return true else anyTrue bars rest

/-! ### Names and calls -/

/-- The value of a variable. -/
def Variable.read (market : Market) (access : Access m) (bars : Int) : Variable → m Value
  | close => do return .ofOption (← liftError (market.closeAt bars))
  | change => do return .ofOption (← liftError (market.changeAt bars))
  | changePercent => do
    return .ofOption ((← liftError (market.changeAt bars)).map (· * 100.0))
  | line l => do return .series l ((← access.seriesAt bars).line l)
  | symbol => return .text market.symbol
  | truth b => return .boolean b

/-- The last two points of an operand of a crossing.  A price list has points of its own; of any
other operand they are its values one bar ago and now. -/
def crossingPoints (function : String) (operand : Meaning m) (bars : Int) : m (List Float) := do
  match ← operand bars with
  | .series _ points => return Indicator.lastN 2 points
  | now =>
    let now ← liftError (now.toNumber function)
    let before ← liftError ((← operand (bars + 1)).toNumber function)
    match now with
    | some x => return before.toList ++ [x]
    | none => return []

/-- A crossing of two operands. -/
def evalCrossing (function : String) (up : Bool) (arguments : List (Meaning m)) (bars : Int) :
    m Value := do
  match arguments with
  | [first, second] =>
    let a ← crossingPoints function first bars
    let b ← crossingPoints function second bars
    return .boolean (if up then Indicator.crossesUp a b else Indicator.crossesDown a b)
  | _ => throw (.argument (.notPair function))

/-- A call.  The arguments of a builtin function are evaluated left to right before it is called. -/
def evalCall (access : Access m) (function : String) (arguments : List (Meaning m)) (bars : Int) :
    m Value :=
  match Function.ofName? function with
  | none => throw (.unknown ⟨.function, function⟩)
  | some (.crossing up) => evalCrossing function up arguments bars
  | some (.builtin f) => do
    access.call f (← arguments.mapM fun a => a bars) bars

/-! ### Nodes -/

/-- What a node means. -/
def Node.eval (market : Market) (access : Access m) : Node (Meaning m) → Meaning m
  | .number x, _ => return .number x
  | .text s, _ => return .text s
  | .name symbol, bars =>
    match Variable.ofName? symbol with
    | none => throw (.unknown ⟨.identifier, symbol⟩)
    | some v => v.read market access bars
  | .call function arguments, bars => evalCall access function arguments bars
  | .history operand n, bars => operand (bars + n)
  | .unary operator operand, bars => do
    liftError (unaryValue operator (← operand bars))
  | .binary operator left right, bars => do
    let x ← left bars
    let y ← right bars
    liftError (binaryValue operator x y)
  | .comparison operator left right, bars => do
    let x ← left bars
    let y ← right bars
    return .boolean (← liftError (compareValues market.tolerance operator x y))
  | .logical operator operands, bars =>
    if operator.toUpper = "AND" then return .boolean (← allTrue bars operands)
    else if operator.toUpper = "OR" then return .boolean (← anyTrue bars operands)
    else throw (.unknownOperator .logical operator)
  | .negation operand, bars => do
    match ← operand bars with
    | .undefined => return .undefined
    | v => return .boolean !v.truthy

end

/-! ### Plain evaluation -/

/-- Access without memory: everything is computed anew. -/
def Access.plain (market : Market) : Access (Except EvalError) where
  seriesAt bars := .ok (market.series.shifted bars)
  call f arguments bars := (f.apply arguments (market.series.shifted bars)).map .ofOption

/-- The value of an expression some bars ago, by plain recursion. -/
def Expr.eval (market : Market) (e : Expr) : Meaning (Except EvalError) :=
  e.fold (Node.eval market (Access.plain market))

/-! ### Names -/

/-- Whether a node has a name that means something. -/
def Node.checkName {β : Type} : Node β → Except UnknownSymbol Unit
  | .name symbol =>
    if (Variable.ofName? symbol).isSome then .ok () else .error ⟨.identifier, symbol⟩
  | .call function _ =>
    if (Function.ofName? function).isSome then .ok () else .error ⟨.function, function⟩
  | _ => .ok ()

/-- Refuses an expression with a name that means nothing, for the first such name in the order of
the text. -/
def Expr.checkNames (e : Expr) : Except UnknownSymbol Unit :=
  e.fold fun n => do
    n.checkName
    n.children.forM fun c => c

end BarScript
