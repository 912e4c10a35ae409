import BarScript.Number.Notation
import BarScript.Scalar
import BarScript.Value

/-!
# Why an expression has no value

An evaluation ends in an `EvalError`, which keeps the cause; `EvalError.message` words it.  Nearly
all errors are reported as the result of a run (`EvalError.reported`).
-/

namespace BarScript

/-- The kinds of names. -/
inductive SymbolKind where
  | identifier
  | function
  deriving Repr, DecidableEq

/-- A name that means nothing. -/
structure UnknownSymbol where
  kind : SymbolKind
  symbol : String
  deriving Repr, DecidableEq

/-- The wording for an unknown name. -/
def UnknownSymbol.message (e : UnknownSymbol) : String :=
  let symbol := e.symbol
  match e.kind with
  | .identifier => s!"Unknown identifier '{symbol}'"
  | .function => s!"Unknown function '{symbol}'"

/-- What is wrong with the arguments of a function or the operands of an operator. -/
inductive ArgumentError where
  /-- A value that is no number. -/
  | notNumber (what : String) (kind : ValueKind)
  /-- A number that is not whole. -/
  | notWhole (function : String) (x : Float)
  | count (function : String) (least : Nat) (most : Option Nat)
  | notPair (function : String)
  | notBars (function : String)
  deriving Repr

/-- The wording of an argument error. -/
def ArgumentError.message : ArgumentError → String
  | notNumber what kind => what ++ " expects a number, got " ++ kind.name
  | notWhole function x => function ++ " expects whole-number periods, got " ++ Number.text x
  | count function least none => s!"{function} expects at least {least} argument(s)"
  | count function least (some most) =>
    if least = most then s!"{function} expects {least} argument(s)"
    else s!"{function} expects {least} to {most} argument(s)"
  | notPair function => s!"{function} expects (a, b)"
  | notBars function => s!"{function} expects (highs, lows, closes, ...) series"

/-- The operators a node can have. -/
inductive OperatorKind where
  | unary
  | binary
  | comparison
  | logical
  deriving Repr, DecidableEq

/-- Why an expression has no value. -/
inductive EvalError where
  | unknown (symbol : UnknownSymbol)
  | argument (error : ArgumentError)
  | cannotCompare (left right : ValueKind)
  /-- An operator that does not compare values of this kind. -/
  | notDefined (operator : String) (kind : ValueKind)
  | unknownOperator (kind : OperatorKind) (operator : String)
  | fault (fault : Fault)
  /-- A bar after the last one. -/
  | noSuchBar
  /-- An expression that is nested too deeply to be evaluated. -/
  | tooDeep
  deriving Repr

/-- The wording of an arithmetic fault. -/
def Fault.message : Fault → String
  | divisionByZero => "float division by zero"
  | squareOverflow => "(34, 'Numerical result out of range')"
  | intTooLarge => "int too large to convert to float"
  | emptyMaximum => "max() arg is an empty sequence"
  | emptyMinimum => "min() arg is an empty sequence"
  | noWholePart fault => fault.message

/-- The wording of an evaluation error. -/
def EvalError.message : EvalError → String
  | unknown symbol => symbol.message
  | argument error => error.message
  | cannotCompare left right => "Cannot compare " ++ left.name ++ " with " ++ right.name
  | notDefined operator kind =>
    s!"Operator '{operator}' is not defined for " ++ kind.name ++ " values"
  | unknownOperator .unary operator => s!"Unsupported unary operator '{operator}'"
  | unknownOperator .binary operator => s!"Unsupported binary operator '{operator}'"
  | unknownOperator .comparison operator => s!"Unknown comparison op '{operator}'"
  | unknownOperator .logical operator => s!"Unknown logical op '{operator}'"
  | fault f => f.message
  | noSuchBar => "tuple index out of range"
  | tooDeep => "maximum recursion depth exceeded"

/-- Whether a run reports an error as its result; an error that is not reported ends the run. -/
def EvalError.reported : EvalError → Bool
  | fault .divisionByZero => false
  | noSuchBar => false
  | _ => true

/-- The number that a value stands for, none if it is undefined. -/
def Value.toNumber (what : String) : Value → Except EvalError (Option Float)
  | undefined => .ok none
  | number x => .ok (some x)
  | series _ points => .ok points.getLast?
  | v => .error (.argument (.notNumber what v.kind))

/-- The whole number that a value stands for, none if it is undefined. -/
def Value.toWhole (function : String) (v : Value) : Except EvalError (Option Int) := do
  match ← v.toNumber function with
  | none => return none
  | some x =>
    match Number.truncate x with
    | .error f => throw (.fault (.noWholePart f))
    | .ok n => if Number.isWhole x then return some n else throw (.argument (.notWhole function x))

end BarScript
