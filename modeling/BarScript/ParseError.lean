import BarScript.Expr.Shape
import BarScript.Token.Basic

/-!
# Why a script is not understood

A `ParseError` has a cause and, if the cause is at some place, the position of that place and the
token there.
-/

namespace BarScript

/-- What is wrong with a script. -/
inductive ParseCause where
  | unexpectedCharacter (c : Char)
  | unexpectedEnd
  | expected (kind : TokenKind) (found : String)
  | unexpectedToken (found : String)
  | unexpectedKeyword (word : String)
  | assignedKeyword (word : String)
  /-- A single equals sign where two expressions are compared. -/
  | assignedExpression
  /-- A number of bars with a point. -/
  | fractionalOffset
  /-- Groups, arguments and signs inside one another beyond the limit. -/
  | nesting (limit : Nat)
  | excess (excess : Shape.Excess)
  | emptyScript
  /-- A script for both sides that assigns neither. -/
  | noSides
  deriving Repr, DecidableEq

/-- The wording of a cause. -/
def ParseCause.message : ParseCause → String
  | unexpectedCharacter c => s!"Unexpected character '{c}'"
  | unexpectedEnd => "Unexpected end of expression"
  | expected kind found => "Expected " ++ kind.name ++ s!" but found '{found}'"
  | unexpectedToken found => s!"Unexpected token '{found}'"
  | unexpectedKeyword word => s!"Unexpected keyword '{word}'"
  | assignedKeyword word => s!"Cannot assign to keyword '{word}'"
  | assignedExpression => "Unexpected '=' (use '==' to compare)"
  | fractionalOffset => "History offset must be a whole number"
  | nesting limit => s!"Expression is nested too deeply (max {limit} levels)"
  | excess e => e.message
  | emptyScript => "Empty script"
  | noSides => "Combined script must assign 'buy' or 'sell'"

/-- A script that is not understood. -/
structure ParseError where
  cause : ParseCause
  /-- Where it goes wrong, in characters from the start. -/
  position : Option Nat
  /-- The token at that place. -/
  token : Option String
  deriving Repr, DecidableEq

/-- The wording of an error, with its position. -/
def ParseError.message (e : ParseError) : String :=
  match e.position with
  | none => e.cause.message
  | some n => e.cause.message ++ s!" (at position {n})"

end BarScript
