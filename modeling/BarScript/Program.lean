import BarScript.Statement
import BarScript.Token.Lexer

/-!
# Programs

A program is a sequence of statements with separators between them.  A statement may assign its
expression to a name, which stands for that expression in every later statement.  The result of a
program is the expression of its last statement.
-/

namespace BarScript

/-- A script that has been read. -/
structure Program where
  source : String
  /-- The nodes of all statements. -/
  graph : Graph
  /-- The names that have been assigned, with the positions of their expressions. -/
  locals : List (String × Nat)
  /-- The position of the last expression. -/
  result : Nat

/-- Why a script cannot be read. -/
inductive ParseFailure where
  | parse (error : ParseError)
  /-- A number of bars with too many digits. -/
  | offsetTooLong (digits : Nat)
  deriving Repr

namespace Program

/-- What has been read so far. -/
structure Partial where
  graph : Graph
  locals : List (String × Nat)
  result : Option Nat

/-- Nothing read yet. -/
def Partial.empty : Partial := ⟨.empty, [], none⟩

/-- The tokens behind leading separators. -/
def skipSeparators (ts : List Token) : List Token := ts.dropWhile fun t => t.kind = .separator

/-- Reads statements as long as there are tokens, with separators between them.  The result is that
of the last one. -/
def script : Nat → Option Nat → Read (Option Nat)
  | 0, result => return result
  | fuel + 1, result => do
    modify fun s => { s with tokens := skipSeparators s.tokens }
    match ← Read.peek with
    | none => return result
    | some first =>
      let root ← Read.statement first
      match ← Read.peek with
      | none => return some root
      | some t =>
        if t.kind = .separator then script fuel (some root)
        else throw (.at (.unexpectedToken t.text) (some t))

/-- Reads statements behind what has been read so far. -/
def statements (fuel : Nat) (p : Partial) (ts : List Token) : Except Statement.Failure Partial := do
  let (result, s) ← (script fuel p.result).run ⟨ts, 0, p.locals, p.graph⟩
  return ⟨s.graph, s.locals, result⟩

/-- The error of a failure in a text; without a token it is at the end of the text. -/
def failureIn (source : String) : Statement.Failure → ParseFailure
  | .at cause (some t) => .parse ⟨cause, some t.position, some t.text⟩
  | .at cause none => .parse ⟨cause, some source.length, none⟩
  | .offsetTooLong digits => .offsetTooLong digits

/-- The error of a script without statements. -/
def emptyScript : ParseError := ⟨.emptyScript, some 0, none⟩

/-- Reads a script. -/
def parse (source : String) : Except ParseFailure Program := do
  let tokens ← (Token.scan source).mapError .parse
  let p ← (statements (tokens.length + 1) .empty tokens).mapError (failureIn source)
  match p.result with
  | none => throw (.parse emptyScript)
  | some result => return ⟨source, p.graph, p.locals, result⟩

/-- The expression at a position. -/
def formula (p : Program) (root : Nat) : Formula := ⟨p.graph, root⟩

/-- The expression that a name was assigned last. -/
def local? (p : Program) (symbol : String) : Option Formula :=
  (lookup p.locals symbol).map p.formula

end Program

end BarScript
