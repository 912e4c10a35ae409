import BarScript.Expr.Graph
import BarScript.Number.Numeral
import BarScript.ParseError

/-!
# Statements

A statement is an expression, or a name, an equals sign and an expression.  Expressions are read by
one reader for each level of precedence, from the loosest to the tightest:

* operands of `or` (`||`), then of `and` (`&&`), any number of them in one node;
* `not` (`!`) in front of what follows it;
* at most one comparison;
* sums, then products, grouped to the left;
* a sign in front of what follows it;
* a primary with numbers of bars in brackets behind it;
* a primary: a number, a text, a name, a call, or an expression in parentheses.

The readers share one state (`Reading`): the tokens that are left, the levels that have been
entered, the names that have been assigned and the nodes that have been made.  An expression in
parentheses, an argument of a call and the operand of a sign or a `not` lie one level deeper than
what they stand in, and there are at most `maxNesting` levels (`Read.enter`).

A name that an earlier statement has assigned is replaced as soon as it is read: it stands for the
node of that expression, which is shared, not copied (`Read.name`).
-/

namespace BarScript

namespace Statement

/-- Why a statement cannot be read. -/
inductive Failure where
  /-- A cause at a token, or at the end of the script. -/
  | at (cause : ParseCause) (token : Option Token)
  /-- A number of bars with too many digits. -/
  | offsetTooLong (digits : Nat)
  deriving Repr

/-- The greatest number of levels. -/
def maxNesting : Nat := 64

/-- The failure of a level too many. -/
def tooNested (token : Option Token) : Failure := .at (.nesting maxNesting) token

/-! ### Tokens -/

/-- Whether a token joins the operands of an `and`. -/
def isAnd (t : Token) : Bool := t.isKeyword "and" || t.isOperator ["&&"]

/-- Whether a token joins the operands of an `or`. -/
def isOr (t : Token) : Bool := t.isKeyword "or" || t.isOperator ["||"]

/-- Whether a token negates what follows. -/
def isNot (t : Token) : Bool := t.isKeyword "not" || t.isOperator ["!"]

/-- The operators that compare. -/
def comparisons : List String := [">", ">=", "<", "<=", "==", "!="]

/-- The number of bars that a token gives. -/
def offset (t : Token) : Except Failure Int :=
  match Numeral.ofDigits false t.text.toList with
  | .value n => .ok n
  | .tooLong digits => .error (.offsetTooLong digits)
  | .malformed => .error (.at .fractionalOffset (some t))

/-- The number that a token gives. -/
def literal (t : Token) : Float := (Numeral.float? t.text).getD 0

end Statement

/-! ### The state of reading -/

namespace Program

/-- The expression that a name was assigned last. -/
def lookup (locals : List (String × Nat)) (symbol : String) : Option Nat :=
  (locals.find? fun l => l.1 == symbol).map (·.2)

/-- Assigns a name; a name that has been assigned keeps its place. -/
def assign (symbol : String) (position : Nat) : List (String × Nat) → List (String × Nat)
  | [] => [(symbol, position)]
  | l :: rest =>
    if l.1 == symbol then (symbol, position) :: rest else l :: assign symbol position rest

end Program

/-- What is left to read and what has been made of what has been read. -/
structure Reading where
  /-- The tokens that are left. -/
  tokens : List Token
  /-- The levels that have been entered and not left. -/
  depth : Nat
  /-- The names that have been assigned, with the positions of their expressions. -/
  locals : List (String × Nat)
  /-- The nodes of what has been read. -/
  graph : Graph

/-- A reader of what stands in front.  A failure ends the reading of the whole script. -/
abbrev Read := StateT Reading (Except Statement.Failure)

namespace Read

open Statement

/-- The token in front, if there is one. -/
def peek : Read (Option Token) := do return (← get).tokens.head?

/-- Goes on behind the token in front. -/
def skip : Read Unit := modify fun s => { s with tokens := s.tokens.tail }

/-- Takes a token of a kind. -/
def expect (kind : TokenKind) : Read Token := do
  match ← peek with
  | none => throw (.at .unexpectedEnd none)
  | some t =>
    if t.kind = kind then
      skip
      return t
    else throw (.at (.expected kind t.text) (some t))

/-- Enters a level, which a token opens. -/
def enter (token : Option Token) : Read Unit := do
  let s ← get
  if maxNesting < s.depth + 1 then throw (tooNested token) else set { s with depth := s.depth + 1 }

/-- Leaves a level. -/
def leave : Read Unit := modify fun s => { s with depth := s.depth - 1 }

/-- Reads one level deeper. -/
def nested {α : Type} (token : Option Token) (inner : Read α) : Read α := do
  enter token
  let a ← inner
  leave
  return a

/-- Makes a node of operands that have been made, and gives its position. -/
def make (n : Node Nat) : Read Nat := do
  let s ← get
  set { s with graph := s.graph.push n }
  return s.graph.size

/-- A name: the node of the expression that it was assigned, or a node of its own. -/
def name (symbol : String) : Read Nat := do
  match Program.lookup (← get).locals symbol with
  | some position => return position
  | none => make (.name symbol)

/-! ### Chains -/

/-- Further operands, each behind an operator, grouped to the left of what there is. -/
def sumOf (operators : List String) (operand : Read Nat) : Nat → Nat → Read Nat
  | 0, left => return left
  | fuel + 1, left => do
    match ← peek with
    | none => return left
    | some t =>
      if t.isOperator operators then
        skip
        let right ← operand
        sumOf operators operand fuel (← make (.binary t.text left right))
      else return left

/-- A chain of operands with operators between them, grouped to the left. -/
def leftChain (operators : List String) (operand : Read Nat) : Read Nat := do
  let first ← operand
  sumOf operators operand (← get).tokens.length first

/-- Further operands, each behind a token of a kind. -/
def operandsOf (isOperator : Token → Bool) (operand : Read Nat) : Nat → Read (List Nat)
  | 0 => return []
  | fuel + 1 => do
    match ← peek with
    | none => return []
    | some t =>
      if isOperator t then
        skip
        let position ← operand
        return position :: (← operandsOf isOperator operand fuel)
      else return []

/-- An operand alone, or several of them in one logical node. -/
def logicalChain (name : String) (isOperator : Token → Bool) (operand : Read Nat) : Read Nat := do
  let first ← operand
  let more ← operandsOf isOperator operand (← get).tokens.length
  if more.isEmpty then return first else make (.logical name (first :: more))

/-- At most one comparison. -/
def comparison (operand : Read Nat) : Read Nat := do
  let left ← operand
  match ← peek with
  | none => return left
  | some t =>
    if t.isOperator comparisons then
      skip
      make (.comparison t.text left (← operand))
    else if t.isOperator ["="] then throw (.at .assignedExpression (some t))
    else return left

/-! ### Signs and negations -/

/-- A token in front of an operand one level deeper, or else something tighter. -/
def leading (isLeading : Token → Bool) (node : Token → Nat → Node Nat)
    (operand tighter : Read Nat) : Read Nat := do
  match ← peek with
  | none => tighter
  | some t =>
    if isLeading t then
      skip
      make (node t (← nested (some t) operand))
    else tighter

/-! ### History and primaries -/

/-- Numbers of bars in brackets behind an expression. -/
def histories : Nat → Nat → Read Nat
  | 0, position => return position
  | fuel + 1, position => do
    match ← peek with
    | none => return position
    | some t =>
      if t.kind = .openBracket then
        skip
        let number ← expect .number
        if number.text.toList.contains '.' then throw (.at .fractionalOffset (some number))
        else
          let _ ← expect .closeBracket
          let bars ← offset number
          histories fuel (← make (.history position bars))
      else return position

/-- A primary with its numbers of bars. -/
def withHistory (primary : Read Nat) : Read Nat := do
  let position ← primary
  histories (← get).tokens.length position

/-- Arguments with commas between them. -/
def arguments (argument : Read Nat) : Nat → Read (List Nat)
  | 0 => return []
  | fuel + 1 => do
    let position ← argument
    match ← peek with
    | none => return [position]
    | some t =>
      if t.kind = .comma then
        skip
        return position :: (← arguments argument fuel)
      else return [position]

/-- The arguments of a call, which may have none. -/
def anyArguments (argument : Read Nat) : Read (List Nat) := do
  match ← peek with
  | none => return []
  | some t => if t.kind = .closeParen then return [] else arguments argument (← get).tokens.length

/-- The arguments of a call and the parenthesis behind them. -/
def callArguments (argument : Read Nat) : Read (List Nat) := do
  let positions ← anyArguments argument
  let _ ← expect .closeParen
  return positions

/-- A number, a text, a name, a call, or a group. -/
def primary (group : Read Nat) : Read Nat := do
  match ← peek with
  | none => throw (.at .unexpectedEnd none)
  | some t =>
    match t.kind with
    | .number =>
      skip
      make (.number (literal t))
    | .text =>
      skip
      make (.text t.unquoted)
    | .openParen =>
      skip
      let position ← group
      let _ ← expect .closeParen
      return position
    | .word =>
      if Token.keywords.contains t.lower then throw (.at (.unexpectedKeyword t.text) (some t))
      else
        skip
        match ← peek with
        | none => name t.lower
        | some p =>
          if p.kind = .openParen then
            skip
            make (.call t.lower (← callArguments group))
          else name t.lower
    | _ => throw (.at (.unexpectedToken t.text) (some t))

/-! ### Levels -/

/-- The readers that open a level or stay on one. -/
structure Level where
  /-- An expression one level deeper. -/
  group : Read Nat
  /-- A negation and all that is tighter. -/
  negated : Read Nat
  /-- A sign and all that is tighter. -/
  signed : Read Nat

/-- The readers of a level from those of the next deeper one. -/
def levelOver (deeper : Level) : Level :=
  let group : Read Nat := do
    nested (← peek) (logicalChain "OR" isOr (logicalChain "AND" isAnd deeper.negated))
  let signed := leading (Token.isOperator ["+", "-"]) (fun t c => .unary t.text c) deeper.signed
    (withHistory (primary group))
  let negated := leading isNot (fun _ c => .negation c) deeper.negated
    (comparison (leftChain ["+", "-"] (leftChain ["*", "/"] signed)))
  ⟨group, negated, signed⟩

/-- The readers of a level over so many others.  Where there are none, no level can be entered. -/
def levels : Nat → Level
  | 0 =>
    let stuck : Read Nat := do throw (tooNested (← peek))
    ⟨stuck, stuck, stuck⟩
  | n + 1 => levelOver (levels n)

/-- The expression of a statement. -/
def expression : Read Nat := (levels (maxNesting + 1)).group

/-! ### Statements -/

/-- The name that a statement assigns, which is taken with the equals sign.  A keyword cannot be
assigned. -/
def target : Read (Option String) := do
  match (← get).tokens with
  | t :: e :: rest =>
    if t.kind = .word ∧ e.isOperator ["="] then
      if Token.keywords.contains t.lower then throw (.at (.assignedKeyword t.text) (some t))
      else
        modify fun s => { s with tokens := rest }
        return some t.lower
    else return none
  | _ => return none

/-- A statement, which begins at a token.  It is refused if its expression, with all names replaced,
exceeds the limits of `Shape.Within`; otherwise it is assigned to its name, if it has one. -/
def statement (first : Token) : Read Nat := do
  let symbol ← target
  let root ← expression
  let s ← get
  match (s.graph.shape? root).bind Shape.excess?, symbol with
  | some excess, _ => throw (.at (.excess excess) (some first))
  | none, none => return root
  | none, some symbol =>
    set { s with locals := Program.assign symbol root s.locals }
    return root

end Read

end BarScript
