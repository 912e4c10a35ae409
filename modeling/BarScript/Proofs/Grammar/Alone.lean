import BarScript.Statement

/-!
# Parsers of statements alone

The expression of a statement can be read as it is written, whatever names have been assigned
before: to a tree in which names stay names.  The parsers here do that, one for each level of
precedence.  They hand the tokens that are left from one to the next, and are built by recursion on
the levels that are left (`Statement.levels`), so that there is no counter to keep.

Scripts are read by `Read.expression`, which replaces names while it reads; it comes to the same as
`Statement.expression` and replacing the names afterwards (`Read.follows_expression`).
-/

namespace BarScript

namespace Statement

/-- What a parser gives: a result and the tokens behind it. -/
abbrev Parsed (α : Type) := α × List Token

/-- A parser of an expression at the front of a list of tokens. -/
abbrev Parser := List Token → Except Failure (Parsed Expr)

/-- Takes a token of a kind. -/
def expect (kind : TokenKind) : List Token → Except Failure (Parsed Token)
  | [] => .error (.at .unexpectedEnd none)
  | t :: rest =>
    if t.kind = kind then .ok (t, rest) else .error (.at (.expected kind t.text) (some t))

/-! ### Chains -/

/-- Further operands, each behind an operator, grouped to the left of what there is. -/
def sumOf (operators : List String) (operand : Parser) : Nat → Expr → Parser
  | 0, left, ts => .ok (left, ts)
  | _, left, [] => .ok (left, [])
  | fuel + 1, left, t :: rest =>
    if t.isOperator operators then do
      let (right, rest) ← operand rest
      sumOf operators operand fuel (.mk (.binary t.text left right)) rest
    else .ok (left, t :: rest)

/-- A chain of operands with operators between them, grouped to the left. -/
def leftChain (operators : List String) (operand : Parser) : Parser := fun ts => do
  let (first, rest) ← operand ts
  sumOf operators operand rest.length first rest

/-- Further operands, each behind a token of a kind. -/
def operandsOf (isOperator : Token → Bool) (operand : Parser) :
    Nat → List Token → Except Failure (Parsed (List Expr))
  | 0, ts => .ok ([], ts)
  | _, [] => .ok ([], [])
  | fuel + 1, t :: rest =>
    if isOperator t then do
      let (e, rest) ← operand rest
      let (more, rest) ← operandsOf isOperator operand fuel rest
      return (e :: more, rest)
    else .ok ([], t :: rest)

/-- An operand alone, or several of them in one logical node. -/
def logicalChain (name : String) (isOperator : Token → Bool) (operand : Parser) : Parser :=
  fun ts => do
    let (first, rest) ← operand ts
    let (more, rest) ← operandsOf isOperator operand rest.length rest
    return (if more.isEmpty then first else .mk (.logical name (first :: more)), rest)

/-- At most one comparison. -/
def comparison (operand : Parser) : Parser := fun ts => do
  let (left, rest) ← operand ts
  match rest with
  | [] => return (left, [])
  | t :: rest =>
    if t.isOperator comparisons then do
      let (right, rest) ← operand rest
      return (.mk (.comparison t.text left right), rest)
    else if t.isOperator ["="] then .error (.at .assignedExpression (some t))
    else return (left, t :: rest)

/-! ### Signs and negations -/

/-- A token in front of an operand one level deeper, or else something tighter.  `deeper` reads at
the next level, if there is one. -/
def leading (isLeading : Token → Bool) (node : Token → Expr → Node Expr)
    (deeper : Option Parser) (tighter : Parser) : Parser
  | [] => tighter []
  | t :: rest =>
    if isLeading t then
      match deeper with
      | none => .error (tooNested (some t))
      | some operand => do
        let (e, rest) ← operand rest
        return (.mk (node t e), rest)
    else tighter (t :: rest)

/-! ### History and primaries -/

/-- Numbers of bars in brackets behind an expression. -/
def histories : Nat → Expr → Parser
  | 0, e, ts => .ok (e, ts)
  | _, e, [] => .ok (e, [])
  | fuel + 1, e, t :: rest =>
    if t.kind = .openBracket then do
      let (number, rest) ← expect .number rest
      if number.text.toList.contains '.' then throw (.at .fractionalOffset (some number))
      let (_, rest) ← expect .closeBracket rest
      let bars ← offset number
      histories fuel (.mk (.history e bars)) rest
    else .ok (e, t :: rest)

/-- A primary with its numbers of bars. -/
def withHistory (primary : Parser) : Parser := fun ts => do
  let (e, rest) ← primary ts
  histories rest.length e rest

/-- Arguments with commas between them. -/
def arguments (argument : Parser) : Nat → List Token → Except Failure (Parsed (List Expr))
  | 0, ts => .ok ([], ts)
  | fuel + 1, ts => do
    let (e, rest) ← argument ts
    match rest with
    | t :: rest' =>
      if t.kind = .comma then do
        let (more, rest) ← arguments argument fuel rest'
        return (e :: more, rest)
      else return ([e], rest)
    | [] => return ([e], [])

/-- The arguments of a call and the parenthesis behind them. -/
def callArguments (argument : Parser) (ts : List Token) : Except Failure (Parsed (List Expr)) := do
  let (es, rest) ← match ts with
    | [] => pure ([], [])
    | t :: _ => if t.kind = .closeParen then pure ([], ts) else arguments argument ts.length ts
  let (_, rest) ← expect .closeParen rest
  return (es, rest)

/-- A number, a text, a name, a call, or a group. -/
def primary (group : Parser) : Parser
  | [] => .error (.at .unexpectedEnd none)
  | t :: rest =>
    match t.kind with
    | .number => .ok (.mk (.number (literal t)), rest)
    | .text => .ok (.mk (.text t.unquoted), rest)
    | .openParen => do
      let (e, rest) ← group rest
      let (_, rest) ← expect .closeParen rest
      return (e, rest)
    | .word =>
      if Token.keywords.contains t.lower then
        .error (.at (.unexpectedKeyword t.text) (some t))
      else
        match rest with
        | p :: rest' =>
          if p.kind = .openParen then do
            let (es, rest) ← callArguments group rest'
            return (.mk (.call t.lower es), rest)
          else .ok (.mk (.name t.lower), rest)
        | [] => .ok (.mk (.name t.lower), [])
    | _ => .error (.at (.unexpectedToken t.text) (some t))

/-! ### Levels -/

/-- The parsers that open a level or stay on one. -/
structure Level where
  /-- An expression one level deeper. -/
  group : Parser
  /-- A negation and all that is tighter. -/
  negated : Parser
  /-- A sign and all that is tighter. -/
  signed : Parser

/-- The parsers of a level from those of the next deeper one. -/
def levelOver (deeper : Option Level) : Level :=
  let group : Parser := match deeper with
    | none => fun ts => .error (tooNested ts.head?)
    | some level => logicalChain "OR" isOr (logicalChain "AND" isAnd level.negated)
  let signed := leading (Token.isOperator ["+", "-"])
    (fun t e => .unary t.text e) (deeper.map (·.signed)) (withHistory (primary group))
  let negated := leading isNot (fun _ e => .negation e) (deeper.map (·.negated))
    (comparison (leftChain ["+", "-"] (leftChain ["*", "/"] signed)))
  ⟨group, negated, signed⟩

/-- The parsers of a level with so many deeper ones. -/
def levels : Nat → Level
  | 0 => levelOver none
  | n + 1 => levelOver (some (levels n))

/-- The expression of a statement. -/
def expression : Parser := (levels maxNesting).group

/-- The name that a statement assigns, and the tokens of its expression.  A keyword cannot be
assigned. -/
def target : List Token → Except Failure (Parsed (Option String))
  | t :: e :: rest =>
    if t.kind = .word ∧ e.isOperator ["="] then
      if Token.keywords.contains t.lower then .error (.at (.assignedKeyword t.text) (some t))
      else .ok (some t.lower, rest)
    else .ok (none, t :: e :: rest)
  | ts => .ok (none, ts)

end Statement

end BarScript
