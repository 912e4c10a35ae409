import BarScript.Program
import BarScript.Proofs.Except
import BarScript.Proofs.Grammar.Alone
import BarScript.Proofs.Graph.Graft

/-!
# Replacing names while reading

The readers of scripts replace a name as soon as they meet it, count the levels they enter, and make
the nodes of an expression while they are still choosing how to go on.  The parsers of statements
alone (`Statement.expression`) know nothing of assigned names and keep no counter.

A reader `Follows` a parser at a depth if it takes the same tokens, fails in the same way, and
leaves behind the nodes of the parsed tree with its names replaced, as they are made afterwards
(`Graph.graft`).  Every way of making readers from readers keeps this, whatever the tokens are,
whatever has been assigned and whatever nodes there are, so it holds of the readers of every level,
by induction on the levels that are left (`followsLevel_levels`).

* `Read.follows_expression` : reading an expression while replacing names is parsing it and
  replacing the names afterwards.
* `Program.statements_succ` : what reading a script comes to, one statement at a time.
-/

namespace BarScript

open Statement

namespace Read

/-! ### Steps of reading -/

section

variable {α β : Type} (s : Reading)

theorem run_bind_get (f : Reading → Read β) : (get >>= f).run s = (f s).run s := rfl

theorem run_bind_set (s' : Reading) (f : PUnit → Read β) :
    (set s' >>= f).run s = (f ⟨⟩).run s' := rfl

theorem run_bind_modify (g : Reading → Reading) (f : PUnit → Read β) :
    (modify g >>= f).run s = (f ⟨⟩).run (g s) := rfl

theorem run_bind_peek (f : Option Token → Read β) :
    (peek >>= f).run s = (f s.tokens.head?).run s := rfl

theorem run_bind_skip (f : Unit → Read β) :
    (skip >>= f).run s = (f ()).run { s with tokens := s.tokens.tail } := rfl

theorem run_bind_throw (e : Failure) (f : α → Read β) :
    ((throw e : Read α) >>= f).run s = .error e := rfl

theorem run_bind_expect (kind : TokenKind) (f : Token → Read β) : (expect kind >>= f).run s =
    Statement.expect kind s.tokens >>= fun r => (f r.1).run { s with tokens := r.2 } := by
  obtain ⟨_ | ⟨t, ts⟩, depth, locals, graph⟩ := s
  · rfl
  · by_cases h : t.kind = kind
    · simp only [expect, bind_assoc, run_bind_peek, List.head?_cons, if_pos h, run_bind_skip,
        pure_bind, Statement.expect]
      rfl
    · simp only [expect, bind_assoc, run_bind_peek, List.head?_cons, if_neg h, run_bind_throw,
        Statement.expect]
      rfl

end

/-! ### Following a parser -/

/-- The state with what has been parsed added to its nodes, and what was added. -/
def put {α β : Type} (add : Reading → α → StateM Graph β) (s : Reading) (r : Parsed α) :
    β × Reading :=
  ((add s r.1 s.graph).1, { s with tokens := r.2, graph := (add s r.1 s.graph).2 })

/-- An expression is added with its names standing for what they were assigned. -/
def one (s : Reading) : Expr → StateM Graph Nat := Graph.graft (Program.lookup s.locals)

/-- Several expressions are added one after another. -/
def all (s : Reading) (es : List Expr) : StateM Graph (List Nat) := es.mapM (one s)

/-- At a depth, a reader gives what a parser gives, added to the nodes. -/
def Follows {α β : Type} (add : Reading → α → StateM Graph β) (depth : Nat) (x : Read β)
    (p : List Token → Except Failure (Parsed α)) : Prop :=
  ∀ s : Reading, s.depth = depth → x.run s = (p s.tokens).map (put add s)

/-- What comes behind a reader goes on where the reader has put its result. -/
theorem Follows.run_bind {α β γ : Type} {add : Reading → α → StateM Graph β} {depth : Nat}
    {x : Read β} {p : List Token → Except Failure (Parsed α)} (hx : Follows add depth x p)
    {s : Reading} (hs : s.depth = depth) (f : β → Read γ) :
    (x >>= f).run s = p s.tokens >>= fun a => (f (put add s a).1).run (put add s a).2 := by
  rw [StateT.run_bind, hx s hs]
  cases p s.tokens <;> rfl

/-! ### What is added for a node -/

/-- The state with one more node, and its position. -/
def made (n : Node Nat) (s : Reading) : Nat × Reading :=
  (s.graph.size, { s with graph := s.graph.push n })

section

variable (s : Reading) (e left right : Expr) (es : List Expr) (ts us : List Token)

theorem tokens_put {α β : Type} (add : Reading → α → StateM Graph β) (r : Parsed α) :
    (put add s r).2.tokens = r.2 := rfl

theorem put_name (symbol : String) : put one s (.mk (.name symbol), ts) =
    match Program.lookup s.locals symbol with
    | some position => (position, { s with tokens := ts })
    | none => made (.name symbol) { s with tokens := ts } := by
  rw [put, one, Graph.graft_name]
  cases Program.lookup s.locals symbol <;> rfl

/-- A node that is no name is added behind its children. -/
theorem put_mk {n : Node Expr} (h : ∀ symbol, n ≠ .name symbol) : put one s (.mk n, ts) =
    let r := n.mapM (Graph.graft (Program.lookup s.locals)) s.graph
    made r.1 { s with tokens := ts, graph := r.2 } := by
  rw [put, one, Graph.graft_mk _ _ h]
  rfl

theorem put_unary (operator : String) : put one s (.mk (.unary operator e), ts) =
    made (.unary operator (put one s (e, ts)).1) (put one s (e, ts)).2 :=
  put_mk s ts (by simp)

theorem put_negation : put one s (.mk (.negation e), ts) =
    made (.negation (put one s (e, ts)).1) (put one s (e, ts)).2 :=
  put_mk s ts (by simp)

theorem put_history (bars : Int) : put one s (.mk (.history e bars), ts) =
    made (.history (put one s (e, ts)).1 bars) (put one s (e, ts)).2 :=
  put_mk s ts (by simp)

/-- The second operand is added behind the first one. -/
theorem put_binary (operator : String) : put one s (.mk (.binary operator left right), us) =
    let first := put one s (left, ts)
    let second := put one first.2 (right, us)
    made (.binary operator first.1 second.1) second.2 :=
  put_mk s us (by simp)

theorem put_comparison (operator : String) :
    put one s (.mk (.comparison operator left right), us) =
      let first := put one s (left, ts)
      let second := put one first.2 (right, us)
      made (.comparison operator first.1 second.1) second.2 :=
  put_mk s us (by simp)

theorem put_cons : put all s (e :: es, us) =
    let first := put one s (e, ts)
    let more := put all first.2 (es, us)
    (first.1 :: more.1, more.2) := by
  rw [put, all, List.mapM_cons]
  rfl

theorem put_logical (operator : String) : put one s (.mk (.logical operator es), ts) =
    made (.logical operator (put all s (es, ts)).1) (put all s (es, ts)).2 :=
  put_mk s ts (by simp)

theorem put_call (function : String) : put one s (.mk (.call function es), ts) =
    made (.call function (put all s (es, ts)).1) (put all s (es, ts)).2 :=
  put_mk s ts (by simp)

/-- As many positions are added as there are expressions. -/
theorem isEmpty_put (r : Parsed (List Expr)) : (put all s r).1.isEmpty = r.1.isEmpty := by
  obtain ⟨_ | ⟨e, es⟩, ts⟩ := r
  · rfl
  · rw [put_cons s e es ts]
    rfl

end

section

variable {depth : Nat} {x : Read Nat} {p : Parser} {s : Reading}

/-! ### Chains -/

theorem follows_sumOf (hx : Follows one depth x p) (operators : List String) (fuel : Nat)
    (hs : s.depth = depth) (left : Parsed Expr) :
    (sumOf operators x fuel (put one s left).1).run (put one s left).2 =
      (Statement.sumOf operators p fuel left.1 left.2).map (put one s) := by
  induction fuel generalizing left with
  | zero => rfl
  | succ fuel ih =>
    obtain ⟨left, _ | ⟨t, rest⟩⟩ := left
    · rfl
    simp only [sumOf, Statement.sumOf, run_bind_peek, tokens_put, List.head?_cons]
    by_cases ht : t.isOperator operators = true
    · simp only [if_pos ht, run_bind_skip, tokens_put, List.tail_cons, except_map_bind]
      refine (hx.run_bind (by exact hs) _).trans (bind_congr fun right => ?_)
      have := ih (.mk (.binary t.text left right.1), right.2)
      rw [put_binary s left right.1 rest] at this
      exact this
    · simp only [if_neg ht]
      rfl

/-- A chain follows if its operands do. -/
theorem Follows.leftChain (hx : Follows one depth x p) (operators : List String) :
    Follows one depth (leftChain operators x) (Statement.leftChain operators p) := by
  intro s hs
  rw [Read.leftChain, hx.run_bind hs, Statement.leftChain, except_map_bind]
  exact bind_congr fun e => follows_sumOf hx operators _ hs e

theorem Follows.operandsOf (hx : Follows one depth x p) (isOperator : Token → Bool) (fuel : Nat) :
    Follows all depth (operandsOf isOperator x fuel) (Statement.operandsOf isOperator p fuel) := by
  induction fuel with
  | zero => exact fun _ _ => rfl
  | succ fuel ih =>
    rintro ⟨_ | ⟨t, rest⟩, d, locals, g⟩ hs
    · rfl
    simp only [Read.operandsOf, Statement.operandsOf, run_bind_peek, List.head?_cons]
    by_cases ht : isOperator t = true
    · simp only [if_pos ht, run_bind_skip, List.tail_cons, except_map_bind]
      refine (hx.run_bind (by exact hs) _).trans (bind_congr fun first => ?_)
      refine (ih.run_bind (by exact hs) _).trans (bind_congr fun more => ?_)
      exact congrArg Except.ok (put_cons _ first.1 more.1 first.2 more.2).symm
    · simp only [if_neg ht]
      rfl

theorem Follows.logicalChain (hx : Follows one depth x p) (name : String)
    (isOperator : Token → Bool) : Follows one depth (logicalChain name isOperator x)
      (Statement.logicalChain name isOperator p) := by
  intro s hs
  rw [Read.logicalChain, Statement.logicalChain, except_map_bind]
  refine (hx.run_bind hs _).trans (bind_congr fun first => ?_)
  rw [run_bind_get, except_map_bind]
  refine ((hx.operandsOf isOperator _).run_bind (by exact hs) _).trans
    (bind_congr fun more => ?_)
  rw [isEmpty_put]
  obtain ⟨_ | ⟨e, es⟩, ts⟩ := more
  · rfl
  · refine congrArg Except.ok (Eq.symm ?_)
    change put one s (.mk (.logical name (first.1 :: e :: es)), ts) = _
    rw [put_logical, put_cons s first.1 (e :: es) first.2]
    rfl

theorem Follows.comparison (hx : Follows one depth x p) :
    Follows one depth (comparison x) (Statement.comparison p) := by
  intro s hs
  rw [Read.comparison, Statement.comparison, except_map_bind]
  refine (hx.run_bind hs _).trans (bind_congr fun left => ?_)
  rw [run_bind_peek]
  obtain ⟨left, _ | ⟨t, rest⟩⟩ := left
  · rfl
  simp only [tokens_put, List.head?_cons]
  by_cases ht : t.isOperator comparisons = true
  · simp only [if_pos ht, run_bind_skip, tokens_put, List.tail_cons, except_map_bind]
    refine (hx.run_bind (by exact hs) _).trans (bind_congr fun right => ?_)
    exact congrArg Except.ok (put_comparison s left right.1 rest right.2 t.text).symm
  · simp only [if_neg ht]
    by_cases ht : t.isOperator ["="] = true
    · simp only [if_pos ht]
      rfl
    · simp only [if_neg ht]
      rfl

/-! ### Signs and negations -/

/-- Reading one level deeper, where there is one. -/
theorem Follows.nested (hx : Follows one (depth + 1) x p) (hd : depth + 1 ≤ maxNesting)
    (token : Option Token) : Follows one depth (nested token x) p := by
  rintro s rfl
  rw [Read.nested, enter, bind_assoc, run_bind_get, if_neg (by omega)]
  refine (run_bind_set _ _ _).trans ((hx.run_bind rfl _).trans ?_)
  cases p s.tokens <;> rfl

/-- There is no level below the last one. -/
theorem run_bind_nested_of_le {β : Type} (hd : maxNesting ≤ s.depth) (token : Option Token)
    (x : Read Nat) (f : Nat → Read β) :
    (nested token x >>= f).run s = .error (tooNested token) := by
  rw [Read.nested, enter, bind_assoc, bind_assoc, run_bind_get, if_pos (by omega)]
  rfl

/-- A reader one level deeper follows a parser, or there is no deeper level. -/
def FollowsDeeper (depth : Nat) (x : Read Nat) (deeper : Option Parser) : Prop :=
  deeper = none ∧ depth = maxNesting ∨
    depth < maxNesting ∧ ∃ p, deeper = some p ∧ Follows one (depth + 1) x p

theorem Follows.leading {deeper : Option Parser} {tighter : Read Nat} {tighter' : Parser}
    (hx : FollowsDeeper depth x deeper) (htighter : Follows one depth tighter tighter')
    (isLeading : Token → Bool) {node : Token → Nat → Node Nat} {node' : Token → Expr → Node Expr}
    (hnode : ∀ t (s : Reading) e ts, put one s (.mk (node' t e), ts) =
      made (node t (put one s (e, ts)).1) (put one s (e, ts)).2) :
    Follows one depth (leading isLeading node x tighter)
      (Statement.leading isLeading node' deeper tighter') := by
  rintro ⟨_ | ⟨t, rest⟩, d, locals, g⟩ hs
  · exact htighter _ hs
  simp only [Read.leading, Statement.leading, run_bind_peek, List.head?_cons]
  by_cases ht : isLeading t = true
  · simp only [if_pos ht, run_bind_skip, List.tail_cons]
    rcases hx with ⟨rfl, hd⟩ | ⟨hd, p, rfl, hx⟩
    · exact run_bind_nested_of_le (by exact Nat.le_of_eq (hd.symm.trans hs.symm)) _ _ _
    · rw [except_map_bind]
      refine ((hx.nested hd _).run_bind (by exact hs) _).trans (bind_congr fun e => ?_)
      exact congrArg Except.ok (hnode t _ e.1 e.2).symm
  · simp only [if_neg ht]
    exact htighter _ hs

/-! ### History and primaries -/

theorem follows_histories (fuel : Nat) (e : Parsed Expr) :
    (histories fuel (put one s e).1).run (put one s e).2 =
      (Statement.histories fuel e.1 e.2).map (put one s) := by
  induction fuel generalizing e with
  | zero => rfl
  | succ fuel ih =>
    obtain ⟨e, _ | ⟨t, rest⟩⟩ := e
    · rfl
    simp only [histories, Statement.histories, run_bind_peek, tokens_put, List.head?_cons]
    by_cases ht : t.kind = .openBracket
    · simp only [if_pos ht, run_bind_skip, tokens_put, List.tail_cons, except_map_bind,
        run_bind_expect]
      refine bind_congr fun number => ?_
      by_cases hdot : number.1.text.toList.contains '.' = true
      · simp only [if_pos hdot]
        rfl
      · simp only [if_neg hdot, except_map_bind, run_bind_expect]
        refine bind_congr fun bracket => ?_
        cases hoffset : offset number.1 with
        | error f => rfl
        | ok bars =>
          have := ih (.mk (.history e bars), bracket.2)
          rw [put_history] at this
          exact this
    · simp only [if_neg ht]
      rfl

theorem Follows.withHistory (hx : Follows one depth x p) :
    Follows one depth (withHistory x) (Statement.withHistory p) := by
  intro s hs
  rw [Read.withHistory, hx.run_bind hs, Statement.withHistory, except_map_bind]
  exact bind_congr fun e => follows_histories _ e

theorem Follows.arguments (hx : Follows one depth x p) (fuel : Nat) :
    Follows all depth (arguments x fuel) (Statement.arguments p fuel) := by
  induction fuel with
  | zero => exact fun _ _ => rfl
  | succ fuel ih =>
    intro s hs
    rw [Read.arguments, hx.run_bind hs, Statement.arguments, except_map_bind]
    refine bind_congr fun e => ?_
    rw [run_bind_peek]
    obtain ⟨e, _ | ⟨t, rest⟩⟩ := e
    · rfl
    simp only [tokens_put, List.head?_cons]
    by_cases ht : t.kind = .comma
    · simp only [if_pos ht, run_bind_skip, tokens_put, List.tail_cons, except_map_bind]
      refine (ih.run_bind (by exact hs) _).trans (bind_congr fun more => ?_)
      exact congrArg Except.ok (put_cons s e more.1 rest more.2).symm
    · simp only [if_neg ht]
      rfl

/-- The arguments of a call without the parenthesis behind them. -/
def parseAny (p : Parser) (ts : List Token) : Except Failure (Parsed (List Expr)) :=
  match ts with
  | [] => .ok ([], [])
  | t :: _ => if t.kind = .closeParen then .ok ([], ts) else Statement.arguments p ts.length ts

theorem callArguments_eq (p : Parser) (ts : List Token) : Statement.callArguments p ts =
    parseAny p ts >>= fun es => Statement.expect .closeParen es.2 >>= fun t => .ok (es.1, t.2) := by
  cases ts with
  | nil => rfl
  | cons t ts =>
    by_cases ht : t.kind = .closeParen
    · simp only [Statement.callArguments, parseAny, if_pos ht]
      rfl
    · simp only [Statement.callArguments, parseAny, if_neg ht]
      rfl

theorem Follows.anyArguments (hx : Follows one depth x p) :
    Follows all depth (anyArguments x) (parseAny p) := by
  rintro ⟨_ | ⟨t, rest⟩, d, locals, g⟩ hs
  · rfl
  simp only [Read.anyArguments, parseAny, run_bind_peek, List.head?_cons]
  by_cases ht : t.kind = .closeParen
  · simp only [if_pos ht]
    rfl
  · simp only [if_neg ht, run_bind_get]
    exact hx.arguments _ _ hs

theorem Follows.callArguments (hx : Follows one depth x p) :
    Follows all depth (callArguments x) (Statement.callArguments p) := by
  intro s hs
  rw [Read.callArguments, callArguments_eq, except_map_bind]
  refine (hx.anyArguments.run_bind hs _).trans (bind_congr fun es => ?_)
  rw [run_bind_expect, except_map_bind]
  rfl

theorem run_name (symbol : String) (s : Reading) :
    (name symbol).run s = .ok (put one s (.mk (.name symbol), s.tokens)) := by
  rw [put_name, name, run_bind_get]
  cases Program.lookup s.locals symbol <;> rfl

theorem Follows.primary (hx : Follows one depth x p) :
    Follows one depth (primary x) (Statement.primary p) := by
  rintro ⟨_ | ⟨t, rest⟩, d, locals, g⟩ hs
  · rfl
  simp only [Read.primary, Statement.primary, run_bind_peek, List.head?_cons]
  cases hk : t.kind with
  | number => rfl
  | text => rfl
  | openParen =>
    simp only [run_bind_skip, List.tail_cons, except_map_bind]
    refine (hx.run_bind (by exact hs) _).trans (bind_congr fun e => ?_)
    rw [run_bind_expect]
    rfl
  | word =>
    by_cases hkeyword : Token.keywords.contains t.lower = true
    · simp only [if_pos hkeyword]
      rfl
    · simp only [if_neg hkeyword, run_bind_skip, run_bind_peek, List.tail_cons]
      cases rest with
      | nil => exact run_name t.lower _
      | cons u rest =>
        simp only [List.head?_cons]
        by_cases hu : u.kind = .openParen
        · simp only [if_pos hu, run_bind_skip, List.tail_cons, except_map_bind]
          refine (hx.callArguments.run_bind (by exact hs) _).trans (bind_congr fun es => ?_)
          exact congrArg Except.ok (put_call _ es.1 es.2 t.lower).symm
        · simp only [if_neg hu]
          exact run_name t.lower _
  | _ => rfl

/-! ### Levels -/

/-- The readers of a level follow the parsers of a level. -/
structure FollowsLevel (depth : Nat) (level : Level) (parsers : Statement.Level) : Prop where
  group : Follows one depth level.group parsers.group
  negated : Follows one depth level.negated parsers.negated
  signed : Follows one depth level.signed parsers.signed

theorem followsLevel_levelOver {level : Level} {deeper : Option Statement.Level}
    (h : deeper = none ∧ depth = maxNesting ∨ depth < maxNesting ∧
      ∃ parsers, deeper = some parsers ∧ FollowsLevel (depth + 1) level parsers) :
    FollowsLevel depth (levelOver level) (Statement.levelOver deeper) := by
  have hgroup : Follows one depth (levelOver level).group (Statement.levelOver deeper).group := by
    rcases h with ⟨rfl, rfl⟩ | ⟨hd, parsers, rfl, h⟩
    · intro s hs
      have := run_bind_nested_of_le (Nat.le_of_eq hs.symm) s.tokens.head?
        (logicalChain "OR" isOr (logicalChain "AND" isAnd level.negated)) pure
      rw [bind_pure] at this
      exact this
    · have hlogical := (h.negated.logicalChain "AND" isAnd).logicalChain "OR" isOr
      exact fun s hs => hlogical.nested hd s.tokens.head? s hs
  have hsigned : Follows one depth (levelOver level).signed
      (Statement.levelOver deeper).signed := by
    refine Follows.leading ?_ hgroup.primary.withHistory _ fun t s e ts => put_unary s e ts t.text
    rcases h with ⟨rfl, hd⟩ | ⟨hd, parsers, rfl, h⟩
    · exact .inl ⟨rfl, hd⟩
    · exact .inr ⟨hd, _, rfl, h.signed⟩
  refine ⟨hgroup, ?_, hsigned⟩
  refine Follows.leading ?_ ((hsigned.leftChain _).leftChain _).comparison _
    fun t s e ts => put_negation s e ts
  rcases h with ⟨rfl, hd⟩ | ⟨hd, parsers, rfl, h⟩
  · exact .inl ⟨rfl, hd⟩
  · exact .inr ⟨hd, _, rfl, h.negated⟩

/-- **The counter counts the levels that are left**: at every depth the readers follow the parsers
with as many levels as there are below it. -/
theorem followsLevel_levels (left : Nat) (hd : depth + left = maxNesting) :
    FollowsLevel depth (levels (left + 1)) (Statement.levels left) := by
  induction left generalizing depth with
  | zero => exact followsLevel_levelOver (.inl ⟨rfl, hd⟩)
  | succ left ih =>
    exact followsLevel_levelOver (.inr ⟨by omega, _, rfl, ih (by omega)⟩)

/-- **Replacing names while reading is reading and replacing them afterwards.** -/
theorem follows_expression : Follows one 0 expression Statement.expression :=
  (followsLevel_levels maxNesting (Nat.zero_add _)).group

end

/-! ### Statements -/

theorem run_bind_target {β : Type} (f : Option String → Read β) (s : Reading) :
    (target >>= f).run s =
      Statement.target s.tokens >>= fun r => (f r.1).run { s with tokens := r.2 } := by
  obtain ⟨_ | ⟨t, _ | ⟨u, rest⟩⟩, d, locals, g⟩ := s
  · rfl
  · rfl
  rw [target, bind_assoc, run_bind_get]
  by_cases h : t.kind = .word ∧ u.isOperator ["="] = true
  · by_cases hkeyword : Token.keywords.contains t.lower = true
    · simp only [Statement.target, if_pos h, if_pos hkeyword]
      rfl
    · simp only [Statement.target, if_pos h, if_neg hkeyword]
      rfl
  · simp only [Statement.target, if_neg h]
    rfl

theorem run_target (s : Reading) : target.run s =
    (Statement.target s.tokens).map fun r => (r.1, { s with tokens := r.2 }) := by
  have := run_bind_target pure s
  rw [bind_pure] at this
  rw [this]
  cases Statement.target s.tokens <;> rfl

end Read

namespace Program

/-- Adds a statement that begins at a token: its expression, assigned to a name if there is one. -/
def Partial.add (p : Partial) (first : Token) (symbol : Option String) (e : Expr) :
    Except Statement.Failure Partial :=
  let r := Graph.graft (lookup p.locals) e p.graph
  match (r.2.shape? r.1).bind Shape.excess? with
  | some excess => .error (.at (.excess excess) (some first))
  | none =>
    .ok ⟨r.2, match symbol with
      | some s => assign s r.1 p.locals
      | none => p.locals, some r.1⟩

/-- What has been read, and what is left to read. -/
def Partial.reading (p : Partial) (ts : List Token) : Reading := ⟨ts, 0, p.locals, p.graph⟩

/-- A statement is read by itself and then added to what has been read before. -/
theorem run_statement (p : Partial) (first : Token) (ts : List Token) :
    (Read.statement first).run (p.reading ts) = do
      let (symbol, rest) ← Statement.target ts
      let (e, rest) ← Statement.expression rest
      let q ← p.add first symbol e
      return ((Graph.graft (lookup p.locals) e p.graph).1, q.reading rest) := by
  rw [Read.statement, Read.run_bind_target]
  refine bind_congr fun symbol => ?_
  refine (Read.follows_expression.run_bind rfl _).trans (bind_congr fun e => ?_)
  have hput : Read.put Read.one { p.reading ts with tokens := symbol.2 } e =
      ((Graph.graft (lookup p.locals) e.1 p.graph).1,
        ⟨e.2, 0, p.locals, (Graph.graft (lookup p.locals) e.1 p.graph).2⟩) := rfl
  rw [hput, Read.run_bind_get]
  simp only [Partial.add]
  cases ((Graph.graft (lookup p.locals) e.1 p.graph).2.shape?
    (Graph.graft (lookup p.locals) e.1 p.graph).1).bind Shape.excess? with
  | some excess => rfl
  | none => cases symbol.1 <;> rfl

theorem result_of_add {p q : Partial} {t : Token} {symbol : Option String} {e : Expr}
    (h : p.add t symbol e = .ok q) :
    q.result = some (Graph.graft (lookup p.locals) e p.graph).1 := by
  simp only [Partial.add] at h
  split at h <;> cases h
  rfl

/-- **A script is read statement by statement**: each is read by itself and added to what has been
read before. -/
theorem statements_succ (fuel : Nat) (p : Partial) (ts : List Token) :
    statements (fuel + 1) p ts = (match skipSeparators ts with
      | [] => .ok p
      | first :: rest => do
        let (symbol, rest) ← Statement.target (first :: rest)
        let (e, rest) ← Statement.expression rest
        let p ← p.add first symbol e
        match rest with
        | [] => return p
        | t :: _ =>
          if t.kind = .separator then statements fuel p rest
          else throw (.at (.unexpectedToken t.text) (some t))) := by
  rw [statements, script, Read.run_bind_modify, Read.run_bind_peek]
  cases hskip : skipSeparators ts with
  | nil => rfl
  | cons t us =>
    simp only [List.head?_cons]
    rw [StateT.run_bind]
    change ((Read.statement t).run (p.reading (t :: us)) >>= _) >>= _ = _
    rw [run_statement, bind_assoc, bind_assoc]
    refine bind_congr fun symbol => ?_
    simp only [bind_assoc]
    refine bind_congr fun e => ?_
    cases hadd : p.add t symbol.1 e.1 with
    | error f => rfl
    | ok q =>
      have hresult := result_of_add hadd
      obtain ⟨e, _ | ⟨u, vs⟩⟩ := e
      · change Except.ok (⟨q.graph, q.locals, some _⟩ : Partial) = .ok q
        rw [← hresult]
      · by_cases hu : u.kind = .separator
        · change StateT.run (if u.kind = .separator then script fuel (some _) else _) _ >>= _ = _
          rw [if_pos hu, ← hresult]
          exact (if_pos hu).symm
        · change StateT.run (if u.kind = .separator then script fuel (some _) else _) _ >>= _ = _
          rw [if_neg hu]
          exact (if_neg hu).symm

end Program

end BarScript
