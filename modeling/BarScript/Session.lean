import BarScript.Eval
import BarScript.Expr.Graph

/-!
# Evaluation that remembers

A `Session` evaluates formulas for one market and remembers three things (`Memo`): the result of
every call of a builtin function, every shifted history, and, while one formula is evaluated, the
value of every node at every number of bars it was looked at.  What is remembered of calls and
histories outlasts an evaluation, also one that fails.

A call is found again by the function, the bars one looks back, and keys of its arguments: of a
price list only the name and the length, of a number the number, zero being one key whatever its
sign, and NaN one key too.

Nothing bounds how deep a formula may be (`Session.evaluate`).  The stack of an interpreter does,
which is a parameter of its own (`Session.evaluateWithin`): it counts the levels of operands on the
way to the node that is being evaluated.
-/

namespace BarScript

/-! ### What is remembered -/

/-- What tells an argument of a call apart. -/
inductive ArgumentKey where
  | undefined
  | number (x : Float)
  | boolean (b : Bool)
  | text (s : String)
  | series (line : Line) (length : Nat)
  deriving Repr

namespace ArgumentKey

/-- Whether two numbers are the same key.  All NaN are one key here.  A table that compares objects
before numbers keeps two NaN apart that were computed separately, so it may compute a call again
where this one finds it; the result is the same, as no call tells one NaN from another. -/
def sameNumber (x y : Float) : Bool := x == y || (x.isNaN && y.isNaN)

/-- Whether two keys are the same. -/
def same : ArgumentKey → ArgumentKey → Bool
  | undefined, undefined => true
  | number x, number y => sameNumber x y
  | boolean a, boolean b => a == b
  | text s, text t => s == t
  | series line n, series line' n' => line == line' && n == n'
  | _, _ => false

instance : BEq ArgumentKey := ⟨same⟩

end ArgumentKey

/-- The key of an argument. -/
def Value.key : Value → ArgumentKey
  | undefined => .undefined
  | number x => .number x
  | boolean b => .boolean b
  | text s => .text s
  | series line points => .series line points.length

/-- What tells a call apart. -/
structure CallKey where
  function : Builtin
  arguments : List ArgumentKey
  bars : Int
  deriving Repr, BEq

/-- A call and its result, none if that is undefined. -/
structure CallEntry where
  key : CallKey
  result : Option Float
  deriving Repr

/-- What a session remembers. -/
structure Memo where
  /-- The calls, the latest one first. -/
  calls : List CallEntry
  shifted : Std.HashMap Int Series
  /-- The values of the nodes of the formula that is being evaluated. -/
  values : Std.HashMap (Nat × Int) Value

/-- Nothing remembered yet. -/
def Memo.empty : Memo := ⟨[], ∅, ∅⟩

/-- The remembered result of a call. -/
def Memo.call? (memo : Memo) (key : CallKey) : Option (Option Float) :=
  (memo.calls.find? fun e => e.key == key).map (·.result)

/-- An evaluation that can fail and that remembers also then. -/
abbrev Recall := ExceptT EvalError (StateM Memo)

instance : Inhabited (Meaning Recall) := ⟨fun _ => pure .undefined⟩

/-! ### Evaluation -/

/-- The history some bars ago, cut off once. -/
def recallSeries (market : Market) (bars : Int) : Recall Series := do
  if bars ≤ 0 then return market.series
  match (← get).shifted[bars]? with
  | some s => return s
  | none =>
    let s := market.series.shifted bars
    modify fun memo => { memo with shifted := memo.shifted.insert bars s }
    return s

/-- A call of a function, computed once for each key. -/
def recallCall (market : Market) (f : Builtin) (arguments : List Value) (bars : Int) :
    Recall Value := do
  let key : CallKey := ⟨f, arguments.map Value.key, bars⟩
  match (← get).call? key with
  | some result => return .ofOption result
  | none =>
    let s ← recallSeries market bars
    let result ← liftError (f.apply arguments s)
    modify fun memo => { memo with calls := ⟨key, result⟩ :: memo.calls }
    return .ofOption result

/-- Access to a market with a memory. -/
def Access.recall (market : Market) : Access Recall where
  seriesAt := recallSeries market
  call := recallCall market

/-- The value of a node, computed once for each number of bars. -/
def recallValue (position : Nat) (meaning : Meaning Recall) : Meaning Recall := fun bars => do
  match (← get).values[(position, bars)]? with
  | some v => return v
  | none =>
    let v ← meaning bars
    modify fun memo => { memo with values := memo.values.insert (position, bars) v }
    return v

/-- What the nodes of a graph mean. -/
def Graph.meanings (market : Market) (g : Graph) : Array (Meaning Recall) :=
  g.fold fun position n => recallValue position (n.eval market (Access.recall market))

/-- The value of a formula now. -/
def Formula.recall (market : Market) (f : Formula) : Recall Value :=
  (f.graph.meanings market).getD f.root default 0

/-! ### A bounded stack -/

/-- An evaluation that knows how many levels of operands it can still go down. -/
abbrev BoundedRecall := ReaderT Nat Recall

instance : Inhabited (Meaning BoundedRecall) := ⟨fun _ => pure .undefined⟩

/-- Access to a market with a memory, whatever levels are left. -/
def Access.boundedRecall (market : Market) : Access BoundedRecall where
  seriesAt bars := (recallSeries market bars : Recall Series)
  call f arguments bars := (recallCall market f arguments bars : Recall Value)

/-- The value of a node if there is a level left for it, its operands being one level down. -/
def boundedValue (position : Nat) (meaning : Meaning BoundedRecall) : Meaning BoundedRecall :=
  fun bars levels => match levels with
    | 0 => throw .tooDeep
    | levels + 1 => recallValue position (fun bars => meaning bars levels) bars

/-- What the nodes of a graph mean on a bounded stack. -/
def Graph.boundedMeanings (market : Market) (g : Graph) : Array (Meaning BoundedRecall) :=
  g.fold fun position n => boundedValue position (n.eval market (Access.boundedRecall market))

/-- The value of a formula now, on a stack with room for so many levels. -/
def Formula.boundedRecall (market : Market) (levels : Nat) (f : Formula) : Recall Value :=
  (f.graph.boundedMeanings market).getD f.root default 0 levels

/-! ### Sessions -/

/-- A market and what is remembered of it. -/
structure Session where
  market : Market
  memo : Memo

namespace Session

/-- A session at its start. -/
def start (market : Market) : Session := ⟨market, .empty⟩

/-- The session with the values of nodes forgotten. -/
def forget (s : Session) : Session := { s with memo := { s.memo with values := ∅ } }

/-- Carries out an evaluation, with the values of nodes forgotten before and after it.  A price
list becomes its last item. -/
def carryOut (x : Recall Value) (s : Session) : Except EvalError Value × Session :=
  let (result, memo) := x.run.run s.forget.memo
  (result.map Value.collapse, ({ s with memo } : Session).forget)

/-- Evaluates a formula. -/
def evaluate (f : Formula) (s : Session) : Except EvalError Value × Session :=
  s.carryOut (f.recall s.market)

/-- Evaluates a formula on a stack with room for so many levels.  An interpreter has such a bound,
which depends on its settings and on what else is on its stack, and going beyond it is an error like
others.  A formula with no more levels does not meet the bound. -/
def evaluateWithin (levels : Nat) (f : Formula) (s : Session) :
    Except EvalError Value × Session :=
  s.carryOut (f.boundedRecall s.market levels)

/-- The history some bars ago. -/
def seriesAt (bars : Int) (s : Session) : Series × Session :=
  let (result, memo) := (recallSeries s.market bars).run.run s.memo
  (match result with
    | .ok series => series
    | .error _ => s.market.series, { s with memo })

end Session

end BarScript
