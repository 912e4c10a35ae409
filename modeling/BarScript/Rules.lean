import BarScript.Program
import BarScript.Session
import BarScript.Text.Blank

/-!
# Trading rules

A `Rule` is a script compiled to one expression whose names all mean something.  `Rules` are a rule
for buying and one for selling, each of which may be missing.  They are written either as two
scripts or as one script that assigns `buy` and `sell`.

Running rules (`Rules.run`) evaluates first the one and then the other in the same session, by
`Session.evaluate` unless another evaluator is given.  If either fails the outcome is the first
error and no signal.
-/

namespace BarScript

/-- A compiled script. -/
structure Rule where
  source : String
  formula : Formula

/-- Why a script cannot be compiled. -/
inductive CompileError where
  | parse (error : ParseError)
  | unknown (symbol : UnknownSymbol)
  /-- A number of bars with too many digits. -/
  | offsetTooLong (digits : Nat)
  deriving Repr

/-- The error of a script that cannot be read. -/
def CompileError.ofParse : ParseFailure → CompileError
  | .parse e => parse e
  | .offsetTooLong digits => offsetTooLong digits

/-- The wording of an error. -/
def CompileError.message : CompileError → String
  | parse e => e.message
  | unknown symbol => symbol.message
  | offsetTooLong digits => Numeral.tooLongMessage digits

namespace Rule

/-- The rule of a formula whose names mean something. -/
def ofFormula (source : String) (f : Formula) : Except CompileError Rule :=
  match f.expr.checkNames with
  | .ok () => .ok ⟨source, f⟩
  | .error e => .error (.unknown e)

/-- Compiles a script.  Blanks around it do not belong to it. -/
def compile (script : String) : Except CompileError Rule := do
  let source := Text.strip script
  if source.isEmpty then throw (.parse Program.emptyScript)
  let program ← (Program.parse source).mapError .ofParse
  ofFormula source (program.formula program.result)

end Rule

/-- The two sides of a trade. -/
inductive Side where
  | buy
  | sell
  deriving Repr, DecidableEq

/-- The side of a name. -/
def Side.ofName? : String → Option Side
  | "buy" => some buy
  | "sell" => some sell
  | _ => none

/-- The wording for a side that does not exist. -/
def Side.unknownMessage : String := "side must be 'buy' or 'sell'"

/-- A rule for each side, where there is one. -/
structure Rules where
  buy : Option Rule
  sell : Option Rule

namespace Rules

/-- Whether a script has nothing but blanks. -/
def isBlank (script : Option String) : Bool := (Text.strip (script.getD "")).isEmpty

/-- Compiles a script unless it is blank. -/
def compileSide (script : Option String) : Except CompileError (Option Rule) :=
  if isBlank script then .ok none else (Rule.compile (script.getD "")).map some

/-- Compiles two scripts; a blank one is left out. -/
def compile (buy sell : Option String) : Except CompileError Rules := do
  let buy ← compileSide buy
  let sell ← compileSide sell
  return ⟨buy, sell⟩

/-- Compiles one script that assigns `buy`, `sell` or both.  Its other names are local to it. -/
def ofCombined (script : Option String) : Except CompileError Rules := do
  let source := Text.strip (script.getD "")
  if source.isEmpty then throw (.parse Program.emptyScript)
  let program ← (Program.parse source).mapError .ofParse
  match program.local? "buy", program.local? "sell" with
  | none, none => throw (.parse ⟨.noSides, none, none⟩)
  | buy, sell =>
    let buy ← buy.mapM (Rule.ofFormula source)
    let sell ← sell.mapM (Rule.ofFormula source)
    return ⟨buy, sell⟩

end Rules

/-! ### Running -/

/-- The result of a run. -/
structure Outcome where
  buy : Bool
  sell : Bool
  value : Option Float
  error : Option String
  deriving Repr

/-- The outcome of a failure: no signals. -/
def Outcome.failed (error : String) : Outcome := ⟨false, false, none, some error⟩

/-- Why a run has no outcome. -/
inductive RunError where
  | eval (error : EvalError)
  | offsetTooLong (digits : Nat)
  deriving Repr

/-- The number of a value. -/
def Value.number? : Value → Option Float
  | number x => some x
  | _ => none

/-- The outcome of evaluating one side alone: its signal, its value, or the error that is
reported. -/
def solo (r : Except EvalError Value) : Except EvalError (Except String Value) :=
  match r with
  | .ok v => .ok (.ok v)
  | .error e => if e.reported then .ok (.error e.message) else .error e

/-- How a session evaluates formulas. -/
abbrev Evaluator := Formula → Session → Except EvalError Value × Session

namespace Rules

/-- Evaluates a rule, if there is one. -/
def runSide (rule : Option Rule) (s : Session) (evaluate : Evaluator := Session.evaluate) :
    Except EvalError (Option (Except String Value)) × Session :=
  match rule with
  | none => (.ok none, s)
  | some r =>
    let (result, s) := evaluate r.formula s
    ((solo result).map some, s)

/-- The outcome of both sides.  With one side the value is that of the side, if it is a number. -/
def outcome : Option (Except String Value) → Option (Except String Value) → Outcome
  | some (.error e), _ => .failed e
  | _, some (.error e) => .failed e
  | none, none => ⟨false, false, none, none⟩
  | some (.ok v), none => ⟨v.truthy, false, v.number?, none⟩
  | none, some (.ok v) => ⟨false, v.truthy, v.number?, none⟩
  | some (.ok v), some (.ok w) => ⟨v.truthy, w.truthy, none, none⟩

/-- Runs both rules, the one for buying first. -/
def run (rules : Rules) (s : Session) (evaluate : Evaluator := Session.evaluate) :
    Except RunError Outcome × Session :=
  match runSide rules.buy s evaluate with
  | (.error e, s) => (.error (.eval e), s)
  | (.ok buy, s) =>
    match runSide rules.sell s evaluate with
    | (.error e, s) => (.error (.eval e), s)
    | (.ok sell, s) => (.ok (outcome buy sell), s)

/-- Runs rules that may not have been compiled; the error of that is the outcome. -/
def runCompiled (rules : Except CompileError Rules) (s : Session) :
    Except RunError Outcome × Session :=
  match rules with
  | .ok rules => rules.run s
  | .error (.offsetTooLong digits) => (.error (.offsetTooLong digits), s)
  | .error e => (.ok (.failed e.message), s)

/-- Runs two scripts. -/
def runScripts (buy sell : Option String) (s : Session) : Except RunError Outcome × Session :=
  runCompiled (compile buy sell) s

/-- Runs one script that assigns both sides. -/
def runCombined (script : Option String) (s : Session) : Except RunError Outcome × Session :=
  runCompiled (ofCombined script) s

/-- Runs one script as one side.  A blank script is an error here. -/
def runSingle (script : String) (side : Side) (s : Session) : Except RunError Outcome × Session :=
  runCompiled ((Rule.compile script).map fun r => match side with
    | .buy => ⟨some r, none⟩
    | .sell => ⟨none, some r⟩) s

end Rules

end BarScript
