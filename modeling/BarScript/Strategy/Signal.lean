import BarScript.Json.Basic
import BarScript.Preset.Catalogue
import BarScript.Rules
import BarScript.Strategy.Basic

/-!
# The signals of a strategy

A strategy whose scripts are in use takes its signals from them.  If they fail, or if there are
none, the thresholds decide.  The scripts are those that are written down unless both are blank and
a template is named; a template is the key of a preset or else of a finished script.
-/

namespace BarScript

/-- What a signal rests on. -/
inductive SignalMode where
  | script
  | simple
  /-- Neither scripts nor thresholds. -/
  | none
  deriving Repr, DecidableEq

/-- The name of a mode. -/
def SignalMode.name : SignalMode → String
  | script => "script"
  | simple => "simple"
  | none => "none"

/-- What a strategy says of one symbol. -/
structure Signal where
  strategy : String
  symbol : String
  mode : SignalMode
  buy : Bool
  sell : Bool
  value : Option Float
  /-- Why the scripts failed. -/
  error : Option String
  /-- Whether the thresholds stand in for scripts that failed. -/
  fallback : Bool
  deriving Repr

/-- A signal as a document. -/
def Signal.document (s : Signal) : Json :=
  .object [("strategy_id", .string s.strategy), ("symbol", .string s.symbol),
    ("mode", .string s.mode.name), ("buy_signal", .bool s.buy), ("sell_signal", .bool s.sell),
    ("value", Json.ofOption .real s.value), ("error", Json.ofOption .string s.error),
    ("fallback", .bool s.fallback)]

/-! ### Thresholds -/

/-- Whether a quote reaches one of the levels.  A change is a fraction, its level a percentage. -/
def Thresholds.reached (t : Thresholds) (reaches : Float → Float → Bool) (q : Quote) : Bool :=
  t.enabled && (t.price.any (reaches q.price) || t.change.any fun c => reaches q.change (c / 100))

/-- Whether a quote is low enough to buy. -/
def ThresholdPair.buys (t : ThresholdPair) (q : Quote) : Bool :=
  t.buy.any fun b => b.reached (fun x level => x ≤ level) q

/-- Whether a quote is high enough to sell. -/
def ThresholdPair.sells (t : ThresholdPair) (q : Quote) : Bool :=
  t.sell.any fun s => s.reached (fun x level => x ≥ level) q

/-! ### Scripts -/

/-- Where the rules of a strategy's scripts come from. -/
inductive RuleSource where
  | scripts (buy sell : Option String)
  /-- One script that assigns both sides. -/
  | combined (script : String)
  | unknownTemplate (template : String)
  deriving Repr, DecidableEq

namespace StrategyScript

/-- Whether a side has a script. -/
def isWritten (s : StrategyScript) : Bool := !Rules.isBlank s.buy || !Rules.isBlank s.sell

/-- The rules that a template stands for. -/
def templateSource (template : String) : RuleSource :=
  match Preset.find? template, Preset.combined? template with
  | some p, _ => .scripts (some p.buyScript) (some p.sellScript)
  | none, some script => .combined script
  | none, none => .unknownTemplate template

/-- The rules in use.  An empty template is none. -/
def source (s : StrategyScript) : RuleSource :=
  match s.template with
  | none => .scripts s.buy s.sell
  | some template =>
    if s.isWritten || template.isEmpty then .scripts s.buy s.sell else templateSource template

end StrategyScript

/-- Runs rules in a session. -/
def RuleSource.run (source : RuleSource) (s : Session) : Except RunError Outcome × Session :=
  match source with
  | scripts buy sell => Rules.runScripts buy sell s
  | combined script => Rules.runCombined (some script) s
  | unknownTemplate template => (.ok (.failed s!"Unknown strategy template '{template}'"), s)

namespace Strategy

/-- The signal of the thresholds. -/
def thresholdSignal (s : Strategy) (market : Market) : Signal :=
  match s.thresholds with
  | none => ⟨s.id, market.symbol, .none, false, false, none, none, false⟩
  | some t =>
    ⟨s.id, market.symbol, .simple, t.buys market.quote, t.sells market.quote, none, none, false⟩

/-- The signal of an outcome of the scripts. -/
def scriptSignal (s : Strategy) (market : Market) (outcome : Outcome) : Signal :=
  match outcome.error with
  | none =>
    ⟨s.id, market.symbol, .script, outcome.buy, outcome.sell, outcome.value, none, false⟩
  | some e => { s.thresholdSignal market with error := some e, fallback := true }

/-- The signal of a strategy in a session. -/
def signalIn (s : Strategy) (session : Session) : Except RunError Signal × Session :=
  match s.activeScript? with
  | none => (.ok (s.thresholdSignal session.market), session)
  | some script =>
    let (result, after) := script.source.run session
    (result.map (s.scriptSignal session.market), after)

/-- The signal of a strategy on a market that nothing has been evaluated on yet. -/
def signal (s : Strategy) (market : Market) : Except RunError Signal :=
  (s.signalIn (.start market)).1

end Strategy

/-! ### Batches -/

/-- A strategy and the market it is asked about. -/
abbrev Job := Strategy × Market

/-- Why a batch has no signals. -/
inductive BatchError where
  | noWorkers
  | run (error : RunError)
  deriving Repr

/-- The wording for a batch without workers. -/
def BatchError.noWorkersMessage : String := "max_workers must be greater than 0"

/-- The signals of jobs, one for each in their order, or the error of the first job that has one.
Any number of workers gives the same signals, but there has to be one if there is a job. -/
def Job.signals (jobs : List Job) (workers : Option Int) : Except BatchError (List Signal) :=
  if jobs.isEmpty then .ok []
  else if workers.any fun n => n ≤ 0 then .error .noWorkers
  else (jobs.mapM fun (j : Job) => j.1.signal j.2).mapError .run

end BarScript
