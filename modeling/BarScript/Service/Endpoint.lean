import BarScript.Expr.Document
import BarScript.Log
import BarScript.Preset.Custom
import BarScript.Service.Body
import BarScript.Service.Reply
import BarScript.Service.Route
import BarScript.Settings
import BarScript.Strategy.Signal

/-!
# What each route does

A route computes a reply and the entries that it leaves in the log.  Entries about a request as a
whole carry the identifier of the request.
-/

namespace BarScript

/-- A reply with the entries that belong to it. -/
structure Response where
  reply : Reply
  log : List LogRecord

namespace Response

/-- A reply that leaves nothing in the log. -/
def silent (reply : Reply) : Response := ⟨reply, []⟩

/-- The response to a body, if it is understood. -/
def ofBody {α : Type} (reader : Schema.Reader α) (body : Body) (respond : α → Response) :
    Response :=
  match body.read reader with
  | .ok a => respond a
  | .error (.issues issues) => silent (.ofIssues issues)
  | .error .unreadable => silent (.detail 400 "There was an error parsing the body")

end Response

/-- A preset as a document.  All its parameters are shown as doubles. -/
def Preset.document (p : Preset) : Json :=
  .object [("key", .string p.key), ("name", .string p.name),
    ("description", .string p.description), ("buy_script", .string p.buyScript),
    ("sell_script", .string p.sellScript),
    ("parameters", .object (p.parameters.map fun q => (q.1, .real q.2.toFloat)))]

/-- An outcome as a document. -/
def Outcome.document (o : Outcome) : Json :=
  .object [("buy_signal", .bool o.buy), ("sell_signal", .bool o.sell),
    ("value", Json.ofOption .real o.value), ("error", Json.ofOption .string o.error)]

/-- The result of compiling a script as a document. -/
def CompileError.document (e : CompileError) : Json :=
  let position := match e with
    | .parse p => p.position
    | _ => none
  .object [("ok", .bool false), ("ast", .null), ("error", .string e.message),
    ("position", Json.ofOption (fun n : Nat => .int n) position)]

/-- A compiled script as a document. -/
def Rule.document (r : Rule) : Json :=
  .object [("ok", .bool true), ("ast", r.formula.expr.document), ("error", .null),
    ("position", .null)]

namespace Endpoint

open Response

/-- What the routes need to know of the service and of the request. -/
structure Context where
  settings : Settings
  /-- The identifier of the request. -/
  correlation : Json

/-- The logger of the routes. -/
def logger : String := "efinance_signals.api.strategy_scripts"

/-- The logger of signals. -/
def signalLogger : String := "efinance_signals.services.strategy_signals"

/-- An entry about a request. -/
def entry (c : Context) (message : String) (details : Json.Members) : LogRecord :=
  ⟨logger, LogRecord.info, message, ("correlation_id", c.correlation) :: details, none⟩

/-- The reply for a preset that does not exist. -/
def noPreset : Response := silent (.detail 404 "Preset not found")

/-- A word that the service is there. -/
def root (c : Context) : Response :=
  silent (.ok (.object [("message", .string (c.settings.appName ++ " is running")),
    ("environment", .string c.settings.environment)]))

/-- The state of the service. -/
def health (c : Context) : Response :=
  silent (.ok (.object [("status", .string "ok"), ("service", .string c.settings.appName),
    ("environment", .string c.settings.environment)]))

/-- All presets. -/
def presets : Response := silent (.ok (.array (Preset.all.map Preset.document)))

/-- One preset. -/
def preset (key : String) : Response :=
  match Preset.find? key with
  | none => noPreset
  | some p => silent (.ok p.document)

/-- A preset with other parameters. -/
def customize (key : String) (body : CustomizeBody) : Response :=
  if (Preset.find? key).isNone then noPreset
  else match Preset.customize key (body.parameters.map fun q => (q.1, some (.real q.2))) with
    | .ok p => silent (.ok p.document)
    | .error .reserved => silent .failure
    | .error .tooLarge => silent .failure
    | .error (.script (.offsetTooLong _)) => silent .failure
    | .error e => silent (.detail 400 e.message)

/-- The tree of a script, or its error. -/
def compile (body : CompileBody) : Response :=
  match Rule.compile body.script with
  | .ok rule => silent (.ok rule.document)
  | .error (.offsetTooLong _) => silent .failure
  | .error e =>
    if body.raiseOnError then silent (.detail 400 e.message) else silent (.ok e.document)

/-- The outcome of two scripts.  An error in it is logged. -/
def evaluate (c : Context) (body : EvaluateBody) : Response :=
  let market := body.snapshot.market c.settings.equalityTolerance
  match (Rules.runScripts body.buy body.sell (.start market)).1 with
  | .error _ => silent .failure
  | .ok outcome =>
    let log := match outcome.error with
      | none => []
      | some e =>
        [entry c "Script evaluation returned an error"
          [("symbol", .string body.snapshot.symbol), ("error", .string e)]]
    ⟨.ok outcome.document, log⟩

/-! ### Signals -/

/-- The snapshot of a symbol: the last one of those given. -/
def snapshot? (snapshots : List Snapshot) (symbol : String) : Option Snapshot :=
  snapshots.reverse.find? fun s => s.symbol == symbol

/-- The strategies with each of their symbols. -/
def occurrences (strategies : List Strategy) : List (Strategy × String) :=
  strategies.flatMap fun s => s.symbols.map fun symbol => (s, symbol)

/-- The jobs of strategies on snapshots, one for each symbol that has a snapshot. -/
def jobs (tolerance : Float) (body : SignalsBody) : List Job :=
  (occurrences body.strategies).filterMap fun o =>
    (snapshot? body.snapshots o.2).map fun s => (o.1, s.market tolerance)

/-- The symbols without a snapshot, each once, in the order in which they first occur. -/
def missing (body : SignalsBody) : List String :=
  (((occurrences body.strategies).map (·.2)).filter fun symbol =>
    (snapshot? body.snapshots symbol).isNone).eraseDups

/-- The warning about scripts that failed. -/
def fallbackWarning (s : Signal) : Option LogRecord :=
  if s.fallback then
    some ⟨signalLogger, LogRecord.warning,
      "Script strategy failed; falling back to threshold conditions",
      [("strategy_id", .string s.strategy), ("symbol", .string s.symbol),
        ("error", Json.ofOption .string s.error)], none⟩
  else none

/-- The signals of strategies on snapshots. -/
def signals (c : Context) (body : SignalsBody) : Response :=
  let jobs := jobs c.settings.equalityTolerance body
  let missing := missing body
  match Job.signals jobs c.settings.batchMaxWorkers with
  | .error _ => silent .failure
  | .ok results =>
    ⟨.ok (.object [("results", .array (results.map Signal.document)),
        ("missing_symbols", .array (missing.map .string))]),
      results.filterMap fallbackWarning ++
        [entry c "Evaluated strategy signals"
          [("jobs", .int jobs.length), ("missing", .int missing.length)]]⟩

/-- What a route responds to a body. -/
def respond (c : Context) (body : Body) : Route → Response
  | .root => root c
  | .health => health c
  | .presets => presets
  | .preset key => preset key
  | .customize key => ofBody CustomizeBody.reader body (customize key)
  | .compile => ofBody CompileBody.reader body compile
  | .evaluate => ofBody EvaluateBody.reader body (evaluate c)
  | .signals => ofBody SignalsBody.reader body (signals c)

end Endpoint

end BarScript
