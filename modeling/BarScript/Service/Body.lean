import BarScript.Json.Reader
import BarScript.Strategy.Document
import BarScript.Text.Encoding

/-!
# Bodies of requests

What each route that takes a body expects in it, and how a body is read.  The paths of issues begin
with the word `body`.  A body that is not said to be JSON is a text and no record, whatever it says.
-/

namespace BarScript

open Schema

/-- A request for a preset with some parameters changed. -/
structure CustomizeBody where
  parameters : List (String × Float)

/-- A request to compile a script. -/
structure CompileBody where
  script : String
  /-- Whether an error of the script makes the request fail. -/
  raiseOnError : Bool

/-- A request to evaluate two scripts on a snapshot. -/
structure EvaluateBody where
  buy : Option String
  sell : Option String
  snapshot : Snapshot

/-- A request for the signals of strategies on snapshots. -/
structure SignalsBody where
  strategies : List Strategy
  snapshots : List Snapshot

/-- Reads a request for a changed preset. -/
def CustomizeBody.reader : Reader CustomizeBody := record fun members =>
  CustomizeBody.mk <$> withDefault ["parameters"] [] (table number) members

/-- Reads a request to compile. -/
def CompileBody.reader : Reader CompileBody := record fun members =>
  CompileBody.mk <$> required "script" nonEmptyText members
    <*> withDefault ["raise_on_error"] false flag members

/-- Reads a request to evaluate. -/
def EvaluateBody.reader : Reader EvaluateBody := record fun members =>
  EvaluateBody.mk <$> withDefault ["buy_script"] none (optional text) members
    <*> withDefault ["sell_script"] none (optional text) members
    <*> required "snapshot" Snapshot.reader members

/-- Reads a request for signals. -/
def SignalsBody.reader : Reader SignalsBody := record fun members =>
  SignalsBody.mk <$> withDefault ["strategies"] [] (list Strategy.reader) members
    <*> withDefault ["snapshots"] [] (list Snapshot.reader) members

/-- A body as it arrives. -/
structure Body where
  text : String
  /-- Whether the request says that the body is JSON. -/
  isJson : Bool
  deriving Repr, DecidableEq

namespace Body

/-- Why there is no request in a body. -/
inductive Fault where
  | issues (issues : List Issue)
  /-- Bytes that are no text in their encoding, or a text beyond the limits of what is read. -/
  | unreadable

/-- The path of the body itself. -/
def here : Step := .member "body"

/-- An issue as one of a body. -/
def ofIssue (i : Issue) : Issue :=
  { i with
    path := here :: i.path
    kind := match i.kind with
      | .notRecord => .notBodyRecord
      | kind => kind }

/-- The value of a JSON text.  There is no value at fault if the text is malformed. -/
def parse (text : String) : Except Fault Json :=
  match Text.Encoding.readDetected text.toList with
  | none => .error .unreadable
  | some cs =>
    match Json.parse (String.ofList cs) with
    | .ok j => .ok j
    | .error (.malformed position) =>
      .error (.issues [⟨[here, .item position], .malformed, .object []⟩])
    | .error _ => .error .unreadable

/-- The value of a body. -/
def value (b : Body) : Except Fault Json :=
  if b.text.isEmpty then .error (.issues [⟨[here], .missing, .null⟩])
  else if b.isJson then parse b.text
  else .ok (.string b.text)

/-- Reads a body. -/
def read {α : Type} (reader : Reader α) (b : Body) : Except Fault α := do
  match reader (← b.value) with
  | .valid a => return a
  | .invalid issues => throw (.issues (issues.map ofIssue))

end Body

end BarScript
