import BarScript.Json.Writer

/-!
# Log records

A log record is written as one line: the JSON text of an object with the level, the logger and the
message, then the details of the record, then the text of the failure it is about.  A detail or a
failure with the name of an earlier member takes its place.
-/

namespace BarScript

/-- Something that went wrong: its kind and what it says. -/
structure LoggedFailure where
  kind : String
  message : String
  deriving Repr, DecidableEq

/-- The text of a failure: its kind alone if it says nothing. -/
def LoggedFailure.text (f : LoggedFailure) : String :=
  if f.message.isEmpty then f.kind else f.kind ++ ": " ++ f.message

/-- An entry of the log. -/
structure LogRecord where
  logger : String
  /-- The name of how grave the entry is. -/
  level : String
  message : String
  /-- Further members of the entry. -/
  details : Json.Members
  failure : Option LoggedFailure

namespace LogRecord

/-- The name of a level, which goes up in steps of ten, unless it has been given another one. -/
def levelName (level : Int) : String :=
  match level with
  | 0 => "NOTSET"
  | 10 => "DEBUG"
  | 20 => "INFO"
  | 30 => "WARNING"
  | 40 => "ERROR"
  | 50 => "CRITICAL"
  | n => "Level " ++ Number.intText n

/-- The level of what is worth knowing. -/
def info : String := levelName 20

/-- The level of what needs attention. -/
def warning : String := levelName 30

/-- The members of a record. -/
def members (r : LogRecord) : Json.Members :=
  let base : Json.Members :=
    [("level", .string r.level), ("logger", .string r.logger),
      ("message", .string r.message)]
  let detailed := r.details.foldl (fun ms m => ms.put m.1 m.2) base
  match r.failure with
  | none => detailed
  | some f => detailed.put "exc_info" (.string f.text)

/-- A record as a document. -/
def document (r : LogRecord) : Json := .object r.members

/-- The line of a record. -/
def line (r : LogRecord) : String := r.document.render .unicode

end LogRecord

end BarScript
