import BarScript.Schema.Reader

/-!
# Settings

The settings are read from the variables of an environment.  A variable counts if its name in lower
case is `es_` followed by the name of a setting; of several variables for one setting the last
counts.  Settings without a variable have a default value.

Apart from the ASCII capitals the Kelvin sign is the only character whose lower case is an ASCII
letter.
-/

namespace BarScript

open Schema

/-- The settings. -/
structure Settings where
  appName : String
  environment : String
  debug : Bool
  version : String
  logLevel : String
  /-- How many compiled scripts are kept. -/
  compileCacheSize : Int
  /-- How many jobs of a batch may run at once. -/
  batchMaxWorkers : Option Int
  /-- Numbers closer than this count as equal in scripts. -/
  equalityTolerance : Float
  deriving Repr

namespace Settings

/-- The settings of an environment without variables. -/
def default : Settings where
  appName := "efinance Signals API"
  environment := "dev"
  debug := true
  version := "0.1.0"
  logLevel := "INFO"
  compileCacheSize := 512
  batchMaxWorkers := none
  equalityTolerance := 1e-4

/-- A character of a name in lower case, so far as that is ASCII. -/
def lowerCase (c : Char) : Char := if c = '\u212A' then 'k' else c.toLower

/-- What the name of a variable begins with. -/
def variableStart : List Char := ['e', 's', '_']

/-- The setting that a variable is for. -/
def settingOf? (name : String) : Option String :=
  let cs := name.toList.map lowerCase
  if variableStart.isPrefixOf cs then some (String.ofList (cs.drop variableStart.length)) else none

/-- The texts of the settings in an environment. -/
def members (entries : List (String × String)) : Json.Members :=
  .ofList (entries.filterMap fun v => (settingOf? v.1).map fun name => (name, .string v.2))

/-- The variable that is set while tests run. -/
def testVariable : String := "PYTEST_CURRENT_TEST"

/-- Whether tests run. -/
def isTest (entries : List (String × String)) : Bool :=
  entries.any fun v => v.1 == testVariable && !v.2.isEmpty

/-- The settings that are written down in an environment. -/
def written (entries : List (String × String)) : Checked Settings :=
  let members := members entries
  Settings.mk <$> withDefault ["app_name"] default.appName text members
    <*> withDefault ["environment"] default.environment text members
    <*> withDefault ["debug"] default.debug flag members
    <*> withDefault ["version"] default.version text members
    <*> withDefault ["log_level"] default.logLevel text members
    <*> withDefault ["compile_cache_size"] default.compileCacheSize whole members
    <*> withDefault ["batch_max_workers"] default.batchMaxWorkers (optional whole) members
    <*> withDefault ["equality_epsilon"] default.equalityTolerance number members

/-- The settings of an environment.  While tests run the environment is called `test`. -/
def ofVariables (entries : List (String × String)) : Checked Settings :=
  (written entries).map fun s => if isTest entries then { s with environment := "test" } else s

/-- What the log says of the settings. -/
def summary (s : Settings) : Json :=
  .object [("app_name", .string s.appName), ("environment", .string s.environment),
    ("debug", .bool s.debug), ("version", .string s.version),
    ("compile_cache_size", .int s.compileCacheSize)]

/-- All settings as a document. -/
def document (s : Settings) : Json :=
  .object [("app_name", .string s.appName), ("environment", .string s.environment),
    ("debug", .bool s.debug), ("version", .string s.version), ("log_level", .string s.logLevel),
    ("compile_cache_size", .int s.compileCacheSize),
    ("batch_max_workers", Json.ofOption .int s.batchMaxWorkers),
    ("equality_epsilon", .real s.equalityTolerance)]

end Settings

end BarScript
