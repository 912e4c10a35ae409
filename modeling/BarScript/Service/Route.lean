import BarScript.Service.Path

/-!
# Routes

A route is what a path leads to.  Each route answers one method.  A line break at the end of a path
does not count unless it belongs to the key of a preset.
-/

namespace BarScript

/-- The places of the service. -/
inductive Route where
  | root
  | health
  | presets
  | preset (key : String)
  | customize (key : String)
  | compile
  | evaluate
  | signals
  deriving Repr, DecidableEq

namespace Route

/-- The route of the segments of a path behind the first slash. -/
def ofSegments? : List String → Option Route
  | [""] => some root
  | ["health"] => some health
  | ["api", "strategy-scripts", "presets"] => some presets
  | ["api", "strategy-scripts", "presets", key] => if key.isEmpty then none else some (preset key)
  | ["api", "strategy-scripts", "presets", key, "customize"] =>
    if key.isEmpty then none else some (customize key)
  | ["api", "strategy-scripts", "compile"] => some compile
  | ["api", "strategy-scripts", "evaluate"] => some evaluate
  | ["api", "strategy-scripts", "signals"] => some signals
  | _ => none

/-- The route of a path just as it is. -/
def ofExactPath? (path : List Char) : Option Route :=
  match Path.segments path with
  | [] :: rest => ofSegments? (rest.map String.ofList)
  | _ => none

/-- The route of a path. -/
def ofPath? (path : List Char) : Option Route :=
  (ofExactPath? path).or (if path.getLast? = some '\n' then ofExactPath? path.dropLast else none)

/-- The method that a route answers. -/
def method : Route → String
  | root | health | presets | preset _ => "GET"
  | customize _ | compile | evaluate | signals => "POST"

end Route

end BarScript
