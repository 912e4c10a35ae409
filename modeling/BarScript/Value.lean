import BarScript.Market

/-!
# Values of scripts

A script computes numbers, booleans and texts, and it can hold a whole price list.  A value is
undefined where an indicator has not enough history.  A price list stands for its last item wherever
a number is needed.
-/

namespace BarScript

/-- The price lists a script can name. -/
inductive Line where
  | prices
  | highs
  | lows
  | volumes
  deriving Repr, DecidableEq

/-- The name of a price list. -/
def Line.name : Line → String
  | prices => "prices"
  | highs => "highs"
  | lows => "lows"
  | volumes => "volumes"

/-- The items of a price list; one that is not known has none. -/
def Series.line (s : Series) : Line → List Float
  | .prices => s.closes
  | .highs => (s.companion .highs).getD []
  | .lows => (s.companion .lows).getD []
  | .volumes => (s.companion .volumes).getD []

/-- A value of a script. -/
inductive Value where
  | undefined
  | number (x : Float)
  | boolean (b : Bool)
  | text (s : String)
  | series (line : Line) (points : List Float)
  deriving Repr, Inhabited

/-- The kinds of values. -/
inductive ValueKind where
  | undefined
  | number
  | boolean
  | text
  | series
  deriving Repr, DecidableEq

/-- The name of a kind of values. -/
def ValueKind.name : ValueKind → String
  | undefined => "undefined"
  | number => "number"
  | boolean => "boolean"
  | text => "string"
  | series => "series"

namespace Value

/-- The kind of a value. -/
def kind : Value → ValueKind
  | undefined => .undefined
  | number _ => .number
  | boolean _ => .boolean
  | text _ => .text
  | series _ _ => .series

/-- A number, or undefined for none. -/
def ofOption : Option Float → Value
  | some x => number x
  | none => undefined

/-- A price list as its last item; every other value as it is. -/
def collapse : Value → Value
  | series _ points => ofOption points.getLast?
  | v => v

/-- Whether a value counts as true: a number that is not zero, a text that is not empty. -/
def truthy : Value → Bool
  | undefined => false
  | number x => x != 0
  | boolean b => b
  | text s => !s.isEmpty
  | series _ points => match points.getLast? with
    | some x => x != 0
    | none => false

end Value

end BarScript
