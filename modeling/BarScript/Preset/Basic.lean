import BarScript.Number.Notation
import BarScript.Preset.Template

/-!
# Presets

A preset is a pair of script templates with values for their parameters.  Its scripts are the
templates filled with these values, each written as a number that a script can have.
-/

namespace BarScript

/-- The value of a parameter. -/
inductive Amount where
  | whole (n : Int)
  | real (x : Float)
  deriving Repr

namespace Amount

/-- The double of an amount, infinite if a whole number lies beyond the finite doubles. -/
def toFloat : Amount → Float
  | whole n => Float.ofInt n
  | real x => x

/-- The amount as a number of a script. -/
def scriptText (a : Amount) : String := Number.scriptText a.toFloat

/-- The amount as it is shown; a whole number has no point. -/
def text : Amount → String
  | whole n => Number.intText n
  | real x => Number.text x

end Amount

/-- A pair of script templates with the values of their parameters. -/
structure Preset where
  key : String
  name : String
  description : String
  buyTemplate : Template
  sellTemplate : Template
  /-- The parameters in the order in which they are shown. -/
  parameters : List (String × Amount)

namespace Preset

/-- The value of a parameter. -/
def parameter? (p : Preset) (name : String) : Option Amount :=
  (p.parameters.find? fun q => q.1 == name).map (·.2)

/-- The preset with another value for one of its parameters. -/
def set (p : Preset) (name : String) (value : Amount) : Preset :=
  { p with parameters := p.parameters.map fun q => if q.1 == name then (name, value) else q }

/-- The text that fills a slot. -/
def slotText (p : Preset) (name : String) : String :=
  ((p.parameter? name).map Amount.scriptText).getD ""

/-- The script for buying. -/
def buyScript (p : Preset) : String := p.buyTemplate.fill p.slotText

/-- The script for selling. -/
def sellScript (p : Preset) : String := p.sellTemplate.fill p.slotText

end Preset

end BarScript
