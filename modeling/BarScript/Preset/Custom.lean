import BarScript.Preset.Catalogue
import BarScript.Rules

/-!
# Customized presets

`Preset.customize` takes a preset by its key and gives some of its parameters other values.  Each
setting is checked in its turn; then the scripts are compiled, so a preset that comes back has
scripts that run.
-/

namespace BarScript

/-- Why a preset cannot be customized. -/
inductive CustomError where
  /-- A setting with the name of the key itself. -/
  | reserved
  | unknownPreset (key : String)
  | unknownParameter (key parameter : String)
  | notNumber (parameter : String)
  | notPositive (parameter : String)
  | notWhole (parameter : String)
  /-- A whole number beyond the finite doubles. -/
  | tooLarge
  | script (error : CompileError)
  deriving Repr

/-- The wording of an error. -/
def CustomError.message : CustomError → String
  | reserved => "Parameter 'key' is reserved"
  | unknownPreset key => s!"Unknown preset '{key}'"
  | unknownParameter key parameter => s!"Preset '{key}' has no parameter '{parameter}'"
  | notNumber parameter => s!"Parameter '{parameter}' must be a number"
  | notPositive parameter => s!"Parameter '{parameter}' must be positive"
  | notWhole parameter => s!"Parameter '{parameter}' must be a whole number"
  | tooLarge => "int too large to convert to float"
  | script error => error.message

namespace Amount

/-- Whether a value is not above zero.  NaN is not. -/
def isNonPositive : Amount → Bool
  | whole n => decide (n ≤ 0)
  | real x => x ≤ 0

/-- Whether a value is a whole number that lies beyond the finite doubles. -/
def isTooLarge : Amount → Bool
  | whole n => (Number.ofInt? n).isNone
  | real _ => false

/-- Whether a value is a whole number. -/
def isWhole : Amount → Bool
  | whole _ => true
  | real x => Number.isWhole x

/-- Whether only whole numbers may take the place of a value. -/
def wantsWhole : Amount → Bool
  | whole _ => true
  | real _ => false

end Amount

namespace Preset

/-- The value that a setting gives to a parameter; a setting of `none` is no number.  The default
value of the preset decides whether it has to be whole. -/
def setting (p : Preset) (name : String) (value : Option Amount) :
    Except CustomError Amount :=
  match p.parameter? name, value with
  | none, _ => .error (.unknownParameter p.key name)
  | some _, none => .error (.notNumber name)
  | some default, some value =>
    if value.isNonPositive then .error (.notPositive name)
    else if default.wantsWhole && value.isTooLarge then .error .tooLarge
    else if default.wantsWhole && !value.isWhole then .error (.notWhole name)
    else .ok value

/-- Compiles both scripts of a preset. -/
def compile (p : Preset) : Except CompileError Rules := do
  let buy ← Rule.compile p.buyScript
  let sell ← Rule.compile p.sellScript
  return ⟨some buy, some sell⟩

/-- A preset with some settings, which are checked in order. -/
def customize (key : String) (settings : List (String × Option Amount)) :
    Except CustomError Preset := do
  if settings.any fun s => s.1 == "key" then throw .reserved
  match find? key with
  | none => throw (.unknownPreset key)
  | some preset =>
    let custom ← settings.foldlM
      (fun p s => (preset.setting s.1 s.2).map fun value => p.set s.1 value) preset
    if custom.parameters.any fun q => q.2.isTooLarge then throw .tooLarge
    match custom.compile with
    | .error e => throw (.script e)
    | .ok _ => return custom

end Preset

end BarScript
