import BarScript.EvalError
import BarScript.Indicator.Average
import BarScript.Indicator.Crossing
import BarScript.Indicator.Momentum
import BarScript.Indicator.Stochastic

/-!
# The variables and functions of scripts

Three families of functions exist.  A `PriceFunction` is the latest point of an indicator over one
price list, the closes unless the first argument is another list.  A `BarFunction` needs highs, lows
and closes, which are either all given or all taken from the market.  An `Arithmetic` function takes
numbers.  Apart from price lists, indicators take settings: whole numbers, and for the Bollinger
bands a multiplier that may have a fraction (`Parameter`).

A function whose argument is undefined is undefined, as is one without enough history.
-/

namespace BarScript

/-! ### Variables -/

/-- What a name can stand for. -/
inductive Variable where
  | close
  | change
  | changePercent
  | line (line : Line)
  | symbol
  | truth (value : Bool)
  deriving Repr, DecidableEq

/-- The names of the variables.  The singular names of the lists are other names for them. -/
def Variable.names : List (String × Variable) :=
  [("close", .close), ("price", .close), ("change", .change), ("change_percent", .changePercent),
    ("prices", .line .prices), ("highs", .line .highs), ("lows", .line .lows),
    ("volumes", .line .volumes), ("high", .line .highs), ("low", .line .lows),
    ("volume", .line .volumes), ("symbol", .symbol), ("true", .truth true),
    ("false", .truth false)]

/-- The variable of a name. -/
def Variable.ofName? (name : String) : Option Variable :=
  (names.find? fun v => v.1 == name).map (·.2)

/-- The close some bars ago.  Now it is the quoted price, before the first bar there is none, and
after the last bar there cannot be one. -/
def Market.closeAt (m : Market) (bars : Int) : Except EvalError (Option Float) :=
  if bars = 0 then .ok (some m.quote.price)
  else
    let index : Int := m.series.length - 1 - bars
    if index < 0 then .ok none
    else match m.series.closes[index.toNat]? with
      | some x => .ok (some x)
      | none => .error .noSuchBar

/-- The change some bars ago, as a fraction of the close before.  Now it is the quoted change. -/
def Market.changeAt (m : Market) (bars : Int) : Except EvalError (Option Float) :=
  if bars = 0 then .ok (some m.quote.change)
  else do
    let now ← m.closeAt bars
    let before ← m.closeAt (bars + 1)
    match now, before with
    | some now, some before =>
      match Scalar.relativeChange before now with
      | .ok x => return some x
      | .error f => throw (.fault f)
    | _, _ => return none

/-! ### Functions -/

/-- Functions of one price list. -/
inductive PriceFunction where
  | sma
  | ema
  | rsi
  | roc
  | highest
  | lowest
  | macd
  | macdSignal
  | macdHistogram
  | bandUpper
  | bandMiddle
  | bandLower
  deriving Repr, DecidableEq

/-- Functions of highs, lows and closes. -/
inductive BarFunction where
  | kdjK
  | kdjD
  | kdjJ
  | williamsR
  deriving Repr, DecidableEq

/-- Functions of numbers. -/
inductive Arithmetic where
  | abs
  | round
  | floor
  | ceil
  | max
  | min
  deriving Repr, DecidableEq

/-- A function whose result depends on its arguments and the history only. -/
inductive Builtin where
  | price (f : PriceFunction)
  | bar (f : BarFunction)
  | arithmetic (f : Arithmetic)
  deriving Repr, DecidableEq

/-- A function that a script can call: a builtin one, or a crossing from below or from above. -/
inductive Function where
  | builtin (f : Builtin)
  | crossing (up : Bool)
  deriving Repr, DecidableEq

/-- The names of the builtin functions. -/
def Builtin.names : List (String × Builtin) :=
  [("sma", .price .sma), ("ema", .price .ema), ("rsi", .price .rsi), ("roc", .price .roc),
    ("highest", .price .highest), ("lowest", .price .lowest), ("macd", .price .macd),
    ("macd_signal", .price .macdSignal), ("macd_histogram", .price .macdHistogram),
    ("bb_upper", .price .bandUpper), ("bb_middle", .price .bandMiddle),
    ("bb_lower", .price .bandLower), ("kdj_k", .bar .kdjK), ("kdj_d", .bar .kdjD),
    ("kdj_j", .bar .kdjJ), ("wr", .bar .williamsR), ("abs", .arithmetic .abs),
    ("round", .arithmetic .round), ("floor", .arithmetic .floor), ("ceil", .arithmetic .ceil),
    ("max", .arithmetic .max), ("min", .arithmetic .min)]

/-- The names of the functions. -/
def Function.names : List (String × Function) :=
  ("crossover", .crossing true) :: ("crossunder", .crossing false) ::
    Builtin.names.map fun f => (f.1, .builtin f.2)

/-- The function of a name. -/
def Function.ofName? (name : String) : Option Function :=
  (names.find? fun f => f.1 == name).map (·.2)

/-- The name of a builtin function. -/
def Builtin.name (f : Builtin) : String :=
  ((names.find? fun g => g.2 = f).map (·.1)).getD ""

/-! ### Settings of indicators -/

/-- A setting of an indicator. -/
inductive Setting where
  | whole (n : Int)
  | fraction (x : Float)
  deriving Repr

/-- A place for a setting. -/
structure Parameter where
  /-- Whether the setting may have a fraction. -/
  fractional : Bool
  /-- The setting if none is given; without it one has to be given. -/
  default? : Option Setting
  deriving Repr

/-- A whole setting that has to be given. -/
def Parameter.required : Parameter := ⟨false, none⟩

/-- A whole setting with a default. -/
def Parameter.optional (n : Int) : Parameter := ⟨false, some (.whole n)⟩

/-- The settings of a function of one price list. -/
def PriceFunction.parameters : PriceFunction → List Parameter
  | sma | ema | roc | highest | lowest => [.required]
  | rsi => [.optional 14]
  | macd | macdSignal | macdHistogram => [.optional 12, .optional 26, .optional 9]
  | bandUpper | bandMiddle | bandLower => [.optional 20, ⟨true, some (.fraction 2.0)⟩]

/-- The settings of a function of highs, lows and closes. -/
def BarFunction.parameters : BarFunction → List Parameter
  | kdjK | kdjD | kdjJ => [.optional 9, .optional 3, .optional 3]
  | williamsR => [.optional 14]

/-- The latest of the points of an indicator. -/
def latestOf {β : Type} (f : β → Float) (points : Except Fault (List β)) :
    Except Fault (Option Float) :=
  points.map fun ps => (Indicator.latest ps).map f

open Indicator in
/-- The latest point of an indicator over one price list. -/
def PriceFunction.compute (prices : List Float) :
    PriceFunction → List Setting → Except Fault (Option Float)
  | sma, [.whole n] => latestOf id (Indicator.sma prices n)
  | ema, [.whole n] => latestOf id (Indicator.ema prices n)
  | rsi, [.whole n] => latestOf id (Indicator.rsi prices n)
  | roc, [.whole n] => latestOf id (Indicator.roc prices n)
  | highest, [.whole n] => latestOf id (Indicator.highest prices n)
  | lowest, [.whole n] => latestOf id (Indicator.lowest prices n)
  | macd, [.whole f, .whole s, .whole g] => latestOf MacdPoint.macd (Indicator.macd prices f s g)
  | macdSignal, [.whole f, .whole s, .whole g] =>
    latestOf MacdPoint.signal (Indicator.macd prices f s g)
  | macdHistogram, [.whole f, .whole s, .whole g] =>
    latestOf MacdPoint.histogram (Indicator.macd prices f s g)
  | bandUpper, [.whole n, .fraction m] => latestOf Band.upper (bollinger prices n m)
  | bandMiddle, [.whole n, .fraction m] => latestOf Band.middle (bollinger prices n m)
  | bandLower, [.whole n, .fraction m] => latestOf Band.lower (bollinger prices n m)
  | _, _ => .ok none

open Indicator in
/-- The latest point of an indicator over highs, lows and closes. -/
def BarFunction.compute (highs lows closes : List Float) :
    BarFunction → List Setting → Except Fault (Option Float)
  | kdjK, [.whole n, .whole a, .whole b] => latestOf KdjPoint.k (kdj highs lows closes n a b)
  | kdjD, [.whole n, .whole a, .whole b] => latestOf KdjPoint.d (kdj highs lows closes n a b)
  | kdjJ, [.whole n, .whole a, .whole b] => latestOf KdjPoint.j (kdj highs lows closes n a b)
  | williamsR, [.whole n] => latestOf id (Indicator.williamsR highs lows closes n)
  | _, _ => .ok none

/-- A whole number found near a double, as a double again. -/
def wholeFloat (n : Except Number.WholeFault Int) : Except Fault Float :=
  match n with
  | .ok n => Scalar.ofInt n
  | .error f => .error (.noWholePart f)

/-- The result of a function of numbers.  A half is rounded up. -/
def Arithmetic.compute : Arithmetic → List Float → Except Fault (Option Float)
  | abs, [x] => .ok (some x.abs)
  | round, [x] => (wholeFloat (Number.floor (x + 0.5))).map some
  | floor, [x] => (wholeFloat (Number.floor x)).map some
  | ceil, [x] => (wholeFloat (Number.ceil x)).map some
  | max, x :: xs => .ok (some (Scalar.maxFrom x xs))
  | min, x :: xs => .ok (some (Scalar.minFrom x xs))
  | _, _ => .ok none

/-- The least and greatest number of arguments of a function of numbers. -/
def Arithmetic.argumentCount : Arithmetic → Nat × Option Nat
  | max | min => (1, none)
  | _ => (1, some 1)

/-! ### Calls -/

/-- Refuses a number of arguments out of bounds. -/
def checkCount (function : String) (least : Nat) (most : Option Nat) (n : Nat) :
    Except EvalError Unit :=
  if n < least ∨ most.any (· < n) then .error (.argument (.count function least most)) else .ok ()

/-- Lifts an arithmetic fault. -/
def ofFault {β : Type} (r : Except Fault β) : Except EvalError β := r.mapError .fault

/-- The settings of a call from the arguments and the defaults; none if an argument is undefined.
Nothing behind an undefined argument is looked at. -/
def readSettings (function : String) :
    List Parameter → List Value → Except EvalError (Option (List Setting))
  | p :: ps, v :: vs => do
    let setting ← if p.fractional then (v.toNumber function).map (·.map .fraction)
      else (v.toWhole function).map (·.map .whole)
    match setting with
    | none => return none
    | some s => return (← readSettings function ps vs).map (s :: ·)
  | p :: ps, [] => do
    match p.default? with
    | none => return none
    | some s => return (← readSettings function ps []).map (s :: ·)
  | [], _ => return some []

/-- The settings of a call whose number of arguments is checked first. -/
def settings (function : String) (parameters : List Parameter) (arguments : List Value) :
    Except EvalError (Option (List Setting)) := do
  checkCount function (parameters.countP fun p => p.default?.isNone) (some parameters.length)
    arguments.length
  readSettings function parameters arguments

/-- The items of a price list. -/
def Value.points? : Value → Option (List Float)
  | series _ points => some points
  | _ => none

/-- The numbers of a list of values. -/
def toNumbers (function : String) : List Value → Except EvalError (List (Option Float))
  | [] => .ok []
  | v :: vs => do
    let x ← v.toNumber function
    return x :: (← toNumbers function vs)

/-- The highs, lows and closes a call is about, and the arguments that are left.  If any of the
first three arguments is a price list, all three have to be.  There are none if the market has no
highs or no lows. -/
def barSources (function : String) (arguments : List Value) (s : Series) :
    Except EvalError (Option (List Float × List Float × List Float) × List Value) :=
  match (arguments.take 3).filterMap Value.points? with
  | [] =>
    match s.companion .highs, s.companion .lows with
    | some highs, some lows => .ok (some (highs, lows, s.closes), arguments)
    | _, _ => .ok (none, arguments)
  | [highs, lows, closes] => .ok (some (highs, lows, closes), arguments.drop 3)
  | _ => .error (.argument (.notBars function))

namespace Builtin

/-- Calls a function on a history.  The result is none if it is undefined. -/
def apply (f : Builtin) (arguments : List Value) (s : Series) : Except EvalError (Option Float) :=
  match f with
  | price g =>
    let (prices, rest) := match arguments with
      | .series _ points :: rest => (points, rest)
      | _ => (s.closes, arguments)
    do
      match ← settings f.name g.parameters rest with
      | none => return none
      | some given => ofFault (g.compute prices given)
  | bar g => do
    let (sources, rest) ← barSources f.name arguments s
    match ← settings f.name g.parameters rest, sources with
    | some given, some (highs, lows, closes) => ofFault (g.compute highs lows closes given)
    | _, _ => return none
  | arithmetic g => do
    checkCount f.name g.argumentCount.1 g.argumentCount.2 arguments.length
    match (← toNumbers f.name arguments).mapM fun x => x with
    | none => return none
    | some numbers => ofFault (g.compute numbers)

end Builtin

end BarScript
