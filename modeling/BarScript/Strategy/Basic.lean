import BarScript.Market

/-!
# Strategies and snapshots

A strategy says when to trade some symbols: by scripts, by fixed thresholds of the quote, or by
scripts with thresholds to fall back on.  A snapshot is what is known of one symbol at one time.
-/

namespace BarScript

/-- How a strategy decides. -/
inductive StrategyKind where
  | simple
  | script
  deriving Repr, DecidableEq

/-- The scripts of a strategy, or the template that stands for them. -/
structure StrategyScript where
  buy : Option String
  sell : Option String
  enabled : Bool
  template : Option String
  deriving Repr, DecidableEq

/-- Levels of the quote; only those that are given count. -/
structure Thresholds where
  price : Option Float
  /-- In percent. -/
  change : Option Float
  enabled : Bool
  deriving Repr

/-- The levels at which to buy and at which to sell. -/
structure ThresholdPair where
  buy : Option Thresholds
  sell : Option Thresholds
  deriving Repr

/-- A strategy. -/
structure Strategy where
  id : String
  name : String
  /-- The symbols it trades, which may occur more than once. -/
  symbols : List String
  kind : StrategyKind
  script : Option StrategyScript
  thresholds : Option ThresholdPair
  deriving Repr

/-- The scripts that decide, if any do. -/
def Strategy.activeScript? (s : Strategy) : Option StrategyScript :=
  match s.kind with
  | .simple => none
  | .script => s.script.filter StrategyScript.enabled

/-- The quote and the history of one symbol. -/
structure Snapshot where
  symbol : String
  quote : Quote
  series : Series

/-- What a script can see of a snapshot. -/
def Snapshot.market (s : Snapshot) (tolerance : Float) : Market :=
  ⟨s.symbol, s.quote, s.series, tolerance⟩

end BarScript
