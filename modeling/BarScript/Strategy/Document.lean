import BarScript.Schema.Reader
import BarScript.Strategy.Basic

/-!
# Strategies and snapshots as documents

Readers for the records of strategies and snapshots.  Fields of scripts and thresholds have two
spellings, of which the first counts if both are there.
-/

namespace BarScript

open Schema

/-- Reads the scripts of a strategy. -/
def StrategyScript.reader : Reader StrategyScript := record fun members =>
  StrategyScript.mk <$> withDefault ["buyScript", "buy_script"] none (optional text) members
    <*> withDefault ["sellScript", "sell_script"] none (optional text) members
    <*> withDefault ["enabled"] false flag members
    <*> withDefault ["template"] none (optional text) members

/-- Reads thresholds. -/
def Thresholds.reader : Reader Thresholds := record fun members =>
  Thresholds.mk
    <$> withDefault ["priceThreshold", "price_threshold"] none (optional number) members
    <*> withDefault ["changeThreshold", "change_threshold"] none (optional number) members
    <*> withDefault ["enabled"] false flag members

/-- Reads the thresholds of both sides. -/
def ThresholdPair.reader : Reader ThresholdPair := record fun members =>
  ThresholdPair.mk
    <$> withDefault ["buyConditions", "buy_conditions"] none (optional Thresholds.reader) members
    <*> withDefault ["sellConditions", "sell_conditions"] none (optional Thresholds.reader) members

/-- Reads how a strategy decides. -/
def StrategyKind.reader : Reader StrategyKind := choice [("simple", simple), ("script", script)]

/-- Reads a strategy. -/
def Strategy.reader : Reader Strategy := record fun members =>
  Strategy.mk <$> required "id" text members
    <*> withDefault ["name"] "" text members
    <*> withDefault ["symbols"] [] (list text) members
    <*> withDefault ["type"] .simple StrategyKind.reader members
    <*> withDefault ["script"] none (optional StrategyScript.reader) members
    <*> withDefault ["signals"] none (optional ThresholdPair.reader) members

namespace Snapshot

/-- The snapshot of fields that have been read from a document, if its lists are aligned. -/
def ofFields (document : Json) (symbol : String) (price change : Float) (closes : List Float)
    (highs lows volumes : Option (List Float)) : Checked Snapshot :=
  match Series.create closes highs lows volumes with
  | .ok series => .valid ⟨symbol, ⟨price, change⟩, series⟩
  | .error _ => .fail .misaligned document

/-- Reads a snapshot.  Its lists are compared only when every field is valid. -/
def reader : Reader Snapshot := record fun members =>
  Checked.andThen
    (ofFields (.object members) <$> required "symbol" nonEmptyText members
      <*> required "price" number members
      <*> withDefault ["change"] 0.0 number members
      <*> withDefault ["closes"] [] (list number) members
      <*> withDefault ["highs"] none (optional (list number)) members
      <*> withDefault ["lows"] none (optional (list number)) members
      <*> withDefault ["volumes"] none (optional (list number)) members)
    id

end Snapshot

end BarScript
