import BarScript.Preset.Basic

/-!
# The presets there are

`Preset.all` lists the presets, each with its default values.  `Preset.combined` lists finished
scripts that assign both sides; some of them have the key of a preset.
-/

namespace BarScript.Preset

open Template

/-- Relative strength beyond either of two levels. -/
def rsiLevels : Preset where
  key := "rsi_oversold_overbought"
  name := "RSI oversold/overbought"
  description := "Buy when RSI drops below the oversold level, sell above the overbought level."
  buyTemplate := call "rsi" ["period"] ++ text " < " ++ slot "oversold"
  sellTemplate := call "rsi" ["period"] ++ text " > " ++ slot "overbought"
  parameters := [("period", .whole 14), ("oversold", .real 30.0), ("overbought", .real 70.0)]

/-- The line of the moving average convergence crossing its signal line. -/
def macdCross : Preset where
  key := "macd_golden_cross"
  name := "MACD golden/death cross"
  description :=
    "Buy when the MACD line crosses above its signal line, sell on the cross below."
  buyTemplate := line ++ text " > " ++ signal ++ text " and " ++
    line ++ text "[1] <= " ++ signal ++ text "[1]"
  sellTemplate := line ++ text " < " ++ signal ++ text " and " ++
    line ++ text "[1] >= " ++ signal ++ text "[1]"
  parameters := [("fast", .whole 12), ("slow", .whole 26), ("signal", .whole 9)]
where
  line : Template := call "macd" ["fast", "slow", "signal"]
  signal : Template := call "macd_signal" ["fast", "slow", "signal"]

/-- A short moving average crossing a long one. -/
def averageCross : Preset where
  key := "double_ma_cross"
  name := "Dual moving average cross"
  description := "Buy when the short SMA crosses above the long SMA, sell on the cross below."
  buyTemplate := short ++ text " > " ++ long ++ text " and " ++
    short ++ text "[1] <= " ++ long ++ text "[1]"
  sellTemplate := short ++ text " < " ++ long ++ text " and " ++
    short ++ text "[1] >= " ++ long ++ text "[1]"
  parameters := [("short", .whole 5), ("long", .whole 20)]
where
  short : Template := call "sma" ["short"]
  long : Template := call "sma" ["long"]

/-- The close touching a Bollinger band. -/
def bollingerTouch : Preset where
  key := "bollinger_bands"
  name := "Bollinger band touch"
  description := "Buy when price touches the lower band, sell when it touches the upper band."
  buyTemplate := text "close <= " ++ call "bb_lower" ["period", "mult"]
  sellTemplate := text "close >= " ++ call "bb_upper" ["period", "mult"]
  parameters := [("period", .whole 20), ("mult", .real 2.0)]

/-- Both stochastic lines beyond either of two levels. -/
def stochasticLevels : Preset where
  key := "kdj_oversold_overbought"
  name := "KDJ oversold/overbought"
  description := "Buy when K and D are both oversold, sell when both are overbought."
  buyTemplate := k ++ text " < " ++ slot "oversold" ++ text " and " ++
    d ++ text " < " ++ slot "oversold"
  sellTemplate := k ++ text " > " ++ slot "overbought" ++ text " and " ++
    d ++ text " > " ++ slot "overbought"
  parameters := [("period", .whole 9), ("k_smooth", .whole 3), ("d_smooth", .whole 3),
    ("oversold", .real 20.0), ("overbought", .real 80.0)]
where
  k : Template := call "kdj_k" ["period", "k_smooth", "d_smooth"]
  d : Template := call "kdj_d" ["period", "k_smooth", "d_smooth"]

/-- The close leaving its range, upwards only with a growing volume. -/
def breakout : Preset where
  key := "price_volume_breakout"
  name := "Price/volume breakout"
  description :=
    "Buy when price breaks the prior high on expanding volume, sell below the prior low."
  buyTemplate := text "close > highest(high, " ++ slot "lookback" ++ text ")[1]" ++
    text " and volume > sma(volume, " ++ slot "volume_period" ++ text ") * " ++ slot "volume_ratio"
  sellTemplate := text "close < lowest(low, " ++ slot "lookback" ++ text ")[1]"
  parameters := [("lookback", .whole 20), ("volume_period", .whole 10), ("volume_ratio", .real 1.5)]

/-- The close far from its average. -/
def meanReversion : Preset where
  key := "mean_reversion"
  name := "Mean reversion"
  description := "Trade against large deviations of price from its moving average."
  buyTemplate := deviation ++ text " < -" ++ slot "threshold"
  sellTemplate := deviation ++ text " > " ++ slot "threshold"
  parameters := [("period", .whole 20), ("threshold", .real 0.05)]
where
  average : Template := call "sma" ["period"]
  deviation : Template := text "(close - " ++ average ++ text ") / " ++ average

/-- The rate of change beyond a threshold on the same side as the relative strength. -/
def momentum : Preset where
  key := "momentum_strategy"
  name := "Momentum"
  description := "Follow the trend when rate of change and RSI agree."
  buyTemplate := call "roc" ["roc_period"] ++ text " > " ++ slot "roc_threshold" ++
    text " and " ++ call "rsi" ["rsi_period"] ++ text " > 50"
  sellTemplate := call "roc" ["roc_period"] ++ text " < -" ++ slot "roc_threshold" ++
    text " and " ++ call "rsi" ["rsi_period"] ++ text " < 50"
  parameters := [("roc_period", .whole 10), ("roc_threshold", .real 5.0), ("rsi_period", .whole 14)]

/-- All presets in the order in which they are listed. -/
def all : List Preset :=
  [rsiLevels, macdCross, averageCross, bollingerTouch, stochasticLevels, breakout, meanReversion,
    momentum]

/-- The preset of a key. -/
def find? (key : String) : Option Preset := all.find? fun p => p.key == key

/-- Finished scripts that assign both sides, by key. -/
def combined : List (String × String) :=
  [("rsi_oversold_overbought",
    "// RSI oversold/overbought\n" ++
    "rsi_value = rsi(prices, 14)\n" ++
    "buy = rsi_value < 30\n" ++
    "sell = rsi_value > 70\n"),
  ("macd_crossover",
    "// MACD golden/death cross\n" ++
    "macd_line = macd(prices, 12, 26, 9)\n" ++
    "signal_line = macd_signal(prices, 12, 26, 9)\n" ++
    "buy = crossover(macd_line, signal_line)\n" ++
    "sell = crossunder(macd_line, signal_line)\n"),
  ("dual_ma",
    "// Dual moving average\n" ++
    "ma5 = sma(prices, 5)\n" ++
    "ma20 = sma(prices, 20)\n" ++
    "buy = crossover(ma5, ma20)\n" ++
    "sell = crossunder(ma5, ma20)\n"),
  ("bollinger_bands",
    "// Bollinger bands\n" ++
    "bb_up = bb_upper(prices, 20, 2)\n" ++
    "bb_low = bb_lower(prices, 20, 2)\n" ++
    "buy = price < bb_low\n" ++
    "sell = price > bb_up\n"),
  ("kdj_strategy",
    "// KDJ\n" ++
    "k_value = kdj_k(highs, lows, prices, 9)\n" ++
    "d_value = kdj_d(highs, lows, prices, 9)\n" ++
    "buy = k_value < 20 && d_value < 20 && k_value > d_value\n" ++
    "sell = k_value > 80 && d_value > 80 && k_value < d_value\n")]

/-- The finished script of a key. -/
def combined? (key : String) : Option String := (combined.find? fun c => c.1 == key).map (·.2)

end BarScript.Preset
