import BarScript.Proofs.Indicator.Averages
import BarScript.Proofs.Indicator.Stochastic
import BarScript.Proofs.Indicator.Strength
import Mathlib.Algebra.BigOperators.Ring.List
import Mathlib.Algebra.Order.Monoid.Unbundled.MinMax

/-!
# The unit of the prices

Prices may be given in another unit, each `p` as `c * p + d` with a positive `c` (`rescale`).  In
exact arithmetic an indicator whose points are prices is then given in that unit, one whose points
are differences of prices is multiplied by `c`, and one whose points are places or shares is the
same (`rescaled_prices`).

A window of rescaled prices is the rescaled window, so this is one fact about each function of a
window; for an exponential average it is an induction along the prices (`emaFrom_rescale`).  The
special cases are the same in both units: a window does not fall, a range is flat, or (if `d` is
zero) a price is zero in both or in neither.
-/

namespace BarScript

/-- A price in another unit. -/
def rescale (c d p : ℚ) : ℚ := c * p + d

variable {c d : ℚ}

theorem monotone_rescale (hc : 0 < c) (d : ℚ) : Monotone (rescale c d) := fun x y h => by
  have hmul : c * x ≤ c * y := mul_le_mul_of_nonneg_left h hc.le
  exact add_le_add_left hmul d

theorem rescale_sub_rescale (c d x y : ℚ) : rescale c d x - rescale c d y = c * (x - y) := by
  unfold rescale
  ring

theorem rescale_inj (hc : 0 < c) {x y : ℚ} : rescale c d x = rescale c d y ↔ x = y := by
  rw [← sub_eq_zero, rescale_sub_rescale, mul_eq_zero, sub_eq_zero, or_iff_right hc.ne']

namespace Indicator

open Scalar

/-! ### Lines of changed items -/

section

variable {α α' β β' : Type} {f : α → α'} {g : β → β'}

theorem windows_map (f : α → α') (n : Nat) (xs : List α) :
    windows n (xs.map f) = (windows n xs).map (List.map f) := by
  induction xs with
  | nil => rfl
  | cons x xs ih =>
    rw [List.map_cons, windows, windows, ← List.map_cons, ← List.map_take, List.length_map, ih]
    split <;> rfl

theorem mapM_map {ε : Type} {point : α → Except ε β} {point' : α' → Except ε β'} {xs : List α}
    (h : ∀ x ∈ xs, point' (f x) = (point x).map g) :
    (xs.map f).mapM point' = (xs.mapM point).map (List.map g) := by
  induction xs with
  | nil => rfl
  | cons x xs ih =>
    rw [List.forall_mem_cons] at h
    rw [List.map_cons, List.mapM_cons, List.mapM_cons, h.1, ih h.2]
    cases point x <;> [rfl; cases xs.mapM point <;> rfl]

theorem overWindows_map {point : List α → Except Fault β} {point' : List α' → Except Fault β'}
    {period : Int}
    (h : ∀ window, window.length = period.toNat → 0 < period →
      point' (window.map f) = (point window).map g) (xs : List α) :
    overWindows period point' (xs.map f) = (overWindows period point xs).map (List.map g) := by
  unfold overWindows
  split
  · rfl
  · rw [windows_map]
    exact mapM_map fun window hwindow => h window (length_of_mem_windows hwindow) (by omega)

/-- Points that are the same for the changed window. -/
theorem overWindows_map_same {point : List α → Except Fault β} {point' : List α' → Except Fault β}
    {period : Int} (h : ∀ window, 0 < period → point' (window.map f) = point window)
    (xs : List α) : overWindows period point' (xs.map f) = overWindows period point xs := by
  unfold overWindows
  split
  · rfl
  · rw [windows_map, List.mapM_map]
    exact mapM_congr fun window _ => h window (by omega)

theorem lastN_map (f : α → α') (n : Nat) (xs : List α) :
    lastN n (xs.map f) = (lastN n xs).map f := by
  rw [lastN, lastN, List.length_map, List.map_drop]

end

section

variable {n : Nat} {prices highs lows closes xs ms : List ℚ}

/-! ### Averages -/

theorem average_rescale (c d : ℚ) (hn : 0 < n) (hxs : xs.length = n) :
    average n (xs.map (rescale c d)) = rescale c d (average n xs) := by
  have hpos : (n : ℚ) ≠ 0 := Nat.cast_ne_zero.2 hn.ne'
  have hsum : (xs.map (rescale c d)).sum = c * xs.sum + n * d := by
    rw [show rescale c d = fun x => c * x + d from rfl, List.sum_map_add, List.sum_map_mul_left,
      List.map_id', List.map_const', List.sum_replicate, hxs, nsmul_eq_mul]
  rw [average, average, hsum, rescale]
  field_simp

theorem variance_rescale (c d : ℚ) (hn : 0 < n) (hxs : xs.length = n) :
    variance n (xs.map (rescale c d)) = c * c * variance n xs := by
  have hsquare : ∀ x, (rescale c d x - rescale c d (average n xs)) *
      (rescale c d x - rescale c d (average n xs)) =
        c * c * ((x - average n xs) * (x - average n xs)) := fun x => by
    rw [rescale_sub_rescale]
    ring
  rw [variance, average_rescale c d hn hxs, List.map_map, average, Function.comp_def]
  simp only [hsquare]
  rw [List.sum_map_mul_left, mul_div_assoc]
  rfl

variable [SquareRoot]

theorem emaFrom_rescale (c d weight value : ℚ) (xs : List ℚ) :
    emaFrom weight (rescale c d value) (xs.map (rescale c d)) =
      (emaFrom weight value xs).map (rescale c d) := by
  induction xs generalizing value with
  | nil => rfl
  | cons x xs ih =>
    have hnext : rescale c d value + (rescale c d x - rescale c d value) * weight =
        rescale c d (value + (x - value) * weight) := by
      rw [rescale_sub_rescale, rescale, rescale]
      ring
    rw [List.map_cons, emaFrom, emaFrom, hnext, ih, List.map_cons]

theorem sma_rescale (c d : ℚ) (prices : List ℚ) (period : Int) :
    sma (prices.map (rescale c d)) period = (sma prices period).map (List.map (rescale c d)) := by
  refine overWindows_map (fun window hfull hperiod => ?_) prices
  have hn : 0 < period.toNat := by omega
  rw [mean_eq_average hn, mean_eq_average hn, average_rescale c d hn hfull]
  rfl

theorem ema_rescale (c d : ℚ) (prices : List ℚ) (period : Int) :
    ema (prices.map (rescale c d)) period = (ema prices period).map (List.map (rescale c d)) := by
  by_cases hshort : period ≤ 0 ∨ (prices.length : Int) < period
  · rw [ema, ema, if_pos hshort, if_pos (by rwa [List.length_map])]
    rfl
  · rw [ema_eq (by omega) (by rw [List.length_map]; omega), ema_eq (by omega) (by omega),
      ← List.map_take, ← List.map_drop,
      average_rescale c d (by omega) (by rw [List.length_take]; omega), emaFrom_rescale]
    rfl

/-- A band in another unit: the middle is a price, the distances to it are differences. -/
def rescaleBand (c d : ℚ) (b : Band ℚ) : Band ℚ :=
  let middle := rescale c d b.middle
  ⟨middle + c * (b.upper - b.middle), middle, middle - c * (b.middle - b.lower)⟩

theorem bollinger_rescale (d : ℚ)
    (hsqrt : ∀ v, 0 ≤ v → SquareRoot.sqrt (c * c * v) = c * SquareRoot.sqrt v)
    (prices : List ℚ) (period : Int) (multiplier : ℚ) :
    bollinger (prices.map (rescale c d)) period multiplier =
      (bollinger prices period multiplier).map (List.map (rescaleBand c d)) := by
  refine overWindows_map (fun window hfull hperiod => ?_) prices
  have hn : 0 < period.toNat := by omega
  rw [band_eq hn, band_eq hn, bandAround, average_rescale c d hn hfull,
    variance_rescale c d hn hfull, hsqrt _ (variance_nonneg _ _)]
  simp only [Except.map, bandAround, rescaleBand, Except.ok.injEq, Band.mk.injEq, true_and]
  constructor <;> ring

/-! ### Convergence and divergence -/

/-- A point of differences, all of them multiplied. -/
def scaleMacd (c : ℚ) (p : MacdPoint ℚ) : MacdPoint ℚ := ⟨c * p.macd, c * p.signal, c * p.histogram⟩

theorem differences_rescale (c d : ℚ) (fasts slows : List ℚ) :
    differences (fasts.map (rescale c d)) (slows.map (rescale c d)) =
      (differences fasts slows).map (rescale c 0) := by
  rw [differences, List.length_map, List.length_map, lastN_map, lastN_map, List.zipWith_map,
    differences, List.map_zipWith]
  congr 1
  funext x y
  rw [rescale_sub_rescale, rescale, add_zero]

theorem macd_rescale (c d : ℚ) {fast slow signal : Int} {points : List (MacdPoint ℚ)}
    (h : macd prices fast slow signal = .ok points) :
    macd (prices.map (rescale c d)) fast slow signal = .ok (points.map (scaleMacd c)) := by
  obtain ⟨fasts, slows, signals, hf, hs, hg, rfl⟩ := macd_eq_ok_iff.1 h
  refine macd_eq_ok_iff.2 ⟨fasts.map (rescale c d), slows.map (rescale c d),
    signals.map (rescale c 0), ?_, ?_, ?_, ?_⟩
  · rw [ema_rescale, hf]
    rfl
  · rw [ema_rescale, hs]
    rfl
  · rw [differences_rescale, ema_rescale, hg]
    rfl
  · rw [differences_rescale, List.length_map, lastN_map, List.zipWith_map, List.map_zipWith]
    congr 1
    funext m s
    simp only [scaleMacd, rescale, add_zero, mul_sub]

/-! ### Extremes -/

theorem maximum_rescale (hc : 0 < c) (d : ℚ) (xs : List ℚ) :
    maximum (xs.map (rescale c d)) = (maximum xs).map (rescale c d) := by
  cases xs with
  | nil => rfl
  | cons x xs =>
    rw [List.map_cons, maximum, maximum, maxFrom_eq_foldl, maxFrom_eq_foldl, List.foldl_map,
      Except.map, List.foldl_hom (rescale c d) fun m y => ((monotone_rescale hc d).map_max).symm]

theorem minimum_rescale (hc : 0 < c) (d : ℚ) (xs : List ℚ) :
    minimum (xs.map (rescale c d)) = (minimum xs).map (rescale c d) := by
  cases xs with
  | nil => rfl
  | cons x xs =>
    rw [List.map_cons, minimum, minimum, minFrom_eq_foldl, minFrom_eq_foldl, List.foldl_map,
      Except.map, List.foldl_hom (rescale c d) fun m y => ((monotone_rescale hc d).map_min).symm]

theorem highest_rescale (hc : 0 < c) (d : ℚ) (prices : List ℚ) (period : Int) :
    highest (prices.map (rescale c d)) period =
      (highest prices period).map (List.map (rescale c d)) :=
  overWindows_map (fun window _ _ => maximum_rescale hc d window) prices

theorem lowest_rescale (hc : 0 < c) (d : ℚ) (prices : List ℚ) (period : Int) :
    lowest (prices.map (rescale c d)) period =
      (lowest prices period).map (List.map (rescale c d)) :=
  overWindows_map (fun window _ _ => minimum_rescale hc d window) prices

/-! ### Strength and rate of change -/

omit [SquareRoot] in
theorem moves_rescale (c d : ℚ) (prices : List ℚ) :
    moves (prices.map (rescale c d)) = (moves prices).map (c * ·) := by
  rw [moves, moves, ← List.map_tail, List.zipWith_map, List.map_zipWith]
  congr 1
  funext x y
  exact rescale_sub_rescale c d y x

omit [SquareRoot] in
theorem rise_scale (hc : 0 < c) (ms : List ℚ) : rise (ms.map (c * ·)) = c * rise ms := by
  have hkeep : (fun m : ℚ => decide (0 < m)) ∘ (c * ·) = fun m => decide (0 < m) :=
    funext fun m => by simp [mul_pos_iff_of_pos_left hc]
  rw [rise, rise, List.filter_map, hkeep, List.sum_map_mul_left, List.map_id']

omit [SquareRoot] in
theorem fall_scale (hc : 0 < c) (ms : List ℚ) : fall (ms.map (c * ·)) = c * fall ms := by
  -- what falls is what rises upside down
  rw [← rise_map_neg, ← rise_map_neg, ← rise_scale hc, List.map_map, List.map_map]
  congr 2
  funext m
  exact (mul_neg c m).symm

omit [SquareRoot] in
theorem upwardShare_scale (hc : 0 < c) (ms : List ℚ) :
    upwardShare (ms.map (c * ·)) = upwardShare ms := by
  by_cases h : fall ms = 0
  · rw [upwardShare, fall_scale hc, if_pos (by rw [h, mul_zero]), upwardShare, if_pos h]
  · have hscaled : fall (ms.map (c * ·)) ≠ 0 := fall_scale hc ms ▸ mul_ne_zero hc.ne' h
    rw [upwardShare_of_fall hscaled, upwardShare_of_fall h, fall_scale hc, rise_scale hc,
      mul_left_comm, ← mul_add, mul_div_mul_left _ _ hc.ne']

theorem rsi_rescale (hc : 0 < c) (d : ℚ) (prices : List ℚ) (period : Int) :
    rsi (prices.map (rescale c d)) period = rsi prices period := by
  rw [rsi, moves_rescale]
  refine overWindows_map_same (fun window hperiod => ?_) (moves prices)
  rw [strength_eq (by omega), strength_eq (by omega), upwardShare_scale hc]

theorem percentChange_scale (hc : 0 < c) (base price : ℚ) :
    percentChange (rescale c 0 base) (rescale c 0 price) = percentChange base price := by
  unfold percentChange
  rw [rescale_sub_rescale, rescale, add_zero]
  by_cases hbase : base = 0
  · have hzero : Scalar.beq base (Scalar.ofNat 0) = true :=
      exact_beq.2 (hbase.trans Nat.cast_zero.symm)
    rw [if_pos hzero, hbase, mul_zero, if_pos]
    exact exact_beq.2 Nat.cast_zero.symm
  · have hne : ∀ x : ℚ, x ≠ 0 → ¬ Scalar.beq x (Scalar.ofNat 0) = true := fun x hx h =>
      hx ((exact_beq.1 h).trans Nat.cast_zero)
    have hscaled := mul_ne_zero hc.ne' hbase
    rw [if_neg (hne _ hscaled), if_neg (hne _ hbase), exact_div _ hscaled, exact_div _ hbase,
      mul_div_mul_left _ _ hc.ne']

theorem roc_scale (hc : 0 < c) (prices : List ℚ) (period : Int) :
    roc (prices.map (rescale c 0)) period = roc prices period := by
  unfold roc
  split
  · rfl
  · rw [← List.map_drop, List.zip_map, List.mapM_map]
    exact mapM_congr fun p _ => percentChange_scale hc p.1 p.2

/-! ### The place in the range -/

/-- A span in another unit. -/
def rescaleSpan (c d : ℚ) (s : Span ℚ) : Span ℚ :=
  ⟨rescale c d s.high, rescale c d s.low, rescale c d s.close⟩

theorem span_rescale (hc : 0 < c) (d : ℚ) (n start : Nat) (close : ℚ) :
    span (highs.map (rescale c d)) (lows.map (rescale c d)) n start (rescale c d close) =
      (span highs lows n start close).map (rescaleSpan c d) := by
  unfold span
  rw [← List.map_drop, ← List.map_take, maximum_rescale hc, ← List.map_drop, ← List.map_take,
    minimum_rescale hc]
  cases maximum ((highs.drop start).take n) with
  | error e => rfl
  | ok high => cases minimum ((lows.drop start).take n) <;> rfl

theorem fromLow_rescale (hc : 0 < c) (d : ℚ) (s : Span ℚ) :
    (rescaleSpan c d s).fromLow = s.fromLow := by
  unfold Span.fromLow rescaleSpan
  simp only [rescale_sub_rescale]
  by_cases hflat : s.high = s.low
  · rw [if_pos (exact_beq.2 hflat), if_pos (exact_beq.2 (congrArg _ hflat))]
  · have hrange : s.high - s.low ≠ 0 := sub_ne_zero.2 hflat
    rw [if_neg (mt exact_beq.1 hflat), if_neg (mt (exact_beq.1 · |> (rescale_inj hc).1) hflat),
      exact_div _ hrange, exact_div _ (mul_ne_zero hc.ne' hrange), mul_div_mul_left _ _ hc.ne']

theorem fromHigh_rescale (hc : 0 < c) (d : ℚ) (s : Span ℚ) :
    (rescaleSpan c d s).fromHigh = s.fromHigh := by
  rw [Span.fromHigh_eq, Span.fromHigh_eq, fromLow_rescale hc]

/-- A place that is the same in both units has the same line. -/
theorem places_rescale {place : Span ℚ → Except Fault ℚ} (hc : 0 < c) (d : ℚ)
    (hplace : ∀ s, place (rescaleSpan c d s) = place s) (highs lows closes : List ℚ)
    (period : Int) :
    places place (highs.map (rescale c d)) (lows.map (rescale c d)) (closes.map (rescale c d))
      period = places place highs lows closes period := by
  have hwindow : haveWindow (highs.map (rescale c d)) (lows.map (rescale c d))
      (closes.map (rescale c d)) period = haveWindow highs lows closes period := by
    simp only [haveWindow, List.length_map]
  have hends : windowEnds period.toNat (closes.map (rescale c d)) =
      (windowEnds period.toNat closes).map (Prod.map (rescale c d) id) := by
    rw [windowEnds, windowEnds, ← List.map_drop, List.zipIdx_map]
  unfold places
  rw [hwindow, hends, List.mapM_map]
  split
  · refine mapM_congr fun e _ => ?_
    simp only [Function.comp_apply, Prod.map_fst, Prod.map_snd, id, span_rescale hc]
    cases span highs lows period.toNat e.2 e.1 with
    | error e => rfl
    | ok s => exact hplace s
  · rfl

theorem kdj_rescale (hc : 0 < c) (d : ℚ) (highs lows closes : List ℚ)
    (period kLength dLength : Int) :
    kdj (highs.map (rescale c d)) (lows.map (rescale c d)) (closes.map (rescale c d)) period
      kLength dLength = kdj highs lows closes period kLength dLength := by
  rw [kdj, kdj, places_rescale hc d (fromLow_rescale hc d)]

theorem williamsR_rescale (hc : 0 < c) (d : ℚ) (highs lows closes : List ℚ) (period : Int) :
    williamsR (highs.map (rescale c d)) (lows.map (rescale c d)) (closes.map (rescale c d)) period =
      williamsR highs lows closes period :=
  places_rescale hc d (fromHigh_rescale hc d) highs lows closes period

/-! ### All indicators -/

/-- Both lines exist and have equally many points, each point of the second one being that of the
first, changed. -/
def ChangedBy {β : Type} (g : β → β) (before after : Except Fault (List β)) : Prop :=
  ∃ points points', before = .ok points ∧ after = .ok points' ∧ points'.length = points.length ∧
    ∀ (i : Nat) p, points[i]? = some p → points'[i]? = some (g p)

omit [SquareRoot] in
theorem changedBy_of_map {β : Type} {g : β → β} {before after : Except Fault (List β)}
    (hexists : ∃ points, before = .ok points) (h : after = before.map (List.map g)) :
    ChangedBy g before after := by
  obtain ⟨points, rfl⟩ := hexists
  refine ⟨points, points.map g, rfl, h, List.length_map g, fun i p hp => ?_⟩
  rw [List.getElem?_map, hp]
  rfl

theorem exists_sma (prices : List ℚ) (period : Int) : ∃ line, sma prices period = .ok line := by
  by_cases hperiod : period ≤ 0
  · exact ⟨[], if_pos hperiod⟩
  · exact ⟨_, sma_eq prices (by omega)⟩

theorem exists_bollinger (prices : List ℚ) (period : Int) (multiplier : ℚ) :
    ∃ bands, bollinger prices period multiplier = .ok bands := by
  by_cases hperiod : period ≤ 0
  · exact ⟨[], if_pos hperiod⟩
  · exact ⟨_, bollinger_eq prices (by omega) multiplier⟩

theorem exact_macd (prices : List ℚ) (fast slow signal : Int) :
    ∃ points, macd prices fast slow signal = .ok points := by
  obtain ⟨fasts, hf⟩ := exact_ema prices fast
  obtain ⟨slows, hs⟩ := exact_ema prices slow
  obtain ⟨signals, hg⟩ := exact_ema (differences fasts slows) signal
  exact ⟨_, macd_eq_ok_iff.2 ⟨fasts, slows, signals, hf, hs, hg, rfl⟩⟩

/-- **The unit of the prices does not matter.**  Let every price `p` be given as `c * p + d` with a
positive `c`.  At every point and for all settings, averages and extremes are given in the same
unit; convergence and divergence is multiplied by `c`; a band has its middle in the unit and its
distances multiplied by `c`, if the square root is; and strength and the places in a range are the
same, also where they do not exist.  If `d` is zero, so is the rate of change. -/
theorem rescaled_prices (hc : 0 < c) (d : ℚ) (prices highs lows closes : List ℚ)
    (period fast slow signal kLength dLength : Int) (multiplier : ℚ) :
    let unit := rescale c d
    ChangedBy unit (sma prices period) (sma (prices.map unit) period) ∧
    ChangedBy unit (ema prices period) (ema (prices.map unit) period) ∧
    ChangedBy unit (highest prices period) (highest (prices.map unit) period) ∧
    ChangedBy unit (lowest prices period) (lowest (prices.map unit) period) ∧
    ChangedBy (scaleMacd c) (macd prices fast slow signal)
      (macd (prices.map unit) fast slow signal) ∧
    ((∀ v, 0 ≤ v → SquareRoot.sqrt (c * c * v) = c * SquareRoot.sqrt v) →
      ChangedBy (rescaleBand c d) (bollinger prices period multiplier)
        (bollinger (prices.map unit) period multiplier)) ∧
    rsi (prices.map unit) period = rsi prices period ∧
    kdj (highs.map unit) (lows.map unit) (closes.map unit) period kLength dLength =
      kdj highs lows closes period kLength dLength ∧
    williamsR (highs.map unit) (lows.map unit) (closes.map unit) period =
      williamsR highs lows closes period ∧
    roc (prices.map (rescale c 0)) period = roc prices period := by
  intro unit
  obtain ⟨points, hpoints⟩ := exact_macd prices fast slow signal
  refine ⟨changedBy_of_map (exists_sma prices period) (sma_rescale c d prices period),
    changedBy_of_map (exact_ema prices period) (ema_rescale c d prices period),
    changedBy_of_map (exists_highest prices period) (highest_rescale hc d prices period),
    changedBy_of_map (exists_lowest prices period) (lowest_rescale hc d prices period),
    changedBy_of_map ⟨points, hpoints⟩ ?_,
    fun hsqrt => changedBy_of_map (exists_bollinger prices period multiplier)
      (bollinger_rescale d hsqrt prices period multiplier),
    rsi_rescale hc d prices period, kdj_rescale hc d highs lows closes period kLength dLength,
    williamsR_rescale hc d highs lows closes period, roc_scale hc prices period⟩
  rw [macd_rescale c d hpoints, hpoints]
  rfl

end

/-- The root of a square, zero for a number that is none. -/
def rootOfSquare (v : ℚ) : ℚ := if Rat.sqrt v * Rat.sqrt v = v then Rat.sqrt v else 0

theorem rootOfSquare_mul_self (x : ℚ) : rootOfSquare (x * x) = |x| := by
  rw [rootOfSquare, Rat.sqrt_eq, if_pos (abs_mul_abs_self x)]

theorem rootOfSquare_scale (hc : 0 < c) (v : ℚ) :
    rootOfSquare (c * c * v) = c * rootOfSquare v := by
  by_cases hv : ∃ x, x * x = v
  · obtain ⟨x, rfl⟩ := hv
    rw [mul_mul_mul_comm, rootOfSquare_mul_self, rootOfSquare_mul_self, abs_mul, abs_of_pos hc]
  · have hscaled : ¬ ∃ x, x * x = c * c * v := by
      rintro ⟨x, hx⟩
      refine hv ⟨x / c, ?_⟩
      rw [div_mul_div_comm, hx, mul_div_cancel_left₀ _ (mul_ne_zero hc.ne' hc.ne')]
    rw [Rat.exists_mul_self] at hv hscaled
    rw [rootOfSquare, if_neg hscaled, rootOfSquare, if_neg hv, mul_zero]

/-- Five prices, doubled and raised by ten. -/
theorem rescaled_prices_five :
    letI : SquareRoot := ⟨rootOfSquare⟩
    let prices : List ℚ := [1, 3, 2, 6, 6]
    (0 : ℚ) < 2 ∧ sma (prices.map (rescale 2 10)) 2 = .ok [14, 15, 18, 22] ∧
      ChangedBy (rescale 2 10) (sma prices 2) (sma (prices.map (rescale 2 10)) 2) ∧
      ChangedBy (rescaleBand 2 10) (bollinger prices 2 3)
        (bollinger (prices.map (rescale 2 10)) 2 3) ∧
      rsi (prices.map (rescale 2 10)) 2 = rsi prices 2 := by
  intro prices
  let _ : SquareRoot := ⟨rootOfSquare⟩
  have htwo : (0 : ℚ) < 2 := two_pos
  obtain ⟨hsma, -, -, -, -, hbands, hrsi, -⟩ :=
    rescaled_prices htwo 10 prices prices prices prices 2 12 26 9 3 3 3
  exact ⟨htwo, by decide +kernel, hsma, hbands fun v _ => rootOfSquare_scale htwo v, hrsi⟩

end Indicator

end BarScript
