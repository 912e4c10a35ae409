import BarScript.Proofs.Indicator.Convergence
import BarScript.Proofs.Indicator.Exact
import Mathlib.Algebra.Order.BigOperators.Group.List
import Mathlib.Algebra.Order.Field.Basic
import Mathlib.Data.Rat.Sqrt
import Mathlib.Order.Interval.Set.Basic
import Mathlib.Tactic.Linarith
import Mathlib.Tactic.Ring

/-!
# Averages lie within what they average

In exact arithmetic the simple, the exponential and the banded average are given in closed form
(`sma_eq`, `ema_eq`, `bollinger_eq`).  A mean lies in every range that contains the window
(`within_average`), and so does a value that moves by a fraction towards the next price, as long as
the range contains the prices so far (`within_emaFrom`).  The fraction is between 0 and 1 for every
period (`emaWeight_mem`).

`averages_within` : at each point the simple average is between `lowest` and `highest`, the
exponential average is between the extremes of the prices up to its bar, and the bands are around
the simple average, equally far on both sides.
-/

namespace BarScript

namespace Indicator

open Scalar

variable {prices xs : List ℚ} {n : Nat} {x : ℚ}

/-! ### Means -/

/-- The sum of the numbers of a window, divided by its length `n`. -/
def average (n : Nat) (xs : List ℚ) : ℚ := xs.sum / n

/-- The mean of the squares of the distances to the average. -/
def variance (n : Nat) (xs : List ℚ) : ℚ :=
  average n (xs.map fun x => (x - average n xs) * (x - average n xs))

/-- A number that lies in every range that contains the list. -/
def Within (xs : List ℚ) (x : ℚ) : Prop :=
  ∀ low high, (∀ p ∈ xs, p ∈ Set.Icc low high) → x ∈ Set.Icc low high

theorem within_average (hn : 0 < n) (hxs : xs.length = n) : Within xs (average n xs) := by
  intro low high hrange
  have hpos : (0 : ℚ) < n := Nat.cast_pos.2 hn
  have hlow := List.card_nsmul_le_sum xs low fun p hp => (hrange p hp).1
  have hhigh := List.sum_le_card_nsmul xs high fun p hp => (hrange p hp).2
  rw [hxs, nsmul_eq_mul] at hlow hhigh
  exact ⟨(le_div_iff₀ hpos).2 (by linarith), (div_le_iff₀ hpos).2 (by linarith)⟩

theorem variance_nonneg (n : Nat) (xs : List ℚ) : 0 ≤ variance n xs := by
  refine div_nonneg (List.sum_nonneg ?_) (Nat.cast_nonneg n)
  exact List.forall_mem_map.2 fun x _ => mul_self_nonneg _

/-- The numbers of a window that has only one value are at their average. -/
theorem variance_eq_zero (hn : 0 < n) (hxs : xs.length = n) (h : ∀ p ∈ xs, ∀ q ∈ xs, p = q) :
    variance n xs = 0 := by
  have hzero : ∀ x ∈ xs, (x - average n xs) * (x - average n xs) = 0 := by
    intro x hx
    have hsame : average n xs ∈ Set.Icc x x :=
      within_average hn hxs x x fun p hp => ⟨(h x hx p hp).le, (h x hx p hp).ge⟩
    rw [le_antisymm hsame.2 hsame.1, sub_self, zero_mul]
  rw [variance, average, List.sum_eq_zero (List.forall_mem_map.2 hzero), zero_div]

/-! ### The window of a point -/

section

variable {α β : Type} {items : List α} {points : List β} {period : Int}

theorem getElem?_mapM {ε : Type} {f : α → Except ε β} (h : items.mapM f = .ok points) {i : Nat}
    {y : β} (hy : points[i]? = some y) : ∃ x, items[i]? = some x ∧ f x = .ok y := by
  induction items generalizing points i with
  | nil => cases h; simp at hy
  | cons x items ih =>
    rw [List.mapM_cons] at h
    obtain ⟨z, hz, h⟩ := bind_eq_ok_iff.1 h
    obtain ⟨zs, hzs, h⟩ := bind_eq_ok_iff.1 h
    cases h
    cases i with
    | zero => cases hy; exact ⟨x, rfl, hz⟩
    | succ i => exact ih hzs hy

/-- A point is computed from a full window. -/
theorem window_of_point {point : List α → Except Fault β} (hperiod : 0 < period)
    (h : overWindows period point items = .ok points) {i : Nat} {y : β} (hy : points[i]? = some y) :
    ((items.drop i).take period.toNat).length = period.toNat ∧
      point ((items.drop i).take period.toNat) = .ok y := by
  have hi := (List.getElem?_eq_some_iff.1 hy).1
  have hlength := length_overWindows h
  rw [if_pos hperiod] at hlength
  rw [overWindows, if_neg (by omega)] at h
  obtain ⟨window, hwindow, hpoint⟩ := getElem?_mapM h hy
  rw [getElem?_windows (List.getElem?_eq_some_iff.1 hwindow).1] at hwindow
  cases hwindow
  refine ⟨?_, hpoint⟩
  rw [List.length_take, List.length_drop]
  omega

theorem length_of_mem_windows {n : Nat} {window : List α} (h : window ∈ windows n items) :
    window.length = n := by
  induction items with
  | nil => cases h
  | cons x items ih =>
    rw [windows] at h
    split at h
    · rename_i hfull
      rcases List.mem_cons.1 h with rfl | h
      · exact hfull
      · exact ih h
    · cases h

/-- A function of windows that are not empty has a line. -/
theorem exists_overWindows {point : List α → Except Fault β}
    (h : ∀ window, window ≠ [] → ∃ y, point window = .ok y) (items : List α) (period : Int) :
    ∃ points, overWindows period point items = .ok points := by
  rw [overWindows]
  split
  · exact ⟨[], rfl⟩
  · have hpoint : ∀ window ∈ windows period.toNat items, ∃ y, point window = .ok y ∧ True := by
      intro window hwindow
      have hfull := length_of_mem_windows hwindow
      obtain ⟨y, hy⟩ := h window (List.ne_nil_of_length_pos (by omega))
      exact ⟨y, hy, trivial⟩
    exact (exists_mapM hpoint).imp fun _ h => h.1

end

/-! ### Moving towards the next price -/

/-- The fraction by which an exponential average moves. -/
def emaWeight (n : Nat) : ℚ := 2 / (n + 1)

theorem emaWeight_mem (hn : 0 < n) : emaWeight n ∈ Set.Icc 0 1 := by
  have hone : (1 : ℚ) ≤ n := by exact_mod_cast hn
  have hpos : (0 : ℚ) < n + 1 := by linarith
  exact ⟨div_nonneg zero_le_two hpos.le, (div_le_one hpos).2 (by linarith)⟩

section

variable [SquareRoot]

/-- Moving by a fraction stays within the prices so far: what is preserved is that the value lies in
every range that contains them. -/
theorem within_emaFrom {weight value : ℚ} (hweight : weight ∈ Set.Icc 0 1)
    (hvalue : Within xs value) {rest : List ℚ} {i : Nat}
    (hx : (emaFrom weight value rest)[i]? = some x) : Within (xs ++ rest.take (i + 1)) x := by
  induction rest generalizing xs value i with
  | nil => simp [emaFrom] at hx
  | cons price rest ih =>
    have hnext : Within (xs ++ [price]) (value + (price - value) * weight) := by
      intro low high hrange
      rw [List.forall_mem_append, List.forall_mem_singleton] at hrange
      obtain ⟨hvlow, hvhigh⟩ := hvalue low high hrange.1
      obtain ⟨hplow, hphigh⟩ := hrange.2
      obtain ⟨hw0, hw1⟩ := hweight
      constructor
      · nlinarith [mul_nonneg (sub_nonneg.2 hw1) (sub_nonneg.2 hvlow),
          mul_nonneg hw0 (sub_nonneg.2 hplow)]
      · nlinarith [mul_nonneg (sub_nonneg.2 hw1) (sub_nonneg.2 hvhigh),
          mul_nonneg hw0 (sub_nonneg.2 hphigh)]
    cases i with
    | zero =>
      cases hx
      exact hnext
    | succ i =>
      have hrest := ih hnext hx
      rwa [List.append_assoc, List.singleton_append, ← List.take_succ_cons] at hrest

/-- The extremes of a list are around what is within it. -/
theorem Within.exists_extremes (h : Within xs x) (hxs : xs ≠ []) :
    ∃ low high, minimum xs = .ok low ∧ maximum xs = .ok high ∧ low ≤ x ∧ x ≤ high := by
  obtain ⟨low, hlow, -, hlowest⟩ := exists_minimum hxs
  obtain ⟨high, hhigh, -, hhighest⟩ := exists_maximum hxs
  have hrange := h low high fun p hp => ⟨hlowest p hp, hhighest p hp⟩
  exact ⟨low, high, hlow, hhigh, hrange.1, hrange.2⟩

/-! ### Lines in closed form -/

theorem mean_eq_average (hn : 0 < n) (xs : List ℚ) : mean n xs = .ok (average n xs) :=
  exact_mean hn xs

theorem sma_eq (prices : List ℚ) {period : Int} (hperiod : 0 < period) :
    sma prices period = .ok ((windows period.toNat prices).map (average period.toNat)) :=
  overWindows_eq_ok hperiod (mean_eq_average (by omega)) prices

theorem ema_eq {period : Int} (hperiod : 0 < period) (hlength : period ≤ prices.length) :
    ema prices period = .ok (average period.toNat (prices.take period.toNat) ::
      emaFrom (emaWeight period.toNat) (average period.toNat (prices.take period.toNat))
        (prices.drop period.toNat)) := by
  have hn : 0 < period.toNat := by omega
  have hpos : ((period.toNat : ℚ) + 1) ≠ 0 := by positivity
  have hweight : Scalar.div (Scalar.ofNat 2 : ℚ) (Scalar.ofNat period.toNat + Scalar.ofNat 1) =
      .ok (emaWeight period.toNat) := by
    simp only [exact_ofNat, Nat.cast_one]
    exact exact_div _ hpos
  rw [ema, if_neg (by omega)]
  simp only [hweight, mean_eq_average hn]
  rfl

theorem exact_ema (prices : List ℚ) (period : Int) :
    ∃ averages, ema prices period = .ok averages := by
  by_cases h : period ≤ 0 ∨ (prices.length : Int) < period
  · exact ⟨[], if_pos h⟩
  · exact ⟨_, ema_eq (by omega) (by omega)⟩

/-- The band around the average of a window. -/
def bandAround (n : Nat) (multiplier : ℚ) (xs : List ℚ) : Band ℚ :=
  let width := SquareRoot.sqrt (variance n xs) * multiplier
  ⟨average n xs + width, average n xs, average n xs - width⟩

theorem band_eq (hn : 0 < n) (multiplier : ℚ) (xs : List ℚ) :
    band n multiplier xs = .ok (bandAround n multiplier xs) := by
  have hsquares : (xs.mapM fun x => Scalar.square (x - average n xs)) =
      .ok (xs.map fun x => (x - average n xs) * (x - average n xs)) := mapM_eq_ok fun _ _ => rfl
  unfold band
  simp only [mean_eq_average hn, hsquares, bind, Except.bind]
  rfl

theorem bollinger_eq (prices : List ℚ) {period : Int} (hperiod : 0 < period) (multiplier : ℚ) :
    bollinger prices period multiplier =
      .ok ((windows period.toNat prices).map (bandAround period.toNat multiplier)) :=
  overWindows_eq_ok hperiod (band_eq (by omega) multiplier) prices

/-! ### Averages and extremes -/

theorem exists_lowest (prices : List ℚ) (period : Int) :
    ∃ line, lowest prices period = .ok line :=
  exists_overWindows (fun _ h => (exists_minimum h).imp fun _ h => h.1) prices period

theorem exists_highest (prices : List ℚ) (period : Int) :
    ∃ line, highest prices period = .ok line :=
  exists_overWindows (fun _ h => (exists_maximum h).imp fun _ h => h.1) prices period

variable {lows means highs averages : List ℚ} {bands : List (Band ℚ)} {period : Int}
  {multiplier : ℚ}

/-- At every point the simple average is between the extremes of its window. -/
theorem lowest_le_sma_le_highest (hperiod : 0 < period) (hlows : lowest prices period = .ok lows)
    (hmeans : sma prices period = .ok means) (hhighs : highest prices period = .ok highs)
    {i : Nat} {low mean high : ℚ} (hlow : lows[i]? = some low) (hmean : means[i]? = some mean)
    (hhigh : highs[i]? = some high) : low ≤ mean ∧ mean ≤ high := by
  have hn : 0 < period.toNat := by omega
  obtain ⟨hfull, hlow⟩ := window_of_point hperiod hlows hlow
  obtain ⟨-, hmean⟩ := window_of_point hperiod hmeans hmean
  obtain ⟨-, hhigh⟩ := window_of_point hperiod hhighs hhigh
  rw [mean_eq_average hn] at hmean
  cases hmean
  obtain ⟨low', high', hlow', hhigh', hbetween⟩ := (within_average hn hfull).exists_extremes
    (List.ne_nil_of_length_pos (by omega))
  cases hlow.symm.trans hlow'
  cases hhigh.symm.trans hhigh'
  exact hbetween

/-- The exponential average of a bar is within the prices up to the bar. -/
theorem within_ema (hperiod : 0 < period) (h : ema prices period = .ok averages) {bar : Nat}
    (hx : pointAt prices.length averages bar = some x) : Within (prices.take (bar + 1)) x := by
  obtain ⟨hbar, hx⟩ := pointAt_eq_some_iff.1 hx
  have hi := (List.getElem?_eq_some_iff.1 hx).1
  have hlength := length_ema h
  rw [if_pos hperiod] at hlength
  rw [List.length_reverse] at hi
  have hn : 0 < period.toNat := by omega
  obtain ⟨k, rfl⟩ : ∃ k, bar = period.toNat - 1 + k := ⟨bar - (period.toNat - 1), by omega⟩
  have hplace : averages.length - 1 - k = prices.length - 1 - (period.toNat - 1 + k) := by omega
  rw [← hplace, ← getElem?_eq_reverse (by omega)] at hx
  have hfirst : Within (prices.take period.toNat) (average period.toNat _) :=
    within_average hn (by rw [List.length_take]; omega)
  rw [ema_eq hperiod (by omega)] at h
  cases h
  cases k with
  | zero =>
    cases hx
    rwa [Nat.add_zero, Nat.sub_add_cancel hn]
  | succ k =>
    have hwithin := within_emaFrom (emaWeight_mem hn) hfirst hx
    rw [← List.take_add] at hwithin
    rwa [show period.toNat - 1 + (k + 1) + 1 = period.toNat + (k + 1) by omega]

/-- The bands are around the simple averages. -/
theorem map_middle_bollinger (hperiod : 0 < period) (hmeans : sma prices period = .ok means)
    (hbands : bollinger prices period multiplier = .ok bands) : bands.map (·.middle) = means := by
  rw [bollinger_eq prices hperiod] at hbands
  rw [sma_eq prices hperiod] at hmeans
  cases hbands
  cases hmeans
  rw [List.map_map]
  rfl

/-- A band is as far above its middle as below it, and flat around a window of one value. -/
theorem bandAround_spec (n : Nat) (multiplier : ℚ) (xs : List ℚ) :
    let b := bandAround n multiplier xs
    b.upper - b.middle = b.middle - b.lower ∧
    (0 ≤ multiplier → (∀ v, 0 ≤ v → 0 ≤ SquareRoot.sqrt v) →
      b.lower ≤ b.middle ∧ b.middle ≤ b.upper) ∧
    (SquareRoot.sqrt 0 = 0 → variance n xs = 0 → b.upper = b.lower) := by
  refine ⟨by simp only [bandAround]; ring, fun hmultiplier hsqrt => ?_, fun hsqrt hzero => ?_⟩
  · have hwidth : 0 ≤ SquareRoot.sqrt (variance n xs) * multiplier :=
      mul_nonneg (hsqrt _ (variance_nonneg n xs)) hmultiplier
    simp only [bandAround]
    constructor <;> linarith
  · simp only [bandAround, hzero, hsqrt]
    ring

/-- **Averages lie within what they average.**  For a positive period all lines exist and have a
point for each full window.  The simple average is between the extremes of its window; the
exponential average of a bar is between the extremes of the prices up to the bar; and for every
multiplier the middle of a band is the simple average, with equal distances to both sides, which are
not negative if the multiplier and the square roots are not, and nothing where the window has only
one value. -/
theorem averages_within (prices : List ℚ) {period : Int} (hperiod : 0 < period) :
    ∃ lows means highs averages, lowest prices period = .ok lows ∧ sma prices period = .ok means ∧
      highest prices period = .ok highs ∧ ema prices period = .ok averages ∧
      means.length = prices.length + 1 - period.toNat ∧ lows.length = means.length ∧
      highs.length = means.length ∧
      (∀ (i : Nat) low mean high, lows[i]? = some low → means[i]? = some mean →
        highs[i]? = some high → low ≤ mean ∧ mean ≤ high) ∧
      (∀ bar : Nat, (∃ x, pointAt prices.length averages bar = some x) ↔
        period - 1 ≤ bar ∧ bar < prices.length) ∧
      (∀ bar x, pointAt prices.length averages bar = some x → ∃ low high,
        minimum (prices.take (bar + 1)) = .ok low ∧ maximum (prices.take (bar + 1)) = .ok high ∧
          low ≤ x ∧ x ≤ high) ∧
      ∀ multiplier, ∃ bands, bollinger prices period multiplier = .ok bands ∧
        bands.map (·.middle) = means ∧
        ∀ (i : Nat) b, bands[i]? = some b →
          let window := (prices.drop i).take period.toNat
          b.upper - b.middle = b.middle - b.lower ∧
          (0 ≤ multiplier → (∀ v, 0 ≤ v → 0 ≤ SquareRoot.sqrt v) →
            b.lower ≤ b.middle ∧ b.middle ≤ b.upper) ∧
          (SquareRoot.sqrt 0 = 0 → (∀ p ∈ window, ∀ q ∈ window, p = q) → b.upper = b.lower) := by
  have hn : 0 < period.toNat := by omega
  obtain ⟨lows, hlows⟩ := exists_lowest prices period
  obtain ⟨highs, hhighs⟩ := exists_highest prices period
  have hmeans := sma_eq prices hperiod
  obtain ⟨averages, haverages⟩ := exact_ema prices period
  have hcount := length_overWindows hmeans
  have hlowCount := length_overWindows hlows
  have hhighCount := length_overWindows hhighs
  have haverageCount := length_ema haverages
  rw [if_pos hperiod] at hcount hlowCount hhighCount haverageCount
  refine ⟨lows, _, highs, averages, hlows, hmeans, hhighs, haverages, by omega, by omega,
    by omega, fun i low mean high hlow hmean hhigh =>
      lowest_le_sma_le_highest hperiod hlows hmeans hhighs hlow hmean hhigh,
    fun bar => ?_, fun bar x hx => ?_, fun multiplier => ?_⟩
  · rw [exists_pointAt_iff (by omega)]
    omega
  · refine (within_ema hperiod haverages hx).exists_extremes fun hnil => ?_
    have hbar := (pointAt_eq_some_iff.1 hx).1
    have hempty := congrArg List.length hnil
    rw [List.length_take, List.length_nil] at hempty
    omega
  · have hbands := bollinger_eq prices hperiod multiplier
    refine ⟨_, hbands, map_middle_bollinger hperiod hmeans hbands, fun i b hb => ?_⟩
    obtain ⟨hfull, hband⟩ := window_of_point hperiod hbands hb
    rw [band_eq hn] at hband
    cases hband
    obtain ⟨heven, haround, hflat⟩ := bandAround_spec period.toNat multiplier
      ((prices.drop i).take period.toNat)
    exact ⟨heven, haround, fun hsqrt hsame => hflat hsqrt (variance_eq_zero hn hfull hsame)⟩

end

/-- Five prices, the last two of them equal, with the bands of one and a half deviations. -/
theorem averages_within_five :
    letI : SquareRoot := ⟨Rat.sqrt⟩
    let prices : List ℚ := [1, 3, 2, 6, 6]
    (0 : Int) < 2 ∧ sma prices 2 = .ok [2, 5 / 2, 4, 6] ∧
      (∃ averages, ema prices 2 = .ok averages ∧ ∃ low high,
        minimum (prices.take 4) = .ok low ∧ maximum (prices.take 4) = .ok high ∧
        ∃ x, pointAt 5 averages 3 = some x ∧ low ≤ x ∧ x ≤ high) ∧
      ∃ bands, bollinger prices 2 (3 / 2) = .ok bands ∧
        (∃ b, bands[0]? = some b ∧ b.lower ≤ b.middle ∧ b.middle ≤ b.upper) ∧
        ∃ b, bands[3]? = some b ∧ b.upper = b.lower := by
  intro prices
  let _ : SquareRoot := ⟨Rat.sqrt⟩
  have htwo : (0 : Int) < 2 := by decide
  obtain ⟨lows, means, highs, averages, -, hmeans, -, haverages, hcount, -, -, -, hbars, hwithin,
    hbands⟩ := averages_within prices htwo
  obtain ⟨x, hx⟩ := (hbars 3).2 (by decide)
  obtain ⟨low, high, hlow, hhigh, hbetween⟩ := hwithin 3 x hx
  obtain ⟨bands, hline, hmiddles, hband⟩ := hbands (3 / 2)
  have hlength : bands.length = 4 := by
    rw [← List.length_map, hmiddles, hcount]
    rfl
  have hfirst : bands[0]? = some bands[0] := List.getElem?_eq_getElem (by omega)
  have hlast : bands[3]? = some bands[3] := List.getElem?_eq_getElem (by omega)
  have hroot : ∀ v : ℚ, 0 ≤ v → 0 ≤ SquareRoot.sqrt v := fun v _ => Rat.sqrt_nonneg v
  have hzero : SquareRoot.sqrt 0 = 0 := by decide +kernel
  refine ⟨htwo, by decide +kernel, ⟨averages, haverages, low, high, hlow, hhigh, x, hx, hbetween⟩,
    bands, hline, ⟨_, hfirst, (hband 0 _ hfirst).2.1 (by norm_num) hroot⟩, _, hlast, ?_⟩
  exact (hband 3 _ hlast).2.2 hzero (by decide +kernel)

end Indicator

end BarScript
