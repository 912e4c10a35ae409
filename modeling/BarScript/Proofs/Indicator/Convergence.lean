import BarScript.Proofs.Indicator.Alignment
import BarScript.Proofs.Indicator.Division

/-!
# Every point of convergence and divergence belongs to one bar

The lines that `macd` is made of start at different bars.  They are cut to the bars they have in
common, so all three numbers of a point are those of its own bar: the difference of the two averages
of the prices up to that bar, the average of these differences up to it, and how far the two are
apart (`macd_points`).  This holds whichever of the two averages is the slower one.

Points are counted from the end of a line (`pointAt`), and the line up to an earlier bar is the line
without its last points (`back_ema`), so each line is looked at in reverse.
-/

namespace BarScript

namespace Indicator

open Scalar

/-! ### Points counted from the end -/

section Lists

variable {α β γ : Type}

/-- The point that belongs to a bar of so many; the last point belongs to the last bar. -/
def pointAt (length : Nat) (line : List α) (bar : Nat) : Option α :=
  if bar < length then line.reverse[length - 1 - bar]? else none

theorem pointAt_eq_some_iff {length bar : Nat} {line : List α} {a : α} :
    pointAt length line bar = some a ↔ bar < length ∧ line.reverse[length - 1 - bar]? = some a := by
  rw [pointAt]
  split <;> simp_all

theorem exists_pointAt_iff {length bar : Nat} {line : List α} (h : line.length ≤ length) :
    (∃ a, pointAt length line bar = some a) ↔ length - line.length ≤ bar ∧ bar < length := by
  constructor
  · rintro ⟨a, ha⟩
    obtain ⟨hbar, ha⟩ := pointAt_eq_some_iff.1 ha
    have hlt := (List.getElem?_eq_some_iff.1 ha).1
    rw [List.length_reverse] at hlt
    omega
  · rintro ⟨hwarm, hbar⟩
    have hlt : length - 1 - bar < line.reverse.length := by
      rw [List.length_reverse]
      omega
    exact ⟨_, pointAt_eq_some_iff.2 ⟨hbar, List.getElem?_eq_getElem hlt⟩⟩

theorem getLast?_rdrop (xs : List α) (k : Nat) : (xs.rdrop k).getLast? = xs.reverse[k]? := by
  rw [List.rdrop_eq_reverse_drop_reverse, List.getLast?_reverse, List.head?_drop]

/-- The point of a list, counted from the front, that is `k` places from the end. -/
theorem getElem?_eq_reverse {xs : List α} {i : Nat} (h : i < xs.length) :
    xs[i]? = xs.reverse[xs.length - 1 - i]? := by
  rw [List.getElem?_reverse (by omega)]
  congr 1
  omega

@[simp] theorem lastN_length (xs : List α) : lastN xs.length xs = xs := by
  rw [lastN, Nat.sub_self, List.drop_zero]

/-- Two lists are put together from the end. -/
theorem getElem?_reverse_zipWith_lastN (f : α → β → γ) {n : Nat} {xs : List α} {ys : List β}
    (hx : n ≤ xs.length) (hy : n ≤ ys.length) {k : Nat} {z : γ} :
    (List.zipWith f (lastN n xs) (lastN n ys)).reverse[k]? = some z ↔
      k < n ∧ ∃ x y, xs.reverse[k]? = some x ∧ ys.reverse[k]? = some y ∧ f x y = z := by
  have hlength : (lastN n xs).length = (lastN n ys).length := by
    rw [length_lastN, length_lastN]
    omega
  rw [List.reverse_zipWith hlength, List.getElem?_zipWith_eq_some, lastN, lastN,
    ← List.take_reverse, ← List.take_reverse, List.getElem?_take, List.getElem?_take]
  by_cases hk : k < n <;> simp [hk]

end Lists

/-! ### The numbers that belong to a bar -/

section Bars

variable {α : Type} [Scalar α]

/-- The exponential average at a bar: the last point of that of the prices up to the bar. -/
def IsAverage (prices : List α) (period : Int) (bar : Nat) (x : α) : Prop :=
  ∃ line, ema (prices.take (bar + 1)) period = .ok line ∧ line.getLast? = some x

/-- The difference of the two averages at a bar. -/
def IsDifference (prices : List α) (fast slow : Int) (bar : Nat) (x : α) : Prop :=
  ∃ a b, IsAverage prices fast bar a ∧ IsAverage prices slow bar b ∧ x = a - b

/-- The differences of the two averages at the bars from `first` to `last`. -/
structure AreDifferences (prices : List α) (fast slow : Int) (first last : Nat) (xs : List α) :
    Prop where
  length_eq : xs.length = last + 1 - first
  isDifference : ∀ i x, xs[i]? = some x → IsDifference prices fast slow (first + i) x

/-- A point of convergence and divergence that belongs to a bar. -/
structure IsMacdAt (prices : List α) (fast slow signal : Int) (bar : Nat) (p : MacdPoint α) :
    Prop where
  macd : IsDifference prices fast slow bar p.macd
  /-- The average of the differences from the first bar that has one. -/
  signal : ∃ differences line,
    AreDifferences prices fast slow (max fast slow - 1).toNat bar differences ∧
      ema differences signal = .ok line ∧ line.getLast? = some p.signal
  histogram : p.histogram = p.macd - p.signal

variable {prices line fasts slows signals : List α} {fast slow signal : Int}

/-- The average at a bar is the point of the whole line. -/
theorem isAverage_of_reverse (h : ema prices fast = .ok line) {bar : Nat}
    (hbar : bar < prices.length) {x : α} (hx : line.reverse[prices.length - 1 - bar]? = some x) :
    IsAverage prices fast bar x := by
  have hback := back_ema fast prices (prices.length - 1 - bar) line h
  have htake : prices.rdrop (prices.length - 1 - bar) = prices.take (bar + 1) := by
    rw [List.rdrop]
    congr 1
    omega
  rw [htake] at hback
  exact ⟨_, hback, (getLast?_rdrop _ _).trans hx⟩

theorem isDifference_of_reverse (hf : ema prices fast = .ok fasts)
    (hs : ema prices slow = .ok slows) {bar : Nat} (hbar : bar < prices.length) {x : α}
    (hx : (differences fasts slows).reverse[prices.length - 1 - bar]? = some x) :
    IsDifference prices fast slow bar x := by
  obtain ⟨-, a, b, ha, hb, rfl⟩ := (getElem?_reverse_zipWith_lastN (· - ·) (Nat.min_le_left _ _)
    (Nat.min_le_right _ _)).1 hx
  exact ⟨a, b, isAverage_of_reverse hf hbar ha, isAverage_of_reverse hs hbar hb, rfl⟩

theorem areDifferences_rdrop (hf : ema prices fast = .ok fasts) (hs : ema prices slow = .ok slows)
    (hfast : 0 < fast) (hslow : 0 < slow) {bar : Nat} (hbar : bar < prices.length)
    (hfirst : (max fast slow - 1).toNat ≤ bar) :
    AreDifferences prices fast slow (max fast slow - 1).toNat bar
      ((differences fasts slows).rdrop (prices.length - 1 - bar)) := by
  have hlength := length_differences fasts slows
  rw [length_ema hf, length_ema hs, if_pos hfast, if_pos hslow] at hlength
  refine ⟨by rw [length_rdrop]; omega, fun i x hx => ?_⟩
  -- the place from the end is that of the bar
  rw [List.rdrop, List.getElem?_take] at hx
  split at hx
  · rename_i hi
    rw [getElem?_eq_reverse (by omega)] at hx
    refine isDifference_of_reverse hf hs (by omega) ?_
    rw [← hx]
    congr 1
    omega
  · cases hx

/-- **The numbers of a point belong to one bar.** -/
theorem isMacdAt_of_pointAt (hfast : 0 < fast) (hslow : 0 < slow) {points : List (MacdPoint α)}
    (h : macd prices fast slow signal = .ok points) {bar : Nat} {p : MacdPoint α}
    (hp : pointAt prices.length points bar = some p) :
    IsMacdAt prices fast slow signal bar p := by
  obtain ⟨fasts, slows, signals, hf, hs, hg, rfl⟩ := macd_eq_ok_iff.1 h
  obtain ⟨hbar, hp⟩ := pointAt_eq_some_iff.1 hp
  have hle := length_signals_le hg
  obtain ⟨hk, m, s, hm, hsignal, rfl⟩ := (getElem?_reverse_zipWith_lastN _ hle le_rfl).1
    (by rwa [lastN_length])
  -- the bar is not in the warm-up of the averages
  have hlength := length_differences fasts slows
  rw [length_ema hf, length_ema hs, if_pos hfast, if_pos hslow] at hlength
  refine ⟨isDifference_of_reverse hf hs hbar hm, ?_, rfl⟩
  exact ⟨_, _, areDifferences_rdrop hf hs hfast hslow hbar (by omega),
    back_ema signal _ (prices.length - 1 - bar) signals hg, (getLast?_rdrop _ _).trans hsignal⟩

end Bars

/-! ### Doubles -/

theorem exists_ema (prices : List Float) (period : Int) :
    ∃ line, ema prices period = .ok line := by
  rw [ema]
  split
  · exact ⟨[], rfl⟩
  · rename_i hperiod
    have hn : 0 < period.toNat := by omega
    have hsum : (Float.ofNat period.toNat + Float.ofNat 1 == 0) = false :=
      (Number.positive_ofNat hn).add_beq_zero (Number.positive_ofNat Nat.one_pos).notNegative
    have hweight : div (ofNat 2) (ofNat period.toNat + ofNat 1) = .ok _ := div_eq_ok (ofNat 2) hsum
    simp only [hweight, mean_eq_ok hn]
    exact ⟨_, rfl⟩

theorem exists_macd (prices : List Float) (fast slow signal : Int) :
    ∃ points, macd prices fast slow signal = .ok points := by
  obtain ⟨fasts, hf⟩ := exists_ema prices fast
  obtain ⟨slows, hs⟩ := exists_ema prices slow
  obtain ⟨signals, hg⟩ := exists_ema (differences fasts slows) signal
  exact ⟨_, macd_eq_ok_iff.2 ⟨fasts, slows, signals, hf, hs, hg, rfl⟩⟩

/-- **The points of convergence and divergence of a price list refer to one bar each.**  There is a
point for each bar from the end of the warm-up on, and it has the difference of the two averages at
that bar, the average of all differences up to that bar, and the first less the second. -/
theorem macd_points (prices : List Float) {fast slow signal : Int} (hfast : 0 < fast)
    (hslow : 0 < slow) (hsignal : 0 < signal) :
    ∃ points, macd prices fast slow signal = .ok points ∧
      (∀ bar : Nat, (∃ p, pointAt prices.length points bar = some p) ↔
        max fast slow + signal - 2 ≤ bar ∧ bar < prices.length) ∧
      ∀ bar p, pointAt prices.length points bar = some p →
        IsMacdAt prices fast slow signal bar p := by
  obtain ⟨points, h⟩ := exists_macd prices fast slow signal
  refine ⟨points, h, fun bar => ?_, fun bar p hp => isMacdAt_of_pointAt hfast hslow h hp⟩
  have hlength := length_macd h
  rw [if_pos ⟨hfast, hslow, hsignal⟩] at hlength
  rw [exists_pointAt_iff (by omega)]
  omega

/-- A fast average that is slower than the slow one. -/
theorem macd_points_reversed : (0 : Int) < 3 ∧ (0 : Int) < 2 ∧
    ∃ points, macd ([1, 2, 4, 8, 16] : List Float) 3 2 2 = .ok points ∧
      (∃ p, pointAt 5 points 3 = some p ∧ IsMacdAt [1, 2, 4, 8, 16] 3 2 2 3 p) ∧
      pointAt 5 points 2 = none := by
  have hthree : (0 : Int) < 3 := by decide
  have htwo : (0 : Int) < 2 := by decide
  obtain ⟨points, h, hbars, hpoints⟩ := macd_points [1, 2, 4, 8, 16] hthree htwo htwo
  obtain ⟨p, hp⟩ := (hbars 3).2 (by decide)
  refine ⟨hthree, htwo, points, h, ⟨p, hp, hpoints 3 p hp⟩, ?_⟩
  -- bar 2 is in the warm-up
  rw [Option.eq_none_iff_forall_ne_some]
  exact fun q hq => absurd ((hbars 2).1 ⟨q, hq⟩) (by decide)

end Indicator

end BarScript
