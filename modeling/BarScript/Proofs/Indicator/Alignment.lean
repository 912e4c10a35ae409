import BarScript.Indicator.Average
import BarScript.Indicator.Momentum
import BarScript.Indicator.Stochastic
import BarScript.Proofs.Except
import Mathlib.Data.List.DropRight

/-!
# Indicators belong to the last bars

The points of an indicator belong to the last bars of its input, one point a bar, from the end of a
warm-up on.  A point depends on its bar and earlier ones only, so the points for the input without
its last bars are the points for the whole input without the last points (`Back`).

`tail_aligned` : both for all indicators over arbitrary numbers, whatever the settings are.

For windows this is a fact about lists (`windows_take`); a running average keeps it as each of its
values is computed from the one before (`emaFrom_take`, `kdjFrom_take`); the convergence of two
averages keeps it as the longer one of them is cut to the length of the other
(`differences_rdrop`).
-/

namespace BarScript

namespace Indicator

open Scalar

/-! ### Lists without their last items -/

section Lists

variable {α β γ ε : Type}

@[simp] theorem length_rdrop (xs : List α) (k : Nat) : (xs.rdrop k).length = xs.length - k := by
  simp [List.rdrop]

theorem rdrop_eq_nil {xs : List α} {k : Nat} (h : xs.length ≤ k) : xs.rdrop k = [] :=
  List.eq_nil_of_length_eq_zero (by simp [h])

theorem length_mapM {f : α → Except ε β} {xs : List α} {ys : List β} (h : xs.mapM f = .ok ys) :
    ys.length = xs.length := by
  induction xs generalizing ys with
  | nil => cases h; rfl
  | cons x xs ih =>
    rw [List.mapM_cons] at h
    obtain ⟨y, -, h⟩ := bind_eq_ok_iff.1 h
    obtain ⟨ys, hys, h⟩ := bind_eq_ok_iff.1 h
    cases h
    simp [ih hys]

theorem mapM_take {f : α → Except ε β} {xs : List α} {ys : List β} (h : xs.mapM f = .ok ys)
    (m : Nat) : (xs.take m).mapM f = .ok (ys.take m) := by
  induction xs generalizing ys m with
  | nil => cases h; simp [pure, Except.pure]
  | cons x xs ih =>
    rw [List.mapM_cons] at h
    obtain ⟨y, hy, h⟩ := bind_eq_ok_iff.1 h
    obtain ⟨ys, hys, h⟩ := bind_eq_ok_iff.1 h
    cases h
    cases m with
    | zero => rfl
    | succ m => simp [List.mapM_cons, hy, ih hys m, pure, Except.pure]

theorem mapM_congr {f g : α → Except ε β} {xs : List α} (h : ∀ x ∈ xs, f x = g x) :
    xs.mapM f = xs.mapM g := by
  induction xs with
  | nil => rfl
  | cons x xs ih =>
    rw [List.forall_mem_cons] at h
    rw [List.mapM_cons, List.mapM_cons, h.1, ih h.2]

theorem mapM_rdrop {f : α → Except ε β} {xs : List α} {ys : List β} (h : xs.mapM f = .ok ys)
    (k : Nat) : (xs.rdrop k).mapM f = .ok (ys.rdrop k) := by
  rw [List.rdrop, List.rdrop, length_mapM h]
  exact mapM_take h _

theorem zipWith_rdrop (f : α → β → γ) {xs : List α} {ys : List β} (h : xs.length = ys.length)
    (k : Nat) : List.zipWith f (xs.rdrop k) (ys.rdrop k) = (List.zipWith f xs ys).rdrop k := by
  rw [List.rdrop, List.rdrop, List.rdrop, List.length_zipWith, h, Nat.min_self,
    List.take_zipWith]

theorem zipIdx_take (xs : List α) (m : Nat) : (xs.take m).zipIdx = xs.zipIdx.take m := by
  refine List.ext_getElem? fun i => ?_
  by_cases h : i < m
  · simp [h]
  · rw [List.getElem?_eq_none (by simp; omega), List.getElem?_eq_none (by simp; omega)]

@[simp] theorem length_lastN (n : Nat) (xs : List α) : (lastN n xs).length = min n xs.length := by
  rw [lastN, List.length_drop]
  omega

/-- The last items of a list that is cut at the end. -/
theorem lastN_rdrop {n : Nat} {xs : List α} (h : n ≤ xs.length) (k : Nat) :
    lastN (n - k) (xs.rdrop k) = (lastN n xs).rdrop k := by
  by_cases hk : n ≤ k
  · have hlast : (lastN n xs).length ≤ k :=
      length_lastN n xs ▸ Nat.le_trans (Nat.min_le_left _ _) hk
    rw [rdrop_eq_nil hlast]
    exact List.eq_nil_of_length_eq_zero (by simp [hk])
  · rw [lastN, length_rdrop, List.rdrop, List.rdrop, length_lastN, lastN, List.drop_take]
    have hdrop : xs.length - k - (n - k) = xs.length - n := by omega
    have htake : xs.length - k - (xs.length - n) = min n xs.length - k := by omega
    rw [hdrop, htake]

theorem length_windows {n : Nat} (hn : 0 < n) (xs : List α) :
    (windows n xs).length = xs.length + 1 - n := by
  induction xs with
  | nil =>
    rw [windows, List.length_nil, List.length_nil]
    omega
  | cons x xs ih =>
    rw [windows]
    split
    · rename_i h
      rw [List.length_take, List.length_cons] at h
      rw [List.length_cons, List.length_cons, ih]
      omega
    · rename_i h
      rw [List.length_take, List.length_cons] at h
      rw [List.length_nil, List.length_cons]
      omega

/-- The windows of the first items are the first windows. -/
theorem windows_take {n : Nat} (hn : 0 < n) (xs : List α) (m : Nat) :
    windows n (xs.take m) = (windows n xs).take (m + 1 - n) := by
  induction xs generalizing m with
  | nil => simp [windows]
  | cons x xs ih =>
    by_cases hm : m + 1 ≤ n
    · -- no full window is left
      rw [Nat.sub_eq_zero_of_le hm, List.take_zero]
      refine List.eq_nil_of_length_eq_zero ?_
      rw [length_windows hn, List.length_take]
      omega
    · obtain ⟨m, rfl⟩ : ∃ m', m = m' + 1 := ⟨m - 1, by omega⟩
      have htake : (x :: xs.take m).take n = (x :: xs).take n := by
        rw [← List.take_succ_cons, List.take_take, Nat.min_eq_left (by omega)]
      rw [List.take_succ_cons, windows, windows, htake]
      split
      · rw [ih, show m + 1 + 1 - n = m + 1 - n + 1 by omega, List.take_succ_cons]
      · rw [List.take_nil]

theorem windows_rdrop {n : Nat} (hn : 0 < n) (xs : List α) (k : Nat) :
    windows n (xs.rdrop k) = (windows n xs).rdrop k := by
  rw [List.rdrop, windows_take hn, List.rdrop, length_windows hn]
  congr 1
  omega

@[simp] theorem length_moves [Sub α] (xs : List α) : (moves xs).length = xs.length - 1 := by
  rw [moves, List.length_zipWith, List.length_tail]
  omega

theorem zipWith_take_take (f : α → β → γ) (xs : List α) (ys : List β) (m n : Nat) :
    List.zipWith f (xs.take m) (ys.take n) = (List.zipWith f xs ys).take (min m n) := by
  rw [List.zipWith_eq_zipWith_take_min, List.take_take, List.take_take, List.take_zipWith,
    @List.zipWith_eq_zipWith_take_min _ _ _ f (xs.take (min m n))]
  simp only [List.length_take, List.take_take]
  congr 2 <;> omega

theorem moves_rdrop [Sub α] (xs : List α) (k : Nat) : moves (xs.rdrop k) = (moves xs).rdrop k := by
  rw [List.rdrop, List.rdrop, length_moves, moves, moves, ← List.drop_one, ← List.drop_one,
    List.drop_take, zipWith_take_take]
  congr 1
  omega

theorem zip_drop_rdrop (n : Nat) (xs : List α) (k : Nat) :
    (xs.rdrop k).zip ((xs.rdrop k).drop n) = (xs.zip (xs.drop n)).rdrop k := by
  rw [List.rdrop, List.rdrop, List.drop_take, List.zip_eq_zipWith, zipWith_take_take,
    List.zip_eq_zipWith, List.length_zipWith, List.length_drop]
  congr 1
  omega

theorem length_windowEnds (n : Nat) (xs : List α) :
    (windowEnds n xs).length = xs.length - (n - 1) := by
  rw [windowEnds, List.length_zipIdx, List.length_drop]

theorem windowEnds_rdrop (n : Nat) (xs : List α) (k : Nat) :
    windowEnds n (xs.rdrop k) = (windowEnds n xs).rdrop k := by
  rw [List.rdrop, List.rdrop, length_windowEnds, windowEnds, windowEnds, List.drop_take,
    zipIdx_take]
  congr 1
  omega

/-- A window ends in the last item at the latest. -/
theorem add_le_of_mem_windowEnds {n : Nat} (hn : 0 < n) {xs : List α} {e : α × Nat}
    (h : e ∈ windowEnds n xs) : e.2 + n ≤ xs.length := by
  have := (List.mem_zipIdx' h).1
  rw [List.length_drop] at this
  omega

end Lists

/-! ### Lines -/

section Lines

variable {α β : Type}

/-- The second line is the first one without its last `k` points. -/
def Back (k : Nat) (x y : Except Fault (List β)) : Prop :=
  ∀ points, x = .ok points → y = .ok (points.rdrop k)

/-- A line that an indicator with the given settings has for an input of so many bars; `line k` is
its line for the input without the last `k` bars. -/
structure TailAligned (settings : List Int) (warmUp : Int) (length : Nat)
    (line : Nat → Except Fault (List β)) : Prop where
  /-- There is a point for each bar from the end of the warm-up on, or none at all if a setting is
  not positive. -/
  length_eq : ∀ points, line 0 = .ok points → (points.length : Int) =
    if ∀ n ∈ settings, 0 < n then max 0 (length - warmUp + 1) else 0
  /-- The line as it was some bars ago is the line without its last points. -/
  back : ∀ k ≤ length, Back k (line 0) (line k)

theorem length_overWindows {period : Int} {point : List α → Except Fault β} {xs : List α}
    {points : List β} (h : overWindows period point xs = .ok points) :
    points.length = if 0 < period then xs.length + 1 - period.toNat else 0 := by
  rw [overWindows] at h
  split at h
  · cases h
    rw [if_neg (by omega), List.length_nil]
  · rw [length_mapM h, length_windows (by omega), if_pos (by omega)]

theorem back_overWindows (period : Int) (point : List α → Except Fault β) (xs : List α) (k : Nat) :
    Back k (overWindows period point xs) (overWindows period point (xs.rdrop k)) := by
  intro points h
  rw [overWindows] at h ⊢
  split at h
  · cases h
    rw [if_pos ‹_›, List.rdrop_nil]
  · rw [if_neg ‹_›, windows_rdrop (by omega)]
    exact mapM_rdrop h k

theorem tailAligned_overWindows (period : Int) (point : List α → Except Fault β) (xs : List α) :
    TailAligned [period] period xs.length fun k => overWindows period point (xs.rdrop k) where
  length_eq points h := by
    rw [List.rdrop_zero] at h
    rw [length_overWindows h]
    simp only [List.mem_singleton, forall_eq]
    split <;> omega
  back k _ := by
    rw [List.rdrop_zero]
    exact back_overWindows period point xs k

end Lines

section Indicators

variable {α β : Type} [Scalar α]

theorem tailAligned_rsi (period : Int) (xs : List α) :
    TailAligned [period] (period + 1) xs.length fun k => rsi (xs.rdrop k) period where
  length_eq points h := by
    rw [List.rdrop_zero] at h
    rw [length_overWindows h, length_moves]
    simp only [List.mem_singleton, forall_eq]
    split <;> omega
  back k _ := by
    rw [List.rdrop_zero, rsi, rsi, moves_rdrop]
    exact back_overWindows period _ (moves xs) k

theorem tailAligned_roc (period : Int) (xs : List α) :
    TailAligned [period] (period + 1) xs.length fun k => roc (xs.rdrop k) period where
  length_eq points h := by
    simp only [List.rdrop_zero, roc, List.mem_singleton, forall_eq] at h ⊢
    split at h
    · cases h
      rw [if_neg (by omega)]
      rfl
    · rw [length_mapM h, if_pos (by omega), List.length_zip, List.length_drop]
      omega
  back k _ points h := by
    rw [List.rdrop_zero] at h
    rw [roc] at h ⊢
    split at h
    · cases h
      rw [if_pos ‹_›, List.rdrop_nil]
    · rw [if_neg ‹_›, zip_drop_rdrop]
      exact mapM_rdrop h k

/-! ### Exponential averages -/

@[simp] theorem length_emaFrom (weight value : α) (xs : List α) :
    (emaFrom weight value xs).length = xs.length := by
  induction xs generalizing value with
  | nil => rfl
  | cons x xs ih => simp [emaFrom, ih]

theorem emaFrom_take (weight value : α) (xs : List α) (m : Nat) :
    emaFrom weight value (xs.take m) = (emaFrom weight value xs).take m := by
  induction xs generalizing value m with
  | nil => simp [emaFrom]
  | cons x xs ih =>
    cases m with
    | zero => rfl
    | succ m => simp [emaFrom, ih]

theorem length_ema {xs : List α} {period : Int} {points : List α} (h : ema xs period = .ok points) :
    points.length = if 0 < period then xs.length + 1 - period.toNat else 0 := by
  rw [ema] at h
  split at h
  · cases h
    rw [List.length_nil]
    split <;> omega
  · obtain ⟨weight, -, h⟩ := bind_eq_ok_iff.1 h
    obtain ⟨first, -, h⟩ := bind_eq_ok_iff.1 h
    cases h
    rw [if_pos (by omega), List.length_cons, length_emaFrom, List.length_drop]
    omega

theorem back_ema (period : Int) (xs : List α) (k : Nat) :
    Back k (ema xs period) (ema (xs.rdrop k) period) := by
  intro points h
  have hlength := length_ema h
  by_cases hshort : period ≤ 0 ∨ ((xs.rdrop k).length : Int) < period
  · rw [ema, if_pos hshort, rdrop_eq_nil]
    rw [length_rdrop] at hshort
    split at hlength <;> omega
  · rw [ema, if_neg hshort]
    rw [length_rdrop] at hshort
    rw [ema, if_neg (by omega)] at h
    obtain ⟨weight, hweight, h⟩ := bind_eq_ok_iff.1 h
    obtain ⟨first, hfirst, h⟩ := bind_eq_ok_iff.1 h
    cases h
    -- the first window is the same, and so are the prices behind it up to the last ones
    have htake : (xs.rdrop k).take period.toNat = xs.take period.toNat := by
      rw [List.rdrop, List.take_take, Nat.min_eq_left (by omega)]
    have hdrop : (xs.rdrop k).drop period.toNat =
        (xs.drop period.toNat).take (xs.length - k - period.toNat) := List.drop_take
    simp only [htake, hdrop, hweight, hfirst, bind, Except.bind, pure, Except.pure, emaFrom_take]
    rw [List.rdrop, List.length_cons, length_emaFrom, List.length_drop, ← List.take_succ_cons]
    congr 2
    omega

theorem tailAligned_ema (period : Int) (xs : List α) :
    TailAligned [period] period xs.length fun k => ema (xs.rdrop k) period where
  length_eq points h := by
    rw [List.rdrop_zero] at h
    rw [length_ema h]
    simp only [List.mem_singleton, forall_eq]
    split <;> omega
  back k _ := by
    rw [List.rdrop_zero]
    exact back_ema period xs k

/-- The differences of two averages at the bars that both of them have. -/
def differences (fasts slows : List α) : List α :=
  List.zipWith (· - ·) (lastN (min fasts.length slows.length) fasts)
    (lastN (min fasts.length slows.length) slows)

theorem length_differences (fasts slows : List α) :
    (differences fasts slows).length = min fasts.length slows.length := by
  rw [differences, List.length_zipWith, length_lastN, length_lastN]
  omega

theorem differences_rdrop (fasts slows : List α) (k : Nat) :
    differences (fasts.rdrop k) (slows.rdrop k) = (differences fasts slows).rdrop k := by
  have hmin : min (fasts.rdrop k).length (slows.rdrop k).length =
      min fasts.length slows.length - k := by
    rw [length_rdrop, length_rdrop]
    omega
  have hlength : (lastN (min fasts.length slows.length) fasts).length =
      (lastN (min fasts.length slows.length) slows).length := by
    rw [length_lastN, length_lastN]
    omega
  rw [differences, hmin, lastN_rdrop (Nat.min_le_left _ _), lastN_rdrop (Nat.min_le_right _ _),
    zipWith_rdrop _ hlength, differences]

/-- The lines that convergence and divergence are made of. -/
theorem macd_eq_ok_iff {xs : List α} {fast slow signal : Int} {points : List (MacdPoint α)} :
    macd xs fast slow signal = .ok points ↔ ∃ fasts slows signals, ema xs fast = .ok fasts ∧
      ema xs slow = .ok slows ∧ ema (differences fasts slows) signal = .ok signals ∧
      points = List.zipWith (fun m s => ⟨m, s, m - s⟩)
        (lastN signals.length (differences fasts slows)) signals := by
  simp only [macd, bind_eq_ok_iff, pure, Except.pure, Except.ok.injEq]
  constructor
  · rintro ⟨fasts, hf, slows, hs, signals, hg, rfl⟩
    exact ⟨fasts, slows, signals, hf, hs, hg, rfl⟩
  · rintro ⟨fasts, slows, signals, hf, hs, hg, rfl⟩
    exact ⟨fasts, hf, slows, hs, signals, hg, rfl⟩

theorem length_signals_le {xs signals : List α} {signal : Int} (h : ema xs signal = .ok signals) :
    signals.length ≤ xs.length := by
  rw [length_ema h]
  split <;> omega

theorem length_macd {xs : List α} {fast slow signal : Int} {points : List (MacdPoint α)}
    (h : macd xs fast slow signal = .ok points) :
    (points.length : Int) = if 0 < fast ∧ 0 < slow ∧ 0 < signal then
      max 0 (xs.length - (max fast slow + signal - 1) + 1) else 0 := by
  obtain ⟨fasts, slows, signals, hf, hs, hg, rfl⟩ := macd_eq_ok_iff.1 h
  replace hf := length_ema hf
  replace hs := length_ema hs
  replace hg := length_ema hg
  rw [length_differences] at hg
  simp only [List.length_zipWith, length_lastN, length_differences]
  by_cases hfast : 0 < fast <;> by_cases hslow : 0 < slow <;> by_cases hsignal : 0 < signal <;>
    simp only [hfast, hslow, hsignal, if_true, if_false, and_true, and_false] at hf hs hg ⊢ <;>
    omega

theorem back_macd (fast slow signal : Int) (xs : List α) (k : Nat) :
    Back k (macd xs fast slow signal) (macd (xs.rdrop k) fast slow signal) := by
  intro points h
  obtain ⟨fasts, slows, signals, hf, hs, hg, rfl⟩ := macd_eq_ok_iff.1 h
  have hle := length_signals_le hg
  have hlength : (lastN signals.length (differences fasts slows)).length = signals.length := by
    rw [length_lastN]
    omega
  refine macd_eq_ok_iff.2 ⟨_, _, _, back_ema fast xs k _ hf, back_ema slow xs k _ hs,
    differences_rdrop fasts slows k ▸ back_ema signal _ k _ hg, ?_⟩
  rw [differences_rdrop, length_rdrop, lastN_rdrop hle, zipWith_rdrop _ hlength]

theorem tailAligned_macd (fast slow signal : Int) (xs : List α) :
    TailAligned [fast, slow, signal] (max fast slow + signal - 1) xs.length
      fun k => macd (xs.rdrop k) fast slow signal where
  length_eq points h := by
    rw [List.rdrop_zero] at h
    rw [length_macd h]
    simp only [List.mem_cons, List.not_mem_nil, or_false, forall_eq_or_imp, forall_eq]
  back k _ := by
    rw [List.rdrop_zero]
    exact back_macd fast slow signal xs k

/-! ### The place of the close -/

theorem span_take (highs lows : List α) {period start m : Nat} (h : start + period ≤ m)
    (close : α) : span (highs.take m) (lows.take m) period start close =
      span highs lows period start close := by
  have hwindow : ∀ xs : List α,
      ((xs.take m).drop start).take period = (xs.drop start).take period := fun xs => by
    rw [List.drop_take, List.take_take, Nat.min_eq_left (by omega)]
  rw [span, span, hwindow, hwindow]

variable {highs lows closes : List α}

theorem length_places {place : Span α → Except Fault α} {period : Int} {points : List α}
    (hh : highs.length = closes.length) (hl : lows.length = closes.length)
    (h : places place highs lows closes period = .ok points) :
    points.length = if 0 < period then closes.length + 1 - period.toNat else 0 := by
  rw [places] at h
  split at h
  · rename_i hwindow
    simp only [haveWindow, Bool.and_eq_true, decide_eq_true_eq] at hwindow
    rw [length_mapM h, length_windowEnds, if_pos (by omega)]
    omega
  · rename_i hwindow
    simp only [haveWindow, Bool.and_eq_true, decide_eq_true_eq] at hwindow
    cases h
    rw [List.length_nil]
    split <;> omega

theorem back_places (place : Span α → Except Fault α) (period : Int)
    (hh : highs.length = closes.length) (hl : lows.length = closes.length) (k : Nat) :
    Back k (places place highs lows closes period)
      (places place (highs.rdrop k) (lows.rdrop k) (closes.rdrop k) period) := by
  intro points h
  have hlength := length_places hh hl h
  by_cases hwindow : haveWindow (highs.rdrop k) (lows.rdrop k) (closes.rdrop k) period = true
  · rw [places, if_pos hwindow]
    simp only [haveWindow, Bool.and_eq_true, decide_eq_true_eq, length_rdrop] at hwindow
    have hwindow' : haveWindow highs lows closes period = true := by
      simp only [haveWindow, Bool.and_eq_true, decide_eq_true_eq]
      omega
    rw [places, if_pos hwindow'] at h
    rw [← mapM_rdrop h k, ← windowEnds_rdrop]
    refine mapM_congr fun e he => ?_
    -- the window ends in front of the last `k` bars
    have hend := add_le_of_mem_windowEnds (by omega) he
    rw [length_rdrop] at hend
    rw [List.rdrop, List.rdrop, hh, hl, span_take _ _ hend]
  · rw [places, if_neg hwindow, rdrop_eq_nil]
    simp only [haveWindow, Bool.and_eq_true, decide_eq_true_eq, length_rdrop] at hwindow
    split at hlength <;> omega

theorem length_kdjFrom {kLength dLength : Int} {k d : α} {places : List α}
    {points : List (KdjPoint α)} (h : kdjFrom kLength dLength k d places = .ok points) :
    points.length = places.length := by
  induction places generalizing k d points with
  | nil => cases h; rfl
  | cons place rest ih =>
    obtain ⟨k, -, h⟩ := bind_eq_ok_iff.1 h
    obtain ⟨d, -, h⟩ := bind_eq_ok_iff.1 h
    obtain ⟨points, hpoints, h⟩ := bind_eq_ok_iff.1 h
    cases h
    simp [ih hpoints]

theorem kdjFrom_take {kLength dLength : Int} {k d : α} {places : List α}
    {points : List (KdjPoint α)} (h : kdjFrom kLength dLength k d places = .ok points) (m : Nat) :
    kdjFrom kLength dLength k d (places.take m) = .ok (points.take m) := by
  induction places generalizing k d points m with
  | nil => cases h; simp [kdjFrom]
  | cons place rest ih =>
    obtain ⟨k, hk, h⟩ := bind_eq_ok_iff.1 h
    obtain ⟨d, hd, h⟩ := bind_eq_ok_iff.1 h
    obtain ⟨points, hpoints, h⟩ := bind_eq_ok_iff.1 h
    cases h
    cases m with
    | zero => rfl
    | succ m =>
      rw [List.take_succ_cons, kdjFrom, hk]
      simp [hd, ih hpoints m, bind, Except.bind, pure, Except.pure]

theorem tailAligned_kdj (period kLength dLength : Int) (hh : highs.length = closes.length)
    (hl : lows.length = closes.length) :
    TailAligned [period, kLength, dLength] period closes.length fun k =>
      kdj (highs.rdrop k) (lows.rdrop k) (closes.rdrop k) period kLength dLength where
  length_eq points h := by
    simp only [List.rdrop_zero, kdj, List.mem_cons, List.not_mem_nil, or_false, forall_eq_or_imp,
      forall_eq] at h ⊢
    split at h
    · cases h
      rw [if_neg (by omega)]
      rfl
    · obtain ⟨places, hplaces, h⟩ := bind_eq_ok_iff.1 h
      rw [length_kdjFrom h, length_places hh hl hplaces]
      split <;> split <;> omega
  back k _ points h := by
    simp only [List.rdrop_zero, kdj] at h ⊢
    split at h
    · cases h
      rw [if_pos ‹_›, List.rdrop_nil]
    · obtain ⟨places, hplaces, h⟩ := bind_eq_ok_iff.1 h
      rw [if_neg ‹_›, back_places _ period hh hl k places hplaces, List.rdrop, List.rdrop,
        length_kdjFrom h]
      exact kdjFrom_take h _

theorem tailAligned_williamsR (period : Int) (hh : highs.length = closes.length)
    (hl : lows.length = closes.length) :
    TailAligned [period] period closes.length fun k =>
      williamsR (highs.rdrop k) (lows.rdrop k) (closes.rdrop k) period where
  length_eq points h := by
    simp only [List.rdrop_zero, williamsR] at h
    rw [length_places hh hl h]
    simp only [List.mem_singleton, forall_eq]
    split <;> omega
  back k _ := by
    simp only [List.rdrop_zero, williamsR]
    exact back_places _ period hh hl k

/-! ### All indicators -/

/-- **Indicators belong to the last bars and never look ahead.**  Where an indicator has a line for
a price list, the line has a point for each bar from the end of the warm-up on if all settings are
positive, and no points otherwise.  For the list without its last `k` bars the line is the same one
without its last `k` points. -/
theorem tail_aligned (prices highs lows closes : List α) (hh : highs.length = closes.length)
    (hl : lows.length = closes.length) (period fast slow signal kLength dLength : Int)
    (multiplier : α) :
    TailAligned [period] period prices.length (fun k => sma (prices.rdrop k) period) ∧
    TailAligned [period] period prices.length (fun k => ema (prices.rdrop k) period) ∧
    TailAligned [period] (period + 1) prices.length (fun k => rsi (prices.rdrop k) period) ∧
    TailAligned [fast, slow, signal] (max fast slow + signal - 1) prices.length
      (fun k => macd (prices.rdrop k) fast slow signal) ∧
    TailAligned [period] period prices.length
      (fun k => bollinger (prices.rdrop k) period multiplier) ∧
    TailAligned [period, kLength, dLength] period closes.length (fun k =>
      kdj (highs.rdrop k) (lows.rdrop k) (closes.rdrop k) period kLength dLength) ∧
    TailAligned [period] period closes.length (fun k =>
      williamsR (highs.rdrop k) (lows.rdrop k) (closes.rdrop k) period) ∧
    TailAligned [period] period prices.length (fun k => highest (prices.rdrop k) period) ∧
    TailAligned [period] period prices.length (fun k => lowest (prices.rdrop k) period) ∧
    TailAligned [period] (period + 1) prices.length (fun k => roc (prices.rdrop k) period) :=
  ⟨tailAligned_overWindows period _ prices, tailAligned_ema period prices,
    tailAligned_rsi period prices, tailAligned_macd fast slow signal prices,
    tailAligned_overWindows period _ prices, tailAligned_kdj period kLength dLength hh hl,
    tailAligned_williamsR period hh hl, tailAligned_overWindows period _ prices,
    tailAligned_overWindows period _ prices, tailAligned_roc period prices⟩

/-- Three bars, and the first two of them. -/
theorem tail_aligned_three : ∃ points : List (KdjPoint Float),
    [3.0, 4, 5].length = [2.0, 3, 4].length ∧ [1.0, 2, 2].length = [2.0, 3, 4].length ∧
      kdj [3, 4, 5] [1, 2, 2] [2, 3, 4] 2 3 3 = .ok points ∧ points.length = 2 ∧
      kdj [3, 4] [1, 2] [2, 3] 2 3 3 = .ok (points.rdrop 1) := by
  obtain ⟨points, hpoints⟩ : ∃ points : List (KdjPoint Float),
      kdj [3, 4, 5] [1, 2, 2] [2, 3, 4] 2 3 3 = .ok points := ⟨_, rfl⟩
  obtain ⟨-, -, -, -, -, hkdj, -⟩ := tail_aligned ([] : List Float) [3, 4, 5] [1, 2, 2] [2, 3, 4]
    (by simp) (by simp) 2 0 0 0 3 3 2
  have hlength : points.length = 2 := by
    have := hkdj.length_eq points (by simpa only [List.rdrop_zero] using hpoints)
    rw [if_pos (by decide)] at this
    simp only [List.length_cons, List.length_nil] at this
    omega
  have hback := hkdj.back 1 (by decide) points (by simpa only [List.rdrop_zero] using hpoints)
  exact ⟨points, by simp, by simp, hpoints, hlength, hback⟩

end Indicators

end Indicator

end BarScript
