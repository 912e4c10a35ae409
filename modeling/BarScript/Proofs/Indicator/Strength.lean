import BarScript.Proofs.Indicator.Exact
import Mathlib.Algebra.Order.BigOperators.Group.List
import Mathlib.Algebra.Order.Field.Basic
import Mathlib.Order.Interval.Set.Basic
import Mathlib.Tactic.FieldSimp
import Mathlib.Tactic.Linarith
import Mathlib.Tactic.Ring

/-!
# Relative strength in closed form

In exact arithmetic the relative strength of a window is the share of the upward moves in all moves,
in percent: `100 * G / (G + L)`, where `G` is what the window rises by (`rise`) and `L` what it
falls by (`fall`), and 100 if it does not fall.  The averages that it is computed from have the same
divisor, and the ratio of the averages is that of the sums (`strength_eq`).

`rsi_upwardShare` : each point of `rsi` is that share for the window of moves it belongs to, with
what follows of it: the range, the windows with the extreme values, and the strength of the prices
upside down.
-/

namespace BarScript

namespace Indicator

open Scalar

/-! ### What a window rises and falls by -/

/-- The sum of the upward moves. -/
def rise (ms : List ℚ) : ℚ := (ms.filter (0 < ·)).sum

/-- The sum of the downward moves, without their signs. -/
def fall (ms : List ℚ) : ℚ := ((ms.filter (· < 0)).map (|·|)).sum

variable {ms : List ℚ}

theorem rise_nonneg (ms : List ℚ) : 0 ≤ rise ms :=
  List.sum_nonneg fun x hx => le_of_lt (by simpa using (List.mem_filter.1 hx).2)

theorem fall_nonneg (ms : List ℚ) : 0 ≤ fall ms :=
  List.sum_nonneg <| List.forall_mem_map.2 fun x _ => abs_nonneg x

theorem fall_map_neg (ms : List ℚ) : fall (ms.map (-·)) = rise ms := by
  induction ms with
  | nil => rfl
  | cons m ms ih =>
    unfold fall rise at ih ⊢
    rw [List.map_cons, List.filter_cons, List.filter_cons]
    by_cases hm : 0 < m
    · have hneg : -m < 0 := neg_lt_zero.2 hm
      simp [hm, hneg, ih, abs_of_pos hm]
    · have hneg : ¬ -m < 0 := fun h => hm (neg_lt_zero.1 h)
      simpa [hm, hneg] using ih

theorem rise_map_neg (ms : List ℚ) : rise (ms.map (-·)) = fall ms := by
  rw [← fall_map_neg, List.map_map]
  simp

/-- A window that rises by nothing has no upward move. -/
theorem rise_eq_zero_iff : rise ms = 0 ↔ ∀ m ∈ ms, m ≤ 0 := by
  constructor
  · intro h m hm
    by_contra hpos
    rw [not_le] at hpos
    have hmem : m ∈ ms.filter (0 < ·) := List.mem_filter.2 ⟨hm, by simpa using hpos⟩
    have hzero := List.all_zero_of_le_zero_le_of_sum_eq_zero
      (fun x hx => le_of_lt (by simpa using (List.mem_filter.1 hx).2)) h hmem
    exact hpos.ne' hzero
  · intro h
    have hnil : ms.filter (0 < ·) = [] :=
      List.filter_eq_nil_iff.2 fun m hm => by simpa using h m hm
    rw [rise, hnil, List.sum_nil]

/-- A window that falls by nothing has no downward move. -/
theorem fall_eq_zero_iff : fall ms = 0 ↔ ∀ m ∈ ms, 0 ≤ m := by
  rw [← rise_map_neg, rise_eq_zero_iff, List.forall_mem_map]
  simp only [neg_nonpos]

/-! ### The share of the upward moves -/

/-- The share of the upward moves in all moves, in percent; 100 if no move goes down. -/
def upwardShare (ms : List ℚ) : ℚ :=
  if fall ms = 0 then 100 else 100 * rise ms / (rise ms + fall ms)

theorem upwardShare_of_fall (h : fall ms ≠ 0) :
    upwardShare ms = 100 * rise ms / (rise ms + fall ms) := if_neg h

theorem pos_of_fall (h : fall ms ≠ 0) : 0 < rise ms + fall ms :=
  add_pos_of_nonneg_of_pos (rise_nonneg ms) (lt_of_le_of_ne (fall_nonneg ms) h.symm)

theorem upwardShare_mem (ms : List ℚ) : upwardShare ms ∈ Set.Icc 0 100 := by
  by_cases h : fall ms = 0
  · rw [upwardShare, if_pos h]
    norm_num
  · have hpos := pos_of_fall h
    have hrise := rise_nonneg ms
    have hfall := fall_nonneg ms
    rw [upwardShare_of_fall h]
    constructor
    · exact div_nonneg (by linarith) hpos.le
    · rw [div_le_iff₀ hpos]
      linarith

theorem upwardShare_eq_hundred_iff : upwardShare ms = 100 ↔ ∀ m ∈ ms, 0 ≤ m := by
  rw [← fall_eq_zero_iff]
  by_cases h : fall ms = 0
  · rw [upwardShare, if_pos h]
    exact iff_of_true rfl h
  · rw [upwardShare_of_fall h, div_eq_iff (pos_of_fall h).ne']
    refine iff_of_false (fun heq => h ?_) h
    linarith

theorem upwardShare_eq_zero_iff : upwardShare ms = 0 ↔ (∃ m ∈ ms, m < 0) ∧ ∀ m ∈ ms, m ≤ 0 := by
  have hfalls : (∃ m ∈ ms, m < 0) ↔ fall ms ≠ 0 := by
    rw [Ne, fall_eq_zero_iff]
    push Not
    rfl
  rw [hfalls, ← rise_eq_zero_iff]
  by_cases h : fall ms = 0
  · rw [upwardShare, if_pos h]
    exact iff_of_false (by norm_num) fun hand => hand.1 h
  · rw [upwardShare_of_fall h, div_eq_zero_iff]
    have hne := (pos_of_fall h).ne'
    simp [h, hne]

theorem upwardShare_map_neg (hrise : rise ms ≠ 0) (hfall : fall ms ≠ 0) :
    upwardShare (ms.map (-·)) = 100 - upwardShare ms := by
  have hne := (pos_of_fall hfall).ne'
  rw [upwardShare_of_fall (by rwa [fall_map_neg]), upwardShare_of_fall hfall, fall_map_neg,
    rise_map_neg, add_comm (fall ms)]
  field_simp
  ring

/-! ### Moves -/

/-- The `n` moves from a price on. -/
def movesFrom (prices : List ℚ) (n start : Nat) : List ℚ := ((moves prices).drop start).take n

theorem moves_map_neg (prices : List ℚ) : moves (prices.map (-·)) = (moves prices).map (-·) := by
  unfold moves
  rw [← List.map_tail, List.zipWith_map, List.map_zipWith]
  congr 1
  funext a b
  ring

theorem movesFrom_map_neg (prices : List ℚ) (n start : Nat) :
    movesFrom (prices.map (-·)) n start = (movesFrom prices n start).map (-·) := by
  rw [movesFrom, movesFrom, moves_map_neg, ← List.map_drop, List.map_take]

/-! ### Relative strength -/

section

variable [SquareRoot]

theorem sum_map_gain (ms : List ℚ) : (ms.map gain).sum = rise ms := by
  induction ms with
  | nil => rfl
  | cons m ms ih =>
    unfold rise at ih ⊢
    rw [List.map_cons, List.sum_cons, ih, gain, List.filter_cons]
    by_cases hm : 0 < m
    · simp [exact_lt, exact_ofNat, hm]
    · simp [exact_lt, exact_ofNat, hm]

theorem sum_map_loss (ms : List ℚ) : (ms.map loss).sum = fall ms := by
  induction ms with
  | nil => rfl
  | cons m ms ih =>
    unfold fall at ih ⊢
    rw [List.map_cons, List.sum_cons, ih, loss, List.filter_cons]
    by_cases hm : m < 0
    · simp [exact_lt, exact_ofNat, hm, abs_of_neg hm]
    · simp [exact_lt, exact_ofNat, hm]

/-- **The strength of a window is the share of its upward moves.** -/
theorem strength_eq {n : Nat} (hn : 0 < n) (ms : List ℚ) :
    strength n ms = .ok (upwardShare ms) := by
  have hpos : (0 : ℚ) < n := Nat.cast_pos.2 hn
  unfold strength
  simp only [exact_mean hn, sum_map_gain, sum_map_loss, bind, Except.bind]
  by_cases h : fall ms = 0
  · have hzero : Scalar.beq (0 : ℚ) (Scalar.ofNat 0) = true := exact_beq.2 Nat.cast_zero.symm
    rw [upwardShare, if_pos h, h, zero_div, if_pos hzero]
    rfl
  · have havg : fall ms / n ≠ 0 := div_ne_zero h hpos.ne'
    have hratio : rise ms / n / (fall ms / n) = rise ms / fall ms :=
      div_div_div_cancel_right₀ hpos.ne' _ _
    have hsum : (1 : ℚ) + rise ms / fall ms = (rise ms + fall ms) / fall ms := by
      rw [add_div, div_self h, add_comm]
    have hne := (pos_of_fall h).ne'
    have hzero : ¬ Scalar.beq (fall ms / n) (Scalar.ofNat 0) = true := fun h =>
      havg ((exact_beq.1 h).trans Nat.cast_zero)
    rw [if_neg hzero, exact_div _ havg, hratio]
    simp only [exact_ofNat, Nat.cast_one, hsum]
    rw [exact_div _ (div_ne_zero hne h), upwardShare_of_fall h]
    simp only [pure, Except.pure, Except.ok.injEq]
    field_simp
    ring

theorem rsi_eq (prices : List ℚ) {period : Int} (hperiod : 0 < period) :
    rsi prices period = .ok ((windows period.toNat (moves prices)).map upwardShare) :=
  overWindows_eq_ok hperiod (fun window => strength_eq (by omega) window) _

theorem length_rsi {prices points : List ℚ} {period : Int} (hperiod : 0 < period)
    (h : rsi prices period = .ok points) : points.length = prices.length - period.toNat := by
  rw [length_overWindows h, if_pos hperiod, length_moves]
  omega

/-- The point of each window. -/
theorem getElem?_rsi {prices points : List ℚ} {period : Int} (hperiod : 0 < period)
    (h : rsi prices period = .ok points) {i : Nat} (hi : i < prices.length - period.toNat) :
    points[i]? = some (upwardShare (movesFrom prices period.toNat i)) := by
  rw [← length_rsi hperiod h] at hi
  rw [rsi_eq prices hperiod] at h
  cases h
  rw [List.length_map] at hi
  rw [List.getElem?_map, getElem?_windows hi]
  rfl

/-- **Relative strength is the share of the upward moves.**  For a positive period there is a point
for each window of so many moves, and it is the share of the upward moves in the window.  So it lies
between 0 and 100; it is 100 if no move of the window goes down, and 0 if one goes down and none
goes up, and at no other time; and for the prices upside down it is 100 less that, if there are
moves both ways. -/
theorem rsi_upwardShare (prices : List ℚ) {period : Int} (hperiod : 0 < period) :
    ∃ points, rsi prices period = .ok points ∧ points.length = prices.length - period.toNat ∧
      ∀ i x, points[i]? = some x →
        let window := movesFrom prices period.toNat i
        (x = if fall window = 0 then 100 else 100 * rise window / (rise window + fall window)) ∧
        x ∈ Set.Icc 0 100 ∧
        (x = 100 ↔ ∀ m ∈ window, 0 ≤ m) ∧
        (x = 0 ↔ (∃ m ∈ window, m < 0) ∧ ∀ m ∈ window, m ≤ 0) ∧
        (rise window ≠ 0 → fall window ≠ 0 → ∃ mirrored,
          rsi (prices.map (-·)) period = .ok mirrored ∧ mirrored[i]? = some (100 - x)) := by
  have hpoints := rsi_eq prices hperiod
  refine ⟨_, hpoints, length_rsi hperiod hpoints, fun i x hx => ?_⟩
  intro window
  have hi := (List.getElem?_eq_some_iff.1 hx).1
  rw [length_rsi hperiod hpoints] at hi
  rw [getElem?_rsi hperiod hpoints hi] at hx
  cases hx
  refine ⟨rfl, upwardShare_mem window, upwardShare_eq_hundred_iff, upwardShare_eq_zero_iff,
    fun hrise hfall => ?_⟩
  have hmirrored := rsi_eq (prices.map (-·)) hperiod
  refine ⟨_, hmirrored, ?_⟩
  -- the prices upside down have as many windows
  have hi' : i < (prices.map (-·)).length - period.toNat := by rwa [List.length_map]
  rw [getElem?_rsi hperiod hmirrored hi', movesFrom_map_neg, upwardShare_map_neg hrise hfall]

end

/-- A window with moves both ways, one that only falls, and one that does neither. -/
theorem rsi_upwardShare_three :
    letI : SquareRoot := ⟨fun x => x⟩
    let prices : List ℚ := [3, 5, 4, 2, 2, 2]
    (0 : Int) < 2 ∧ ∃ points, rsi prices 2 = .ok points ∧ points = [200 / 3, 0, 0, 100] ∧
      rise (movesFrom prices 2 0) = 2 ∧ fall (movesFrom prices 2 0) = 1 ∧
      ∃ mirrored, rsi (prices.map (-·)) 2 = .ok mirrored ∧ mirrored[0]? = some (100 / 3) := by
  intro prices
  let _ : SquareRoot := ⟨fun x => x⟩
  have hrise : rise (movesFrom prices 2 0) = 2 := by decide +kernel
  have hfall : fall (movesFrom prices 2 0) = 1 := by decide +kernel
  have hrises : rise (movesFrom prices 2 0) ≠ 0 := hrise ▸ two_ne_zero
  have hfalls : fall (movesFrom prices 2 0) ≠ 0 := hfall ▸ one_ne_zero
  have htwo : (0 : Int) < 2 := by decide
  obtain ⟨points, hpoints, -, hpoint⟩ := rsi_upwardShare prices htwo
  have hvalue : rsi prices 2 = .ok [200 / 3, 0, 0, 100] := by decide +kernel
  have heq : points = [200 / 3, 0, 0, 100] := Except.ok.inj (hpoints.symm.trans hvalue)
  obtain ⟨-, -, -, -, hmirrored⟩ := hpoint 0 (200 / 3) (by rw [heq]; rfl)
  obtain ⟨mirrored, hrsi, hfirst⟩ := hmirrored hrises hfalls
  exact ⟨htwo, points, hpoints, heq, hrise, hfall, mirrored, hrsi, by rw [hfirst]; norm_num⟩

end Indicator

end BarScript
