import BarScript.Proofs.Indicator.Alignment
import BarScript.Proofs.Indicator.Division
import Mathlib.Algebra.BigOperators.Group.List.Basic
import Mathlib.Algebra.Order.Field.Rat

/-!
# Indicators in exact arithmetic

Doubles are rounded, so the laws that an indicator is made for hold of them nearly at best.  They
are stated over the rational numbers, where sums, products and quotients are exact.  A rational
number has no square root in general; what stands for it is left open (`SquareRoot`).

* `Scalar.exact_sum`, `Scalar.exact_div`, `Scalar.exact_mean` : the operations of `Scalar` are those
  of the field, and only a divisor of zero makes one of them fail.
* `Scalar.exact_div_eq_ok_iff` : a quotient that exists; the signs of results are what they should
  be (`Scalar.SignLaws`).
* `Scalar.exists_maximum`, `Scalar.exists_minimum` : the extremes of a window are its greatest and
  its least number.
* `Indicator.mapM_eq_ok`, `Indicator.overWindows_eq_ok` : a line all of whose points exist.
* `Indicator.getElem?_windows` : the window of a point.
-/

namespace BarScript

/-- What stands for the square root of a rational number. -/
class SquareRoot where
  sqrt : ℚ → ℚ

namespace Scalar

variable [SquareRoot]

/-- Exact arithmetic. -/
instance : Scalar ℚ where
  ofNat n := n
  ofInt n := .ok n
  div x y := if y = 0 then .error .divisionByZero else .ok (x / y)
  square x := .ok (x * x)
  sqrt := SquareRoot.sqrt
  lt x y := x < y
  le x y := x ≤ y
  beq x y := x = y

theorem exact_ofNat (n : Nat) : (Scalar.ofNat n : ℚ) = n := rfl

theorem exact_lt {x y : ℚ} : Scalar.lt x y = true ↔ x < y := decide_eq_true_iff

theorem exact_beq {x y : ℚ} : Scalar.beq x y = true ↔ x = y := decide_eq_true_iff

theorem exact_div (x : ℚ) {y : ℚ} (h : y ≠ 0) : Scalar.div x y = .ok (x / y) := if_neg h

theorem exact_sum (xs : List ℚ) : Scalar.sum xs = xs.sum := by
  rw [List.sum_eq_foldl]
  rfl

theorem exact_mean {n : Nat} (hn : 0 < n) (xs : List ℚ) : mean n xs = .ok (xs.sum / n) := by
  have hne : (n : ℚ) ≠ 0 := Nat.cast_ne_zero.2 (Nat.ne_of_gt hn)
  rw [mean, exact_sum, exact_ofNat, exact_div _ hne]

/-! ### Signs -/

/-- A quotient that exists. -/
theorem exact_div_eq_ok_iff {x y z : ℚ} : div x y = .ok z ↔ y ≠ 0 ∧ x / y = z := by
  by_cases h : y = 0
  · have hfails : div x y = .error .divisionByZero := if_pos h
    rw [hfails]
    exact ⟨nofun, fun hy => absurd h hy.1⟩
  · rw [exact_div x h, Except.ok.injEq]
    exact ⟨fun hz => ⟨h, hz⟩, And.right⟩

theorem exact_beq_zero {x : ℚ} : beq x (ofNat 0) = false ↔ x ≠ 0 := by
  rw [Bool.eq_false_iff, ne_eq, exact_beq, exact_ofNat, Nat.cast_zero]

instance : SignLaws ℚ where
  Positive x := 0 < x
  NotNegative x := 0 ≤ x
  positive_ofNat hn := Nat.cast_pos.2 hn
  positive_ofInt hn hx := Except.ok.inj hx ▸ Int.cast_pos.2 hn
  notNegative_of_positive := le_of_lt
  notNegative_zero := by rw [exact_ofNat, Nat.cast_zero]
  notNegative_of_lt h := by
    rw [exact_lt, exact_ofNat, Nat.cast_zero] at h
    exact h.le
  notNegative_neg_of_lt h := by
    rw [exact_lt, exact_ofNat, Nat.cast_zero] at h
    exact (neg_pos.2 h).le
  notNegative_add := add_nonneg
  notNegative_div hx hy hz := (exact_div_eq_ok_iff.1 hz).2 ▸ div_nonneg hx hy
  beq_zero h := exact_beq_zero.2 h.ne'
  add_beq_zero hx hy := exact_beq_zero.2 (add_pos_of_pos_of_nonneg hx hy).ne'
  beq_of_sub_beq_zero h := by
    rw [exact_beq, exact_ofNat, Nat.cast_zero] at h
    exact exact_beq.2 (sub_eq_zero.1 h)
  div_noZeroDivision x y h := by
    rw [exact_div x (exact_beq_zero.1 h)]
    exact .ok _
  ofInt_noZeroDivision _ := .ok _
  square_noZeroDivision _ := .ok _

/-! ### Extremes -/

theorem maxFrom_eq_foldl (x : ℚ) (xs : List ℚ) : maxFrom x xs = xs.foldl max x := by
  unfold maxFrom
  congr 1
  funext m y
  rw [max_def_lt]
  simp only [exact_lt]

theorem minFrom_eq_foldl (x : ℚ) (xs : List ℚ) : minFrom x xs = xs.foldl min x := by
  unfold minFrom
  congr 1
  funext m y
  rw [min_def_lt']
  simp only [exact_lt]

/-- The greatest number of a window. -/
theorem exists_maximum {xs : List ℚ} (h : xs ≠ []) :
    ∃ m, maximum xs = .ok m ∧ m ∈ xs ∧ ∀ x ∈ xs, x ≤ m := by
  cases xs with
  | nil => exact absurd rfl h
  | cons x xs =>
    refine ⟨maxFrom x xs, rfl, List.max?_eq_some_iff.1 ?_⟩
    rw [List.max?_cons', maxFrom_eq_foldl]

/-- The least number of a window. -/
theorem exists_minimum {xs : List ℚ} (h : xs ≠ []) :
    ∃ m, minimum xs = .ok m ∧ m ∈ xs ∧ ∀ x ∈ xs, m ≤ x := by
  cases xs with
  | nil => exact absurd rfl h
  | cons x xs =>
    refine ⟨minFrom x xs, rfl, List.min?_eq_some_iff.1 ?_⟩
    rw [List.min?_cons', minFrom_eq_foldl]

end Scalar

namespace Indicator

/-! ### Lines -/

variable {α β ε : Type}

theorem mapM_eq_ok {f : α → Except ε β} {g : α → β} {xs : List α}
    (h : ∀ x ∈ xs, f x = .ok (g x)) : xs.mapM f = .ok (xs.map g) :=
  (mapM_congr h).trans List.mapM_pure

/-- A line all of whose points exist, each with some property. -/
theorem exists_mapM {f : α → Except ε β} {P : β → Prop} {xs : List α}
    (h : ∀ x ∈ xs, ∃ y, f x = .ok y ∧ P y) : ∃ ys, xs.mapM f = .ok ys ∧ ∀ y ∈ ys, P y := by
  induction xs with
  | nil => exact ⟨[], rfl, by simp⟩
  | cons x xs ih =>
    rw [List.forall_mem_cons] at h
    obtain ⟨y, hy, hPy⟩ := h.1
    obtain ⟨ys, hys, hPys⟩ := ih h.2
    refine ⟨y :: ys, ?_, List.forall_mem_cons.2 ⟨hPy, hPys⟩⟩
    rw [List.mapM_cons, hy, hys]
    rfl

/-- A function of every point of a line. -/
theorem mapM_map_result {f : α → Except ε β} {xs : List α} {ys : List β} (h : xs.mapM f = .ok ys)
    {γ : Type} (g : β → γ) : (xs.mapM fun x => (f x).map g) = .ok (ys.map g) := by
  induction xs generalizing ys with
  | nil => cases h; rfl
  | cons x xs ih =>
    rw [List.mapM_cons] at h
    obtain ⟨y, hy, h⟩ := bind_eq_ok_iff.1 h
    obtain ⟨ys, hys, h⟩ := bind_eq_ok_iff.1 h
    cases h
    rw [List.mapM_cons, hy, ih hys]
    rfl

theorem overWindows_eq_ok {period : Int} (hperiod : 0 < period) {point : List α → Except Fault β}
    {g : List α → β} (h : ∀ window, point window = .ok (g window)) (xs : List α) :
    overWindows period point xs = .ok ((windows period.toNat xs).map g) := by
  rw [overWindows, if_neg (by omega)]
  exact mapM_eq_ok fun window _ => h window

/-- The window of a point starts as many items into the list as there are points before it. -/
theorem getElem?_windows {n : Nat} {xs : List α} {i : Nat}
    (h : i < (windows n xs).length) : (windows n xs)[i]? = some ((xs.drop i).take n) := by
  induction xs generalizing i with
  | nil => simp [windows] at h
  | cons x xs ih =>
    rw [windows] at h ⊢
    split at h
    · rename_i hfull
      rw [if_pos hfull]
      cases i with
      | zero => rfl
      | succ i => exact ih (Nat.lt_of_succ_lt_succ h)
    · cases h

/-- The last item of a window is in the window. -/
theorem mem_window {xs : List α} {n start : Nat} (hn : 0 < n) {x : α}
    (hx : xs[start + (n - 1)]? = some x) : x ∈ (xs.drop start).take n := by
  refine List.mem_of_getElem? (i := n - 1) ?_
  rw [List.getElem?_take, if_pos (by omega), List.getElem?_drop, hx]

end Indicator

end BarScript
