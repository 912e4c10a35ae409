import BarScript.Session
import Mathlib

/-!
# Equal doubles

Doubles that compare as equal are the same double, unless they are the two zeros, and there is one
NaN.  Hence two numbers that are the same key are the same number or the two zeros
(`eq_or_zeros_of_sameNumber`).
-/

namespace BarScript.Number

open Float.Model

/-- **Numbers that compare as equal are the same, unless they are the two zeros.** -/
theorem eq_or_zeros_of_beq {x y : Float} (h : (x == y) = true) :
    x = y ∨ ((x == 0) = true ∧ (y == 0) = true) := by
  have hnegative : ((-0 : Float) == 0) = true := rfl
  obtain ⟨-, -, heq | ⟨rfl, rfl⟩ | ⟨rfl, rfl⟩⟩ := Float.beq_iff_ne_nan_and_eq.1 h
  · exact .inl heq
  · exact .inr ⟨rfl, hnegative⟩
  · exact .inr ⟨hnegative, rfl⟩

theorem eq_or_zeros_of_sameNumber {x y : Float} (h : ArgumentKey.sameNumber x y = true) :
    x = y ∨ ((x == 0) = true ∧ (y == 0) = true) := by
  rw [ArgumentKey.sameNumber, Bool.or_eq_true, Bool.and_eq_true] at h
  rcases h with h | ⟨hx, hy⟩
  · exact eq_or_zeros_of_beq h
  · rw [Float.isNaN_eq_decide_eq_nan, decide_eq_true_iff] at hx hy
    exact .inl (hx.trans hy.symm)

end BarScript.Number
