import BarScript.Proofs.Indicator.Averages
import BarScript.Proofs.Indicator.Division
import BarScript.Proofs.Number.Whole

/-!
# The faults of indicators

Over doubles the only fault of an indicator is that a square overflows, and only the bands have
squares (`PriceFunction.fails_compute`).  Indicators of highs, lows and closes have no fault if the
three lists are aligned and the settings are not too large (`BarFunction.exists_compute`): no window
is empty then, and every setting is converted to a double.

An indicator divides by zero at no settings (`PriceFunction.compute_noZeroDivision`), so a division
is not looked at here (`Fault.Expected`).
-/

namespace BarScript

open Number Scalar

/-- A division by zero, or the overflow of a square where there are squares. -/
def Fault.Expected (squares : Prop) (f : Fault) : Prop :=
  f = .divisionByZero ∨ squares ∧ f = .squareOverflow

section

variable {squares : Prop}

/-! ### Arithmetic -/

theorem fails_div (x y : Float) : FailsWith (Fault.Expected squares) (div x y) := by
  change FailsWith _ (if y == 0 then _ else _)
  split
  · rintro f ⟨⟩
    exact .inl rfl
  · exact .ok _

theorem fails_mean (n : Nat) (xs : List Float) : FailsWith (Fault.Expected squares) (mean n xs) :=
  fails_div _ _

theorem fails_square (h : squares) (x : Float) :
    FailsWith (Fault.Expected squares) (square x) := by
  change FailsWith _ (if _ then _ else _)
  split
  · rintro f ⟨⟩
    exact .inr ⟨h, rfl⟩
  · exact .ok _

theorem fails_maximum {xs : List Float} (h : xs ≠ []) :
    FailsWith (Fault.Expected squares) (maximum xs) := by
  cases xs with
  | nil => exact absurd rfl h
  | cons x xs => exact .ok _

theorem fails_minimum {xs : List Float} (h : xs ≠ []) :
    FailsWith (Fault.Expected squares) (minimum xs) := by
  cases xs with
  | nil => exact absurd rfl h
  | cons x xs => exact .ok _

/-! ### Indicators of one price list -/

namespace Indicator

theorem fails_overWindows {β : Type} {period : Int} {point : List Float → Except Fault β}
    (h : ∀ window, window ≠ [] → FailsWith (Fault.Expected squares) (point window))
    (prices : List Float) :
    FailsWith (Fault.Expected squares) (overWindows period point prices) := by
  rw [overWindows]
  split
  · exact .ok []
  · refine .mapM fun window hwindow => h window fun hnil => ?_
    have := length_of_mem_windows hwindow
    rw [hnil, List.length_nil] at this
    omega

theorem fails_ema (prices : List Float) (period : Int) :
    FailsWith (Fault.Expected squares) (ema prices period) := by
  rw [ema]
  split
  · exact .ok []
  · exact (fails_div _ _).bind fun _ _ => (fails_mean _ _).bind fun _ _ => .ok _

theorem fails_macd (prices : List Float) (fast slow signal : Int) :
    FailsWith (Fault.Expected squares) (macd prices fast slow signal) :=
  (fails_ema _ _).bind fun _ _ => (fails_ema _ _).bind fun _ _ => (fails_ema _ _).bind fun _ _ =>
    .ok _

theorem fails_band (h : squares) (n : Nat) (multiplier : Float) (window : List Float) :
    FailsWith (Fault.Expected squares) (band n multiplier window) :=
  (fails_mean _ _).bind fun _ _ => (FailsWith.mapM fun _ _ => fails_square h _).bind fun _ _ =>
    (fails_mean _ _).bind fun _ _ => .ok _

theorem fails_strength (n : Nat) (window : List Float) :
    FailsWith (Fault.Expected squares) (strength n window) := by
  refine (fails_mean _ _).bind fun _ _ => (fails_mean _ _).bind fun _ _ => ?_
  split
  · exact .ok _
  · exact (fails_div _ _).bind fun _ _ => (fails_div _ _).bind fun _ _ => .ok _

theorem fails_roc (prices : List Float) (period : Int) :
    FailsWith (Fault.Expected squares) (roc prices period) := by
  rw [roc]
  split
  · exact .ok []
  · refine .mapM fun p _ => ?_
    rw [percentChange]
    split
    · exact .ok _
    · exact (fails_div _ _).bind fun _ _ => .ok _

/-! ### Indicators of highs, lows and closes -/

variable {highs lows closes : List Float}

theorem fails_fromLow (s : Span Float) : FailsWith (Fault.Expected squares) s.fromLow := by
  rw [Span.fromLow]
  split
  · exact .ok _
  · exact (fails_div _ _).bind fun _ _ => .ok _

theorem fails_fromHigh (s : Span Float) : FailsWith (Fault.Expected squares) s.fromHigh := by
  rw [Span.fromHigh]
  split
  · exact .ok _
  · exact (fails_div _ _).bind fun _ _ => .ok _

theorem fails_places (hh : highs.length = closes.length) (hl : lows.length = closes.length)
    {place : Span Float → Except Fault Float}
    (h : ∀ s, FailsWith (Fault.Expected squares) (place s)) (period : Int) :
    FailsWith (Fault.Expected squares) (places place highs lows closes period) := by
  rw [places]
  split
  · rename_i hwindow
    simp only [haveWindow, Bool.and_eq_true, decide_eq_true_eq] at hwindow
    refine .mapM fun e he => ?_
    -- a window of highs or lows has as many bars as one of closes
    have hend := add_le_of_mem_windowEnds (by omega) he
    have hfull : ∀ xs : List Float, xs.length = closes.length →
        (xs.drop e.2).take period.toNat ≠ [] := fun xs hxs => by
      rw [← List.length_pos_iff, List.length_take, List.length_drop]
      omega
    have hspan : FailsWith (Fault.Expected squares) (span highs lows period.toNat e.2 e.1) :=
      (fails_maximum (hfull highs hh)).bind fun _ _ =>
        (fails_minimum (hfull lows hl)).bind fun _ _ => .ok _
    exact hspan.bind fun s _ => h s
  · exact .ok []

theorem fails_smooth {n : Int} (hpos : 0 < n) (hle : n ≤ greatest) (before value : Float) :
    FailsWith (Fault.Expected squares) (smooth n before value) := by
  rw [smooth, ofInt_eq_ok (by omega) (by omega), ofInt_eq_ok (by omega) hle]
  exact fails_div _ _

theorem fails_kdjFrom {kLength dLength : Int} (hk : 0 < kLength) (hk' : kLength ≤ greatest)
    (hd : 0 < dLength) (hd' : dLength ≤ greatest) (places : List Float) (k d : Float) :
    FailsWith (Fault.Expected squares) (kdjFrom kLength dLength k d places) := by
  induction places generalizing k d with
  | nil => exact .ok []
  | cons place rest ih =>
    refine (fails_smooth hk hk' k place).bind fun k _ => ?_
    refine (fails_smooth hd hd' d k).bind fun d _ => ?_
    exact (ih k d).bind fun points _ => .ok _

theorem fails_kdj (hh : highs.length = closes.length) (hl : lows.length = closes.length)
    {kLength dLength : Int} (hk : kLength ≤ greatest) (hd : dLength ≤ greatest) (period : Int) :
    FailsWith (Fault.Expected squares) (kdj highs lows closes period kLength dLength) := by
  rw [kdj]
  split
  · exact .ok []
  · rename_i hlength
    refine (fails_places hh hl fails_fromLow period).bind fun places _ => ?_
    exact fails_kdjFrom (by omega) hk (by omega) hd places _ _

end Indicator

/-! ### Functions -/

open Indicator

theorem fails_latestOf {β : Type} (f : β → Float) {points : Except Fault (List β)}
    (h : FailsWith (Fault.Expected squares) points) :
    FailsWith (Fault.Expected squares) (latestOf f points) := h.map _

end

open Indicator

/-- The functions that square numbers. -/
def PriceFunction.IsBand (f : PriceFunction) : Prop :=
  f = bandUpper ∨ f = bandMiddle ∨ f = bandLower

instance (f : PriceFunction) : Decidable f.IsBand :=
  inferInstanceAs (Decidable (f = .bandUpper ∨ f = .bandMiddle ∨ f = .bandLower))

/-- **A function of one price list fails only if a square overflows**, and then it is a band. -/
theorem PriceFunction.fails_compute (prices : List Float) (f : PriceFunction)
    (given : List Setting) :
    FailsWith (fun fault => f.IsBand ∧ fault = .squareOverflow) (f.compute prices given) := by
  suffices h : FailsWith (Fault.Expected f.IsBand) (f.compute prices given) from fun fault hfault =>
    (h fault hfault).resolve_left fun hzero =>
      compute_noZeroDivision prices f given (hzero ▸ hfault)
  unfold compute
  split
  · exact fails_latestOf _ (fails_overWindows (fun _ _ => fails_mean _ _) _)
  · exact fails_latestOf _ (fails_ema _ _)
  · exact fails_latestOf _ (fails_overWindows (fun _ _ => fails_strength _ _) _)
  · exact fails_latestOf _ (fails_roc _ _)
  · exact fails_latestOf _ (fails_overWindows (fun _ => fails_maximum) _)
  · exact fails_latestOf _ (fails_overWindows (fun _ => fails_minimum) _)
  · exact fails_latestOf _ (fails_macd _ _ _ _)
  · exact fails_latestOf _ (fails_macd _ _ _ _)
  · exact fails_latestOf _ (fails_macd _ _ _ _)
  · exact fails_latestOf _ (fails_overWindows (fun _ _ => fails_band (.inl rfl) _ _ _) _)
  · exact fails_latestOf _ (fails_overWindows (fun _ _ => fails_band (.inr (.inl rfl)) _ _ _) _)
  · exact fails_latestOf _ (fails_overWindows (fun _ _ => fails_band (.inr (.inr rfl)) _ _ _) _)
  · exact .ok none

/-- A square overflows. -/
example : (match PriceFunction.bandLower.compute [1e200, -1e200] [.whole 2, .fraction 2] with
    | .error .squareOverflow => true
    | _ => false) = true := by decide +kernel

/-- **A function of highs, lows and closes has a result** if the lists are aligned and no setting is
too large. -/
theorem BarFunction.exists_compute {highs lows closes : List Float}
    (hh : highs.length = closes.length) (hl : lows.length = closes.length) (f : BarFunction)
    {given : List Setting} (hgiven : ∀ n : Int, .whole n ∈ given → n ≤ greatest) :
    ∃ x, f.compute highs lows closes given = .ok x := by
  suffices h : FailsWith (Fault.Expected False) (f.compute highs lows closes given) by
    cases hcompute : f.compute highs lows closes given with
    | ok x => exact ⟨x, rfl⟩
    | error fault =>
      rcases h fault hcompute with rfl | ⟨⟨⟩, -⟩
      exact absurd hcompute (compute_noZeroDivision highs lows closes f given)
  unfold compute
  split
  · exact fails_latestOf _ (fails_kdj hh hl (hgiven _ (by simp)) (hgiven _ (by simp)) _)
  · exact fails_latestOf _ (fails_kdj hh hl (hgiven _ (by simp)) (hgiven _ (by simp)) _)
  · exact fails_latestOf _ (fails_kdj hh hl (hgiven _ (by simp)) (hgiven _ (by simp)) _)
  · exact fails_latestOf _ (fails_places hh hl fails_fromHigh _)
  · exact .ok none

end BarScript
