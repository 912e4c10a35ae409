import BarScript.Builtin
import BarScript.Proofs.Except
import BarScript.Proofs.Number.Zero

/-!
# No indicator divides by zero

Every divisor of an indicator is a positive number of prices, a divisor that has been compared with
zero, a difference of two prices that are not equal, or a sum of a positive number and one that is
not negative.  None of these is zero in an arithmetic whose signs obey a few laws
(`Scalar.SignLaws`), whatever the prices and the settings are (`Indicator.neverDividesByZero`).

Doubles obey them, rounding, infinities and NaN notwithstanding, so no function of a script divides
by zero (`PriceFunction.compute_noZeroDivision`, `BarFunction.compute_noZeroDivision`).
-/

namespace BarScript

open Scalar

/-! ### Reasons to fail -/

/-- A computation that fails at all fails for a reason with `E`. -/
def FailsWith {β : Type} (E : Fault → Prop) (r : Except Fault β) : Prop := ∀ f, r = .error f → E f

namespace FailsWith

variable {E : Fault → Prop} {β γ : Type}

theorem ok (a : β) : FailsWith E (.ok a) := fun f h => by cases h

theorem bind {x : Except Fault β} {f : β → Except Fault γ} (hx : FailsWith E x)
    (hf : ∀ a, x = .ok a → FailsWith E (f a)) : FailsWith E (x >>= f) := by
  intro fault h
  rcases bind_eq_error_iff.1 h with h | ⟨a, ha, h⟩
  · exact hx fault h
  · exact hf a ha fault h

theorem map {x : Except Fault β} (hx : FailsWith E x) (f : β → γ) : FailsWith E (x.map f) :=
  fun fault h => hx fault (map_eq_error_iff.1 h)

theorem mapM {f : β → Except Fault γ} {xs : List β} (h : ∀ x ∈ xs, FailsWith E (f x)) :
    FailsWith E (xs.mapM f) := by
  induction xs with
  | nil => exact ok []
  | cons x xs ih =>
    rw [List.forall_mem_cons] at h
    rw [List.mapM_cons]
    exact h.1.bind fun a _ => (ih h.2).bind fun as _ => ok (a :: as)

end FailsWith

/-- A computation does not fail for dividing by zero. -/
def NoZeroDivision {β : Type} (r : Except Fault β) : Prop := r ≠ .error .divisionByZero

theorem noZeroDivision_iff {β : Type} {r : Except Fault β} :
    NoZeroDivision r ↔ FailsWith (· ≠ .divisionByZero) r :=
  ⟨fun h _ hf hzero => h (hzero ▸ hf), fun h hr => h _ hr rfl⟩

namespace NoZeroDivision

variable {β γ : Type}

theorem ok (a : β) : NoZeroDivision (.ok a) := noZeroDivision_iff.2 (.ok a)

theorem bind {x : Except Fault β} {f : β → Except Fault γ} (hx : NoZeroDivision x)
    (hf : ∀ a, x = .ok a → NoZeroDivision (f a)) : NoZeroDivision (x >>= f) :=
  noZeroDivision_iff.2 <| (noZeroDivision_iff.1 hx).bind fun a ha => noZeroDivision_iff.1 (hf a ha)

theorem map {x : Except Fault β} (hx : NoZeroDivision x) (f : β → γ) :
    NoZeroDivision (x.map f) := noZeroDivision_iff.2 ((noZeroDivision_iff.1 hx).map f)

theorem mapM {f : β → Except Fault γ} {xs : List β} (h : ∀ x ∈ xs, NoZeroDivision (f x)) :
    NoZeroDivision (xs.mapM f) :=
  noZeroDivision_iff.2 (.mapM fun x hx => noZeroDivision_iff.1 (h x hx))

end NoZeroDivision

/-! ### Signs -/

/-- An arithmetic with positive numbers and numbers that are not negative, in which nothing but zero
is lost to zero by adding numbers that are not negative, by converting a whole number, or by
subtracting, and in which only a division fails for dividing by zero.  A number that compares with
none, such as NaN, counts as not negative. -/
class Scalar.SignLaws (α : Type) [Scalar α] where
  Positive : α → Prop
  NotNegative : α → Prop
  positive_ofNat : ∀ {n : Nat}, 0 < n → Positive (ofNat n)
  positive_ofInt : ∀ {n : Int} {x : α}, 0 < n → ofInt n = .ok x → Positive x
  notNegative_of_positive : ∀ {x : α}, Positive x → NotNegative x
  notNegative_zero : NotNegative (ofNat 0)
  notNegative_of_lt : ∀ {x : α}, lt (ofNat 0) x = true → NotNegative x
  notNegative_neg_of_lt : ∀ {x : α}, lt x (ofNat 0) = true → NotNegative (-x)
  notNegative_add : ∀ {x y : α}, NotNegative x → NotNegative y → NotNegative (x + y)
  notNegative_div : ∀ {x y z : α}, NotNegative x → NotNegative y → div x y = .ok z → NotNegative z
  beq_zero : ∀ {x : α}, Positive x → beq x (ofNat 0) = false
  add_beq_zero : ∀ {x y : α}, Positive x → NotNegative y → beq (x + y) (ofNat 0) = false
  beq_of_sub_beq_zero : ∀ {x y : α}, beq (x - y) (ofNat 0) = true → beq x y = true
  div_noZeroDivision : ∀ (x : α) {y : α}, beq y (ofNat 0) = false → NoZeroDivision (div x y)
  ofInt_noZeroDivision : ∀ n : Int, NoZeroDivision (ofInt n : Except Fault α)
  square_noZeroDivision : ∀ x : α, NoZeroDivision (square x)

/-! ### Doubles -/

theorem div_eq_ok {y : Float} (x : Float) (h : (y == 0) = false) : div x y = .ok (x / y) := by
  change (if (y == 0) = true then _ else _) = _
  rw [h]
  rfl

/-- Inside a script a quotient always exists. -/
theorem quotient_eq_ok (x y : Float) : quotient x y = .ok (if y == 0 then 0 else x / y) := by
  cases h : y == 0 with
  | true => exact if_pos h
  | false =>
    have hzero : ¬ beq y (ofNat 0) = true := fun h' => by
      have h' : (y == 0) = true := h'
      rw [h] at h'
      cases h'
    rw [quotient, if_neg hzero, div_eq_ok x h]
    rfl

/-- The mean of a positive number of prices exists. -/
theorem mean_eq_ok {n : Nat} (hn : 0 < n) (xs : List Float) :
    mean n xs = .ok (sum xs / Float.ofNat n) := div_eq_ok _ (Number.positive_ofNat hn).beq_zero

/-- A whole number is converted, or it is too large. -/
theorem ofInt_cases (n : Int) : (ofInt n : Except Fault Float) = .ok (Float.ofInt n) ∨
    (ofInt n : Except Fault Float) = .error .intTooLarge := by
  by_cases h : (Float.ofInt n).isInf = true
  · have hnone : Number.ofInt? n = none := if_pos h
    exact .inr (by simp only [ofInt, hnone]; rfl)
  · have hsome : Number.ofInt? n = some (Float.ofInt n) := if_neg h
    exact .inl (by simp only [ofInt, hsome]; rfl)

instance : SignLaws Float where
  Positive := Number.Positive
  NotNegative := Number.NotNegative
  positive_ofNat := Number.positive_ofNat
  positive_ofInt {n x} hn hx := by
    rcases ofInt_cases n with h | h <;> rw [h] at hx <;> cases hx
    exact Number.positive_ofInt hn
  notNegative_of_positive := Number.Positive.notNegative
  notNegative_zero := Number.notNegative_zero
  notNegative_of_lt h := (Number.positive_of_lt (of_decide_eq_true h)).notNegative
  notNegative_neg_of_lt h := (Number.positive_neg_of_lt (of_decide_eq_true h)).notNegative
  notNegative_add := Number.NotNegative.add
  notNegative_div {x y z} hx hy hz := by
    cases h : y == 0 with
    | true =>
      have hfails : div x y = .error .divisionByZero := if_pos h
      rw [hfails] at hz
      cases hz
    | false =>
      rw [div_eq_ok x h] at hz
      exact Except.ok.inj hz ▸ hx.div hy
  beq_zero := Number.Positive.beq_zero
  add_beq_zero := Number.Positive.add_beq_zero
  beq_of_sub_beq_zero := Number.beq_of_sub_beq_zero
  div_noZeroDivision x y h := by
    rw [div_eq_ok x h]
    exact .ok _
  ofInt_noZeroDivision n := by rcases ofInt_cases n with h | h <;> simp [h, NoZeroDivision]
  square_noZeroDivision x := by
    change NoZeroDivision (if _ then _ else _)
    split <;> simp [NoZeroDivision]

/-! ### Windows -/

section

variable {α : Type}

theorem Indicator.overWindows_noZeroDivision {β : Type} {period : Int}
    {point : List α → Except Fault β}
    (h : 0 < period.toNat → ∀ window, NoZeroDivision (point window)) (prices : List α) :
    NoZeroDivision (overWindows period point prices) := by
  rw [overWindows]
  split
  · exact .ok []
  · exact .mapM fun window _ => h (by omega) window

variable [Scalar α]

theorem Scalar.maximum_noZeroDivision (xs : List α) : NoZeroDivision (maximum xs) := by
  cases xs <;> simp [maximum, NoZeroDivision]

theorem Scalar.minimum_noZeroDivision (xs : List α) : NoZeroDivision (minimum xs) := by
  cases xs <;> simp [minimum, NoZeroDivision]

namespace Indicator

theorem highest_noZeroDivision (prices : List α) (period : Int) :
    NoZeroDivision (highest prices period) :=
  overWindows_noZeroDivision (fun _ => maximum_noZeroDivision) prices

theorem lowest_noZeroDivision (prices : List α) (period : Int) :
    NoZeroDivision (lowest prices period) :=
  overWindows_noZeroDivision (fun _ => minimum_noZeroDivision) prices

theorem places_noZeroDivision {place : Span α → Except Fault α}
    (h : ∀ s, NoZeroDivision (place s)) (highs lows closes : List α) (period : Int) :
    NoZeroDivision (places place highs lows closes period) := by
  rw [places]
  split
  · refine .mapM fun e _ => NoZeroDivision.bind ?_ fun s _ => h s
    exact (maximum_noZeroDivision _).bind fun _ _ =>
      (minimum_noZeroDivision _).bind fun _ _ => .ok _
  · exact .ok []

end Indicator

open SignLaws

variable [SignLaws α]

/-! ### Divisions -/

namespace Scalar

/-- A quotient by something that has been compared with zero. -/
theorem div_noZeroDivision_of_ne (x : α) {y : α} (h : ¬ beq y (ofNat 0) = true) :
    NoZeroDivision (div x y) := div_noZeroDivision x (Bool.eq_false_of_not_eq_true h)

theorem quotient_noZeroDivision (x y : α) : NoZeroDivision (quotient x y) := by
  rw [quotient]
  split
  · exact .ok _
  · exact div_noZeroDivision_of_ne x ‹_›

theorem relativeChange_noZeroDivision (before now : α) :
    NoZeroDivision (relativeChange before now) := quotient_noZeroDivision _ _

theorem mean_noZeroDivision {n : Nat} (hn : 0 < n) (xs : List α) : NoZeroDivision (mean n xs) :=
  div_noZeroDivision _ (beq_zero (positive_ofNat hn))

theorem notNegative_foldl {xs : List α} (h : ∀ x ∈ xs, NotNegative x) {acc : α}
    (hacc : NotNegative acc) : NotNegative (xs.foldl (· + ·) acc) := by
  induction xs generalizing acc with
  | nil => exact hacc
  | cons x xs ih =>
    rw [List.forall_mem_cons] at h
    exact ih h.2 (notNegative_add hacc h.1)

/-- The mean of numbers that are not negative is not negative. -/
theorem notNegative_mean {n : Nat} (hn : 0 < n) {xs : List α} (h : ∀ x ∈ xs, NotNegative x)
    {y : α} (hy : mean n xs = .ok y) : NotNegative y :=
  notNegative_div (notNegative_foldl h notNegative_zero)
    (notNegative_of_positive (positive_ofNat hn)) hy

end Scalar

/-! ### Indicators of one price list -/

namespace Indicator

theorem sma_noZeroDivision (prices : List α) (period : Int) :
    NoZeroDivision (sma prices period) :=
  overWindows_noZeroDivision (fun hn window => mean_noZeroDivision hn window) prices

theorem ema_noZeroDivision (prices : List α) (period : Int) :
    NoZeroDivision (ema prices period) := by
  rw [ema]
  split
  · exact .ok []
  · rename_i hperiod
    have hn : 0 < period.toNat := by omega
    -- the divisor is the period and one
    have hsum : beq (ofNat period.toNat + ofNat 1 : α) (ofNat 0) = false :=
      add_beq_zero (positive_ofNat hn) (notNegative_of_positive (positive_ofNat Nat.one_pos))
    exact (SignLaws.div_noZeroDivision _ hsum).bind fun weight _ =>
      (mean_noZeroDivision hn _).bind fun first _ => .ok _

theorem macd_noZeroDivision (prices : List α) (fast slow signal : Int) :
    NoZeroDivision (macd prices fast slow signal) :=
  (ema_noZeroDivision _ _).bind fun _ _ => (ema_noZeroDivision _ _).bind fun _ _ =>
    (ema_noZeroDivision _ _).bind fun _ _ => .ok _

theorem bollinger_noZeroDivision (prices : List α) (period : Int) (multiplier : α) :
    NoZeroDivision (bollinger prices period multiplier) :=
  overWindows_noZeroDivision (fun hn window =>
    (mean_noZeroDivision hn window).bind fun _ _ =>
      (NoZeroDivision.mapM fun _ _ => square_noZeroDivision _).bind fun squares _ =>
        (mean_noZeroDivision hn squares).bind fun _ _ => .ok _) prices

theorem notNegative_gain (move : α) : NotNegative (gain move) := by
  rw [gain]
  split
  · exact notNegative_of_lt ‹_›
  · exact notNegative_zero

theorem notNegative_loss (move : α) : NotNegative (loss move) := by
  rw [loss]
  split
  · exact notNegative_neg_of_lt ‹_›
  · exact notNegative_zero

/-- The ratio of the average gain to the average loss is not negative, so one more is not zero. -/
theorem strength_noZeroDivision {n : Nat} (hn : 0 < n) (window : List α) :
    NoZeroDivision (strength n window) := by
  rw [strength]
  refine (mean_noZeroDivision hn _).bind fun averageGain hgain => ?_
  refine (mean_noZeroDivision hn _).bind fun averageLoss hloss => ?_
  have hgain := notNegative_mean hn (List.forall_mem_map.2 fun m _ => notNegative_gain m) hgain
  have hloss := notNegative_mean hn (List.forall_mem_map.2 fun m _ => notNegative_loss m) hloss
  split
  · exact .ok _
  · refine (div_noZeroDivision_of_ne _ ‹_›).bind fun ratio hratio => ?_
    -- one is added to a ratio that is not negative
    have hsum : beq (ofNat 1 + ratio) (ofNat 0) = false :=
      add_beq_zero (positive_ofNat Nat.one_pos) (notNegative_div hgain hloss hratio)
    exact (SignLaws.div_noZeroDivision _ hsum).bind fun part _ => .ok _

theorem rsi_noZeroDivision (prices : List α) (period : Int) :
    NoZeroDivision (rsi prices period) :=
  overWindows_noZeroDivision (fun hn => strength_noZeroDivision hn) _

theorem roc_noZeroDivision (prices : List α) (period : Int) :
    NoZeroDivision (roc prices period) := by
  rw [roc]
  split
  · exact .ok []
  · refine .mapM fun p _ => ?_
    rw [percentChange]
    split
    · exact .ok _
    · exact (div_noZeroDivision_of_ne _ ‹_›).bind fun _ _ => .ok _

/-! ### Indicators of highs, lows and closes -/

/-- A span that is not flat has a range that is not zero. -/
theorem div_range_noZeroDivision (x : α) {s : Span α} (h : ¬ beq s.high s.low = true) :
    NoZeroDivision (div x (s.high - s.low)) :=
  div_noZeroDivision_of_ne x fun hzero => h (beq_of_sub_beq_zero hzero)

theorem fromLow_noZeroDivision (s : Span α) : NoZeroDivision s.fromLow := by
  rw [Span.fromLow]
  split
  · exact .ok _
  · exact (div_range_noZeroDivision _ ‹_›).bind fun _ _ => .ok _

theorem fromHigh_noZeroDivision (s : Span α) : NoZeroDivision s.fromHigh := by
  rw [Span.fromHigh]
  split
  · exact .ok _
  · exact (div_range_noZeroDivision _ ‹_›).bind fun _ _ => .ok _

theorem smooth_noZeroDivision {n : Int} (hn : 0 < n) (before value : α) :
    NoZeroDivision (smooth n before value) :=
  (ofInt_noZeroDivision _).bind fun _ _ => (ofInt_noZeroDivision _).bind fun _ hcount =>
    SignLaws.div_noZeroDivision _ (beq_zero (positive_ofInt hn hcount))

theorem kdjFrom_noZeroDivision {kLength dLength : Int} (hk : 0 < kLength) (hd : 0 < dLength)
    (places : List α) (k d : α) :
    NoZeroDivision (kdjFrom kLength dLength k d places) := by
  induction places generalizing k d with
  | nil => exact .ok []
  | cons place rest ih =>
    refine (smooth_noZeroDivision hk k place).bind fun k _ => ?_
    refine (smooth_noZeroDivision hd d k).bind fun d _ => ?_
    exact (ih k d).bind fun points _ => .ok _

theorem kdj_noZeroDivision (highs lows closes : List α) (period kLength dLength : Int) :
    NoZeroDivision (kdj highs lows closes period kLength dLength) := by
  rw [kdj]
  split
  · exact .ok []
  · rename_i hlength
    refine (places_noZeroDivision fromLow_noZeroDivision _ _ _ _).bind fun places _ => ?_
    exact kdjFrom_noZeroDivision (by omega) (by omega) places _ _

theorem williamsR_noZeroDivision (highs lows closes : List α) (period : Int) :
    NoZeroDivision (williamsR highs lows closes period) :=
  places_noZeroDivision fromHigh_noZeroDivision _ _ _ _

/-- No indicator over an arithmetic divides by zero, whatever the lists and the settings are. -/
structure NeverDividesByZero (α : Type) [Scalar α] : Prop where
  sma : ∀ (prices : List α) period, NoZeroDivision (sma prices period)
  ema : ∀ (prices : List α) period, NoZeroDivision (ema prices period)
  rsi : ∀ (prices : List α) period, NoZeroDivision (rsi prices period)
  macd : ∀ (prices : List α) fast slow signal, NoZeroDivision (macd prices fast slow signal)
  bollinger : ∀ (prices : List α) period multiplier,
    NoZeroDivision (bollinger prices period multiplier)
  kdj : ∀ (highs lows closes : List α) period kLength dLength,
    NoZeroDivision (kdj highs lows closes period kLength dLength)
  williamsR : ∀ (highs lows closes : List α) period,
    NoZeroDivision (williamsR highs lows closes period)
  highest : ∀ (prices : List α) period, NoZeroDivision (highest prices period)
  lowest : ∀ (prices : List α) period, NoZeroDivision (lowest prices period)
  roc : ∀ (prices : List α) period, NoZeroDivision (roc prices period)

/-- **No indicator divides by zero.** -/
theorem neverDividesByZero : NeverDividesByZero α where
  sma := sma_noZeroDivision
  ema := ema_noZeroDivision
  rsi := rsi_noZeroDivision
  macd := macd_noZeroDivision
  bollinger := bollinger_noZeroDivision
  kdj := kdj_noZeroDivision
  williamsR := williamsR_noZeroDivision
  highest := highest_noZeroDivision
  lowest := lowest_noZeroDivision
  roc := roc_noZeroDivision

end Indicator

end

/-! ### Functions -/

open Indicator

theorem latestOf_noZeroDivision {β : Type} (f : β → Float) {points : Except Fault (List β)}
    (h : NoZeroDivision points) : NoZeroDivision (latestOf f points) := h.map _

/-- **No function of one price list divides by zero.** -/
theorem PriceFunction.compute_noZeroDivision (prices : List Float) (f : PriceFunction)
    (given : List Setting) : NoZeroDivision (f.compute prices given) := by
  unfold compute
  split
  · exact latestOf_noZeroDivision _ (sma_noZeroDivision _ _)
  · exact latestOf_noZeroDivision _ (ema_noZeroDivision _ _)
  · exact latestOf_noZeroDivision _ (rsi_noZeroDivision _ _)
  · exact latestOf_noZeroDivision _ (roc_noZeroDivision _ _)
  · exact latestOf_noZeroDivision _ (highest_noZeroDivision _ _)
  · exact latestOf_noZeroDivision _ (lowest_noZeroDivision _ _)
  · exact latestOf_noZeroDivision _ (macd_noZeroDivision _ _ _ _)
  · exact latestOf_noZeroDivision _ (macd_noZeroDivision _ _ _ _)
  · exact latestOf_noZeroDivision _ (macd_noZeroDivision _ _ _ _)
  · exact latestOf_noZeroDivision _ (bollinger_noZeroDivision _ _ _)
  · exact latestOf_noZeroDivision _ (bollinger_noZeroDivision _ _ _)
  · exact latestOf_noZeroDivision _ (bollinger_noZeroDivision _ _ _)
  · exact .ok none

/-- **No function of highs, lows and closes divides by zero.** -/
theorem BarFunction.compute_noZeroDivision (highs lows closes : List Float) (f : BarFunction)
    (given : List Setting) : NoZeroDivision (f.compute highs lows closes given) := by
  unfold compute
  split
  · exact latestOf_noZeroDivision _ (kdj_noZeroDivision _ _ _ _ _ _)
  · exact latestOf_noZeroDivision _ (kdj_noZeroDivision _ _ _ _ _ _)
  · exact latestOf_noZeroDivision _ (kdj_noZeroDivision _ _ _ _ _ _)
  · exact latestOf_noZeroDivision _ (williamsR_noZeroDivision _ _ _ _)
  · exact .ok none

theorem wholeFloat_noZeroDivision (n : Except Number.WholeFault Int) :
    NoZeroDivision (wholeFloat n) := by
  cases n with
  | ok n => exact SignLaws.ofInt_noZeroDivision n
  | error f => simp [wholeFloat, NoZeroDivision]

/-- **No function of numbers divides by zero.** -/
theorem Arithmetic.compute_noZeroDivision (f : Arithmetic) (xs : List Float) :
    NoZeroDivision (f.compute xs) := by
  unfold compute
  split
  · exact .ok _
  · exact (wholeFloat_noZeroDivision _).map some
  · exact (wholeFloat_noZeroDivision _).map some
  · exact (wholeFloat_noZeroDivision _).map some
  · exact .ok _
  · exact .ok _
  · exact .ok none

end BarScript
