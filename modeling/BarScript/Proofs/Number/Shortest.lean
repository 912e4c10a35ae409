import BarScript.Number.Notation
import BarScript.Proofs.Number.Decimal

/-!
# The shortest digits read back

The digits that a double is written with are a decimal in its rounding interval, so the double is
near to them (`near_shortest`).  That there are such digits among the first seventeen is
`exists_pick`: the grid of seventeen digits is finer than the interval is wide.  Hence every decimal
of the same value reads back to the double (`ofDecimal_of_kindOf`).
-/

namespace BarScript.Number

open Float.Model Float.Model.UnpackedFloat

/-- The value of a decimal. -/
def Decimal.toRat (d : Decimal) : ℚ := d.digits * 10 ^ d.exponent

@[simp] theorem Decimal.toRat_trim (fuel : Nat) (d : Decimal) : (d.trim fuel).toRat = d.toRat := by
  induction fuel generalizing d with
  | zero => rfl
  | succ fuel ih =>
    rw [Decimal.trim]
    split
    · rename_i h
      obtain ⟨k, hk⟩ : ∃ k, d.digits = 10 * k := ⟨d.digits / 10, by omega⟩
      rw [ih, Decimal.toRat, Decimal.toRat, hk, zpow_add_one₀ (by norm_num)]
      simp only [Nat.mul_div_cancel_left k (by norm_num : 0 < 10)]
      push_cast
      ring
    · rfl

/-! ### The number of digits -/

theorem lt_decimalLength {n fuel e : Nat} (h : n < 10 ^ (e + fuel)) :
    n < 10 ^ decimalLength n fuel e := by
  induction fuel generalizing e with
  | zero => exact h
  | succ fuel ih =>
    rw [decimalLength]
    split
    · assumption
    · exact ih (by rwa [Nat.add_right_comm])

theorem decimalLength_le {n fuel e : Nat} (h : 10 ^ (e - 1) ≤ n) :
    10 ^ (decimalLength n fuel e - 1) ≤ n := by
  induction fuel generalizing e with
  | zero => exact h
  | succ fuel ih =>
    rw [decimalLength]
    split
    · exact h
    · rename_i hle
      exact ih (Nat.le_of_not_lt hle)

theorem ten_pow_le_two_pow {e l : Nat} (h : 10 * e ≤ 3 * l) : 10 ^ e ≤ 2 ^ l := by
  refine (Nat.pow_le_pow_iff_left (by norm_num : 10 ≠ 0)).1 ?_
  calc (10 ^ e) ^ 10 = 10 ^ (10 * e) := by rw [← Nat.pow_mul, Nat.mul_comm]
    _ ≤ 10 ^ (3 * l) := Nat.pow_le_pow_right (by norm_num) h
    _ = (10 ^ 3) ^ l := Nat.pow_mul ..
    _ ≤ (2 ^ 10) ^ l := Nat.pow_le_pow_left (by norm_num) l
    _ = (2 ^ l) ^ 10 := by rw [← Nat.pow_mul, ← Nat.pow_mul, Nat.mul_comm]

theorem lt_digitCount (n : Nat) : n < 10 ^ digitCount n := by
  refine lt_decimalLength ?_
  calc n < 2 ^ (n.log2 + 1) := Nat.lt_log2_self
    _ ≤ 10 ^ (n.log2 + 1) := Nat.pow_le_pow_left (by norm_num) _
    _ ≤ 10 ^ (n.log2 * 30 / 100 + (n.log2 + 1)) := Nat.pow_le_pow_right (by norm_num) (by omega)

theorem digitCount_le {n : Nat} (h : 0 < n) : 10 ^ (digitCount n - 1) ≤ n := by
  refine decimalLength_le ?_
  calc 10 ^ (n.log2 * 30 / 100 - 1) ≤ 2 ^ n.log2 := ten_pow_le_two_pow (by omega)
    _ ≤ n := Nat.log2_self_le (Nat.ne_of_gt h)

theorem leadingExponent_le {value denominator : Nat} (hv : 0 < value) (hd : 0 < denominator) :
    (10 : ℚ) ^ leadingExponent value denominator ≤ value / denominator := by
  have hden : (0 : ℚ) < denominator := by exact_mod_cast hd
  simp only [leadingExponent]
  split
  · rename_i hreached
    rw [zpow_eq_div (by norm_num), div_le_div_iff₀ (by positivity) hden, mul_comm]
    exact_mod_cast hreached
  · obtain ⟨k, hk⟩ : ∃ k, digitCount value = k + 1 := by
      refine Nat.exists_eq_succ_of_ne_zero fun h => ?_
      have := lt_digitCount value
      rw [h] at this
      omega
    have hlow : (10 : ℚ) ^ k ≤ value := by
      have := digitCount_le hv
      rw [hk, Nat.add_sub_cancel] at this
      exact_mod_cast this
    have hhigh : (denominator : ℚ) ≤ 10 ^ digitCount denominator := by
      exact_mod_cast Nat.le_of_lt (lt_digitCount denominator)
    calc (10 : ℚ) ^ ((digitCount value : Int) - digitCount denominator - 1)
        = 10 ^ k / 10 ^ digitCount denominator := by
          rw [hk, show ((k + 1 : Nat) : Int) - digitCount denominator - 1 =
            k - digitCount denominator by omega, zpow_sub₀ (by norm_num), zpow_natCast,
            zpow_natCast]
      _ ≤ value / denominator := div_le_div₀ (by positivity) hlow hden hhigh

/-! ### The rounding interval -/

namespace Interval

/-- A number lies in an interval. -/
structure Contains (r : Interval) (v : ℚ) : Prop where
  lower : r.lower ≤ v * r.denominator
  upper : v * r.denominator ≤ r.upper
  closed : v * r.denominator = r.lower ∨ v * r.denominator = r.upper → r.closed = true

theorem compare_or_iff {a b : Nat} {c : Bool} :
    (compare a b == .lt || (c && compare a b == .eq)) = true ↔ a ≤ b ∧ (a = b → c = true) := by
  rcases lt_trichotomy a b with h | rfl | h
  · simp [compare_lt_iff_lt.2 h, h.le, h.ne]
  · simp
  · simp [compare_gt_iff_gt.2 h, h]

theorem holds_iff {r : Interval} {n d : Nat} (hd : 0 < d) :
    r.holds n d = true ↔ r.Contains (n / d) := by
  have hd' : (0 : ℚ) < d := by exact_mod_cast hd
  have hscale : (n : ℚ) / d * r.denominator = (n * r.denominator : Nat) / d := by
    push_cast
    ring
  have hlow : (r.lower : ℚ) ≤ n / d * r.denominator ↔ r.lower * d ≤ n * r.denominator := by
    rw [hscale, le_div_iff₀ hd']
    exact_mod_cast Iff.rfl
  have hhigh : (n : ℚ) / d * r.denominator ≤ r.upper ↔ n * r.denominator ≤ r.upper * d := by
    rw [hscale, div_le_iff₀ hd']
    exact_mod_cast Iff.rfl
  have hlow' : (n : ℚ) / d * r.denominator = r.lower ↔ r.lower * d = n * r.denominator := by
    rw [hscale, div_eq_iff hd'.ne', eq_comm]
    exact_mod_cast Iff.rfl
  have hhigh' : (n : ℚ) / d * r.denominator = r.upper ↔ n * r.denominator = r.upper * d := by
    rw [hscale, div_eq_iff hd'.ne']
    exact_mod_cast Iff.rfl
  simp only [holds, Bool.and_eq_true, compare_or_iff]
  constructor
  · rintro ⟨⟨h₁, h₂⟩, h₃, h₄⟩
    refine ⟨hlow.2 h₁, hhigh.2 h₃, ?_⟩
    rintro (h | h)
    · exact h₂ (hlow'.1 h)
    · exact h₄ (hhigh'.1 h)
  · rintro ⟨h₁, h₂, h₃⟩
    exact ⟨⟨hlow.1 h₁, fun h => h₃ (.inl (hlow'.2 h))⟩, hhigh.1 h₂, fun h => h₃ (.inr (hhigh'.2 h))⟩

/-- A number on a grid. -/
theorem toRat_eq_div (n : Nat) (step : Int) :
    (Decimal.mk n step).toRat =
      (n * Nat.pow 10 step.toNat : Nat) / (Nat.pow 10 (-step).toNat : Nat) := by
  rw [Decimal.toRat, zpow_eq_div (by norm_num)]
  simp only [Nat.pow_eq]
  push_cast
  ring

/-- What is picked lies in the interval. -/
theorem contains_of_pick {r : Interval} {step : Int} {d : Decimal} (h : r.pick step = some d) :
    r.Contains d.toRat := by
  have hdown : 0 < Nat.pow 10 (-step).toNat := Nat.pow_pos (by norm_num)
  simp only [pick] at h
  split at h
  · rename_i hfits
    cases h
    rw [toRat_eq_div, ← holds_iff hdown]
    exact (Bool.and_eq_true _ _ ▸ hfits).1
  · split at h
    · rename_i hfits
      cases h
      rw [toRat_eq_div, ← holds_iff hdown]
      exact hfits
    · cases h

/-- A neighbour of the value that lies in the interval is picked, or the other one is. -/
theorem exists_pick_of_holds {r : Interval} {step : Int} {up down below : Nat}
    (hup : up = 10 ^ step.toNat) (hdown : down = 10 ^ (-step).toNat)
    (hbelow : below = r.value * down / (r.denominator * up))
    (h : r.holds (below * up) down = true ∨ r.holds ((below + 1) * up) down = true) :
    ∃ d, r.pick step = some d := by
  subst hup hdown hbelow
  simp only [pick, Nat.pow_eq]
  split
  · exact ⟨_, rfl⟩
  · split
    · exact ⟨_, rfl⟩
    · rename_i hlow hhigh
      rcases h with h | h
      · simp [h, hhigh] at hlow
      · exact absurd h hhigh

/-- A grid that is finer than the interval is wide has a number in it. -/
theorem exists_pick {r : Interval} {step : Int} (hlow : r.lower < r.value)
    (hhigh : r.value < r.upper) (hden : 0 < r.denominator)
    (hfine : r.denominator * 10 ^ step.toNat + r.lower * 10 ^ (-step).toNat <
      r.upper * 10 ^ (-step).toNat) : ∃ d, r.pick step = some d := by
  obtain ⟨up, hup⟩ : ∃ up, up = 10 ^ step.toNat := ⟨_, rfl⟩
  obtain ⟨down, hdown⟩ : ∃ down, down = 10 ^ (-step).toNat := ⟨_, rfl⟩
  obtain ⟨below, hb⟩ : ∃ below, below = r.value * down / (r.denominator * up) := ⟨_, rfl⟩
  refine exists_pick_of_holds hup hdown hb ?_
  rw [← hup, ← hdown] at hfine
  have hpos : 0 < down := hdown ▸ Nat.pow_pos (by norm_num)
  have hunit : 0 < r.denominator * up := Nat.mul_pos hden (hup ▸ Nat.pow_pos (by norm_num))
  -- the two neighbours of the value, as multiples of the unit of the grid
  have hbelow : below * (r.denominator * up) ≤ r.value * down := hb ▸ Nat.div_mul_le_self _ _
  have habove : r.value * down < (below + 1) * (r.denominator * up) := by
    rw [hb, Nat.mul_comm (_ + 1)]
    exact Nat.lt_mul_div_succ _ hunit
  have hlow' : r.lower * down < r.value * down := Nat.mul_lt_mul_of_pos_right hlow hpos
  have hhigh' : r.value * down < r.upper * down := Nat.mul_lt_mul_of_pos_right hhigh hpos
  have hstrict : ∀ k, r.lower * down < k * (r.denominator * up) →
      k * (r.denominator * up) < r.upper * down → r.holds (k * up) down = true := by
    intro k h₁ h₂
    rw [show k * (r.denominator * up) = k * up * r.denominator by ring] at h₁ h₂
    simp only [holds, Bool.and_eq_true, compare_or_iff]
    exact ⟨⟨h₁.le, fun h => absurd h h₁.ne⟩, h₂.le, fun h => absurd h h₂.ne⟩
  by_cases h : r.lower * down < below * (r.denominator * up)
  · exact .inl (hstrict below h (by omega))
  · refine .inr (hstrict (below + 1) (by omega) ?_)
    rw [Nat.add_mul, Nat.one_mul]
    omega

end Interval

/-! ### The interval of a double -/

/-- The quarters of a last place from the lower end of the interval to the double. -/
def lowerQuarters (m : Nat) (q : Int) : Nat := if IsNarrow m q then 1 else 2

theorem lowerQuarters_le (m : Nat) (q : Int) : lowerQuarters m q ≤ 2 := by
  rw [lowerQuarters]
  split <;> omega

theorem interval_eq (x : Exact) :
    x.interval =
      { lower := (4 * x.mantissa - lowerQuarters x.mantissa x.exponent) * 2 ^ x.exponent.toNat
        value := 4 * x.mantissa * 2 ^ x.exponent.toNat
        upper := (4 * x.mantissa + 2) * 2 ^ x.exponent.toNat
        denominator := 4 * 2 ^ (-x.exponent).toNat
        closed := x.mantissa % 2 == 0 } := by
  have hnarrow : (x.mantissa == Nat.pow 2 52 && x.exponent != -1074) =
      decide (IsNarrow x.mantissa x.exponent) := by
    rw [Bool.eq_iff_iff, decide_eq_true_iff]
    simp [IsNarrow]
  rw [Exact.interval, hnarrow, lowerQuarters]
  simp only [decide_eq_true_eq, Nat.pow_eq]

theorem interval_value (x : Exact) :
    (x.interval.value : ℚ) / x.interval.denominator = x.mantissa * 2 ^ x.exponent := by
  rw [zpow_eq_div two_ne_zero, interval_eq]
  push_cast
  field_simp

section

variable {negative : Bool} {m : Nat} {q : Int}

/-- The numbers in the rounding interval are near to the double. -/
theorem near_of_contains (hd : IsDouble m q) {v : ℚ}
    (h : (Exact.interval ⟨negative, m, q⟩).Contains v) : Near v m q := by
  rw [interval_eq] at h
  have hpos := hd.pos
  have hquarters := lowerQuarters_le m q
  -- in quarters of a last place
  have hscale : v * (4 * 2 ^ (-q).toNat) = 4 * (v / 2 ^ q) * 2 ^ q.toNat := by
    rw [zpow_eq_div two_ne_zero q]
    field_simp
  have hlower : ((4 * m - lowerQuarters m q : Nat) : ℚ) = 4 * m - lowerQuarters m q := by
    rw [Nat.cast_sub (by omega)]
    push_cast
    rfl
  have hunit : (0 : ℚ) < 2 ^ q.toNat := by positivity
  obtain ⟨h₁, h₂, h₃⟩ := h
  simp only [Nat.cast_mul, Nat.cast_pow, Nat.cast_ofNat, hlower, Nat.cast_add, hscale] at h₁ h₂ h₃
  rw [mul_le_mul_iff_left₀ hunit] at h₁ h₂
  rw [mul_left_inj' hunit.ne', mul_left_inj' hunit.ne', beq_iff_eq] at h₃
  have hhalf : (lowerQuarters m q : ℚ) / 4 = if IsNarrow m q then 1 / 4 else 1 / 2 := by
    rw [lowerQuarters]
    split <;> norm_num
  have hends : (lowerQuarters m q : ℚ) ≤ 2 := by exact_mod_cast hquarters
  refine ⟨by rw [← hhalf]; linarith, by linarith, ?_⟩
  rintro (h | h)
  · exact h₃ (.inl (by linarith))
  · exact h₃ (.inr (by linarith))

/-- A grid that is finer than the rounding interval is wide has a number in it. -/
theorem exists_pick_of_lt (hd : IsDouble m q) {step : Int}
    (h : (10 : ℚ) ^ step < (2 + lowerQuarters m q) / 4 * 2 ^ q) :
    ∃ d, (Exact.interval ⟨negative, m, q⟩).pick step = some d := by
  have hpos := hd.pos
  have hquarters := lowerQuarters_le m q
  have hlower : 0 < lowerQuarters m q := by rw [lowerQuarters]; split <;> simp
  have hunit : 0 < 2 ^ q.toNat := by positivity
  have hgrid : 4 * 2 ^ (-q).toNat * 10 ^ step.toNat <
      (2 + lowerQuarters m q) * 2 ^ q.toNat * 10 ^ (-step).toNat := by
    rw [zpow_eq_div (by norm_num) step, zpow_eq_div two_ne_zero q, div_mul_div_comm,
      div_lt_div_iff₀ (by positivity) (by positivity)] at h
    have hnat : 10 ^ step.toNat * (4 * 2 ^ (-q).toNat) <
        (2 + lowerQuarters m q) * 2 ^ q.toNat * 10 ^ (-step).toNat := by exact_mod_cast h
    rwa [Nat.mul_comm] at hnat
  refine Interval.exists_pick ?_ ?_ ?_ ?_ <;> rw [interval_eq]
  · exact Nat.mul_lt_mul_of_pos_right (Nat.sub_lt (by positivity) hlower) hunit
  · exact Nat.mul_lt_mul_of_pos_right (Nat.lt_add_of_pos_right two_pos) hunit
  · positivity
  · have hends : 4 * m + 2 = (4 * m - lowerQuarters m q) + (2 + lowerQuarters m q) := by omega
    dsimp only
    rw [hends, Nat.add_mul, Nat.add_mul]
    omega

/-- The grid of seventeen digits is that fine. -/
theorem ten_zpow_lt (hd : IsDouble m q) {step : Int} (h : (10 : ℚ) ^ (step + 16) ≤ m * 2 ^ q) :
    (10 : ℚ) ^ step < (2 + lowerQuarters m q) / 4 * 2 ^ q := by
  have hplaces : (m : ℚ) / 10 ^ 16 < (2 + lowerQuarters m q) / 4 := by
    rw [lowerQuarters]
    split
    · rename_i hnarrow
      rw [hnarrow.1]
      norm_num
    · have hlt : (m : ℚ) < 2 ^ 53 := by exact_mod_cast hd.lt
      rw [div_lt_iff₀ (by norm_num)]
      exact hlt.trans (by norm_num)
  calc (10 : ℚ) ^ step = 10 ^ (step + 16) / 10 ^ 16 := by
        rw [zpow_add₀ (by norm_num), mul_div_assoc, show (10 : ℚ) ^ (16 : Int) = 10 ^ 16 from rfl,
          div_self (by norm_num), mul_one]
    _ ≤ m * 2 ^ q / 10 ^ 16 := by gcongr
    _ = m / 10 ^ 16 * 2 ^ q := by ring
    _ < (2 + lowerQuarters m q) / 4 * 2 ^ q := by gcongr

theorem exists_pick_seventeen (negative : Bool) (hd : IsDouble m q) :
    ∃ d, (Exact.interval ⟨negative, m, q⟩).pick
      (leadingExponent (Exact.interval ⟨negative, m, q⟩).value
        (Exact.interval ⟨negative, m, q⟩).denominator - 16) = some d := by
  refine exists_pick_of_lt hd (ten_zpow_lt hd ?_)
  have hpos := hd.pos
  rw [sub_add_cancel]
  refine (leadingExponent_le ?_ ?_).trans_eq (interval_value _) <;> rw [interval_eq] <;> positivity

/-- **The digits of a double are near to it.** -/
theorem near_shortest (hd : IsDouble m q) : Near (shortest ⟨negative, m, q⟩).toRat m q := by
  obtain ⟨d, hd'⟩ : ∃ d, ((List.range 17).map fun (n : Nat) =>
      leadingExponent (Exact.interval ⟨negative, m, q⟩).value
        (Exact.interval ⟨negative, m, q⟩).denominator - (n : Int)).findSome?
          (Exact.interval ⟨negative, m, q⟩).pick = some d := by
    obtain ⟨d, hpick⟩ := exists_pick_seventeen negative hd
    refine Option.isSome_iff_exists.1 (List.findSome?_isSome_iff.2 ?_)
    exact ⟨_, List.mem_map.2 ⟨16, by decide, rfl⟩, Option.isSome_iff_exists.2 ⟨d, hpick⟩⟩
  obtain ⟨step, -, hpick⟩ := List.exists_of_findSome?_eq_some hd'
  simp only [shortest, Decimal.toRat_trim, hd', Option.getD_some]
  exact near_of_contains hd (Interval.contains_of_pick hpick)

end

/-! ### Reading a double back -/

theorem neg_ofModel_pack {m : Nat} {q : Int} (hd : IsDouble m q) (hq : q ≤ maxExponent) :
    -Float.ofModel (Float.Model.pack (.finite .positive m q hd.pos)) =
      Float.ofModel (Float.Model.pack (.finite .negative m q hd.pos)) := by
  change Float.ofModel (Float.Model.pack (UnpackedFloat.neg
    (UnpackedFloat.unpack Format.binary64 (UnpackedFloat.pack Format.binary64 _)))) = _
  rw [unpack_pack_finite hd hq]
  rfl

/-- **Every decimal of the value that a double is written with reads back to the double.** -/
theorem ofDecimal_of_kindOf {x : Float} {v : Exact} (hx : kindOf x = .finite v) {d : Nat} {e : Int}
    (h : (Decimal.mk d e).toRat = v.decimal.toRat) :
    (if v.negative then -ofDecimal d e else ofDecimal d e) = x := by
  have hpack := ofModel_pack_unpack x
  rw [kindOf_eq] at hx
  cases hu : x.toModel.unpack with
  | notANumber | infinity s => rw [hu] at hx; cases hx
  | zero s =>
    rw [hu] at hx hpack
    cases hx
    have hzero : d = 0 := by
      have hten : (10 : ℚ) ^ e ≠ 0 := by positivity
      simpa [Exact.decimal, Decimal.toRat, hten] using h
    rw [← hpack, hzero, ofDecimal, if_pos rfl]
    cases s with
    | positive => rfl
    | negative =>
      change -(0.0 : Float) = _
      rfl
  | finite s m q hm =>
    obtain ⟨hd, hq⟩ := isDouble_of_unpack hu
    rw [hu] at hx hpack
    cases hx
    have hnear : Near ((Decimal.mk d e).toRat) m q := by
      rw [h, Exact.decimal, if_neg (Nat.ne_of_gt hm)]
      exact near_shortest hd
    rw [ofDecimal_eq rfl hd hq hnear]
    cases s with
    | positive => exact hpack
    | negative => exact (neg_ofModel_pack hd hq).trans hpack

/-- Only zero is written with a zero alone. -/
theorem exponent_eq_zero_of_digits {x : Float} {v : Exact} (hx : kindOf x = .finite v)
    (h : v.decimal.digits = 0) : v.decimal.exponent = 0 := by
  rw [kindOf_eq] at hx
  cases hu : x.toModel.unpack with
  | notANumber | infinity s => rw [hu] at hx; cases hx
  | zero s =>
    rw [hu] at hx
    cases hx
    rfl
  | finite s m q hm =>
    obtain ⟨hd, -⟩ := isDouble_of_unpack hu
    rw [hu] at hx
    cases hx
    have hpos : 0 < (shortest ⟨s == .negative, m, q⟩).toRat := (near_shortest hd).pos hd
    rw [Exact.decimal, if_neg (Nat.ne_of_gt hm)] at h
    rw [Decimal.toRat, h] at hpos
    simp at hpos

theorem eq_infinity {x : Float} {negative : Bool} (hx : kindOf x = .infinite negative) :
    x = if negative then -1.0 / 0.0 else 1.0 / 0.0 := by
  have hpack := ofModel_pack_unpack x
  rw [kindOf_eq] at hx
  cases hu : x.toModel.unpack with
  | notANumber | zero s => rw [hu] at hx; cases hx
  | finite s m q hm => rw [hu] at hx; cases hx
  | infinity s =>
    rw [hu] at hx hpack
    cases hx
    rw [← hpack]
    cases s <;> rfl

end BarScript.Number
