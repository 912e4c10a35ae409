import BarScript.Proofs.Number.Fields

/-!
# Reading a decimal gives the nearest double

Products and quotients are rounded from their exact value (`mul_eq`, `div_eq`), so the double read
from `d · 10 ^ e` is the one that `d · 10 ^ e` is near to (`ofDecimal_eq`).  This holds for both
ways of reading: with the powers of ten that are doubles themselves, and with whole numbers of any
size.
-/

namespace BarScript.Number

open Float.Model Float.Model.UnpackedFloat

variable {v : ℚ} {n : Nat} {q : Int}

theorem zpow_eq_div {b : ℚ} (hb : b ≠ 0) (e : Int) : b ^ e = b ^ e.toNat / b ^ (-e).toNat := by
  conv_lhs => rw [show e = (e.toNat : Int) - ((-e).toNat : Int) by omega]
  rw [zpow_sub₀ hb, zpow_natCast, zpow_natCast]

theorem Near.pos (h : Near v n q) (hd : IsDouble n q) : 0 < v := by
  have hn : (1 : ℚ) ≤ n := by exact_mod_cast hd.pos
  have hhalf := h.half
  have hpos : 0 < v / 2 ^ q := by linarith
  exact (div_pos_iff_of_pos_right (by positivity)).1 hpos

/-- A double is near to itself. -/
theorem near_self (n : Nat) (q : Int) : Near (n * 2 ^ q) n q := by
  have h : (n : ℚ) * 2 ^ q / 2 ^ q = n := by
    rw [mul_div_assoc, div_self (by positivity), mul_one]
  refine ⟨?_, ?_, ?_⟩ <;> rw [h]
  · split <;> linarith
  · linarith
  · rintro (h | h) <;> linarith

/-! ### Products and quotients -/

section

variable {s₁ s₂ : Sign} {m₁ m₂ : Nat} {e₁ e₂ : Int} {h₁ : 0 < m₁} {h₂ : 0 < m₂}

theorem mul_eq (hv : v = m₁ * 2 ^ e₁ * (m₂ * 2 ^ e₂)) (hbits : 52 ≤ (m₁ * m₂).log2)
    (hd : IsDouble n q) (hnear : Near v n q) :
    UnpackedFloat.mul Format.binary64 (.finite s₁ m₁ e₁ h₁) (.finite s₂ m₂ e₂ h₂) =
      .finite (s₁ * s₂) n q hd.pos := by
  refine roundWithAccuracy_eq ?_ (.inl hbits) hd hnear
  have hexact : v / 2 ^ (e₁ + e₂) = (m₁ * m₂ : Nat) := by
    rw [hv, zpow_add₀ two_ne_zero]
    push_cast
    field_simp
  rw [hexact]
  exact describes_exact _

theorem div_eq (hv : v = m₁ * 2 ^ e₁ / (m₂ * 2 ^ e₂)) (hd : IsDouble n q) (hnear : Near v n q) :
    UnpackedFloat.div Format.binary64 (.finite s₁ m₁ e₁ h₁) (.finite s₂ m₂ e₂ h₂) =
      .finite (s₁ / s₂) n q hd.pos := by
  obtain ⟨t, ht⟩ :
      ∃ t, t = min (e₁ - e₂) (max ((m₁.log2 : Int) + 1 + e₁ - (m₂.log2 + 1 + e₂) - 53) (-1074)) :=
    ⟨_, rfl⟩
  obtain ⟨k, hk⟩ : ∃ k : Nat, (k : Int) = e₁ - e₂ - t := ⟨_, Int.toNat_of_nonneg (by omega)⟩
  have hcore : divCore Format.binary64 m₁ e₁ m₂ e₂ =
      (m₁ <<< k / m₂, t, accuracyOfFraction (m₁ <<< k % m₂) m₂) := by
    have hk' : k = (e₁ - e₂ - t).toNat := by omega
    subst hk' ht
    rfl
  have hdiv : UnpackedFloat.div Format.binary64 (.finite s₁ m₁ e₁ h₁) (.finite s₂ m₂ e₂ h₂) =
      roundWithAccuracy Format.binary64 (s₁ / s₂) (m₁ <<< k / m₂) t
        (accuracyOfFraction (m₁ <<< k % m₂) m₂) := by
    simp only [UnpackedFloat.div, hcore]
  rw [hdiv]
  refine roundWithAccuracy_eq ?_ ?_ hd hnear
  · have hm₂ : (m₂ : ℚ) ≠ 0 := by exact_mod_cast Nat.ne_of_gt h₂
    have hquotient : v / 2 ^ t = (m₁ <<< k / m₂ : Nat) + (m₁ <<< k % m₂ : Nat) / m₂ := by
      have hsplit : ((m₁ <<< k : Nat) : ℚ) =
          m₂ * (m₁ <<< k / m₂ : Nat) + (m₁ <<< k % m₂ : Nat) := by
        exact_mod_cast (Nat.div_add_mod (m₁ <<< k) m₂).symm
      have hexact : v / 2 ^ t = (m₁ <<< k : Nat) / m₂ := by
        have hexp : e₁ = t + k + e₂ := by omega
        rw [hv, hexp, zpow_add₀ two_ne_zero, zpow_add₀ two_ne_zero, zpow_natCast, Nat.shiftLeft_eq]
        push_cast
        field_simp
      rw [hexact, hsplit]
      field_simp
    rw [hquotient]
    exact describes_fraction _ (Nat.mod_lt _ h₂)
  · -- enough bits of the quotient are computed, unless even fewer can be kept
    by_cases hmin : t ≤ -1074
    · exact .inr hmin
    · have hpow : 2 ^ 52 * m₂ ≤ m₁ <<< k :=
        calc 2 ^ 52 * m₂ ≤ 2 ^ 52 * 2 ^ (m₂.log2 + 1) :=
              Nat.mul_le_mul_left _ (Nat.le_of_lt Nat.lt_log2_self)
          _ ≤ 2 ^ (m₁.log2 + k) := by
              rw [← Nat.pow_add]
              exact Nat.pow_le_pow_right (by omega) (by omega)
          _ ≤ m₁ <<< k := by
              rw [Nat.shiftLeft_eq, Nat.pow_add]
              exact Nat.mul_le_mul_right _ (Nat.log2_self_le (Nat.ne_of_gt h₁))
      have hle : 2 ^ 52 ≤ m₁ <<< k / m₂ := (Nat.le_div_iff_mul_le h₂).2 hpow
      exact .inl ((Nat.le_log2 (Nat.ne_of_gt (Nat.lt_of_lt_of_le (by positivity) hle))).2 hle)

end

/-! ### Whole numbers and powers of ten as doubles -/

/-- A positive double of 53 bits that is a number exactly. -/
def Exactly (x : Float) (v : ℚ) : Prop :=
  ∃ m e h, x.toModel.unpack = .finite .positive m e h ∧ 2 ^ 52 ≤ m ∧ v = m * 2 ^ e

/-- A whole number of at most 53 bits has a significand of 53 bits. -/
theorem exists_isDouble {d : Nat} (hpos : 0 < d) (hlt : d < 2 ^ 53) :
    ∃ k, d.log2 + k = 52 ∧ 2 ^ 52 ≤ d * 2 ^ k ∧ IsDouble (d * 2 ^ k) (-k) ∧
      (d : ℚ) = (d * 2 ^ k : Nat) * 2 ^ (-(k : Int)) := by
  have hlog : d.log2 ≤ 52 := log2_le_of_lt hlt
  obtain ⟨k, hk⟩ : ∃ k, d.log2 + k = 52 := ⟨52 - d.log2, by omega⟩
  have hlow : 2 ^ 52 ≤ d * 2 ^ k := by
    rw [← hk, Nat.pow_add]
    exact Nat.mul_le_mul_right _ (Nat.log2_self_le (Nat.ne_of_gt hpos))
  have hhigh : d * 2 ^ k < 2 ^ 53 := by
    rw [show 53 = d.log2 + 1 + k by omega, Nat.pow_add]
    exact Nat.mul_lt_mul_of_pos_right Nat.lt_log2_self (by positivity)
  refine ⟨k, hk, hlow, ⟨by positivity, hhigh, by omega, fun _ => hlow⟩, ?_⟩
  rw [zpow_neg, zpow_natCast]
  push_cast
  field_simp

/-- A whole number of at most 53 bits is a double. -/
theorem exactly_toFloat {d : Nat} (hpos : 0 < d) (hlt : d < 2 ^ 53) :
    Exactly d.toUInt64.toFloat d := by
  obtain ⟨k, hk, hlow, hd, hvalue⟩ := exists_isDouble hpos hlt
  have hmodel : d.toUInt64.toFloat.toModel.unpack =
      UnpackedFloat.unpack Format.binary64 (UnpackedFloat.pack Format.binary64
        (UnpackedFloat.ofNat Format.binary64 d)) := by
    have hnat : d.toUInt64.toNat = d := by
      rw [Nat.toUInt64_eq, UInt64.toNat_ofNat']
      omega
    have h : d.toUInt64.toFloat.toModel.unpack =
      UnpackedFloat.unpack Format.binary64 (UnpackedFloat.pack Format.binary64
        (UnpackedFloat.ofNat Format.binary64 d.toUInt64.toNat)) := rfl
    rwa [hnat] at h
  have hround : UnpackedFloat.ofNat Format.binary64 d =
      .finite .positive (d * 2 ^ k) (-k) hd.pos := by
    have hshift : (0 - max ((d.log2 : Int) + 1 + 0 - 53) (-1074)).toNat = k := by omega
    have hround : UnpackedFloat.round Format.binary64 .positive d 0 =
        roundWithAccuracy Format.binary64 .positive (d <<< k) (0 - (k : Int)) .exact := by
      subst hshift
      rfl
    rw [UnpackedFloat.ofNat, UnpackedFloat.ofInt, UnpackedFloat.normalize,
      show compare (d : Int) 0 = .gt from compare_gt_iff_gt.2 (by omega)]
    change UnpackedFloat.round Format.binary64 .positive d 0 = _
    rw [hround, Nat.shiftLeft_eq, zero_sub]
    refine roundWithAccuracy_eq (v := d) ?_ (.inl ?_) hd ?_
    · have hexact : (d : ℚ) / 2 ^ (-(k : Int)) = (d * 2 ^ k : Nat) := by
        rw [zpow_neg, zpow_natCast]
        push_cast
        field_simp
      rw [hexact]
      exact describes_exact _
    · exact (Nat.le_log2 (Nat.ne_of_gt hd.pos)).2 hlow
    · rw [hvalue]
      exact near_self _ _
  refine ⟨_, _, hd.pos, ?_, hlow, hvalue⟩
  rw [hmodel, hround]
  exact unpack_pack_finite hd (by rw [maxExponent]; omega)

/-- Whether a double is a positive one of 53 bits that is a whole number exactly. -/
def isExactly (x : Float) (w : Nat) : Bool :=
  match kindOf x with
  | .finite v => !v.negative && 2 ^ 52 ≤ v.mantissa &&
      v.mantissa * 2 ^ v.exponent.toNat == w * 2 ^ (-v.exponent).toNat
  | _ => false

theorem exactly_of_isExactly {x : Float} {w : Nat} (h : isExactly x w = true) : Exactly x w := by
  rw [isExactly, kindOf_eq] at h
  generalize hu : x.toModel.unpack = u at h
  cases u with
  | notANumber | infinity => cases h
  | zero s => cases s <;> cases h
  | finite s m e hm =>
    obtain ⟨⟨hsign, hle⟩, heq⟩ : ((s == .negative) = false ∧ 2 ^ 52 ≤ m) ∧
        m * 2 ^ e.toNat = w * 2 ^ (-e).toNat := by simpa [kindOfUnpacked] using h
    have hs : s = .positive := by
      cases s with
      | positive => rfl
      | negative => cases hsign
    refine ⟨m, e, hm, hs ▸ hu, hle, ?_⟩
    have hcast : (m : ℚ) * 2 ^ e.toNat = w * 2 ^ (-e).toNat := by exact_mod_cast heq
    rw [zpow_eq_div two_ne_zero, ← mul_div_assoc, hcast]
    field_simp

theorem isExactly_powersOfTen : ∀ e : Fin Float.exactlyRepresentablePowersOfTen.size,
    isExactly Float.exactlyRepresentablePowersOfTen[e] (10 ^ e.val) = true := by
  decide +kernel

/-- The powers of ten in the table are exact. -/
theorem exactly_powerOfTen {e : Nat} (he : e < Float.exactlyRepresentablePowersOfTen.size) :
    Exactly Float.exactlyRepresentablePowersOfTen[e] (10 ^ e : Nat) :=
  exactly_of_isExactly (isExactly_powersOfTen ⟨e, he⟩)

/-! ### Decimals -/

theorem model_ofScientific_eq {d : Nat} {e : Int} (hv : v = d * 10 ^ e) (hle : e ≤ 2 ^ 11)
    (hge : -(2 ^ 11 + d.log2) ≤ e) (hd : IsDouble n q) (hnear : Near v n q) :
    UnpackedFloat.ofScientific Format.binary64 d e = .finite .positive n q hd.pos := by
  have hpos : d ≠ 0 := by
    rintro rfl
    have := hnear.pos hd
    simp [hv] at this
  have hle' : ¬e > 2 ^ Format.binary64.exponentBits := Int.not_lt.2 hle
  have hge' : ¬e < -((2 ^ Format.binary64.exponentBits : Int) + d.log2) := Int.not_lt.2 hge
  rw [UnpackedFloat.ofScientific, dif_neg hpos, if_neg hle', if_neg hge']
  split
  · have hlog : 52 ≤ (d <<< 53 * 10 ^ e.toNat).log2 := by
      have hone : 1 ≤ d * 10 ^ e.toNat := Nat.mul_pos (Nat.pos_of_ne_zero hpos) (by positivity)
      rw [Nat.shiftLeft_eq, Nat.mul_right_comm, log2_mul_two_pow hone]
      omega
    have hexact :
        v = (d <<< 53 : Nat) * 2 ^ (-53 : Int) * ((10 ^ e.toNat : Nat) * 2 ^ (0 : Int)) := by
      rw [hv, zpow_eq_div (by norm_num) e, show (-e).toNat = 0 by omega, Nat.shiftLeft_eq]
      push_cast
      ring
    exact mul_eq hexact hlog hd hnear
  · have hexact : v = d * 2 ^ (0 : Int) / ((10 ^ (-e).toNat : Nat) * 2 ^ (0 : Int)) := by
      rw [hv, zpow_eq_div (by norm_num) e, show e.toNat = 0 by omega]
      push_cast
      ring
    exact div_eq hexact hd hnear

/-- The exponent of a decimal in scientific notation. -/
def scientificExponent (negative : Bool) (e : Nat) : Int := if negative then -e else e

theorem ofScientific_eq {d : Nat} {negative : Bool} {e : Nat}
    (hv : v = d * 10 ^ scientificExponent negative e) (hle : scientificExponent negative e ≤ 2 ^ 11)
    (hge : -(2 ^ 11 + d.log2) ≤ scientificExponent negative e) (hd : IsDouble n q)
    (hnear : Near v n q) :
    Float.ofScientific d negative e =
      Float.ofModel (Float.Model.pack (.finite .positive n q hd.pos)) := by
  rw [Float.ofScientific]
  split
  · -- both the digits and the power of ten are doubles
    rename_i hsmall
    have hpos : 0 < d := by
      refine Nat.pos_of_ne_zero ?_
      rintro rfl
      have := hnear.pos hd
      simp [hv] at this
    obtain ⟨m₁, e₁, h₁, hu₁, hm₁, hv₁⟩ := exactly_toFloat hpos hsmall.1
    have hsize : Float.exactlyRepresentablePowersOfTen.size = 23 := rfl
    obtain ⟨m₂, e₂, h₂, hu₂, hm₂, hv₂⟩ :=
      exactly_powerOfTen (e := e) (by rw [hsize]; omega)
    cases negative with
    | true =>
      have hexact : v = m₁ * 2 ^ e₁ / (m₂ * 2 ^ e₂) := by
        rw [← hv₁, ← hv₂, hv, scientificExponent, if_pos rfl, zpow_neg, zpow_natCast]
        push_cast
        rfl
      refine congrArg (fun u => Float.ofModel (Float.Model.pack u)) ?_
      rw [hu₁, hu₂]
      exact div_eq hexact hd hnear
    | false =>
      have hexact : v = m₁ * 2 ^ e₁ * (m₂ * 2 ^ e₂) := by
        rw [← hv₁, ← hv₂, hv, scientificExponent, if_neg (by decide), zpow_natCast]
        push_cast
        rfl
      have hlog : 52 ≤ (m₁ * m₂).log2 := by
        refine (Nat.le_log2 (Nat.ne_of_gt (Nat.mul_pos h₁ h₂))).2 ?_
        exact Nat.le_trans hm₁ (Nat.le_mul_of_pos_right _ h₂)
      refine congrArg (fun u => Float.ofModel (Float.Model.pack u)) ?_
      rw [hu₁, hu₂]
      exact mul_eq hexact hlog hd hnear
  · have hexp : (if negative = true then Int.negOfNat e else Int.ofNat e) =
        scientificExponent negative e := by
      rw [scientificExponent, Int.negOfNat_eq]
      rfl
    refine congrArg (fun u => Float.ofModel (Float.Model.pack u)) ?_
    rw [hexp]
    exact model_ofScientific_eq hv hle hge hd hnear

theorem two_pow_le_ten_pow (k : Nat) : (2 : ℚ) ^ (3 * k) ≤ 10 ^ k := by
  rw [pow_mul]
  exact pow_le_pow_left₀ (by norm_num) (by norm_num) k

theorem Near.lt_ten_pow (h : Near v n q) (hd : IsDouble n q) (hq : q ≤ maxExponent) :
    v < 10 ^ 400 := by
  have hn : (n : ℚ) + 1 ≤ 2 ^ 53 := by exact_mod_cast hd.lt
  have hquotient : v / 2 ^ q < 2 ^ 53 := by linarith [h.upper]
  have hpow : (2 : ℚ) ^ q ≤ 2 ^ (971 : Int) := zpow_le_zpow_right₀ one_le_two hq
  calc v < 2 ^ 53 * 2 ^ q := (div_lt_iff₀ (by positivity)).1 hquotient
    _ ≤ 2 ^ (53 : Int) * 2 ^ (971 : Int) := mul_le_mul_of_nonneg_left hpow (by positivity)
    _ = 2 ^ (1024 : Int) := by rw [← zpow_add₀ two_ne_zero]; norm_num only
    _ ≤ 2 ^ ((3 * 400 : Nat) : Int) := zpow_le_zpow_right₀ one_le_two (by norm_num)
    _ = 2 ^ (3 * 400) := zpow_natCast _ _
    _ ≤ 10 ^ 400 := two_pow_le_ten_pow 400

theorem Near.ten_zpow_le (h : Near v n q) (hd : IsDouble n q) : (10 ^ 400)⁻¹ ≤ v := by
  have hn : (1 : ℚ) ≤ n := by exact_mod_cast hd.pos
  have hquotient : 2 ^ (-1 : Int) ≤ v / 2 ^ q := by
    have : (2 : ℚ) ^ (-1 : Int) = 1 / 2 := by norm_num
    linarith [h.half]
  calc ((10 : ℚ) ^ 400)⁻¹ ≤ (2 ^ (3 * 400))⁻¹ :=
        inv_anti₀ (by positivity) (two_pow_le_ten_pow 400)
    _ = 2 ^ (-((3 * 400 : Nat) : Int)) := by rw [zpow_neg, zpow_natCast]
    _ ≤ 2 ^ (-1 + q) := zpow_le_zpow_right₀ one_le_two (by have := hd.min; omega)
    _ = 2 ^ (-1 : Int) * 2 ^ q := zpow_add₀ two_ne_zero _ _
    _ ≤ v := (le_div_iff₀ (by positivity)).1 hquotient

/-- **Reading a decimal gives the double that it is near to.** -/
theorem ofDecimal_eq {d : Nat} {e : Int} (hv : v = d * 10 ^ e) (hd : IsDouble n q)
    (hq : q ≤ maxExponent) (hnear : Near v n q) :
    ofDecimal d e = Float.ofModel (Float.Model.pack (.finite .positive n q hd.pos)) := by
  have hpos : d ≠ 0 := by
    rintro rfl
    have := hnear.pos hd
    simp [hv] at this
  -- the exponent is not cut short
  have hdigits : (1 : ℚ) ≤ d := by exact_mod_cast Nat.one_le_iff_ne_zero.2 hpos
  have hle : e ≤ 400 := by
    by_contra hlt
    have hpow : (10 : ℚ) ^ (400 : Int) ≤ 10 ^ e := zpow_le_zpow_right₀ (by norm_num) (by omega)
    have hval : (10 : ℚ) ^ e ≤ v := hv ▸ le_mul_of_one_le_left (by positivity) hdigits
    exact absurd (hnear.lt_ten_pow hd hq) (not_lt.2 (hpow.trans hval))
  have hge : -((d.log2 / 3 : Nat) + 400 : Int) ≤ e := by
    by_contra hlt
    have hd' : (d : ℚ) < 10 ^ (d.log2 / 3 + 1) := by
      refine lt_of_lt_of_le ?_ (two_pow_le_ten_pow _)
      have : d < 2 ^ (3 * (d.log2 / 3 + 1)) :=
        Nat.lt_of_lt_of_le Nat.lt_log2_self (Nat.pow_le_pow_right (by omega) (by omega))
      exact_mod_cast this
    have hval : v < (10 ^ 400)⁻¹ :=
      calc v = d * 10 ^ e := hv
        _ < 10 ^ (d.log2 / 3 + 1) * 10 ^ e := mul_lt_mul_of_pos_right hd' (by positivity)
        _ = 10 ^ ((d.log2 / 3 + 1 : Nat) + e) := by
            rw [zpow_add₀ (by norm_num), zpow_natCast]
        _ ≤ 10 ^ (-400 : Int) := zpow_le_zpow_right₀ (by norm_num) (by omega)
        _ = (10 ^ 400)⁻¹ := by rw [zpow_neg]; rfl
    exact absurd (hnear.ten_zpow_le hd) (not_le.2 hval)
  have hcut : max (-((d.log2 / 3 : Nat) + 400 : Int)) (min e 400) = e := by omega
  rw [ofDecimal, if_neg hpos]
  simp only [hcut]
  have hexp : scientificExponent (decide (e < 0)) e.natAbs = e := by
    simp only [scientificExponent, decide_eq_true_eq]
    split <;> omega
  refine ofScientific_eq ?_ ?_ ?_ hd hnear <;> rw [hexp]
  · exact hv
  · omega
  · omega

end BarScript.Number
