import BarScript.Proofs.Number.Literal
import BarScript.Scalar

/-!
# Whole numbers that are not too large

A whole number is near to a double that is whole (`exists_near`), which it is converted to.  Up to
the greatest double this is a finite one (`ofInt_eq_ok`).  The whole part of a positive double that
is whole is not above the greatest double (`IsPositive.exists_truncate`).
-/

namespace BarScript.Number

open Float.Model Float.Model.UnpackedFloat

/-- The greatest significand. -/
def greatestSignificand : Nat := 2 ^ 53 - 1

/-- The greatest double. -/
def greatest : Nat := greatestSignificand * 2 ^ maxExponent.toNat

theorem greatest_eq : (greatest : ℚ) = greatestSignificand * 2 ^ maxExponent := by
  rw [greatest, Nat.cast_mul, Nat.cast_pow, ← zpow_natCast]
  rfl

/-- A whole number is nearest, an even one of two. -/
theorem exists_nearest {y : ℚ} (hy : 0 ≤ y) : ∃ n : Nat, (n : ℚ) - 1 / 2 ≤ y ∧ y ≤ n + 1 / 2 ∧
    (y = n - 1 / 2 ∨ y = n + 1 / 2 → n % 2 = 0) := by
  have hlow : (⌊y⌋₊ : ℚ) ≤ y := Nat.floor_le hy
  have hhigh : y < ⌊y⌋₊ + 1 := Nat.lt_floor_add_one y
  generalize ⌊y⌋₊ = a at hlow hhigh
  rcases lt_trichotomy y (a + 1 / 2) with h | h | h
  · exact ⟨a, by linarith, by linarith, by rintro (h' | h') <;> linarith⟩
  · -- a tie
    rcases Nat.mod_two_eq_zero_or_one a with heven | hodd
    · exact ⟨a, by linarith, by linarith, fun _ => heven⟩
    · refine ⟨a + 1, ?_, ?_, fun _ => by omega⟩ <;> push_cast <;> linarith
  · refine ⟨a + 1, ?_, ?_, ?_⟩
    · push_cast
      linarith
    · push_cast
      linarith
    · push_cast
      rintro (h' | h') <;> linarith

/-- A double that is no fraction is whole. -/
theorem isWhole_of_nonneg {v : Exact} (h : 0 ≤ v.exponent) : v.isWhole = true := by
  have hzero : (-v.exponent).toNat = 0 := by omega
  rw [Exact.isWhole, hzero, show Nat.pow 2 0 = 1 from rfl, Nat.mod_one]
  rfl

/-- **Near to a whole number there is a double that is whole**, and a finite one if the number is
not too large. -/
theorem exists_near {w : Nat} (hpos : 0 < w) : ∃ n q, IsDouble n q ∧ Near w n q ∧
    (Exact.mk false n q).isWhole = true ∧ (w ≤ greatest → q ≤ maxExponent) := by
  by_cases hlt : w < 2 ^ 53
  · obtain ⟨k, -, -, hd, hvalue⟩ := exists_isDouble hpos hlt
    refine ⟨_, _, hd, hvalue ▸ near_self _ _, ?_, fun _ => by rw [maxExponent]; omega⟩
    simp [Exact.isWhole]
  · -- all but 53 bits are rounded
    have hne : w ≠ 0 := hpos.ne'
    have hlog : 53 ≤ w.log2 := (Nat.le_log2 hne).2 (not_lt.1 hlt)
    obtain ⟨k, hk⟩ : ∃ k, w.log2 = 52 + k := ⟨w.log2 - 52, by omega⟩
    have hpow : (0 : ℚ) < 2 ^ (k : Int) := by positivity
    have hlow : (2 : ℚ) ^ 52 ≤ w / 2 ^ (k : Int) := by
      have : 2 ^ (52 + k) ≤ w := hk ▸ Nat.log2_self_le hne
      rw [le_div_iff₀ hpow, zpow_natCast, ← pow_add]
      exact_mod_cast this
    have hhigh : (w : ℚ) / 2 ^ (k : Int) < 2 ^ 53 := by
      have : w < 2 ^ (52 + k + 1) := hk ▸ Nat.lt_log2_self
      rw [div_lt_iff₀ hpow, zpow_natCast, ← pow_add, show 53 + k = 52 + k + 1 by omega]
      exact_mod_cast this
    obtain ⟨n, hn, hn', heven⟩ := exists_nearest (le_trans (by positivity) hlow)
    have hlown : 2 ^ 52 ≤ n := by
      have : ((2 ^ 52 : Nat) : ℚ) < n + 1 := by push_cast; linarith
      exact Nat.lt_succ_iff.1 (by exact_mod_cast this)
    have hmax : w ≤ greatest → (k : Int) ≤ maxExponent := by
      intro hle
      have hpow : greatest < 2 ^ 1024 := by decide +kernel
      have := (Nat.log2_lt hne).2 (hle.trans_lt hpow)
      rw [maxExponent]
      omega
    by_cases hn53 : n < 2 ^ 53
    · refine ⟨n, k, ⟨by omega, hn53, by omega, fun _ => hlown⟩, ⟨?_, hn', heven⟩,
        isWhole_of_nonneg (Int.natCast_nonneg k), hmax⟩
      split
      · rename_i hnarrow
        have : (n : ℚ) = 2 ^ 52 := by exact_mod_cast hnarrow.1
        linarith
      · exact hn
    · -- the next power of two
      have hpow53 : (2 : ℚ) ^ 53 ≤ n := by exact_mod_cast not_lt.1 hn53
      have hnext : w ≤ greatest → (k : Int) + 1 ≤ maxExponent := by
        intro hle
        refine Int.add_one_le_iff.2 (lt_of_le_of_ne (hmax hle) fun h => ?_)
        have hbound : (w : ℚ) / 2 ^ (k : Int) ≤ greatestSignificand := by
          rw [h, div_le_iff₀ (by positivity), ← greatest_eq]
          exact_mod_cast hle
        have hsignificand : ((greatestSignificand : Nat) : ℚ) = 2 ^ 53 - 1 := by
          norm_num [greatestSignificand]
        linarith
      have hhalf : (w : ℚ) / 2 ^ ((k : Int) + 1) = w / 2 ^ (k : Int) / 2 := by
        rw [zpow_add_one₀ two_ne_zero, div_div]
      refine ⟨2 ^ 52, (k : Int) + 1, ⟨by positivity, by norm_num, by omega, fun _ => le_rfl⟩,
        ⟨?_, ?_, fun _ => by norm_num⟩, isWhole_of_nonneg (Int.natCast_nonneg (k + 1)), hnext⟩
      · rw [if_pos ⟨rfl, by omega⟩, hhalf]
        push_cast
        linarith
      · rw [hhalf]
        push_cast
        linarith

/-- **A whole number is converted to a double that is whole**, or it is too large. -/
theorem exists_unpack_ofNat {w : Nat} (hpos : 0 < w) :
    (Float.ofNat w).toModel.unpack = .infinity .positive ∧ greatest < w ∨
      ∃ n q h, (Float.ofNat w).toModel.unpack = .finite .positive n q h ∧
        (Exact.mk false n q).isWhole = true := by
  obtain ⟨n, q, hd, hnear, hwhole, hmax⟩ := exists_near hpos
  have hvalue : (w : ℚ) = w * 10 ^ scientificExponent false 0 := by
    simp [scientificExponent]
  have hofNat : Float.ofNat w = Float.ofScientific w false 0 := rfl
  have hunpack : (Float.ofNat w).toModel.unpack = UnpackedFloat.unpack Format.binary64
      (UnpackedFloat.pack Format.binary64 (.finite .positive n q hd.pos)) := by
    rw [hofNat, ofScientific_eq hvalue (by decide) (by simp [scientificExponent]) hd hnear]
    rfl
  by_cases hq : q ≤ maxExponent
  · exact .inr ⟨n, q, hd.pos, hunpack.trans (unpack_pack_finite hd hq), hwhole⟩
  · have hlt : maxExponent < q := not_le.1 hq
    exact .inl ⟨hunpack.trans (unpack_pack_of_lt hlt), not_le.1 fun hle => hq (hmax hle)⟩

theorem isWhole_ofNat {w : Nat} (hx : IsPositive (Float.ofNat w)) :
    isWhole (Float.ofNat w) = true := by
  obtain ⟨v, hk, -, hm⟩ := hx
  rw [isWhole]
  rw [kindOf_eq] at hk ⊢
  rcases Nat.eq_zero_or_pos w with rfl | hpos
  · have hzero : (Float.ofNat 0).toModel.unpack = .zero .positive := rfl
    rw [hzero] at hk
    cases hk
    exact absurd hm (lt_irrefl 0)
  · rcases exists_unpack_ofNat hpos with ⟨hu, -⟩ | ⟨n, q, h, hu, hwhole⟩
    · rw [hu] at hk
      cases hk
    · rw [hu]
      exact hwhole

/-- **A whole number up to the greatest double is converted to a finite double.** -/
theorem isInf_ofNat {w : Nat} (hle : w ≤ greatest) : (Float.ofNat w).isInf = false := by
  rcases Nat.eq_zero_or_pos w with rfl | hpos
  · rfl
  · change (Float.ofNat w).toModel.unpack.isInf = false
    rcases exists_unpack_ofNat hpos with ⟨-, hlt⟩ | ⟨n, q, h, hu, -⟩
    · exact absurd hle (not_le.2 hlt)
    · rw [hu]
      rfl

theorem isWhole_ofInt {n : Int} (hn : 0 ≤ n) (hx : IsPositive (Float.ofInt n)) :
    isWhole (Float.ofInt n) = true := by
  obtain ⟨w, rfl⟩ := Int.eq_ofNat_of_zero_le hn
  exact isWhole_ofNat hx

theorem ofInt_eq_ok {n : Int} (hpos : 0 ≤ n) (hle : n ≤ greatest) :
    (Scalar.ofInt n : Except Fault Float) = .ok (Float.ofInt n) := by
  obtain ⟨w, rfl⟩ := Int.eq_ofNat_of_zero_le hpos
  have hfinite : (Float.ofInt w).isInf = false := isInf_ofNat (by exact_mod_cast hle)
  have hsome : ofInt? w = some (Float.ofInt w) := if_neg (by rw [hfinite]; decide)
  simp only [Scalar.ofInt, hsome]
  rfl

/-- **The whole part of a positive double that is whole** is above zero and not too large. -/
theorem IsPositive.exists_truncate {x : Float} (hx : IsPositive x) (hwhole : isWhole x = true) :
    ∃ n : Int, truncate x = .ok n ∧ 0 < n ∧ n ≤ greatest := by
  obtain ⟨v, hk, hsign, hm⟩ := hx
  obtain ⟨hd, hexp⟩ := isDouble_of_kindOf hk hm
  rw [isWhole, hk] at hwhole
  obtain ⟨hnonneg, hvalue⟩ := truncate_of_isWhole hsign hwhole
  refine ⟨v.truncate, by rw [truncate, onExact, hk], ?_, ?_⟩
  · have hpos : (0 : ℚ) < v.truncate.natAbs := by
      have : (0 : ℚ) < v.mantissa := by exact_mod_cast hm
      rw [hvalue]
      positivity
    have : 0 < v.truncate.natAbs := by exact_mod_cast hpos
    omega
  · have hle : (v.truncate.natAbs : ℚ) ≤ greatest := by
      have hmantissa : (v.mantissa : ℚ) ≤ greatestSignificand := by
        exact_mod_cast Nat.le_sub_one_of_lt hd.lt
      rw [hvalue, greatest_eq]
      exact mul_le_mul hmantissa (zpow_le_zpow_right₀ one_le_two hexp) (by positivity)
        (by positivity)
    have : v.truncate.natAbs ≤ greatest := by exact_mod_cast hle
    omega

end BarScript.Number
