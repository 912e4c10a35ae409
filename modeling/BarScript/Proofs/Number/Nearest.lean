import BarScript.Proofs.Number.Rounding

/-!
# Rounding gives the nearest double

A double `m · 2 ^ q` is the result of rounding whatever lies near it: not further away than half of
its last place, below a power of two not further than a quarter, and if it is odd not at the ends of
that interval (`Near`).  A significand with the two bits behind it says where an exact result lies
between two neighbouring integers (`Describes`), and shifting keeps what it says.  Rounding then
gives the double that the exact result is near to (`roundWithAccuracy_eq`).
-/

namespace BarScript.Number

open Float.Model Float.Model.UnpackedFloat

/-! ### Between two integers -/

/-- What a significand and the two bits behind it say of a number. -/
def Describes : ExtendedMantissa → ℚ → Prop
  | ⟨m, false, false⟩, y => y = m
  | ⟨m, false, true⟩, y => m < y ∧ y < m + 1 / 2
  | ⟨m, true, false⟩, y => y = m + 1 / 2
  | ⟨m, true, true⟩, y => m + 1 / 2 < y ∧ y < m + 1

theorem describes_exact (m : Nat) : Describes (.ofMantissaAndAccuracy m .exact) m := rfl

/-- A whole part and a fraction. -/
theorem describes_fraction (m : Nat) {num den : Nat} (h : num < den) :
    Describes (.ofMantissaAndAccuracy m (accuracyOfFraction num den)) (m + num / den) := by
  have hden : (0 : ℚ) < den := by exact_mod_cast Nat.zero_lt_of_lt h
  rw [accuracyOfFraction]
  split
  · rename_i hz
    simp [Describes, ExtendedMantissa.ofMantissaAndAccuracy, hz]
  · rename_i hne
    have hpos : (0 : ℚ) < num / den := div_pos (by exact_mod_cast Nat.pos_of_ne_zero hne) hden
    have hlt : (num : ℚ) / den < 1 := (div_lt_one hden).2 (by exact_mod_cast h)
    have hhalf : (num : ℚ) / den < 1 / 2 ↔ 2 * num < den := by
      rw [div_lt_div_iff₀ hden two_pos, one_mul, mul_comm]
      exact_mod_cast Iff.rfl
    have hhalf' : 1 / 2 < (num : ℚ) / den ↔ den < 2 * num := by
      rw [div_lt_div_iff₀ two_pos hden, one_mul, mul_comm]
      exact_mod_cast Iff.rfl
    rcases hc : compare (2 * num) den with _ | _ | _
    · have := hhalf.2 (compare_lt_iff_lt.1 hc)
      exact ⟨by linarith, by linarith⟩
    · have heq : 2 * num = den := compare_eq_iff_eq.1 hc
      have h₁ := mt hhalf.1 (by omega)
      have h₂ := mt hhalf'.1 (by omega)
      change (m : ℚ) + num / den = m + 1 / 2
      linarith
    · have := hhalf'.2 (compare_gt_iff_gt.1 hc)
      exact ⟨by linarith, by linarith⟩

namespace Describes

variable {x : ExtendedMantissa} {y : ℚ}

theorem le (h : Describes x y) : (x.mantissa : ℚ) ≤ y := by
  obtain ⟨m, r, s⟩ := x
  cases r <;> cases s <;> simp only [Describes] at h ⊢ <;> linarith

theorem lt (h : Describes x y) : y < x.mantissa + 1 := by
  obtain ⟨m, r, s⟩ := x
  cases r <;> cases s <;> simp only [Describes] at h ⊢ <;> linarith

theorem shiftRightOne (h : Describes x y) : Describes x.shiftRightOne (y / 2) := by
  obtain ⟨m, r, s⟩ := x
  obtain ⟨n, rfl | rfl⟩ : ∃ n, m = 2 * n ∨ m = 2 * n + 1 := ⟨m / 2, by omega⟩
  -- the last bit of the significand becomes the first bit behind it
  · have hdiv : 2 * n / 2 = n := by omega
    have hmod : 2 * n % 2 = 0 := by omega
    cases r <;> cases s <;>
      simp only [Describes, ExtendedMantissa.shiftRightOne, hdiv, hmod, bne_self_eq_false,
        Bool.or_self, Bool.or_true, Bool.true_or] at h ⊢ <;>
      push_cast at h <;> first | linarith | exact ⟨by linarith, by linarith⟩
  · have hdiv : (2 * n + 1) / 2 = n := by omega
    have hmod : (2 * n + 1) % 2 = 1 := by omega
    have hbit : ((1 : Nat) != 0) = true := rfl
    cases r <;> cases s <;>
      simp only [Describes, ExtendedMantissa.shiftRightOne, hdiv, hmod, hbit,
        Bool.or_self, Bool.or_true, Bool.true_or] at h ⊢ <;>
      push_cast at h <;> first | linarith | exact ⟨by linarith, by linarith⟩

theorem shiftRight (h : Describes x y) (k : Nat) : Describes (x >>> k) (y / 2 ^ k) := by
  induction k with
  | zero => rwa [pow_zero, div_one]
  | succ k ih =>
    rw [pow_succ, ← div_div]
    exact ih.shiftRightOne

/-- **Rounding to the nearest integer**, a tie going to the even one. -/
theorem roundedMantissa_eq (h : Describes x y) {n : Nat} (hlow : (n : ℚ) - 1 / 2 ≤ y)
    (hhigh : y ≤ n + 1 / 2) (heven : y = n - 1 / 2 ∨ y = n + 1 / 2 → n % 2 = 0) :
    x.roundedMantissa = n := by
  obtain ⟨m, r, s⟩ := x
  have hle : ∀ {a b : Nat}, (a : ℚ) < b + 1 → a ≤ b :=
    fun h => Nat.lt_succ_iff.1 (by exact_mod_cast h)
  cases r <;> cases s <;> simp only [Describes] at h
  · have h₁ : n ≤ m := hle (by linarith)
    have h₂ : m ≤ n := hle (by linarith)
    exact Nat.le_antisymm h₂ h₁
  · have h₁ : n ≤ m := hle (by linarith)
    have h₂ : m ≤ n := hle (by linarith)
    exact Nat.le_antisymm h₂ h₁
  · -- a tie
    change m + m % 2 = n
    have h₁ : n ≤ m + 1 := hle (by push_cast; linarith)
    have h₂ : m ≤ n := hle (by linarith)
    obtain rfl | rfl : n = m ∨ n = m + 1 := by omega
    · have := heven (.inr h)
      omega
    · have := heven (.inl (by push_cast; linarith))
      omega
  · change m + 1 = n
    have h₁ : n ≤ m + 1 := hle (by push_cast; linarith)
    have h₂ : m + 1 ≤ n := hle (by push_cast; linarith)
    exact Nat.le_antisymm h₂ h₁

end Describes

/-! ### The double that is near -/

/-- A significand and an exponent of a double that is not zero. -/
structure IsDouble (m : Nat) (q : Int) : Prop where
  pos : 0 < m
  lt : m < 2 ^ 53
  min : -1074 ≤ q
  normal : q ≠ -1074 → 2 ^ 52 ≤ m

/-- A power of two whose predecessor is only half a last place away. -/
def IsNarrow (m : Nat) (q : Int) : Prop := m = 2 ^ 52 ∧ q ≠ -1074

instance (m : Nat) (q : Int) : Decidable (IsNarrow m q) := inferInstanceAs (Decidable (_ ∧ _))

/-- The number is near to the double `m · 2 ^ q`, which it is rounded to. -/
structure Near (v : ℚ) (m : Nat) (q : Int) : Prop where
  lower : (m : ℚ) - (if IsNarrow m q then 1 / 4 else 1 / 2) ≤ v / 2 ^ q
  upper : v / 2 ^ q ≤ m + 1 / 2
  /-- The ends of the interval belong to an even significand. -/
  even : v / 2 ^ q = m - 1 / 2 ∨ v / 2 ^ q = m + 1 / 2 → m % 2 = 0

theorem shiftToTargetExponent_eq (m : Nat) (e : Int) (a : Accuracy) :
    shiftToTargetExponent Format.binary64 m e a =
      (ExtendedMantissa.ofMantissaAndAccuracy m a >>>
        (max ((m.log2 : Int) + 1 + e - 53) (-1074) - e).toNat,
        e + (max ((m.log2 : Int) + 1 + e - 53) (-1074) - e).toNat) := rfl

theorem log2_le_of_lt {m k : Nat} (h : m < 2 ^ (k + 1)) : m.log2 ≤ k := by
  rcases Nat.eq_zero_or_pos m with rfl | hm
  · simp
  · exact Nat.lt_succ_iff.1 ((Nat.log2_lt (Nat.ne_of_gt hm)).2 h)

/-- After rounding, the significand is shifted once more if it has got a bit too many. -/
theorem roundWithAccuracy_of_rounded {s : Sign} {m : Nat} {e : Int} {a : Accuracy}
    {x : ExtendedMantissa} {t : Int}
    (hshift : shiftToTargetExponent Format.binary64 m e a = (x, t)) (ht : -1074 ≤ t)
    {n : Nat} {q : Int} (hn : 0 < n) (h : x.roundedMantissa = n ∧ n < 2 ^ 53 ∧ t = q ∨
      x.roundedMantissa = 2 ^ 53 ∧ n = 2 ^ 52 ∧ t + 1 = q) :
    roundWithAccuracy Format.binary64 s m e a = .finite s n q hn := by
  have hsecond : (shiftToTargetExponent Format.binary64 x.roundedMantissa t .exact).1.mantissa = n ∧
      (shiftToTargetExponent Format.binary64 x.roundedMantissa t .exact).2 = q := by
    rw [shiftToTargetExponent_eq]
    simp only [mantissa_shiftRight, mantissa_ofMantissaAndAccuracy]
    obtain ⟨hr, hlt, rfl⟩ | ⟨hr, rfl, rfl⟩ := h
    · have hlog : n.log2 ≤ 52 := log2_le_of_lt hlt
      have hshift : (max ((n.log2 : Int) + 1 + t - 53) (-1074) - t).toNat = 0 := by omega
      rw [hr, hshift]
      simp
    · have hlog : (2 ^ 53).log2 = 53 := Nat.log2_two_pow
      have hshift : (max (((53 : Nat) : Int) + 1 + t - 53) (-1074) - t).toNat = 1 := by omega
      rw [hr, hlog, hshift]
      exact ⟨by norm_num, rfl⟩
  obtain ⟨hm, hq⟩ := hsecond
  rcases hy : shiftToTargetExponent Format.binary64 x.roundedMantissa t .exact with ⟨y, u⟩
  simp only [hy] at hm hq
  subst hm hq
  simp only [roundWithAccuracy, hshift, hy]
  rw [dif_neg (Nat.ne_of_gt hn)]

theorem div_two_zpow (v : ℚ) {t q : Int} (k : Nat) (h : q = t + k) :
    v / 2 ^ t = v / 2 ^ q * 2 ^ k := by
  subst h
  rw [zpow_add₀ two_ne_zero, zpow_natCast]
  field_simp

theorem Near.half {v : ℚ} {m : Nat} {q : Int} (h : Near v m q) : (m : ℚ) - 1 / 2 ≤ v / 2 ^ q := by
  have := h.lower
  split at this <;> linarith

/-- Where an exact result lies after the shift to its target exponent `t`: it has at most 53 bits,
and as many if the exponent is not the least one. -/
theorem exists_describes {m : Nat} {e : Int} {a : Accuracy} {v : ℚ}
    (hv : Describes (.ofMantissaAndAccuracy m a) (v / 2 ^ e))
    (hbits : 52 ≤ m.log2 ∨ e ≤ -1074) :
    ∃ x t, shiftToTargetExponent Format.binary64 m e a = (x, t) ∧ Describes x (v / 2 ^ t) ∧
      -1074 ≤ t ∧ v / 2 ^ t < 2 ^ 53 ∧ (t ≠ -1074 → 2 ^ 52 ≤ v / 2 ^ t) := by
  obtain ⟨k, hk⟩ : ∃ k : Nat, (k : Int) = max ((m.log2 : Int) + 1 + e - 53) (-1074) - e :=
    ⟨_, Int.toNat_of_nonneg (by omega)⟩
  have hx : Describes (ExtendedMantissa.ofMantissaAndAccuracy m a >>> k) (v / 2 ^ (e + k)) := by
    have h := hv.shiftRight k
    rwa [div_two_zpow v k rfl, mul_div_assoc, div_self (by positivity), mul_one] at h
  have hmantissa :
      (ExtendedMantissa.ofMantissaAndAccuracy m a >>> k).mantissa = m / 2 ^ k := by simp
  refine ⟨_, _, ?_, hx, by omega, ?_, fun ht => ?_⟩
  · rw [shiftToTargetExponent_eq, ← hk, Int.toNat_natCast]
  · have hlt : m / 2 ^ k + 1 ≤ 2 ^ 53 := div_two_pow_lt (by omega)
    have hy := hx.lt
    rw [hmantissa] at hy
    exact lt_of_lt_of_le hy (by exact_mod_cast hlt)
  · have hm : 2 ^ (52 + k) ≤ m := by
      have hlog : m.log2 = 52 + k := by omega
      exact hlog ▸ Nat.log2_self_le fun h₀ => by
        subst h₀
        have : (0 : Nat).log2 = 0 := rfl
        omega
    have hle : 2 ^ 52 ≤ m / 2 ^ k := by
      rw [Nat.le_div_iff_mul_le (by positivity), ← Nat.pow_add]
      exact hm
    have hy := hx.le
    rw [hmantissa] at hy
    exact le_trans (by exact_mod_cast hle) hy

/-- **Rounding gives the double that is near.**  There have to be enough bits to begin with. -/
theorem roundWithAccuracy_eq {s : Sign} {m : Nat} {e : Int} {a : Accuracy} {v : ℚ}
    (hv : Describes (.ofMantissaAndAccuracy m a) (v / 2 ^ e)) (hbits : 52 ≤ m.log2 ∨ e ≤ -1074)
    {n : Nat} {q : Int} (hd : IsDouble n q) (hnear : Near v n q) :
    roundWithAccuracy Format.binary64 s m e a = .finite s n q hd.pos := by
  obtain ⟨x, t, hshift, hx, hmin, hlt, hnormal⟩ := exists_describes hv hbits
  refine roundWithAccuracy_of_rounded hshift hmin hd.pos ?_
  have hn : (n : ℚ) + 1 ≤ 2 ^ 53 := by exact_mod_cast hd.lt
  rcases lt_trichotomy t q with h | rfl | h
  · -- the result is just below the power of two that it is rounded to
    obtain ⟨k, rfl⟩ : ∃ k : Nat, q = t + (k + 1 : Nat) := ⟨(q - t).toNat - 1, by omega⟩
    rw [div_two_zpow v (k + 1) rfl] at hx hlt
    have hnorm : 2 ^ 52 ≤ n := hd.normal (by omega)
    have hnorm' : (2 : ℚ) ^ 52 ≤ n := by exact_mod_cast hnorm
    have hhalf := hnear.half
    have hlow := hnear.lower
    generalize v / 2 ^ (t + ((k + 1 : Nat) : Int)) = z at hx hlt hhalf hlow
    have hz : 0 ≤ z := by linarith
    have hpow : (1 : ℚ) ≤ 2 ^ k := one_le_pow₀ one_le_two
    rw [pow_succ] at hlt
    have hz' : z < 2 ^ 52 := by nlinarith
    have heq : n = 2 ^ 52 := by
      have : (n : ℚ) < (2 ^ 52 : Nat) + 1 := by push_cast; linarith
      exact Nat.le_antisymm (Nat.lt_succ_iff.1 (by exact_mod_cast this)) hnorm
    rw [if_pos ⟨heq, by omega⟩, heq] at hlow
    push_cast at hlow
    have hk : k = 0 := by
      by_contra hk
      have : (2 : ℚ) ≤ 2 ^ k := by
        simpa using pow_le_pow_right₀ (one_le_two : (1 : ℚ) ≤ 2) (Nat.one_le_iff_ne_zero.2 hk)
      nlinarith
    subst hk
    rw [zero_add, pow_one] at hx
    refine .inr ⟨hx.roundedMantissa_eq ?_ ?_ fun _ => by norm_num, heq, by simp⟩
    · push_cast
      linarith
    · push_cast
      linarith
  · exact .inl ⟨hx.roundedMantissa_eq hnear.half hnear.upper hnear.even, hd.lt, rfl⟩
  · -- the result would have too many bits
    obtain ⟨k, rfl⟩ : ∃ k : Nat, t = q + (k + 1 : Nat) := ⟨(t - q).toNat - 1, by omega⟩
    have hlow := hnormal (by have := hd.min; omega)
    have hupper := hnear.upper
    rw [div_two_zpow v (k + 1) rfl, pow_succ] at hupper
    have hpow : (1 : ℚ) ≤ 2 ^ k := one_le_pow₀ one_le_two
    nlinarith

end BarScript.Number
