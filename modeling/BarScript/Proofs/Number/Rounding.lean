import Mathlib

/-!
# Rounding keeps signs and does not lose numbers

An exact result `± m · 2 ^ e` is rounded to a significand of 53 bits and an exponent of at least
-1074, and then packed.  The sign is that of the exact result (`signed_roundWithAccuracy`), and a
result of at least `2 ^ -1074` does not become zero (`nonzero_roundWithAccuracy`).  Packing keeps
both (`Nonzero.pack`, `Signed.pack`).
-/

namespace BarScript.Number

open Float.Model Float.Model.UnpackedFloat

/-- A number of a sign that is not zero, and that can be packed if it is finite. -/
inductive Nonzero (s : Sign) : UnpackedFloat → Prop
  | infinity : Nonzero s (.infinity s)
  | finite {m : Nat} {e : Int} (h : 0 < m) (hm : m < 2 ^ 53) (he : -1074 ≤ e) :
    Nonzero s (.finite s m e h)

/-- A number of a sign, zero being of its own one; NaN is of both. -/
inductive Signed (s : Sign) : UnpackedFloat → Prop
  | notANumber : Signed s .notANumber
  | zero : Signed s (.zero s)
  | nonzero {u : UnpackedFloat} (h : Nonzero s u) : Signed s u

/-! ### Shifting -/

@[simp] theorem mantissa_shiftRight (x : ExtendedMantissa) (k : Nat) :
    (x >>> k).mantissa = x.mantissa / 2 ^ k := by
  induction k with
  | zero => simp [HShiftRight.hShiftRight, Nat.repeat]
  | succ k ih =>
    have hstep : (x >>> (k + 1)).mantissa = (x >>> k).mantissa / 2 := rfl
    rw [hstep, ih, Nat.div_div_eq_div_mul, Nat.pow_succ]

@[simp] theorem mantissa_ofMantissaAndAccuracy (m : Nat) (a : Accuracy) :
    (ExtendedMantissa.ofMantissaAndAccuracy m a).mantissa = m := by
  cases a with
  | exact => rfl
  | inexact o => cases o <;> rfl

theorem le_roundedMantissa (x : ExtendedMantissa) : x.mantissa ≤ x.roundedMantissa := by
  obtain ⟨m, r, s⟩ := x
  cases r <;> cases s <;> simp [ExtendedMantissa.roundedMantissa, ExtendedMantissa.accuracy,
    Accuracy.roundToNearestEven]

/-- Shifting to the target exponent drops `k` bits: enough for 53 bits to be left and the exponent
to be at least -1074, and not all of them unless the number is less than `2 ^ -1074`. -/
theorem exists_shiftToTargetExponent (m : Nat) (e : Int) (a : Accuracy) :
    ∃ k : Nat, (shiftToTargetExponent Format.binary64 m e a).1.mantissa = m / 2 ^ k ∧
      (shiftToTargetExponent Format.binary64 m e a).2 = e + k ∧ -1074 ≤ e + k ∧
      m.log2 ≤ 52 + k ∧ (-1074 ≤ m.log2 + e → k ≤ m.log2) := by
  have ht : Format.binary64.targetExponent (totalExponent m e) =
      max ((m.log2 : Int) + 1 + e - 53) (-1074) := rfl
  refine ⟨(Format.binary64.targetExponent (totalExponent m e) - e).toNat, ?_, rfl, ?_⟩
  · simp [shiftToTargetExponent, shiftToExponent]
  · rw [ht]
    omega

theorem div_two_pow_lt {m k : Nat} (h : m.log2 ≤ 52 + k) : m / 2 ^ k < 2 ^ 53 := by
  have hm : m < 2 ^ (m.log2 + 1) := Nat.lt_log2_self
  have hle : 2 ^ (m.log2 + 1) ≤ 2 ^ (53 + k) := Nat.pow_le_pow_right (by omega) (by omega)
  rw [Nat.div_lt_iff_lt_mul (by positivity), ← Nat.pow_add]
  exact Nat.lt_of_lt_of_le hm hle

theorem div_two_pow_pos {m k : Nat} (hm : 0 < m) (h : k ≤ m.log2) : 0 < m / 2 ^ k := by
  have hle : 2 ^ k ≤ 2 ^ m.log2 := Nat.pow_le_pow_right (by omega) h
  exact Nat.div_pos (Nat.le_trans hle (Nat.log2_self_le (Nat.ne_of_gt hm))) (by positivity)

theorem log2_mul_two_pow {m : Nat} (hm : 0 < m) (k : Nat) : (m * 2 ^ k).log2 = m.log2 + k := by
  induction k with
  | zero => simp
  | succ k ih =>
    have hne : m * 2 ^ k ≠ 0 := Nat.ne_of_gt (by positivity)
    rw [Nat.pow_succ', Nat.mul_left_comm, Nat.log2_two_mul hne, ih, Nat.add_assoc]

/-! ### Rounding -/

/-- Rounding shifts twice, as the first result may need one bit more. -/
theorem exists_roundWithAccuracy (s : Sign) (m : Nat) (e : Int) (a : Accuracy) :
    ∃ m' e', m' < 2 ^ 53 ∧ -1074 ≤ e' ∧ (0 < m → -1074 ≤ m.log2 + e → 0 < m') ∧
      roundWithAccuracy Format.binary64 s m e a =
        if h : m' = 0 then .zero s else .finite s m' e' (Nat.pos_of_ne_zero h) := by
  obtain ⟨k, hx, he, hmin, -, hk⟩ := exists_shiftToTargetExponent m e a
  rcases hfirst : shiftToTargetExponent Format.binary64 m e a with ⟨x, e₁⟩
  simp only [hfirst] at hx he
  obtain ⟨l, hy, hf, hmin', hl, hl'⟩ := exists_shiftToTargetExponent x.roundedMantissa e₁ .exact
  rcases hsecond : shiftToTargetExponent Format.binary64 x.roundedMantissa e₁ .exact with ⟨y, e₂⟩
  simp only [hsecond] at hy hf
  refine ⟨y.mantissa, e₂, hy ▸ div_two_pow_lt hl, by omega, fun hm hle => ?_, ?_⟩
  · have hxpos : 0 < x.mantissa := hx ▸ div_two_pow_pos hm (hk hle)
    have hrpos : 0 < x.roundedMantissa := Nat.lt_of_lt_of_le hxpos (le_roundedMantissa x)
    exact hy ▸ div_two_pow_pos hrpos (hl' (by omega))
  · simp only [roundWithAccuracy, hfirst, hsecond]

/-- **Rounding keeps the sign.** -/
theorem signed_roundWithAccuracy (s : Sign) (m : Nat) (e : Int) (a : Accuracy) :
    Signed s (roundWithAccuracy Format.binary64 s m e a) := by
  obtain ⟨m', e', hm, he, -, h⟩ := exists_roundWithAccuracy s m e a
  rw [h]
  split
  · exact .zero
  · exact .nonzero (.finite _ hm he)

/-- **Rounding does not give zero** for a number of at least `2 ^ -1074`. -/
theorem nonzero_roundWithAccuracy (s : Sign) {m : Nat} {e : Int} (a : Accuracy) (hm : 0 < m)
    (he : -1074 ≤ m.log2 + e) : Nonzero s (roundWithAccuracy Format.binary64 s m e a) := by
  obtain ⟨m', e', hlt, hmin, hpos, h⟩ := exists_roundWithAccuracy s m e a
  rw [h, dif_neg (Nat.ne_of_gt (hpos hm he))]
  exact .finite _ hlt hmin

theorem nonzero_round (s : Sign) {m : Nat} {e : Int} (hm : 0 < m) (he : -1074 ≤ e) :
    Nonzero s (UnpackedFloat.round Format.binary64 s m e) := by
  refine nonzero_roundWithAccuracy s .exact ?_ ?_
  · simpa [Nat.shiftLeft_eq] using hm
  · rw [Nat.shiftLeft_eq, log2_mul_two_pow hm]
    omega

theorem nonzero_normalize_of_pos {m e : Int} (z : Sign) (hm : 0 < m) (he : -1074 ≤ e) :
    Nonzero .positive (UnpackedFloat.normalize Format.binary64 m e z) := by
  rw [UnpackedFloat.normalize, show compare m 0 = .gt from compare_gt_iff_gt.2 hm]
  exact nonzero_round _ (by omega) he

theorem nonzero_normalize_of_neg {m e : Int} (z : Sign) (hm : m < 0) (he : -1074 ≤ e) :
    Nonzero .negative (UnpackedFloat.normalize Format.binary64 m e z) := by
  rw [UnpackedFloat.normalize, show compare m 0 = .lt from compare_lt_iff_lt.2 hm]
  exact nonzero_round _ (by omega) he

/-! ### Packing -/

/-- What a double is after it has been packed. -/
theorem unpack_ofModel_pack (u : UnpackedFloat) :
    (Float.ofModel (Float.Model.pack u)).toModel.unpack =
      UnpackedFloat.unpack Format.binary64 (UnpackedFloat.pack Format.binary64 u) := rfl

/-- The significand of a normal number is its fraction behind a leading one. -/
theorem toNat_significand (m : BitVec 52) : (1#1 ++ m).toNat = 2 ^ 52 + m.toNat := by
  rw [BitVec.toNat_append, ← Nat.shiftLeft_add_eq_or_of_lt m.isLt]
  simp [Nat.shiftLeft_eq]

/-- Unpacking fields. -/
theorem unpack_packComponents (s : Sign) (e : BitVec 11) (m : BitVec 52) :
    UnpackedFloat.unpack Format.binary64 (packComponents Format.binary64 s e m) =
      if e = -1#11 then if m = 0#52 then .infinity s else .notANumber
      else if e = 0#11 then
        if h : m = 0#52 then .zero s
        else .finite s m.toNat (-1074) (by simpa [BitVec.toNat_pos, BitVec.pos_iff_ne_zero])
      else .finite s (1#1 ++ m).toNat (e.toNat - 1075) (by rw [toNat_significand]; omega) := by
  have hbias : ((Format.binary64.exponentBias : Int) + (52 : Nat)) = 1075 := by decide
  rw [UnpackedFloat.unpack]
  simp only [unpackExponent_packComponents, unpackMantissa_packComponents,
    unpackSign_packComponents, Sign.ofBitVec_toBitVec, hbias]
  by_cases he : e = 0#11
  · subst he
    rfl
  · rw [if_neg he, if_neg he]

/-- The exponents of finite doubles are not greater. -/
def maxExponent : Int := 971

theorem finite_congr {s : Sign} {m m' : Nat} {e e' : Int} {h : 0 < m} {h' : 0 < m'} (hm : m = m')
    (he : e = e') : UnpackedFloat.finite s m e h = .finite s m' e' h' := by
  subst hm he
  rfl

/-- The exponent with its bias. -/
theorem biased_eq (e : Int) : e + Format.binary64.exponentBias + (52 : Nat) = e + 1075 := by
  have : (Format.binary64.exponentBias : Int) = 1023 := by decide
  omega

/-- A number that is too large is packed as infinity. -/
theorem unpack_pack_of_lt {s : Sign} {m : Nat} {e : Int} {h : 0 < m} (he : maxExponent < e) :
    UnpackedFloat.unpack Format.binary64 (UnpackedFloat.pack Format.binary64 (.finite s m e h)) =
      .infinity s := by
  rw [maxExponent] at he
  unfold UnpackedFloat.pack
  simp only [biased_eq]
  rw [if_pos (by omega), packedInfinity, unpack_packComponents]
  rfl

/-- A number with fewer than 53 bits is packed with the least exponent. -/
theorem unpack_pack_of_le {s : Sign} {m : Nat} {e : Int} {h : 0 < m} (hm : m < 2 ^ 53)
    (hmin : -1074 ≤ e) (hmax : e ≤ maxExponent) :
    UnpackedFloat.unpack Format.binary64 (UnpackedFloat.pack Format.binary64 (.finite s m e h)) =
      .finite s m (if 2 ^ 52 ≤ m then e else -1074) h := by
  rw [maxExponent] at hmax
  have hfield : (BitVec.ofNat 11 (e + 1075).toNat).toNat = (e + 1075).toNat := by
    rw [BitVec.toNat_ofNat]
    omega
  have hlog : m.log2 + 1 = Format.binary64.mantissaBits ↔ 2 ^ 52 ≤ m := by
    have hbits : Format.binary64.mantissaBits = 53 := rfl
    have hlt : m.log2 < 53 := (Nat.log2_lt (Nat.ne_of_gt h)).2 hm
    rw [hbits, ← Nat.le_log2 (Nat.ne_of_gt h)]
    omega
  unfold UnpackedFloat.pack
  simp only [biased_eq]
  rw [if_neg (by omega)]
  by_cases hnormal : 2 ^ 52 ≤ m
  · -- a normal number: its exponent field is neither the least nor the greatest one
    have hne : BitVec.ofNat 11 (e + 1075).toNat ≠ -1#11 := fun heq => by
      rw [heq] at hfield
      simp at hfield
      omega
    have hne' : BitVec.ofNat 11 (e + 1075).toNat ≠ 0#11 := fun heq => by
      rw [heq] at hfield
      simp at hfield
      omega
    rw [if_pos (hlog.2 hnormal), if_pos hnormal, unpack_packComponents, if_neg hne, if_neg hne']
    refine finite_congr ?_ (by omega)
    rw [toNat_significand, BitVec.toNat_ofNat]
    omega
  · -- a subnormal number: its fraction field is its significand
    have hfraction : (BitVec.ofNat 52 m).toNat = m := by
      rw [BitVec.toNat_ofNat]
      omega
    have hne : BitVec.ofNat 52 m ≠ 0#52 := fun heq => by
      rw [heq] at hfraction
      exact Nat.ne_of_lt h hfraction
    rw [if_neg (mt hlog.1 hnormal), if_neg hnormal, unpack_packComponents, if_neg (by decide),
      if_pos rfl, dif_neg hne]
    exact finite_congr hfraction rfl

theorem Nonzero.pack {s : Sign} {u : UnpackedFloat} (h : Nonzero s u) :
    Nonzero s (Float.ofModel (Float.Model.pack u)).toModel.unpack := by
  rw [unpack_ofModel_pack]
  cases h with
  | infinity =>
    rw [UnpackedFloat.pack, packedInfinity, unpack_packComponents]
    exact .infinity
  | @finite m e h hm he =>
    by_cases hmax : e ≤ maxExponent
    · rw [unpack_pack_of_le hm he hmax]
      exact .finite h hm (by split <;> omega)
    · rw [unpack_pack_of_lt (Int.not_le.1 hmax)]
      exact .infinity

theorem Signed.pack {s : Sign} {u : UnpackedFloat} (h : Signed s u) :
    Signed s (Float.ofModel (Float.Model.pack u)).toModel.unpack := by
  cases h with
  | notANumber =>
    rw [unpack_ofModel_pack, UnpackedFloat.pack, unpack_packedNaN]
    exact .notANumber
  | zero =>
    rw [unpack_ofModel_pack, UnpackedFloat.pack, unpack_packedZero]
    exact .zero
  | nonzero h => exact .nonzero h.pack

/-- A double has three fields. -/
theorem exists_fields (x : Float) : ∃ (s : Sign) (e : BitVec 11) (m : BitVec 52),
    x.toModel.unpack =
      UnpackedFloat.unpack Format.binary64 (packComponents Format.binary64 s e m) := by
  have h := packComponents_unpackSign_unpackExponent_unpackMantissa
    (show BitVec Format.binary64.numBits from x.toModel.toBits.toBitVec)
  exact ⟨_, _, _, congrArg (UnpackedFloat.unpack Format.binary64) h.symm⟩

/-- The finite numbers that are not zero have a significand of 53 bits, or the least exponent and at
most 52 bits. -/
def Canonical : UnpackedFloat → Prop
  | .finite _ m e _ => m < 2 ^ 53 ∧ -1074 ≤ e ∧ (e ≠ -1074 → 2 ^ 52 ≤ m)
  | _ => True

theorem canonical_unpack (x : Float) : Canonical x.toModel.unpack := by
  obtain ⟨s, e, m, heq⟩ := exists_fields x
  rw [heq, unpack_packComponents]
  have hlt := m.isLt
  split
  · split <;> trivial
  · split
    · split
      · trivial
      · exact ⟨by omega, by omega, fun h => absurd rfl h⟩
    · -- a normal number has its leading one
      rename_i hne
      have hpos : e.toNat ≠ 0 := fun h₀ => hne (BitVec.eq_of_toNat_eq h₀)
      rw [Canonical, toNat_significand]
      exact ⟨by omega, by omega, fun _ => by omega⟩

/-- A number that is finite and not zero is one of its sign. -/
theorem Canonical.nonzero {s : Sign} {m : Nat} {e : Int} {h : 0 < m}
    (hc : Canonical (.finite s m e h)) : Nonzero s (.finite s m e h) :=
  .finite h hc.1 hc.2.1

end BarScript.Number
