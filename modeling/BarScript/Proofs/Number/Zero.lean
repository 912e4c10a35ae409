import BarScript.Proofs.Number.Rounding

/-!
# Which results are zero

Nothing but zero is lost to zero by adding numbers that are not negative, by converting a whole
number, or by subtracting: `x - y` is zero only if `x` and `y` are equal (`beq_of_sub_beq_zero`),
since the exact difference of two doubles is a multiple of the least one.
-/

namespace BarScript.Number

open Float.Model Float.Model.UnpackedFloat

/-- A positive number, which may be infinite. -/
def Positive (x : Float) : Prop := Nonzero .positive x.toModel.unpack

/-- Positive zero, a positive number, or NaN. -/
def NotNegative (x : Float) : Prop := Signed .positive x.toModel.unpack

theorem Positive.notNegative {x : Float} (h : Positive x) : NotNegative x := .nonzero h

/-- A double compares as equal to zero if it is one of the two zeros. -/
theorem beq_zero_iff {x : Float} : (x == 0) = true ↔ ∃ s, x.toModel.unpack = .zero s := by
  change x.toModel.unpack.beq (.zero .positive) = true ↔ _
  rw [beq_iff_ne_notANumber_and_eq]
  constructor
  · rintro ⟨-, -, h | ⟨h, -⟩ | ⟨h, -⟩⟩ <;> exact ⟨_, h⟩
  · rintro ⟨s, h⟩
    rw [h]
    cases s <;> simp

theorem Positive.beq_zero {x : Float} (h : Positive x) : (x == 0) = false := by
  rw [← Bool.not_eq_true, beq_zero_iff]
  rintro ⟨s', hx⟩
  rw [Positive, hx] at h
  cases h

/-- A result that is not zero before it is packed is not zero afterwards. -/
theorem pack_beq_zero {u : UnpackedFloat} (h : (∃ s, Nonzero s u) ∨ u = .notANumber) :
    (Float.ofModel (Float.Model.pack u) == 0) = false := by
  rw [← Bool.not_eq_true, beq_zero_iff]
  rintro ⟨s', hx⟩
  rcases h with ⟨s, h⟩ | rfl
  · have hn := h.pack
    rw [hx] at hn
    cases hn
  · cases hx

theorem notNegative_zero : NotNegative 0 := by
  have hzero : (0 : Float).toModel.unpack = .zero .positive := rfl
  rw [NotNegative, hzero]
  exact .zero

/-! ### Signs -/

theorem lt_iff {x y : Float} : x < y ↔ UnpackedFloat.lt x.toModel.unpack y.toModel.unpack = true :=
  decide_eq_true_iff (p := x.toModel < y.toModel)

theorem le_iff {x y : Float} : x ≤ y ↔ UnpackedFloat.le x.toModel.unpack y.toModel.unpack = true :=
  decide_eq_true_iff (p := x.toModel ≤ y.toModel)

/-- What compares as greater than zero is positive. -/
theorem positive_of_lt {x : Float} (h : 0 < x) : Positive x := by
  have hlt : UnpackedFloat.lt (.zero .positive) x.toModel.unpack = true := lt_iff.1 h
  have hc := canonical_unpack x
  rw [Positive]
  generalize x.toModel.unpack = u at hlt hc
  cases u with
  | notANumber | zero => cases hlt
  | infinity s =>
    cases s with
    | positive => exact .infinity
    | negative => cases hlt
  | finite s m e h =>
    cases s with
    | positive => exact hc.nonzero
    | negative => cases hlt

/-- So is the opposite of what compares as less. -/
theorem positive_neg_of_lt {x : Float} (h : x < 0) : Positive (-x) := by
  have hlt : UnpackedFloat.lt x.toModel.unpack (.zero .positive) = true := lt_iff.1 h
  have hc := canonical_unpack x
  suffices hn : Nonzero .positive x.toModel.unpack.neg from hn.pack
  generalize x.toModel.unpack = u at hlt hc
  cases u with
  | notANumber | zero => cases hlt
  | infinity s =>
    cases s with
    | positive => cases hlt
    | negative => exact .infinity
  | finite s m e h =>
    cases s with
    | positive => cases hlt
    | negative => exact .finite h hc.1 hc.2.1

/-! ### Sums -/

theorem nonzero_add {u v : UnpackedFloat} (hu : Nonzero .positive u) (hv : Signed .positive v)
    (hn : v ≠ .notANumber) : Nonzero .positive (UnpackedFloat.add Format.binary64 u v) := by
  cases hv with
  | notANumber => exact absurd rfl hn
  | zero =>
    cases hu with
    | infinity => exact .infinity
    | finite h hm he => exact .finite h hm he
  | nonzero hv =>
    cases hu with
    | infinity => cases hv <;> exact .infinity
    | @finite m e h hm he =>
      cases hv with
      | infinity => exact .infinity
      | @finite m' e' h' hm' he' =>
        refine nonzero_normalize_of_pos _ ?_ (by omega)
        simp only [Sign.apply, Nat.shiftLeft_eq]
        have : 0 < m * 2 ^ (e - min e e').toNat := by positivity
        omega

theorem signed_add {u v : UnpackedFloat} (hu : Signed .positive u) (hv : Signed .positive v) :
    Signed .positive (UnpackedFloat.add Format.binary64 u v) := by
  by_cases hn : v = .notANumber
  · subst hn
    cases u <;> exact .notANumber
  · cases hu with
    | notANumber => exact .notANumber
    | zero =>
      cases hv with
      | notANumber => exact .notANumber
      | zero => exact .zero
      | nonzero hv => cases hv with
        | infinity => exact .nonzero .infinity
        | finite h hm he => exact .nonzero (.finite h hm he)
    | nonzero hu => exact .nonzero (nonzero_add hu hv hn)

theorem NotNegative.add {x y : Float} (hx : NotNegative x) (hy : NotNegative y) :
    NotNegative (x + y) := (signed_add hx hy).pack

/-- **A positive number and one that is not negative do not add up to zero.** -/
theorem Positive.add_beq_zero {x y : Float} (hx : Positive x) (hy : NotNegative y) :
    (x + y == 0) = false := by
  refine pack_beq_zero (u := UnpackedFloat.add Format.binary64 x.toModel.unpack y.toModel.unpack) ?_
  by_cases hn : y.toModel.unpack = .notANumber
  · right
    rw [hn]
    cases x.toModel.unpack <;> rfl
  · exact .inl ⟨.positive, nonzero_add hx hy hn⟩

/-! ### Quotients -/

theorem signed_div {u v : UnpackedFloat} (hu : Signed .positive u) (hv : Signed .positive v) :
    Signed .positive (UnpackedFloat.div Format.binary64 u v) := by
  cases hu with
  | notANumber => exact .notANumber
  | zero =>
    cases hv with
    | notANumber | zero => exact .notANumber
    | nonzero hv => cases hv <;> exact .zero
  | nonzero hu =>
    cases hu with
    | infinity =>
      cases hv with
      | notANumber => exact .notANumber
      | zero => exact .nonzero .infinity
      | nonzero hv => cases hv with
        | infinity => exact .notANumber
        | finite => exact .nonzero .infinity
    | finite =>
      cases hv with
      | notANumber => exact .notANumber
      | zero => exact .nonzero .infinity
      | nonzero hv => cases hv with
        | infinity => exact .zero
        | finite => exact signed_roundWithAccuracy _ _ _ _

theorem NotNegative.div {x y : Float} (hx : NotNegative x) (hy : NotNegative y) :
    NotNegative (x / y) := (signed_div hx hy).pack

/-! ### Whole numbers -/

theorem nonzero_mul {m m' : Nat} {e e' : Int} (h : 0 < m) (h' : 0 < m')
    (he : -1074 ≤ (m * m').log2 + (e + e')) : Nonzero .positive (UnpackedFloat.mul Format.binary64
      (.finite .positive m e h) (.finite .positive m' e' h')) :=
  nonzero_roundWithAccuracy _ .exact (Nat.mul_pos h h') he

/-- Multiplying with one, written with a significand of `k + 1` bits. -/
theorem nonzero_mul_one {u : UnpackedFloat} (hu : Nonzero .positive u) (k : Nat) :
    Nonzero .positive (UnpackedFloat.mul Format.binary64 u
      (.finite .positive (2 ^ k) (-k) (Nat.two_pow_pos k))) := by
  cases hu with
  | infinity => exact .infinity
  | @finite m e h hm he =>
    refine nonzero_mul h _ ?_
    rw [log2_mul_two_pow h]
    omega

theorem positive_toFloat {n : UInt64} (hn : 0 < n.toNat) : Positive n.toFloat := by
  have h : Nonzero .positive (UnpackedFloat.ofUInt64 Format.binary64 n) :=
    nonzero_normalize_of_pos .positive (by exact_mod_cast hn) (by decide)
  exact h.pack

/-- **The double of a positive number is positive.** -/
theorem positive_ofNat {n : Nat} (hn : 0 < n) : Positive (Float.ofNat n) := by
  have hofNat : Float.ofNat n = Float.ofScientific n false 0 := rfl
  rw [hofNat, Float.ofScientific]
  split
  · -- the number has 53 bits: it is converted and multiplied with one
    rename_i hlt
    have hone : (Float.exactlyRepresentablePowersOfTen[0]).toModel.unpack =
        .finite .positive (2 ^ 52) (-(52 : Nat)) (Nat.two_pow_pos 52) := rfl
    have hx : Positive n.toUInt64.toFloat := by
      refine positive_toFloat ?_
      rw [Nat.toUInt64, UInt64.toNat_ofNat']
      omega
    have hmul := nonzero_mul_one hx 52
    rw [← hone] at hmul
    exact hmul.pack
  · -- a greater number is rounded
    have hround : Nonzero .positive (UnpackedFloat.ofScientific Format.binary64 n 0) := by
      rw [UnpackedFloat.ofScientific, dif_neg (Nat.ne_of_gt hn), if_neg (by decide),
        if_neg (by simp), if_pos le_rfl]
      refine nonzero_mul _ _ ?_
      have hbits : (Format.binary64.mantissaBits : Int) = 53 := by decide
      omega
    exact hround.pack

theorem positive_ofInt {n : Int} (hn : 0 < n) : Positive (Float.ofInt n) := by
  obtain ⟨n, rfl⟩ := Int.eq_ofNat_of_zero_le (Int.le_of_lt hn)
  exact positive_ofNat (Int.ofNat_lt.1 hn)

/-! ### Differences -/

/-- Canonical numbers of equal value are the same. -/
theorem eq_of_shift_eq {m m' : Nat} {e e' : Int} (hm' : m' < 2 ^ 53)
    (he' : -1074 ≤ e') (hn : e ≠ -1074 → 2 ^ 52 ≤ m) (hle : e' ≤ e)
    (h : m * 2 ^ (e - e').toNat = m') : m = m' ∧ e = e' := by
  obtain heq | hlt := hle.eq_or_lt
  · subst heq
    simpa using h
  · -- a shifted significand would have more than 53 bits
    have hm := hn (by omega)
    have hpow : 2 ^ 1 ≤ 2 ^ (e - e').toNat := Nat.pow_le_pow_right (by decide) (by omega)
    have := Nat.mul_le_mul hm hpow
    omega

theorem sign_eq_of_sub_eq_zero {s s' : Sign} {a a' : Nat} (ha : 0 < a) (ha' : 0 < a')
    (h : s.apply a - s'.apply a' = 0) : s = s' ∧ a = a' := by
  cases s <;> cases s' <;> simp only [Sign.apply] at h
  · exact ⟨rfl, by omega⟩
  · omega
  · omega
  · exact ⟨rfl, by omega⟩

/-- The difference of two doubles is a number that is not zero, or NaN, or they are equal. -/
theorem sub_trichotomy {u v : UnpackedFloat} (hu : Canonical u) (hv : Canonical v) :
    (∃ s, Nonzero s (UnpackedFloat.sub Format.binary64 u v)) ∨
      UnpackedFloat.sub Format.binary64 u v = .notANumber ∨ u.beq v = true := by
  cases u with
  | notANumber => exact .inr (.inl rfl)
  | infinity s =>
    cases v with
    | notANumber => exact .inr (.inl rfl)
    | infinity s' =>
      simp only [UnpackedFloat.sub]
      split
      · exact .inl ⟨s, .infinity⟩
      · exact .inr (.inl rfl)
    | zero _ | finite _ _ _ _ => exact .inl ⟨s, .infinity⟩
  | zero s =>
    cases v with
    | notANumber => exact .inr (.inl rfl)
    | infinity s' => exact .inl ⟨-s', .infinity⟩
    | zero s' => exact .inr (.inr rfl)
    | finite s' m e h => exact .inl ⟨-s', .finite h hv.1 hv.2.1⟩
  | finite s m e h =>
    cases v with
    | notANumber => exact .inr (.inl rfl)
    | infinity s' => exact .inl ⟨-s', .infinity⟩
    | zero s' => exact .inl ⟨s, hu.nonzero⟩
    | finite s' m' e' h' =>
      obtain ⟨hm, he, hn⟩ := hu
      obtain ⟨hm', he', hn'⟩ := hv
      have hmin : -1074 ≤ min e e' := by omega
      have hshift : ∀ k, 0 < m * 2 ^ k ∧ 0 < m' * 2 ^ k := fun k => by constructor <;> positivity
      rcases lt_trichotomy (s.apply ((m <<< (e - min e e').toNat : Nat) : Int) -
        s'.apply ((m' <<< (e' - min e e').toNat : Nat) : Int)) 0 with hlt | heq | hgt
      · exact .inl ⟨.negative, nonzero_normalize_of_neg _ hlt hmin⟩
      · -- no difference: the significands are equal when shifted to one exponent
        obtain ⟨rfl, hval⟩ := sign_eq_of_sub_eq_zero (Nat.shiftLeft_eq _ _ ▸ (hshift _).1)
          (Nat.shiftLeft_eq _ _ ▸ (hshift _).2) heq
        rw [Nat.shiftLeft_eq, Nat.shiftLeft_eq] at hval
        obtain ⟨rfl, rfl⟩ : m = m' ∧ e = e' := by
          rcases le_total e' e with hle | hle
          · refine eq_of_shift_eq hm' he' hn hle ?_
            simpa [min_eq_right hle] using hval
          · have := eq_of_shift_eq hm he hn' hle (by simpa [min_eq_left hle] using hval.symm)
            exact ⟨this.1.symm, this.2.symm⟩
        exact .inr (.inr ((beq_iff_ne_notANumber_and_eq _ _).2 ⟨by simp, by simp, .inl rfl⟩))
      · exact .inl ⟨.positive, nonzero_normalize_of_pos _ hgt hmin⟩

/-- **A difference is zero only between equal numbers.** -/
theorem beq_of_sub_beq_zero {x y : Float} (h : (x - y == 0) = true) : (x == y) = true := by
  rcases sub_trichotomy (canonical_unpack x) (canonical_unpack y) with hn | hn | heq
  · exact absurd h (Bool.not_eq_true _ ▸ pack_beq_zero (.inl hn))
  · exact absurd h (Bool.not_eq_true _ ▸ pack_beq_zero (.inr hn))
  · exact heq

end BarScript.Number
