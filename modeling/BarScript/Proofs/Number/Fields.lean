import BarScript.Number.Binary
import BarScript.Proofs.Number.Nearest

/-!
# The fields of a double

Taking the fields of a double apart (`kindOf`) gives what unpacking it gives (`kindOf_eq`), and
unpacking undoes packing for the significands and exponents of doubles (`unpack_pack_finite`).
-/

namespace BarScript.Number

open Float.Model Float.Model.UnpackedFloat

/-! ### Packing -/

/-- **Unpacking undoes packing.** -/
theorem unpack_pack_finite {s : Sign} {m : Nat} {e : Int} (hd : IsDouble m e)
    (he : e ≤ maxExponent) :
    UnpackedFloat.unpack Format.binary64
        (UnpackedFloat.pack Format.binary64 (.finite s m e hd.pos)) =
      .finite s m e hd.pos := by
  rw [unpack_pack_of_le hd.lt hd.min he]
  refine finite_congr rfl ?_
  split
  · rfl
  · by_contra h
    have := hd.normal (Ne.symm h)
    contradiction

/-- A double is what it unpacks to, packed again. -/
theorem ofModel_pack_unpack (x : Float) : Float.ofModel (Float.Model.pack x.toModel.unpack) = x :=
  Float.ofBits_toBits x

/-- A double that is finite and not zero has a significand and an exponent of doubles. -/
theorem isDouble_of_unpack {x : Float} {s : Sign} {m : Nat} {e : Int} {h : 0 < m}
    (hx : x.toModel.unpack = .finite s m e h) : IsDouble m e ∧ e ≤ maxExponent := by
  have hc := canonical_unpack x
  rw [hx] at hc
  refine ⟨⟨h, hc.1, hc.2.1, hc.2.2⟩, ?_⟩
  obtain ⟨s', e', m', hfields⟩ := exists_fields x
  rw [hx, unpack_packComponents] at hfields
  have hlt : e'.toNat < 2 ^ 11 := e'.isLt
  rw [maxExponent]
  split at hfields
  · split at hfields <;> cases hfields
  · rename_i hmax
    have hne : e'.toNat ≠ 2047 := fun heq => hmax (BitVec.eq_of_toNat_eq heq)
    split at hfields
    · split at hfields
      · cases hfields
      · cases hfields
        decide
    · have := (UnpackedFloat.finite.inj hfields).2.2
      omega

/-! ### Taking a double apart -/

/-- The kind of an unpacked double. -/
def kindOfUnpacked : UnpackedFloat → Kind
  | .notANumber => .nan
  | .infinity s => .infinite (s == .negative)
  | .zero s => .finite ⟨s == .negative, 0, -1074⟩
  | .finite s m e _ => .finite ⟨s == .negative, m, e⟩

/-- The bits of three fields. -/
theorem toNat_packComponents (s : Sign) (e : BitVec 11) (m : BitVec 52) :
    (packComponents Format.binary64 s e m).toNat =
      s.toBitVec.toNat * 2 ^ 63 + e.toNat * 2 ^ 52 + m.toNat := by
  have hhead : (s.toBitVec ++ e).toNat = s.toBitVec.toNat * 2 ^ 11 + e.toNat := by
    rw [BitVec.toNat_append, ← Nat.shiftLeft_add_eq_or_of_lt e.isLt, Nat.shiftLeft_eq]
  change ((s.toBitVec ++ e) ++ m).toNat = _
  rw [BitVec.toNat_append, ← Nat.shiftLeft_add_eq_or_of_lt m.isLt, Nat.shiftLeft_eq, hhead]
  omega

/-- **The fields of a double say what it unpacks to.** -/
theorem kindOf_eq (x : Float) : kindOf x = kindOfUnpacked x.toModel.unpack := by
  obtain ⟨s, e, m, hbits⟩ : ∃ s e m,
      x.toModel.toBits.toBitVec = packComponents Format.binary64 s e m :=
    ⟨_, _, _, (packComponents_unpackSign_unpackExponent_unpackMantissa
      (show BitVec Format.binary64.numBits from x.toModel.toBits.toBitVec)).symm⟩
  have hunpack : x.toModel.unpack =
      UnpackedFloat.unpack Format.binary64 (packComponents Format.binary64 s e m) :=
    congrArg (UnpackedFloat.unpack Format.binary64) hbits
  have hnat : x.toBits.toNat =
      s.toBitVec.toNat * 2 ^ 63 + e.toNat * 2 ^ 52 + m.toNat :=
    (congrArg BitVec.toNat hbits).trans (toNat_packComponents s e m)
  have he : e.toNat < 2 ^ 11 := e.isLt
  have hm : m.toNat < 2 ^ 52 := m.isLt
  have hfield : x.toBits.toNat / Nat.pow 2 52 % Nat.pow 2 11 = e.toNat := by
    rw [hnat]
    change _ / 2 ^ 52 % 2 ^ 11 = _
    omega
  have hfraction : x.toBits.toNat % Nat.pow 2 52 = m.toNat := by
    rw [hnat]
    change _ % 2 ^ 52 = _
    omega
  have hsign : decide (x.toBits.toNat / Nat.pow 2 63 = 1) = (s == .negative) := by
    have htop : x.toBits.toNat / 2 ^ 63 = s.toBitVec.toNat := by omega
    change decide (x.toBits.toNat / 2 ^ 63 = 1) = _
    rw [htop]
    cases s <;> rfl
  rw [hunpack, unpack_packComponents]
  unfold kindOf
  simp only [hfield, hfraction, hsign]
  have hmax : e = -1#11 ↔ e.toNat = 2047 := BitVec.toNat_inj.symm
  have hmin : e = 0#11 ↔ e.toNat = 0 := BitVec.toNat_inj.symm
  have hzero : m = 0#52 ↔ m.toNat = 0 := BitVec.toNat_inj.symm
  simp only [hmax, hmin, hzero]
  by_cases h₁ : e.toNat = 2047
  · rw [if_pos h₁, if_pos h₁]
    split <;> rfl
  · rw [if_neg h₁, if_neg h₁]
    by_cases h₂ : e.toNat = 0
    · rw [if_pos h₂, if_pos h₂]
      by_cases h₃ : m.toNat = 0
      · rw [dif_pos h₃, h₃]
        rfl
      · rw [dif_neg h₃]
        rfl
    · rw [if_neg h₂, if_neg h₂, kindOfUnpacked, toNat_significand]
      rfl

theorem kindOf_ne_nan {x : Float} (h : x.isNaN = false) : kindOf x ≠ .nan := by
  change x.toModel.unpack.isNaN = false at h
  rw [kindOf_eq]
  cases hu : x.toModel.unpack with
  | notANumber => rw [hu] at h; cases h
  | infinity | zero | finite => nofun

end BarScript.Number
