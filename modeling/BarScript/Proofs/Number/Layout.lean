import BarScript.Number.Notation
import BarScript.Proofs.Number.Shortest
import BarScript.Proofs.Text.Digit

/-!
# How a decimal is set out

Whichever way the digits of a decimal are set out, the text is made of whole digits, a fraction and
an exponent, of which the last two may be missing, and these parts stand for the decimal
(`exists_setOut`).  Between the two exponents of the layout there is none in the text.
-/

namespace BarScript.Number

open Text

/-! ### Parts -/

/-- The whole digits of a number: some, and no zero in front of others. -/
structure WholeDigits (cs : List Char) : Prop where
  digits : AllDigits cs
  nonempty : cs ≠ []
  leading : ∀ ds, cs = '0' :: ds → ds = []

theorem WholeDigits.digitChars (n : Nat) : WholeDigits (Number.digitChars n) where
  digits := .digitChars n
  nonempty := Nat.toDigits_ne_nil
  leading ds h := by
    have hn := eq_zero_of_digitChars h
    subst hn
    exact (List.cons.inj h).2.symm

/-- The digits of a number that is not zero, up to some place. -/
theorem wholeDigits_take {n k : Nat} (hn : n ≠ 0) (hk : 0 < k) :
    WholeDigits ((digitChars n).take k) where
  digits := AllDigits.take (.digitChars n) k
  nonempty := by
    rw [Ne, List.take_eq_nil_iff, not_or]
    exact ⟨Nat.ne_of_gt hk, Nat.toDigits_ne_nil⟩
  leading ds h := by
    obtain ⟨c, cs, hcs⟩ := List.exists_cons_of_ne_nil (WholeDigits.digitChars n).nonempty
    obtain ⟨k, rfl⟩ := Nat.exists_eq_succ_of_ne_zero (Nat.ne_of_gt hk)
    rw [hcs, List.take_succ_cons] at h
    rw [(List.cons.inj h).1] at hcs
    exact absurd (eq_zero_of_digitChars hcs) hn

/-- Zeros behind the digits of a number; zero itself has none. -/
theorem wholeDigits_zeros {n k : Nat} (hzero : n = 0 → k = 0) :
    WholeDigits (digitChars n ++ List.replicate k '0') where
  digits := (AllDigits.digitChars n).append (.zeros k)
  nonempty := List.append_ne_nil_of_left_ne_nil Nat.toDigits_ne_nil _
  leading ds h := by
    obtain ⟨c, cs, hcs⟩ := List.exists_cons_of_ne_nil (WholeDigits.digitChars n).nonempty
    rw [hcs, List.cons_append] at h
    obtain ⟨rfl, rfl⟩ := List.cons.inj h
    have hnil := (WholeDigits.digitChars n).leading cs hcs
    rw [hnil, hzero (eq_zero_of_digitChars hcs)]
    rfl

/-- The text of an exponent, if there is one. -/
def exponentText : Option Int → List Char
  | none => []
  | some e => 'e' :: exponentChars e

/-- The parts of a written double: its whole digits, its fraction and its exponent. -/
structure Parts where
  whole : List Char
  fraction : List Char
  exponent : Option Int

namespace Parts

/-- The text of the parts. -/
def text (p : Parts) : List Char := withPoint p.whole p.fraction false ++ exponentText p.exponent

/-- The parts have digits where they should. -/
structure Proper (p : Parts) : Prop where
  whole : WholeDigits p.whole
  fraction : AllDigits p.fraction

/-- The decimal that the parts stand for. -/
def decimal (p : Parts) : Decimal where
  digits := digitsValue (p.whole ++ p.fraction)
  exponent := p.exponent.getD 0 - p.fraction.length

end Parts

theorem withPoint_of_ne_nil (whole : List Char) {fraction : List Char} (h : fraction ≠ [])
    (keepsPoint : Bool) : withPoint whole fraction keepsPoint = whole ++ '.' :: fraction := by
  cases fraction with
  | nil => exact absurd rfl h
  | cons c cs => rfl

/-! ### Layouts -/

/-- The decimal exponent of the first digit. -/
def Decimal.lead (d : Decimal) : Int := d.exponent + ((digitChars d.digits).length : Int) - 1

/-- Whether a decimal is written without an exponent. -/
def Layout.IsPositional (layout : Layout) (d : Decimal) : Prop :=
  layout.leastPositional ≤ d.lead ∧ d.lead < layout.positionalEnd

/-- The parts that a decimal is set out in. -/
structure SetOut (layout : Layout) (d : Decimal) (cs : List Char) (p : Parts) : Prop where
  text : cs = p.text
  proper : p.Proper
  value : p.decimal.toRat = d.toRat
  /-- A layout that keeps the point shows that it is no whole number. -/
  real : layout.keepsPoint = true → p.fraction = [] → p.exponent.isSome
  positional : layout.IsPositional d → p.exponent = none

variable {layout : Layout} {d : Decimal}

/-- Parts whose digits are those of the decimal, with the exponent that is left. -/
theorem setOut_split {whole fraction : List Char} (exponent : Option Int)
    (hw : WholeDigits whole) (hf : AllDigits fraction)
    (hreal : layout.keepsPoint = true → fraction = [] → exponent.isSome)
    (hpositional : layout.IsPositional d → exponent = none)
    (hvalue : digitsValue (whole ++ fraction) = d.digits)
    (hexp : exponent.getD 0 - fraction.length = d.exponent) :
    ∃ p, SetOut layout d (withPoint whole fraction false ++ exponentText exponent) p := by
  refine ⟨⟨whole, fraction, exponent⟩, rfl, ⟨hw, hf⟩, ?_, hreal, hpositional⟩
  rw [Parts.decimal, Decimal.toRat, Decimal.toRat, ← hvalue, ← hexp]

/-- A decimal with no digits behind the point is written with zeros. -/
theorem setOut_whole (layout : Layout) (hzero : d.digits = 0 → d.exponent = 0)
    (hpos : 0 ≤ d.exponent) :
    ∃ p, SetOut layout d (withPoint (digitChars d.digits ++ List.replicate d.exponent.toNat '0') []
      layout.keepsPoint) p := by
  have hdigits : AllDigits (digitChars d.digits) := .digitChars _
  have hexp : d.exponent = (d.exponent.toNat : Int) := by omega
  have hwhole : WholeDigits (digitChars d.digits ++ List.replicate d.exponent.toNat '0') :=
    wholeDigits_zeros fun h => by rw [hzero h]; rfl
  -- a zero behind the point, or none
  have hparts : ∀ k, digitsValue (digitChars d.digits ++ List.replicate d.exponent.toNat '0' ++
      List.replicate k '0') * (10 : ℚ) ^ (-(k : Int)) = d.toRat := fun k => by
    rw [List.append_assoc, ← List.replicate_add, digitsValue_append_zeros hdigits,
      digitsValue_digitChars, Decimal.toRat]
    conv_rhs => rw [hexp, zpow_natCast]
    push_cast
    rw [pow_add, zpow_neg, zpow_natCast]
    field_simp
  cases hkeeps : layout.keepsPoint with
  | true =>
    refine ⟨⟨_, ['0'], none⟩, ?_, ⟨hwhole, .zeros 1⟩, ?_,
      fun _ h => absurd h (List.cons_ne_nil _ _), fun _ => rfl⟩
    · simp [Parts.text, withPoint, exponentText]
    · exact hparts 1
  | false =>
    refine ⟨⟨_, [], none⟩, ?_, ⟨hwhole, .zeros 0⟩, ?_, fun h => ?_, fun _ => rfl⟩
    · simp [Parts.text, withPoint, exponentText]
    · exact hparts 0
    · rw [hkeeps] at h
      cases h

/-- **However a decimal is set out, its parts stand for it.** -/
theorem exists_setOut (layout : Layout) (hzero : d.digits = 0 → d.exponent = 0)
    (hlayout : layout.leastPositional ≤ 0 ∧ 0 < layout.positionalEnd) :
    ∃ p, SetOut layout d (d.layOut layout) p := by
  have hlen : 0 < (digitChars d.digits).length := Nat.length_toDigits_pos
  have hdigits : AllDigits (digitChars d.digits) := .digitChars _
  rw [Decimal.layOut]
  by_cases hpositional : layout.IsPositional d
  · have hlead := hpositional
    rw [Layout.IsPositional, Decimal.lead] at hlead
    rw [if_pos hlead]
    by_cases hpos : 0 ≤ d.exponent
    · rw [if_pos hpos]
      exact setOut_whole layout hzero hpos
    · rw [if_neg hpos]
      have hne : d.digits ≠ 0 := fun h => hpos (hzero h ▸ le_refl _)
      split
      · -- the point is among the digits
        have hdrop : (digitChars d.digits).drop
            ((d.exponent + ((digitChars d.digits).length : Int) - 1).toNat + 1) ≠ [] := by
          rw [Ne, List.drop_eq_nil_iff]
          omega
        rw [withPoint_of_ne_nil _ hdrop, ← withPoint_of_ne_nil _ hdrop false]
        rw [← List.append_nil (withPoint _ _ _)]
        refine setOut_split none (wholeDigits_take hne (by omega)) (hdigits.drop _)
          (fun _ h => absurd h hdrop) (fun _ => rfl) ?_ ?_
        · rw [List.take_append_drop, digitsValue_digitChars]
        · rw [Option.getD_none, List.length_drop]
          omega
      · -- zeros stand between the point and the digits
        have hfraction : List.replicate
            (-(d.exponent + ((digitChars d.digits).length : Int) - 1) - 1).toNat '0' ++
              digitChars d.digits ≠ [] :=
          List.append_ne_nil_of_right_ne_nil _ Nat.toDigits_ne_nil
        rw [withPoint_of_ne_nil _ hfraction, ← withPoint_of_ne_nil _ hfraction false]
        rw [← List.append_nil (withPoint _ _ _)]
        refine setOut_split none (.digitChars 0) ((AllDigits.zeros _).append hdigits)
          (fun _ h => absurd h hfraction) (fun _ => rfl) ?_ ?_
        · have h := digitsValue_zeros_append ((AllDigits.zeros
            (-(d.exponent + ((digitChars d.digits).length : Int) - 1) - 1).toNat).append hdigits) 1
          rwa [digitsValue_zeros_append hdigits, digitsValue_digitChars] at h
        · rw [Option.getD_none, List.length_append, List.length_replicate]
          omega
  · have hlead := hpositional
    rw [Layout.IsPositional, Decimal.lead] at hlead
    rw [if_neg hlead]
    have hne : d.digits ≠ 0 := by
      intro h
      rw [Layout.IsPositional, Decimal.lead, h, hzero h] at hpositional
      exact hpositional hlayout
    refine setOut_split (some _) (wholeDigits_take hne one_pos) (hdigits.drop _)
      (fun _ _ => rfl) (fun h => absurd h hpositional) ?_ ?_
    · rw [List.take_append_drop, digitsValue_digitChars]
    · rw [Option.getD_some, List.length_drop]
      omega

/-! ### The exponent of the first digit -/

theorem ten_zpow_lead_le (hd : d.digits ≠ 0) : (10 : ℚ) ^ d.lead ≤ d.toRat := by
  have hlen : 0 < (digitChars d.digits).length := Nat.length_toDigits_pos
  have hle : 10 ^ ((digitChars d.digits).length - 1) ≤ d.digits := by
    by_cases hone : (digitChars d.digits).length = 1
    · rw [hone]
      exact Nat.pos_of_ne_zero hd
    · have hshort : 0 < (digitChars d.digits).length - 1 := by omega
      refine Nat.not_lt.1 fun hlt => ?_
      have := (Nat.length_toDigits_le_iff (by decide) hshort).2 hlt
      rw [← digitChars] at this
      omega
  have hle' : (10 : ℚ) ^ ((digitChars d.digits).length - 1) ≤ d.digits := by exact_mod_cast hle
  have hlead : d.lead = (((digitChars d.digits).length - 1 : Nat) : Int) + d.exponent := by
    rw [Decimal.lead]
    omega
  rw [hlead, zpow_add₀ (by norm_num), zpow_natCast, Decimal.toRat]
  exact mul_le_mul_of_nonneg_right hle' (by positivity)

theorem toRat_lt_ten_zpow (d : Decimal) : d.toRat < 10 ^ (d.lead + 1) := by
  have hlt : d.digits < 10 ^ (digitChars d.digits).length :=
    (Nat.length_toDigits_le_iff (by decide) Nat.length_toDigits_pos).1 le_rfl
  have hlt' : (d.digits : ℚ) < 10 ^ (digitChars d.digits).length := by exact_mod_cast hlt
  have hlead : d.lead + 1 = ((digitChars d.digits).length : Int) + d.exponent := by
    rw [Decimal.lead]
    omega
  rw [hlead, zpow_add₀ (by norm_num), zpow_natCast, Decimal.toRat]
  exact mul_lt_mul_of_pos_right hlt' (by positivity)

end BarScript.Number
