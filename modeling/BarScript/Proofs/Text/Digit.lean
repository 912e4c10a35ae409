import BarScript.Number.Notation
import BarScript.Text.Digit
import BarScript.Text.Quoted
import Mathlib

/-!
# Digits read back

The decimal digits of a number have the value of the number (`digitsValue_digitChars`), also with
zeros in front of them or behind them.  Four digits in base sixteen stand for every number of
sixteen bits (`hexChars_four`).
-/

namespace BarScript.Text

/-! ### Decimal digits -/

/-- Only decimal digits of ASCII. -/
def AllDigits (cs : List Char) : Prop := ∀ c ∈ cs, c.isDigit = true

namespace AllDigits

variable {cs ds : List Char}

theorem append (hc : AllDigits cs) (hd : AllDigits ds) : AllDigits (cs ++ ds) := by
  intro c h
  rcases List.mem_append.1 h with h | h
  · exact hc c h
  · exact hd c h

theorem zeros (n : Nat) : AllDigits (List.replicate n '0') :=
  fun _ h => List.eq_of_mem_replicate h ▸ rfl

theorem digitChars (n : Nat) : AllDigits (Number.digitChars n) := fun _ h =>
  Nat.isDigit_of_mem_toDigits (by decide) (by decide) h

theorem take (h : AllDigits cs) (n : Nat) : AllDigits (cs.take n) :=
  fun c hc => h c (List.mem_of_mem_take hc)

theorem drop (h : AllDigits cs) (n : Nat) : AllDigits (cs.drop n) :=
  fun c hc => h c (List.mem_of_mem_drop hc)

end AllDigits

theorem digitValue?_of_isDigit {c : Char} (h : c.isDigit = true) :
    digitValue? c = some (c.toNat - 48) := by
  have hrange : '0' ≤ c ∧ c ≤ '9' := by
    rw [Char.isDigit, Bool.and_eq_true, decide_eq_true_iff, decide_eq_true_iff] at h
    exact h
  have hlt : c.toNat < 128 := Nat.lt_of_le_of_lt (show c.toNat ≤ 57 from hrange.2) (by decide)
  rw [digitValue?, if_pos hlt, if_pos hrange]

theorem digitsValue_eq {cs : List Char} (h : AllDigits cs) :
    digitsValue cs = Nat.ofDigitChars 10 cs 0 := by
  rw [digitsValue, Nat.ofDigitChars]
  refine List.foldl_ext _ _ _ fun n c hc => ?_
  rw [digitValue?_of_isDigit (h c hc)]
  rfl

@[simp] theorem digitsValue_digitChars (n : Nat) : digitsValue (Number.digitChars n) = n := by
  rw [digitsValue_eq (.digitChars n)]
  exact Nat.ofDigitChars_ten_toDigits

theorem digitsValue_append_zeros {cs : List Char} (h : AllDigits cs) (k : Nat) :
    digitsValue (cs ++ List.replicate k '0') = digitsValue cs * 10 ^ k := by
  rw [digitsValue_eq (h.append (.zeros k)), digitsValue_eq h, Nat.ofDigitChars_append,
    Nat.ofDigitChars_replicate_zero, Nat.mul_comm]

theorem digitsValue_zeros_append {cs : List Char} (h : AllDigits cs) (k : Nat) :
    digitsValue (List.replicate k '0' ++ cs) = digitsValue cs := by
  rw [digitsValue_eq ((AllDigits.zeros k).append h), digitsValue_eq h, Nat.ofDigitChars_append,
    Nat.ofDigitChars_replicate_zero, Nat.mul_zero]

/-- The digits of a number start with a zero only if the number is zero. -/
theorem eq_zero_of_digitChars {n : Nat} {ds : List Char} (h : Number.digitChars n = '0' :: ds) :
    n = 0 := by
  induction n using Nat.strong_induction_on generalizing ds with
  | h n ih =>
    rw [Number.digitChars] at h
    by_cases hlt : n < 10
    · rw [Nat.toDigits_of_lt_base hlt] at h
      exact Nat.digitChar_eq_zero.1 (List.cons.inj h).1
    · have hge : 10 ≤ n := Nat.le_of_not_lt hlt
      rw [Nat.toDigits_of_base_le (by decide) hge] at h
      obtain ⟨c, cs, hcs⟩ :=
        List.exists_cons_of_ne_nil (Nat.toDigits_ne_nil (n := n / 10) (b := 10))
      have hc : c = '0' := by
        rw [hcs] at h
        exact (List.cons.inj h).1
      subst hc
      have := ih (n / 10) (by omega) hcs
      omega

/-! ### Digits in base sixteen -/

theorem hexDigit?_digitChar {d : Nat} (h : d < 16) : hexDigit? d.digitChar = some d := by
  decide +revert

/-- Four digits in base sixteen. -/
theorem hexChars_four {n : Nat} (h : n < 16 ^ 4) :
    hexChars 4 n = [(n / 16 / 16 / 16).digitChar, (n / 16 / 16 % 16).digitChar,
      (n / 16 % 16).digitChar, (n % 16).digitChar] := by
  have hlast : n / 16 / 16 / 16 < 16 := by omega
  rw [hexChars, Nat.toDigits_eq_if (by decide), Nat.toDigits_eq_if (n := n / 16) (by decide),
    Nat.toDigits_eq_if (n := n / 16 / 16) (by decide), Nat.toDigits_of_lt_base hlast]
  -- the digits that are not written are zeros
  have hzero : ∀ {d : Nat}, d < 16 → d / 16 = 0 ∧ d % 16 = d := by omega
  split_ifs with h₁ h₂ h₃
  · simp [hzero h₁]
  · simp [hzero h₂]
  · simp [hzero h₃]
  · simp

end BarScript.Text
