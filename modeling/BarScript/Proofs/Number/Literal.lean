import BarScript.Number.Numeral
import BarScript.Proofs.Number.Layout
import BarScript.Proofs.Number.Zero

/-!
# Numbers written into scripts

A positive double is written into a script as digits with at most one point among them and without
an exponent (`exists_scriptParts`), whichever of the two ways is taken: a whole number has all its
digits, and any other number its shortest digits, which are moved to their place by zeros.  Both
stand for a decimal that the double is the nearest one to, so the text reads back to the double
(`float?_scriptText`).
-/

namespace BarScript

namespace Number

open Text

/-- A finite number above zero. -/
def IsPositive (x : Float) : Prop :=
  ∃ v, kindOf x = .finite v ∧ v.negative = false ∧ 0 < v.mantissa

instance (x : Float) : Decidable (IsPositive x) :=
  match h : kindOf x with
  | .finite v =>
    decidable_of_iff (v.negative = false ∧ 0 < v.mantissa) (by simp [IsPositive, h])
  | .infinite _ => .isFalse (by simp [IsPositive, h])
  | .nan => .isFalse (by simp [IsPositive, h])

/-- What is not refused as a number that is not above zero: infinity and NaN are not. -/
def PassesAsPositive (x : Float) : Prop :=
  IsPositive x ∨ kindOf x = .infinite false ∨ kindOf x = .nan

theorem passesAsPositive_of_not_le {x : Float} (hx : ¬ x ≤ 0) : PassesAsPositive x := by
  have hzero : (0 : Float).toModel.unpack = .zero .positive := rfl
  rw [le_iff, hzero] at hx
  rw [PassesAsPositive, IsPositive, kindOf_eq]
  cases hu : x.toModel.unpack with
  | notANumber => exact .inr (.inr rfl)
  | infinity s =>
    rw [hu] at hx
    cases s with
    | positive => exact .inr (.inl rfl)
    | negative => exact absurd rfl hx
  | zero s =>
    rw [hu] at hx
    cases s <;> exact absurd rfl hx
  | finite s m e hm =>
    rw [hu] at hx
    cases s with
    | positive => exact .inl ⟨_, rfl, rfl, hm⟩
    | negative => exact absurd rfl hx

theorem Positive.passesAsPositive {x : Float} (hx : Positive x) : PassesAsPositive x := by
  rw [PassesAsPositive, IsPositive, kindOf_eq]
  rw [Positive] at hx
  generalize x.toModel.unpack = u at hx ⊢
  cases hx with
  | infinity => exact .inr (.inl rfl)
  | finite hm => exact .inl ⟨_, rfl, rfl, hm⟩

/-! ### What is written -/

section

variable {x : Float} {v : Exact}

theorem isDouble_of_kindOf (hk : kindOf x = .finite v) (hm : 0 < v.mantissa) :
    IsDouble v.mantissa v.exponent ∧ v.exponent ≤ maxExponent := by
  rw [kindOf_eq] at hk
  cases hu : x.toModel.unpack with
  | notANumber | infinity s => rw [hu] at hk; cases hk
  | zero s =>
    rw [hu] at hk
    cases hk
    exact absurd hm (lt_irrefl 0)
  | finite s m q hpos =>
    have hd := isDouble_of_unpack hu
    rw [hu] at hk
    cases hk
    exact hd

/-- A decimal that a positive double is the nearest one to reads back to it. -/
theorem ofDecimal_of_near (hk : kindOf x = .finite v) (hsign : v.negative = false)
    (hm : 0 < v.mantissa) {d : Nat} {e : Int}
    (h : Near (Decimal.mk d e).toRat v.mantissa v.exponent) : ofDecimal d e = x := by
  have hdouble := isDouble_of_kindOf hk hm
  have hpack := ofModel_pack_unpack x
  rw [ofDecimal_eq rfl hdouble.1 hdouble.2 h]
  rw [kindOf_eq] at hk
  cases hu : x.toModel.unpack with
  | notANumber | infinity s => rw [hu] at hk; cases hk
  | zero s =>
    rw [hu] at hk
    cases hk
    exact absurd hm (lt_irrefl 0)
  | finite s m q hpos =>
    rw [hu] at hk hpack
    cases hk
    cases s with
    | positive => exact hpack
    | negative => cases hsign

/-- The value of a whole number is that of its whole part. -/
theorem truncate_of_isWhole (hsign : v.negative = false) (hwhole : v.isWhole = true) :
    0 ≤ v.truncate ∧ (v.truncate.natAbs : ℚ) = v.mantissa * 2 ^ v.exponent := by
  have hdvd : Nat.pow 2 (-v.exponent).toNat ∣ v.mantissa * Nat.pow 2 v.exponent.toNat :=
    Nat.dvd_of_mod_eq_zero (by simpa [Exact.isWhole] using hwhole)
  have hpow : ((Nat.pow 2 (-v.exponent).toNat : Nat) : ℚ) ≠ 0 :=
    Nat.cast_ne_zero.2 (Nat.pow_pos two_pos).ne'
  have htruncate : v.truncate =
      (v.mantissa * Nat.pow 2 v.exponent.toNat / Nat.pow 2 (-v.exponent).toNat : Nat) := by
    rw [Exact.truncate, Exact.signed, hsign]
    rfl
  refine ⟨htruncate ▸ Int.natCast_nonneg _, ?_⟩
  rw [htruncate, Int.natAbs_natCast, Nat.cast_div hdvd hpow, zpow_eq_div two_ne_zero]
  simp only [Nat.pow_eq]
  push_cast
  ring

/-- The shortest digits of a double are written without an exponent. -/
theorem isPositional_shortest (hd : IsDouble v.mantissa v.exponent)
    (hexp : v.exponent ≤ maxExponent) : scriptLiteral.IsPositional (shortest v) := by
  have hnear : Near (shortest v).toRat v.mantissa v.exponent := near_shortest hd
  have hne : (shortest v).digits ≠ 0 := by
    intro h
    have hpos := hnear.pos hd
    rw [Decimal.toRat, h] at hpos
    simp at hpos
  have hone : (1 : ℚ) < 10 := by norm_num
  constructor
  · have hlow := hnear.ten_zpow_le hd
    have hlt := hlow.trans_lt (toRat_lt_ten_zpow (shortest v))
    rw [← zpow_natCast, ← zpow_neg, zpow_lt_zpow_iff_right₀ hone] at hlt
    change (-400 : Int) ≤ _
    omega
  · have hhigh := (ten_zpow_lead_le hne).trans_lt (hnear.lt_ten_pow hd hexp)
    rw [← zpow_natCast, zpow_lt_zpow_iff_right₀ hone] at hhigh
    exact hhigh

/-- **A positive double is written as digits with at most one point**, and they stand for it. -/
theorem exists_scriptParts (hx : IsPositive x) :
    ∃ p : Parts, (scriptText x).toList = p.text ∧ p.Proper ∧ p.exponent = none ∧
      ofDecimal p.decimal.digits p.decimal.exponent = x := by
  obtain ⟨v, hk, hsign, hm⟩ := hx
  obtain ⟨hd, hexp⟩ := isDouble_of_kindOf hk hm
  rw [scriptText, hk]
  by_cases hwhole : v.isWhole = true
  · obtain ⟨hpos, hvalue⟩ := truncate_of_isWhole hsign hwhole
    refine ⟨⟨digitChars v.truncate.natAbs, [], none⟩, ?_, ⟨.digitChars _, .zeros 0⟩, rfl,
      ofDecimal_of_near hk hsign hm ?_⟩
    · simp only [hwhole, if_true, intText, if_neg (not_lt.2 hpos), String.toList_ofList]
      simp [Parts.text, withPoint, exponentText]
    · have hdecimal : (Decimal.mk (digitsValue (digitChars v.truncate.natAbs ++ [])) 0).toRat =
          v.mantissa * 2 ^ v.exponent := by
        rw [List.append_nil, digitsValue_digitChars, Decimal.toRat, zpow_zero, mul_one, hvalue]
      exact hdecimal ▸ near_self _ _
  · obtain ⟨p, htext, hproper, hvalue, -, hpositional⟩ := exists_setOut scriptLiteral
      (exponent_eq_zero_of_digits hk) (by decide)
    have hshortest : v.decimal = shortest v := if_neg hm.ne'
    rw [hshortest] at htext hvalue hpositional
    refine ⟨p, ?_, hproper, hpositional (isPositional_shortest hd hexp),
      ofDecimal_of_near hk hsign hm ?_⟩
    · simp only [hwhole, Bool.false_eq_true, if_false, chars, hk, hsign, String.toList_ofList,
        hshortest, htext]
    · exact hvalue.symm ▸ near_shortest hd

end

end Number

/-! ### What is read -/

namespace Numeral

open Number Text

/-- The characters of a number in a script. -/
def literalChars : List Char := ['0', '1', '2', '3', '4', '5', '6', '7', '8', '9', '.']

theorem mem_literalChars_of_isDigit {c : Char} (h : c.isDigit = true) : c ∈ literalChars := by
  have hrange : 48 ≤ c.toNat ∧ c.toNat ≤ 57 := by
    rw [Char.isDigit, Bool.and_eq_true, decide_eq_true_iff, decide_eq_true_iff] at h
    exact h
  obtain ⟨hlow, hhigh⟩ := hrange
  rw [← Char.ofNat_toNat c]
  interval_cases c.toNat <;> decide

section

variable {p : Parts} {c : Char}

theorem mem_literalChars_of_mem_text (hp : p.Proper) (hexp : p.exponent = none)
    (hc : c ∈ p.text) : c ∈ literalChars := by
  have hwhole : ∀ c ∈ p.whole, c ∈ literalChars := fun c hc =>
    mem_literalChars_of_isDigit (hp.whole.digits c hc)
  have hfraction : ∀ c ∈ p.fraction, c ∈ literalChars := fun c hc =>
    mem_literalChars_of_isDigit (hp.fraction c hc)
  rw [Parts.text, hexp, exponentText, List.append_nil] at hc
  cases hcases : p.fraction with
  | nil =>
    rw [hcases] at hc
    exact hwhole c hc
  | cons d ds =>
    rw [hcases, withPoint_of_ne_nil _ (List.cons_ne_nil d ds), List.mem_append, List.mem_cons] at hc
    rcases hc with hc | rfl | hc
    · exact hwhole c hc
    · decide
    · exact hfraction c (hcases ▸ hc)

/-- The text of a number starts with a digit. -/
theorem exists_text_eq_cons (hp : p.Proper) :
    ∃ c cs, p.text = c :: cs ∧ c.isDigit = true := by
  obtain ⟨c, cs, hcs⟩ := List.exists_cons_of_ne_nil hp.whole.nonempty
  refine ⟨c, p.text.tail, ?_, hp.whole.digits c (by rw [hcs]; exact List.mem_cons_self)⟩
  rw [Parts.text]
  cases p.fraction <;> simp [withPoint, hcs]

theorem trim_eq_self {drop : Char → Bool} {cs : List Char} (h : ∀ c ∈ cs, drop c = false) :
    trim drop cs = cs := by
  have hdrop : ∀ ds : List Char, (∀ c ∈ ds, drop c = false) → ds.dropWhile drop = ds := by
    intro ds hds
    refine List.dropWhile_eq_self_iff.2 fun hlength => ?_
    rw [hds _ (List.getElem_mem hlength)]
    decide
  rw [trim, hdrop cs h, hdrop cs.reverse fun c hc => h c (List.mem_reverse.1 hc),
    List.reverse_reverse]

theorem asciiDigits_eq_self {cs : List Char} (h : ∀ c ∈ cs, c ∈ literalChars) :
    asciiDigits cs = cs := by
  have hsame : asciiDigits literalChars = literalChars.map id := by decide +kernel
  rw [asciiDigits, List.map_inj_left] at hsame
  exact (List.map_congr_left fun c hc => hsame c (h c hc)).trans (List.map_id cs)

theorem dropUnderscores_eq_self {cs : List Char} (h : '_' ∉ cs) :
    dropUnderscores cs = some cs := by
  have hgo : ∀ before, dropUnderscores.go before cs = some cs := by
    induction cs with
    | nil => intro before; rfl
    | cons c cs ih =>
      rw [List.mem_cons, not_or] at h
      intro before
      rw [dropUnderscores.go, ih h.2]
      · rfl
      · exact fun heq => h.1 heq.symm
  exact hgo none

theorem takeWhile_isDigit {ds : List Char} (hd : AllDigits ds) (rest : List Char)
    (hr : ∀ c ∈ rest.head?, Text.isDigit c = false) :
    (ds ++ rest).takeWhile Text.isDigit = ds ∧ (ds ++ rest).dropWhile Text.isDigit = rest := by
  have hdigit : ∀ c ∈ ds, Text.isDigit c = true := fun c hc => by
    rw [Text.isDigit, digitValue?_of_isDigit (hd c hc)]
    rfl
  rw [List.takeWhile_append_of_pos hdigit, List.dropWhile_append_of_pos hdigit]
  cases rest with
  | nil => simp
  | cons c rest => simp [hr c rfl]

theorem decimal?_text (hp : p.Proper) (hexp : p.exponent = none) :
    decimal? p.text = some (ofDecimal p.decimal.digits p.decimal.exponent) := by
  obtain ⟨whole, fraction, exponent⟩ := p
  obtain ⟨hw, hf⟩ := hp
  cases hexp
  have hne : whole.isEmpty = false := List.isEmpty_eq_false_iff.2 hw.nonempty
  cases fraction with
  | nil =>
    obtain ⟨htake, hdrop⟩ := takeWhile_isDigit hw.digits [] (by simp)
    rw [List.append_nil] at htake hdrop
    have htext : Parts.text ⟨whole, [], none⟩ = whole := List.append_nil _
    simp only [htext, decimal?, htake, hdrop, hne]
    rfl
  | cons c cs =>
    have hpoint : ∀ d ∈ ('.' :: (c :: cs)).head?, Text.isDigit d = false := by
      rintro d ⟨⟩
      rfl
    obtain ⟨htake, hdrop⟩ := takeWhile_isDigit hw.digits _ hpoint
    obtain ⟨htake', hdrop'⟩ := takeWhile_isDigit hf [] (by simp)
    rw [List.append_nil] at htake' hdrop'
    have htext : Parts.text ⟨whole, c :: cs, none⟩ = whole ++ '.' :: c :: cs := List.append_nil _
    simp only [htext, decimal?, htake, hdrop, htake', hdrop', hne]
    rfl

/-- No word for a double starts with a digit. -/
theorem word?_eq_none {cs ds : List Char} (hcs : cs = c :: ds) (hc : c ∈ literalChars) :
    word? cs = none := by
  have hlower : literalChars.all (fun c => c.toLower != 'i' && c.toLower != 'n') = true := by
    decide +kernel
  have hc := List.all_eq_true.1 hlower c hc
  rw [Bool.and_eq_true, bne_iff_ne, bne_iff_ne] at hc
  have hne : ∀ d w, d = 'i' ∨ d = 'n' →
      String.ofList (cs.map Char.toLower) ≠ String.ofList (d :: w) := by
    intro d w hd h
    rw [hcs, List.map_cons, String.ofList_inj] at h
    have hhead := (List.cons.inj h).1
    rcases hd with rfl | rfl
    · exact hc.1 hhead
    · exact hc.2 hhead
  have hinf := hne 'i' ['n', 'f'] (.inl rfl)
  have hinfinity := hne 'i' ['n', 'f', 'i', 'n', 'i', 't', 'y'] (.inl rfl)
  have hnan := hne 'n' ['a', 'n'] (.inr rfl)
  simp only [word?]
  rw [if_neg (not_or.2 ⟨hinf, hinfinity⟩), if_neg hnan]

/-- **The digits of a number are read as the double that their decimal is the nearest to.** -/
theorem float?_text (hp : p.Proper) (hexp : p.exponent = none) {text : String}
    (htext : text.toList = p.text) :
    float? text = some (ofDecimal p.decimal.digits p.decimal.exponent) := by
  have hmem : ∀ c ∈ p.text, c ∈ literalChars := fun c => mem_literalChars_of_mem_text hp hexp
  have hblank : literalChars.all (fun c => !isWhiteSpace c) = true := by decide +kernel
  have hunderscore : '_' ∉ p.text := fun h => absurd (hmem '_' h) (by decide)
  obtain ⟨c, cs, hcs, hc⟩ := exists_text_eq_cons hp
  have hsign : splitSign p.text = (false, p.text) := by
    have hc := mem_literalChars_of_isDigit hc
    rw [hcs, splitSign]
    · rintro rest heq
      rw [(List.cons.inj heq).1] at hc
      exact absurd hc (by decide)
    · rintro rest heq
      rw [(List.cons.inj heq).1] at hc
      exact absurd hc (by decide)
  have hword : word? p.text = none := word?_eq_none hcs (mem_literalChars_of_isDigit hc)
  rw [float?, htext, trim_eq_self fun c hc => by
    simpa using List.all_eq_true.1 hblank c (hmem c hc), asciiDigits_eq_self hmem,
    dropUnderscores_eq_self hunderscore]
  simp only [Option.bind_some, signed?, hsign, unsigned?, hword, decimal?_text hp hexp]
  rfl

end

/-- **A positive double is written without an exponent and reads back.** -/
theorem float?_scriptText {x : Float} (hx : IsPositive x) :
    (∀ c ∈ (scriptText x).toList, c ∈ literalChars) ∧ float? (scriptText x) = some x := by
  obtain ⟨p, htext, hp, hexp, hvalue⟩ := exists_scriptParts hx
  refine ⟨fun c hc => mem_literalChars_of_mem_text hp hexp (htext ▸ hc), ?_⟩
  rw [float?_text hp hexp htext, hvalue]

end Numeral

end BarScript
