import BarScript.Json.Reader
import BarScript.Json.Writer
import BarScript.Proofs.Number.Layout

/-!
# Numbers in JSON text

A whole number is read back from its digits (`wordOrNumber_intText`), a double from the parts it is
set out in (`magnitude_text`, `wordOrNumber_chars`).  Both are written with characters that only
words and numbers are made of (`AtomChars`), so in a text they are read as far as they go if what
follows does not go on with them (`Delimited`, `atom_of_wordOrNumber`).
-/

namespace BarScript.Json

open Number Text

namespace Reader

/-! ### Digits -/

theorem isAsciiDigit_eq (c : Char) : isAsciiDigit c = c.isDigit := by
  rw [isAsciiDigit, Char.isDigit, Bool.eq_iff_iff]
  simp only [Bool.and_eq_true, decide_eq_true_iff]
  exact Iff.rfl

/-- No digit follows. -/
def NoDigit (cs : List Char) : Prop := ∀ c ∈ cs.head?, c.isDigit = false

theorem noDigit_nil : NoDigit [] := nofun

theorem takeWhile_digits {ds rest : List Char} (hd : AllDigits ds) (hr : NoDigit rest) :
    (ds ++ rest).takeWhile isAsciiDigit = ds := by
  rw [List.takeWhile_append_of_pos fun c hc => isAsciiDigit_eq c ▸ hd c hc]
  cases rest with
  | nil => simp
  | cons c rest => simp [isAsciiDigit_eq, hr c rfl]

theorem dropWhile_digits {ds rest : List Char} (hd : AllDigits ds) (hr : NoDigit rest) :
    (ds ++ rest).dropWhile isAsciiDigit = rest := by
  rw [List.dropWhile_append_of_pos fun c hc => isAsciiDigit_eq c ▸ hd c hc]
  cases rest with
  | nil => rfl
  | cons c rest => simp [isAsciiDigit_eq, hr c rfl]

theorem wholeDigits_append {ds rest : List Char} (hd : WholeDigits ds) (hr : NoDigit rest) :
    wholeDigits (ds ++ rest) = (ds, rest) := by
  obtain ⟨hdigits, hne, hlead⟩ := hd
  obtain ⟨c, cs, rfl⟩ := List.exists_cons_of_ne_nil hne
  by_cases hc : c = '0'
  · subst hc
    rw [hlead cs rfl]
    rfl
  · have h : wholeDigits (c :: cs ++ rest) =
        ((c :: cs ++ rest).takeWhile isAsciiDigit, (c :: cs ++ rest).dropWhile isAsciiDigit) := by
      rw [wholeDigits]
      rintro cs' h
      exact hc (List.cons.inj h).1
    rw [h, takeWhile_digits hdigits hr, dropWhile_digits hdigits hr]

/-! ### Whole numbers -/

theorem magnitude_digitChars (start : List Char) (negative : Bool) {n : Nat}
    (hn : (digitChars n).length ≤ Numeral.maxIntDigits) :
    magnitude start negative (digitChars n) = .ok (.int (if negative then -n else n), []) := by
  have hne : (digitChars n).isEmpty = false := by
    rw [List.isEmpty_eq_false_iff]
    exact (WholeDigits.digitChars n).nonempty
  have hwhole := wholeDigits_append (.digitChars n) noDigit_nil
  rw [List.append_nil] at hwhole
  simp only [magnitude, hwhole, hne, fraction?, exponent?, Option.map_none, Option.getD_none,
    Option.isNone_none, Bool.and_self, Numeral.ofDigits, if_neg (Nat.not_lt.2 hn),
    digitsValue_digitChars]
  rfl

/-- A text that starts with a digit. -/
def StartsDigit (cs : List Char) : Prop := ∃ c rest, cs = c :: rest ∧ c.isDigit = true

theorem startsDigit_wholeDigits {cs : List Char} (h : WholeDigits cs) (rest : List Char) :
    StartsDigit (cs ++ rest) := by
  obtain ⟨c, ds, rfl⟩ := List.exists_cons_of_ne_nil h.nonempty
  exact ⟨c, ds ++ rest, rfl, h.digits c (by simp)⟩

theorem number_of_startsDigit {cs : List Char} (h : StartsDigit cs) :
    number cs = magnitude cs false cs := by
  obtain ⟨c, rest, rfl, hc⟩ := h
  rw [number]
  rintro cs' heq
  rw [(List.cons.inj heq).1] at hc
  exact absurd hc (by decide)

/-- A number begins none of the words. -/
theorem wordOrNumber_of_startsDigit {cs : List Char} (h : StartsDigit cs) :
    wordOrNumber cs = number cs ∧ wordOrNumber ('-' :: cs) = number ('-' :: cs) := by
  obtain ⟨c, rest, rfl, hc⟩ := h
  have hne : ∀ d : Char, d.isDigit = false → d ≠ c := fun d hd heq => by
    rw [heq, hc] at hd
    cases hd
  have h₁ := hne 'n' rfl
  have h₂ := hne 't' rfl
  have h₃ := hne 'f' rfl
  have h₄ := hne 'N' rfl
  have h₅ := hne 'I' rfl
  have h₆ := hne '-' rfl
  constructor <;> simp [wordOrNumber, words, dropWord?, h₁, h₂, h₃, h₄, h₅, h₆]

/-- **A whole number is read back.** -/
theorem wordOrNumber_intText {n : Int} (hn : (digitChars n.natAbs).length ≤ Numeral.maxIntDigits) :
    wordOrNumber (intText n).toList = .ok (.int n, []) := by
  have hstart := startsDigit_wholeDigits (.digitChars n.natAbs) []
  rw [List.append_nil] at hstart
  rw [intText]
  split
  · rw [String.toList_ofList, (wordOrNumber_of_startsDigit hstart).2, number,
      magnitude_digitChars _ true hn]
    simp only [if_true]
    rw [show -(n.natAbs : Int) = n by omega]
  · rw [String.toList_ofList, (wordOrNumber_of_startsDigit hstart).1,
      number_of_startsDigit hstart, magnitude_digitChars _ false hn]
    simp only [Bool.false_eq_true, if_false]
    rw [show (n.natAbs : Int) = n by omega]

/-! ### Doubles -/

theorem exponent?_exponentChars (e : Int) :
    exponent? ('e' :: exponentChars e) = some (e, []) := by
  obtain ⟨ds, hds⟩ : ∃ ds, ds =
      List.replicate (2 - (digitChars e.natAbs).length) '0' ++ digitChars e.natAbs := ⟨_, rfl⟩
  have hall : AllDigits ds := hds ▸ (AllDigits.zeros _).append (.digitChars _)
  have hvalue : digitsValue ds = e.natAbs := by
    rw [hds, digitsValue_zeros_append (.digitChars _), digitsValue_digitChars]
  have hne : ds ≠ [] := by
    rw [hds]
    exact List.append_ne_nil_of_right_ne_nil _ Nat.toDigits_ne_nil
  have hsign : Numeral.splitSign (exponentChars e) = (decide (e < 0), ds) := by
    rw [exponentChars, ← hds]
    split
    · rw [decide_eq_true ‹_›]
      rfl
    · rw [decide_eq_false ‹_›]
      rfl
  obtain ⟨c, cs, hcs⟩ := List.exists_cons_of_ne_nil hne
  have htake := takeWhile_digits hall noDigit_nil
  have hdrop := dropWhile_digits hall noDigit_nil
  rw [List.append_nil] at htake hdrop
  rw [exponent?, if_pos (.inl rfl), hsign]
  simp only [htake, hdrop]
  rw [hcs]
  simp only [← hcs, hvalue, decide_eq_true_eq]
  congr 2
  split <;> omega

theorem exponent?_exponentText (e : Option Int) :
    exponent? (exponentText e) = e.map fun e => (e, []) := by
  cases e with
  | none => rfl
  | some e => exact exponent?_exponentChars e

theorem noDigit_exponentText (e : Option Int) : NoDigit (exponentText e) := by
  cases e with
  | none => exact noDigit_nil
  | some e =>
    rintro c ⟨⟩
    rfl

theorem fraction?_exponentText (e : Option Int) : fraction? (exponentText e) = none := by
  cases e <;> rfl

theorem fraction?_point {ds rest : List Char} (hne : ds ≠ []) (hd : AllDigits ds)
    (hr : NoDigit rest) : fraction? ('.' :: (ds ++ rest)) = some (ds, rest) := by
  rw [fraction?, takeWhile_digits hd hr, dropWhile_digits hd hr]
  split
  · exact absurd rfl hne
  · rfl

/-- **A double is read from its parts.** -/
theorem magnitude_text {p : Parts} (hp : p.Proper) (hreal : p.fraction = [] → p.exponent.isSome)
    (start : List Char) (negative : Bool) :
    magnitude start negative p.text =
      .ok (.real (if negative then -ofDecimal p.decimal.digits p.decimal.exponent
        else ofDecimal p.decimal.digits p.decimal.exponent), []) := by
  obtain ⟨whole, fraction, exponent⟩ := p
  obtain ⟨hw, hf⟩ := hp
  have hne : whole.isEmpty = false := List.isEmpty_eq_false_iff.2 hw.nonempty
  have hexponent := exponent?_exponentText exponent
  have hnoDigit := noDigit_exponentText exponent
  by_cases hnil : fraction = []
  · subst hnil
    obtain ⟨e, rfl⟩ := Option.isSome_iff_exists.1 (hreal rfl)
    have htext : Parts.text ⟨whole, [], some e⟩ = whole ++ exponentText (some e) := rfl
    simp only [htext, magnitude, wholeDigits_append hw hnoDigit, hne,
      fraction?_exponentText (some e), hexponent, Option.map_none, Option.getD_none,
      Option.map_some, Option.getD_some]
    rfl
  · have htext : Parts.text ⟨whole, fraction, exponent⟩ =
        whole ++ '.' :: (fraction ++ exponentText exponent) := by
      rw [Parts.text, withPoint_of_ne_nil _ hnil]
      simp
    have hpoint : NoDigit ('.' :: (fraction ++ exponentText exponent)) := by
      rintro c ⟨⟩
      rfl
    simp only [htext, magnitude, wholeDigits_append hw hpoint, hne,
      fraction?_point hnil hf hnoDigit, Option.map_some, Option.getD_some, hexponent,
      Option.isNone_some, Bool.false_and]
    cases exponent <;> rfl

theorem startsDigit_text {p : Parts} (hp : p.Proper) (rest : List Char) :
    StartsDigit (p.text ++ rest) := by
  obtain ⟨whole, fraction, exponent⟩ := p
  rw [Parts.text]
  cases fraction with
  | nil => simpa [withPoint] using startsDigit_wholeDigits hp.whole (exponentText exponent ++ rest)
  | cons c cs =>
    simpa [withPoint] using
      startsDigit_wholeDigits hp.whole ('.' :: c :: cs ++ exponentText exponent ++ rest)

/-- The parts that a double is set out in. -/
theorem exists_setOut_json {x : Float} {v : Exact} (hk : kindOf x = .finite v) :
    ∃ p, SetOut jsonLayout v.decimal (v.decimal.layOut jsonLayout) p :=
  exists_setOut jsonLayout (exponent_eq_zero_of_digits hk) (by decide)

/-- **A double is read back.** -/
theorem wordOrNumber_chars {x : Float} (hx : x.isNaN = false) :
    wordOrNumber (Number.chars jsonLayout x) = .ok (.real x, []) := by
  rw [Number.chars]
  cases hk : kindOf x with
  | nan => exact absurd hk (kindOf_ne_nan hx)
  | infinite negative =>
    rw [eq_infinity hk]
    cases negative <;> rfl
  | finite v =>
    obtain ⟨p, htext, hp, hvalue, hreal, -⟩ := exists_setOut_json hk
    have hstart := startsDigit_text hp []
    rw [List.append_nil] at hstart
    have hback := ofDecimal_of_kindOf (d := p.decimal.digits) (e := p.decimal.exponent) hk hvalue
    simp only
    split
    · rename_i hnegative
      rw [if_pos hnegative] at hback
      rw [htext, (wordOrNumber_of_startsDigit hstart).2, number,
        magnitude_text hp (hreal rfl) _ true, if_pos rfl, hback]
    · rename_i hnegative
      rw [if_neg hnegative] at hback
      rw [htext, (wordOrNumber_of_startsDigit hstart).1, number_of_startsDigit hstart,
        magnitude_text hp (hreal rfl) _ false, if_neg (by decide), hback]

/-! ### The characters of words and numbers -/

/-- There are only characters that words and numbers are made of. -/
def AtomChars (cs : List Char) : Prop := ∀ c ∈ cs, isAtomChar c = true

instance (cs : List Char) : Decidable (AtomChars cs) :=
  decidable_of_iff (cs.all isAtomChar = true) (by simp [AtomChars])

namespace AtomChars

variable {cs ds : List Char} {c : Char}

theorem cons (hc : isAtomChar c = true) (h : AtomChars cs) : AtomChars (c :: cs) :=
  List.forall_mem_cons.2 ⟨hc, h⟩

theorem append (hc : AtomChars cs) (hd : AtomChars ds) : AtomChars (cs ++ ds) :=
  List.forall_mem_append.2 ⟨hc, hd⟩

theorem digits (h : AllDigits cs) : AtomChars cs := fun c hc => by
  simp [isAtomChar, Char.isAlphanum, h c hc]

end AtomChars

theorem atomChars_intText (n : Int) : AtomChars (intText n).toList := by
  have hdigits := AtomChars.digits (.digitChars n.natAbs)
  rw [intText]
  split
  · rw [String.toList_ofList]
    exact hdigits.cons (by decide)
  · rwa [String.toList_ofList]

theorem atomChars_exponentText (e : Option Int) : AtomChars (exponentText e) := by
  cases e with
  | none => nofun
  | some e =>
    have hdigits : AllDigits (List.replicate (2 - (digitChars e.natAbs).length) '0' ++
        digitChars e.natAbs) := (AllDigits.zeros _).append (.digitChars _)
    rw [exponentText, exponentChars]
    split <;> exact .cons (by decide) (.cons (by decide) (.digits hdigits))

theorem atomChars_number (x : Float) : AtomChars (Number.chars jsonLayout x) := by
  rw [Number.chars]
  cases hk : kindOf x with
  | nan => decide
  | infinite negative => cases negative <;> decide
  | finite v =>
    obtain ⟨p, htext, hp, -⟩ := exists_setOut_json hk
    have hpoint : AtomChars (withPoint p.whole p.fraction false) := by
      have hwhole := AtomChars.digits hp.whole.digits
      cases hfraction : p.fraction with
      | nil => exact hwhole
      | cons c cs =>
        exact hwhole.append (.cons (by decide) (hfraction ▸ .digits hp.fraction))
    have hdecimal : AtomChars (v.decimal.layOut jsonLayout) := by
      rw [htext]
      exact hpoint.append (atomChars_exponentText p.exponent)
    simp only
    split
    · exact hdecimal.cons (by decide)
    · exact hdecimal

/-! ### Numbers in a text -/

/-- What follows a value in a text that is written: the end of the text, or the sign behind an item
or behind the last one. -/
inductive Delimited : CodePoints → Prop
  | nil : Delimited []
  | comma (rest : CodePoints) : Delimited (.char ',' :: rest)
  | bracket (rest : CodePoints) : Delimited (.char ']' :: rest)
  | brace (rest : CodePoints) : Delimited (.char '\x7d' :: rest)

theorem atomFront_append {cs : List Char} (hcs : AtomChars cs) {rest : CodePoints}
    (hr : Delimited rest) : atomFront (cs.map .char ++ rest) = (cs, rest) := by
  induction cs with
  | nil => cases hr <;> rfl
  | cons c cs ih =>
    obtain ⟨hc, hcs⟩ := List.forall_mem_cons.1 hcs
    rw [List.map_cons, List.cons_append, atomFront, if_pos hc, ih hcs]

/-- What is read as a word or a number when it stands alone is read so in a text. -/
theorem atom_of_wordOrNumber {cs : List Char} {v : Json CodePoints} (hcs : AtomChars cs)
    (h : wordOrNumber cs = .ok (v, [])) {rest : CodePoints} (hr : Delimited rest) :
    atom (cs.map .char ++ rest) = .ok (v, rest) := by
  rw [atom, atomFront_append hcs hr]
  simp only [h]
  rfl

end Reader

end BarScript.Json
