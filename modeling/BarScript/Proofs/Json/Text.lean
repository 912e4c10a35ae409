import BarScript.Json.Reader
import BarScript.Json.Writer
import BarScript.Proofs.Text.CodePoint
import BarScript.Proofs.Text.Digit
import Mathlib.Data.List.Induction

/-!
# Texts in JSON text

What is written for a character, itself or an escape, is read as the character, whichever characters
are written as escapes (`stringBody_escapeChar`).  So a string is read back from what stands between
its quotes (`string_escapeText`).

What is written for a surrogate is read as the surrogate, unless it is a high one and a low one
follows; the escapes of the two are those of a character (`unitPoint_pair`).  So a text of code
points is read back from what stands between its quotes with its pairs of surrogates put together
(`string_escapePoints`).
-/

namespace BarScript.Json.Reader

open Text

/-! ### Units -/

/-- A unit is read back; something has to follow it. -/
theorem unit?_hexChars {n : Nat} (hn : n < 0x10000) {rest : CodePoints} (hr : rest ≠ []) :
    unit? ((hexChars 4 n).map .char ++ rest) = some (n, rest) := by
  obtain ⟨p, ps, rfl⟩ := List.exists_cons_of_ne_nil hr
  rw [hexChars_four hn]
  simp only [List.map_cons, List.map_nil, List.cons_append, List.nil_append, unit?]
  rw [hexDigit?_digitChar (by omega), hexDigit?_digitChar (by omega),
    hexDigit?_digitChar (by omega), hexDigit?_digitChar (by omega)]
  simp only [Option.bind_eq_bind, Option.bind_some, Option.pure_def]
  have hvalue :
      ((n / 16 / 16 / 16 * 16 + n / 16 / 16 % 16) * 16 + n / 16 % 16) * 16 + n % 16 = n := by omega
  rw [hvalue]

theorem length_hexChars {n : Nat} (hn : n < 0x10000) : (hexChars 4 n).length = 4 := by
  rw [hexChars_four hn]
  rfl

theorem escape_hexChars {n : Nat} (hn : n < 0x10000) {rest : CodePoints} (hr : rest ≠ [])
    (start : CodePoints) :
    escape start (.char 'u' :: ((hexChars 4 n).map .char ++ rest)) = unitPoint n rest := by
  rw [escape, unit?_hexChars hn hr]

theorem unitPoint_of_not_high {unit : Nat} (h : unit < 0xD800 ∨ 0xDC00 ≤ unit)
    (rest : CodePoints) : unitPoint unit rest = .ok (.ofUnit unit, rest) := by
  unfold unitPoint
  rw [if_neg (by omega)]

theorem unitPoint_of_no_escape (unit : Nat) {rest : CodePoints}
    (h : ∀ digits, rest ≠ .char '\\' :: .char 'u' :: digits) :
    unitPoint unit rest = .ok (.ofUnit unit, rest) := by
  unfold unitPoint
  split
  · split
    · exact absurd rfl (h _)
    · rfl
  · rfl

/-- What is done with an escape behind that of a high surrogate. -/
theorem unitPoint_unitEscape {high low : Nat} (hhigh : 0xD800 ≤ high ∧ high < 0xDC00)
    (hlow : low < 0x10000) {rest : CodePoints} (hr : rest ≠ []) :
    unitPoint high ((unitEscape low).map .char ++ rest) =
      match (CodePoint.ofUnit high).pair? (.ofUnit low) with
      | some c => .ok (.char c, rest)
      | none => .ok (.ofUnit high, (unitEscape low).map .char ++ rest) := by
  have hlength : ¬((hexChars 4 low).map CodePoint.char ++ rest).length < 5 := by
    rw [List.length_append, List.length_map, length_hexChars hlow]
    have := List.length_pos_iff.2 hr
    omega
  unfold unitPoint
  rw [if_pos hhigh]
  simp only [unitEscape, List.map_cons, List.cons_append]
  cases h : (CodePoint.ofUnit high).pair? (.ofUnit low) with
  | none => simp only [if_neg hlength, unit?_hexChars hlow hr, h]
  | some c => simp only [if_neg hlength, unit?_hexChars hlow hr, h]

/-- **Two surrogates are one character.** -/
theorem unitPoint_pair {high low : Nat} (hhigh : 0xD800 ≤ high ∧ high < 0xDC00)
    (hlow : 0xDC00 ≤ low ∧ low < 0xE000) {rest : CodePoints} (hr : rest ≠ []) :
    unitPoint high ((unitEscape low).map .char ++ rest) =
      .ok (.char (Char.ofNat (0x10000 + (high - 0xD800) * 0x400 + (low - 0xDC00))), rest) := by
  rw [unitPoint_unitEscape hhigh (by omega) hr, CodePoint.pair?_ofUnit hhigh hlow]

/-- A character is no surrogate. -/
theorem toNat_cases (c : Char) : c.toNat < 0xD800 ∨ 0xE000 ≤ c.toNat ∧ c.toNat < 0x110000 := by
  rcases c.valid with h | ⟨h₁, h₂⟩
  · exact .inl h
  · exact .inr ⟨h₁, h₂⟩

/-- **The escape of a character is read as the character.** -/
theorem exists_unicodeEscape (c : Char) {rest : CodePoints} (hr : rest ≠ []) :
    ∃ ps, (unicodeEscape c).map .char ++ rest = .char '\\' :: ps ∧ ps ≠ [] ∧
      ∀ start, escape start ps = .ok (.char c, rest) := by
  have hvalid := toNat_cases c
  rw [unicodeEscape]
  split
  · rename_i hn
    refine ⟨.char 'u' :: ((hexChars 4 c.toNat).map .char ++ rest), rfl, nofun, fun start => ?_⟩
    rw [escape_hexChars hn hr, unitPoint_of_not_high (by omega),
      CodePoint.ofUnit_of_not_surrogate (by omega), Char.ofNat_toNat]
  · -- a pair of surrogates
    rename_i hn
    obtain ⟨high, hh⟩ : ∃ high, high = 0xD800 + (c.toNat - 0x10000) / 0x400 := ⟨_, rfl⟩
    obtain ⟨low, hl⟩ : ∃ low, low = 0xDC00 + (c.toNat - 0x10000) % 0x400 := ⟨_, rfl⟩
    have hchar : 0x10000 + (high - 0xD800) * 0x400 + (low - 0xDC00) = c.toNat := by omega
    rw [← hh, ← hl, unitEscape, List.map_append, List.append_assoc]
    refine ⟨.char 'u' :: ((hexChars 4 high).map .char ++ ((unitEscape low).map .char ++ rest)), rfl,
      nofun, fun start => ?_⟩
    rw [escape_hexChars (by omega) (by simp [unitEscape]), unitPoint_pair (by omega) (by omega) hr,
      hchar, Char.ofNat_toNat]

/-! ### Strings -/

theorem stringBody_escape {start done ps rest : CodePoints} {fuel : Nat} {p : CodePoint}
    (hne : ps ≠ []) (h : ∀ start, escape start ps = .ok (p, rest)) :
    stringBody start (fuel + 1) done (.char '\\' :: ps) =
      stringBody start fuel (p :: done) rest := by
  obtain ⟨q, qs, rfl⟩ := List.exists_cons_of_ne_nil hne
  rw [stringBody, h]
  nofun

theorem escape_simple {c d : Char} (hd : simpleEscape? d = some c) (hu : d ≠ 'u')
    (rest start : CodePoints) : escape start (.char d :: rest) = .ok (.char c, rest) := by
  rw [escape, hd]
  exact hu

/-- What is written for a character: an escape with one letter, one with digits, or the character
itself. -/
theorem escapeChar_cases (charset : Charset) (c : Char) :
    (∃ d, escapeChar charset c = ['\\', d] ∧ simpleEscape? d = some c ∧ d ≠ 'u') ∨
      escapeChar charset c = unicodeEscape c ∨
      escapeChar charset c = [c] ∧ c ≠ '"' ∧ c ≠ '\\' ∧ ¬c.toNat < 0x20 := by
  rw [escapeChar]
  by_cases h₁ : c = '"'
  · exact .inl ⟨'"', if_pos h₁, congrArg some h₁.symm, by decide⟩
  rw [if_neg h₁]
  by_cases h₂ : c = '\\'
  · exact .inl ⟨'\\', if_pos h₂, congrArg some h₂.symm, by decide⟩
  rw [if_neg h₂]
  by_cases h₃ : c = '\n'
  · exact .inl ⟨'n', if_pos h₃, congrArg some h₃.symm, by decide⟩
  rw [if_neg h₃]
  by_cases h₄ : c = '\r'
  · exact .inl ⟨'r', if_pos h₄, congrArg some h₄.symm, by decide⟩
  rw [if_neg h₄]
  by_cases h₅ : c = '\t'
  · exact .inl ⟨'t', if_pos h₅, congrArg some h₅.symm, by decide⟩
  rw [if_neg h₅]
  by_cases h₆ : c = '\x08'
  · exact .inl ⟨'b', if_pos h₆, congrArg some h₆.symm, by decide⟩
  rw [if_neg h₆]
  by_cases h₇ : c = '\x0c'
  · exact .inl ⟨'f', if_pos h₇, congrArg some h₇.symm, by decide⟩
  rw [if_neg h₇]
  by_cases h₈ : c.toNat < 0x20
  · exact .inr (.inl (if_pos h₈))
  rw [if_neg h₈]
  by_cases h₉ : charset = .ascii ∧ 0x7E < c.toNat
  · exact .inr (.inl (if_pos h₉))
  · exact .inr (.inr ⟨if_neg h₉, h₁, h₂, h₈⟩)

/-- **What is written for a character is read as the character.** -/
theorem stringBody_escapeChar (charset : Charset) (c : Char) {start done rest : CodePoints}
    {fuel : Nat} (hr : rest ≠ []) :
    stringBody start (fuel + 1) done ((escapeChar charset c).map .char ++ rest) =
      stringBody start fuel (.char c :: done) rest := by
  rcases escapeChar_cases charset c with
    ⟨d, hd, hsimple, hu⟩ | hunicode | ⟨hself, hquote, hback, hlow⟩
  · rw [hd]
    exact stringBody_escape (List.cons_ne_nil _ rest) (escape_simple hsimple hu rest)
  · obtain ⟨ps, hps, hne, hescape⟩ := exists_unicodeEscape c hr
    rw [hunicode, hps, stringBody_escape hne hescape]
  · rw [hself, List.map_singleton, List.singleton_append, stringBody]
    · rw [if_neg hlow]
    · exact hquote
    · exact fun _ h => hback h
    · exact hback

theorem stringBody_flatMap (charset : Charset) (cs : List Char) {start done rest : CodePoints}
    {fuel : Nat} (hfuel : cs.length < fuel) :
    stringBody start fuel done
      ((cs.flatMap (escapeChar charset)).map .char ++ .char '"' :: rest) =
      .ok (done.reverse ++ cs.map .char, rest) := by
  induction cs generalizing done fuel with
  | nil =>
    obtain ⟨fuel, rfl⟩ := Nat.exists_eq_succ_of_ne_zero (Nat.ne_of_gt hfuel)
    simp [stringBody]
  | cons c cs ih =>
    obtain ⟨fuel, rfl⟩ := Nat.exists_eq_succ_of_ne_zero (Nat.ne_of_gt (Nat.zero_lt_of_lt hfuel))
    rw [List.flatMap_cons, List.map_append, List.append_assoc,
      stringBody_escapeChar charset c (by simp), ih (Nat.lt_of_succ_lt_succ hfuel)]
    simp

theorem unicodeEscape_ne_nil (c : Char) : unicodeEscape c ≠ [] := by
  rw [unicodeEscape]
  split
  · exact List.cons_ne_nil _ _
  · exact List.append_ne_nil_of_left_ne_nil (List.cons_ne_nil _ _) _

theorem escapeChar_ne_nil (charset : Charset) (c : Char) : escapeChar charset c ≠ [] := by
  rcases escapeChar_cases charset c with ⟨d, hd, -⟩ | hunicode | ⟨hself, -⟩
  · rw [hd]
    exact List.cons_ne_nil _ _
  · rw [hunicode]
    exact unicodeEscape_ne_nil c
  · rw [hself]
    exact List.cons_ne_nil _ _

/-- Something is written for everything in a text. -/
theorem length_le_flatMap {α : Type} {escape : α → List Char} (h : ∀ a, escape a ≠ [])
    (as : List α) : as.length ≤ (as.flatMap escape).length := by
  induction as with
  | nil => simp
  | cons a as ih =>
    have := List.length_pos_iff.2 (h a)
    rw [List.flatMap_cons, List.length_append, List.length_cons]
    omega

/-- **A string is read back from what stands between its quotes.** -/
theorem string_escapeText (charset : Charset) (s : String) (rest : CodePoints) :
    string ((escapeText charset s).map .char ++ .char '"' :: rest) = .ok (points s, rest) := by
  have hlength := length_le_flatMap (escapeChar_ne_nil charset) s.toList
  have hfuel : s.toList.length <
      ((escapeText charset s).map CodePoint.char ++ .char '"' :: rest).length + 1 := by
    rw [List.length_append, List.length_map, escapeText]
    omega
  exact stringBody_flatMap charset s.toList hfuel

/-! ### Code points -/

/-- The unit that the escape of a code point begins with. -/
def firstUnit : CodePoint → Nat
  | .char c => if c.toNat < 0x10000 then c.toNat else 0xD800 + (c.toNat - 0x10000) / 0x400
  | .surrogate place => 0xD800 + place.val

/-- A code point that is no second of a pair does not begin with the unit of one. -/
theorem pair?_firstUnit {p q : CodePoint} (h : p.pair? q = none) :
    p.pair? (.ofUnit (firstUnit q)) = none := by
  cases q with
  | char c =>
    have hvalid := toNat_cases c
    simp only [firstUnit]
    split
    · rw [CodePoint.ofUnit_of_not_surrogate (by omega), CodePoint.pair?_char_right]
    · -- a high surrogate
      cases p with
      | char _ => rfl
      | surrogate _ =>
        rw [CodePoint.ofUnit_of_surrogate (by omega) (by omega)]
        exact if_neg (by simp only; omega)
  | surrogate place => rwa [firstUnit, CodePoint.ofUnit_place]

/-- What is written for a code point begins with no escape of a unit, or with that of its first
one. -/
theorem escapePoint_cases (q : CodePoint) :
    (∃ c cs, escapePoint q = c :: cs ∧ c ≠ '\\') ∨
      (∃ d, escapePoint q = ['\\', d] ∧ d ≠ 'u') ∨
      ∃ cs, escapePoint q = unitEscape (firstUnit q) ++ cs := by
  cases q with
  | char c =>
    rcases escapeChar_cases .ascii c with ⟨d, hd, -, hu⟩ | hunicode | ⟨hself, -, hback, -⟩
    · exact .inr (.inl ⟨d, hd, hu⟩)
    · refine .inr (.inr ?_)
      simp only [escapePoint, hunicode, unicodeEscape, firstUnit]
      split
      · exact ⟨[], (List.append_nil _).symm⟩
      · exact ⟨_, rfl⟩
    · exact .inl ⟨c, [], hself, hback⟩
  | surrogate place => exact .inr (.inr ⟨[], (List.append_nil _).symm⟩)

theorem escapePoint_ne_nil (q : CodePoint) : escapePoint q ≠ [] := by
  cases q with
  | char c => exact escapeChar_ne_nil .ascii c
  | surrogate place => exact List.cons_ne_nil _ _

/-- **A surrogate is read as itself** in front of what makes no pair with it. -/
theorem unitPoint_place {place : Fin 0x800} {ps : CodePoints}
    (h : ∀ q ∈ ps.head?, (CodePoint.surrogate place).pair? q = none) (rest : CodePoints) :
    unitPoint (0xD800 + place.val) ((escapePoints ps).map .char ++ .char '"' :: rest) =
      .ok (.surrogate place, (escapePoints ps).map .char ++ .char '"' :: rest) := by
  have hplace := place.isLt
  rw [← CodePoint.ofUnit_place place] at h ⊢
  by_cases hhigh : 0xD800 ≤ 0xD800 + place.val ∧ 0xD800 + place.val < 0xDC00
  swap
  · exact unitPoint_of_not_high (by omega) _
  cases ps with
  | nil => exact unitPoint_of_no_escape _ (by simp [escapePoints])
  | cons q ps =>
    rw [escapePoints, List.flatMap_cons]
    obtain ⟨c, cs, hq, hc⟩ | ⟨d, hq, hd⟩ | ⟨cs, hq⟩ := escapePoint_cases q
    · exact unitPoint_of_no_escape _ (by simp [hq, hc])
    · exact unitPoint_of_no_escape _ (by simp [hq, hd])
    · have hpair := pair?_firstUnit (h q rfl)
      have hunit : firstUnit q < 0x10000 := by
        cases q with
        | char c =>
          have := toNat_cases c
          simp only [firstUnit]
          split <;> omega
        | surrogate place => simp only [firstUnit]; omega
      rw [hq, List.append_assoc, List.map_append, List.append_assoc,
        unitPoint_unitEscape hhigh hunit (by simp), hpair]

theorem map_escapePoints_cons (p : CodePoint) (ps rest : CodePoints) :
    (escapePoints (p :: ps)).map .char ++ rest =
      (escapePoint p).map .char ++ ((escapePoints ps).map .char ++ rest) := by
  simp [escapePoints]

theorem stringBody_unpaired {p : CodePoint} {ps : CodePoints}
    (h : ∀ q ∈ ps.head?, p.pair? q = none) {start done rest : CodePoints} {fuel : Nat} :
    stringBody start (fuel + 1) done ((escapePoints (p :: ps)).map .char ++ .char '"' :: rest) =
      stringBody start fuel (p :: done) ((escapePoints ps).map .char ++ .char '"' :: rest) := by
  rw [map_escapePoints_cons]
  cases p with
  | char c => exact stringBody_escapeChar .ascii c (by simp)
  | surrogate place =>
    have hunit : 0xD800 + place.val < 0x10000 := by omega
    refine stringBody_escape (List.cons_ne_nil _ _) fun start => ?_
    exact (escape_hexChars hunit (by simp) start).trans (unitPoint_place h rest)

theorem stringBody_pair {p q : CodePoint} {c : Char} (h : p.pair? q = some c) (ps : CodePoints)
    {start done rest : CodePoints} {fuel : Nat} :
    stringBody start (fuel + 1) done
        ((escapePoints (p :: q :: ps)).map .char ++ .char '"' :: rest) =
      stringBody start fuel (.char c :: done)
        ((escapePoints ps).map .char ++ .char '"' :: rest) := by
  rw [map_escapePoints_cons, map_escapePoints_cons]
  obtain ⟨high, low, rfl, rfl, hhigh⟩ := CodePoint.exists_of_pair? h
  have hlow := low.isLt
  refine stringBody_escape (List.cons_ne_nil _ _) fun start => ?_
  refine (escape_hexChars (by omega) (by simp) start).trans ?_
  rw [escapePoint, unitPoint_unitEscape (by omega) (by omega) (by simp), CodePoint.ofUnit_place,
    CodePoint.ofUnit_place, h]

/-- **A text of code points is read with its pairs put together.** -/
theorem stringBody_escapePoints (ps : CodePoints) {start done rest : CodePoints} {fuel : Nat}
    (hfuel : ps.length < fuel) :
    stringBody start fuel done ((escapePoints ps).map .char ++ .char '"' :: rest) =
      .ok (done.reverse ++ join ps, rest) := by
  induction ps using List.twoStepInduction generalizing done fuel with
  | nil =>
    obtain ⟨fuel, rfl⟩ := Nat.exists_eq_succ_of_ne_zero (Nat.ne_of_gt hfuel)
    simp [escapePoints, stringBody, join]
  | singleton p =>
    obtain ⟨fuel, rfl⟩ : ∃ k, fuel = k + 1 + 1 := Nat.exists_eq_add_of_le' hfuel
    have hlast : ∀ q ∈ ([] : CodePoints).head?, p.pair? q = none := by simp
    rw [stringBody_unpaired hlast]
    simp [escapePoints, stringBody, join, attach]
  | cons_cons p q ps ih ih' =>
    obtain ⟨fuel, rfl⟩ := Nat.exists_eq_succ_of_ne_zero (Nat.ne_of_gt (Nat.zero_lt_of_lt hfuel))
    have hfuel := Nat.lt_of_succ_lt_succ hfuel
    cases hpair : p.pair? q with
    | none =>
      have hunpaired : ∀ r ∈ (q :: ps).head?, p.pair? r = none := by
        rintro r ⟨⟩
        exact hpair
      rw [stringBody_unpaired hunpaired, ih' q hfuel, join_cons_of_unpaired hunpaired]
      simp
    | some c =>
      rw [stringBody_pair hpair, ih (Nat.lt_of_succ_lt hfuel), join_cons_pair hpair]
      simp

/-- **A text is read back from what stands between its quotes**, with its pairs put together. -/
theorem string_escapePoints (ps rest : CodePoints) :
    string ((escapePoints ps).map .char ++ .char '"' :: rest) = .ok (join ps, rest) := by
  have hlength := length_le_flatMap escapePoint_ne_nil ps
  have hfuel :
      ps.length < ((escapePoints ps).map CodePoint.char ++ .char '"' :: rest).length + 1 := by
    rw [List.length_append, List.length_map, escapePoints]
    omega
  exact stringBody_escapePoints ps hfuel

end BarScript.Json.Reader
