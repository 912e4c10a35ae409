import BarScript.Proofs.Number.Literal
import BarScript.Proofs.Token.Place

/-!
# A number or a word in its place

A number or a word is one lexeme wherever it stands, if no character behind it goes on with it
(`IsToken`, `Stops`), and a text is made of the same lexemes in front of it as alone, if it does not
end in a number or a word itself (`Lexed.append_cons`).  So a text with places for numbers or words
is made of the same lexemes whatever stands there.
-/

namespace BarScript

open Token Lexeme

/-! ### What stands behind a number or a word -/

/-- A character that neither goes on with a word nor with a number. -/
structure EndsWord (c : Char) : Prop where
  not_word : continuesWord c = false
  not_digit : Text.isDigit c = false
  not_point : c ≠ '.'

instance (c : Char) : Decidable (EndsWord c) :=
  decidable_of_iff (continuesWord c = false ∧ Text.isDigit c = false ∧ c ≠ '.')
    ⟨fun h => ⟨h.1, h.2.1, h.2.2⟩, fun h => ⟨h.not_word, h.not_digit, h.not_point⟩⟩

/-- A text goes on with no word and no number in front of it. -/
def Stops (cs : List Char) : Prop := ∀ c ∈ cs.head?, EndsWord c

/-- A text is one token of the kind, whatever stops it. -/
structure IsToken (k : TokenKind) (cs : List Char) : Prop where
  starts : ∃ c ds, cs = c :: ds ∧ continuesWord c = true
  next : ∀ rest, Stops rest → next? (cs ++ rest) = some ⟨.token k, cs, rest⟩

theorem IsToken.lexed {k : TokenKind} {cs rest : List Char} {ls : List (LexemeKind × List Char)}
    (h : IsToken k cs) (hstops : Stops rest) (hrest : Lexed rest ls) :
    Lexed (cs ++ rest) ((.token k, cs) :: ls) :=
  .cons (l := ⟨.token k, cs, rest⟩) (h.next rest hstops) hrest

/-- The characters of words are neither white space nor part of an operator or a bracket. -/
theorem continuesWord_cases {c : Char} (h : continuesWord c = true) :
    isSpace c = false ∧ c ≠ '\n' ∧ c ≠ '/' ∧ ∀ s ∈ symbols, c ∉ s.1 := by
  have hne : ∀ d, continuesWord d = false → c ≠ d := by
    rintro d hd rfl
    rw [hd] at h
    cases h
  have hsymbols : ∀ s ∈ symbols, s.1.all (fun d => !continuesWord d) = true := by decide +kernel
  refine ⟨?_, hne _ (by decide), hne _ (by decide), fun s hs hc => ?_⟩
  · simp [isSpace, hne ' ' (by decide), hne '\t' (by decide), hne '\r' (by decide)]
  · have := List.all_eq_true.1 (hsymbols s hs) c hc
    rw [h] at this
    cases this

theorem next?_of_continuesWord {c : Char} (h : continuesWord c = true) (rest : List Char) :
    next? (c :: rest) = token? (c :: rest) := by
  obtain ⟨hspace, hline, hslash, -⟩ := continuesWord_cases h
  exact next?_of_token hspace hline fun heq => absurd heq hslash

theorem span_of_stops (kind : LexemeKind) {p : Char → Bool} {cs rest : List Char}
    (hcs : ∀ c ∈ cs, p c = true) (hrest : ∀ c ∈ rest.head?, p c = false) :
    span kind p (cs ++ rest) = ⟨kind, cs, rest⟩ := by
  rw [span, List.takeWhile_append_of_pos hcs, List.dropWhile_append_of_pos hcs]
  cases rest with
  | nil => simp
  | cons c rest => simp [hrest c rfl]

/-- No number and no text starts with the first character of a word. -/
theorem startsWord_cases {c : Char} (h : startsWord c = true) :
    Text.isDigit c = false ∧ c ≠ '.' ∧ c ≠ '"' ∧ c ≠ '\'' := by
  have hne : ∀ d, startsWord d = false → c ≠ d := by
    rintro d hd rfl
    rw [hd] at h
    cases h
  refine ⟨?_, hne _ (by decide), hne _ (by decide), hne _ (by decide)⟩
  have hrange : c.toNat < 128 ∧ 57 < c.toNat := by
    simp only [startsWord, Bool.or_eq_true, Bool.and_eq_true, decide_eq_true_eq, beq_iff_eq] at h
    rcases h with (⟨hlow, hhigh⟩ | ⟨hlow, hhigh⟩) | rfl
    · have hlow : 97 ≤ c.toNat := hlow
      have hhigh : c.toNat ≤ 122 := hhigh
      omega
    · have hlow : 65 ≤ c.toNat := hlow
      have hhigh : c.toNat ≤ 90 := hhigh
      omega
    · decide
  have hdigit : ¬ ('0' ≤ c ∧ c ≤ '9') := fun hc => Nat.not_le.2 hrange.2 hc.2
  rw [Text.isDigit, Text.digitValue?, if_pos hrange.1, if_neg hdigit]
  rfl

theorem isToken_word {cs : List Char} (hstart : ∃ c ds, cs = c :: ds ∧ startsWord c = true)
    (hword : ∀ c ∈ cs, continuesWord c = true) : IsToken .word cs := by
  obtain ⟨c, ds, rfl, hc⟩ := hstart
  obtain ⟨hdigit, hpoint, hdouble, hsingle⟩ := startsWord_cases hc
  have hcontinues : continuesWord c = true := hword c List.mem_cons_self
  refine ⟨⟨c, ds, rfl, hcontinues⟩, fun rest hstops => ?_⟩
  have hspan := span_of_stops (.token .word) hword fun d hd => (hstops d hd).not_word
  have hnumber : number? (c :: (ds ++ rest)) = none := number?_append hdigit hpoint [] (ds ++ rest)
  rw [List.cons_append] at hspan ⊢
  rw [next?_of_continuesWord hcontinues, token?, hnumber, if_neg (not_or.2 ⟨hdouble, hsingle⟩),
    if_pos hc, hspan]
  rfl

theorem number?_text {p : Number.Parts} (hp : p.Proper) (hexp : p.exponent = none)
    {rest : List Char} (hstops : Stops rest) :
    number? (p.text ++ rest) = some ⟨.token .number, p.text, rest⟩ := by
  obtain ⟨whole, fraction, exponent⟩ := p
  obtain ⟨hw, hf⟩ := hp
  cases hexp
  have hdigits : ∀ {cs}, Text.AllDigits cs → ∀ c ∈ cs, Text.isDigit c = true := fun h c hc => by
    rw [Text.isDigit, Text.digitValue?_of_isDigit (h c hc)]
    rfl
  have hne : whole.isEmpty = false := List.isEmpty_eq_false_iff.2 hw.nonempty
  have hrest := fun c hc => (hstops c hc).not_digit
  cases fraction with
  | nil =>
    have htext : Number.Parts.text ⟨whole, [], none⟩ = whole := List.append_nil _
    have hspan := span_of_stops (.token .number) (hdigits hw.digits) hrest
    simp only [htext, number?, hspan]
    cases rest with
    | nil => simp [hne]
    | cons c rest =>
      have hpoint : c ≠ '.' := (hstops c rfl).not_point
      simp [hne, hpoint]
  | cons c cs =>
    have htext : Number.Parts.text ⟨whole, c :: cs, none⟩ = whole ++ '.' :: c :: cs :=
      List.append_nil _
    have hpoint : ∀ d ∈ ('.' :: (c :: cs ++ rest)).head?, Text.isDigit d = false := by
      rintro d ⟨⟩
      rfl
    have hspan := span_of_stops (.token .number) (hdigits hw.digits) hpoint
    have hspan' := span_of_stops (.token .number) (hdigits hf) hrest
    rw [List.cons_append] at hspan hspan'
    rw [htext, List.append_assoc, List.cons_append, List.cons_append]
    simp only [number?, hspan, hspan']
    simp [after]

theorem isToken_number {p : Number.Parts} (hp : p.Proper) (hexp : p.exponent = none) :
    IsToken .number p.text := by
  obtain ⟨c, ds, hcs, hc⟩ := Numeral.exists_text_eq_cons hp
  have hcontinues : continuesWord c = true := by
    rw [continuesWord, Char.isDigit] at *
    exact Bool.or_eq_true_iff.2 (.inr hc)
  refine ⟨⟨c, ds, hcs, hcontinues⟩, fun rest hstops => ?_⟩
  have hnumber := number?_text hp hexp hstops
  rw [hcs, List.cons_append] at hnumber ⊢
  rw [next?_of_continuesWord hcontinues, token?, hnumber]
  rfl

theorem IsToken.scan_eq {k : TokenKind} {text : String} (h : IsToken k text.toList) :
    scan text = .ok [⟨k, text, 0⟩] := by
  have hnext := h.next [] (by simp [Stops])
  obtain ⟨c, ds, hcs, -⟩ := h.starts
  rw [List.append_nil, hcs] at hnext
  have hlength : text.length = ds.length + 1 := by
    rw [← String.length_toList, hcs, List.length_cons]
  rw [scan, hlength, hcs, scanFrom, hnext, ← hcs]
  simp [scanFrom]

/-- A positive double is written as one number. -/
theorem isToken_scriptText {x : Float} (hx : Number.IsPositive x) :
    IsToken .number (Number.scriptText x).toList := by
  obtain ⟨p, htext, hp, hexp, -⟩ := Number.exists_scriptParts hx
  exact htext ▸ isToken_number hp hexp

/-! ### Texts behind one another -/

section

variable {c d : Char} {cs ds : List Char} {ls ls' : List (LexemeKind × List Char)}

/-- What ends in front of a character stays the same with more text behind the character. -/
theorem append_of_cons {f : List Char → Option Lexeme} {front : List Char}
    (h : ∀ more, f (front ++ c :: more) = (f front).map (before (c :: more))) (ds : List Char) :
    f (front ++ [c] ++ ds) = (f (front ++ [c])).map (before ds) := by
  rw [List.append_assoc, List.singleton_append, h, h, Option.map_map]
  congr 1
  funext l
  simp [before]

/-- A token that is no text between quotes is the same in front of a number or a word, if the text
does not end in one. -/
theorem token?_append_cons {l : Lexeme} (h : token? cs = some l) (hkind : l.kind ≠ .token .text)
    (hends : ∀ c ∈ cs.getLast?, EndsWord c) (hd : ∀ s ∈ symbols, d ∉ s.1) (ds : List Char) :
    token? (cs ++ d :: ds) = some (l.before (d :: ds)) := by
  obtain ⟨x, rest, rfl⟩ : ∃ x rest, cs = x :: rest := by
    cases cs with
    | nil => cases h
    | cons x rest => exact ⟨x, rest, rfl⟩
  obtain ⟨front, c, hfront⟩ : ∃ front c, x :: rest = front ++ [c] :=
    ⟨_, _, (List.dropLast_append_getLast (List.cons_ne_nil x rest)).symm⟩
  have hc : EndsWord c := hends c (by rw [hfront, List.getLast?_concat]; rfl)
  have hnumber := append_of_cons (number?_append hc.not_digit hc.not_point front) (d :: ds)
  have hword := append_of_cons (f := fun cs => some (span (.token .word) continuesWord cs))
    (fun more => congrArg some (span_append (.token .word) hc.not_word front more)) (d :: ds)
  have hsymbol := symbol?_append hd (x :: rest) ds
  rw [← hfront] at hnumber hword
  rw [List.cons_append] at hnumber hword hsymbol
  rw [List.cons_append, token?, hnumber]
  rcases Option.or_eq_some_iff.1 h with hl | ⟨hnone, hl⟩
  · rw [hl]
    rfl
  · rw [hnone, Option.map_none, Option.none_or]
    split at hl
    · -- a text between quotes
      exact absurd (kind_of_quoted? hl) hkind
    · rw [if_neg ‹_›]
      split at hl
      · rw [if_pos ‹_›, hword, hl]
        rfl
      · rw [if_neg ‹_›, hsymbol, hl]
        rfl

/-- A lexeme that is no text between quotes is the same in front of a number or a word, if the text
does not end in one. -/
theorem next?_append_cons {l : Lexeme} (h : next? cs = some l)
    (hkind : l.kind ≠ .comment ∧ l.kind ≠ .token .text)
    (hends : ∀ c ∈ cs.getLast?, EndsWord c) (hd : continuesWord d = true) (ds : List Char) :
    next? (cs ++ d :: ds) = some (l.before (d :: ds)) := by
  obtain ⟨hspace, hline, hslash, hsymbols⟩ := continuesWord_cases hd
  have hfront := front_next? cs
  rw [h] at hfront
  generalize hl : some l = l' at hfront
  cases hfront with
  | nil => cases hl
  | comment rest =>
    cases hl
    exact absurd rfl hkind.1
  | lineEnd rest =>
    cases hl
    rfl
  | @space x hx rest =>
    cases hl
    have hspan := span_append .space hspace (x :: rest) ds
    exact (next?_of_isSpace hx _).trans (congrArg some hspan)
  | @token x rest hx hn hcomment =>
    have hhead : x = '/' → (rest ++ d :: ds).head? ≠ some '/' := fun hxslash => by
      cases rest with
      | nil => simpa using hslash
      | cons y rest => exact hcomment hxslash
    exact (next?_of_token hx hn hhead).trans (token?_append_cons hl.symm hkind.2 hends hsymbols ds)

/-- **A text is made of the same lexemes in front of a number or a word**, if it does not end in
one. -/
theorem Lexed.append_cons (h : Lexed cs ls)
    (hkinds : ∀ l ∈ ls, l.1 ≠ .comment ∧ l.1 ≠ .token .text)
    (hends : ∀ c ∈ cs.getLast?, EndsWord c) (hd : continuesWord d = true)
    (h' : Lexed (d :: ds) ls') : Lexed (cs ++ d :: ds) (ls ++ ls') := by
  induction h with
  | nil => exact h'
  | @cons cs l ls hl hrest ih =>
    rw [List.forall_mem_cons] at hkinds
    have hnext := next?_append_cons hl hkinds.1 hends hd ds
    refine .cons (l := l.before (d :: ds)) hnext (ih hkinds.2 fun c hc => hends c ?_)
    rw [← (starts_next? hl).chars_append_rest, List.getLast?_append, Option.mem_def.1 hc]
    rfl

end

end BarScript
