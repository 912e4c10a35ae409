import BarScript.Text.Blank
import BarScript.Token.Lexer
import Mathlib.Data.List.Basic
import Mathlib.Data.List.TakeWhile

/-!
# Lexemes end in front of blanks

A lexeme is as long as possible, so what stands behind it may go on with it.  A blank does not,
except with white space and with a comment.  What a text starts with therefore stays the same if a
line end and any other text, or a single blank, is put behind it (`next?_append`).  In the same way
a blank that starts a text is white space or a line end, or no lexeme starts there
(`next?_of_isBlank`).
-/

namespace BarScript

/-! ### Blanks -/

/-- A character that no number, name, operator or bracket has in it. -/
structure Breaks (c : Char) : Prop where
  not_digit : Text.isDigit c = false
  not_word : Lexeme.continuesWord c = false
  not_symbol : ∀ s ∈ Lexeme.symbols, c ∉ s.1
  not_mark : c ∉ ['.', '/', '"', '\'']

theorem Breaks.not_point {c : Char} (h : Breaks c) : c ≠ '.' := fun hc => h.not_mark (by simp [hc])

/-- The code points of the blanks. -/
def blankPoints : List Nat := List.range' 0x09 5 ++ List.range' 0x1C 4 ++ List.range' 0x2000 11 ++
  Text.spaces

theorem breaks_of_mem_blankPoints {n : Nat} (h : n ∈ blankPoints) : Breaks (Char.ofNat n) := by
  have hall : ∀ n ∈ blankPoints, Text.isDigit (Char.ofNat n) = false ∧
      Lexeme.continuesWord (Char.ofNat n) = false ∧
      (∀ s ∈ Lexeme.symbols, Char.ofNat n ∉ s.1) ∧ Char.ofNat n ∉ ['.', '/', '"', '\''] := by
    decide +kernel
  obtain ⟨hdigit, hword, hsymbol, hmark⟩ := hall n h
  exact ⟨hdigit, hword, hsymbol, hmark⟩

theorem toNat_mem_blankPoints {c : Char} (h : Text.isBlank c = true) : c.toNat ∈ blankPoints := by
  simp only [Text.isBlank, Text.isWhiteSpace, Bool.or_eq_true, Bool.and_eq_true, decide_eq_true_eq,
    List.contains_eq_mem] at h
  simp only [blankPoints, List.mem_append, List.mem_range'_1]
  rcases h with ((⟨hl, hu⟩ | ⟨hl, hu⟩) | hs) | ⟨hl, hu⟩
  · omega
  · omega
  · exact .inr hs
  · omega

theorem breaks_of_isBlank {c : Char} (h : Text.isBlank c = true) : Breaks c := by
  have := breaks_of_mem_blankPoints (toNat_mem_blankPoints h)
  rwa [Char.ofNat_toNat] at this

theorem isBlank_of_isSpace {c : Char} (h : Lexeme.isSpace c = true) : Text.isBlank c = true := by
  simp only [Lexeme.isSpace, Bool.or_eq_true, beq_iff_eq] at h
  rcases h with (rfl | rfl) | rfl <;> rfl

namespace Lexeme

variable {c : Char} {cs more : List Char} {p : Char → Bool}

/-! ### The lexeme at the front -/

/-- The lexeme in front of more text. -/
def before (more : List Char) (l : Lexeme) : Lexeme := { l with rest := l.rest ++ more }

/-- A number, a text between quotes, a word, an operator or a bracket. -/
def token? : List Char → Option Lexeme
  | [] => none
  | c :: rest => (number? (c :: rest)).or <|
    if c = '"' ∨ c = '\'' then quoted? c rest
    else if startsWord c then some (span (.token .word) continuesWord (c :: rest))
    else symbol? (c :: rest)

/-- How a text may start: with nothing, a comment, a line end, white space or a token. -/
inductive Front : List Char → Option Lexeme → Prop
  | nil : Front [] none
  | comment (rest : List Char) :
      Front ('/' :: '/' :: rest) (some ((span .comment (· != '\n') rest).after ['/', '/']))
  | lineEnd (rest : List Char) : Front ('\n' :: rest) (some ⟨.lineEnd, ['\n'], rest⟩)
  | space {c : Char} (hc : isSpace c = true) (rest : List Char) :
      Front (c :: rest) (some (span .space isSpace (c :: rest)))
  | token {c : Char} {rest : List Char} (hc : isSpace c = false) (hn : c ≠ '\n')
      (hcomment : c = '/' → rest.head? ≠ some '/') : Front (c :: rest) (token? (c :: rest))

theorem front_next? (cs : List Char) : Front cs (next? cs) := by
  fun_cases next? cs with
  | case1 => exact .nil
  | case2 rest => exact .comment rest
  | case3 rest => exact .lineEnd rest
  | case4 c rest hcomment hn hc => exact .space hc rest
  | case5 c rest hcomment hn hc =>
    refine .token (Bool.eq_false_iff.2 hc) hn fun hslash hhead => ?_
    obtain ⟨rest', rfl⟩ := List.head?_eq_some_iff.1 hhead
    exact hcomment rest' hslash rfl

theorem next?_of_isSpace (hc : isSpace c = true) (rest : List Char) :
    next? (c :: rest) = some (span .space isSpace (c :: rest)) := by
  have hfront := front_next? (c :: rest)
  generalize next? (c :: rest) = l at hfront ⊢
  cases hfront with
  | comment | lineEnd => cases hc
  | space => rfl
  | token hc' => exact absurd hc (Bool.eq_false_iff.1 hc')

theorem next?_of_token {rest : List Char} (hc : isSpace c = false) (hn : c ≠ '\n')
    (hcomment : c = '/' → rest.head? ≠ some '/') : next? (c :: rest) = token? (c :: rest) := by
  have hfront := front_next? (c :: rest)
  generalize next? (c :: rest) = l at hfront ⊢
  cases hfront with
  | comment => exact absurd rfl (hcomment rfl)
  | lineEnd => exact absurd rfl hn
  | space hc' => exact absurd hc' (Bool.eq_false_iff.1 hc)
  | token => rfl

/-! ### What stands behind a lexeme -/

/-- A character outside of the class ends a lexeme of the class. -/
theorem span_append (kind : LexemeKind) (hc : p c = false) (cs more : List Char) :
    span kind p (cs ++ c :: more) = (span kind p cs).before (c :: more) := by
  induction cs with
  | nil => simp [span, before, hc]
  | cons x cs ih =>
    simp only [span, before, mk.injEq, true_and] at ih
    cases hx : p x <;> simp [span, before, hx, ih]

/-- A lexeme of a class that ends before the text does. -/
theorem span_append_of_rest {kind : LexemeKind} (h : (span kind p cs).rest ≠ [])
    (more : List Char) : span kind p (cs ++ more) = (span kind p cs).before more := by
  induction cs with
  | nil => exact absurd rfl h
  | cons x cs ih =>
    cases hx : p x with
    | false => simp [span, before, hx]
    | true =>
      have hrest : (span kind p cs).rest ≠ [] := by simpa [span, hx] using h
      have := ih hrest
      simp only [span, before, mk.injEq, true_and] at this
      simp [span, before, hx, this]

/-- A lexeme of a class that takes the whole text goes on with a character of the class. -/
theorem span_append_singleton {kind : LexemeKind} (hc : p c = true)
    (h : (span kind p cs).rest = []) :
    span kind p (cs ++ [c]) = { span kind p cs with chars := (span kind p cs).chars ++ [c] } := by
  have hall : ∀ x ∈ cs, p x = true := List.dropWhile_eq_nil_iff.1 h
  have hall' : ∀ x ∈ cs ++ [c], p x = true := by simpa [or_imp, forall_and, hc] using hall
  have htake : cs.takeWhile p = cs := List.takeWhile_eq_self_iff.2 hall
  have htake' : (cs ++ [c]).takeWhile p = cs ++ [c] := List.takeWhile_eq_self_iff.2 hall'
  have hdrop : cs.dropWhile p = [] := h
  have hdrop' : (cs ++ [c]).dropWhile p = [] := List.dropWhile_eq_nil_iff.2 hall'
  rw [span, span, htake, htake', hdrop, hdrop']

/-- A lexeme of a class ends in front of a blank, or takes it in at the end of the text. -/
theorem span_append_blank (kind : LexemeKind) (hp : p '\n' = false) (hc : c = '\n' ∨ more = [])
    (cs : List Char) : span kind p (cs ++ c :: more) = (span kind p cs).before (c :: more) ∨
      c ≠ '\n' ∧ (span kind p cs).rest = [] ∧ span kind p (cs ++ [c]) =
        { span kind p cs with chars := (span kind p cs).chars ++ [c] } := by
  cases hpc : p c with
  | false => exact .inl (span_append kind hpc cs more)
  | true =>
    have hn : c ≠ '\n' := by
      rintro rfl
      rw [hp] at hpc
      cases hpc
    by_cases hrest : (span kind p cs).rest = []
    · exact .inr ⟨hn, hrest, span_append_singleton hpc hrest⟩
    · exact .inl (span_append_of_rest hrest _)

theorem number?_append (hdigit : Text.isDigit c = false) (hpoint : c ≠ '.')
    (cs more : List Char) :
    number? (cs ++ c :: more) = (number? cs).map (before (c :: more)) := by
  simp only [number?, span_append _ hdigit]
  rcases span (.token .number) Text.isDigit cs with ⟨kind, whole, rest⟩
  -- what follows the digits is the same, or the character
  cases rest with
  | nil => cases whole <;> simp [before, hpoint]
  | cons x rest =>
    by_cases hx : x = '.'
    · subst hx
      simp only [before, List.cons_append, span_append _ hdigit]
      rcases span (.token .number) Text.isDigit rest with ⟨kind', fraction, rest'⟩
      cases fraction <;> cases whole <;> simp [before, after]
    · cases whole <;> simp [before, hx]

theorem quoted?_append {quote : Char} (hq : c ≠ quote) (hc : c = '\n' ∨ more = [])
    (cs : List Char) :
    quoted? quote (cs ++ c :: more) = (quoted? quote cs).map (before (c :: more)) := by
  simp only [quoted?]
  generalize hbody : span (.token .text) (fun x => x != quote && x != '\n') cs = body
  rcases body with ⟨kind, chars, rest⟩
  cases rest with
  | cons x rest =>
    rw [span_append_of_rest (by simp [hbody]), hbody]
    by_cases hx : x = quote <;> simp [before, hx]
  | nil =>
    -- the quote is not closed before the character, and not behind it either
    have hnone : (span (.token .text) (fun x => x != quote && x != '\n') (cs ++ c :: more)).rest =
          c :: more ∨
        (span (.token .text) (fun x => x != quote && x != '\n') (cs ++ c :: more)).rest = [] := by
      by_cases hn : c = '\n'
      · rw [span_append _ (by simp [hn]), hbody]
        exact .inl rfl
      · rw [hc.resolve_left hn, span_append_singleton (by simp [hn, hq]) (by simp [hbody]), hbody]
        exact .inr rfl
    rcases hnone with h | h <;> simp [h, hq]

theorem isPrefixOf_append_cons {front : List Char} (hc : c ∉ front) (cs more : List Char) :
    front.isPrefixOf (cs ++ c :: more) = front.isPrefixOf cs := by
  induction front generalizing cs with
  | nil => simp
  | cons x front ih =>
    rw [List.mem_cons, not_or] at hc
    cases cs with
    | nil => simp [List.isPrefixOf, Ne.symm hc.1]
    | cons y cs => simp [List.isPrefixOf, ih hc.2]

theorem symbol?_append (hsymbols : ∀ s ∈ symbols, c ∉ s.1) (cs more : List Char) :
    symbol? (cs ++ c :: more) = (symbol? cs).map (before (c :: more)) := by
  rw [symbol?, symbol?]
  generalize symbols = ss at hsymbols ⊢
  induction ss with
  | nil => rfl
  | cons s ss ih =>
    obtain ⟨hs, hss⟩ := List.forall_mem_cons.1 hsymbols
    rw [List.findSome?_cons, List.findSome?_cons, isPrefixOf_append_cons hs, ih hss]
    by_cases h : s.1.isPrefixOf cs = true
    · have hlen : s.1.length ≤ cs.length := (List.isPrefixOf_iff_prefix.1 h).length_le
      simp [h, before, List.drop_append_of_le_length hlen]
    · simp [h]

theorem token?_append (hb : Breaks c) (hc : c = '\n' ∨ more = []) (hne : cs ≠ []) :
    token? (cs ++ c :: more) = (token? cs).map (before (c :: more)) := by
  obtain ⟨x, cs, rfl⟩ := List.exists_cons_of_ne_nil hne
  have hnumber := number?_append hb.not_digit hb.not_point (x :: cs) more
  have hsymbol := symbol?_append hb.not_symbol (x :: cs) more
  have hword := span_append (.token .word) hb.not_word (x :: cs) more
  have hquoted : x = '"' ∨ x = '\'' →
      quoted? x (cs ++ c :: more) = (quoted? x cs).map (before (c :: more)) := fun hx => by
    refine quoted?_append (fun heq => hb.not_mark ?_) hc cs
    rw [heq]
    rcases hx with rfl | rfl <;> simp
  rw [List.cons_append] at hnumber hsymbol hword
  rw [List.cons_append, token?, token?, Option.map_or, hnumber, hsymbol, hword]
  congr 1
  split
  · exact hquoted ‹_›
  · split <;> rfl

/-- **A lexeme ends in front of a blank**, or is white space or a comment up to the end of the
text that goes on with it.  The blank is a line end or the last character. -/
theorem next?_append (hb : Text.isBlank c = true) (hc : c = '\n' ∨ more = []) (hne : cs ≠ []) :
    next? (cs ++ c :: more) = (next? cs).map (before (c :: more)) ∨
      c ≠ '\n' ∧ ∃ l, next? cs = some l ∧ (l.kind = .comment ∨ l.kind = .space) ∧ l.rest = [] ∧
        next? (cs ++ [c]) = some { l with chars := l.chars ++ [c] } := by
  have hbreaks := breaks_of_isBlank hb
  have hfront := front_next? cs
  generalize next? cs = l at hfront
  cases hfront with
  | nil => exact absurd rfl hne
  | comment rest =>
    rcases span_append_blank (p := (· != '\n')) .comment rfl hc rest with h | ⟨hn, hrest, h⟩
    · exact .inl (congrArg (fun l => some (after ['/', '/'] l)) h)
    · exact .inr ⟨hn, _, rfl, .inl rfl, hrest, congrArg (fun l => some (after ['/', '/'] l)) h⟩
  | lineEnd rest => exact .inl rfl
  | @space x hx rest =>
    rcases span_append_blank (p := isSpace) .space rfl hc (x :: rest) with h | ⟨hn, hrest, h⟩
    · exact .inl ((next?_of_isSpace hx _).trans (congrArg some h))
    · exact .inr ⟨hn, _, rfl, .inr rfl, hrest, (next?_of_isSpace hx _).trans (congrArg some h)⟩
  | @token x rest hx hn hcomment =>
    refine .inl ((next?_of_token hx hn fun hslash => ?_).trans
      (token?_append hbreaks hc (List.cons_ne_nil x rest)))
    cases rest with
    | nil => exact fun h => hbreaks.not_mark (by simp [Option.some.inj h])
    | cons y rest => exact hcomment hslash

theorem token?_of_breaks (hb : Breaks c) (cs : List Char) : token? (c :: cs) = none := by
  have hnumber : number? (c :: cs) = none := number?_append hb.not_digit hb.not_point [] cs
  have hsymbol : symbol? (c :: cs) = none := symbol?_append hb.not_symbol [] cs
  have hquote : ¬ (c = '"' ∨ c = '\'') := fun h => hb.not_mark (by rcases h with rfl | rfl <;> simp)
  have hword : startsWord c = false := (Bool.or_eq_false_iff.1 hb.not_word).1
  rw [token?, hnumber, hsymbol, if_neg hquote, hword]
  rfl

/-- **No token starts with a blank**: what does is white space or a line end. -/
theorem next?_of_isBlank (hb : Text.isBlank c = true) {l : Lexeme} (h : next? (c :: cs) = some l) :
    c = '\n' ∧ l = ⟨.lineEnd, ['\n'], cs⟩ ∨
      isSpace c = true ∧ l = span .space isSpace (c :: cs) := by
  have hbreaks := breaks_of_isBlank hb
  by_cases hn : c = '\n'
  · subst hn
    cases h
    exact .inl ⟨rfl, rfl⟩
  · cases hs : isSpace c with
    | true =>
      rw [next?_of_isSpace hs] at h
      exact .inr ⟨rfl, (Option.some.inj h).symm⟩
    | false =>
      rw [next?_of_token hs hn fun hslash => absurd (by simp [hslash]) hbreaks.not_mark,
        token?_of_breaks hbreaks] at h
      cases h

/-! ### The characters of a lexeme -/

/-- The lexeme takes some characters off the front of the text. -/
structure Starts (l : Lexeme) (cs : List Char) : Prop where
  chars_append_rest : l.chars ++ l.rest = cs
  chars_ne_nil : l.chars ≠ []

theorem starts_span (kind : LexemeKind) (hc : p c = true) (cs : List Char) :
    (span kind p (c :: cs)).Starts (c :: cs) where
  chars_append_rest := List.takeWhile_append_dropWhile
  chars_ne_nil := by simp [span, hc]

theorem starts_number? {l : Lexeme} (h : number? cs = some l) : l.Starts cs := by
  simp only [number?] at h
  have hwhole : (span (.token .number) Text.isDigit cs).chars ++
      (span (.token .number) Text.isDigit cs).rest = cs := List.takeWhile_append_dropWhile
  generalize span (.token .number) Text.isDigit cs = whole at h hwhole
  rcases whole with ⟨kind, chars, rest⟩
  -- a number without a fraction
  have hplain : (if chars.isEmpty = true then none else some (⟨kind, chars, rest⟩ : Lexeme)) =
      some l → l.Starts cs := by
    intro h
    split at h
    · cases h
    · rename_i hne
      cases h
      exact ⟨hwhole, by simpa using hne⟩
  cases rest with
  | nil => exact hplain (by simpa using h)
  | cons x rest =>
    by_cases hx : x = '.'
    · subst hx
      by_cases hfraction : (span (.token .number) Text.isDigit rest).chars.isEmpty = true
      · exact hplain (by simpa only [hfraction, if_true] using h)
      · simp only [hfraction, if_false, Bool.false_eq_true] at h
        cases h
        have hrest : rest.takeWhile Text.isDigit ++ rest.dropWhile Text.isDigit = rest :=
          List.takeWhile_append_dropWhile
        refine ⟨?_, by simp [after]⟩
        rw [← hwhole]
        simp [after, span, hrest]
    · exact hplain (by simpa [hx] using h)

theorem starts_quoted? {quote : Char} {l : Lexeme} (h : quoted? quote cs = some l) :
    l.Starts (quote :: cs) := by
  simp only [quoted?] at h
  have hbody : (span (.token .text) (fun c => c != quote && c != '\n') cs).chars ++
      (span (.token .text) (fun c => c != quote && c != '\n') cs).rest = cs :=
    List.takeWhile_append_dropWhile
  generalize span (.token .text) (fun c => c != quote && c != '\n') cs = body at h hbody
  split at h
  · rename_i x rest heq
    split at h
    · cases h
      refine ⟨?_, by simp⟩
      rw [← hbody, heq]
      simp
    · cases h
  · cases h

theorem starts_symbol? {l : Lexeme} (h : symbol? cs = some l) : l.Starts cs := by
  obtain ⟨s, hs, h⟩ := List.exists_of_findSome?_eq_some h
  have hne : ∀ s ∈ symbols, s.1 ≠ [] := by decide
  split at h
  · rename_i hprefix
    cases h
    refine ⟨?_, hne s hs⟩
    obtain ⟨rest, rfl⟩ := List.isPrefixOf_iff_prefix.1 hprefix
    simp
  · cases h

theorem starts_token? {l : Lexeme} (h : token? cs = some l) : l.Starts cs := by
  cases cs with
  | nil => cases h
  | cons c cs =>
    rcases Option.or_eq_some_iff.1 h with h | ⟨-, h⟩
    · exact starts_number? h
    · split at h
      · exact starts_quoted? h
      · split at h
        · rename_i hc
          cases h
          exact starts_span _ (by simp [continuesWord, hc]) cs
        · exact starts_symbol? h

/-- **Every lexeme takes at least one character.** -/
theorem starts_next? {l : Lexeme} (h : next? cs = some l) : l.Starts cs := by
  have hfront := front_next? cs
  rw [h] at hfront
  generalize hl : some l = l' at hfront
  cases hfront with
  | nil => cases hl
  | comment rest =>
    cases hl
    exact ⟨congrArg (['/', '/'] ++ ·) List.takeWhile_append_dropWhile, by simp [after]⟩
  | lineEnd rest =>
    cases hl
    exact ⟨rfl, by simp⟩
  | space hc rest =>
    cases hl
    exact starts_span .space hc rest
  | token => exact starts_token? hl.symm

theorem length_rest_lt {l : Lexeme} (h : next? cs = some l) : l.rest.length < cs.length := by
  obtain ⟨heq, hne⟩ := starts_next? h
  have := List.length_pos_iff.2 hne
  rw [← heq, List.length_append]
  omega

end Lexeme

end BarScript
