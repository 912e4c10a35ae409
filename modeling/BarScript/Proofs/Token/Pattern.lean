import BarScript.Proofs.Token.Filled

/-!
# The pattern of lexemes

`Lexeme.Matches` says which texts the lexemes of each kind have, one constructor for each
alternative of the pattern.  Alternatives overlap: one slash is an operator and two start a comment,
one operator begins with another, and digits are a number with or without a fraction.  The
alternatives are tried in an order, and still a lexeme is as long as any of them allows
(`Lexeme.longest_next?`); where no lexeme is found none of them matches
(`Lexeme.not_matches_of_next?`).
-/

namespace BarScript

namespace Lexeme

variable {cs chars rest : List Char} {kind : LexemeKind} {l : Lexeme}

/-- The texts of the lexemes of a kind. -/
inductive Matches : LexemeKind → List Char → Prop
  /-- Two slashes and the rest of the line. -/
  | comment {body : List Char} (hbody : '\n' ∉ body) : Matches .comment ('/' :: '/' :: body)
  | lineEnd : Matches .lineEnd ['\n']
  | space {cs : List Char} (hne : cs ≠ []) (hcs : ∀ c ∈ cs, isSpace c = true) : Matches .space cs
  /-- A number without a point. -/
  | whole {ds : List Char} (hne : ds ≠ []) (hds : ∀ d ∈ ds, Text.isDigit d = true) :
      Matches (.token .number) ds
  /-- A number with a point and digits behind it. -/
  | fraction {ds fs : List Char} (hds : ∀ d ∈ ds, Text.isDigit d = true) (hne : fs ≠ [])
      (hfs : ∀ d ∈ fs, Text.isDigit d = true) : Matches (.token .number) (ds ++ '.' :: fs)
  | quoted {quote : Char} {body : List Char} (hquote : quote = '"' ∨ quote = '\'')
      (hbody : ∀ c ∈ body, c ≠ quote ∧ c ≠ '\n') :
      Matches (.token .text) (quote :: body ++ [quote])
  | word {c : Char} {cs : List Char} (hc : startsWord c = true)
      (hcs : ∀ c ∈ cs, continuesWord c = true) : Matches (.token .word) (c :: cs)
  | symbol {s : List Char} {k : TokenKind} (hs : (s, k) ∈ symbols) : Matches (.token k) s

/-! ### Lexemes match the pattern -/

theorem forall_mem_takeWhile {p : Char → Bool} : ∀ c ∈ cs.takeWhile p, p c = true :=
  fun c hc => List.all_eq_true.1 List.all_takeWhile c hc

theorem matches_number? (h : number? cs = some l) : Matches l.kind l.chars := by
  simp only [number?] at h
  have hwhole : ∀ d ∈ (span (.token .number) Text.isDigit cs).chars, Text.isDigit d = true :=
    forall_mem_takeWhile
  have hkind : (span (.token .number) Text.isDigit cs).kind = .token .number := rfl
  generalize span (.token .number) Text.isDigit cs = whole at h hwhole hkind
  rcases whole with ⟨kind, chars, rest⟩
  obtain rfl : kind = .token .number := hkind
  -- a number without a fraction
  have hplain : (if chars.isEmpty = true then none
      else some (⟨.token .number, chars, rest⟩ : Lexeme)) = some l → Matches l.kind l.chars := by
    intro h
    split at h
    · cases h
    · rename_i hne
      cases h
      exact .whole (by simpa using hne) hwhole
  cases rest with
  | nil => exact hplain (by simpa using h)
  | cons x rest =>
    by_cases hx : x = '.'
    · subst hx
      by_cases hfraction : (span (.token .number) Text.isDigit rest).chars.isEmpty = true
      · exact hplain (by simpa only [hfraction, if_true] using h)
      · simp only [hfraction, if_false, Bool.false_eq_true] at h
        cases h
        have hfs : ∀ d ∈ (span (.token .number) Text.isDigit rest).chars, Text.isDigit d = true :=
          forall_mem_takeWhile
        have hne : (span (.token .number) Text.isDigit rest).chars ≠ [] := by
          simpa using hfraction
        have hmatch := Matches.fraction hwhole hne hfs
        simpa [after, span] using hmatch
    · exact hplain (by simpa [hx] using h)

theorem matches_quoted? {quote : Char} (hquote : quote = '"' ∨ quote = '\'')
    (h : quoted? quote cs = some l) : Matches l.kind l.chars := by
  simp only [quoted?] at h
  split at h
  · split at h
    · rename_i c rest hrest heq
      cases h
      subst heq
      refine .quoted hquote fun c hc => ?_
      simpa using forall_mem_takeWhile c hc
    · cases h
  · cases h

theorem matches_symbol? (h : symbol? cs = some l) : Matches l.kind l.chars := by
  obtain ⟨s, hs, h⟩ := List.exists_of_findSome?_eq_some h
  split at h <;> cases h
  exact .symbol hs

theorem matches_token? (h : token? cs = some l) : Matches l.kind l.chars := by
  cases cs with
  | nil => cases h
  | cons c cs =>
    rcases Option.or_eq_some_iff.1 h with h | ⟨-, h⟩
    · exact matches_number? h
    split at h
    · exact matches_quoted? ‹_› h
    · split at h
      · rename_i hc
        cases h
        have hcontinues : continuesWord c = true := by simp [continuesWord, hc]
        rw [span, List.takeWhile_cons_of_pos hcontinues]
        exact .word hc forall_mem_takeWhile
      · exact matches_symbol? h

/-- **A lexeme matches the pattern of its kind.** -/
theorem matches_next? (h : next? cs = some l) : Matches l.kind l.chars := by
  have hfront := front_next? cs
  rw [h] at hfront
  generalize hl : some l = l' at hfront
  cases hfront with
  | nil => cases hl
  | comment rest =>
    cases hl
    exact .comment fun hmem => by simpa using forall_mem_takeWhile _ hmem
  | lineEnd rest =>
    cases hl
    exact .lineEnd
  | @space c hc rest =>
    cases hl
    exact .space (by simp [span, hc]) forall_mem_takeWhile
  | token => exact matches_token? hl.symm

/-! ### What matches is no longer than the lexeme -/

theorem length_le_span (kind : LexemeKind) {p : Char → Bool} (hcs : ∀ c ∈ cs, p c = true)
    (rest : List Char) : cs.length ≤ (span kind p (cs ++ rest)).chars.length := by
  rw [span, List.takeWhile_append_of_pos hcs, List.length_append]
  exact Nat.le_add_right _ _

theorem isEmpty_span (kind : LexemeKind) {p : Char → Bool} (hne : cs ≠ [])
    (hcs : ∀ c ∈ cs, p c = true) (rest : List Char) :
    (span kind p (cs ++ rest)).chars.isEmpty = false := by
  have hlength := length_le_span kind hcs rest
  have hpos := List.length_pos_iff.2 hne
  rw [List.isEmpty_eq_false_iff, ← List.length_pos_iff]
  omega

theorem exists_number?_whole {ds : List Char} (hne : ds ≠ [])
    (hds : ∀ d ∈ ds, Text.isDigit d = true) (rest : List Char) :
    ∃ l, number? (ds ++ rest) = some l ∧ ds.length ≤ l.chars.length := by
  have hlength := length_le_span (.token .number) hds rest
  have hwhole := isEmpty_span (.token .number) hne hds rest
  simp only [number?, hwhole, Bool.false_eq_true, if_false]
  split
  · split
    · exact ⟨_, rfl, hlength⟩
    · -- with a fraction behind it the number is longer still
      refine ⟨_, rfl, ?_⟩
      simp only [after, List.length_append]
      omega
  · exact ⟨_, rfl, hlength⟩

theorem exists_number?_fraction {ds fs : List Char} (hds : ∀ d ∈ ds, Text.isDigit d = true)
    (hne : fs ≠ []) (hfs : ∀ d ∈ fs, Text.isDigit d = true) (rest : List Char) :
    ∃ l, number? (ds ++ '.' :: fs ++ rest) = some l ∧
      (ds ++ '.' :: fs).length ≤ l.chars.length := by
  have hpoint : ∀ d ∈ ('.' :: (fs ++ rest)).head?, Text.isDigit d = false := by
    rintro d ⟨⟩
    rfl
  have hspan := span_of_stops (.token .number) hds hpoint
  have hlength := length_le_span (.token .number) hfs rest
  have hfraction := isEmpty_span (.token .number) hne hfs rest
  rw [List.append_assoc, List.cons_append]
  simp only [number?, hspan, hfraction, Bool.false_eq_true, if_false]
  refine ⟨_, rfl, ?_⟩
  simp only [after, List.length_append, List.length_cons, List.length_nil]
  omega

theorem quoted?_of_body {quote : Char} {body : List Char}
    (hbody : ∀ c ∈ body, c ≠ quote ∧ c ≠ '\n') (rest : List Char) :
    quoted? quote (body ++ quote :: rest) =
      some ⟨.token .text, quote :: body ++ [quote], rest⟩ := by
  have hspan : span (.token .text) (fun c => c != quote && c != '\n') (body ++ quote :: rest) =
      ⟨.token .text, body, quote :: rest⟩ := by
    refine span_of_stops _ (fun c hc => ?_) ?_
    · simpa using hbody c hc
    · rintro c ⟨⟩
      simp
  simp [quoted?, hspan]

/-- The symbols are tried in an order in which none is shorter than a later one. -/
theorem exists_findSome?_symbol {ss : List (List Char × TokenKind)}
    (hss : ss.Pairwise fun s s' => s'.1.length ≤ s.1.length) {s : List Char × TokenKind}
    (hs : s ∈ ss) (hfront : s.1 <+: cs) : ∃ l, (ss.findSome? fun s =>
      if s.1.isPrefixOf cs then some (⟨.token s.2, s.1, cs.drop s.1.length⟩ : Lexeme) else none) =
        some l ∧ s.1.length ≤ l.chars.length := by
  induction ss with
  | nil => cases hs
  | cons s' ss ih =>
    rw [List.pairwise_cons] at hss
    rw [List.findSome?_cons]
    by_cases h : s'.1.isPrefixOf cs = true
    · rw [if_pos h]
      refine ⟨_, rfl, ?_⟩
      rcases List.mem_cons.1 hs with rfl | hs
      · exact le_rfl
      · exact hss.1 s hs
    · rw [if_neg h]
      rcases List.mem_cons.1 hs with rfl | hs
      · exact absurd (List.isPrefixOf_iff_prefix.2 hfront) h
      · exact ih hss.2 hs

/-- An operator or a bracket starts with a character that starts nothing else, but for the slash. -/
theorem symbols_cases {s : List Char × TokenKind} (hs : s ∈ symbols) :
    ∃ c more, s.1 = c :: more ∧ isSpace c = false ∧ c ≠ '\n' ∧ Text.isDigit c = false ∧ c ≠ '.' ∧
      ¬ (c = '"' ∨ c = '\'') ∧ startsWord c = false ∧ (c = '/' → more = []) := by
  simp only [symbols, List.mem_cons, List.not_mem_nil, or_false] at hs
  rcases hs with rfl | rfl | rfl | rfl | rfl | rfl | rfl | rfl | rfl | rfl | rfl | rfl | rfl | rfl |
    rfl | rfl | rfl | rfl | rfl | rfl
  all_goals exact ⟨_, _, rfl, by decide⟩

theorem exists_next?_symbol {s : List Char} {k : TokenKind} (hs : (s, k) ∈ symbols)
    (rest : List Char) : ∃ l, next? (s ++ rest) = some l ∧ s.length ≤ l.chars.length := by
  have hss : symbols.Pairwise fun s s' => s'.1.length ≤ s.1.length := by
    simp [symbols]
  obtain ⟨l, hl, hlength⟩ := exists_findSome?_symbol hss hs (List.prefix_append s rest)
  obtain ⟨c, more, rfl, hspace, hline, hdigit, hpoint, hquote, hword, hslash⟩ :=
    symbols_cases hs
  by_cases hcomment : c = '/' ∧ rest.head? = some '/'
  · -- with another slash behind it a slash starts a comment
    obtain ⟨rfl, hhead⟩ := hcomment
    obtain ⟨rest, rfl⟩ := List.head?_eq_some_iff.1 hhead
    rw [hslash rfl]
    exact ⟨_, rfl, by simp [after]⟩
  · have hnumber : number? (c :: (more ++ rest)) = none :=
      number?_append hdigit hpoint [] (more ++ rest)
    refine ⟨l, ?_, hlength⟩
    rw [List.cons_append] at hl ⊢
    rw [next?_of_token hspace hline fun heq hhead => hcomment ⟨heq, by
        rwa [hslash heq] at hhead⟩, token?, hnumber, if_neg hquote,
      if_neg (Bool.eq_false_iff.1 hword)]
    exact hl

/-- Where a number stands no other lexeme does. -/
theorem exists_next?_number {c : Char} (hc : Text.isDigit c = true ∨ c = '.')
    {n : ℕ} (h : ∃ l, number? (c :: cs) = some l ∧ n ≤ l.chars.length) :
    ∃ l, next? (c :: cs) = some l ∧ n ≤ l.chars.length := by
  obtain ⟨l, hl, hlength⟩ := h
  have hne : ∀ d, Text.isDigit d = false → d ≠ '.' → c ≠ d := by
    rintro d hd hpoint rfl
    rcases hc with hc | rfl
    · rw [hd] at hc
      cases hc
    · exact hpoint rfl
  have hspace : isSpace c = false := by
    simp [isSpace, hne ' ' (by decide) (by decide), hne '\t' (by decide) (by decide),
      hne '\r' (by decide) (by decide)]
  refine ⟨l, ?_, hlength⟩
  rw [next?_of_token hspace (hne _ (by decide) (by decide))
    fun hslash => absurd hslash (hne _ (by decide) (by decide)), token?, hl]
  rfl

/-- **Where the pattern matches there is a lexeme, at least as long.** -/
theorem Matches.exists_next? (h : Matches kind chars) (rest : List Char) :
    ∃ l, next? (chars ++ rest) = some l ∧ chars.length ≤ l.chars.length := by
  cases h with
  | @comment body hbody =>
    have hline : ∀ c ∈ body, (c != '\n') = true := by
      rintro c hc
      rw [bne_iff_ne]
      rintro rfl
      exact hbody hc
    have hlength : body.length ≤ (span .comment (· != '\n') (body ++ rest)).chars.length :=
      length_le_span .comment hline rest
    refine ⟨(span .comment (· != '\n') (body ++ rest)).after ['/', '/'], rfl, ?_⟩
    simp only [after, List.length_append, List.length_cons, List.length_nil]
    omega
  | lineEnd => exact ⟨_, rfl, le_rfl⟩
  | space hne hcs =>
    obtain ⟨c, cs, rfl⟩ := List.exists_cons_of_ne_nil hne
    have hspace := hcs c List.mem_cons_self
    exact ⟨_, next?_of_isSpace hspace (cs ++ rest), length_le_span .space hcs rest⟩
  | whole hne hds =>
    have hnumber := exists_number?_whole hne hds rest
    obtain ⟨d, ds, rfl⟩ := List.exists_cons_of_ne_nil hne
    exact exists_next?_number (.inl (hds d List.mem_cons_self)) hnumber
  | @fraction ds fs hds hne hfs =>
    have hnumber := exists_number?_fraction hds hne hfs rest
    cases ds with
    | nil => exact exists_next?_number (.inr rfl) hnumber
    | cons d ds => exact exists_next?_number (.inl (hds d List.mem_cons_self)) hnumber
  | @quoted quote body hquote hbody =>
    have hnumber : number? (quote :: (body ++ [quote] ++ rest)) = none := by
      rcases hquote with rfl | rfl <;> rfl
    have hbreaks : isSpace quote = false ∧ quote ≠ '\n' ∧ quote ≠ '/' := by
      rcases hquote with rfl | rfl <;> decide
    have hquoted := quoted?_of_body hbody rest
    refine ⟨⟨.token .text, quote :: body ++ [quote], rest⟩, ?_, le_rfl⟩
    rw [List.cons_append, List.cons_append, next?_of_token hbreaks.1 hbreaks.2.1
      fun hslash => absurd hslash hbreaks.2.2, token?, hnumber, if_pos hquote, List.append_assoc,
      List.singleton_append, hquoted]
    rfl
  | @word c cs hc hcs =>
    obtain ⟨hdigit, hpoint, hdouble, hsingle⟩ := startsWord_cases hc
    have hcontinues : continuesWord c = true := by simp [continuesWord, hc]
    have hnumber : number? (c :: (cs ++ rest)) = none :=
      number?_append hdigit hpoint [] (cs ++ rest)
    have hword : ∀ d ∈ c :: cs, continuesWord d = true := List.forall_mem_cons.2 ⟨hcontinues, hcs⟩
    refine ⟨span (.token .word) continuesWord (c :: cs ++ rest), ?_,
      length_le_span (.token .word) hword rest⟩
    rw [List.cons_append, next?_of_continuesWord hcontinues, token?, hnumber,
      if_neg (not_or.2 ⟨hdouble, hsingle⟩), if_pos hc]
    rfl
  | symbol hs => exact exists_next?_symbol hs rest

/-- The longest text at the front of `cs` that matches the pattern. -/
structure Longest (kind : LexemeKind) (chars cs : List Char) : Prop where
  isMatch : Matches kind chars
  isPrefix : chars <+: cs
  length_le : ∀ kind' chars', Matches kind' chars' → chars' <+: cs → chars'.length ≤ chars.length

/-- **A lexeme is the longest text that matches the pattern.** -/
theorem longest_next? (h : next? cs = some l) : Longest l.kind l.chars cs where
  isMatch := matches_next? h
  isPrefix := ⟨l.rest, (starts_next? h).chars_append_rest⟩
  length_le := by
    rintro kind chars hm ⟨rest, rfl⟩
    obtain ⟨l', hl', hlength⟩ := hm.exists_next? rest
    cases h.symm.trans hl'
    exact hlength

/-- **Where there is no lexeme the pattern does not match.** -/
theorem not_matches_of_next? (h : next? cs = none) (hm : Matches kind chars) : ¬ chars <+: cs := by
  rintro ⟨rest, rfl⟩
  obtain ⟨l, hl, -⟩ := hm.exists_next? rest
  rw [h] at hl
  cases hl

namespace Longest

theorem unique {kind' : LexemeKind} {chars' : List Char} (h : Longest kind chars cs)
    (h' : Longest kind' chars' cs) : chars = chars' := by
  have hlength := h.length_le _ _ h'.isMatch h'.isPrefix
  have hlength' := h'.length_le _ _ h.isMatch h.isPrefix
  exact (List.prefix_of_prefix_length_le h.isPrefix h'.isPrefix hlength').eq_of_length
    (Nat.le_antisymm hlength' hlength)

/-- The character behind the longest match does not go on with it. -/
theorem not_matches_concat {c : Char} (h : Longest kind chars cs)
    (hc : c ∈ (cs.drop chars.length).head?) (kind' : LexemeKind) :
    ¬ Matches kind' (chars ++ [c]) := by
  obtain ⟨rest, rfl⟩ := h.isPrefix
  rw [List.drop_left] at hc
  obtain ⟨rest, rfl⟩ := List.head?_eq_some_iff.1 hc
  intro hm
  have hlength := h.length_le _ _ hm ⟨rest, by simp⟩
  simp at hlength

end Longest

/-! ### Longer matches -/

theorem Matches.ne_nil (h : Matches kind chars) : chars ≠ [] := by
  cases h with
  | comment | lineEnd | quoted | word => simp
  | space hne | whole hne => exact hne
  | fraction => simp
  | symbol hs =>
    obtain ⟨c, more, rfl, -⟩ := symbols_cases hs
    simp

/-- A line end is a lexeme of its own. -/
theorem Matches.of_mem_lineEnd (h : Matches kind chars) (hmem : '\n' ∈ chars) :
    kind = .lineEnd ∧ chars = ['\n'] := by
  have hbreaks : Breaks '\n' := breaks_of_isBlank rfl
  have hdigits : ∀ cs : List Char, (∀ d ∈ cs, Text.isDigit d = true) → '\n' ∉ cs :=
    fun cs hcs hmem => by simpa [hbreaks.not_digit] using hcs _ hmem
  cases h with
  | comment hbody => simp [hbody] at hmem
  | lineEnd => exact ⟨rfl, rfl⟩
  | space hne hcs => exact absurd (hcs _ hmem) (by decide)
  | whole hne hds => exact absurd hmem (hdigits _ hds)
  | fraction hds hne hfs => simp [hdigits _ hds, hdigits _ hfs] at hmem
  | @quoted quote body hquote hbody =>
    have hline : '\n' ≠ quote := by rcases hquote with rfl | rfl <;> decide
    have hbody : '\n' ∉ body := fun hmem => (hbody _ hmem).2 rfl
    simp [hline, hbody] at hmem
  | @word c cs hc hcs =>
    have hword : ∀ d ∈ c :: cs, continuesWord d = true :=
      List.forall_mem_cons.2 ⟨by simp [continuesWord, hc], hcs⟩
    simpa [hbreaks.not_word] using hword _ hmem
  | symbol hs => exact absurd hmem (hbreaks.not_symbol _ hs)

theorem Matches.number_concat {d : Char} (h : Matches (.token .number) chars)
    (hd : Text.isDigit d = true) : Matches (.token .number) (chars ++ [d]) := by
  cases h with
  | whole hne hds => exact .whole (by simp) (List.forall_mem_append.2 ⟨hds, by simpa using hd⟩)
  | fraction hds hne hfs =>
    rw [List.append_assoc, List.cons_append]
    exact .fraction hds (by simp) (List.forall_mem_append.2 ⟨hfs, by simpa using hd⟩)
  | symbol hs => simp [symbols] at hs

/-- Letters, digits and the underscore go on with a name. -/
theorem continuesWord_eq (c : Char) : continuesWord c = (c.isAlphanum || c == '_') := by
  have hlower : c.isLower = (decide ('a' ≤ c) && decide (c ≤ 'z')) := rfl
  have hupper : c.isUpper = (decide ('A' ≤ c) && decide (c ≤ 'Z')) := by
    rw [Char.isUpper, Bool.decide_and]
    rfl
  have hdigit : c.isDigit = (decide ('0' ≤ c) && decide (c ≤ '9')) := rfl
  rw [continuesWord, startsWord, Char.isAlphanum, Char.isAlpha, hlower, hupper, hdigit]
  ac_rfl

theorem Matches.word_concat {c : Char} (h : Matches (.token .word) chars)
    (hc : continuesWord c = true) : Matches (.token .word) (chars ++ [c]) := by
  cases h with
  | word hstart hcs => exact .word hstart (List.forall_mem_append.2 ⟨hcs, by simpa using hc⟩)
  | symbol hs => simp [symbols] at hs

end Lexeme

end BarScript
