import BarScript.Proofs.Grammar.Prompt
import BarScript.Proofs.Grammar.Inline
import BarScript.Proofs.Token.Place

/-!
# Errors at the first impossible token

A statement decides on each token as it comes, like the expression in it (`statement_prompt`).  Only
in front of an equals sign does it look at two tokens at once: a keyword that is assigned is refused
for the sign behind it (`AssignsKeyword`).  A script is read statement by statement, so it fails at
the first one that fails (`exists_failsBehind`), and the statements in front of that one are the
beginning of a script.

`Program.parse_error_first_impossible` : the error of a script stands in its text, at the first
token with which the tokens are no beginning of a script.

`IsScript` is the grammar without regard to limits: as deep as one likes, and with numbers of bars
of any number of digits.  `DerivesScript` leaves out the numbers that are too long to be read; for
lists without these it is the same (`isScript_iff`).
-/

namespace BarScript

namespace Grammar

open Statement Program

/-! ### Statements -/

/-- The tokens derive from a statement. -/
def IsStatement (ts : List Token) : Prop := ∃ w, DerivesStatement ⊤ ts w

/-- A statement has been read; it must end there. -/
def ended (w : Written) : List Token → Except Failure (Parsed Written)
  | [] => .ok (w, [])
  | t :: rest =>
    if t.kind = .separator then .ok (w, t :: rest)
    else .error (.at (.unexpectedToken t.text) (some t))

/-- Reads a statement up to a separator or the end of the tokens. -/
def statement (ts : List Token) : Except Failure (Parsed Written) :=
  target ts >>= fun r => expression r.2 >>= fun s => ended ⟨r.1, s.1⟩ s.2

theorem ended_of_head {rest : List Token} (h : ∀ t ∈ rest.head?, t.kind = .separator)
    (w : Written) : ended w rest = .ok (w, rest) := by
  cases rest with
  | nil => rfl
  | cons t rest => exact if_pos (h t rfl)

theorem ended_eq_ok {w w' : Written} {ts rest : List Token}
    (h : ended w ts = .ok (w', rest)) : ts = rest := by
  cases ts with
  | nil => cases h; rfl
  | cons t ts =>
    rw [ended] at h
    split at h <;> cases h
    rfl

/-- What derives from a statement, in front of a separator or nothing, is not refused. -/
theorem IsStatement.not_refuses {run after : List Token} (h : IsStatement run)
    (ha : ∀ t ∈ after.head?, t.kind = .separator) : ¬ Refuses (statement (run ++ after)) := by
  obtain ⟨w, h⟩ := h
  have hends : (Symbol.chain .or).Ends after := fun t ht =>
    Symbol.not_continues_of_kind (ha t ht) (.inr (.inr rfl))
  obtain ⟨us, htarget, hexpr⟩ := statement_complete h hends
  rintro ⟨cause, token, hrefuse, hc⟩
  simp only [statement, htarget, bind, Except.bind] at hrefuse
  rcases hexpr with hexpr | ⟨-, t, hexpr⟩
  · rw [hexpr] at hrefuse
    cases (ended_of_head ha _).symm.trans hrefuse
  · rw [hexpr] at hrefuse
    cases hrefuse
    exact hc trivial

theorem expression_prompt : Prompt (.chain .or) expression := (levels_prompt maxNesting).group

/-- An expression decides on each token as it comes, also as the end of a statement. -/
theorem ended_prompt (symbol : Option String) {vs : List Token}
    (hvs : ∀ us, Derivable (.chain .or) us → IsStatement (vs ++ us)) (ts : List Token) :
    PromptAt (fun us => Viable IsStatement (vs ++ us))
      (fun us => expression us >>= fun s => ended ⟨symbol, s.1⟩ s.2) ts := by
  refine .bind ((expression_prompt.prompt ts).mono fun us hus => ?_) (fun a b us => ?_)
    fun e n hn he => ?_
  · exact hus.append vs fun us hus => ⟨[], by simpa using hvs us hus⟩
  · cases us with
    | nil => exact .ok _ _ _
    | cons t us =>
      simp only [ended]
      split
      · exact .ok _ _ _
      · exact .refl _
  · have hstatement := hvs _ (expression_prompt.take hn he)
    generalize ts.drop n = us
    by_cases hend : ∀ t ∈ us.head?, t.kind = .separator
    · exact .stay fun us hus =>
        ⟨_, ended_of_head (hus.forall_head?_kind (P := (· = .separator)) hend) _⟩
    · obtain ⟨t, hhead, ht⟩ : ∃ t ∈ us.head?, t.kind ≠ .separator := by simpa using hend
      obtain ⟨rest, rfl⟩ := List.head?_eq_some_iff.1 hhead
      refine .refuse_head (.inl ⟨[], by simpa using hstatement⟩) fun us hus => ?_
      obtain ⟨u, us, rfl, hu, -⟩ := hus.exists_cons
      exact ⟨_, if_neg (hu.kind_eq ▸ ht), id⟩

/-- The tokens assign a keyword. -/
def AssignsKeyword (ts : List Token) : Prop := ∃ t e rest, ts = t :: e :: rest ∧ t.kind = .word ∧
  t.lower ∈ Token.keywords ∧ isAssignment e = true

theorem target_of_assignsKeyword {ts : List Token} (h : AssignsKeyword ts) :
    ∃ t, ts.head? = some t ∧ target ts = .error (.at (.assignedKeyword t.text) (some t)) := by
  obtain ⟨t, e, rest, rfl, ht, hkey, he⟩ := h
  have hop : e.isOperator ["="] = true := he
  exact ⟨t, rfl, by simp [target, ht, hop, hkey]⟩

theorem AssignsKeyword.refuses {ts : List Token} (h : AssignsKeyword ts) :
    Refuses (statement ts) := by
  obtain ⟨t, -, htarget⟩ := target_of_assignsKeyword h
  exact ⟨_, _, by rw [statement, htarget]; rfl, id⟩

/-- Two tokens settle whether a statement assigns a keyword. -/
theorem AssignsKeyword.of_sameFront {us ts : List Token} (h : AssignsKeyword ts)
    (hus : SameFront 1 us ts) : AssignsKeyword us := by
  obtain ⟨t, e, rest, rfl, ht, hkey, he⟩ := h
  obtain ⟨us', rfl, hus'⟩ := hus.exists_cons_of_not_tooLong (not_tooLong_of_kind (by simp [ht]))
  obtain ⟨us, rfl, -⟩ := SameFront.exists_cons_of_not_tooLong (n := 0) hus'
    (not_tooLong_of_kind (by simp [(isAssignment_iff.1 he).1]))
  exact ⟨t, e, us, rfl, ht, hkey, he⟩

/-- What a statement can start with. -/
theorem target_cases (ts : List Token) : AssignsKeyword ts ∨ target ts = .ok (none, ts) ∨
    ∃ t e rest, ts = t :: e :: rest ∧ IsName t ∧ isAssignment e = true := by
  match ts with
  | [] => exact .inr (.inl rfl)
  | [t] => exact .inr (.inl rfl)
  | t :: e :: rest =>
    by_cases h : t.kind = .word ∧ isAssignment e = true
    · by_cases hkey : t.lower ∈ Token.keywords
      · exact .inl ⟨t, e, rest, rfl, h.1, hkey, h.2⟩
      · exact .inr (.inr ⟨t, e, rest, rfl, ⟨h.1, hkey⟩, h.2⟩)
    · exact .inr (.inl (if_neg h))

theorem statement_of_target {ts us : List Token} {symbol : Option String}
    (h : target ts = .ok (symbol, us)) :
    statement ts = expression us >>= fun s => ended ⟨symbol, s.1⟩ s.2 := by
  rw [statement, h]
  rfl

/-- Two tokens settle whether a statement assigns a name. -/
theorem SameFront.target_eq {us ts : List Token} (h : SameFront 1 us ts)
    (ht : target ts = .ok (none, ts)) : target us = .ok (none, us) := by
  match ts with
  | [] => rw [h.eq_nil]; rfl
  | [t] =>
    obtain ⟨u, us, rfl, -, hus⟩ := h.exists_cons
    obtain rfl : us = [] := SameFront.eq_nil (n := 0) hus
    rfl
  | t :: e :: rest =>
    obtain ⟨u, us, rfl, hu, hus⟩ := h.exists_cons
    obtain ⟨v, us, rfl, hv, -⟩ := SameFront.exists_cons (n := 0) hus
    have hop : ¬ (t.kind = .word ∧ e.isOperator ["="] = true) := by
      intro hop
      rw [target, if_pos hop] at ht
      split at ht <;> cases ht
    exact if_neg (by rwa [hu.kind_eq, hv.isOperator_eq])

/-- A statement takes at least one token. -/
theorem ne_of_statement {ts rest : List Token} {w : Written} (h : target ts = .ok (none, ts))
    (hs : statement ts = .ok (w, rest)) : rest ≠ ts := by
  rintro rfl
  rw [statement_of_target h] at hs
  obtain ⟨⟨e, rest'⟩, he, hend⟩ := bind_eq_ok_iff.1 hs
  obtain ⟨us, heq, hus⟩ := expression_prompt.sound he
  rw [show rest' = rest from ended_eq_ok hend] at heq
  have hlength := congrArg List.length heq
  rw [List.length_append] at hlength
  have := hus.length_pos
  omega

/-- A name or a number is a statement. -/
theorem IsStatement.of_primary {t : Token} (h : Derivable .primary [t]) : IsStatement [t] := by
  obtain ⟨e, h⟩ := h
  exact ⟨_, .plain (d := ⊤) (Derives.of_signed (.unsigned (.indexed h .nil)))⟩

/-- A statement decides on each token as it comes, unless it assigns a keyword. -/
theorem statement_prompt {ts : List Token} (h : ¬ AssignsKeyword ts) :
    PromptAt (Viable IsStatement) statement ts := by
  rcases (target_cases ts).resolve_left h with htarget | ⟨t, e, rest, rfl, ht, he⟩
  · have hexpression : ∀ us, Derivable (.chain .or) us → IsStatement ([] ++ us) := by
      rintro us ⟨x, h⟩
      exact ⟨_, .plain (d := ⊤) h⟩
    have hplain := ended_prompt none hexpression ts
    have hsame : ∀ {n us}, n ≠ 0 → SameFront n us ts →
        statement us = expression us >>= fun s => ended ⟨none, s.1⟩ s.2 := fun hn hus =>
      statement_of_target ((hus.mono (Nat.one_le_iff_ne_zero.2 hn)).target_eq htarget)
    refine ⟨fun hok => ?_, fun herror => ?_⟩
    · obtain ⟨n, hn, hrest, hfront⟩ := hplain.ok (statement_of_target htarget ▸ hok)
      refine ⟨n, hn, hrest, fun us hus => ?_⟩
      have hne : n ≠ 0 := by
        rintro rfl
        exact ne_of_statement htarget hok hrest
      rw [hsame hne hus]
      exact hfront us hus
    · obtain ⟨n, hn, htoken, hfront⟩ := hplain.error (statement_of_target htarget ▸ herror)
      refine ⟨n, hn, htoken, hfront.imp_right (.imp_right fun hfront us hus => ?_)⟩
      by_cases hzero : n = 0
      · subst hzero
        rcases target_cases us with hkey | hus' | ⟨t, e, rest, rfl, ht, he⟩
        · exact hkey.refuses
        · rw [statement_of_target hus']
          exact hfront us hus
        · -- alone, the name would be a statement
          have hone : Refuses (statement ([t] ++ [])) := hfront [t] hus
          exact absurd hone ((IsStatement.of_primary ⟨_, .name ht⟩).not_refuses (by simp))
      · rw [hsame hzero hus]
        exact hfront us hus
  · refine .cons (not_tooLong_of_kind (by simp [ht.1]))
      (.cons (not_tooLong_of_kind (by simp [(isAssignment_iff.1 he).1])) ?_)
    have hassign : ∀ us, Derivable (.chain .or) us → IsStatement ([t, e] ++ us) := by
      rintro us ⟨x, h⟩
      exact ⟨_, .assign (d := ⊤) ht he h⟩
    have hend := ended_prompt (some t.lower) hassign rest
    exact hend.congr fun us _ => statement_of_target (target_of_assignment ht he us)

/-! ### Scripts -/

/-- The tokens end with a separator, or there are none. -/
def Closed (front : List Token) : Prop := ∀ t ∈ front.getLast?, t.kind = .separator

theorem Separators.closed {ts : List Token} (h : Separators ts) : Closed ts :=
  fun t ht => h t (List.mem_of_getLast? ht)

theorem Closed.statementTokens_append {front : List Token} (h : Closed front) (ts : List Token) :
    statementTokens (front ++ ts) = statementTokens front ++ statementTokens ts := by
  rcases List.eq_nil_or_concat' front with rfl | ⟨us, t, rfl⟩
  · rfl
  · have ht : t.kind = .separator := h t (by simp)
    rw [List.append_assoc, List.singleton_append, statementTokens_append_separator ht,
      statementTokens_append_separator ht]
    simp [statementTokens]

/-- Behind the statements of `front`, the one that starts with `first` fails. -/
structure FailsBehind (front : List Token) (first : Token) (rest : List Token) (cause : ParseCause)
    (token : Option Token) : Prop where
  closed : Closed front
  isStatement : ∀ run ∈ statementTokens front, IsStatement run
  starts : first.kind ≠ .separator
  fails : statement (first :: rest) = .error (.at cause token) ∨ cause.IsLimit ∧ token = some first

/-- One more statement in front. -/
theorem FailsBehind.cons {before run front rest : List Token} {t first : Token} {w : Written}
    {cause : ParseCause} {token : Option Token}
    (h : FailsBehind (t :: front) first rest cause token) (hbefore : Separators before)
    (hrun : DerivesStatement ⊤ run w) (ht : t.kind = .separator) :
    FailsBehind (before ++ (run ++ t :: front)) first rest cause token where
  closed := by simpa [Closed] using h.closed
  isStatement := by
    rw [statementTokens_separators_append hbefore,
      statementTokens_append hrun.ne_nil hrun.not_separator (by simpa using ht)]
    exact List.forall_mem_cons.2 ⟨⟨w, hrun⟩, h.isStatement⟩
  starts := h.starts
  fails := h.fails

/-- **Reading statements fails at the first one that fails.** -/
theorem exists_failsBehind {fuel : Nat} {p : Partial} {ts : List Token} {cause : ParseCause}
    {token : Option Token} (h : statements fuel p ts = .error (.at cause token)) :
    ∃ front first rest, ts = front ++ first :: rest ∧ FailsBehind front first rest cause token := by
  induction fuel generalizing p ts with
  | zero => cases h
  | succ fuel ih =>
    obtain ⟨before, hts, hbefore⟩ := exists_separators ts
    rw [statements_succ] at h
    cases hskip : skipSeparators ts with
    | nil =>
      rw [hskip] at h
      cases h
    | cons first rest =>
      rw [hskip] at h hts
      have hhere : (statement (first :: rest) = .error (.at cause token) ∨
          cause.IsLimit ∧ token = some first) → FailsBehind before first rest cause token :=
        .mk hbefore.closed (by simp [hbefore.statementTokens_eq_nil]) (kind_of_skipSeparators hskip)
      rcases bind_eq_error_iff.1 h with htarget | ⟨⟨symbol, us⟩, htarget, h⟩
      · exact ⟨before, first, rest, hts, hhere (.inl (by rw [statement, htarget]; rfl))⟩
      have hstatement := statement_of_target htarget
      rcases bind_eq_error_iff.1 h with he | ⟨⟨e, vs⟩, he, h⟩
      · exact ⟨before, first, rest, hts, hhere (.inl (by rw [hstatement, he]; rfl))⟩
      rcases bind_eq_error_iff.1 h with hadd | ⟨q, -, h⟩
      · obtain ⟨x, hx⟩ := add_eq_error hadd
        cases hx
        exact ⟨before, first, rest, hts, hhere (.inr ⟨trivial, rfl⟩)⟩
      cases vs with
      | nil => cases h
      | cons t vs =>
        simp only at h
        split at h
        · -- this statement is read, so one behind it fails
          rename_i hsep
          obtain ⟨run, heq, hrun⟩ := statement_sound htarget he le_top
          obtain ⟨front, first', rest', htail, hbehind⟩ := ih h
          cases front with
          | nil =>
            cases htail
            exact absurd hsep hbehind.starts
          | cons t' front =>
            obtain ⟨rfl, htail⟩ := List.cons.inj htail
            exact ⟨before ++ (run ++ t :: front), first', rest', by simp [hts, heq, htail],
              hbehind.cons hbefore hrun hsep⟩
        · rename_i hsep
          cases h
          have hend : statement (first :: rest) =
              .error (.at (.unexpectedToken t.text) (some t)) := by
            rw [hstatement, he]
            exact if_neg hsep
          exact ⟨before, first, rest, hts, hhere (.inl hend)⟩

/-- Where there is a statement, there is a result. -/
theorem separators_of_result_eq_none {ts : List Token} {p : Partial}
    (h : statements (ts.length + 1) .empty ts = .ok p) (hp : p.result = none) : Separators ts := by
  rcases statements_sound le_top (Nat.lt_succ_self _) reads_empty h with
    ⟨hs, -⟩ | ⟨ws, hws, hread, -⟩
  · exact hs
  · have hlast := hread.result_eq
    rw [hp, Option.map_none, eq_comm, List.getLast?_eq_none_iff] at hlast
    obtain ⟨_, _, _, -, -, -, hbody⟩ := hws
    exact absurd hlast (trees_ne_nil hbody.ne_nil)

/-- The tokens derive from a script. -/
def IsExactScript (ts : List Token) : Prop := ∃ ws, DerivesScript ⊤ ts ws

/-- The tokens derive from a script, where numbers in brackets may have any number of digits. -/
def IsScript (ts : List Token) : Prop := ∃ us, List.Forall₂ Shortened us ts ∧ IsExactScript us

/-- Without numbers that are too long there is no difference. -/
theorem isScript_iff {ts : List Token} (h : ∀ t ∈ ts, ¬ TooLong t) :
    IsScript ts ↔ ∃ ws, DerivesScript ⊤ ts ws := by
  constructor
  · rintro ⟨us, hus, hscript⟩
    rwa [eq_of_forall₂_shortened hus h] at hscript
  · intro hscript
    exact ⟨ts, forall₂_shortened_refl ts, hscript⟩

/-- The tokens are the beginning of a script. -/
def BeginsScript (ts : List Token) : Prop := ∃ more, IsScript (ts ++ more)

theorem Viable.beginsScript {before : List Token} (h : Viable IsExactScript before) :
    BeginsScript before := by
  rcases h with ⟨more, h⟩ | ⟨front, number, short, more, rfl, hshort, h⟩
  · exact ⟨more, _, forall₂_shortened_refl _, h⟩
  · refine ⟨more, front ++ short :: more, ?_, h⟩
    rw [List.append_assoc]
    exact List.rel_append (forall₂_shortened_refl front)
      (.cons hshort (forall₂_shortened_refl more))

/-- No number has to be shortened if the last one is not too long. -/
theorem Viable.exists_derivesScript {before : List Token} (h : Viable IsExactScript before)
    (hlast : ∀ t ∈ before.getLast?, ¬ TooLong t) :
    ∃ more ws, DerivesScript ⊤ (before ++ more) ws := by
  rcases h with h | ⟨front, number, short, more, rfl, hshort, h⟩
  · exact h
  · obtain rfl := hshort.eq_of_not_tooLong (hlast number (by simp))
    rw [List.append_cons] at h
    exact ⟨more, h⟩

theorem exists_forall₂_iff {α β : Type} {r : α → β → Prop} {as : List α} :
    (∃ bs, List.Forall₂ r as bs) ↔ ∀ a ∈ as, ∃ b, r a b := by
  induction as with
  | nil => simp
  | cons a as ih =>
    rw [List.forall_mem_cons, ← ih]
    constructor
    · rintro ⟨_, _ | ⟨h, hs⟩⟩
      exact ⟨⟨_, h⟩, _, hs⟩
    · rintro ⟨⟨b, h⟩, bs, hs⟩
      exact ⟨b :: bs, .cons h hs⟩

/-- Statements make a script. -/
theorem isExactScript_iff {ts : List Token} :
    IsExactScript ts ↔ statementTokens ts ≠ [] ∧ ∀ run ∈ statementTokens ts, IsStatement run := by
  simp only [IsExactScript, derivesScript_iff, IsStatement, ← exists_forall₂_iff]
  constructor
  · rintro ⟨ws, h, hne⟩
    refine ⟨fun hnil => hne ?_, ws, h⟩
    rw [hnil] at h
    exact List.forall₂_nil_left_iff.1 h
  · rintro ⟨hne, ws, h⟩
    refine ⟨ws, h, ?_⟩
    rintro rfl
    exact hne (List.forall₂_nil_right_iff.1 h)

/-- A statement behind others makes a script. -/
theorem isExactScript_append {front ts : List Token} (hfront : Closed front)
    (hruns : ∀ run ∈ statementTokens front, IsStatement run) (h : IsStatement ts) :
    IsExactScript (front ++ ts) := by
  obtain ⟨w, hw⟩ := h
  rw [isExactScript_iff, hfront.statementTokens_append, ← List.append_nil ts,
    statementTokens_append hw.ne_nil hw.not_separator (by simp)]
  refine ⟨by simp, fun run hrun => ?_⟩
  rcases List.mem_append.1 hrun with hrun | hrun
  · exact hruns run hrun
  · obtain rfl : run = ts := by simpa [statementTokens] using hrun
    exact ⟨w, hw⟩

/-- A statement of a script is not refused. -/
theorem IsExactScript.not_refuses {front rest : List Token} {t : Token}
    (h : IsExactScript (front ++ t :: rest)) (hfront : Closed front) (ht : t.kind ≠ .separator) :
    ¬ Refuses (statement (t :: rest)) := by
  rcases separators_or_exists_run (t :: rest) with hs | ⟨before, run, after, heq, hb, hne, hrun, ha⟩
  · exact absurd (hs t List.mem_cons_self) ht
  · obtain rfl : before = [] := by
      cases before with
      | nil => rfl
      | cons t' before =>
        cases heq
        exact absurd (hb t List.mem_cons_self) ht
    rw [List.nil_append] at heq
    rw [isExactScript_iff, hfront.statementTokens_append, heq, statementTokens_append hne hrun ha]
      at h
    rw [heq]
    exact (h.2 run (by simp)).not_refuses ha

theorem Closed.of_shortened {front front' : List Token} (h : Closed front)
    (hf : List.Forall₂ Shortened front' front) : Closed front' := by
  have hkinds : front'.map Token.kind = front.map Token.kind := by
    rw [← List.forall₂_eq_eq_eq, List.forall₂_map_left_iff, List.forall₂_map_right_iff]
    exact hf.imp fun _ _ => Shortened.kind_eq
  intro t ht
  have hlast : (front.getLast?).map Token.kind = some t.kind := by
    rw [← List.getLast?_map, ← hkinds, List.getLast?_map, Option.mem_def.1 ht, Option.map_some]
  obtain ⟨t', ht', hkind⟩ := Option.map_eq_some_iff.1 hlast
  rw [← hkind]
  exact h t' ht'

namespace FailsBehind

variable {front rest : List Token} {first : Token} {cause : ParseCause} {token : Option Token}
  {n : Nat}

theorem viable (h : FailsBehind front first rest cause token)
    (hv : Viable IsStatement ((first :: rest).take n)) :
    Viable IsExactScript ((front ++ first :: rest).take (front.length + n)) := by
  rw [List.take_length_add_append]
  exact hv.append front fun us hus =>
    ⟨[], by simpa using isExactScript_append h.closed h.isStatement hus⟩

/-- Tokens that the statement refuses are no beginning of a script behind the others. -/
theorem not_beginsScript (h : FailsBehind front first rest cause token) (hn : n ≤ rest.length)
    (hr : ∀ us, SameFront n us (first :: rest) → Refuses (statement us)) :
    ¬ BeginsScript ((front ++ first :: rest).take (front.length + (n + 1))) := by
  rintro ⟨more, us, hus, hscript⟩
  rw [List.take_length_add_append, List.append_assoc] at hus
  -- the script has such a front and such tokens behind it
  have hclosed := h.closed.of_shortened (List.forall₂_take_append _ _ _ hus)
  have hbehind := List.forall₂_take (n + 1) (List.forall₂_drop_append _ _ _ hus)
  rw [List.take_append_of_le_length (by simpa using hn), List.take_take, Nat.min_self] at hbehind
  obtain ⟨u, us', hdrop, hu, -⟩ := SameFront.exists_cons hbehind
  rw [← List.take_append_drop front.length us, hdrop] at hscript
  exact hscript.not_refuses hclosed (hu.kind_eq ▸ h.starts) (hdrop ▸ hr _ hbehind)

end FailsBehind

/-- **The first impossible token.**  If reading statements fails, then at a token or behind all of
them.  If it is not for a limit, then the tokens before are the beginning of a script, once the last
one is shortened if it is too long a number, and with the next one they are none; where a keyword is
assigned, they are none with the next two. -/
theorem statements_first_impossible {fuel : Nat} {p : Partial} {ts : List Token}
    {cause : ParseCause} {token : Option Token}
    (h : statements fuel p ts = .error (.at cause token)) :
    ∃ n ≤ ts.length, ts[n]? = token ∧ (¬ cause.IsLimit → Viable IsExactScript (ts.take n) ∧
      ∀ t, token = some t → ¬ BeginsScript (ts.take (n + 1)) ∨
        cause = .assignedKeyword t.text ∧ AssignsKeyword (ts.drop n) ∧
          ¬ BeginsScript (ts.take (n + 2))) := by
  obtain ⟨front, first, rest, rfl, hfails⟩ := exists_failsBehind h
  have hget : ∀ n, (front ++ first :: rest)[front.length + n]? = (first :: rest)[n]? := fun n => by
    rw [List.getElem?_append_right (Nat.le_add_right _ n), Nat.add_sub_cancel_left]
  rcases hfails.fails with hs | ⟨hlimit, rfl⟩
  · by_cases hkey : AssignsKeyword (first :: rest)
    · obtain ⟨t, ht, htarget⟩ := target_of_assignsKeyword hkey
      rw [statement, htarget] at hs
      cases ht
      cases hs
      refine ⟨front.length, by simp, hget 0, fun _ => ⟨hfails.viable (n := 0) ?_, ?_⟩⟩
      · exact .inl ⟨[zero], .of_primary derivable_zero⟩
      · rintro _ ⟨⟩
        refine .inr ⟨rfl, by rwa [List.drop_left], ?_⟩
        refine hfails.not_beginsScript (n := 1) ?_ fun us hus => (hkey.of_sameFront hus).refuses
        obtain ⟨t, e, rest, heq, -⟩ := hkey
        cases heq
        simp
    · obtain ⟨n, hn, rfl, hresult⟩ := (statement_prompt hkey).error hs
      refine ⟨front.length + n, by simpa using hn, hget n, fun hc => ?_⟩
      obtain ⟨hv, hr⟩ := hresult.resolve_left hc
      refine ⟨hfails.viable hv, fun t ht => .inl (hfails.not_beginsScript ?_ hr)⟩
      exact Nat.le_of_lt_succ (List.getElem?_eq_some_iff.1 ht).1
  · exact ⟨front.length, by simp, hget 0, fun hc => absurd hlimit hc⟩

end Grammar

open Grammar Program

/-- The error stands in the text: at its token, or without one at the end; but the error of a script
that has no statement stands at the start. -/
def ParseError.StandsIn (e : ParseError) (source : String) : Prop :=
  ∃ n ≤ source.length, e.position = some n ∧
    match e.token with
    | some text => text.toList <+: source.toList.drop n
    | none => n = source.length ∨ n = 0 ∧ ∃ ts, Token.scan source = .ok ts ∧ Separators ts

/-- The error is at the token, or without one at the end of the text. -/
def ParseError.IsAt (e : ParseError) (source : String) (token : Option Token) : Prop :=
  e.position = some ((token.map Token.position).getD source.length) ∧
    e.token = token.map Token.text

theorem StandsAt.standsIn {e : ParseError} {source text : String} {n : Nat}
    (h : StandsAt text.toList source.toList n) (hn : e.position = some n)
    (htext : e.token = some text) : e.StandsIn source := by
  refine ⟨n, String.length_toList ▸ h.position_le, hn, ?_⟩
  rw [htext]
  exact h.isPrefix

theorem ParseError.IsAt.standsIn {e : ParseError} {source : String} {ts : List Token}
    {token : Option Token} (h : e.IsAt source token) (hts : StandIn ts source.toList)
    (htoken : ∀ t ∈ token, t ∈ ts) : e.StandsIn source := by
  cases token with
  | some t => exact (hts t (htoken t rfl)).standsIn h.1 h.2
  | none =>
    refine ⟨source.length, le_rfl, h.1, ?_⟩
    rw [h.2]
    exact .inl rfl

/-- What the error of a script comes from. -/
theorem Program.parse_error_cases {source : String} {e : ParseError}
    (h : parse source = .error (.parse e)) : Token.scan source = .error e ∨
      ∃ ts, Token.scan source = .ok ts ∧ (e = emptyScript ∧ Separators ts ∨
        ∃ cause token, statements (ts.length + 1) .empty ts = .error (.at cause token) ∧
          e.cause = cause ∧ e.IsAt source token) := by
  simp only [parse] at h
  rcases bind_eq_error_iff.1 h with h | ⟨ts, hts, h⟩
  · left
    cases hscan : Token.scan source with
    | ok ts => rw [hscan] at h; cases h
    | error e => rw [hscan] at h; cases h; rfl
  rw [mapError_eq_ok_iff] at hts
  refine .inr ⟨ts, hts, ?_⟩
  rcases bind_eq_error_iff.1 h with h | ⟨q, hq, h⟩
  · right
    cases hstatements : statements (ts.length + 1) .empty ts with
    | ok q => rw [hstatements] at h; cases h
    | error e =>
      rw [hstatements] at h
      cases e with
      | «at» cause token => cases token <;> cases h <;> exact ⟨_, _, rfl, rfl, rfl, rfl⟩
      | offsetTooLong n => cases h
  · rw [mapError_eq_ok_iff] at hq
    split at h
    · rename_i hnone
      cases h
      exact .inl ⟨rfl, separators_of_result_eq_none hq hnone⟩
    · cases h

/-- **An error is at the first impossible token.**  The error of a script stands in its text: at
the characters of its token, or without a token at the end, or at the start if there is no
statement.  If the text has tokens, and the error is not that of an empty script and not for a
limit, then the tokens before the one of the error are the beginning of a script; and with that
token they are none, or if it is a keyword that is assigned, with it and the equals sign they are
none.  Unless they end with a number of too many digits, the tokens before are the beginning of a
script in which no number of bars has too many digits. -/
theorem Program.parse_error_first_impossible {source : String} {e : ParseError}
    (h : parse source = .error (.parse e)) :
    e.StandsIn source ∧
      ∀ ts, Token.scan source = .ok ts → e ≠ emptyScript → ¬ e.cause.IsLimit →
        ∃ n ≤ ts.length, e.IsAt source ts[n]? ∧ BeginsScript (ts.take n) ∧
          ((∀ t ∈ (ts.take n).getLast?, ¬ TooLong t) →
            ∃ more ws, DerivesScript ⊤ (ts.take n ++ more) ws) ∧
          ∀ t, ts[n]? = some t → ¬ BeginsScript (ts.take (n + 1)) ∨
            e.cause = .assignedKeyword t.text ∧ AssignsKeyword (ts.drop n) ∧
              ¬ BeginsScript (ts.take (n + 2)) := by
  have hplaced := scan_placed source
  rcases parse_error_cases h with hscan | ⟨ts, hscan, hcases⟩
  · rw [hscan] at hplaced
    obtain ⟨c, n, rfl, hstands⟩ := hplaced
    rw [← String.toList_ofList (l := [c])] at hstands
    exact ⟨hstands.standsIn rfl rfl, fun ts hts => by cases hscan.symm.trans hts⟩
  · rw [hscan] at hplaced
    rcases hcases with ⟨rfl, hs⟩ | ⟨cause, token, hstatements, rfl, hat⟩
    · exact ⟨⟨0, Nat.zero_le _, rfl, .inr ⟨rfl, ts, hscan, hs⟩⟩, fun _ _ he => absurd rfl he⟩
    obtain ⟨n, hn, rfl, hresult⟩ := statements_first_impossible hstatements
    refine ⟨hat.standsIn hplaced fun t ht => List.mem_of_getElem? ht, fun us hus _ hc => ?_⟩
    cases hscan.symm.trans hus
    obtain ⟨hviable, himpossible⟩ := hresult hc
    exact ⟨n, hn, hat, hviable.beginsScript, hviable.exists_derivesScript, himpossible⟩

/-- The script `1 + ) 3`, in which no operand can be a closing parenthesis. -/
theorem Program.parse_error_first_impossible_paren :
    let ts : List Token := [⟨.number, "1", 0⟩, ⟨.operator, "+", 2⟩, ⟨.closeParen, ")", 4⟩,
      ⟨.number, "3", 6⟩]
    let e : ParseError := ⟨.unexpectedToken ")", some 4, some ")"⟩
    parse "1 + ) 3" = .error (.parse e) ∧ Token.scan "1 + ) 3" = .ok ts ∧
      e.StandsIn "1 + ) 3" ∧ BeginsScript (ts.take 2) ∧ ¬ BeginsScript (ts.take 3) := by
  intro ts e
  have hscan : Token.scan "1 + ) 3" = .ok ts := rfl
  have hstatements : statements (ts.length + 1) .empty ts =
      .error (.at e.cause ts[2]?) := by
    rw [statements_succ]
    rfl
  have hparse : parse "1 + ) 3" = .error (.parse e) := by
    simp only [Program.parse, hscan, hstatements, Except.mapError, bind, Except.bind]
    rfl
  obtain ⟨hstands, hfirst⟩ := parse_error_first_impossible hparse
  obtain ⟨n, hn, hat, hbegins, -, hnot⟩ := hfirst ts hscan (by simp [e, emptyScript]) id
  -- the third token is the one at that position
  have hplace : ∀ n ≤ ts.length, some 4 = some ((ts[n]?.map Token.position).getD 7) → n = 2 := by
    decide
  obtain rfl := hplace n hn hat.1
  refine ⟨hparse, hscan, hstands, hbegins, (hnot _ rfl).resolve_right ?_⟩
  rintro ⟨hcause, -⟩
  cases hcause

end BarScript
