import BarScript.Proofs.Grammar.Inline
import BarScript.Proofs.Token.Scan
import Mathlib.Data.List.DropRight
import Mathlib.Data.List.Forall2

/-!
# One script, several spellings

Words do not depend on the case of their letters, each logical operator is a word or a symbol, a
statement ends with a semicolon or with its line, and where a token stands does not matter.
`Token.spelling` is what is left of a token, and `spelled` what is left of a script that is also rid
of the separators at its ends and of all but one of those in a row.

Each question the grammar asks of a token has an answer in its spelling (`isNot_iff`, `isName_iff`,
`isOperator_iff` and so on), so a derivation is one of the other spelling as well, with the same
tree (`Derives.respelled`).  Two scripts that are spelled alike have statements that are
(`forall₂_statementTokens`), and are read in two steps to the same trees (`InTwoSteps.respelled`).
-/

namespace BarScript

namespace Token

/-- The operators that are words as well. -/
def synonyms : List (String × String) := [("&&", "and"), ("||", "or"), ("!", "not")]

/-- What matters of a token: its kind and its text, up to the case of letters and to the choice
between the two spellings of an operator or a separator. -/
def spelling (t : Token) : TokenKind × String :=
  match t.kind with
  | .word => (.word, t.lower)
  | .separator => (.separator, ";")
  | .operator => match synonyms.lookup t.text with
    | some word => (.word, word)
    | none => (.operator, t.text)
  | kind => (kind, t.text)

/-- The tokens `us` are the tokens `ts`, spelled in another way. -/
def Respelled (us ts : List Token) : Prop := us.map spelling = ts.map spelling

theorem Moved.respelled {us ts : List Token} (h : Moved us ts) : Respelled us ts := by
  have := congrArg (List.map spelling) h
  rwa [List.map_map, List.map_map] at this

namespace Respelled

variable {t : Token} {us us' ts ts' : List Token}

theorem eq_nil {us : List Token} (h : Respelled us []) : us = [] := List.map_eq_nil_iff.1 h

theorem exists_cons (h : Respelled us (t :: ts)) :
    ∃ u us', us = u :: us' ∧ u.spelling = t.spelling ∧ Respelled us' ts :=
  List.map_eq_cons_iff.1 h

theorem exists_singleton (h : Respelled us [t]) : ∃ u, us = [u] ∧ u.spelling = t.spelling := by
  obtain ⟨u, us', rfl, hu, hnil⟩ := h.exists_cons
  exact ⟨u, by rw [hnil.eq_nil], hu⟩

theorem exists_append (h : Respelled us (ts ++ ts')) :
    ∃ us₁ us₂, us = us₁ ++ us₂ ∧ Respelled us₁ ts ∧ Respelled us₂ ts' := by
  rw [Respelled, List.map_append] at h
  exact List.map_eq_append_iff.1 h

end Respelled

end Token

namespace Grammar

open Statement Program Token

/-! ### What the grammar asks of a token -/

section Questions

variable {t u : Token}

theorem kind_eq_iff {k : TokenKind} (hk : k ≠ .word ∧ k ≠ .operator) :
    t.kind = k ↔ t.spelling.1 = k := by
  rw [spelling]
  cases h : t.kind with
  | operator =>
    simp only [hk.2.symm, false_iff]
    split
    · exact hk.1.symm
    · exact hk.2.symm
  | _ => rfl

theorem lookup_synonyms {text word : String} : synonyms.lookup text = some word ↔
    text = "&&" ∧ word = "and" ∨ text = "||" ∧ word = "or" ∨ text = "!" ∧ word = "not" := by
  by_cases hand : text = "&&"
  · simp [synonyms, hand, eq_comm]
  by_cases hor : text = "||"
  · simp [synonyms, hor, List.lookup_cons, eq_comm]
  by_cases hnot : text = "!"
  · simp [synonyms, hnot, List.lookup_cons, eq_comm]
  simp [synonyms, hand, hor, hnot, List.lookup_cons, beq_eq_false_iff_ne.2]

/-- What is spelled as a word is one, or an operator that is a word as well. -/
theorem spelling_eq_word_iff {word : String} : t.spelling = (.word, word) ↔
    t.kind = .word ∧ t.lower = word ∨
      t.kind = .operator ∧ synonyms.lookup t.text = some word := by
  rw [spelling]
  cases h : t.kind with
  | operator => cases hlookup : synonyms.lookup t.text <;> simp
  | _ => simp

theorem spelling_eq_operator_iff {text : String} : t.spelling = (.operator, text) ↔
    t.kind = .operator ∧ synonyms.lookup t.text = none ∧ t.text = text := by
  rw [spelling]
  cases h : t.kind with
  | operator => cases hlookup : synonyms.lookup t.text <;> simp
  | _ => simp

theorem isAnd_iff : isAnd t = true ↔ t.spelling = (.word, "and") := by
  simp [isAnd, Token.isKeyword, Token.isOperator, spelling_eq_word_iff, lookup_synonyms]

theorem isOr_iff : isOr t = true ↔ t.spelling = (.word, "or") := by
  simp [isOr, Token.isKeyword, Token.isOperator, spelling_eq_word_iff, lookup_synonyms]

theorem isNot_iff : isNot t = true ↔ t.spelling = (.word, "not") := by
  simp [isNot, Token.isKeyword, Token.isOperator, spelling_eq_word_iff, lookup_synonyms]

/-- A name has one spelling; the operators that are words as well are spelled as keywords. -/
theorem isName_iff {symbol : String} : IsName t ∧ t.lower = symbol ↔
    t.spelling = (.word, symbol) ∧ symbol ∉ keywords := by
  rw [spelling_eq_word_iff, IsName]
  constructor
  · rintro ⟨⟨hk, hname⟩, rfl⟩
    exact ⟨.inl ⟨hk, rfl⟩, hname⟩
  · rintro ⟨⟨hk, rfl⟩ | ⟨-, hlookup⟩, hname⟩
    · exact ⟨⟨hk, hname⟩, rfl⟩
    · obtain ⟨-, rfl⟩ | ⟨-, rfl⟩ | ⟨-, rfl⟩ := lookup_synonyms.1 hlookup <;>
        exact absurd hname (by decide)

theorem kind_of_spelling (hu : u.spelling = t.spelling) {k : TokenKind}
    (hk : k ≠ .word ∧ k ≠ .operator) (ht : t.kind = k) : u.kind = k := by
  rwa [kind_eq_iff hk, hu, ← kind_eq_iff hk]

theorem text_of_spelling (hu : u.spelling = t.spelling) (ht : t.kind = .number ∨ t.kind = .text) :
    u.kind = t.kind ∧ u.text = t.text := by
  have hk : ∀ k, k = .number ∨ k = .text → t.kind = k → u.kind = k ∧ u.text = t.text := by
    intro k hk htk
    have huk : u.kind = k := kind_of_spelling hu (by rcases hk with rfl | rfl <;> decide) htk
    rcases hk with rfl | rfl <;> exact ⟨huk, by simpa [spelling, huk, htk] using hu⟩
  obtain ⟨huk, htext⟩ := hk _ ht rfl
  exact ⟨huk, htext⟩

theorem isName_of_spelling (hu : u.spelling = t.spelling) (ht : IsName t) :
    IsName u ∧ u.lower = t.lower := by
  rw [isName_iff, hu, ← isName_iff]
  exact ⟨ht, rfl⟩

/-- An operator that is no word has one spelling. -/
theorem isOperator_of_spelling (hu : u.spelling = t.spelling) {operators : List String}
    (h : ∀ o ∈ operators, synonyms.lookup o = none) (ht : t.isOperator operators = true) :
    u.isOperator operators = true ∧ u.text = t.text := by
  simp only [Token.isOperator, List.contains_eq_mem, Bool.and_eq_true, decide_eq_true_eq] at ht ⊢
  have hop : t.spelling = (.operator, t.text) :=
    spelling_eq_operator_iff.2 ⟨ht.1, h _ ht.2, rfl⟩
  obtain ⟨hk, -, htext⟩ := spelling_eq_operator_iff.1 (hu.trans hop)
  exact ⟨⟨hk, htext ▸ ht.2⟩, htext⟩

/-- What a tree keeps of an operator of a chain: a logical node has a name of its own. -/
def Chain.label : Chain → Token → String
  | or, _ | and, _ => ""
  | sum, t | product, t => t.text

theorem Chain.label_of_spelling (hu : u.spelling = t.spelling) {c : Chain}
    (ht : c.isOperator t = true) : c.isOperator u = true ∧ c.label u = c.label t := by
  cases c with
  | or => exact ⟨isOr_iff.2 (hu.trans (isOr_iff.1 ht)), rfl⟩
  | and => exact ⟨isAnd_iff.2 (hu.trans (isAnd_iff.1 ht)), rfl⟩
  | sum | product => exact isOperator_of_spelling hu (by decide) ht

end Questions

/-! ### Expressions -/

/-- The tree of a chain depends on the labels of its operators only. -/
theorem Chain.tree_congr {c : Chain} {more more' : List (Token × Expr)}
    (h : more'.map (fun r => (c.label r.1, r.2)) = more.map (fun r => (c.label r.1, r.2)))
    (e : Expr) : c.tree e more' = c.tree e more := by
  have hempty : more'.isEmpty = more.isEmpty := by
    rw [← List.isEmpty_map, h, List.isEmpty_map]
  have hexpr : more'.map (·.2) = more.map (·.2) := by
    simpa [Function.comp_def] using congrArg (List.map Prod.snd) h
  have hlogical : ∀ name, logicalTree name e more' = logicalTree name e more := fun name => by
    rw [logicalTree, logicalTree, hempty, hexpr]
  have hfold : ∀ rs : List (Token × Expr), binaryTree e rs =
      (rs.map fun r => (r.1.text, r.2)).foldl (fun left r => .mk (.binary r.1 left r.2)) e :=
    fun rs => by rw [binaryTree, List.foldl_map]
  have hbinary : more'.map (fun r => (r.1.text, r.2)) = more.map (fun r => (r.1.text, r.2)) →
      binaryTree e more' = binaryTree e more := fun h => by rw [hfold, hfold, h]
  cases c with
  | or | and => exact hlogical _
  | sum | product => exact hbinary h

theorem Brackets.respelled {ts : List Token} {offsets : List Int} (h : Brackets ts offsets)
    {us : List Token} (hu : Respelled us ts) : Brackets us offsets := by
  induction h generalizing us with
  | nil => exact hu.eq_nil ▸ .nil
  | cons ho hn hwhole hshort hc _ ih =>
    obtain ⟨opening, us₁, rfl, ho', h₁⟩ := hu.exists_cons
    obtain ⟨number, us₂, rfl, hn', h₂⟩ := h₁.exists_cons
    obtain ⟨closing, us₃, rfl, hc', h₃⟩ := h₂.exists_cons
    obtain ⟨hkind, htext⟩ := text_of_spelling hn' (.inl hn)
    rw [← htext] at hwhole hshort ⊢
    exact .cons (kind_of_spelling ho' (by decide) ho) (hkind.trans hn) hwhole hshort
      (kind_of_spelling hc' (by decide) hc) (ih h₃)

mutual

/-- **How tokens are spelled does not matter.** -/
theorem Derives.respelled {d : ℕ∞} {s : Symbol} {ts us : List Token} {e : Expr} :
    Derives d s ts e → Respelled us ts → Derives d s us e
  | .chain hfirst hmore, hu => by
    obtain ⟨us₁, us₂, rfl, h₁, h₂⟩ := hu.exists_append
    obtain ⟨more, h₂, heq⟩ := hmore.respelled h₂
    rw [← Chain.tree_congr heq]
    exact .chain (hfirst.respelled h₁) h₂
  | .negation ht h, hu => by
    obtain ⟨u, vs, rfl, hut, hvs⟩ := hu.exists_cons
    exact .negation (isNot_iff.2 (hut.trans (isNot_iff.1 ht))) (h.respelled hvs)
  | .positive h, hu => .positive (h.respelled hu)
  | .comparison hleft ht hright, hu => by
    obtain ⟨us₁, us₂, rfl, h₁, h₂⟩ := hu.exists_append
    obtain ⟨u, us₃, rfl, hut, h₃⟩ := h₂.exists_cons
    obtain ⟨hop, htext⟩ := isOperator_of_spelling hut (by decide) ht
    rw [← htext]
    exact .comparison (hleft.respelled h₁) hop (hright.respelled h₃)
  | .uncompared h, hu => .uncompared (h.respelled hu)
  | .sign ht h, hu => by
    obtain ⟨u, vs, rfl, hut, hvs⟩ := hu.exists_cons
    obtain ⟨hop, htext⟩ := isOperator_of_spelling hut (by decide) ht
    rw [← htext]
    exact .sign hop (h.respelled hvs)
  | .unsigned h, hu => .unsigned (h.respelled hu)
  | .indexed h hb, hu => by
    obtain ⟨us₁, us₂, rfl, h₁, h₂⟩ := hu.exists_append
    exact .indexed (h.respelled h₁) (hb.respelled h₂)
  | .number ht, hu => by
    obtain ⟨u, rfl, hut⟩ := hu.exists_singleton
    obtain ⟨hkind, htext⟩ := text_of_spelling hut (.inl ht)
    rw [literal, ← htext]
    exact .number (hkind.trans ht)
  | .text ht, hu => by
    obtain ⟨u, rfl, hut⟩ := hu.exists_singleton
    obtain ⟨hkind, htext⟩ := text_of_spelling hut (.inr ht)
    rw [unquoted, ← htext]
    exact .text (hkind.trans ht)
  | .name ht, hu => by
    obtain ⟨u, rfl, hut⟩ := hu.exists_singleton
    obtain ⟨hname, hlower⟩ := isName_of_spelling hut ht
    exact hlower ▸ .name hname
  | .call ht ho hc, hu => by
    obtain ⟨u, us₁, rfl, hut, h₁⟩ := hu.exists_cons
    obtain ⟨opening, us₂, rfl, ho', h₂⟩ := h₁.exists_cons
    obtain ⟨closing, rfl, hc'⟩ := h₂.exists_singleton
    obtain ⟨hname, hlower⟩ := isName_of_spelling hut ht
    exact hlower ▸ .call hname (kind_of_spelling ho' (by decide) ho)
      (kind_of_spelling hc' (by decide) hc)
  | .callWith ht ho h hc, hu => by
    obtain ⟨us₁, us₂, rfl, h₁, h₂⟩ := hu.exists_append
    obtain ⟨u, us₃, rfl, hut, h₃⟩ := h₁.exists_cons
    obtain ⟨opening, us₄, rfl, ho', h₄⟩ := h₃.exists_cons
    obtain ⟨closing, rfl, hc'⟩ := h₂.exists_singleton
    obtain ⟨hname, hlower⟩ := isName_of_spelling hut ht
    exact hlower ▸ .callWith hname (kind_of_spelling ho' (by decide) ho) (h.respelled h₄)
      (kind_of_spelling hc' (by decide) hc)
  | .group ho h hc, hu => by
    obtain ⟨us₁, us₂, rfl, h₁, h₂⟩ := hu.exists_append
    obtain ⟨opening, us₃, rfl, ho', h₃⟩ := h₁.exists_cons
    obtain ⟨closing, rfl, hc'⟩ := h₂.exists_singleton
    exact .group (kind_of_spelling ho' (by decide) ho) (h.respelled h₃)
      (kind_of_spelling hc' (by decide) hc)

theorem More.respelled {d : ℕ∞} {c : Chain} {ts us : List Token} {more : List (Token × Expr)} :
    More d c ts more → Respelled us ts → ∃ more', More d c us more' ∧
      more'.map (fun r => (c.label r.1, r.2)) = more.map (fun r => (c.label r.1, r.2))
  | .nil, hu => by
    rw [hu.eq_nil]
    exact ⟨[], .nil, rfl⟩
  | .cons ht h hmore, hu => by
    obtain ⟨us₁, us₂, rfl, h₁, h₂⟩ := hu.exists_append
    obtain ⟨u, us₃, rfl, hut, h₃⟩ := h₁.exists_cons
    obtain ⟨more, hmore, heq⟩ := hmore.respelled h₂
    obtain ⟨hop, hlabel⟩ := Chain.label_of_spelling hut ht
    exact ⟨_, .cons hop (h.respelled h₃) hmore, by rw [List.map_cons, List.map_cons, heq, hlabel]⟩

theorem Arguments.respelled {d : ℕ∞} {ts us : List Token} {es : List Expr} :
    Arguments d ts es → Respelled us ts → Arguments d us es
  | .one h, hu => .one (h.respelled hu)
  | .cons h ht hrest, hu => by
    obtain ⟨us₁, us₂, rfl, h₁, h₂⟩ := hu.exists_append
    obtain ⟨comma, us₃, rfl, hcomma, h₃⟩ := h₂.exists_cons
    exact .cons (h.respelled h₁) (kind_of_spelling hcomma (by decide) ht) (hrest.respelled h₃)

end

theorem DerivesStatement.respelled {d : ℕ∞} {ts us : List Token} {w : Written}
    (h : DerivesStatement d ts w) (hu : Respelled us ts) : DerivesStatement d us w := by
  cases h with
  | assign ht he h =>
    obtain ⟨u, us₁, rfl, hut, h₁⟩ := hu.exists_cons
    obtain ⟨equals, us₂, rfl, hequals, h₂⟩ := h₁.exists_cons
    obtain ⟨hname, hlower⟩ := isName_of_spelling hut ht
    exact hlower ▸ .assign hname (isOperator_of_spelling hequals (by decide) he).1
      (h.respelled h₂)
  | plain h => exact .plain (h.respelled hu)

/-- A statement is read alone in any spelling. -/
theorem ReadsAlone.respelled {ts us : List Token} {w : Written} (h : ReadsAlone ts w)
    (hu : Respelled us ts) : ReadsAlone us w :=
  (h.derives.respelled hu).readsAlone

/-! ### Scripts -/

section Scripts

variable {ts us : List Token} {ws : List Written} {es : List Expr}

/-- Separators in a row become one. -/
def single : List Token → List Token
  | t :: u :: ts =>
    if t.kind = .separator ∧ u.kind = .separator then single (u :: ts) else t :: single (u :: ts)
  | ts => ts

/-- The spelling of a script: the spellings of its tokens, without separators at the two ends and
with one separator for several in a row. -/
def spelled (ts : List Token) : List (TokenKind × String) :=
  ((single (skipSeparators ts)).rdropWhile fun t => t.kind = .separator).map spelling

theorem statementTokens_append_single (us ts : List Token) :
    statementTokens (us ++ single ts) = statementTokens (us ++ ts) := by
  induction ts using single.induct generalizing us with
  | case1 t u ts h ih =>
    rw [single, if_pos h, ih, statementTokens_append_separator h.2,
      statementTokens_append_separator h.1, statementTokens_cons_separator h.2]
  | case2 t u ts h ih =>
    rw [single, if_neg h]
    simpa using ih (us ++ [t])
  | case3 ts h =>
    rw [single]
    exact h

/-- The separators that are dropped end no statement. -/
theorem statementTokens_dropped (ts : List Token) :
    statementTokens ((single (skipSeparators ts)).rdropWhile fun t => t.kind = .separator) =
      statementTokens ts := by
  obtain ⟨before, hts, hbefore⟩ := exists_separators ts
  have hafter : Separators ((single (skipSeparators ts)).rtakeWhile fun t => t.kind = .separator) :=
    fun t ht => by simpa using List.mem_rtakeWhile_imp ht
  rw [← statementTokens_append_separators _ hafter, List.rdropWhile_append_rtakeWhile]
  conv_rhs => rw [hts, statementTokens_separators_append hbefore]
  exact statementTokens_append_single [] _

theorem splitOnP_map {α β : Type} (f : α → β) (p : β → Bool) (xs : List α) :
    (xs.map f).splitOnP p = (xs.splitOnP (p ∘ f)).map (List.map f) := by
  induction xs with
  | nil => rfl
  | cons x xs ih =>
    rw [List.map_cons, List.splitOnP_cons_eq_if_modifyHead, List.splitOnP_cons_eq_if_modifyHead, ih]
    split <;> cases h : xs.splitOnP (p ∘ f) <;> simp_all

/-- The statements of a script can be told from its spelling. -/
theorem map_statementTokens (ts : List Token) : (statementTokens ts).map (List.map spelling) =
    ((ts.map spelling).splitOnP fun r => r.1 = .separator).filter fun run => !run.isEmpty := by
  have hsep : ((fun r : TokenKind × String => decide (r.1 = .separator)) ∘ spelling) =
      fun t : Token => decide (t.kind = .separator) := by
    funext t
    exact decide_eq_decide.2 (kind_eq_iff (by decide)).symm
  rw [statementTokens, splitOnP_map, hsep, List.filter_map]
  congr 2
  funext run
  simp

theorem forall₂_statementTokens (h : Respelled us ts) :
    List.Forall₂ Respelled (statementTokens us) (statementTokens ts) := by
  have heq : (statementTokens us).map (List.map spelling) =
      (statementTokens ts).map (List.map spelling) := by
    rw [map_statementTokens, map_statementTokens, h]
  rwa [← List.forall₂_eq_eq_eq, List.forall₂_map_left_iff, List.forall₂_map_right_iff] at heq

theorem forall₂_readsAlone_respelled {runs runs' : List (List Token)}
    (h : List.Forall₂ ReadsAlone runs ws) (hu : List.Forall₂ Respelled runs' runs) :
    List.Forall₂ ReadsAlone runs' ws := by
  induction h generalizing runs' with
  | nil =>
    cases hu
    exact .nil
  | cons hw _ ih =>
    obtain ⟨run, runs', hrun, hruns, rfl⟩ := List.forall₂_cons_right_iff.1 hu
    exact .cons (hw.respelled hrun) (ih hruns)

/-- **A script is read in two steps in any spelling**, to the same trees. -/
theorem InTwoSteps.respelled (h : InTwoSteps ts ws es) (hu : Respelled us ts) :
    InTwoSteps us ws es :=
  ⟨h.ne_nil, forall₂_readsAlone_respelled h.alone (forall₂_statementTokens hu), h.inlined,
    h.within⟩

/-- So it is if separators are dropped or repeated. -/
theorem InTwoSteps.of_spelled_eq (h : InTwoSteps ts ws es) (hu : spelled us = spelled ts) :
    InTwoSteps us ws es :=
  ((h.of_statementTokens_eq (statementTokens_dropped ts)).respelled hu).of_statementTokens_eq
    (statementTokens_dropped us).symm

end Scripts

end Grammar

end BarScript
