import BarScript.Proofs.Grammar.Text

/-!
# Two sides in one script

Tokens of one statement (`IsOneStatement`) may stand behind other statements or behind a name with
an equals sign.  What has been read then is read again without the name, and the other way round:

* `readsAlone_append_iff` : statements and a last one behind them;
* `readsAlone_sides_iff` : a statement for `buy` and one for `sell` on the next line.

Both need that no separator among the tokens takes part.  A separator that is read divides the
tokens into statements with balanced brackets, and those of one statement have separators only where
a bracket is open (`IsOneStatement.not_separator`).  In the same way a bracket that the first side
left open would hide the line end in front of the second side, and then the second equals sign would
stand inside of a statement.
-/

namespace BarScript

theorem forall₂_append_left {α β : Type} {R : α → β → Prop} {as bs : List α} {cs : List β}
    (h : List.Forall₂ R (as ++ bs) cs) :
    ∃ cs₁ cs₂, cs = cs₁ ++ cs₂ ∧ List.Forall₂ R as cs₁ ∧ List.Forall₂ R bs cs₂ := by
  induction as generalizing cs with
  | nil => exact ⟨[], cs, rfl, .nil, h⟩
  | cons a as ih =>
    obtain ⟨c, cs, hac, hcs, rfl⟩ := List.forall₂_cons_left_iff.1 h
    obtain ⟨cs₁, cs₂, rfl, h₁, h₂⟩ := ih hcs
    exact ⟨c :: cs₁, cs₂, rfl, .cons hac h₁, h₂⟩

namespace Grammar

open Statement Token

/-! ### Statements read alone -/

/-- Every statement is read alone. -/
def AllRead (runs : List (List Token)) : Prop := ∀ run ∈ runs, ∃ w, ReadsAlone run w

theorem allRead_of_forall₂ {runs : List (List Token)} {ws : List Written}
    (h : List.Forall₂ ReadsAlone runs ws) : AllRead runs := by
  induction h with
  | nil => simp [AllRead]
  | cons hw _ ih => exact List.forall_mem_cons.2 ⟨⟨_, hw⟩, ih⟩

theorem ReadsAlone.unique {ts : List Token} {w w' : Written} (h : ReadsAlone ts w)
    (h' : ReadsAlone ts w') : w = w' := by
  obtain ⟨us, ht, he⟩ := readsAlone_iff.1 h
  obtain ⟨us', ht', he'⟩ := readsAlone_iff.1 h'
  obtain ⟨hsymbol, rfl⟩ := Prod.mk.inj (Except.ok.inj (ht.symm.trans ht'))
  obtain ⟨hexpr, -⟩ := Prod.mk.inj (Except.ok.inj (he.symm.trans he'))
  cases w
  cases w'
  simp_all

theorem forall₂_readsAlone_unique {runs : List (List Token)} {ws ws' : List Written}
    (h : List.Forall₂ ReadsAlone runs ws) (h' : List.Forall₂ ReadsAlone runs ws') : ws = ws' :=
  List.right_unique_forall₂' (R := ReadsAlone) (fun _ _ _ => ReadsAlone.unique) h h'

/-- What assigns no name has no single equals sign. -/
theorem DerivesStatement.isPart {d : ℕ∞} {ts : List Token} {x : Expr}
    (h : DerivesStatement d ts ⟨none, x⟩) : ∀ t ∈ ts, IsPart t := by
  cases h with
  | plain h => exact h.isPart

/-- A token and an equals sign in front of a statement can only be the name that it assigns. -/
theorem DerivesStatement.of_assign {d : ℕ∞} {t e : Token} {ts : List Token} {w : Written}
    (he : isAssignment e = true) (h : DerivesStatement d (t :: e :: ts) w) :
    ∃ x, w = ⟨some t.lower, x⟩ ∧ DerivesStatement d ts ⟨none, x⟩ := by
  cases h with
  | assign _ _ h => exact ⟨_, rfl, .plain h⟩
  | plain h =>
    have := (h.isPart e (by simp)).not_assignment
    rw [he] at this
    cases this

theorem DerivesStatement.assign_of_plain {d : ℕ∞} {t e : Token} {ts : List Token} {x : Expr}
    (ht : IsName t) (he : isAssignment e = true) (h : DerivesStatement d ts ⟨none, x⟩) :
    DerivesStatement d (t :: e :: ts) ⟨some t.lower, x⟩ := by
  cases h with
  | plain h => exact .assign ht he h

/-! ### One statement -/

/-- Tokens that are meant as one statement without a name: there are some, separators among them
stand inside of brackets only, and no word is in front with an equals sign. -/
structure IsOneStatement (ts : List Token) : Prop where
  ne_nil : ts ≠ []
  separator_inside : ∀ us t vs, ts = us ++ t :: vs → t.kind = .separator → depthBehind 0 us ≠ 0
  not_assignment : ∀ t e us, ts = t :: e :: us → t.kind = .word → isAssignment e = false

namespace IsOneStatement

variable {ts : List Token}

theorem moved (h : IsOneStatement ts) {us : List Token} (hu : Moved us ts) : IsOneStatement us where
  ne_nil := hu.ne_nil h.ne_nil
  separator_inside := by
    rintro us₁ t us₂ rfl hk
    obtain ⟨ts₁, ts₂, rfl, h₁, h₂⟩ := hu.symm.exists_append
    obtain ⟨n, ts₂, rfl, h₃⟩ := h₂.exists_cons
    rw [← h₁.depthBehind_eq]
    exact h.separator_inside _ _ _ rfl hk
  not_assignment := by
    rintro t e us rfl hk
    obtain ⟨n, ts₁, rfl, h₁⟩ := hu.symm.exists_cons
    obtain ⟨n', ts₂, rfl, h₂⟩ := h₁.exists_cons
    exact h.not_assignment { t with position := n } { e with position := n' } ts₂ rfl hk

theorem not_separators (h : IsOneStatement ts) : ¬ Separators ts := by
  intro hs
  obtain ⟨t, us, rfl⟩ := List.exists_cons_of_ne_nil h.ne_nil
  exact h.separator_inside [] t us rfl (hs t List.mem_cons_self) rfl

/-- **Where one statement can be read there is no separator in it.** -/
theorem not_separator (h : IsOneStatement ts) {front rest : List Token}
    (hfront : depthBehind 0 front = 0) (hread : AllRead (statementTokens (front ++ (ts ++ rest)))) :
    ∀ t ∈ ts, t.kind ≠ .separator := by
  intro t ht hk
  obtain ⟨us, vs, rfl⟩ := List.append_of_mem ht
  refine h.separator_inside us t vs rfl hk ?_
  -- the statements in front of the separator leave no bracket open
  have hsplit : front ++ ((us ++ t :: vs) ++ rest) = (front ++ us) ++ t :: (vs ++ rest) := by simp
  rw [hsplit, statementTokens_append_separator hk] at hread
  have hdepth := depthBehind_of_forall_readsAlone
    (fun run hrun => hread run (List.mem_append_left _ hrun)) 0
  rwa [depthBehind_append, hfront] at hdepth

theorem symbol_eq_none (h : IsOneStatement ts) {d : ℕ∞} {w : Written}
    (hw : DerivesStatement d ts w) : w.symbol = none := by
  cases hw with
  | assign ht he _ =>
    rw [h.not_assignment _ _ _ rfl ht.1] at he
    cases he
  | plain => rfl

/-- One statement that is read gives an expression. -/
theorem exists_readsAlone (h : IsOneStatement ts) {ws : List Written}
    (hws : List.Forall₂ ReadsAlone (statementTokens ts) ws) :
    ∃ x, ws = [⟨none, x⟩] ∧ ReadsAlone ts ⟨none, x⟩ := by
  have hread : AllRead (statementTokens ([] ++ (ts ++ []))) := by
    simpa using allRead_of_forall₂ hws
  have hsep := h.not_separator rfl hread
  rw [statementTokens_eq_singleton h.ne_nil hsep] at hws
  obtain ⟨⟨symbol, x⟩, _, hw, hnil, rfl⟩ := List.forall₂_cons_left_iff.1 hws
  cases hnil
  obtain rfl : symbol = none := h.symbol_eq_none hw.derives
  exact ⟨x, rfl, hw⟩

end IsOneStatement

theorem ReadsAlone.statementTokens_eq {ts : List Token} {w : Written} (h : ReadsAlone ts w) :
    statementTokens ts = [ts] :=
  statementTokens_eq_singleton h.derives.ne_nil h.derives.not_separator

/-- **One statement behind others** is read as it is read alone. -/
theorem readsAlone_append_iff {runs : List (List Token)} {ws vs : List Written} {ts : List Token}
    (hruns : List.Forall₂ ReadsAlone runs ws) (hts : IsOneStatement ts) :
    List.Forall₂ ReadsAlone (runs ++ statementTokens ts) vs ↔
      ∃ x, vs = ws ++ [⟨none, x⟩] ∧ ReadsAlone ts ⟨none, x⟩ := by
  constructor
  · intro h
    obtain ⟨ws', us, rfl, hws, hus⟩ := forall₂_append_left h
    obtain ⟨x, rfl, hx⟩ := hts.exists_readsAlone hus
    exact ⟨x, by rw [forall₂_readsAlone_unique hruns hws], hx⟩
  · rintro ⟨x, rfl, hx⟩
    rw [hx.statementTokens_eq]
    exact List.rel_append hruns (.cons hx .nil)

/-! ### A name in front -/

/-- A name and an equals sign. -/
def assigns (name : String) : List Token := [⟨.word, name, 0⟩, ⟨.operator, "=", 0⟩]

theorem depthBehind_assigns (name : String) (n : Nat) : depthBehind n (assigns name) = n := rfl

/-- A name that a token in lower case gives back. -/
structure IsSymbol (name : String) : Prop where
  lower : name.toLower = name
  not_keyword : name ∉ Token.keywords

theorem IsSymbol.lower_word {name : String} (h : IsSymbol name) (i : Nat) :
    (⟨.word, name, i⟩ : Token).lower = name :=
  h.lower

theorem IsSymbol.isName {name : String} (h : IsSymbol name) (i : Nat) :
    IsName ⟨.word, name, i⟩ :=
  ⟨rfl, (h.lower_word i).symm ▸ h.not_keyword⟩

/-- The tokens of an expression are read as a statement that assigns no name. -/
theorem Derives.readsAlone {ts : List Token} {x : Expr} (h : Derives 63 (.chain .or) ts x) :
    ReadsAlone ts ⟨none, x⟩ :=
  have hw : DerivesStatement levelLimit ts ⟨none, x⟩ := .plain h
  hw.readsAlone

theorem readsAlone_assigns_iff {name : String} (hname : IsSymbol name) {ts : List Token}
    {w : Written} : ReadsAlone (assigns name ++ ts) w ↔
      ∃ x, w = ⟨some name, x⟩ ∧ ReadsAlone ts ⟨none, x⟩ := by
  constructor
  · intro h
    obtain ⟨x, rfl, hx⟩ := DerivesStatement.of_assign rfl h.derives
    exact ⟨x, by rw [hname.lower_word], hx.readsAlone⟩
  · rintro ⟨x, rfl, hx⟩
    have := DerivesStatement.assign_of_plain (e := ⟨.operator, "=", 0⟩) (hname.isName 0) rfl
      hx.derives
    rw [hname.lower_word] at this
    exact this.readsAlone

/-- Two equals signs without a separator between them are not read. -/
theorem not_allRead_of_assigns {name name' : String} {ts : List Token}
    (hts : ∀ t ∈ ts, t.kind ≠ .separator) (rest : List Token) :
    ¬ AllRead (statementTokens (assigns name ++ (ts ++ (assigns name' ++ rest)))) := by
  intro hread
  have hrun : ∀ t ∈ assigns name ++ (ts ++ assigns name'), t.kind ≠ .separator := by
    simp only [List.forall_mem_append]
    exact ⟨by simp [assigns], hts, by simp [assigns]⟩
  obtain ⟨more, runs, heq⟩ :=
    exists_statementTokens_eq_cons (by simp [assigns]) hrun rest
  simp only [List.append_assoc] at heq
  rw [heq] at hread
  -- the second sign is in the same statement
  obtain ⟨w, hw⟩ := hread _ List.mem_cons_self
  obtain ⟨x, -, hx⟩ := DerivesStatement.of_assign rfl hw.derives
  have := (hx.isPart ⟨.operator, "=", 0⟩ (by simp [assigns])).not_assignment
  cases this

/-! ### Two names compared -/

/-- The tokens of two names with a sign between them, each at its place. -/
def comparesAt (i j k : Nat) (name sign name' : String) : List Token :=
  [⟨.word, name, i⟩, ⟨.operator, sign, j⟩, ⟨.word, name', k⟩]

section Compares

variable {i j k : Nat} {name sign name' : String}

theorem isOneStatement_comparesAt (hsign : sign ∈ Statement.comparisons) :
    IsOneStatement (comparesAt i j k name sign name') where
  ne_nil := by simp [comparesAt]
  separator_inside us t vs h hk := by
    have hmem : t ∈ comparesAt i j k name sign name' := by simp [h]
    simp only [comparesAt, List.mem_cons, List.not_mem_nil, or_false] at hmem
    rcases hmem with rfl | rfl | rfl <;> cases hk
  not_assignment t e us h _ := by
    have hne : sign ≠ "=" := by
      rintro rfl
      exact absurd hsign (by decide)
    cases h
    simp [isAssignment, Token.isOperator, hne]

/-- A name alone is read as the name. -/
theorem IsSymbol.derives (h : IsSymbol name) (d : ℕ∞) :
    Derives d .signed [⟨.word, name, i⟩] (.mk (.name name)) := by
  have hname : Derives d .primary [⟨.word, name, i⟩] _ := .name (h.isName i)
  rw [h.lower_word] at hname
  exact .unsigned (.indexed hname .nil)

theorem readsAlone_comparesAt (hname : IsSymbol name) (hsign : sign ∈ Statement.comparisons)
    (hname' : IsSymbol name') : ReadsAlone (comparesAt i j k name sign name')
      ⟨none, .mk (.comparison sign (.mk (.name name)) (.mk (.name name')))⟩ := by
  have hoperator : (⟨.operator, sign, j⟩ : Token).isOperator Statement.comparisons = true := by
    simpa [Token.isOperator] using hsign
  have hsum : ∀ {ts : List Token} {x : Expr}, Derives 63 .signed ts x →
      Derives 63 (.chain .sum) ts x := fun h =>
    .of_operand (c := .sum) (.of_operand (c := .product) h)
  have h : Derives 63 .negated (comparesAt i j k name sign name') _ :=
    .positive (.comparison (hsum (hname.derives 63)) hoperator (hsum (hname'.derives 63)))
  have hexpr := Derives.of_operand (c := .or) (.of_operand (c := .and) h)
  exact hexpr.readsAlone

end Compares

/-! ### Both sides -/

/-- The tokens of lexemes with a name in front of them. -/
def Assigns (name : String) (ls ls' : List (LexemeKind × List Char)) : Prop :=
  ∀ depth, tokens depth ls' = assigns name ++ tokens depth ls

/-- **A statement for each side**, on two lines, is read as the two statements are read alone. -/
theorem readsAlone_sides_iff {first second : String} (hfirst : IsSymbol first)
    (hsecond : IsSymbol second) {ts : List Token} {ls ls' : List (LexemeKind × List Char)}
    (hls : Assigns second ls ls') (hts : IsOneStatement ts)
    (hsecondts : IsOneStatement (tokens 0 ls)) {vs : List Written} :
    List.Forall₂ ReadsAlone (statementTokens
        (assigns first ++ (ts ++ tokens (depthBehind 0 ts) ((.lineEnd, ['\n']) :: ls')))) vs ↔
      ∃ x y, vs = [⟨some first, x⟩, ⟨some second, y⟩] ∧ ReadsAlone ts ⟨none, x⟩ ∧
        ReadsAlone (tokens 0 ls) ⟨none, y⟩ := by
  -- where no bracket is open, the line end is a separator
  have hclosed : depthBehind 0 ts = 0 → statementTokens
      (assigns first ++ (ts ++ tokens (depthBehind 0 ts) ((.lineEnd, ['\n']) :: ls'))) =
        statementTokens (assigns first ++ ts) ++
          statementTokens (assigns second ++ tokens 0 ls) := by
    intro h
    rw [h, tokens, if_pos rfl, hls, ← List.append_assoc, statementTokens_append_separator rfl]
  constructor
  · intro h
    have hread := allRead_of_forall₂ h
    have hsep := hts.not_separator (depthBehind_assigns first 0) hread
    have hdepth : depthBehind 0 ts = 0 := by
      by_contra hne
      rw [tokens, if_neg hne, hls] at hread
      exact not_allRead_of_assigns hsep _ hread
    rw [hclosed hdepth] at h
    obtain ⟨vs₁, vs₂, rfl, h₁, h₂⟩ := forall₂_append_left h
    have hread' : AllRead (statementTokens (assigns second ++ (tokens 0 ls ++ []))) := by
      simpa using allRead_of_forall₂ h₂
    have hsep' := hsecondts.not_separator (depthBehind_assigns second 0) hread'
    have hrun : ∀ {name : String} {us : List Token}, (∀ t ∈ us, t.kind ≠ .separator) →
        statementTokens (assigns name ++ us) = [assigns name ++ us] := fun hus =>
      statementTokens_eq_singleton (by simp [assigns])
        (List.forall_mem_append.2 ⟨by simp [assigns], hus⟩)
    rw [hrun hsep] at h₁
    rw [hrun hsep'] at h₂
    obtain ⟨w, _, hw, hnil, rfl⟩ := List.forall₂_cons_left_iff.1 h₁
    cases hnil
    obtain ⟨w', _, hw', hnil, rfl⟩ := List.forall₂_cons_left_iff.1 h₂
    cases hnil
    obtain ⟨x, rfl, hx⟩ := (readsAlone_assigns_iff hfirst).1 hw
    obtain ⟨y, rfl, hy⟩ := (readsAlone_assigns_iff hsecond).1 hw'
    exact ⟨x, y, rfl, hx, hy⟩
  · rintro ⟨x, y, rfl, hx, hy⟩
    have hx' := (readsAlone_assigns_iff hfirst).2 ⟨x, rfl, hx⟩
    have hy' := (readsAlone_assigns_iff hsecond).2 ⟨y, rfl, hy⟩
    rw [hclosed (hx.derives.depthBehind_eq 0), hx'.statementTokens_eq, hy'.statementTokens_eq]
    exact .cons hx' (.cons hy' .nil)

end Grammar

end BarScript
