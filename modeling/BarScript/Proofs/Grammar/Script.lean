import BarScript.Proofs.Grammar.Complete
import BarScript.Proofs.Grammar.Reader
import BarScript.Proofs.Grammar.Sound
import BarScript.Proofs.Graph.Shape

/-!
# The grammar of scripts

```
script    := SEP* statement (SEP+ statement)* SEP*
statement := NAME '=' or | or
```

A script that derives from this grammar is a list of statements, each with the name it assigns and
its expression as written.  Its trees (`trees`) are the expressions with the names of earlier
statements replaced; its bindings (`bindings`) are the names with the trees they stand for at the
end, and its result is the last tree.

* `statements_exact` : what derives from the grammar is read to these bindings and this result,
  unless one of its statements is refused: it opens a level too many, or its tree exceeds a limit
  (`Levelled.refusal?`).  The first such statement decides.
* `statements_iff_script` : what the reader of scripts accepts derives from the grammar, with these
  bindings and this result; and what derives from the grammar is accepted, unless it has too many
  levels or one of its trees exceeds a limit.
-/

namespace BarScript

namespace Grammar

open Statement Program

/-! ### Scripts -/

/-- A statement as written: the name it assigns, if there is one, and its expression. -/
structure Written where
  symbol : Option String
  expr : Expr

/-- The tokens derive from a statement. -/
inductive DerivesStatement : ℕ∞ → List Token → Written → Prop
  | assign {d t e ts x} (ht : IsName t) (he : isAssignment e = true)
      (h : Derives d (.chain .or) ts x) : DerivesStatement (d + 1) (t :: e :: ts) ⟨some t.lower, x⟩
  | plain {d ts x} (h : Derives d (.chain .or) ts x) : DerivesStatement (d + 1) ts ⟨none, x⟩

/-- Nothing but separators. -/
def Separators (ts : List Token) : Prop := ∀ t ∈ ts, t.kind = .separator

/-- Statements with one or more separators between them. -/
inductive DerivesStatements : ℕ∞ → List Token → List Written → Prop
  | one {d ts w} (h : DerivesStatement d ts w) : DerivesStatements d ts [w]
  | cons {d ts separators us w ws} (h : DerivesStatement d ts w) (hs : Separators separators)
      (hne : separators ≠ []) (hrest : DerivesStatements d us ws) :
      DerivesStatements d (ts ++ separators ++ us) (w :: ws)

/-- The tokens derive from a script, at most `d` levels deep. -/
def DerivesScript (d : ℕ∞) (ts : List Token) (ws : List Written) : Prop :=
  ∃ before body after, ts = before ++ body ++ after ∧ Separators before ∧ Separators after ∧
    DerivesStatements d body ws

/-! ### What a script means -/

/-- The trees that names stand for. -/
abbrev Bindings := String → Option Expr

/-- Gives a name another tree. -/
def assigned (env : Bindings) (symbol : Option String) (e : Expr) : Bindings :=
  match symbol with
  | some s => fun s' => if s' = s then some e else env s'
  | none => env

/-- The trees of statements, the names of earlier ones being replaced. -/
def trees (env : Bindings) : List Written → List Expr
  | [] => []
  | w :: ws => w.expr.subst env :: trees (assigned env w.symbol (w.expr.subst env)) ws

/-- What names stand for behind statements. -/
def bindings (env : Bindings) : List Written → Bindings
  | [] => env
  | w :: ws => bindings (assigned env w.symbol (w.expr.subst env)) ws

theorem trees_ne_nil {env : Bindings} {ws : List Written} (h : ws ≠ []) : trees env ws ≠ [] := by
  cases ws with
  | nil => exact absurd rfl h
  | cons w ws => simp [trees]

/-- What has been read so far is an ordered graph that has the given trees for the names and for the
last statement. -/
structure Reads (p : Partial) (env : Bindings) (result : Option Expr) : Prop where
  ordered : p.graph.Ordered
  locals_lt : ∀ s i, lookup p.locals s = some i → i < p.graph.size
  locals_eq : ∀ s, (lookup p.locals s).map p.graph.expand = env s
  result_lt : ∀ i ∈ p.result, i < p.graph.size
  result_eq : p.result.map p.graph.expand = result

theorem reads_empty : Reads .empty (fun _ => none) none where
  ordered := Graph.ordered_empty
  locals_lt _ _ h := by simp [Partial.empty, lookup] at h
  locals_eq _ := rfl
  result_lt _ h := by simp [Partial.empty] at h
  result_eq := rfl

theorem lookup_assign (s : String) (i : Nat) (locals : List (String × Nat)) (s' : String) :
    lookup (assign s i locals) s' = if s' = s then some i else lookup locals s' := by
  induction locals with
  | nil =>
    by_cases h : s' = s
    · simp [assign, lookup, h]
    · simp [assign, lookup, h, Ne.symm h]
  | cons l locals ih =>
    simp only [lookup, assign] at ih ⊢
    by_cases hl : l.1 = s
    · by_cases h : s' = s
      · simp [hl, h]
      · simp [hl, h, Ne.symm h]
    · by_cases h : l.1 = s'
      · simp [h, show s' ≠ s from h ▸ hl]
      · simp [hl, h, ih]

/-- **Adding a statement** reads its tree, or finds that the tree exceeds a limit. -/
theorem add_of_reads {p : Partial} {env : Bindings} {result : Option Expr}
    (hp : Reads p env result) (first : Token) (w : Written) :
    (∃ x, (w.expr.subst env).shape.excess? = some x ∧
        p.add first w.symbol w.expr = .error (.at (.excess x) (some first))) ∨
      ∃ p', p.add first w.symbol w.expr = .ok p' ∧ (w.expr.subst env).shape.Within ∧
        Reads p' (assigned env w.symbol (w.expr.subst env)) (some (w.expr.subst env)) := by
  have hg := Graph.graft_spec (lookup p.locals) w.expr hp.ordered hp.locals_lt
  rw [show (fun s => (lookup p.locals s).map p.graph.expand) = env from funext hp.locals_eq] at hg
  rcases hgraft : Graph.graft (lookup p.locals) w.expr p.graph with ⟨root, graph⟩
  rw [hgraft] at hg
  obtain ⟨hext, hord, hlt, hexp⟩ := hg
  have hshape : graph.shape? root = some (w.expr.subst env).shape := by
    rw [Graph.shape?_eq hord hlt, hexp]
  simp only [Partial.add, hgraft, hshape, Option.bind_some]
  cases hx : (w.expr.subst env).shape.excess? with
  | some x => exact .inl ⟨x, rfl, rfl⟩
  | none =>
    refine .inr ⟨_, rfl, Shape.excess?_eq_none_iff.1 hx, hord, fun s i hs => ?_, fun s => ?_, ?_,
      ?_⟩
    · cases hw : w.symbol with
      | none =>
        rw [hw] at hs
        exact Nat.lt_of_lt_of_le (hp.locals_lt s i hs) hext.size_le
      | some s₀ =>
        simp only [hw, lookup_assign] at hs
        split at hs
        · cases hs
          exact hlt
        · exact Nat.lt_of_lt_of_le (hp.locals_lt s i hs) hext.size_le
    · -- names that were assigned before still stand for the same trees
      have hold : (lookup p.locals s).map graph.expand = env s := by
        rw [← hp.locals_eq s]
        cases hs : lookup p.locals s with
        | none => rfl
        | some i => exact congrArg some (hext.expand_eq (hp.locals_lt s i hs))
      cases hw : w.symbol with
      | none => exact hold
      | some s₀ =>
        simp only [lookup_assign, assigned]
        split
        · exact congrArg some hexp
        · exact hold
    · intro i hi
      cases hi
      exact hlt
    · exact congrArg some hexp

/-! ### Statements -/

/-- A script has so many levels at most. -/
def levelLimit : ℕ∞ := maxNesting

theorem target_of_assignment {t e : Token} (ht : IsName t) (he : isAssignment e = true)
    (rest : List Token) : target (t :: e :: rest) = .ok (some t.lower, rest) := by
  have hop : e.isOperator ["="] = true := he
  simp only [target, ht.1, hop, true_and, if_true, ht.contains, Bool.false_eq_true, if_false]

theorem target_of_not_assignment {t : Token} {rest : List Token}
    (h : ∀ e ∈ rest.head?, isAssignment e = false) :
    target (t :: rest) = .ok (none, t :: rest) := by
  cases rest with
  | nil => rfl
  | cons e rest =>
    have hop : ¬ (t.kind = .word ∧ e.isOperator ["="] = true) := fun hand => by
      have := h e rfl
      rw [isAssignment, hand.2] at this
      cases this
    rw [target, if_neg hop]

theorem target_eq_ok {ts us : List Token} {symbol : Option String}
    (h : target ts = .ok (symbol, us)) : symbol = none ∧ us = ts ∨
      ∃ t e, IsName t ∧ isAssignment e = true ∧ ts = t :: e :: us ∧ symbol = some t.lower := by
  match ts with
  | [] => cases h; exact .inl ⟨rfl, rfl⟩
  | [t] => cases h; exact .inl ⟨rfl, rfl⟩
  | t :: e :: rest =>
    simp only [target] at h
    split at h
    · rename_i hop
      split at h
      · cases h
      · rename_i hkey
        cases h
        exact .inr ⟨t, e, ⟨hop.1, by simpa using hkey⟩, hop.2, rfl, rfl⟩
    · cases h
      exact .inl ⟨rfl, rfl⟩

/-- What a statement is read from derives from a statement. -/
theorem statement_sound {ts us rest : List Token} {symbol : Option String} {e : Expr}
    (ht : target ts = .ok (symbol, us)) (he : expression us = .ok (e, rest)) {d : ℕ∞}
    (hd : levelLimit ≤ d) : ∃ vs, ts = vs ++ rest ∧ DerivesStatement d vs ⟨symbol, e⟩ := by
  obtain ⟨d', rfl, -⟩ := exists_add_one (n := maxNesting - 1) hd
  obtain ⟨vs, rfl, hvs⟩ := (levels_sound maxNesting).group d' hd he
  rcases target_eq_ok ht with ⟨rfl, rfl⟩ | ⟨t, e, hname, hop, rfl, rfl⟩
  · exact ⟨vs, rfl, .plain hvs⟩
  · exact ⟨t :: e :: vs, rfl, .assign hname hop hvs⟩

/-! ### Levels of statements -/

/-- A statement with its first token and the levels that are opened in it. -/
structure Levelled where
  first : Token
  written : Written
  openings : List Opening

/-- The tokens derive from a statement; its expression is read at level one. -/
inductive OpensStatement : List Token → Levelled → Prop
  | assign {t e ts x os} (ht : IsName t) (he : isAssignment e = true)
      (h : Opens 1 (.chain .or) ts x os) :
      OpensStatement (t :: e :: ts) ⟨t, ⟨some t.lower, x⟩, os⟩
  | plain {t ts x os} (h : Opens 1 (.chain .or) (t :: ts) x os) :
      OpensStatement (t :: ts) ⟨t, ⟨none, x⟩, os⟩

/-- Statements with one or more separators between them. -/
inductive OpensStatements : List Token → List Levelled → Prop
  | one {ts l} (h : OpensStatement ts l) : OpensStatements ts [l]
  | cons {ts separators us l ls} (h : OpensStatement ts l) (hs : Separators separators)
      (hne : separators ≠ []) (hrest : OpensStatements us ls) :
      OpensStatements (ts ++ separators ++ us) (l :: ls)

/-- The tokens derive from a script. -/
def OpensScript (ts : List Token) (ls : List Levelled) : Prop :=
  ∃ before body after, ts = before ++ body ++ after ∧ Separators before ∧ Separators after ∧
    OpensStatements body ls

theorem OpensStatement.derives {ts : List Token} {l : Levelled} (h : OpensStatement ts l) :
    DerivesStatement ⊤ ts l.written := by
  cases h with
  | assign ht he h => exact DerivesStatement.assign (d := ⊤) ht he h.derives
  | plain h => exact DerivesStatement.plain (d := ⊤) h.derives

theorem OpensStatements.derives {ts : List Token} {ls : List Levelled}
    (h : OpensStatements ts ls) : DerivesStatements ⊤ ts (ls.map (·.written)) := by
  induction h with
  | one h => exact .one h.derives
  | cons h hs hne _ ih => exact .cons h.derives hs hne ih

/-- A statement opens levels as far as it is deep. -/
theorem DerivesStatement.opens {d : ℕ∞} {ts : List Token} {w : Written}
    (h : DerivesStatement d ts w) :
    ∃ l, OpensStatement ts l ∧ l.written = w ∧ Below d l.openings := by
  cases h with
  | assign ht he h =>
    obtain ⟨os, hopens, hb⟩ := h.opens 1
    rw [Nat.cast_one, add_comm] at hb
    exact ⟨_, .assign ht he hopens, rfl, hb⟩
  | plain h =>
    obtain ⟨os, hopens, hb⟩ := h.opens 1
    obtain ⟨t, us, rfl, -⟩ := h.starts
    rw [Nat.cast_one, add_comm] at hb
    exact ⟨_, .plain hopens, rfl, hb⟩

theorem DerivesStatements.opens {d : ℕ∞} {ts : List Token} {ws : List Written}
    (h : DerivesStatements d ts ws) :
    ∃ ls, OpensStatements ts ls ∧ ls.map (·.written) = ws ∧ ∀ l ∈ ls, Below d l.openings := by
  induction h with
  | one h =>
    obtain ⟨l, hl, rfl, hb⟩ := h.opens
    exact ⟨[l], .one hl, rfl, by simpa using hb⟩
  | cons h hs hne _ ih =>
    obtain ⟨l, hl, rfl, hb⟩ := h.opens
    obtain ⟨ls, hls, rfl, hbs⟩ := ih
    exact ⟨l :: ls, .cons hl hs hne hls, rfl, List.forall_mem_cons.2 ⟨hb, hbs⟩⟩

/-- **A statement is read**, unless it opens a level too many. -/
theorem statement_exact {ts rest : List Token} {l : Levelled} (h : OpensStatement ts l)
    (hr : (Symbol.chain .or).Ends rest) :
    ∃ us, target (ts ++ rest) = .ok (l.written.symbol, us) ∧
      expression us = outcome maxNesting l.openings (l.written.expr, rest) := by
  have hgroup : ExactInside maxNesting 0 expression := by
    have hexact := (levels_exact maxNesting 0).group
    rwa [Nat.zero_add] at hexact
  have hpos : 0 < maxNesting := by decide
  cases h with
  | assign ht he h =>
    obtain ⟨first, us, rfl, -⟩ := h.derives.starts
    exact ⟨_, target_of_assignment ht he _, (hgroup h hr).trans (outcome_cons_lt hpos first)⟩
  | @plain t us x os h =>
    refine ⟨_, target_of_not_assignment fun e he => ?_,
      (hgroup h hr).trans (outcome_cons_lt hpos t)⟩
    -- the second token belongs to the expression or ends it
    cases us with
    | nil =>
      rw [← Bool.not_eq_true]
      exact fun hop => hr e he (.inr (.inr (.inr (.inr (.inl ⟨by decide, .inr hop⟩)))))
    | cons u us =>
      cases he
      exact (h.derives.isPart e (by simp)).not_assignment

/-- What derives from a statement is read. -/
theorem statement_complete {d : ℕ∞} {ts rest : List Token} {w : Written}
    (h : DerivesStatement d ts w) (hr : (Symbol.chain .or).Ends rest) :
    ∃ us, target (ts ++ rest) = .ok (w.symbol, us) ∧
      Gives (levelLimit < d) (expression us) (w.expr, rest) := by
  obtain ⟨l, hl, rfl, hb⟩ := h.opens
  obtain ⟨us, htarget, hexpr⟩ := statement_exact hl hr
  exact ⟨us, htarget, hexpr ▸ outcome_gives hb _⟩

/-- A statement starts with no separator. -/
theorem DerivesStatement.starts {d : ℕ∞} {ts : List Token} {w : Written}
    (h : DerivesStatement d ts w) : ∃ t us, ts = t :: us ∧ t.kind ≠ .separator := by
  cases h with
  | assign ht => exact ⟨_, _, rfl, by simp [ht.1]⟩
  | plain h =>
    obtain ⟨t, us, rfl, ht⟩ := h.starts
    refine ⟨t, us, rfl, fun hk => ?_⟩
    rcases ht with h | h | h | h | h | h
    · simp [isNot, Token.isKeyword, Token.isOperator, hk] at h
    · simp [Token.isOperator, hk] at h
    · simp [hk] at h
    · simp [hk] at h
    · simp [hk] at h
    · simp [IsName, hk] at h

theorem DerivesStatements.starts {d : ℕ∞} {ts : List Token} {ws : List Written}
    (h : DerivesStatements d ts ws) : ∃ t us, ts = t :: us ∧ t.kind ≠ .separator := by
  cases h with
  | one h => exact h.starts
  | cons h =>
    obtain ⟨t, us, rfl, ht⟩ := h.starts
    exact ⟨t, _, rfl, ht⟩

theorem DerivesStatements.ne_nil {d : ℕ∞} {ts : List Token} {ws : List Written}
    (h : DerivesStatements d ts ws) : ws ≠ [] := by
  cases h <;> simp

theorem DerivesScript.one {d : ℕ∞} {before ts after : List Token} {w : Written}
    (hb : Separators before) (h : DerivesStatement d ts w) (ha : Separators after) :
    DerivesScript d (before ++ ts ++ after) [w] :=
  ⟨before, ts, after, rfl, hb, ha, .one h⟩

/-- A statement in front of a script that starts with a separator. -/
theorem DerivesScript.cons {d : ℕ∞} {before ts rest : List Token} {t : Token} {w : Written}
    {ws : List Written} (hb : Separators before) (h : DerivesStatement d ts w)
    (ht : t.kind = .separator) (hrest : DerivesScript d (t :: rest) ws) :
    DerivesScript d (before ++ ts ++ t :: rest) (w :: ws) := by
  obtain ⟨separators, body, after, heq, hs, ha, hbody⟩ := hrest
  -- the body starts with no separator
  have hne : separators ≠ [] := by
    rintro rfl
    obtain ⟨t', us, rfl, ht'⟩ := hbody.starts
    cases heq
    exact ht' ht
  exact ⟨before, ts ++ separators ++ body, after, by simp [heq], hb, ha, .cons h hs hne hbody⟩

/-! ### Separators -/

theorem skipSeparators_append {before ts : List Token} (h : Separators before) :
    skipSeparators (before ++ ts) = skipSeparators ts := by
  induction before with
  | nil => rfl
  | cons t before ih =>
    rw [Separators, List.forall_mem_cons] at h
    simpa [skipSeparators, h.1] using ih h.2

theorem skipSeparators_of_ne {t : Token} {ts : List Token} (h : t.kind ≠ .separator) :
    skipSeparators (t :: ts) = t :: ts := by
  simp [skipSeparators, h]

theorem kind_of_skipSeparators {ts rest : List Token} {t : Token}
    (h : skipSeparators ts = t :: rest) : t.kind ≠ .separator := by
  have := List.head?_dropWhile_not (fun t : Token => decide (t.kind = .separator)) ts
  rw [← skipSeparators, h] at this
  simpa using this

theorem Separators.skip {ts : List Token} (h : Separators ts) : skipSeparators ts = [] := by
  rw [← List.append_nil ts, skipSeparators_append h]
  rfl

theorem exists_separators (ts : List Token) :
    ∃ before, ts = before ++ skipSeparators ts ∧ Separators before := by
  refine ⟨ts.takeWhile fun t => t.kind = .separator, (List.takeWhile_append_dropWhile).symm, ?_⟩
  intro t ht
  simpa using List.all_eq_true.1 List.all_takeWhile t ht

/-! ### Programs -/

/-- **What is accepted derives from the grammar**, has trees within the limits, and is read to
these. -/
theorem statements_sound {d : ℕ∞} (hd : levelLimit ≤ d) {fuel : Nat} {p p' : Partial}
    {ts : List Token} {env : Bindings} {result : Option Expr} (hfuel : ts.length < fuel)
    (hp : Reads p env result) (h : statements fuel p ts = .ok p') :
    Separators ts ∧ p' = p ∨
      ∃ ws, DerivesScript d ts ws ∧ Reads p' (bindings env ws) (trees env ws).getLast? ∧
        ∀ e ∈ trees env ws, e.shape.Within := by
  induction fuel generalizing p ts env result with
  | zero => exact absurd hfuel (Nat.not_lt_zero _)
  | succ fuel ih =>
    obtain ⟨before, hts, hbefore⟩ := exists_separators ts
    rw [statements_succ] at h
    cases hskip : skipSeparators ts with
    | nil =>
      rw [hskip] at h hts
      cases h
      exact .inl ⟨by rw [hts, List.append_nil]; exact hbefore, rfl⟩
    | cons first rest =>
      rw [hskip] at h hts
      simp only at h
      obtain ⟨⟨symbol, us⟩, htarget, h₁⟩ := bind_eq_ok_iff.1 h
      obtain ⟨⟨e, rest'⟩, hexpr, h₂⟩ := bind_eq_ok_iff.1 h₁
      obtain ⟨p₁, hadd, h₃⟩ := bind_eq_ok_iff.1 h₂
      obtain ⟨vs, heq, hvs⟩ := statement_sound htarget hexpr hd
      obtain ⟨x, -, hx⟩ | ⟨p₂, hok, hwithin, hread⟩ := add_of_reads hp first ⟨symbol, e⟩
      · rw [hadd] at hx
        cases hx
      · rw [hadd] at hok
        cases hok
        rw [heq] at hts
        have hone : ∀ x ∈ trees env [⟨symbol, e⟩], x.shape.Within := by simpa [trees] using hwithin
        cases rest' with
        | nil =>
          cases h₃
          refine .inr ⟨[⟨symbol, e⟩], ?_, hread, hone⟩
          rw [hts, ← List.append_assoc]
          exact .one hbefore hvs (by simp [Separators])
        | cons t rest' =>
          simp only at h₃
          split at h₃
          · rename_i hsep
            obtain ⟨t', vs', rfl, -⟩ := hvs.starts
            -- a statement takes at least one token
            have hlen : (t :: rest').length < fuel := by
              rw [hts] at hfuel
              simp only [List.length_append, List.length_cons] at hfuel ⊢
              omega
            rw [hts, ← List.append_assoc]
            rcases ih hlen hread h₃ with ⟨hseps, rfl⟩ | ⟨ws, hws, hreads, hall⟩
            · exact .inr ⟨[⟨symbol, e⟩], .one hbefore hvs hseps, hread, hone⟩
            · refine .inr ⟨⟨symbol, e⟩ :: ws, .cons hbefore hvs hsep hws, ?_,
                List.forall_mem_cons.2 ⟨hwithin, hall⟩⟩
              obtain ⟨_, _, _, -, -, -, hbody⟩ := hws
              rwa [trees, List.getLast?_cons_of_ne_nil (trees_ne_nil hbody.ne_nil)]
          · cases h₃

/-! ### Why a script is refused -/

/-- Why a statement with a tree is refused: it opens a level too many, or else the tree exceeds a
limit. -/
def Levelled.refusal? (l : Levelled) (e : Expr) : Option Failure :=
  match exceeding maxNesting l.openings with
  | some o => some (tooNested (some o.1))
  | none => e.shape.excess?.map fun x => .at (.excess x) (some l.first)

/-- Statements with their trees. -/
def withTrees (env : Bindings) (ls : List Levelled) : List (Levelled × Expr) :=
  ls.zip (trees env (ls.map (·.written)))

/-- Why statements are refused: because of the first one that is. -/
def refusal? (env : Bindings) (ls : List Levelled) : Option Failure :=
  (withTrees env ls).findSome? fun s => s.1.refusal? s.2

/-- One statement: it is refused, or it is read and what follows comes next. -/
theorem statements_step {before ts rest : List Token} {l : Levelled} (hb : Separators before)
    (h : OpensStatement ts l) (hr : ∀ t ∈ rest.head?, t.kind = .separator) {p : Partial}
    {env : Bindings} {result : Option Expr} (hp : Reads p env result) (fuel : Nat) :
    (∃ f, l.refusal? (l.written.expr.subst env) = some f ∧
        statements (fuel + 1) p (before ++ (ts ++ rest)) = .error f) ∨
      l.refusal? (l.written.expr.subst env) = none ∧ ∃ p',
        Reads p' (assigned env l.written.symbol (l.written.expr.subst env))
          (some (l.written.expr.subst env)) ∧
        statements (fuel + 1) p (before ++ (ts ++ rest)) =
          if rest = [] then .ok p' else statements fuel p' rest := by
  -- what follows is nothing or a separator, so the statement ends here
  have hends : (Symbol.chain .or).Ends rest := fun t ht =>
    Symbol.not_continues_of_kind (hr t ht) (.inr (.inr rfl))
  obtain ⟨us, htarget, hexpr⟩ := statement_exact h hends
  obtain ⟨first, ts, rfl, hfirst⟩ := h.derives.starts
  have heq : l.first = first := by cases h <;> rfl
  rw [List.cons_append] at htarget
  rw [statements_succ, skipSeparators_append hb, List.cons_append, skipSeparators_of_ne hfirst]
  simp only [htarget, hexpr, bind, Except.bind, Levelled.refusal?]
  cases ho : exceeding maxNesting l.openings with
  | some o => exact .inl ⟨_, rfl, by rw [outcome_of_exceeding ho]⟩
  | none =>
    rw [outcome_of_not_exceeding ho]
    rcases add_of_reads hp first l.written with ⟨x, hx, hadd⟩ | ⟨p', hadd, hwithin, hread⟩
    · exact .inl ⟨_, by rw [hx]; rfl, by simp only [hadd, heq]⟩
    · refine .inr ⟨by rw [Shape.excess?_eq_none_iff.2 hwithin]; rfl, p', hread, ?_⟩
      simp only [hadd]
      cases rest with
      | nil => rfl
      | cons t rest => simp [hr t rfl]

theorem statements_of_separators {ts : List Token} (h : Separators ts) (fuel : Nat) (p : Partial) :
    statements fuel p ts = .ok p := by
  cases fuel with
  | zero => rfl
  | succ fuel => rw [statements_succ, h.skip]

/-- What reading statements comes to: they are refused, or read to their trees. -/
def Verdict (env : Bindings) (ls : List Levelled) (r : Except Failure Partial) : Prop :=
  match refusal? env ls with
  | some f => r = .error f
  | none => ∃ p, r = .ok p ∧
      Reads p (bindings env (ls.map (·.written))) (trees env (ls.map (·.written))).getLast?

theorem refusal?_cons (env : Bindings) (l : Levelled) (ls : List Levelled) :
    refusal? env (l :: ls) = (l.refusal? (l.written.expr.subst env)).or
      (refusal? (assigned env l.written.symbol (l.written.expr.subst env)) ls) := by
  rw [refusal?, withTrees, List.map_cons, trees, List.zip_cons_cons, List.findSome?_cons]
  cases l.refusal? (l.written.expr.subst env) <;> rfl

/-- A statement that is refused decides. -/
theorem Verdict.refused {env : Bindings} {l : Levelled} {ls : List Levelled} {f : Failure}
    (h : l.refusal? (l.written.expr.subst env) = some f) : Verdict env (l :: ls) (.error f) := by
  rw [Verdict, refusal?_cons, h]
  rfl

/-- A statement that is read leaves the verdict to the others. -/
theorem Verdict.cons {env : Bindings} {l : Levelled} {ls : List Levelled}
    {r : Except Failure Partial} (hl : l.refusal? (l.written.expr.subst env) = none)
    (hne : ls ≠ [])
    (h : Verdict (assigned env l.written.symbol (l.written.expr.subst env)) ls r) :
    Verdict env (l :: ls) r := by
  rw [Verdict, refusal?_cons, hl, Option.none_or]
  rw [Verdict] at h
  split at h
  · exact h
  · obtain ⟨p, hr, hp⟩ := h
    refine ⟨p, hr, ?_⟩
    rwa [List.map_cons, trees, List.getLast?_cons_of_ne_nil (trees_ne_nil (by simpa using hne))]

theorem OpensStatements.ne_nil {ts : List Token} {ls : List Levelled} (h : OpensStatements ts ls) :
    ls ≠ [] := by
  cases h <;> simp

/-- **What derives from the grammar is read, up to the limits**: the first statement that exceeds
one is refused. -/
theorem statements_exact {body : List Token} {ls : List Levelled} (h : OpensStatements body ls)
    {fuel : Nat} {p : Partial} {before after : List Token} {env : Bindings} {result : Option Expr}
    (hb : Separators before) (ha : Separators after)
    (hfuel : (before ++ (body ++ after)).length < fuel) (hp : Reads p env result) :
    Verdict env ls (statements fuel p (before ++ (body ++ after))) := by
  induction h generalizing fuel p before env result with
  | @one ts l h =>
    obtain ⟨fuel, rfl⟩ := Nat.exists_eq_add_one_of_ne_zero (Nat.ne_of_gt (Nat.zero_lt_of_lt hfuel))
    have hr : ∀ t ∈ after.head?, t.kind = .separator := fun t ht =>
      ha t (List.mem_of_mem_head? ht)
    rcases statements_step hb h hr hp fuel with ⟨f, hf, h⟩ | ⟨hnone, p', hread, h⟩
    · rw [h]
      exact .refused hf
    · rw [h, statements_of_separators ha, ite_self, Verdict, refusal?_cons, hnone]
      exact ⟨p', rfl, hread⟩
  | @cons ts separators us l ls h hs hne hrest ih =>
    obtain ⟨fuel, rfl⟩ := Nat.exists_eq_add_one_of_ne_zero (Nat.ne_of_gt (Nat.zero_lt_of_lt hfuel))
    have hr : ∀ t ∈ (separators ++ (us ++ after)).head?, t.kind = .separator := by
      intro t ht
      rw [List.head?_append_of_ne_nil _ hne] at ht
      exact hs t (List.mem_of_mem_head? ht)
    obtain ⟨first, ts', hts, -⟩ := h.derives.starts
    have hlen : (separators ++ (us ++ after)).length < fuel := by
      simp only [hts, List.length_append, List.length_cons] at hfuel ⊢
      omega
    simp only [List.append_assoc] at hfuel ⊢
    rcases statements_step hb h hr hp fuel with ⟨f, hf, h⟩ | ⟨hnone, p', hread, h⟩
    · rw [h]
      exact .refused hf
    · rw [h, if_neg (by simp [hne])]
      exact .cons hnone hrest.ne_nil (ih hs hlen hread)

/-- What reading a script can come to: it is read to its trees, or it has too many levels, or one of
its trees exceeds a limit. -/
def Outcome (d : ℕ∞) (env : Bindings) (ws : List Written) (r : Except Failure Partial) : Prop :=
  (∃ p, r = .ok p ∧ Reads p (bindings env ws) (trees env ws).getLast?) ∨
    (levelLimit < d ∧ ∃ t, r = .error (tooNested t)) ∨
      ∃ e ∈ trees env ws, ∃ x t, e.shape.excess? = some x ∧ r = .error (.at (.excess x) (some t))

theorem Verdict.toOutcome {d : ℕ∞} {env : Bindings} {ls : List Levelled}
    {r : Except Failure Partial} (hls : ∀ l ∈ ls, Below d l.openings) (h : Verdict env ls r) :
    Outcome d env (ls.map (·.written)) r := by
  rw [Verdict] at h
  split at h
  · rename_i f hf
    obtain ⟨⟨l, e⟩, hmem, hrefusal⟩ := List.exists_of_findSome?_eq_some hf
    obtain ⟨hl, he⟩ := List.of_mem_zip hmem
    rw [Levelled.refusal?] at hrefusal
    split at hrefusal
    · rename_i o ho
      cases hrefusal
      have hgives : Gives (levelLimit < d) (outcome maxNesting l.openings ()) () :=
        outcome_gives (hls l hl) ()
      rw [outcome_of_exceeding ho] at hgives
      rcases hgives with hok | ⟨hlt, -⟩
      · cases hok
      · exact .inr (.inl ⟨hlt, _, h⟩)
    · obtain ⟨x, hx, rfl⟩ := Option.map_eq_some_iff.1 hrefusal
      exact .inr (.inr ⟨e, he, x, l.first, hx, h⟩)
  · exact .inl h

/-- **What derives from the grammar is accepted**, unless it exceeds a limit. -/
theorem statements_complete {d : ℕ∞} {body : List Token} {ws : List Written}
    (h : DerivesStatements d body ws) {fuel : Nat} {p : Partial} {before after : List Token}
    {env : Bindings} {result : Option Expr} (hb : Separators before) (ha : Separators after)
    (hfuel : (before ++ (body ++ after)).length < fuel) (hp : Reads p env result) :
    Outcome d env ws (statements fuel p (before ++ (body ++ after))) := by
  obtain ⟨ls, hls, rfl, hbelow⟩ := h.opens
  exact (statements_exact hls hb ha hfuel hp).toOutcome hbelow

/-- **The reader accepts exactly what derives from the grammar, up to the limits**, and builds the
trees of the derivation: what it accepts derives from a script, with the trees of that script; what
derives from a script is read to its trees, or it has too many levels in one another, or one of its
trees is too deep or too large. -/
theorem statements_iff_script (ts : List Token) :
    (∀ p, statements (ts.length + 1) .empty ts = .ok p → p.result.isSome = true →
      ∃ ws, DerivesScript ⊤ ts ws ∧
        Reads p (bindings (fun _ => none) ws) (trees (fun _ => none) ws).getLast?) ∧
    ∀ ws, DerivesScript ⊤ ts ws →
      (∃ p, statements (ts.length + 1) .empty ts = .ok p ∧
        Reads p (bindings (fun _ => none) ws) (trees (fun _ => none) ws).getLast?) ∨
      ((∃ t, statements (ts.length + 1) .empty ts = .error (tooNested t)) ∧
        ∀ ws, ¬ DerivesScript levelLimit ts ws) ∨
      ∃ e ∈ trees (fun _ => none) ws, ∃ x t, e.shape.excess? = some x ∧
        statements (ts.length + 1) .empty ts = .error (.at (.excess x) (some t)) := by
  have hcomplete : ∀ d ws, DerivesScript d ts ws →
      Outcome d (fun _ => none) ws (statements (ts.length + 1) .empty ts) := by
    rintro d ws ⟨before, body, after, rfl, hb, ha, hbody⟩
    rw [List.append_assoc]
    exact statements_complete hbody hb ha (Nat.lt_succ_self _) reads_empty
  refine ⟨fun p h hsome => ?_, fun ws hws => ?_⟩
  · rcases statements_sound le_top (Nat.lt_succ_self _) reads_empty h with
      ⟨-, rfl⟩ | ⟨ws, hws, hread, -⟩
    · cases hsome
    · exact ⟨ws, hws, hread⟩
  · rcases hcomplete ⊤ ws hws with h | ⟨-, t, h⟩ | h
    · exact .inl h
    · refine .inr (.inl ⟨⟨t, h⟩, fun ws' hws' => ?_⟩)
      -- a derivation within the limit would be read or exceed a limit of size
      rcases hcomplete levelLimit ws' hws' with ⟨p, hok, -⟩ | ⟨hlt, -⟩ | ⟨e, -, x, t', -, herr⟩
      · rw [h] at hok
        cases hok
      · exact lt_irrefl _ hlt
      · rw [h] at herr
        cases herr
    · exact .inr (.inr h)

/-- The script `x = 2; -x`. -/
theorem statements_iff_script_negative :
    let x : Token := ⟨.word, "x", 0⟩
    let two : Token := ⟨.number, "2", 4⟩
    let minus : Token := ⟨.operator, "-", 7⟩
    let ts : List Token := [x, ⟨.operator, "=", 2⟩, two, ⟨.separator, ";", 5⟩, minus, x]
    let ws : List Written := [⟨some x.lower, .mk (.number (literal two))⟩,
      ⟨none, .mk (.unary minus.text (.mk (.name x.lower)))⟩]
    DerivesScript ⊤ ts ws ∧
      ((∃ p, statements 7 .empty ts = .ok p ∧
          Reads p (bindings (fun _ => none) ws) (trees (fun _ => none) ws).getLast?) ∨
        ((∃ t, statements 7 .empty ts = .error (tooNested t)) ∧
          ∀ ws, ¬ DerivesScript levelLimit ts ws) ∨
        ∃ e ∈ trees (fun _ => none) ws, ∃ x t, e.shape.excess? = some x ∧
          statements 7 .empty ts = .error (.at (.excess x) (some t))) := by
  intro x two minus ts ws
  have hname : IsName x := ⟨rfl, by decide +kernel⟩
  have htwo : Derives ⊤ .signed [two] (.mk (.number (literal two))) :=
    .unsigned (.indexed (.number rfl) .nil)
  have hx : Derives ⊤ .signed [x] (.mk (.name x.lower)) := .unsigned (.indexed (.name hname) .nil)
  have hlast : DerivesStatements (⊤ + 1) [minus, x]
      [⟨none, .mk (.unary "-" (.mk (.name x.lower)))⟩] :=
    .one (.plain (Derives.sign rfl hx).of_signed)
  have hws : DerivesScript ⊤ ts ws := by
    refine ⟨[], ts, [], rfl, by simp [Separators], by simp [Separators], ?_⟩
    exact DerivesStatements.cons (.assign hname rfl htwo.of_signed) (by simp [Separators])
      (List.cons_ne_nil _ []) hlast
  exact ⟨hws, (statements_iff_script ts).2 ws hws⟩

end Grammar

end BarScript
