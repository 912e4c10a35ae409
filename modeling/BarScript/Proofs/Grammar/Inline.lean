import BarScript.Proofs.Grammar.Script
import Mathlib.Data.List.Basic

/-!
# Names stand for trees

A script can be read in two steps.  First each statement is read alone, by the reader of scripts
where no name has been assigned (`ReadsAlone`); a statement is a run of tokens between separators
(`statementTokens`).  Then the trees follow from one another: each is the tree as written with every
name replaced by the tree of the latest earlier statement that assigns it (`Inlined`).

The reader itself replaces a name when it meets it, in the middle of an expression.  That it leaves
the nodes of the tree as written with its names replaced, whatever has been assigned
(`Read.follows_expression`), is what the two steps rest on.

`Program.parse_inlined` : reading a script while names are replaced comes to the same.  A script is
accepted if and only if it can be read in two steps (`InTwoSteps`), and its statements, its names
and its result then stand for the trees of the second step.
-/

namespace BarScript

namespace Grammar

open Statement Program

/-! ### Statements between separators -/

/-- The statements of a script as they are written: the runs of tokens between separators. -/
def statementTokens (ts : List Token) : List (List Token) :=
  (ts.splitOnP fun t => t.kind = .separator).filter fun us => !us.isEmpty

theorem statementTokens_cons_separator {t : Token} (h : t.kind = .separator) (ts : List Token) :
    statementTokens (t :: ts) = statementTokens ts := by
  simp [statementTokens, List.splitOnP_cons_eq_if_modifyHead, h]

theorem statementTokens_separators_append {before : List Token} (h : Separators before)
    (ts : List Token) : statementTokens (before ++ ts) = statementTokens ts := by
  induction before with
  | nil => rfl
  | cons t before ih =>
    rw [Separators, List.forall_mem_cons] at h
    rw [List.cons_append, statementTokens_cons_separator h.1, ih h.2]

theorem Separators.statementTokens_eq_nil {ts : List Token} (h : Separators ts) :
    statementTokens ts = [] := by
  rw [← List.append_nil ts, statementTokens_separators_append h]
  rfl

/-- A run of tokens in front of nothing or a separator is a statement. -/
theorem statementTokens_append {run : List Token} (hne : run ≠ [])
    (h : ∀ t ∈ run, t.kind ≠ .separator) {after : List Token}
    (ha : ∀ t ∈ after.head?, t.kind = .separator) :
    statementTokens (run ++ after) = run :: statementTokens after := by
  have hrun : ∀ t ∈ run, decide (t.kind = .separator) = false := by simpa using h
  cases after with
  | nil => simp [statementTokens, List.splitOnP_eq_singleton hrun, hne]
  | cons t after =>
    have ht : decide (t.kind = .separator) = true := decide_eq_true (ha t rfl)
    rw [statementTokens_cons_separator (ha t rfl), statementTokens,
      List.splitOnP_append_cons_of_forall_mem hrun t ht]
    simp [statementTokens, hne]

/-- Tokens are separators only, or there is a first statement. -/
theorem separators_or_exists_run (ts : List Token) : Separators ts ∨
    ∃ before run after, ts = before ++ (run ++ after) ∧ Separators before ∧ run ≠ [] ∧
      (∀ t ∈ run, t.kind ≠ .separator) ∧ ∀ t ∈ after.head?, t.kind = .separator := by
  obtain ⟨before, hts, hbefore⟩ := exists_separators ts
  cases hskip : skipSeparators ts with
  | nil =>
    rw [hskip, List.append_nil] at hts
    exact .inl (hts ▸ hbefore)
  | cons first rest =>
    have hfirst := kind_of_skipSeparators hskip
    refine .inr ⟨before, (first :: rest).takeWhile fun t => t.kind ≠ .separator,
      (first :: rest).dropWhile fun t => t.kind ≠ .separator, ?_, hbefore, ?_, ?_, ?_⟩
    · rwa [List.takeWhile_append_dropWhile, ← hskip]
    · simp [hfirst]
    · intro t ht
      simpa using List.all_eq_true.1 List.all_takeWhile t ht
    · intro t ht
      have := List.head?_dropWhile_not (fun t : Token => decide (t.kind ≠ .separator))
        (first :: rest)
      rw [Option.mem_def.1 ht] at this
      simpa using this

/-- **Induction over the statements of a script.** -/
theorem statementTokens_induction {P : List Token → Prop} (hnil : ∀ ts, Separators ts → P ts)
    (hcons : ∀ before run after, Separators before → run ≠ [] →
      (∀ t ∈ run, t.kind ≠ .separator) → (∀ t ∈ after.head?, t.kind = .separator) →
      P after → P (before ++ (run ++ after))) (ts : List Token) : P ts := by
  induction hn : ts.length using Nat.strongRecOn generalizing ts with
  | ind n ih =>
    subst hn
    rcases separators_or_exists_run ts with h | ⟨before, run, after, rfl, hb, hne, hrun, ha⟩
    · exact hnil ts h
    · refine hcons before run after hb hne hrun ha (ih after.length ?_ after rfl)
      have := List.length_pos_iff.2 hne
      simp only [List.length_append]
      omega

/-- A separator divides the statements of a script. -/
theorem statementTokens_append_separator {t : Token} (ht : t.kind = .separator)
    (us vs : List Token) :
    statementTokens (us ++ t :: vs) = statementTokens us ++ statementTokens vs := by
  induction us using statementTokens_induction with
  | hnil us hs =>
    rw [statementTokens_separators_append hs, statementTokens_cons_separator ht,
      hs.statementTokens_eq_nil, List.nil_append]
  | hcons before run after hb hne hrun ha ih =>
    have ha' : ∀ x ∈ (after ++ t :: vs).head?, x.kind = .separator := by
      cases after with
      | nil => simpa using ht
      | cons x after => exact ha
    rw [List.append_assoc, List.append_assoc, statementTokens_separators_append hb,
      statementTokens_append hne hrun ha', ih, statementTokens_separators_append hb,
      statementTokens_append hne hrun ha, List.cons_append]

theorem statementTokens_append_separators (ts : List Token) {after : List Token}
    (h : Separators after) : statementTokens (ts ++ after) = statementTokens ts := by
  cases after with
  | nil => rw [List.append_nil]
  | cons t after =>
    obtain ⟨ht, hafter⟩ := List.forall_mem_cons.1 h
    rw [statementTokens_append_separator ht, Separators.statementTokens_eq_nil hafter,
      List.append_nil]

theorem statementTokens_eq_nil_iff {ts : List Token} :
    statementTokens ts = [] ↔ Separators ts := by
  refine ⟨fun h => ?_, Separators.statementTokens_eq_nil⟩
  induction ts using statementTokens_induction with
  | hnil ts hs => exact hs
  | hcons before run after hb hne hrun ha ih =>
    rw [statementTokens_separators_append hb, statementTokens_append hne hrun ha] at h
    cases h

/-- A script can be cut off behind any of its statements. -/
theorem exists_take_statementTokens (k : Nat) (ts : List Token) :
    ∃ us vs, ts = us ++ vs ∧ statementTokens us = (statementTokens ts).take k := by
  induction ts using statementTokens_induction generalizing k with
  | hnil ts h => exact ⟨[], ts, rfl, by rw [h.statementTokens_eq_nil, List.take_nil]; rfl⟩
  | hcons before run after hb hne hrun ha ih =>
    cases k with
    | zero => exact ⟨[], _, rfl, rfl⟩
    | succ k =>
      obtain ⟨us, vs, rfl, hus⟩ := ih k
      refine ⟨before ++ (run ++ us), vs, by simp, ?_⟩
      have ha' : ∀ t ∈ us.head?, t.kind = .separator := fun t ht => ha t <| by
        rw [List.head?_append, Option.mem_def.1 ht]
        rfl
      rw [statementTokens_separators_append hb, statementTokens_append hne hrun ha',
        statementTokens_separators_append hb, statementTokens_append hne hrun ha, hus,
        List.take_succ_cons]

/-! ### Statements alone -/

/-- The tokens of a statement, read where no name has been assigned and no node has been made. -/
def ReadsAlone (ts : List Token) (w : Written) : Prop :=
  ∃ s s' position, Read.target.run ⟨ts, 0, [], .empty⟩ = .ok (w.symbol, s) ∧
    Read.expression.run s = .ok (position, s') ∧ s'.tokens = [] ∧
      s'.graph.expand position = w.expr

/-- What is read alone is what the parser of statements alone gives. -/
theorem readsAlone_iff {ts : List Token} {w : Written} : ReadsAlone ts w ↔
    ∃ us, target ts = .ok (w.symbol, us) ∧ expression us = .ok (w.expr, []) := by
  have hexpand : ∀ (e : Expr) (us : List Token),
      (Read.put Read.one ⟨us, 0, [], .empty⟩ (e, [])).2.graph.expand
        (Read.put Read.one ⟨us, 0, [], .empty⟩ (e, [])).1 = e := fun e _ =>
    (Formula.grafted_ofExpr e).expand_eq
  constructor
  · rintro ⟨s, s', position, hs, hs', htokens, hroot⟩
    rw [Read.run_target] at hs
    obtain ⟨⟨symbol, us⟩, htarget, heq⟩ := map_eq_ok_iff.1 hs
    cases heq
    rw [Read.follows_expression _ rfl] at hs'
    obtain ⟨⟨e, rest⟩, hexpr, heq⟩ := map_eq_ok_iff.1 hs'
    cases heq
    cases htokens
    have he : w.expr = e := hroot.symm.trans (hexpand e us)
    exact ⟨us, htarget, he ▸ hexpr⟩
  · rintro ⟨us, htarget, hexpr⟩
    refine ⟨⟨us, 0, [], .empty⟩, _, _, ?_, ?_, rfl, hexpand w.expr us⟩
    · rw [Read.run_target, htarget]
      rfl
    · rw [Read.follows_expression _ rfl, hexpr]
      rfl

/-- What is read alone derives from a statement. -/
theorem ReadsAlone.derives {ts : List Token} {w : Written} (h : ReadsAlone ts w) :
    DerivesStatement levelLimit ts w := by
  obtain ⟨us, htarget, hexpr⟩ := readsAlone_iff.1 h
  obtain ⟨vs, rfl, hvs⟩ := statement_sound htarget hexpr le_rfl
  rwa [List.append_nil]

/-- What derives from a statement is read alone. -/
theorem DerivesStatement.readsAlone {ts : List Token} {w : Written}
    (h : DerivesStatement levelLimit ts w) : ReadsAlone ts w := by
  have hends : (Symbol.chain .or).Ends [] := by simp [Symbol.Ends]
  obtain ⟨us, htarget, hexpr⟩ := statement_complete h hends
  rw [List.append_nil] at htarget
  rcases hexpr with hexpr | ⟨hlt, -⟩
  · exact readsAlone_iff.2 ⟨us, htarget, hexpr⟩
  · exact absurd hlt (lt_irrefl _)

theorem DerivesStatement.not_separator {d : ℕ∞} {ts : List Token} {w : Written}
    (h : DerivesStatement d ts w) : ∀ t ∈ ts, t.kind ≠ .separator := by
  cases h with
  | assign ht he h =>
    simp only [List.forall_mem_cons]
    refine ⟨ht.isPart.not_separator, ?_, fun t ht => (h.isPart t ht).not_separator⟩
    simp [(isAssignment_iff.1 he).1]
  | plain h => exact fun t ht => (h.isPart t ht).not_separator

theorem DerivesStatement.ne_nil {d : ℕ∞} {ts : List Token} {w : Written}
    (h : DerivesStatement d ts w) : ts ≠ [] := by
  obtain ⟨t, us, rfl, -⟩ := h.starts
  simp

theorem DerivesStatements.forall₂ {d : ℕ∞} {body after : List Token} {ws : List Written}
    (h : DerivesStatements d body ws) (ha : Separators after) :
    List.Forall₂ (DerivesStatement d) (statementTokens (body ++ after)) ws := by
  induction h with
  | one h =>
    rw [statementTokens_append h.ne_nil h.not_separator fun t ht => ha t (List.mem_of_mem_head? ht),
      ha.statementTokens_eq_nil]
    exact .cons h .nil
  | @cons ts separators us w ws h hs hne hrest ih =>
    rw [List.append_assoc, List.append_assoc, statementTokens_append h.ne_nil h.not_separator,
      statementTokens_separators_append hs]
    · exact .cons h ih
    · intro t ht
      rw [List.head?_append_of_ne_nil _ hne] at ht
      exact hs t (List.mem_of_mem_head? ht)

/-- **A script derives from the grammar if and only if its statements do.** -/
theorem derivesScript_iff {d : ℕ∞} {ts : List Token} {ws : List Written} :
    DerivesScript d ts ws ↔
      List.Forall₂ (DerivesStatement d) (statementTokens ts) ws ∧ ws ≠ [] := by
  constructor
  · rintro ⟨before, body, after, rfl, hb, ha, hbody⟩
    rw [List.append_assoc, statementTokens_separators_append hb]
    exact ⟨hbody.forall₂ ha, hbody.ne_nil⟩
  · rintro ⟨h, hne⟩
    induction ts using statementTokens_induction generalizing ws with
    | hnil ts hs =>
      rw [hs.statementTokens_eq_nil] at h
      cases h
      exact absurd rfl hne
    | hcons before run after hb hrunne hrun ha ih =>
      rw [statementTokens_separators_append hb, statementTokens_append hrunne hrun ha] at h
      obtain ⟨w, ws, hw, hws, rfl⟩ := List.forall₂_cons_left_iff.1 h
      rw [← List.append_assoc]
      cases hafter : statementTokens after with
      | nil =>
        rw [hafter] at hws
        cases hws
        exact .one hb hw (statementTokens_eq_nil_iff.1 hafter)
      | cons run' runs =>
        have hne' : ws ≠ [] := by
          rintro rfl
          rw [hafter] at hws
          cases hws
        -- the next statement stands behind a separator
        cases after with
        | nil => cases hafter
        | cons t after => exact .cons hb hw (ha t rfl) (ih hws hne')

/-- A script derives from the grammar within the limit of levels if and only if its statements are
read alone. -/
theorem derivesScript_iff_readsAlone {ts : List Token} {ws : List Written} :
    DerivesScript levelLimit ts ws ↔
      List.Forall₂ ReadsAlone (statementTokens ts) ws ∧ ws ≠ [] := by
  rw [derivesScript_iff]
  refine and_congr_left' ⟨fun h => h.imp fun _ _ => DerivesStatement.readsAlone, fun h => ?_⟩
  exact h.imp fun _ _ => ReadsAlone.derives

/-! ### Trees -/

/-- The tree of the latest statement that assigns a name. -/
def latest (ws : List Written) (es : List Expr) : Bindings := fun s =>
  ((ws.zip es).reverse.find? fun r => r.1.symbol = some s).map (·.2)

/-- Each tree is the tree as written, every name being replaced by the tree of the latest earlier
statement that assigns it. -/
structure Inlined (ws : List Written) (es : List Expr) : Prop where
  length_eq : es.length = ws.length
  getElem_eq : ∀ i (hw : i < ws.length) (he : i < es.length),
    es[i] = ws[i].expr.subst (latest (ws.take i) (es.take i))

theorem latest_append_singleton {ws : List Written} {es : List Expr} (h : es.length = ws.length)
    (w : Written) (e : Expr) :
    latest (ws ++ [w]) (es ++ [e]) = assigned (latest ws es) w.symbol e := by
  funext s
  rw [latest, List.zip_append h.symm]
  cases hw : w.symbol with
  | none => simp [assigned, hw, latest]
  | some s' =>
    by_cases hs : s = s'
    · simp [assigned, hw, hs]
    · simp [assigned, hw, hs, Ne.symm hs, latest]

theorem trees_append (env : Bindings) (ws vs : List Written) :
    trees env (ws ++ vs) = trees env ws ++ trees (bindings env ws) vs := by
  induction ws generalizing env with
  | nil => rfl
  | cons w ws ih => simp [trees, bindings, ih]

theorem bindings_append (env : Bindings) (ws vs : List Written) :
    bindings env (ws ++ vs) = bindings (bindings env ws) vs := by
  induction ws generalizing env with
  | nil => rfl
  | cons w ws ih => simp [bindings, ih]

@[simp] theorem length_trees (env : Bindings) (ws : List Written) :
    (trees env ws).length = ws.length := by
  induction ws generalizing env with
  | nil => rfl
  | cons w ws ih => simp [trees, ih]

/-- What names stand for behind statements are the trees of the latest ones. -/
theorem bindings_eq_latest (ws : List Written) :
    bindings (fun _ => none) ws = latest ws (trees (fun _ => none) ws) := by
  induction ws using List.reverseRecOn with
  | nil => rfl
  | append_singleton ws w ih =>
    rw [bindings_append, trees_append, trees, trees, latest_append_singleton (by simp), ← ih]
    rfl

/-- The trees of a script are those of its statements with names replaced. -/
theorem inlined_trees (ws : List Written) : Inlined ws (trees (fun _ => none) ws) where
  length_eq := length_trees _ _
  getElem_eq i hw he := by
    -- the statements are those before the one at `i`, this one, and those behind it
    have hws : ws = ws.take i ++ ws[i] :: ws.drop (i + 1) := by
      rw [← List.drop_eq_getElem_cons hw, List.take_append_drop]
    have htrees : trees (fun _ => none) ws = trees (fun _ => none) (ws.take i) ++
        ws[i].expr.subst (bindings (fun _ => none) (ws.take i)) ::
          trees (bindings (fun _ => none) (ws.take i ++ [ws[i]])) (ws.drop (i + 1)) := by
      conv_lhs => rw [hws, trees_append]
      rw [bindings_append]
      rfl
    have hlen : (trees (fun _ => none) (ws.take i)).length = i := by
      rw [length_trees, List.length_take, Nat.min_eq_left (Nat.le_of_lt hw)]
    have htake : (trees (fun _ => none) ws).take i = trees (fun _ => none) (ws.take i) := by
      rw [htrees, List.take_append_of_le_length (Nat.le_of_eq hlen.symm), List.take_of_length_le]
      exact Nat.le_of_eq hlen
    rw [htake, ← bindings_eq_latest]
    simp only [htrees]
    rw [List.getElem_append_right (Nat.le_of_eq hlen)]
    simp [hlen]

theorem Inlined.take {ws : List Written} {es : List Expr} (h : Inlined ws es) (k : Nat) :
    Inlined (ws.take k) (es.take k) where
  length_eq := by simp [h.length_eq]
  getElem_eq i hw he := by
    rw [List.length_take] at hw he
    rw [List.getElem_take, List.getElem_take, List.take_take, List.take_take,
      Nat.min_eq_left (by omega)]
    exact h.getElem_eq i (by omega) (by omega)

/-- Trees that follow from one another are determined by the statements. -/
theorem Inlined.eq_trees {ws : List Written} {es : List Expr} (h : Inlined ws es) :
    es = trees (fun _ => none) ws := by
  have htrees := inlined_trees ws
  refine List.ext_getElem (h.length_eq.trans htrees.length_eq.symm) fun i he he' => ?_
  induction i using Nat.strongRecOn with
  | ind i ih =>
    have hw : i < ws.length := h.length_eq ▸ he
    have htake : es.take i = (trees (fun _ => none) ws).take i := by
      refine List.ext_getElem (by simp [h.length_eq]) fun j hj hj' => ?_
      rw [List.length_take] at hj
      rw [List.getElem_take, List.getElem_take]
      exact ih j (by omega) (by omega) (by rw [length_trees]; omega)
    rw [h.getElem_eq i hw he, htrees.getElem_eq i hw he', htake]

/-! ### Shapes -/

theorem foldl_max_mono {α : Type} {f g : α → Nat} {cs : List α} (h : ∀ c ∈ cs, f c ≤ g c)
    {a b : Nat} (hab : a ≤ b) : (cs.map f).foldl Nat.max a ≤ (cs.map g).foldl Nat.max b := by
  induction cs generalizing a b with
  | nil => exact hab
  | cons c cs ih =>
    rw [List.forall_mem_cons] at h
    exact ih h.2 (max_le_max hab h.1)

theorem foldl_add_mono {α : Type} {f g : α → Nat} {cs : List α} (h : ∀ c ∈ cs, f c ≤ g c)
    {a b : Nat} (hab : a ≤ b) : (cs.map f).foldl Nat.add a ≤ (cs.map g).foldl Nat.add b := by
  induction cs generalizing a b with
  | nil => exact hab
  | cons c cs ih =>
    rw [List.forall_mem_cons] at h
    exact ih h.2 (Nat.add_le_add hab h.1)

/-- Replacing names by trees makes a tree no smaller. -/
theorem shape_le_shape_subst (env : Bindings) (e : Expr) :
    e.shape.depth ≤ (e.subst env).shape.depth ∧ e.shape.size ≤ (e.subst env).shape.size := by
  induction e using Expr.node_induction with
  | h n ih =>
    by_cases hn : ∃ symbol, n = .name symbol
    · obtain ⟨symbol, rfl⟩ := hn
      -- a name is as small as a tree can be
      rcases (Expr.mk (.name symbol)).subst env with ⟨m⟩
      have hm : (Expr.mk m).shape = Shape.ofNode (m.map Expr.shape) := Expr.fold_mk _ _
      rw [hm]
      exact ⟨Nat.le_add_right 1 _, Nat.le_add_right 1 _⟩
    · have hshape : ∀ m : Node Expr, (Expr.mk m).shape = Shape.ofNode (m.map Expr.shape) :=
        Expr.fold_mk _
      rw [Expr.subst_mk _ fun symbol heq => hn ⟨symbol, heq⟩, hshape, hshape, Node.map_map]
      simp only [Shape.ofNode, Node.children_map, List.map_map]
      exact ⟨Nat.add_le_add_left (foldl_max_mono (fun c hc => (ih c hc).1) le_rfl) 1,
        Nat.add_le_add_left (foldl_add_mono (fun c hc => (ih c hc).2) le_rfl) 1⟩

theorem within_of_subst {env : Bindings} {e : Expr} (h : (e.subst env).shape.Within) :
    e.shape.Within :=
  ⟨Nat.le_trans (shape_le_shape_subst env e).1 h.1, Nat.le_trans (shape_le_shape_subst env e).2 h.2⟩

/-! ### Reading in two steps -/

/-- A script read in two steps: its statements one by one, and then their trees. -/
structure InTwoSteps (ts : List Token) (ws : List Written) (es : List Expr) : Prop where
  ne_nil : ws ≠ []
  alone : List.Forall₂ ReadsAlone (statementTokens ts) ws
  inlined : Inlined ws es
  within : ∀ e ∈ es, e.shape.Within

theorem InTwoSteps.derives {ts : List Token} {ws : List Written} {es : List Expr}
    (h : InTwoSteps ts ws es) : DerivesScript levelLimit ts ws :=
  derivesScript_iff_readsAlone.2 ⟨h.alone, h.ne_nil⟩

/-- The statements as written are within the limits as well. -/
theorem InTwoSteps.written_within {ts : List Token} {ws : List Written} {es : List Expr}
    (h : InTwoSteps ts ws es) : ∀ w ∈ ws, w.expr.shape.Within := by
  intro w hw
  obtain ⟨i, hi, rfl⟩ := List.getElem_of_mem hw
  have he : i < es.length := h.inlined.length_eq ▸ hi
  have := h.within es[i] (List.getElem_mem he)
  rw [h.inlined.getElem_eq i hi he] at this
  exact within_of_subst this

/-- A script cut off behind one of its statements. -/
theorem InTwoSteps.take {ts us : List Token} {ws : List Written} {es : List Expr} {k : Nat}
    (h : InTwoSteps ts ws es) (hk : k ≠ 0)
    (hus : statementTokens us = (statementTokens ts).take k) :
    InTwoSteps us (ws.take k) (es.take k) where
  ne_nil := by simp [h.ne_nil, hk]
  alone := hus ▸ List.forall₂_take k h.alone
  inlined := h.inlined.take k
  within := fun e he => h.within e (List.mem_of_mem_take he)

/-- Only the statements of a script matter. -/
theorem InTwoSteps.of_statementTokens_eq {ts us : List Token} {ws : List Written} {es : List Expr}
    (h : InTwoSteps ts ws es) (hu : statementTokens us = statementTokens ts) :
    InTwoSteps us ws es :=
  ⟨h.ne_nil, hu ▸ h.alone, h.inlined, h.within⟩

theorem InTwoSteps.statementTokens_ne_nil {ts : List Token} {ws : List Written} {es : List Expr}
    (h : InTwoSteps ts ws es) : statementTokens ts ≠ [] := by
  intro hnil
  have halone := h.alone
  rw [hnil] at halone
  cases halone
  exact h.ne_nil rfl

/-- **What is read in two steps is read at once**, to the same trees. -/
theorem InTwoSteps.reads {ts : List Token} {ws : List Written} {es : List Expr}
    (h : InTwoSteps ts ws es) : ∃ p, statements (ts.length + 1) .empty ts = .ok p ∧
      Reads p (latest ws es) es.getLast? := by
  have hes := h.inlined.eq_trees
  obtain ⟨before, body, after, rfl, hb, ha, hbody⟩ := h.derives
  rw [List.append_assoc]
  rcases statements_complete hbody hb ha (Nat.lt_succ_self _) reads_empty with
    ⟨p, hp, hread⟩ | ⟨hlt, -⟩ | ⟨e, he, x, t, hx, -⟩
  · rw [bindings_eq_latest, ← hes] at hread
    exact ⟨p, hp, hread⟩
  · exact absurd hlt (lt_irrefl _)
  · rw [Shape.excess?_eq_none_iff.2 (h.within e (hes ▸ he))] at hx
    cases hx

/-- **What is read at once is read in two steps**. -/
theorem inTwoSteps_of_statements {ts : List Token} {p : Partial}
    (h : statements (ts.length + 1) .empty ts = .ok p) (hp : p.result.isSome = true) :
    ∃ ws es, InTwoSteps ts ws es := by
  rcases statements_sound le_rfl (Nat.lt_succ_self _) reads_empty h with
    ⟨-, rfl⟩ | ⟨ws, hws, -, hwithin⟩
  · cases hp
  · obtain ⟨halone, hne⟩ := derivesScript_iff_readsAlone.1 hws
    exact ⟨ws, _, hne, halone, inlined_trees ws, hwithin⟩

/-- Every statement of a script that is read in two steps is read to its tree: cut off behind that
statement, the script has the tree as its result. -/
theorem InTwoSteps.reads_take {ts : List Token} {ws : List Written} {es : List Expr}
    (h : InTwoSteps ts ws es) {i : Nat} {e : Expr} (he : es[i]? = some e) :
    ∃ us vs p, ts = us ++ vs ∧ statementTokens us = (statementTokens ts).take (i + 1) ∧
      statements (us.length + 1) .empty us = .ok p ∧
      p.result.map p.graph.expand = some e := by
  obtain ⟨us, vs, hts, hus⟩ := exists_take_statementTokens (i + 1) ts
  obtain ⟨p, hp, hread⟩ := (h.take (Nat.succ_ne_zero i) hus).reads
  refine ⟨us, vs, p, hts, hus, hp, hread.result_eq.trans ?_⟩
  have hlt : i < es.length := (List.getElem?_eq_some_iff.1 he).1
  have hlen : (es.take (i + 1)).length = i + 1 := by
    rw [List.length_take, Nat.min_eq_left hlt]
  rw [List.getLast?_eq_getElem?, hlen, Nat.add_sub_cancel,
    List.getElem?_take_of_lt (Nat.lt_succ_self i), he]

end Grammar

open Grammar Program

theorem Program.parse_eq_ok_iff {source : String} {p : Program} : parse source = .ok p ↔
    ∃ ts q, Token.scan source = .ok ts ∧ statements (ts.length + 1) .empty ts = .ok q ∧
      p.source = source ∧ p.graph = q.graph ∧ p.locals = q.locals ∧ q.result = some p.result := by
  simp only [parse, bind_eq_ok_iff, mapError_eq_ok_iff]
  constructor
  · rintro ⟨ts, hts, q, hq, h⟩
    cases hr : q.result with
    | none => rw [hr] at h; cases h
    | some result =>
      rw [hr] at h
      cases h
      exact ⟨ts, q, hts, hq, rfl, rfl, rfl, hr⟩
  · rintro ⟨ts, q, hts, hq, hs, hg, hl, hr⟩
    refine ⟨ts, hts, q, hq, ?_⟩
    rw [hr]
    cases p
    simp_all [pure, Except.pure]

/-- **Inlining is sequential substitution.**  If a script is accepted, its statements can be read
alone, and their trees with the names replaced by the trees of the latest earlier statements are
within the limits, as are the trees as written; every statement is read to its tree, a name stands
for the tree of the latest statement that assigns it, and the result is the last tree.  Conversely,
a script whose statements can be read alone, to trees within the limits, is accepted. -/
theorem Program.parse_inlined (source : String) :
    (∀ p, parse source = .ok p → ∃ ts ws es, Token.scan source = .ok ts ∧ InTwoSteps ts ws es ∧
      (∀ w ∈ ws, w.expr.shape.Within) ∧
      (∀ i e, es[i]? = some e → ∃ us vs q, ts = us ++ vs ∧
        statementTokens us = (statementTokens ts).take (i + 1) ∧
        statements (us.length + 1) .empty us = .ok q ∧ q.result.map q.graph.expand = some e) ∧
      (∀ s, (p.local? s).map Formula.expr = latest ws es s) ∧
      es.getLast? = some (p.formula p.result).expr) ∧
    ∀ ts ws es, Token.scan source = .ok ts → InTwoSteps ts ws es → ∃ p, parse source = .ok p := by
  constructor
  · intro p h
    obtain ⟨ts, q, hts, hq, -, hgraph, hlocals, hresult⟩ := parse_eq_ok_iff.1 h
    obtain ⟨ws, es, hsteps⟩ := inTwoSteps_of_statements hq (by rw [hresult]; rfl)
    obtain ⟨q', hq', hread⟩ := hsteps.reads
    cases hq.symm.trans hq'
    refine ⟨ts, ws, es, hts, hsteps, hsteps.written_within, fun i e he => hsteps.reads_take he,
      fun s => ?_, ?_⟩
    · rw [← hread.locals_eq s, local?, hlocals, Option.map_map]
      simp [Function.comp_def, formula, Formula.expr, hgraph]
    · rw [← hread.result_eq, hresult, formula, hgraph]
      rfl
  · intro ts ws es hts hsteps
    obtain ⟨q, hq, hread⟩ := hsteps.reads
    obtain ⟨e, he⟩ : ∃ e, es.getLast? = some e := by
      have hne : es ≠ [] := by
        rw [← List.length_pos_iff, hsteps.inlined.length_eq, List.length_pos_iff]
        exact hsteps.ne_nil
      exact ⟨_, List.getLast?_eq_some_getLast hne⟩
    obtain ⟨result, hresult, -⟩ := Option.map_eq_some_iff.1 (hread.result_eq.trans he)
    exact ⟨⟨source, q.graph, q.locals, result⟩,
      parse_eq_ok_iff.2 ⟨ts, q, hts, hq, rfl, rfl, rfl, hresult⟩⟩

/-- The script `a = 2; a = -a; a`, in which a name is assigned from itself. -/
theorem Program.parse_inlined_again :
    let a : Nat → Token := fun position => ⟨.word, "a", position⟩
    let two : Token := ⟨.number, "2", 4⟩
    let ts : List Token := [a 0, ⟨.operator, "=", 2⟩, two, ⟨.separator, ";", 5⟩, a 7,
      ⟨.operator, "=", 9⟩, ⟨.operator, "-", 11⟩, a 12, ⟨.separator, ";", 13⟩, a 15]
    let ws : List Written := [⟨some "a", .mk (.number (Statement.literal two))⟩,
      ⟨some "a", .mk (.unary "-" (.mk (.name "a")))⟩, ⟨none, .mk (.name "a")⟩]
    let minusTwo : Expr := .mk (.unary "-" (.mk (.number (Statement.literal two))))
    Token.scan "a = 2; a = -a; a" = .ok ts ∧
      InTwoSteps ts ws [.mk (.number (Statement.literal two)), minusTwo, minusTwo] ∧
      ∃ p, parse "a = 2; a = -a; a" = .ok p := by
  intro a two ts ws minusTwo
  have hscan : Token.scan "a = 2; a = -a; a" = .ok ts := rfl
  have hsteps : InTwoSteps ts ws [.mk (.number (Statement.literal two)), minusTwo, minusTwo] := by
    refine ⟨by simp [ws], ?_, ?_, ?_⟩
    · have hlower : "a".toLower = "a" := by decide +kernel
      have hkeyword : "a".toLower ∉ Token.keywords := by decide +kernel
      have hname : ∀ position, IsName (a position) := fun _ => ⟨rfl, hkeyword⟩
      have ha : ∀ {d : ℕ∞} (position : Nat), Derives d .signed [a position] (.mk (.name "a")) := by
        intro d position
        have h : Derives d .primary [a position] (.mk (.name "a".toLower)) := .name (hname position)
        rw [hlower] at h
        exact .unsigned (.indexed h .nil)
      have htwo : Derives 63 .signed [two] (.mk (.number (Statement.literal two))) :=
        .unsigned (.indexed (.number rfl) .nil)
      have hminus : Derives 63 .signed [⟨.operator, "-", 11⟩, a 12]
          (.mk (.unary "-" (.mk (.name "a")))) := Derives.sign (d := 62) rfl (ha 12)
      have hassign : ∀ {n m : Nat} {us : List Token} {e : Expr}, Derives 63 .signed us e →
          ReadsAlone (a n :: ⟨.operator, "=", m⟩ :: us) ⟨some "a", e⟩ := by
        intro n m us e h
        have heq : isAssignment ⟨.operator, "=", m⟩ = true := rfl
        have h : DerivesStatement levelLimit (a n :: ⟨.operator, "=", m⟩ :: us)
            ⟨some "a".toLower, e⟩ := .assign (hname n) heq h.of_signed
        exact hlower ▸ h.readsAlone
      have hlast : DerivesStatement levelLimit [a 15] ⟨none, .mk (.name "a")⟩ :=
        .plain (Derives.of_signed (d := 63) (ha 15))
      exact .cons (hassign htwo) (.cons (hassign hminus) (.cons hlast.readsAlone .nil))
    · exact inlined_trees ws
    · decide +kernel
  exact ⟨hscan, hsteps, (parse_inlined _).2 _ _ _ hscan hsteps⟩

end BarScript
