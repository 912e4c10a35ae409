import BarScript.Proofs.Graph.Fold

/-!
# Grafting a tree onto a graph

`Graph.graft` adds the nodes of a tree to a graph and lets some of its names stand for nodes that
are there already.  The graph stays ordered, its nodes unfold to the same trees as before, and the
new node unfolds to the tree with those names replaced (`Graph.graft_spec`).  A tree that is taken
for a formula is the tree of that formula (`Formula.expr_ofExpr`).
-/

namespace BarScript

/-- The expression with some of its names replaced. -/
def Expr.subst (locals : String → Option Expr) : Expr → Expr :=
  Expr.fold fun n => match n with
    | .name symbol => (locals symbol).getD (.mk (.name symbol))
    | n => .mk n

theorem Expr.subst_name (locals : String → Option Expr) (symbol : String) :
    (Expr.mk (.name symbol)).subst locals = (locals symbol).getD (.mk (.name symbol)) := rfl

theorem Expr.subst_mk (locals : String → Option Expr) {n : Node Expr}
    (h : ∀ symbol, n ≠ .name symbol) : (Expr.mk n).subst locals = .mk (n.map (subst locals)) := by
  rw [subst, fold_mk]
  cases n <;> first | rfl | exact absurd rfl (h _)

/-- Without names to replace the expression stays as it is. -/
@[simp] theorem Expr.subst_none (e : Expr) : e.subst (fun _ => none) = e := by
  induction e using Expr.node_induction with
  | h n ih =>
    by_cases hn : ∃ symbol, n = .name symbol
    · obtain ⟨symbol, rfl⟩ := hn
      rfl
    · rw [subst_mk _ fun symbol heq => hn ⟨symbol, heq⟩, Node.map_congr ih, Node.map_id]

namespace Graph

/-! ### Node by node -/

section

variable (locals : String → Option Nat) (g : Graph)

theorem graft_name (symbol : String) : graft locals (.mk (.name symbol)) g =
    match locals symbol with
    | some position => (position, g)
    | none => (g.size, g.push (.name symbol)) := by
  rw [graft, Expr.fold_mk]
  simp only [Node.map, graft.step]
  cases locals symbol <;> rfl

/-- Any other node is added behind its operands. -/
theorem graft_mk {n : Node Expr} (h : ∀ symbol, n ≠ .name symbol) : graft locals (.mk n) g =
    let r := n.mapM (graft locals) g
    (r.2.size, r.2.push r.1) := by
  rw [graft, Expr.fold_mk]
  cases n with
  | name symbol => exact absurd rfl (h symbol)
  | call function es => simp only [Node.map, graft.step, Node.mapM, List.mapM_map]; rfl
  | logical operator es => simp only [Node.map, graft.step, Node.mapM, List.mapM_map]; rfl
  | _ => rfl

end

/-! ### What is added -/

/-- One graph is another one with more nodes, the node at `i` unfolding to `e`. -/
structure Grafted (g : Graph) (e : Expr) (i : Nat) (g' : Graph) : Prop where
  extends_ : g.Extends g'
  ordered : g'.Ordered
  lt : i < g'.size
  expand_eq : g'.expand i = e

/-- From any ordered extension of `g₀`, a node that unfolds to `e` is added. -/
def Adds (g₀ : Graph) (x : StateM Graph Nat) (e : Expr) : Prop :=
  ∀ g, g₀.Extends g → g.Ordered → g.Grafted e (x g).1 (x g).2

section

variable {g₀ : Graph} {β : Type} {f : β → StateM Graph Nat} {t : β → Expr}

theorem adds_pure {i : Nat} (hi : i < g₀.size) : g₀.Adds (pure i) (g₀.expand i) := fun _ h hg =>
  ⟨.refl _, hg, Nat.lt_of_lt_of_le hi h.size_le, h.expand_eq hi⟩

theorem adds_list {cs : List β} (hc : ∀ c ∈ cs, g₀.Adds (f c) (t c)) {g : Graph}
    (h : g₀.Extends g) (hg : g.Ordered) :
    ∃ is g', ((cs.map f).mapM fun c => c) g = (is, g') ∧ g.Extends g' ∧ g'.Ordered ∧
      (∀ i ∈ is, i < g'.size) ∧ is.map g'.expand = cs.map t := by
  induction cs generalizing g with
  | nil => exact ⟨[], g, rfl, .refl g, hg, by simp, rfl⟩
  | cons c cs ih =>
    rw [List.forall_mem_cons] at hc
    obtain ⟨hext, hord, hlt, hexp⟩ := hc.1 g h hg
    obtain ⟨is, g', hrun, hext', hord', hlts, hexps⟩ := ih hc.2 (h.trans hext) hord
    refine ⟨(f c g).1 :: is, g', ?_, hext.trans hext', hord', ?_, ?_⟩
    · rw [List.map_cons, List.mapM_cons]
      exact congrArg (fun p : List Nat × Graph => ((f c g).1 :: p.1, p.2)) hrun
    · exact List.forall_mem_cons.2 ⟨Nat.lt_of_lt_of_le hlt hext'.size_le, hlts⟩
    · rw [List.map_cons, List.map_cons, hexps, hext'.expand_eq hlt, hexp]

/-- The operands of a node are added one after another. -/
theorem adds_children {n : Node β} (hc : ∀ c ∈ n.children, g₀.Adds (f c) (t c)) {g : Graph}
    (h : g₀.Extends g) (hg : g.Ordered) :
    ∃ n' g', ((n.map f).mapM fun c => c) g = (n', g') ∧ g.Extends g' ∧ g'.Ordered ∧
      (∀ i ∈ n'.children, i < g'.size) ∧ n'.map g'.expand = n.map t := by
  cases n with
  | number x => exact ⟨.number x, g, rfl, .refl g, hg, by simp [Node.children], rfl⟩
  | text s => exact ⟨.text s, g, rfl, .refl g, hg, by simp [Node.children], rfl⟩
  | name s => exact ⟨.name s, g, rfl, .refl g, hg, by simp [Node.children], rfl⟩
  | call function arguments =>
    obtain ⟨is, g', hrun, hext, hord, hlt, hexp⟩ := adds_list hc h hg
    refine ⟨.call function is, g', ?_, hext, hord, hlt, congrArg (Node.call function) hexp⟩
    exact congrArg (fun p : List Nat × Graph => (Node.call function p.1, p.2)) hrun
  | logical operator operands =>
    obtain ⟨is, g', hrun, hext, hord, hlt, hexp⟩ := adds_list hc h hg
    refine ⟨.logical operator is, g', ?_, hext, hord, hlt, congrArg (Node.logical operator) hexp⟩
    exact congrArg (fun p : List Nat × Graph => (Node.logical operator p.1, p.2)) hrun
  | history c bars =>
    obtain ⟨hext, hord, hlt, hexp⟩ := hc c (by simp [Node.children]) g h hg
    exact ⟨.history _ bars, _, rfl, hext, hord, by simpa [Node.children] using hlt,
      by rw [Node.map, hexp]; rfl⟩
  | unary operator c =>
    obtain ⟨hext, hord, hlt, hexp⟩ := hc c (by simp [Node.children]) g h hg
    exact ⟨.unary operator _, _, rfl, hext, hord, by simpa [Node.children] using hlt,
      by rw [Node.map, hexp]; rfl⟩
  | negation c =>
    obtain ⟨hext, hord, hlt, hexp⟩ := hc c (by simp [Node.children]) g h hg
    exact ⟨.negation _, _, rfl, hext, hord, by simpa [Node.children] using hlt,
      by rw [Node.map, hexp]; rfl⟩
  | binary operator c d =>
    obtain ⟨hext, hord, hlt, hexp⟩ := hc c (by simp [Node.children]) g h hg
    obtain ⟨hext', hord', hlt', hexp'⟩ := hc d (by simp [Node.children]) _ (h.trans hext) hord
    refine ⟨.binary operator _ _, _, rfl, hext.trans hext', hord', ?_, ?_⟩
    · simpa [Node.children] using ⟨Nat.lt_of_lt_of_le hlt hext'.size_le, hlt'⟩
    · rw [Node.map, hext'.expand_eq hlt, hexp, hexp']
      rfl
  | comparison operator c d =>
    obtain ⟨hext, hord, hlt, hexp⟩ := hc c (by simp [Node.children]) g h hg
    obtain ⟨hext', hord', hlt', hexp'⟩ := hc d (by simp [Node.children]) _ (h.trans hext) hord
    refine ⟨.comparison operator _ _, _, rfl, hext.trans hext', hord', ?_, ?_⟩
    · simpa [Node.children] using ⟨Nat.lt_of_lt_of_le hlt hext'.size_le, hlt'⟩
    · rw [Node.map, hext'.expand_eq hlt, hexp, hexp']
      rfl

theorem adds_node {n : Node β} (hc : ∀ c ∈ n.children, g₀.Adds (f c) (t c)) :
    g₀.Adds (do graft.add (← (n.map f).mapM fun c => c)) (.mk (n.map t)) := by
  intro g h hg
  obtain ⟨n', g', hrun, hext, hord, hlt, hexp⟩ := adds_children hc h hg
  have heq : (do graft.add (← (n.map f).mapM fun c => c) : StateM Graph Nat) g =
      (g'.size, g'.push n') :=
    congrArg (fun p : Node Nat × Graph => (p.2.size, p.2.push p.1)) hrun
  rw [heq]
  exact ⟨hext.trans (.push g' n'), hord.push hlt, by simp, by rw [expand_push_size hord hlt, hexp]⟩

end

/-- **Grafting adds the tree, with the names replaced that stand for nodes.** -/
theorem graft_spec (locals : String → Option Nat) (e : Expr) {g : Graph} (hg : g.Ordered)
    (hl : ∀ s i, locals s = some i → i < g.size) :
    g.Grafted (e.subst fun s => (locals s).map g.expand) (graft locals e g).1
      (graft locals e g).2 := by
  suffices h : ∀ e : Expr,
      g.Adds (graft locals e) (e.subst fun s => (locals s).map g.expand) from h e g (.refl g) hg
  intro e
  induction e using Expr.node_induction with
  | h n ih =>
    rw [graft, Expr.fold_mk]
    by_cases hn : ∃ symbol, n = .name symbol
    · obtain ⟨symbol, rfl⟩ := hn
      rw [Expr.subst_name]
      cases hs : locals symbol with
      | some i =>
        simp only [Node.map, graft.step, hs, Option.map_some, Option.getD_some]
        exact adds_pure (hl symbol i hs)
      | none =>
        have hname : ∀ c ∈ (Node.name symbol : Node Expr).children, g.Adds (graft locals c)
            (c.subst fun s => (locals s).map g.expand) := by simp [Node.children]
        have := adds_node hname
        simp only [Node.map, graft.step, hs, Option.map_none, Option.getD_none]
        exact this
    · rw [Expr.subst_mk _ fun symbol heq => hn ⟨symbol, heq⟩]
      -- any other node is added behind its operands
      have := adds_node (f := graft locals) ih
      cases n <;> first | exact this | exact absurd ⟨_, rfl⟩ hn

end Graph

/-! ### Trees as formulas -/

theorem Formula.grafted_ofExpr (e : Expr) :
    Graph.empty.Grafted e (ofExpr e).root (ofExpr e).graph := by
  have := Graph.graft_spec (fun _ => none) e Graph.ordered_empty (by simp)
  rwa [show (fun s => Option.map Graph.empty.expand ((fun _ => none : String → Option Nat) s)) =
    fun _ => none from rfl, Expr.subst_none] at this

theorem Formula.wellFormed_ofExpr (e : Expr) : (ofExpr e).WellFormed :=
  ⟨(grafted_ofExpr e).ordered, (grafted_ofExpr e).lt⟩

/-- **The formula of a tree has that tree.** -/
@[simp] theorem Formula.expr_ofExpr (e : Expr) : (ofExpr e).expr = e := (grafted_ofExpr e).expand_eq

end BarScript
