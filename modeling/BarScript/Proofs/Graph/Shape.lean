import BarScript.Proofs.Graph.Acyclic
import Mathlib.Algebra.BigOperators.Fin
import Mathlib.Data.List.Fold

/-!
# The shape of what a node unfolds to

The walk of `Graph.shape?` gives the depth and the number of nodes of the tree that a node unfolds
to, for every node of a graph without cycles (`Graph.walk_unfolds`), however large that tree is.

A visit to a node takes a number of steps that is paid for by the nodes it finishes
(`Graph.Visit.cost`): a node pays for being looked at and finished and for each of its operands
(`Graph.budget`).  A visit only finishes nodes that are below the one visited (`Graph.Visit.below`),
and no node is below its operands.  So the visits to the operands of a node finish each of them, and
leave the node itself to be finished.
-/

namespace BarScript

open Finset Relation

namespace Node

variable {β γ : Type}

theorem list_mapM_some {f : β → Option γ} {h : β → γ} {cs : List β}
    (hf : ∀ c ∈ cs, f c = some (h c)) : cs.mapM f = some (cs.map h) := by
  induction cs with
  | nil => rfl
  | cons c cs ih =>
    rw [List.mapM_cons, hf c List.mem_cons_self, ih fun c hc => hf c (List.mem_cons_of_mem _ hc)]
    rfl

/-- Where every operand has a result, the node has one. -/
theorem mapM_some {f : β → Option γ} {h : β → γ} {n : Node β}
    (hf : ∀ c ∈ n.children, f c = some (h c)) : n.mapM f = some (n.map h) := by
  cases n <;> simp only [children, List.mem_cons, List.not_mem_nil, or_false, forall_eq_or_imp,
    forall_eq] at hf
  case call => simp [mapM, map, list_mapM_some hf]
  case logical => simp [mapM, map, list_mapM_some hf]
  all_goals simp [mapM, map, hf]

end Node

namespace Graph

variable {g : Graph} {tree : ℕ → Expr} {shapes : Shapes} {i : ℕ}

/-- The shapes that are known are those of the trees. -/
def Known (tree : ℕ → Expr) (shapes : Shapes) : Prop :=
  ∀ i s, shapes[i]? = some s → s = (tree i).shape

/-- The steps that a node pays for. -/
def weight (g : Graph) (i : ℕ) : ℕ := 2 + (g.nodes[i]?.map (·.children.length)).getD 0

/-- The steps that the nodes without known shape can pay for. -/
def budget (g : Graph) (shapes : Shapes) : ℕ :=
  ∑ i ∈ range g.size, if i ∈ shapes then 0 else g.weight i

theorem budget_insert {s : Shape} (hi : i < g.size) (hn : i ∉ shapes) :
    g.budget (shapes.insert i s) + g.weight i = g.budget shapes := by
  have hm : i ∈ range g.size := mem_range.2 hi
  rw [budget, budget, ← add_sum_erase _ _ hm, ← add_sum_erase (range g.size) _ hm]
  have hrest : ∀ j ∈ (range g.size).erase i,
      (if j ∈ shapes.insert i s then 0 else g.weight j) = if j ∈ shapes then 0 else g.weight j := by
    intro j hj
    have hne : i ≠ j := (ne_of_mem_erase hj).symm
    simp [Std.HashMap.mem_insert, hne]
  rw [sum_congr rfl hrest]
  simp only [Std.HashMap.mem_insert, beq_self_eq_true, true_or, if_true, hn, if_false]
  omega

theorem Known.insert (h : Known tree shapes) : Known tree (shapes.insert i (tree i).shape) := by
  intro j s hj
  rw [Std.HashMap.getElem?_insert] at hj
  split at hj
  · rename_i heq
    cases hj
    rw [beq_iff_eq.1 heq]
  · exact h j s hj

theorem Known.getElem? (h : Known tree shapes) (hi : i ∈ shapes) :
    shapes[i]? = some (tree i).shape := by
  obtain ⟨s, hs⟩ := Option.isSome_iff_exists.1 (Std.HashMap.mem_iff_isSome_getElem?.1 hi)
  rw [hs, h i s hs]

/-! ### Single steps -/

theorem walk_of_mem {t : Task} (h : t.position ∈ shapes) (fuel : ℕ) (rest : List Task) :
    g.walk (fuel + 1) (t :: rest) shapes = g.walk fuel rest shapes := by
  rw [walk]
  simp [h]

theorem walk_visit (hi : i < g.size) (hn : i ∉ shapes) (hc : g.nodes[i].children ≠ []) (fuel : ℕ)
    (rest : List Task) :
    g.walk (fuel + 1) (.visit i :: rest) shapes =
      g.walk fuel (((g.nodes[i].children.filter fun c => !shapes.contains c).reverse.map .visit) ++
        .finish i :: rest) shapes := by
  have hget : g.nodes[i]? = some g.nodes[i] := Array.getElem?_eq_getElem hi
  obtain ⟨c, cs, hcs⟩ := List.exists_cons_of_ne_nil hc
  have hfold : ∀ (xs : List ℕ) (stack : List Task),
      xs.foldl (fun stack c => .visit c :: stack) stack = xs.reverse.map .visit ++ stack := by
    intro xs
    induction xs with
    | nil => intro stack; rfl
    | cons x xs ih => intro stack; simp [ih]
  rw [walk]
  simp [Task.position, hn, hget, hcs, hfold]

theorem walk_finish (ht : g.Unfolds tree) (hk : Known tree shapes) {t : Task}
    (hi : t.position < g.size) (hn : t.position ∉ shapes)
    (hfinish : t = .finish t.position ∨ g.nodes[t.position].children = [])
    (hc : ∀ c ∈ g.nodes[t.position].children, c ∈ shapes) (fuel : ℕ) (rest : List Task) :
    g.walk (fuel + 1) (t :: rest) shapes =
      g.walk fuel rest (shapes.insert t.position (tree t.position).shape) := by
  have hget : g.nodes[t.position]? = some g.nodes[t.position] := Array.getElem?_eq_getElem hi
  have hm : (g.nodes[t.position].mapM fun c => shapes[c]?) =
      some (g.nodes[t.position].map fun c => (tree c).shape) :=
    Node.mapM_some fun c h => hk.getElem? (hc c h)
  have hshape : (tree t.position).shape =
      Shape.ofNode (g.nodes[t.position].map fun c => (tree c).shape) := ht.fold_eq _ hi
  rw [walk]
  cases t with
  | finish i =>
    simp only [Task.position] at *
    simp [hn, hget, hm, hshape]
  | visit i =>
    simp only [Task.position, reduceCtorEq, false_or] at *
    simp [hn, hget, hm, hshape, hfinish]

/-! ### Visits -/

/-- What visits to some nodes achieve: the shapes that are known before and after them, and the
number of steps they take. -/
structure Visit (g : Graph) (tree : ℕ → Expr) (nodes : List ℕ) (before after : Shapes)
    (steps : ℕ) : Prop where
  known : Known tree after
  grows : ∀ i, i ∈ before → i ∈ after
  done : ∀ i ∈ nodes, i ∈ after
  /-- Only nodes below those visited are finished. -/
  below : ∀ i, i ∈ after → i ∈ before ∨ ∃ j ∈ nodes, ReflTransGen g.IsOperand i j
  /-- The steps are paid for by the nodes that are finished. -/
  cost : steps + g.budget after ≤ nodes.length + g.budget before
  walk_eq : ∀ fuel rest,
    g.walk (fuel + steps) (nodes.map .visit ++ rest) before = g.walk fuel rest after

/-- Visits to several nodes, if each of them can be visited. -/
theorem exists_visits (nodes : List ℕ) {before : Shapes} (hk : Known tree before)
    (h : ∀ i ∈ nodes, ∀ before, Known tree before →
      ∃ after steps, g.Visit tree [i] before after steps) :
    ∃ after steps, g.Visit tree nodes before after steps := by
  induction nodes generalizing before with
  | nil => exact ⟨before, 0, hk, fun _ => id, by simp, by simp, by simp, fun _ _ => rfl⟩
  | cons i nodes ih =>
    obtain ⟨middle, n₁, h₁⟩ := h i List.mem_cons_self before hk
    obtain ⟨after, n₂, h₂⟩ := ih h₁.known fun j hj => h j (List.mem_cons_of_mem _ hj)
    refine ⟨after, n₂ + n₁, h₂.known, fun j hj => h₂.grows j (h₁.grows j hj), ?_, ?_, ?_, ?_⟩
    · rw [List.forall_mem_cons]
      exact ⟨h₂.grows i (h₁.done i (by simp)), h₂.done⟩
    · intro j hj
      rcases h₂.below j hj with hj | ⟨k, hk, hle⟩
      · rcases h₁.below j hj with hj | ⟨k, hk, hle⟩
        · exact .inl hj
        · exact .inr ⟨k, by simp_all, hle⟩
      · exact .inr ⟨k, List.mem_cons_of_mem _ hk, hle⟩
    · have c₁ := h₁.cost
      have c₂ := h₂.cost
      simp only [List.length_cons, List.length_nil] at c₁ ⊢
      omega
    · intro fuel rest
      have := h₁.walk_eq (fuel + n₂) (nodes.map .visit ++ rest)
      simp only [List.map_cons, List.map_nil, List.cons_append, List.nil_append] at this ⊢
      rw [← Nat.add_assoc, this, h₂.walk_eq]

/-- A visit to a node without known shape whose operands have been visited. -/
theorem Visit.finish (hg : g.Acyclic) (ht : g.Unfolds tree) (hi : i < g.size)
    {before middle : Shapes} {steps : ℕ} (hn : i ∉ before)
    (hc : g.nodes[i].children ≠ [])
    (h : g.Visit tree (g.nodes[i].children.filter fun c => !before.contains c).reverse
      before middle steps) :
    g.Visit tree [i] before (middle.insert i (tree i).shape) (1 + steps + 1) := by
  have hmem : ∀ c ∈ g.nodes[i].children, c ∈ middle := by
    intro c hc
    by_cases hb : c ∈ before
    · exact h.grows c hb
    · exact h.done c (by simp [hc, hb])
  have hbelow : ∀ j, j ∈ middle → j ∈ before ∨ ∃ c, g.IsOperand c i ∧
      ReflTransGen g.IsOperand j c := by
    intro j hj
    rcases h.below j hj with hj | ⟨c, hc, hle⟩
    · exact .inl hj
    · exact .inr ⟨c, ⟨hi, by simp at hc; exact hc.1⟩, hle⟩
  -- the visits to the operands do not finish the node itself
  have hi' : i ∉ middle := fun hj =>
    (hbelow i hj).elim hn fun ⟨_, hc, hle⟩ => hg.not_below_operand hc hle
  refine ⟨h.known.insert, fun j hj => ?_, by simp, fun j hj => ?_, ?_, fun fuel rest => ?_⟩
  · rw [Std.HashMap.mem_insert]
    exact .inr (h.grows j hj)
  · rw [Std.HashMap.mem_insert, beq_iff_eq] at hj
    rcases hj with rfl | hj
    · exact .inr ⟨i, by simp, .refl⟩
    · exact (hbelow j hj).imp id fun ⟨_, hc, hle⟩ => ⟨i, by simp, hle.tail hc⟩
  · have hb := budget_insert (s := (tree i).shape) hi hi'
    -- the node pays for both of its own steps and for one visit to each operand
    have hw : g.weight i = 2 + g.nodes[i].children.length := by
      simp [weight, Array.getElem?_eq_getElem hi]
    have hf : (g.nodes[i].children.filter fun c => !before.contains c).length ≤
        g.nodes[i].children.length := List.length_filter_le _ _
    have hcost := h.cost
    rw [List.length_reverse] at hcost
    simp only [List.length_cons, List.length_nil]
    omega
  · have hv := walk_visit hi hn hc (fuel + 1 + steps) rest
    rw [h.walk_eq, walk_finish ht h.known (t := .finish i) hi hi' (.inl rfl) hmem] at hv
    rw [show fuel + (1 + steps + 1) = fuel + 1 + steps + 1 by omega]
    exact hv

/-- Every node of a graph without cycles can be visited. -/
theorem exists_visit (hg : g.Acyclic) (ht : g.Unfolds tree) : ∀ i, i < g.size →
    ∀ before, Known tree before → ∃ after steps, g.Visit tree [i] before after steps := by
  refine hg.induction fun i hi ih before hk => ?_
  by_cases hb : i ∈ before
  · exact ⟨before, 1, hk, fun _ => id, by simpa, fun j hj => .inl hj, by simp,
      fun fuel rest => walk_of_mem (t := .visit i) hb fuel rest⟩
  -- a node without operands is finished at its first visit
  by_cases hc : g.nodes[i].children = []
  · refine ⟨before.insert i (tree i).shape, 1, hk.insert, fun j hj => ?_, by simp,
      fun j hj => ?_, ?_, fun fuel rest => ?_⟩
    · rw [Std.HashMap.mem_insert]
      exact .inr hj
    · rw [Std.HashMap.mem_insert, beq_iff_eq] at hj
      rcases hj with rfl | hj
      · exact .inr ⟨i, by simp, .refl⟩
      · exact .inl hj
    · have := budget_insert (s := (tree i).shape) hi hb
      simp only [List.length_cons, List.length_nil]
      omega
    · exact walk_finish ht hk (t := .visit i) hi hb (.inr hc) (by simp [Task.position, hc]) fuel
        rest
  · obtain ⟨middle, steps, h⟩ :=
      exists_visits (g.nodes[i].children.filter fun c => !before.contains c).reverse hk
        fun c hmem => ih c (by simp at hmem; exact hmem.1)
    exact ⟨_, _, h.finish hg ht hi hb hc⟩

/-! ### The whole walk -/

theorem walkFuel_eq (g : Graph) : g.walkFuel = 1 + g.budget ∅ := by
  have hfold : ∀ (ns : List (Node ℕ)) (n : ℕ),
      ns.foldl (fun total n => total + 2 + n.children.length) n =
        n + (ns.map fun n => 2 + n.children.length).sum := by
    intro ns
    induction ns with
    | nil => intro n; rfl
    | cons m ns ih => intro n; simp [ih]; omega
  have hsum : g.budget ∅ = (g.nodes.toList.map fun n => 2 + n.children.length).sum := by
    rw [← Fin.sum_univ_fun_getElem, budget, Finset.sum_range]
    refine Fintype.sum_congr _ _ fun i => ?_
    simp [weight]
  rw [walkFuel, ← Array.foldl_toList, hfold, hsum, Nat.zero_add]

/-- The walk from a node comes to an end within its fuel, and knows the shape of the node then. -/
theorem exists_walk (hg : g.Acyclic) (ht : g.Unfolds tree) {root : ℕ} (hr : root < g.size) :
    ∃ shapes : Shapes, (∀ fuel, g.walkFuel ≤ fuel → g.walk fuel [.visit root] ∅ = some shapes) ∧
      Known tree shapes ∧ root ∈ shapes := by
  obtain ⟨after, steps, h⟩ := exists_visit hg ht root hr ∅ (by intro i s hi; simp at hi)
  refine ⟨after, fun fuel hfuel => ?_, h.known, h.done root (by simp)⟩
  have hle : steps ≤ fuel := by
    have := h.cost
    rw [walkFuel_eq] at hfuel
    simp only [List.length_cons, List.length_nil] at this
    omega
  have hwalk := h.walk_eq (fuel - steps) []
  rw [Nat.sub_add_cancel hle] at hwalk
  simp only [List.map_cons, List.map_nil, List.cons_append, List.nil_append] at hwalk
  rw [hwalk, walk]

theorem shape?_of_unfolds (hg : g.Acyclic) (ht : g.Unfolds tree) {root : ℕ} (hr : root < g.size) :
    g.shape? root = some (tree root).shape := by
  obtain ⟨shapes, hwalk, hknown, hmem⟩ := exists_walk hg ht hr
  rw [shape?, hwalk _ le_rfl]
  exact hknown.getElem? hmem

/-- **The walk over an ordered graph finds the shape of the tree.** -/
theorem shape?_eq (hg : g.Ordered) {root : ℕ} (hr : root < g.size) :
    g.shape? root = some (g.expand root).shape :=
  shape?_of_unfolds hg.acyclic hg.unfolds hr

end Graph

/-- The shape of a formula is that of its tree. -/
theorem Formula.shape?_eq {f : Formula} (hf : f.WellFormed) : f.shape? = some f.expr.shape :=
  Graph.shape?_eq hf.ordered hf.root_lt

/-! ### Plain recursion -/

namespace Expr

/-- The number of levels of an expression. -/
def depth : Expr → ℕ := fold fun n => 1 + n.children.foldr max 0

/-- The number of nodes of an expression. -/
def nodeCount : Expr → ℕ := fold fun n => 1 + n.children.sum

theorem depth_mk (n : Node Expr) : (mk n).depth = 1 + (n.children.map depth).foldr max 0 := by
  rw [depth, fold_mk, Node.children_map]

theorem nodeCount_mk (n : Node Expr) : (mk n).nodeCount = 1 + (n.children.map nodeCount).sum := by
  rw [nodeCount, fold_mk, Node.children_map]

theorem shape_eq (e : Expr) : e.shape = ⟨e.depth, e.nodeCount⟩ := by
  induction e using node_induction with
  | h n ih =>
    have hmap : n.map shape = n.map fun c => (⟨c.depth, c.nodeCount⟩ : Shape) := Node.map_congr ih
    have hmax : ∀ xs : List ℕ, xs.foldl Nat.max 0 = xs.foldr max 0 :=
      fun _ => List.foldl_eq_foldr ..
    have hsum : ∀ xs : List ℕ, xs.foldl Nat.add 0 = xs.sum := fun _ => List.sum_eq_foldl.symm
    rw [shape_mk, hmap, Shape.ofNode, depth_mk, nodeCount_mk, hmax, hsum, Node.children_map,
      List.map_map, List.map_map]
    rfl

end Expr

namespace Graph

/-- **The walk over a graph without cycles computes the shape of the tree that a node unfolds to.**
With at least `walkFuel` steps it comes to its end, whatever is left of them; since there is no
result where a shape is needed before it is known, this never happens.  Then the shapes it knows,
that of the node among them, are the depths and the numbers of nodes of the trees. -/
theorem walk_unfolds (g : Graph) (hg : g.Acyclic) (root : ℕ) (hr : root < g.size) :
    ∃ tree, g.Unfolds tree ∧ (∀ tree', g.Unfolds tree' → ∀ i < g.size, tree' i = tree i) ∧
      ∃ shapes : Shapes,
        (∀ fuel, g.walkFuel ≤ fuel → g.walk fuel [.visit root] ∅ = some shapes) ∧
        (∀ i (s : Shape), shapes[i]? = some s → s = ⟨(tree i).depth, (tree i).nodeCount⟩) ∧
        shapes[root]? = some ⟨(tree root).depth, (tree root).nodeCount⟩ ∧
        g.shape? root = some ⟨(tree root).depth, (tree root).nodeCount⟩ := by
  obtain ⟨tree, ht⟩ := hg.exists_unfolds
  obtain ⟨shapes, hwalk, hknown, hmem⟩ := exists_walk hg ht hr
  simp only [← Expr.shape_eq]
  exact ⟨tree, ht, fun tree' ht' => ht'.unique hg ht, shapes, hwalk, hknown, hknown.getElem? hmem,
    shape?_of_unfolds hg ht hr⟩

/-- A call doubled twice, each node in front of its operand. -/
theorem walk_unfolds_doubled :
    let g : Graph := ⟨#[.binary "+" 1 1, .binary "*" 2 2, .call "macd" []]⟩
    g.Acyclic ∧ 0 < g.size ∧ g.shape? 0 = some ⟨3, 7⟩ := by
  intro g
  have hg : g.Acyclic := acyclic_of_rank (fun i => 3 - i) (by decide)
  have hr : 0 < g.size := by decide
  obtain ⟨tree, ht, -, shapes, -, -, -, hshape⟩ := walk_unfolds g hg 0 hr
  have hcall : tree 2 = .mk (.call "macd" []) := ht 2 (by decide)
  have hproduct : tree 1 = .mk (.binary "*" (tree 2) (tree 2)) := ht 1 (by decide)
  have hsum : tree 0 = .mk (.binary "+" (tree 1) (tree 1)) := ht 0 (by decide)
  refine ⟨hg, hr, ?_⟩
  rw [hshape, hsum, hproduct, hcall]
  rfl

end Graph

end BarScript
