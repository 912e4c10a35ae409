import BarScript.Proofs.Graph.Fold
import Mathlib.Data.Fintype.EquivFin
import Mathlib.Logic.Relation
import Mathlib.Order.WellFounded

/-!
# Graphs without cycles

A graph in which no node is below itself (`Graph.Acyclic`) unfolds to trees whatever the order of
its nodes: there is one way to give every node a tree that has the trees of the operands as children
(`Acyclic.exists_unfolds`, `Unfolds.unique`).  An ordered graph is the case in which every operand
stands in front of its node (`Ordered.acyclic`, `Ordered.unfolds`).

Proofs go by `Acyclic.induction`: what holds of a node if it holds of its operands holds of every
node.
-/

namespace BarScript

namespace Graph

open Relation

/-- The node at `c` is an operand of the node at `i`. -/
def IsOperand (g : Graph) (c i : ℕ) : Prop := ∃ h : i < g.size, c ∈ g.nodes[i].children

/-- Every operand is a node, and no node is below itself. -/
structure Acyclic (g : Graph) : Prop where
  closed : ∀ i (h : i < g.size), ∀ c ∈ g.nodes[i].children, c < g.size
  irrefl : ∀ i, ¬ TransGen g.IsOperand i i

/-- Each node has a tree with the trees of its operands as children. -/
def Unfolds (g : Graph) (tree : ℕ → Expr) : Prop :=
  ∀ i (h : i < g.size), tree i = .mk (g.nodes[i].map tree)

variable {g : Graph}

/-- A graph has no cycles if a rank of its nodes goes down to every operand. -/
theorem acyclic_of_rank (rank : ℕ → ℕ)
    (h : ∀ i (hi : i < g.size), ∀ c ∈ g.nodes[i].children, c < g.size ∧ rank c < rank i) :
    g.Acyclic := by
  have hlt : ∀ {c i : ℕ}, TransGen g.IsOperand c i → rank c < rank i := by
    intro c i hci
    induction hci with
    | single hc =>
      obtain ⟨hi, hmem⟩ := hc
      exact (h _ hi _ hmem).2
    | tail _ hc ih =>
      obtain ⟨hi, hmem⟩ := hc
      exact ih.trans (h _ hi _ hmem).2
  exact ⟨fun i hi c hc => (h i hi c hc).1, fun i hi => lt_irrefl _ (hlt hi)⟩

theorem Ordered.acyclic (hg : g.Ordered) : g.Acyclic :=
  acyclic_of_rank id fun i hi c hc => ⟨(hg i hi c hc).trans hi, hg i hi c hc⟩

theorem Ordered.unfolds (hg : g.Ordered) : g.Unfolds g.expand := fun _ hi => expand_eq hg hi

namespace Acyclic

theorem wellFounded (hg : g.Acyclic) :
    WellFounded fun a b : Fin g.size => TransGen g.IsOperand a b := by
  have : IsTrans (Fin g.size) fun a b => TransGen g.IsOperand a b := ⟨fun _ _ _ => TransGen.trans⟩
  have : Std.Irrefl fun a b : Fin g.size => TransGen g.IsOperand a b := ⟨fun i => hg.irrefl i⟩
  exact Finite.wellFounded_of_trans_of_irrefl _

/-- **Induction over the nodes of a graph without cycles.** -/
theorem induction (hg : g.Acyclic) {P : ℕ → Prop}
    (h : ∀ i (hi : i < g.size), (∀ c ∈ g.nodes[i].children, P c) → P i) :
    ∀ i, i < g.size → P i := by
  intro i hi
  refine hg.wellFounded.induction (C := fun i : Fin g.size => P i) ⟨i, hi⟩ fun i ih => ?_
  exact h i i.2 fun c hc => ih ⟨c, hg.closed i i.2 c hc⟩ (.single ⟨i.2, hc⟩)

open Classical in
/-- **A graph without cycles unfolds to trees.** -/
theorem exists_unfolds (hg : g.Acyclic) : ∃ tree, g.Unfolds tree := by
  let step (i : Fin g.size) (below : ∀ c : Fin g.size, TransGen g.IsOperand c i → Expr) : Expr :=
    .mk (g.nodes[i].map fun c =>
      if h : ∃ hc : c < g.size, TransGen g.IsOperand c i then below ⟨c, h.1⟩ h.2 else default)
  let tree (i : ℕ) : Expr := if hi : i < g.size then hg.wellFounded.fix step ⟨i, hi⟩ else default
  refine ⟨tree, fun i hi => ?_⟩
  have htree : ∀ {i : ℕ} (hi : i < g.size), tree i = hg.wellFounded.fix step ⟨i, hi⟩ :=
    fun hi => dif_pos hi
  rw [htree hi, WellFounded.fix_eq]
  refine congrArg Expr.mk (Node.map_congr fun c hc => ?_)
  have hlt := hg.closed i hi c hc
  have hbelow : ∃ hc : c < g.size, TransGen g.IsOperand c i := ⟨hlt, .single ⟨hi, hc⟩⟩
  rw [dif_pos hbelow, htree hlt]

/-- A node is not below one of its operands. -/
theorem not_below_operand (hg : g.Acyclic) {c i : ℕ} (hc : g.IsOperand c i) :
    ¬ ReflTransGen g.IsOperand i c := fun h => hg.irrefl i (TransGen.tail' h hc)

end Acyclic

/-- **The trees of a graph without cycles are unique.** -/
theorem Unfolds.unique (hg : g.Acyclic) {tree tree' : ℕ → Expr} (h : g.Unfolds tree)
    (h' : g.Unfolds tree') : ∀ i, i < g.size → tree i = tree' i :=
  hg.induction fun i hi ih => by rw [h i hi, h' i hi, Node.map_congr ih]

/-- A fold over the tree of a node goes on with the trees of its operands. -/
theorem Unfolds.fold_eq {β : Type} {tree : ℕ → Expr} (h : g.Unfolds tree) (step : Node β → β)
    {i : ℕ} (hi : i < g.size) :
    (tree i).fold step = step (g.nodes[i].map fun c => (tree c).fold step) := by
  rw [h i hi, Expr.fold_mk, Node.map_map]

end Graph

end BarScript
