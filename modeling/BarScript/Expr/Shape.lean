import BarScript.Expr.Basic

/-!
# The shape of an expression

The shape of an expression is its depth and its number of nodes (`Expr.shape`).  An expression whose
shape exceeds `Shape.maxDepth` or `Shape.maxSize` is refused, the depth being looked at first
(`Shape.excess?`).
-/

namespace BarScript

/-- The depth of a tree and the number of its nodes. -/
structure Shape where
  depth : Nat
  size : Nat
  deriving Repr, DecidableEq, Inhabited

namespace Shape

/-- The shape of a node over operands of given shapes: a node without operands has depth and size
one. -/
def ofNode {τ : Type} (n : Node Shape τ) : Shape where
  depth := 1 + (n.children.map depth).foldl Nat.max 0
  size := 1 + (n.children.map size).foldl Nat.add 0

theorem le_foldl_max {ds : List Nat} {d init : Nat} (h : d ≤ init ∨ d ∈ ds) :
    d ≤ ds.foldl Nat.max init := by
  induction ds generalizing init with
  | nil => exact h.resolve_right List.not_mem_nil
  | cons a as ih =>
    refine ih ?_
    rcases h with h | h
    · exact .inl (Nat.le_trans h (Nat.le_max_left init a))
    · rcases List.mem_cons.1 h with rfl | h
      · exact .inl (Nat.le_max_right init d)
      · exact .inr h

/-- The greatest depth of an expression. -/
def maxDepth : Nat := 100

/-- The greatest number of nodes of an expression. -/
def maxSize : Nat := 10000

/-- Why a shape is refused. -/
inductive Excess where
  | depth (levels : Nat)
  | size (nodes : Nat)
  deriving Repr, DecidableEq

/-- The wording of an excess. -/
def Excess.message : Excess → String
  | .depth levels => s!"Expression is nested too deeply ({levels} levels, max {maxDepth})"
  | .size nodes => s!"Expression is too large ({nodes} nodes, max {maxSize})"

/-- Whether a shape is within the limits. -/
def Within (s : Shape) : Prop := s.depth ≤ maxDepth ∧ s.size ≤ maxSize

instance (s : Shape) : Decidable s.Within := inferInstanceAs (Decidable (_ ∧ _))

/-- The excess of a shape over the limits, if there is one. -/
def excess? (s : Shape) : Option Excess :=
  if maxDepth < s.depth then some (.depth s.depth)
  else if maxSize < s.size then some (.size s.size)
  else none

theorem excess?_eq_none_iff {s : Shape} : s.excess? = none ↔ s.Within := by
  unfold excess? Within
  split
  · simp; omega
  · split <;> simp <;> omega

end Shape

variable {τ : Type}

/-- The shape of an expression. -/
def Expr.shape (e : Expr τ) : Shape := e.fold Shape.ofNode

theorem Expr.shape_mk (n : Node (Expr τ) τ) : (mk n).shape = Shape.ofNode (n.map shape) :=
  fold_mk _ n

/-- An operand has less levels than the expression. -/
theorem Expr.depth_lt {n : Node (Expr τ) τ} {c : Expr τ} (h : c ∈ n.children) :
    c.shape.depth < (mk n).shape.depth := by
  have hmem : c.shape.depth ∈ (n.map shape).children.map Shape.depth := by
    rw [Node.children_map]
    exact List.mem_map_of_mem (List.mem_map_of_mem h)
  rw [shape_mk, Shape.ofNode, Nat.add_comm]
  exact Nat.lt_succ_of_le (Shape.le_foldl_max (.inr hmem))

end BarScript
