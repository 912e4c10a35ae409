import BarScript.Expr.Shape
import Std.Data.HashMap

/-!
# Expressions with shared parts

A `Graph` is a list of nodes whose operands are the positions of earlier nodes
(`Graph.Ordered`).  A node that is the operand of several others stands for one expression used in
several places, as happens when a script uses a local name more than once; `Graph.expand` gives the
tree that such a graph unfolds to.

The tree can be far larger than the graph, so its shape is found by a walk over the graph that
remembers the shape of every node it has finished (`Graph.shape?`).
-/

namespace BarScript

/-- A list of nodes, the operands of each being positions of earlier ones. -/
structure Graph where
  nodes : Array (Node Nat)
  deriving Inhabited

namespace Graph

/-- The number of nodes. -/
abbrev size (g : Graph) : Nat := g.nodes.size

/-- The graph without nodes. -/
def empty : Graph := ⟨#[]⟩

/-- The graph with one more node at the end. -/
def push (g : Graph) (n : Node Nat) : Graph := ⟨g.nodes.push n⟩

/-- Every operand is the position of an earlier node. -/
def Ordered (g : Graph) : Prop :=
  ∀ i (h : i < g.nodes.size), ∀ c ∈ g.nodes[i].children, c < i

/-- Computes a result for every node, `step` giving that of a node from its position and the results
of its operands. -/
def fold {α : Type} [Inhabited α] (step : Nat → Node α → α) (g : Graph) : Array α :=
  g.nodes.foldl (fun done n => done.push (step done.size (n.map fun c => done.getD c default))) #[]

/-- The tree that the node at a position unfolds to. -/
def expand (g : Graph) (root : Nat) : Expr :=
  (g.fold fun _ n => Expr.mk n).getD root default

/-! ### From trees to graphs -/

/-- Adds the nodes of an expression, operands first, and gives the position of its top.  A name for
which `locals` has a position stands for the node there and adds none. -/
def graft (locals : String → Option Nat) (e : Expr) : StateM Graph Nat :=
  e.fold step
where
  /-- Adds one node after its operands. -/
  step (n : Node (StateM Graph Nat)) : StateM Graph Nat :=
    match n with
    | .name symbol =>
      match locals symbol with
      | some position => pure position
      | none => add (.name symbol)
    | n => do add (← n.mapM fun c => c)
  /-- Adds a node at the end. -/
  add (n : Node Nat) : StateM Graph Nat := fun g => (g.size, g.push n)

/-! ### The shape of what a node unfolds to -/

/-- What the walk still has to do: look at a node for the first time, or compute its shape once its
operands are finished. -/
inductive Task where
  | visit (position : Nat)
  | finish (position : Nat)
  deriving Repr, DecidableEq

/-- The node a task is about. -/
def Task.position : Task → Nat
  | visit position => position
  | finish position => position

/-- The shapes of the nodes that are finished. -/
abbrev Shapes := Std.HashMap Nat Shape

/-- Works through a stack of tasks.  A node that is finished is skipped; a node with operands is put
back to be finished after those of its operands that are not.  There is no result if a shape is
needed before it is known, or if the tasks outlast the `fuel`. -/
def walk (g : Graph) : Nat → List Task → Shapes → Option Shapes
  | _, [], shapes => some shapes
  | 0, _ :: _, _ => none
  | fuel + 1, task :: rest, shapes =>
    if shapes.contains task.position then walk g fuel rest shapes
    else do
      let n ← g.nodes[task.position]?
      match task, n.children with
      | .visit position, c :: cs =>
        let unfinished := (c :: cs).filter fun c => !shapes.contains c
        walk g fuel (unfinished.foldl (fun stack c => .visit c :: stack) (.finish position :: rest))
          shapes
      | _, _ =>
        let known ← n.mapM fun c => shapes[c]?
        walk g fuel rest (shapes.insert task.position (Shape.ofNode known))

/-- Enough steps for a walk from one node: each node is put on the stack once for each of its uses
and once more to be finished. -/
def walkFuel (g : Graph) : Nat :=
  1 + g.nodes.foldl (fun total n => total + 2 + n.children.length) 0

/-- The shape of the tree that the node at a position unfolds to. -/
def shape? (g : Graph) (root : Nat) : Option Shape := do
  let shapes ← g.walk g.walkFuel [.visit root] ∅
  shapes[root]?

end Graph

/-! ### Formulas -/

/-- An expression whose parts may be shared: a graph and the position of the top. -/
structure Formula where
  graph : Graph
  root : Nat
  deriving Inhabited

namespace Formula

/-- The expression as a tree. -/
def expr (f : Formula) : Expr := f.graph.expand f.root

/-- An expression with nothing shared. -/
def ofExpr (e : Expr) : Formula :=
  let (root, graph) := Graph.graft (fun _ => none) e Graph.empty
  ⟨graph, root⟩

/-- The shape of the tree. -/
def shape? (f : Formula) : Option Shape := f.graph.shape? f.root

end Formula

end BarScript
