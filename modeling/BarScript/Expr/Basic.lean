/-!
# Expressions

A `Node β` is one node of an expression whose operands are of type `β`, and an `Expr` is a tree of
such nodes.  The operators of a node are kept as texts, since a tree may come from a document that
holds any text there; what an operator means is decided when the node is evaluated.  Texts are
strings unless said otherwise; those of a tree from a document may hold surrogates
(`Expr CodePoints`).

Whatever is computed bottom-up from a tree is a `fold` over its nodes.  The same step function then
also serves for a graph of shared nodes (`BarScript.Graph`).  `Expr.fold_mk` is the one equation of
`fold`, and `Expr.node_induction` the induction that goes with it.
-/

namespace BarScript

/-- One node of an expression with operands in `β` and texts in `τ`. -/
inductive Node (β : Type) (τ : Type := String) where
  | number (value : Float)
  | text (value : τ)
  /-- A variable. -/
  | name (symbol : τ)
  | call (function : τ) (arguments : List β)
  /-- The operand as it was some bars ago. -/
  | history (operand : β) (bars : Int)
  | unary (operator : τ) (operand : β)
  | binary (operator : τ) (left right : β)
  | comparison (operator : τ) (left right : β)
  | logical (operator : τ) (operands : List β)
  | negation (operand : β)
  deriving Repr

namespace Node

variable {β γ τ σ : Type}

/-- The operands, left to right. -/
def children : Node β τ → List β
  | .number _ => []
  | .text _ => []
  | .name _ => []
  | .call _ arguments => arguments
  | .history operand _ => [operand]
  | .unary _ operand => [operand]
  | .binary _ left right => [left, right]
  | .comparison _ left right => [left, right]
  | .logical _ operands => operands
  | .negation operand => [operand]

/-- The node with a function applied to each operand. -/
def map (f : β → γ) : Node β τ → Node γ τ
  | .number value => .number value
  | .text value => .text value
  | .name symbol => .name symbol
  | .call function arguments => .call function (arguments.map f)
  | .history operand bars => .history (f operand) bars
  | .unary operator operand => .unary operator (f operand)
  | .binary operator left right => .binary operator (f left) (f right)
  | .comparison operator left right => .comparison operator (f left) (f right)
  | .logical operator operands => .logical operator (operands.map f)
  | .negation operand => .negation (f operand)

/-- The node with its operands computed one after another, left to right. -/
def mapM {m : Type → Type} [Monad m] (f : β → m γ) : Node β τ → m (Node γ τ)
  | .number value => pure (.number value)
  | .text value => pure (.text value)
  | .name symbol => pure (.name symbol)
  | .call function arguments => return .call function (← arguments.mapM f)
  | .history operand bars => return .history (← f operand) bars
  | .unary operator operand => return .unary operator (← f operand)
  | .binary operator left right => do
    let left ← f left
    let right ← f right
    return .binary operator left right
  | .comparison operator left right => do
    let left ← f left
    let right ← f right
    return .comparison operator left right
  | .logical operator operands => return .logical operator (← operands.mapM f)
  | .negation operand => return .negation (← f operand)

/-- The node with a function applied to each text. -/
def mapTexts (f : τ → σ) : Node β τ → Node β σ
  | .number value => .number value
  | .text value => .text (f value)
  | .name symbol => .name (f symbol)
  | .call function arguments => .call (f function) arguments
  | .history operand bars => .history operand bars
  | .unary operator operand => .unary (f operator) operand
  | .binary operator left right => .binary (f operator) left right
  | .comparison operator left right => .comparison (f operator) left right
  | .logical operator operands => .logical (f operator) operands
  | .negation operand => .negation operand

@[simp] theorem children_map (f : β → γ) (n : Node β τ) :
    (n.map f).children = n.children.map f := by
  cases n <;> rfl

theorem map_congr {f g : β → γ} {n : Node β τ} (h : ∀ c ∈ n.children, f c = g c) :
    n.map f = n.map g := by
  cases n <;> simp_all [map, children]

@[simp] theorem map_id (n : Node β τ) : n.map (fun c => c) = n := by cases n <;> simp [map]

@[simp] theorem map_map {δ : Type} (f : γ → δ) (g : β → γ) (n : Node β τ) :
    (n.map g).map f = n.map fun c => f (g c) := by
  cases n <;> simp [map, Function.comp_def]

@[simp] theorem children_mapTexts (f : τ → σ) (n : Node β τ) :
    (n.mapTexts f).children = n.children := by
  cases n <;> rfl

theorem mapTexts_map (f : τ → σ) (g : β → γ) (n : Node β τ) :
    (n.map g).mapTexts f = (n.mapTexts f).map g := by
  cases n <;> rfl

end Node

/-- An expression with texts in `τ`. -/
inductive Expr (τ : Type := String) where
  | mk (node : Node (Expr τ) τ)

instance : Inhabited Expr := ⟨.mk (.number 0)⟩

namespace Expr

variable {α τ σ : Type}

/-- The node at the top. -/
def node : Expr τ → Node (Expr τ) τ
  | mk n => n

mutual

/-- Computes a result bottom-up, `step` giving that of a node from those of its operands. -/
def fold (step : Node α τ → α) : Expr τ → α
  | mk (.number value) => step (.number value)
  | mk (.text value) => step (.text value)
  | mk (.name symbol) => step (.name symbol)
  | mk (.call function arguments) => step (.call function (foldList step arguments))
  | mk (.history operand bars) => step (.history (fold step operand) bars)
  | mk (.unary operator operand) => step (.unary operator (fold step operand))
  | mk (.binary operator left right) => step (.binary operator (fold step left) (fold step right))
  | mk (.comparison operator left right) =>
    step (.comparison operator (fold step left) (fold step right))
  | mk (.logical operator operands) => step (.logical operator (foldList step operands))
  | mk (.negation operand) => step (.negation (fold step operand))

/-- The results of several expressions. -/
def foldList (step : Node α τ → α) : List (Expr τ) → List α
  | [] => []
  | e :: rest => fold step e :: foldList step rest

end

@[simp] theorem foldList_eq_map (step : Node α τ → α) (es : List (Expr τ)) :
    foldList step es = es.map (fold step) := by
  induction es with
  | nil => rfl
  | cons e es ih => simp [foldList, ih]

/-- **The equation of a fold.** -/
theorem fold_mk (step : Node α τ → α) (n : Node (Expr τ) τ) :
    (mk n).fold step = step (n.map (fold step)) := by
  cases n <;> simp [fold, Node.map]

/-- **Induction over the nodes of an expression.** -/
theorem node_induction {P : Expr τ → Prop}
    (h : ∀ n : Node (Expr τ) τ, (∀ c ∈ n.children, P c) → P (mk n)) (e : Expr τ) : P e := by
  refine @Expr.rec τ P (fun n => ∀ c ∈ n.children, P c) (fun es => ∀ c ∈ es, P c) h
    ?_ ?_ ?_ ?_ ?_ ?_ ?_ ?_ ?_ ?_ ?_ ?_ e <;>
    clear h <;> intros <;> simp_all [Node.children]
  all_goals rename_i h; rcases h with rfl | h <;> simp_all

/-- The expression with a function applied to every text. -/
def mapTexts (f : τ → σ) (e : Expr τ) : Expr σ := e.fold fun n => mk (n.mapTexts f)

theorem mapTexts_mk (f : τ → σ) (n : Node (Expr τ) τ) :
    (mk n).mapTexts f = mk ((n.map (mapTexts f)).mapTexts f) := fold_mk _ n

mutual

/-- Whether two expressions are the same, numbers being compared as numbers. -/
def alike : Expr → Expr → Bool
  | mk (.number x), mk (.number y) => x == y
  | mk (.text s), mk (.text t) => s == t
  | mk (.name s), mk (.name t) => s == t
  | mk (.call f as), mk (.call g bs) => f == g && alikeList as bs
  | mk (.history a i), mk (.history b j) => alike a b && i == j
  | mk (.unary o a), mk (.unary p b) => o == p && alike a b
  | mk (.binary o a b), mk (.binary p c d) => o == p && alike a c && alike b d
  | mk (.comparison o a b), mk (.comparison p c d) => o == p && alike a c && alike b d
  | mk (.logical o as), mk (.logical p bs) => o == p && alikeList as bs
  | mk (.negation a), mk (.negation b) => alike a b
  | _, _ => false

/-- Whether two lists of expressions are the same. -/
def alikeList : List Expr → List Expr → Bool
  | [], [] => true
  | a :: as, b :: bs => alike a b && alikeList as bs
  | _, _ => false

end

end Expr

end BarScript
