import BarScript.Builtin
import BarScript.Proofs.Graph.Graft

/-!
# What holds of every node

`Expr.Every p e` says that `p` holds of every node of the expression `e`, whatever its operands are.
The equation for one node is `Expr.every_mk`; `Graph.every_expand` is the same for a node of an
ordered graph, and `Expr.every_subst` says what replacing names does.

Two properties of nodes are given here: looking back and never forward (`Node.LooksBack`), and
naming no variable that the latest quote is read for (`Node.Unquoted`).
-/

namespace BarScript

variable {τ : Type}

namespace Node

/-- The node without its operands. -/
def bare {β : Type} (n : Node β τ) : Node Unit τ := n.map fun _ => ()

@[simp] theorem bare_map {β γ : Type} (f : β → γ) (n : Node β τ) : (n.map f).bare = n.bare := by
  simp [bare]

/-- A number of bars to look back is not negative. -/
def LooksBack : Node Unit → Prop
  | .history _ bars => 0 ≤ bars
  | _ => True

/-- The names of the variables that read the latest quote. -/
def quoteNames : List String := ["close", "price", "change", "change_percent"]

/-- A name is none of a variable that reads the latest quote. -/
def Unquoted : Node Unit → Prop
  | .name symbol => symbol ∉ quoteNames
  | _ => True

end Node

/-- A property holds of every node of an expression. -/
def Expr.Every (p : Node Unit τ → Prop) : Expr τ → Prop :=
  Expr.fold fun n => p n.bare ∧ ∀ h ∈ n.children, h

namespace Expr

theorem every_mk {p : Node Unit τ → Prop} {n : Node (Expr τ) τ} :
    (mk n).Every p ↔ p n.bare ∧ ∀ c ∈ n.children, c.Every p := by
  rw [Every, fold_mk, Node.bare_map, Node.children_map, List.forall_mem_map]

variable {p q : Node Unit → Prop}

theorem Every.and {e : Expr} (h : e.Every p) (h' : e.Every q) : e.Every fun n => p n ∧ q n := by
  induction e using Expr.node_induction with
  | h n ih =>
    rw [every_mk] at h h' ⊢
    exact ⟨⟨h.1, h'.1⟩, fun c hc => ih c hc (h.2 c hc) (h'.2 c hc)⟩

/-- Names may be replaced by expressions of whose nodes the property holds. -/
theorem every_subst {locals : String → Option Expr} {e : Expr} (he : e.Every p)
    (hl : ∀ symbol e', locals symbol = some e' → e'.Every p) : (e.subst locals).Every p := by
  induction e using Expr.node_induction with
  | h n ih =>
    by_cases hn : ∃ symbol, n = .name symbol
    · obtain ⟨symbol, rfl⟩ := hn
      rw [subst_name]
      cases hs : locals symbol with
      | none => exact he
      | some e' => exact hl symbol e' hs
    · rw [every_mk] at he
      rw [subst_mk _ fun symbol heq => hn ⟨symbol, heq⟩, every_mk, Node.bare_map,
        Node.children_map]
      refine ⟨he.1, fun c hc => ?_⟩
      obtain ⟨d, hd, rfl⟩ := List.mem_map.1 hc
      exact ih d hd (he.2 d hd)

end Expr

theorem Graph.every_expand {p : Node Unit → Prop} {g : Graph} (hg : g.Ordered) {i : Nat}
    (hi : i < g.size) : (g.expand i).Every p ↔
      p g.nodes[i].bare ∧ ∀ c ∈ g.nodes[i].children, (g.expand c).Every p := by
  rw [expand_eq hg hi, Expr.every_mk]
  simp

/-- A name that is no quote name stands for no variable that reads the quote. -/
theorem Variable.not_quote_of_ofName? {symbol : String} {v : Variable}
    (hn : symbol ∉ Node.quoteNames) (h : ofName? symbol = some v) :
    v ≠ close ∧ v ≠ change ∧ v ≠ changePercent := by
  obtain ⟨⟨name, w⟩, hfind, rfl⟩ := Option.map_eq_some_iff.1 h
  have hmem := List.mem_of_find?_eq_some hfind
  have heq : name = symbol := by simpa using List.find?_some hfind
  have hall : ∀ p ∈ names, p.1 ∉ Node.quoteNames →
      p.2 ≠ close ∧ p.2 ≠ change ∧ p.2 ≠ changePercent := by decide
  exact hall _ hmem (heq ▸ hn)

end BarScript
