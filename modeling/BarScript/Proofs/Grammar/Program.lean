import BarScript.Proofs.Expr.Every
import BarScript.Proofs.Grammar.Script

/-!
# What the formulas of a script consist of

What derives from the grammar has operators that mean something, and numbers of bars that are not
negative (`Derives.scripted`).  Replacing names keeps this, so it holds of the trees of a script.

`Program.parse_formula` : the result of a script that is read, and what its names stand for at the
end, are such trees, within the limits of size.
-/

namespace BarScript

namespace Node

/-- The operator of a node means something. -/
def Operates : Node Unit → Prop
  | .unary operator _ => operator ∈ ["+", "-"]
  | .binary operator _ _ => operator ∈ ["+", "-", "*", "/"]
  | .comparison operator _ _ => operator ∈ Statement.comparisons
  | .logical operator _ => operator = "AND" ∨ operator = "OR"
  | _ => True

/-- A node that can stand in a script. -/
def Scripted (n : Node Unit) : Prop := n.LooksBack ∧ n.Operates

end Node

namespace Grammar

open Statement Program

/-! ### Expressions -/

theorem mem_of_isOperator {t : Token} {operators : List String}
    (h : t.isOperator operators = true) : t.text ∈ operators := by
  simp only [Token.isOperator, Bool.and_eq_true, List.contains_eq_mem, decide_eq_true_eq] at h
  exact h.2

section Trees

variable {p : Node Unit → Prop} {first e : Expr} {more : List (Token × Expr)}

theorem every_logicalTree {name : String} (hname : ∀ es, p (.logical name es))
    (hfirst : first.Every p) (hmore : ∀ r ∈ more, r.2.Every p) :
    (logicalTree name first more).Every p := by
  rw [logicalTree]
  split
  · exact hfirst
  · refine Expr.every_mk.2 ⟨hname _, List.forall_mem_cons.2 ⟨hfirst, ?_⟩⟩
    exact List.forall_mem_map.2 hmore

theorem every_binaryTree (hfirst : first.Every p)
    (hmore : ∀ r ∈ more, p (.binary r.1.text () ()) ∧ r.2.Every p) :
    (binaryTree first more).Every p := by
  induction more generalizing first with
  | nil => exact hfirst
  | cons r more ih =>
    obtain ⟨⟨hop, hr⟩, hmore⟩ := List.forall_mem_cons.1 hmore
    exact ih (Expr.every_mk.2 ⟨hop, by simp [Node.children, hfirst, hr]⟩) hmore

/-- What holds of the nodes of the operands, and of every node that joins them, holds of the nodes
of a chain. -/
theorem every_tree {c : Chain} (hlogical : ∀ name, name = "AND" ∨ name = "OR" → ∀ es,
      p (.logical name es))
    (hbinary : ∀ t, Chain.sum.isOperator t = true ∨ Chain.product.isOperator t = true →
      p (.binary t.text () ()))
    (hfirst : first.Every p) (hmore : ∀ r ∈ more, c.isOperator r.1 = true ∧ r.2.Every p) :
    (c.tree first more).Every p := by
  cases c with
  | or => exact every_logicalTree (hlogical "OR" (.inr rfl)) hfirst fun r hr => (hmore r hr).2
  | and => exact every_logicalTree (hlogical "AND" (.inl rfl)) hfirst fun r hr => (hmore r hr).2
  | sum => exact every_binaryTree hfirst fun r hr => (hmore r hr).imp_left (hbinary r.1 ∘ .inl)
  | product => exact every_binaryTree hfirst fun r hr => (hmore r hr).imp_left (hbinary r.1 ∘ .inr)

theorem every_histories (hp : ∀ bars : Int, 0 ≤ bars → p (.history () bars)) (he : e.Every p)
    {ts : List Token} {offsets : List Int} (h : Brackets ts offsets) :
    (offsets.foldl (fun e bars => .mk (.history e bars)) e).Every p := by
  induction h generalizing e with
  | nil => exact he
  | cons _ _ _ _ _ _ ih =>
    exact ih (Expr.every_mk.2 ⟨hp _ (Int.natCast_nonneg _), by simpa [Node.children] using he⟩)

end Trees

theorem mem_of_isOperator_binary {t : Token}
    (h : Chain.sum.isOperator t = true ∨ Chain.product.isOperator t = true) :
    t.text ∈ ["+", "-", "*", "/"] := by
  rcases h with h | h
  · obtain ⟨-, h | h⟩ := Chain.isOperator_iff.1 h <;> simp [h]
  · obtain ⟨-, h | h⟩ := Chain.isOperator_iff.1 h <;> simp [h]

mutual

/-- **What derives from the grammar can stand in a script.** -/
theorem Derives.scripted {d : ℕ∞} {s : Symbol} {ts : List Token} {e : Expr} :
    Derives d s ts e → e.Every Node.Scripted
  | .chain hfirst hmore => every_tree (fun _ hname _ => ⟨trivial, hname⟩)
      (fun _ ht => ⟨trivial, mem_of_isOperator_binary ht⟩) hfirst.scripted hmore.scripted
  | .negation _ h =>
    Expr.every_mk.2 ⟨⟨trivial, trivial⟩, by simpa [Node.children] using h.scripted⟩
  | .positive h => h.scripted
  | .comparison hleft ht hright =>
    Expr.every_mk.2 ⟨⟨trivial, mem_of_isOperator ht⟩,
      by simp [Node.children, hleft.scripted, hright.scripted]⟩
  | .uncompared h => h.scripted
  | .sign ht h =>
    Expr.every_mk.2 ⟨⟨trivial, mem_of_isOperator ht⟩, by simpa [Node.children] using h.scripted⟩
  | .unsigned h => h.scripted
  | .indexed h hb => every_histories (fun _ hbars => ⟨hbars, trivial⟩) h.scripted hb
  | .number _ => Expr.every_mk.2 ⟨⟨trivial, trivial⟩, by simp [Node.children]⟩
  | .text _ => Expr.every_mk.2 ⟨⟨trivial, trivial⟩, by simp [Node.children]⟩
  | .name _ => Expr.every_mk.2 ⟨⟨trivial, trivial⟩, by simp [Node.children]⟩
  | .call _ _ _ => Expr.every_mk.2 ⟨⟨trivial, trivial⟩, by simp [Node.children]⟩
  | .callWith _ _ h _ => Expr.every_mk.2 ⟨⟨trivial, trivial⟩, h.scripted⟩
  | .group _ h _ => h.scripted

theorem More.scripted {d : ℕ∞} {c : Chain} {ts : List Token} {more : List (Token × Expr)} :
    More d c ts more → ∀ r ∈ more, c.isOperator r.1 = true ∧ r.2.Every Node.Scripted
  | .nil => by simp
  | .cons ht h hmore => List.forall_mem_cons.2 ⟨⟨ht, h.scripted⟩, hmore.scripted⟩

theorem Arguments.scripted {d : ℕ∞} {ts : List Token} {es : List Expr} :
    Arguments d ts es → ∀ e ∈ es, e.Every Node.Scripted
  | .one h => by simpa using h.scripted
  | .cons h _ hrest => List.forall_mem_cons.2 ⟨h.scripted, hrest.scripted⟩

end

/-! ### Scripts -/

theorem DerivesStatement.scripted {d : ℕ∞} {ts : List Token} {w : Written}
    (h : DerivesStatement d ts w) : w.expr.Every Node.Scripted := by
  cases h with
  | assign _ _ h => exact h.scripted
  | plain h => exact h.scripted

theorem DerivesStatements.scripted {d : ℕ∞} {ts : List Token} {ws : List Written}
    (h : DerivesStatements d ts ws) : ∀ w ∈ ws, w.expr.Every Node.Scripted := by
  induction h with
  | one h => simpa using h.scripted
  | cons h _ _ _ ih => exact List.forall_mem_cons.2 ⟨h.scripted, ih⟩

theorem assigned_eq_some {env : Bindings} {symbol : Option String} {e e' : Expr} {s : String}
    (h : assigned env symbol e s = some e') : e' = e ∨ env s = some e' := by
  cases symbol with
  | none => exact .inr h
  | some s' =>
    simp only [assigned] at h
    split at h
    · exact .inl (Option.some.inj h).symm
    · exact .inr h

/-- Replacing names by trees that can stand in a script keeps statements that can. -/
theorem every_trees {env : Bindings} {ws : List Written}
    (hws : ∀ w ∈ ws, w.expr.Every Node.Scripted)
    (henv : ∀ s e, env s = some e → e.Every Node.Scripted) :
    ∀ e ∈ trees env ws, e.Every Node.Scripted := by
  induction ws generalizing env with
  | nil => simp [trees]
  | cons w ws ih =>
    obtain ⟨hw, hws⟩ := List.forall_mem_cons.1 hws
    have htree := Expr.every_subst hw henv
    refine List.forall_mem_cons.2 ⟨htree, ih hws fun s e h => ?_⟩
    rcases assigned_eq_some h with rfl | h
    · exact htree
    · exact henv s e h

/-- What a name stands for at the end is one of the trees, if it did not stand for it before. -/
theorem mem_trees_of_bindings {env : Bindings} {ws : List Written} {s : String} {e : Expr}
    (h : bindings env ws s = some e) : e ∈ trees env ws ∨ env s = some e := by
  induction ws generalizing env with
  | nil => exact .inr h
  | cons w ws ih =>
    rcases ih h with hmem | h
    · exact .inl (List.mem_cons_of_mem _ hmem)
    · rcases assigned_eq_some h with rfl | h
      · exact .inl List.mem_cons_self
      · exact .inr h

end Grammar

open Grammar in
/-- **The formulas of a script that is read** are trees of nodes that can stand in a script, within
the limits. -/
theorem Program.parse_formula {source : String} {p : Program} (h : parse source = .ok p)
    {f : Formula} (hf : f = p.formula p.result ∨ ∃ symbol, p.local? symbol = some f) :
    f.WellFormed ∧ f.expr.Every Node.Scripted ∧ f.expr.shape.Within := by
  obtain ⟨ts, -, h⟩ := bind_eq_ok_iff.1 h
  obtain ⟨q, hq, h⟩ := bind_eq_ok_iff.1 h
  rw [mapError_eq_ok_iff] at hq
  rcases statements_sound le_top (Nat.lt_succ_self _) reads_empty hq with
    ⟨-, rfl⟩ | ⟨ws, ⟨before, body, after, -, -, -, hbody⟩, hread, hwithin⟩
  · cases h
  · have hscripted : ∀ e ∈ trees (fun _ => none) ws, e.Every Node.Scripted :=
      every_trees hbody.scripted (by simp)
    -- the formula is a node that unfolds to one of the trees
    suffices hi : ∃ i, f = ⟨q.graph, i⟩ ∧ i < q.graph.size ∧
        q.graph.expand i ∈ trees (fun _ => none) ws by
      obtain ⟨i, rfl, hlt, hmem⟩ := hi
      exact ⟨⟨hread.ordered, hlt⟩, hscripted _ hmem, hwithin _ hmem⟩
    cases hresult : q.result with
    | none => rw [hresult] at h; cases h
    | some i =>
      rw [hresult] at h
      cases h
      rcases hf with rfl | ⟨symbol, hf⟩
      · have heq := hread.result_eq
        rw [hresult, Option.map_some] at heq
        exact ⟨i, rfl, hread.result_lt i hresult, List.mem_of_getLast? heq.symm⟩
      · obtain ⟨j, hj, rfl⟩ := Option.map_eq_some_iff.1 hf
        have heq := hread.locals_eq symbol
        rw [hj, Option.map_some] at heq
        rcases mem_trees_of_bindings heq.symm with hmem | h
        · exact ⟨j, rfl, hread.locals_lt symbol j hj, hmem⟩
        · cases h

end BarScript
