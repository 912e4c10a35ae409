import BarScript.Expr.Graph

/-!
# Folding over the nodes of a graph

`Graph.fold` computes a result for every node from left to right.  In an ordered graph the result
of a node is the step applied to the results of its operands (`Graph.value_eq`), whatever nodes
follow it (`Graph.Extends.value_eq`).  So the tree that a node unfolds to has the unfolded
operands as its children (`Graph.expand_eq`), and a fold over that tree has the same equation
(`Graph.fold_expand`).

Proofs about ordered graphs go by `Graph.Ordered.induction`: what holds of a node if it holds of
its operands holds of every node.  In any graph, what every step keeps holds of every result
(`Graph.forall_value`).
-/

namespace BarScript

namespace Graph

variable {α : Type} [Inhabited α]

/-- The result of a fold for the node at a position. -/
def value (step : Nat → Node α → α) (g : Graph) (i : Nat) : α := (g.fold step).getD i default

/-- One graph is another one with more nodes behind. -/
def Extends (g g' : Graph) : Prop := ∃ more : Array (Node Nat), g'.nodes = g.nodes ++ more

/-! ### One node after another -/

/-- What a fold does with one more node. -/
def foldStep (step : Nat → Node α → α) (done : Array α) (n : Node Nat) : Array α :=
  done.push (step done.size (n.map fun c => done.getD c default))

@[simp] theorem size_foldStep (step : Nat → Node α → α) (done : Array α) (n : Node Nat) :
    (foldStep step done n).size = done.size + 1 := Array.size_push _

theorem size_foldl_foldStep (step : Nat → Node α → α) (ns : List (Node Nat)) (done : Array α) :
    (ns.foldl (foldStep step) done).size = done.size + ns.length := by
  induction ns generalizing done with
  | nil => rfl
  | cons n ns ih => rw [List.foldl_cons, ih, size_foldStep, List.length_cons]; omega

/-- Later nodes leave the results of earlier ones alone. -/
theorem getD_foldl_foldStep {step : Nat → Node α → α} (ns : List (Node Nat)) {done : Array α}
    {i : Nat} (h : i < done.size) :
    (ns.foldl (foldStep step) done).getD i default = done.getD i default := by
  induction ns generalizing done with
  | nil => rfl
  | cons n ns ih =>
    rw [List.foldl_cons, ih (by rw [size_foldStep]; omega)]
    simp [foldStep, Array.getD_eq_getD_getElem?, Array.getElem?_push_lt h, h]

theorem getD_foldl_foldStep_length (step : Nat → Node α → α) {ns : List (Node Nat)}
    (done : Array α) {i : Nat} (h : i < ns.length)
    (hc : ∀ c ∈ ns[i].children, c < done.size + i) :
    (ns.foldl (foldStep step) done).getD (done.size + i) default =
      step (done.size + i) (ns[i].map fun c => (ns.foldl (foldStep step) done).getD c default) := by
  induction ns generalizing done i with
  | nil => exact absurd h (Nat.not_lt_zero _)
  | cons n ns ih =>
    rw [List.foldl_cons]
    cases i with
    | zero =>
      -- the node is the next one: its operands are done already
      rw [getD_foldl_foldStep ns (by rw [size_foldStep]; omega)]
      have hpush : (foldStep step done n).getD done.size default =
          step done.size (n.map fun c => done.getD c default) := by
        simp [foldStep, Array.getD_eq_getD_getElem?]
      simp only [Nat.add_zero, List.getElem_cons_zero] at hc ⊢
      rw [hpush]
      congr 1
      refine Node.map_congr fun c hmem => ?_
      have hlt := hc c hmem
      rw [getD_foldl_foldStep ns (by rw [size_foldStep]; omega)]
      simp [foldStep, Array.getD_eq_getD_getElem?, Array.getElem?_push_lt hlt, hlt]
    | succ i =>
      -- the node comes later: one more node is done
      have hi : i < ns.length := by simpa using h
      have := ih (foldStep step done n) hi fun c hmem => by
        have := hc c hmem
        rw [size_foldStep]
        omega
      rw [size_foldStep, Nat.add_assoc, Nat.add_comm 1 i] at this
      simpa using this

/-! ### The equation of a fold -/

theorem fold_eq_foldl (step : Nat → Node α → α) (g : Graph) :
    g.fold step = g.nodes.toList.foldl (foldStep step) #[] := by
  rw [fold, ← Array.foldl_toList]
  rfl

@[simp] theorem size_fold (step : Nat → Node α → α) (g : Graph) :
    (g.fold step).size = g.size := by
  rw [fold_eq_foldl, size_foldl_foldStep]
  simp [size]

/-- **The equation of a fold over an ordered graph.** -/
theorem value_eq {g : Graph} (step : Nat → Node α → α) (hg : g.Ordered) {i : Nat}
    (hi : i < g.size) : g.value step i = step i (g.nodes[i].map (g.value step)) := by
  have hl : i < g.nodes.toList.length := by simpa [size] using hi
  have hc : ∀ c ∈ g.nodes.toList[i].children, c < (#[] : Array α).size + i := fun c h => by
    rw [Array.getElem_toList] at h
    simpa using hg i hi c h
  have := getD_foldl_foldStep_length step #[] hl hc
  rw [← fold_eq_foldl] at this
  simp only [Array.size_empty, Nat.zero_add, Array.getElem_toList] at this
  exact this

/-- What every step keeps holds of every result, also where operands are no earlier nodes. -/
theorem forall_value {step : Nat → Node α → α} {P : α → Prop} (hdefault : P default)
    (hstep : ∀ position (n : Node Nat) (f : Nat → α), (∀ c, P (f c)) → P (step position (n.map f)))
    (g : Graph) (i : Nat) : P (g.value step i) := by
  have hfoldl : ∀ (ns : List (Node Nat)) (done : Array α), (∀ c, P (done.getD c default)) →
      ∀ c, P ((ns.foldl (foldStep step) done).getD c default) := by
    intro ns
    induction ns with
    | nil => exact fun done h => h
    | cons n ns ih =>
      refine fun done h => ih _ fun c => ?_
      rw [foldStep, Array.getD_eq_getD_getElem?, Array.getElem?_push]
      split
      · exact hstep _ n _ h
      · rw [← Array.getD_eq_getD_getElem?]
        exact h c
  rw [value, fold_eq_foldl]
  exact hfoldl _ _ (fun c => by simpa using hdefault) i

/-- **Induction over the nodes of an ordered graph.** -/
theorem Ordered.induction {g : Graph} (hg : g.Ordered) {P : Nat → Prop}
    (h : ∀ i (hi : i < g.size), (∀ c ∈ g.nodes[i].children, P c) → P i) :
    ∀ i, i < g.size → P i := by
  intro i
  induction i using Nat.strongRecOn with
  | ind i ih =>
    intro hi
    refine h i hi fun c hc => ?_
    have hlt := hg i hi c hc
    exact ih c hlt (Nat.lt_trans hlt hi)

/-! ### Longer graphs -/

theorem Extends.refl (g : Graph) : g.Extends g := ⟨#[], by simp⟩

theorem Extends.trans {g₁ g₂ g₃ : Graph} (h : g₁.Extends g₂) (h' : g₂.Extends g₃) :
    g₁.Extends g₃ := by
  obtain ⟨a, ha⟩ := h
  obtain ⟨b, hb⟩ := h'
  exact ⟨a ++ b, by rw [hb, ha, Array.append_assoc]⟩

theorem Extends.push (g : Graph) (n : Node Nat) : g.Extends (g.push n) :=
  ⟨#[n], by simp [Graph.push]⟩

theorem Extends.size_le {g g' : Graph} (h : g.Extends g') : g.size ≤ g'.size := by
  obtain ⟨more, h⟩ := h
  simp [size, h]

theorem Extends.value_eq {g g' : Graph} (h : g.Extends g') (step : Nat → Node α → α) {i : Nat}
    (hi : i < g.size) : g'.value step i = g.value step i := by
  obtain ⟨more, h⟩ := h
  rw [value, value, fold_eq_foldl, fold_eq_foldl, h, Array.toList_append, List.foldl_append]
  refine getD_foldl_foldStep _ ?_
  rwa [← fold_eq_foldl, size_fold]

theorem getElem_push_lt {g : Graph} {n : Node Nat} {i : Nat} (hi : i < g.size)
    (hpush : i < (g.push n).size) : (g.push n).nodes[i] = g.nodes[i] := by
  simp only [Graph.push]
  exact Array.getElem_push_lt hi

@[simp] theorem size_push (g : Graph) (n : Node Nat) : (g.push n).size = g.size + 1 :=
  Array.size_push _

@[simp] theorem getElem_push_size (g : Graph) (n : Node Nat) (h : g.size < (g.push n).size) :
    (g.push n).nodes[g.size] = n := by
  simp [Graph.push, size]

theorem ordered_empty : Graph.empty.Ordered := by
  intro i hi
  simp [Graph.empty] at hi

theorem Ordered.push {g : Graph} (hg : g.Ordered) {n : Node Nat}
    (hn : ∀ c ∈ n.children, c < g.size) : (g.push n).Ordered := by
  intro i hi c hc
  by_cases h : i < g.size
  · rw [getElem_push_lt h hi] at hc
    exact hg i h c hc
  · have heq : i = g.size := by
      have : i < g.size + 1 := by rw [← size_push g n]; exact hi
      omega
    subst heq
    rw [getElem_push_size g n hi] at hc
    exact hn c hc

/-! ### The tree of a node -/

/-- The tree of a node has the trees of its operands as children. -/
theorem expand_eq {g : Graph} (hg : g.Ordered) {i : Nat} (hi : i < g.size) :
    g.expand i = .mk (g.nodes[i].map g.expand) :=
  value_eq _ hg hi

theorem Extends.expand_eq {g g' : Graph} (h : g.Extends g') {i : Nat} (hi : i < g.size) :
    g'.expand i = g.expand i :=
  h.value_eq _ hi

/-- A fold over the tree of a node goes on with the trees of its operands. -/
theorem fold_expand {β : Type} {g : Graph} (step : Node β → β) (hg : g.Ordered) {i : Nat}
    (hi : i < g.size) :
    (g.expand i).fold step = step (g.nodes[i].map fun c => (g.expand c).fold step) := by
  rw [expand_eq hg hi, Expr.fold_mk, Node.map_map]

theorem expand_push_size {g : Graph} (hg : g.Ordered) {n : Node Nat}
    (hn : ∀ c ∈ n.children, c < g.size) :
    (g.push n).expand g.size = .mk (n.map g.expand) := by
  rw [expand_eq (hg.push hn) (by simp), getElem_push_size]
  exact congrArg _ (Node.map_congr fun c hc => (Extends.push g n).expand_eq (hn c hc))

end Graph

/-- The operands of all nodes are earlier nodes, and the top is a node. -/
structure Formula.WellFormed (f : Formula) : Prop where
  ordered : f.graph.Ordered
  root_lt : f.root < f.graph.size

end BarScript
