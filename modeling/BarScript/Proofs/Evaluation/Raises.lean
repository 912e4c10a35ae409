import BarScript.Proofs.Evaluation.Containment

/-!
# What an evaluation raises

The errors of a node are those of its operands where it looks at them, and a few of its own: an
operator or a function that fails (`EvalError.Operational`), a name that means nothing, and the
close of a bar ahead of the last one.  A family of sets of errors that is closed in this way
(`Raisable`) holds every error that an evaluation raises, whatever is remembered when it starts
(`Raisable.of_evaluate`).
-/

namespace BarScript

/-- An error of an operator or a function. -/
def EvalError.Operational : EvalError → Prop
  | argument _ | cannotCompare _ _ | notDefined _ _ | unknownOperator _ _ => True
  | fault f => f ≠ .divisionByZero
  | unknown _ | noSuchBar | tooDeep => False

theorem EvalError.Contained.operational {e : EvalError} (h : e.Contained) : e.Operational := by
  cases e with
  | argument | cannotCompare | notDefined | unknownOperator => trivial
  | fault f => exact h
  | unknown | noSuchBar | tooDeep => exact h.elim

/-- Such an error is reported as the result of a run. -/
theorem EvalError.Operational.reported {e : EvalError} (h : e.Operational) :
    e.reported = true := by
  cases e with
  | fault f => cases f <;> first | rfl | exact absurd rfl h
  | noSuchBar => exact h.elim
  | _ => rfl

/-! ### Operators -/

theorem operational_of_toNumber {what : String} {v : Value} {e : EvalError}
    (h : v.toNumber what = .error e) : e.Operational :=
  ((contained_toNumber what v).of_error h).operational

theorem operational_of_unaryValue {operator : String} {v : Value} {e : EvalError}
    (h : unaryValue operator v = .error e) : e.Operational := by
  rcases bind_eq_error_iff.1 h with h | ⟨x, -, h⟩
  · exact operational_of_toNumber h
  · cases x with
    | none => cases h
    | some x =>
      rcases bind_eq_error_iff.1 h with h | ⟨y, -, h⟩
      · unfold unaryResult at h
        split at h
        · cases h
        · split at h <;> cases h
          trivial
      · cases h

theorem operational_of_binaryValue {operator : String} {v w : Value} {e : EvalError}
    (h : binaryValue operator v w = .error e) : e.Operational := by
  rcases bind_eq_error_iff.1 h with h | ⟨xy, -, h⟩
  · rcases bind_eq_error_iff.1 h with h | ⟨x, -, h⟩
    · exact operational_of_toNumber h
    · rcases bind_eq_error_iff.1 h with h | ⟨y, -, h⟩
      · exact operational_of_toNumber h
      · cases x <;> cases y <;> cases h
  · cases xy with
    | none => cases h
    | some xy =>
      rcases bind_eq_error_iff.1 h with h | ⟨z, -, h⟩
      · unfold binaryResult at h
        simp only [quotient_eq_ok, ofFault] at h
        repeat' split at h
        all_goals cases h
        trivial
      · cases h

theorem operational_of_compareNumbers {operator : String} {tolerance x y : Float} {e : EvalError}
    (h : compareNumbers tolerance operator x y = .error e) : e.Operational := by
  unfold compareNumbers at h
  repeat' split at h
  all_goals cases h
  trivial

theorem operational_of_compareValues {operator : String} {tolerance : Float} {v w : Value}
    {e : EvalError} (h : compareValues tolerance operator v w = .error e) : e.Operational := by
  unfold compareValues at h
  split at h
  · exact ((contained_compareSame operator _ _ _).of_error h).operational
  · exact ((contained_compareSame operator _ _ _).of_error h).operational
  iterate 8 · cases h <;> trivial
  · rcases bind_eq_error_iff.1 h with h | ⟨x, -, h⟩
    · exact operational_of_toNumber h
    · rcases bind_eq_error_iff.1 h with h | ⟨y, -, h⟩
      · exact operational_of_toNumber h
      · cases x with
        | none => cases h
        | some x =>
          cases y with
          | none => cases h
          | some y => exact operational_of_compareNumbers h

/-! ### Bars ahead of the last one -/

namespace Market

theorem closeAt_eq_error {m : Market} {bars : Int} {e : EvalError} (h : m.closeAt bars = .error e) :
    e = .noSuchBar ∧ bars < 0 := by
  by_cases hb : 0 ≤ bars
  · obtain ⟨x, hx⟩ := m.exists_closeAt hb
    rw [hx] at h
    cases h
  · refine ⟨?_, by omega⟩
    have hlength : m.series.length = m.series.closes.length := rfl
    unfold closeAt at h
    rw [if_neg (by omega), if_neg (by omega), List.getElem?_eq_none (by omega)] at h
    cases h
    rfl

theorem changeAt_eq_error {m : Market} {bars : Int} {e : EvalError}
    (h : m.changeAt bars = .error e) : e = .noSuchBar ∧ bars < 0 := by
  unfold changeAt at h
  split at h
  · cases h
  · rcases bind_eq_error_iff.1 h with h | ⟨now, -, h⟩
    · exact closeAt_eq_error h
    · rcases bind_eq_error_iff.1 h with h | ⟨before, -, h⟩
      · obtain ⟨he, hb⟩ := closeAt_eq_error h
        exact ⟨he, by omega⟩
      · -- the quotient itself never fails
        simp only [relativeChange_eq] at h
        split at h <;> cases h

end Market

/-! ### Evaluation -/

/-- From any memory, the first evaluation gives a result with a property or fails with such an
error; the second one does not matter. -/
def Raises (E : EvalError → Prop) {α : Type} (x _ : Recall α) (P : α → Prop) : Prop :=
  ∀ memo, (∀ a, (x.runOn memo).1 = .ok a → P a) ∧ ∀ e, (x.runOn memo).1 = .error e → E e

theorem Raises.mono {E E' : EvalError → Prop} {α : Type} {x y : Recall α} {P : α → Prop}
    (h : Raises E x y P) (hE : ∀ e, E e → E' e) : Raises E' x y P :=
  fun memo => ⟨(h memo).1, fun e he => hE e ((h memo).2 e he)⟩

theorem raises_correspondence (E : EvalError → Prop) : Correspondence (Raises E) E where
  pure a ha _ := ⟨fun b hb => Except.ok.inj hb ▸ ha, nofun⟩
  throw e he _ := ⟨nofun, fun e' he' => Except.error.inj he' ▸ he⟩
  bind := by
    intro α β x y f g P Q hx hf memo
    rw [Recall.runOn_bind]
    obtain ⟨hok, herror⟩ := hx memo
    rcases hxm : x.runOn memo with ⟨e | a, memo'⟩
    · rw [hxm] at herror
      exact ⟨nofun, fun e' he' => herror e' (Except.error.inj he' ▸ rfl)⟩
    · rw [hxm] at hok
      exact hf a (hok a rfl) memo'

/-- Looked at from bars with `D`, evaluations raise such errors only, if these include that of a
quote ahead of the last bar where a variable is read there. -/
theorem raises_alignment {E : EvalError → Prop} {D : Int → Prop}
    (hE : ∀ e, e.Operational → E e) (market : Market) (hD : ∀ bars, D bars → D (bars + 1)) :
    Alignment (Raises E) E (fun _ => True)
      (fun v => v = .close ∨ v = .change ∨ v = .changePercent →
        ∀ bars, D bars → bars < 0 → E .noSuchBar)
      D 0 market market (Access.recall market) (Access.recall market) where
  toCorrespondence := raises_correspondence E
  tolerance := rfl
  plain _ _ := trivial
  argument _ := hE _ trivial
  succ := hD
  read v b hv hb := by
    rw [Int.add_zero]
    refine (raises_correspondence E).read (fun _ _ => trivial) rfl (fun h => ⟨rfl, fun e he => ?_⟩)
      (fun h => ⟨rfl, fun e he => ?_⟩) fun l _ memo => ⟨fun _ _ => trivial, fun e he => ?_⟩
    · obtain ⟨rfl, hneg⟩ := Market.closeAt_eq_error he
      exact hv (.inl h) b hb hneg
    · obtain ⟨rfl, hneg⟩ := Market.changeAt_eq_error he
      exact hv (.inr h) b hb hneg
    · obtain ⟨s, memo', hs, -⟩ := exists_recallSeries market b memo
      have he : ((recallSeries market b).runOn memo).1 = .error e := he
      rw [hs] at he
      cases he
  call f arguments b _ _ := by
    rw [Int.add_zero]
    refine fun memo => ⟨fun _ _ => trivial, fun e he => ?_⟩
    exact hE e ((contains_call market f arguments b (pure .undefined) memo).of_error he).operational

/-- A node that is remembered raises what it raises itself: a value that is remembered is no
error. -/
theorem Raises.recallValue {E : EvalError → Prop} {i : Nat} {meaning : Meaning Recall} {bars : Int}
    (h : Raises E (meaning bars) (meaning bars) fun _ => True) :
    Raises E (recallValue i meaning bars) (recallValue i meaning bars) fun _ => True := by
  refine fun memo => ⟨fun _ _ => trivial, fun e he => ?_⟩
  cases hv : memo.values[(i, bars)]? with
  | some v =>
    rw [recallValue_of_some hv] at he
    cases he
  | none =>
    rw [recallValue_of_none hv] at he
    rcases hrun : (meaning bars).runOn memo with ⟨e' | v, memo'⟩
    · rw [hrun] at he
      exact (h memo).2 e (by rw [hrun]; exact he)
    · rw [hrun] at he
      cases he

/-! ### Expressions -/

/-- Sets of errors, one for each expression and number of bars, with the errors that its top node
has of its own and those of its operands where it looks at them. -/
structure Raisable (E : Expr → Int → EvalError → Prop) : Prop where
  operational : ∀ e bars error, error.Operational → E e bars error
  identifier : ∀ symbol, Variable.ofName? symbol = none →
    ∀ bars, E (.mk (.name symbol)) bars (.unknown ⟨.identifier, symbol⟩)
  function : ∀ name arguments, Function.ofName? name = none →
    ∀ bars, E (.mk (.call name arguments)) bars (.unknown ⟨.function, name⟩)
  quote : ∀ symbol ∈ Node.quoteNames, ∀ bars, bars < 0 → E (.mk (.name symbol)) bars .noSuchBar
  history : ∀ c n bars error, E c (bars + n) error → E (.mk (.history c n)) bars error
  /-- A node other than a history looks at its operands at its own bars or further back. -/
  operand : ∀ n : Node Expr, (∀ c m, n ≠ .history c m) → ∀ c ∈ n.children,
    ∀ bars bars', bars ≤ bars' → ∀ error, E c bars' error → E (.mk n) bars error

theorem Node.map_ne_history {β γ : Type} {n : Node β} (hn : ∀ c m, n ≠ .history c m) {f : β → γ} :
    ∀ c m, n.map f ≠ .history c m := by
  intro c m h
  cases n <;> cases h
  exact hn _ m rfl

namespace Raisable

variable {E : Expr → Int → EvalError → Prop}

theorem admissible (h : Raisable E) {n : Node Nat} (hn : ∀ c m, n ≠ .history c m)
    (f : Nat → Expr) (bars : Int) :
    n.Admissible (E (.mk (n.map f)) bars)
      (fun v => v = .close ∨ v = .change ∨ v = .changePercent →
        ∀ b, bars ≤ b → b < 0 → E (.mk (n.map f)) bars .noSuchBar) (bars ≤ ·) := by
  have hoperational := h.operational (.mk (n.map f)) bars
  cases n with
  | name symbol =>
    simp only [Node.Admissible]
    cases hv : Variable.ofName? symbol with
    | none => exact h.identifier symbol hv bars
    | some v =>
      intro hreads b hle hneg
      by_contra hno
      obtain ⟨hclose, hchange, hpercent⟩ := Variable.not_quote_of_ofName?
        (fun hmem => hno (h.quote symbol hmem bars (by omega))) hv
      rcases hreads with rfl | rfl | rfl <;> contradiction
  | call name arguments => exact fun hf => h.function name _ hf bars
  | history c m => exact absurd rfl (hn c m)
  | unary operator c => exact fun v e he => hoperational e (operational_of_unaryValue he)
  | binary operator c d => exact fun v w e he => hoperational e (operational_of_binaryValue he)
  | comparison operator c d =>
    exact fun tolerance v w e he => hoperational e (operational_of_compareValues he)
  | logical operator cs => exact fun _ _ => hoperational _ trivial
  | _ => trivial

/-- **An evaluation raises errors of such a family only.** -/
theorem raises_meaning (h : Raisable E) (market : Market) {g : Graph} (hg : g.Ordered) :
    ∀ i, i < g.size → ∀ bars, Raises (E (g.expand i) bars) (g.meaning market i bars)
      (g.meaning market i bars) fun _ => True := by
  refine hg.induction fun i hi ih bars => ?_
  have hnode : Raises (E (g.expand i) bars)
      ((g.nodes[i].map (g.meaning market)).eval market (Access.recall market) bars)
      ((g.nodes[i].map (g.meaning market)).eval market (Access.recall market) bars)
      fun _ => True := by
    rw [Graph.expand_eq hg hi]
    by_cases hn : ∃ c n, g.nodes[i] = .history c n
    · obtain ⟨c, n, hn⟩ := hn
      have hraises := (ih c (by rw [hn]; simp [Node.children]) (bars + n)).mono
        (h.history (g.expand c) n bars)
      rwa [hn]
    · have hn : ∀ c n, g.nodes[i] ≠ .history c n := fun c n heq => hn ⟨c, n, heq⟩
      have hoperational := h.operational (.mk (g.nodes[i].map g.expand)) bars
      have hnode := (raises_alignment hoperational market fun b hb => by omega).eval
        (f := g.meaning market) (g := g.meaning market) (h.admissible hn g.expand bars)
        (fun c hc b hb => by
          rw [Int.add_zero]
          refine (ih c hc b).mono fun e he => ?_
          have hmem : g.expand c ∈ (g.nodes[i].map g.expand).children :=
            Node.children_map g.expand _ ▸ List.mem_map_of_mem hc
          exact h.operand _ (Node.map_ne_history hn) _ hmem bars b hb e he)
        (Int.le_refl bars)
      rwa [Int.add_zero] at hnode
  rw [Graph.meaning_eq market hg hi]
  exact hnode.recallValue

/-- **What evaluating a formula raises, in any session**, is in the set of its tree. -/
theorem of_evaluate (h : Raisable E) {f : Formula} (hf : f.WellFormed) {s : Session} {e : EvalError}
    (he : (s.evaluate f).1 = .error e) : E f.expr 0 e := by
  rw [Session.evaluate_eq, Formula.recall_eq] at he
  exact (h.raises_meaning s.market hf.ordered f.root hf.root_lt 0 _).2 e (map_eq_error_iff.1 he)

end Raisable

end BarScript
