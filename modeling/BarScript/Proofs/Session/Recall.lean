import BarScript.Proofs.Except
import BarScript.Proofs.Graph.Shape
import BarScript.Session

/-!
# Evaluations that start with a memory

An evaluation that remembers is run from a memory (`Recall.runOn`).  The accesses to the memory are
the history some bars ago (`recallSeries_runOn`), a call that is remembered (`recallCall_of_some`)
or not (`recallCall_of_none`), and the value of a node (`recallValue_of_some`,
`recallValue_of_none`).

What a node of an ordered graph means is its own meaning, remembered, over what its operands mean
(`Graph.meaning_eq`).
-/

namespace BarScript

namespace Recall

variable {α β : Type}

/-- The result of an evaluation that starts with a memory, and the memory afterwards. -/
def runOn (x : Recall α) (memo : Memo) : Except EvalError α × Memo := x.run.run memo

@[simp] theorem runOn_pure (a : α) (memo : Memo) :
    (pure a : Recall α).runOn memo = (.ok a, memo) := rfl

@[simp] theorem runOn_get (memo : Memo) : (get : Recall Memo).runOn memo = (.ok memo, memo) := rfl

@[simp] theorem runOn_modify (f : Memo → Memo) (memo : Memo) :
    (modify f : Recall PUnit).runOn memo = (.ok ⟨⟩, f memo) := rfl

@[simp] theorem runOn_liftError (r : Except EvalError α) (memo : Memo) :
    (liftError r : Recall α).runOn memo = (r, memo) := by
  cases r <;> rfl

/-- An evaluation in two parts: the second one starts with the memory after the first. -/
theorem runOn_bind (x : Recall α) (f : α → Recall β) (memo : Memo) :
    (x >>= f).runOn memo = match x.runOn memo with
      | (.ok a, memo) => (f a).runOn memo
      | (.error e, memo) => (.error e, memo) := by
  change (match x memo with
    | (r, memo) => (ExceptT.bindCont f r) memo) = _
  rcases h : x memo with ⟨r, memo'⟩
  have h : x.runOn memo = (r, memo') := h
  rw [h]
  cases r <;> rfl

end Recall

open Recall

/-! ### Access to the memory -/

/-- The histories that are remembered are those of the market. -/
def Memo.Histories (market : Market) (memo : Memo) : Prop :=
  ∀ bars s, memo.shifted[bars]? = some s → s = market.series.shifted bars

theorem recallSeries_runOn {market : Market} {memo : Memo} (h : memo.Histories market)
    (bars : Int) :
    ∃ shifted, ({ memo with shifted } : Memo).Histories market ∧
      (recallSeries market bars).runOn memo =
        (.ok (market.series.shifted bars), { memo with shifted }) := by
  unfold recallSeries
  split
  · rename_i hb
    exact ⟨memo.shifted, h, by rw [runOn_pure, Series.shifted, if_pos hb]⟩
  · cases hs : memo.shifted[bars]? with
    | some s =>
      refine ⟨memo.shifted, h, ?_⟩
      simp only [runOn_bind, runOn_get, hs, runOn_pure, h bars s hs]
    | none =>
      -- the history is added
      refine ⟨memo.shifted.insert bars (market.series.shifted bars), ?_, ?_⟩
      · intro b s hget
        simp only [Std.HashMap.getElem?_insert, beq_iff_eq] at hget
        split at hget
        · rename_i heq
          subst heq
          exact (Option.some.inj hget).symm
        · exact h b s hget
      · simp only [runOn_bind, runOn_get, hs, runOn_modify, runOn_pure]

theorem recallCall_of_some {market : Market} {memo : Memo} {f : Builtin} {arguments : List Value}
    {bars : Int} {r : Option Float}
    (h : memo.call? ⟨f, arguments.map Value.key, bars⟩ = some r) :
    (recallCall market f arguments bars).runOn memo = (.ok (.ofOption r), memo) := by
  simp only [recallCall, runOn_bind, runOn_get, h, runOn_pure]

theorem recallCall_of_none {market : Market} {memo : Memo} (hs : memo.Histories market)
    {f : Builtin} {arguments : List Value} {bars : Int}
    (h : memo.call? ⟨f, arguments.map Value.key, bars⟩ = none) :
    ∃ shifted, ({ memo with shifted } : Memo).Histories market ∧
      (recallCall market f arguments bars).runOn memo =
        match f.apply arguments (market.series.shifted bars) with
        | .ok r => (.ok (.ofOption r),
          { memo with shifted, calls := ⟨⟨f, arguments.map Value.key, bars⟩, r⟩ :: memo.calls })
        | .error e => (.error e, { memo with shifted }) := by
  obtain ⟨shifted, hs, hrun⟩ := recallSeries_runOn hs bars
  refine ⟨shifted, hs, ?_⟩
  simp only [recallCall, runOn_bind, runOn_get, h, hrun, runOn_liftError]
  cases f.apply arguments (market.series.shifted bars) with
  | ok r => simp only [runOn_modify, runOn_pure]
  | error e => rfl

theorem recallValue_of_some {memo : Memo} {i : Nat} {meaning : Meaning Recall} {bars : Int}
    {v : Value} (h : memo.values[(i, bars)]? = some v) :
    (recallValue i meaning bars).runOn memo = (.ok v, memo) := by
  simp only [recallValue, runOn_bind, runOn_get, h, runOn_pure]

theorem recallValue_of_none {memo : Memo} {i : Nat} {meaning : Meaning Recall} {bars : Int}
    (h : memo.values[(i, bars)]? = none) :
    (recallValue i meaning bars).runOn memo = match (meaning bars).runOn memo with
      | (.ok v, memo) => (.ok v, { memo with values := memo.values.insert (i, bars) v })
      | (.error e, memo) => (.error e, memo) := by
  simp only [recallValue, runOn_bind, runOn_get, h]
  rcases (meaning bars).runOn memo with ⟨_ | _, _⟩ <;> simp only [runOn_modify, runOn_pure]

/-! ### Nodes of a graph -/

/-- What the node at a position means. -/
def Graph.meaning (market : Market) (g : Graph) (i : Nat) : Meaning Recall :=
  (g.meanings market).getD i default

theorem Graph.meaning_eq (market : Market) {g : Graph} (hg : g.Ordered) {i : Nat}
    (hi : i < g.size) : g.meaning market i =
      recallValue i ((g.nodes[i].map (g.meaning market)).eval market (Access.recall market)) :=
  Graph.value_eq (fun position n => recallValue position (n.eval market (Access.recall market)))
    hg hi

theorem Formula.recall_eq (market : Market) (f : Formula) :
    f.recall market = f.graph.meaning market f.root 0 := rfl

/-- The outcome of evaluating a formula. -/
theorem Session.evaluate_eq (f : Formula) (s : Session) :
    s.evaluate f = (((f.recall s.market).runOn s.forget.memo).1.map Value.collapse,
      ({ s with memo := ((f.recall s.market).runOn s.forget.memo).2 } : Session).forget) := rfl

end BarScript
