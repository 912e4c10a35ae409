import BarScript.Proofs.Evaluation.Correspondence
import BarScript.Proofs.Session.Recall
import BarScript.Rules

/-!
# A bounded stack

An evaluation on a stack with room for some levels (`Session.evaluateWithin`) is the evaluation
without a bound, unless it runs out of levels (`Session.evaluateWithin_cases`), and it does not run
out if the formula has no more levels (`Session.evaluateWithin_eq`).  So rules run alike on every
stack with room for their levels (`Rules.run_evaluateWithin`).
-/

namespace BarScript

open Recall

/-! ### Going alike -/

/-- With some levels left, an evaluation goes as the one without a bound, or it runs out of levels
if it can (`short`). -/
def GoesAlike (short : Prop) (levels : Nat) {α : Type} (x : BoundedRecall α) (y : Recall α)
    (P : α → Prop) : Prop :=
  ∀ memo, (short ∧ ((x.run levels).runOn memo).1 = .error .tooDeep ∨
    (x.run levels).runOn memo = y.runOn memo) ∧ ∀ a, (y.runOn memo).1 = .ok a → P a

variable {short : Prop} {levels : Nat}

theorem goesAlike_correspondence (short : Prop) (levels : Nat) :
    Correspondence (GoesAlike short levels) fun _ => True where
  pure a ha _ := ⟨.inr rfl, fun b hb => Except.ok.inj hb ▸ ha⟩
  throw _ _ _ := ⟨.inr rfl, nofun⟩
  bind := by
    intro α β x y f g P Q hx hf memo
    have hbind : (x >>= f).run levels = x.run levels >>= fun a => (f a).run levels := rfl
    rw [hbind, runOn_bind, runOn_bind]
    obtain ⟨hout | heq, hok⟩ := hx memo
    all_goals rcases hy : y.runOn memo with ⟨e | a, memo'⟩
    -- the first part runs out
    · rcases hrun : (x.run levels).runOn memo with ⟨r, memo''⟩
      rw [hrun] at hout
      obtain ⟨hshort, rfl⟩ := hout
      exact ⟨.inl ⟨hshort, rfl⟩, nofun⟩
    · rcases hrun : (x.run levels).runOn memo with ⟨r, memo''⟩
      rw [hrun] at hout
      obtain ⟨hshort, rfl⟩ := hout
      rw [hy] at hok
      exact ⟨.inl ⟨hshort, rfl⟩, (hf a (hok a rfl) memo').2⟩
    -- both go on, or fail, alike
    · rw [heq, hy]
      exact ⟨.inr rfl, nofun⟩
    · rw [heq, hy]
      rw [hy] at hok
      exact hf a (hok a rfl) memo'

/-- Reading and calling do not need a level. -/
theorem goesAlike_alignment (short : Prop) (levels : Nat) (market : Market) :
    Alignment (GoesAlike short levels) (fun _ => True) (fun _ => True) (fun _ => True)
      (fun _ => True) 0 market market (Access.boundedRecall market) (Access.recall market) where
  toCorrespondence := goesAlike_correspondence short levels
  tolerance := rfl
  plain _ _ := trivial
  argument _ := trivial
  succ _ _ := trivial
  read v bars _ _ := by
    rw [Int.add_zero]
    exact (goesAlike_correspondence short levels).read (fun _ _ => trivial) rfl
      (fun _ => ⟨rfl, fun _ _ => trivial⟩) (fun _ => ⟨rfl, fun _ _ => trivial⟩)
      fun _ _ _ => ⟨.inr rfl, fun _ _ => trivial⟩
  call f arguments bars _ _ := by
    rw [Int.add_zero]
    exact fun _ => ⟨.inr rfl, fun _ _ => trivial⟩

/-! ### Nodes -/

/-- The value of a node that goes alike one level down. -/
theorem GoesAlike.boundedValue {i : Nat} {x : Meaning BoundedRecall} {y : Meaning Recall}
    {bars : Int} (h : GoesAlike short levels (x bars) (y bars) fun _ => True) :
    GoesAlike short (levels + 1) (boundedValue i x bars) (recallValue i y bars) fun _ => True := by
  refine fun memo => ⟨?_, fun _ _ => trivial⟩
  change short ∧ ((recallValue i (fun bars => x bars levels) bars).runOn memo).1 = _ ∨
    (recallValue i (fun bars => x bars levels) bars).runOn memo = _
  cases hv : memo.values[(i, bars)]? with
  | some v => exact .inr (by rw [recallValue_of_some hv, recallValue_of_some hv])
  | none =>
    rw [recallValue_of_none hv, recallValue_of_none hv]
    obtain ⟨⟨hshort, hout⟩ | heq, -⟩ := h memo
    · rcases hrun : (x bars levels).runOn memo with ⟨r, memo'⟩
      have hout : ((x bars levels).runOn memo).1 = .error .tooDeep := hout
      rw [hrun] at hout
      cases hout
      exact .inl ⟨hshort, rfl⟩
    · have heq : (x bars levels).runOn memo = (y bars).runOn memo := heq
      exact .inr (by rw [heq])

/-- What the node at a position means on a bounded stack. -/
def Graph.boundedMeaning (market : Market) (g : Graph) (i : Nat) : Meaning BoundedRecall :=
  (g.boundedMeanings market).getD i default

theorem Graph.boundedMeaning_eq (market : Market) {g : Graph} (hg : g.Ordered) {i : Nat}
    (hi : i < g.size) : g.boundedMeaning market i =
      boundedValue i ((g.nodes[i].map (g.boundedMeaning market)).eval market
        (Access.boundedRecall market)) :=
  Graph.value_eq (fun position n =>
    boundedValue position (n.eval market (Access.boundedRecall market))) hg hi

/-- **A node goes alike on every stack**, and without running out if it has no more levels than
there is room for. -/
theorem Graph.goesAlike_meaning (market : Market) {g : Graph} (hg : g.Ordered) :
    ∀ i, i < g.size → ∀ levels bars, (¬ short → (g.expand i).shape.depth ≤ levels) →
      GoesAlike short levels (g.boundedMeaning market i bars) (g.meaning market i bars)
        fun _ => True := by
  refine hg.induction fun i hi ih levels bars hdepth => ?_
  rw [boundedMeaning_eq market hg hi, meaning_eq market hg hi]
  cases levels with
  | zero =>
    refine fun memo => ⟨.inl ⟨?_, rfl⟩, fun _ _ => trivial⟩
    by_contra hshort
    have := hdepth hshort
    rw [expand_eq hg hi, Expr.shape_mk] at this
    simp only [Shape.ofNode] at this
    omega
  | succ levels =>
    have hchildren : ∀ c ∈ g.nodes[i].children, ∀ b, True → GoesAlike short levels
        (g.boundedMeaning market c (b + 0)) (g.meaning market c b) fun _ => True := by
      intro c hc b _
      rw [Int.add_zero]
      refine ih c hc levels b fun hshort => ?_
      have hmem : g.expand c ∈ (g.nodes[i].map g.expand).children := by
        rw [Node.children_map]
        exact List.mem_map_of_mem hc
      have hlt := Expr.depth_lt hmem
      rw [← expand_eq hg hi] at hlt
      exact Nat.le_of_lt_succ (hlt.trans_le (hdepth hshort))
    have hnode : GoesAlike short levels
        ((g.nodes[i].map (g.boundedMeaning market)).eval market (.boundedRecall market) (bars + 0))
        ((g.nodes[i].map (g.meaning market)).eval market (.recall market) bars) fun _ => True :=
      (goesAlike_alignment short levels market).eval (Node.admissible_true _) hchildren trivial
    rw [Int.add_zero] at hnode
    exact hnode.boundedValue

/-! ### Sessions -/

namespace Session

/-- The formula's own levels decide whether the stack may run out. -/
theorem goesAlike_recall (short : Prop) {f : Formula} (hf : f.WellFormed) (market : Market)
    (h : ¬ short → f.expr.shape.depth ≤ levels) (memo : Memo) :
    short ∧ ((f.boundedRecall market levels).runOn memo).1 = .error .tooDeep ∨
      (f.boundedRecall market levels).runOn memo = (f.recall market).runOn memo :=
  (f.graph.goesAlike_meaning market hf.ordered f.root hf.root_lt levels 0 h memo).1

theorem evaluateWithin_eq_carryOut (levels : Nat) (f : Formula) (s : Session) :
    s.evaluateWithin levels f =
      (((f.boundedRecall s.market levels).runOn s.forget.memo).1.map Value.collapse,
        ({ s with memo := ((f.boundedRecall s.market levels).runOn s.forget.memo).2 } :
          Session).forget) := rfl

/-- **On any stack an evaluation runs out of levels or is that without a bound.** -/
theorem evaluateWithin_cases (levels : Nat) {f : Formula} (hf : f.WellFormed) (s : Session) :
    (s.evaluateWithin levels f).1 = .error .tooDeep ∨ s.evaluateWithin levels f = s.evaluate f := by
  rw [evaluateWithin_eq_carryOut, evaluate_eq]
  have hroom : ¬ True → f.expr.shape.depth ≤ levels := absurd trivial
  obtain ⟨-, hout⟩ | heq := goesAlike_recall True hf s.market hroom s.forget.memo
  · exact .inl (by rw [hout]; rfl)
  · exact .inr (by rw [heq])

/-- **A stack with room for the levels of a formula does not run out.** -/
theorem evaluateWithin_eq {f : Formula} (hf : f.WellFormed) (h : f.expr.shape.depth ≤ levels)
    (s : Session) : s.evaluateWithin levels f = s.evaluate f := by
  rw [evaluateWithin_eq_carryOut, evaluate_eq]
  obtain ⟨hno, -⟩ | heq :=
    goesAlike_recall False hf s.market (fun _ => h) s.forget.memo
  · exact hno.elim
  · rw [heq]

end Session

/-! ### Runs -/

namespace Rules

/-- **Rules run alike on every stack with room for their levels**, which for rules from scripts and
documents are at most `Shape.maxDepth`. -/
theorem run_evaluateWithin {rules : Rules} (h : ∀ r, rules.buy = some r ∨ rules.sell = some r →
    r.formula.WellFormed ∧ r.formula.expr.shape.depth ≤ levels) (s : Session) :
    rules.run s (Session.evaluateWithin levels) = rules.run s := by
  have hside : ∀ rule : Option Rule, (∀ r, rule = some r →
      r.formula.WellFormed ∧ r.formula.expr.shape.depth ≤ levels) → ∀ s,
        runSide rule s (Session.evaluateWithin levels) = runSide rule s := by
    intro rule hr s
    cases rule with
    | none => rfl
    | some r =>
      obtain ⟨hf, hdepth⟩ := hr r rfl
      simp only [runSide, Session.evaluateWithin_eq hf hdepth]
  simp only [run, hside rules.buy fun r hr => h r (.inl hr),
    hside rules.sell fun r hr => h r (.inr hr)]

end Rules

end BarScript
