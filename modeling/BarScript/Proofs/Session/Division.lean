import BarScript.Proofs.Evaluation.Raises
import BarScript.Proofs.Indicator.Exact
import BarScript.Rules

/-!
# Nothing is divided by zero

A division by zero is the one arithmetic fault that a run does not report: it would end the run
without an outcome.  It never happens, neither in exact arithmetic nor over doubles, where results
are rounded (`nothing_divided_by_zero`).

Of the indicators this is `Indicator.neverDividesByZero`, for any arithmetic with the laws of signs.
An evaluation raises the faults of its operators, of the functions it calls and of the changes it
looks up, and none of these is a division by zero (`EvalError.Operational`).  So it holds of every
formula, whatever its tree, and even if its nodes are out of order (`Graph.raises_notDivision`).
-/

namespace BarScript

open Scalar

/-! ### Evaluation -/

namespace EvalError

/-- Any error but that of a division by zero. -/
def NotDivision : EvalError → Prop
  | fault f => f ≠ .divisionByZero
  | _ => True

theorem Operational.notDivision {e : EvalError} (h : e.Operational) : e.NotDivision := by
  cases e with
  | fault f => exact h
  | _ => trivial

end EvalError

/-- No node divides by zero of its own, whatever bars it is looked at from. -/
theorem Node.admissible_notDivision {β : Type} {A : Variable → Prop} (hA : ∀ v, A v) (n : Node β) :
    n.Admissible EvalError.NotDivision A fun _ => True := by
  cases n with
  | name symbol =>
    simp only [Admissible]
    split
    · trivial
    · exact hA _
  | call function arguments => exact fun _ => trivial
  | history c bars => exact fun _ _ => trivial
  | unary operator c => exact fun v e he => (operational_of_unaryValue he).notDivision
  | binary operator c d => exact fun v w e he => (operational_of_binaryValue he).notDivision
  | comparison operator c d =>
    exact fun tolerance v w e he => (operational_of_compareValues he).notDivision
  | logical operator cs => exact fun _ _ => trivial
  | _ => trivial

/-- No node of a graph divides by zero, from whatever memory. -/
theorem Graph.raises_notDivision (market : Market) (g : Graph) (i : Nat) (bars : Int) :
    Raises EvalError.NotDivision (g.meaning market i bars) (g.meaning market i bars)
      fun _ => True := by
  refine g.forall_value (P := fun m : Meaning Recall => ∀ bars,
    Raises EvalError.NotDivision (m bars) (m bars) fun _ => True) ?_ ?_ i bars
  · exact fun _ => (raises_correspondence _).pure _ trivial
  · intro position n f hf bars
    have hnode : Raises EvalError.NotDivision
        ((n.map f).eval market (Access.recall market) (bars + 0))
        ((n.map f).eval market (Access.recall market) bars) fun _ => True :=
      (raises_alignment (D := fun _ => True) (fun _ => EvalError.Operational.notDivision) market
        fun _ _ => trivial).eval (n.admissible_notDivision fun _ _ _ _ _ => trivial)
        (fun c _ b _ => by rw [Int.add_zero]; exact hf c b) trivial
    rw [Int.add_zero] at hnode
    exact hnode.recallValue

theorem Session.evaluate_notDivision {f : Formula} {s : Session} {e : EvalError}
    (h : (s.evaluate f).1 = .error e) : e.NotDivision := by
  rw [Session.evaluate_eq, Formula.recall_eq] at h
  exact (f.graph.raises_notDivision s.market f.root 0 _).2 e (map_eq_error_iff.1 h)

/-! ### Runs -/

namespace Rules

theorem runSide_notDivision {rule : Option Rule} {s : Session} {e : EvalError}
    (h : (runSide rule s).1 = .error e) : e.NotDivision := by
  cases rule with
  | none => cases h
  | some r =>
    have h : (solo (s.evaluate r.formula).1).map some = .error e := h
    cases hev : (s.evaluate r.formula).1 with
    | ok v =>
      rw [hev] at h
      cases h
    | error e' =>
      -- an error that is reported is no error of the run
      rw [hev, map_eq_error_iff] at h
      simp only [solo] at h
      split at h <;> cases h
      exact Session.evaluate_notDivision hev

/-- The error of a run is that of one of its sides. -/
theorem run_notDivision {rules : Rules} {s : Session} {e : EvalError}
    (h : (rules.run s).1 = .error (.eval e)) : e.NotDivision := by
  rw [run] at h
  rcases hbuy : runSide rules.buy s with ⟨e' | buy, s'⟩
  · rw [hbuy] at h
    cases h
    exact runSide_notDivision (congrArg Prod.fst hbuy)
  · rcases hsell : runSide rules.sell s' with ⟨e' | sell, s''⟩
    all_goals
      rw [hbuy] at h
      simp only [hsell] at h
      cases h
    exact runSide_notDivision (congrArg Prod.fst hsell)

theorem runCompiled_notDivision {rules : Except CompileError Rules} {s : Session} {e : EvalError}
    (h : (runCompiled rules s).1 = .error (.eval e)) : e.NotDivision := by
  cases rules with
  | ok rules => exact run_notDivision h
  | error error => cases error <;> cases h

end Rules

/-- **Nothing is divided by zero.**  In exact arithmetic and over doubles, whatever the lists and
the settings are, no indicator divides by zero, and no quotient and no change from one price to the
next as scripts have them.  So no operator, no change some bars ago and no formula fails for that,
in any session, and no run ends in it. -/
theorem nothing_divided_by_zero [SquareRoot] :
    (Indicator.NeverDividesByZero ℚ ∧ (∀ x y : ℚ, NoZeroDivision (quotient x y)) ∧
      ∀ before now : ℚ, NoZeroDivision (relativeChange before now)) ∧
    Indicator.NeverDividesByZero Float ∧
    (∀ operator v w, binaryValue operator v w ≠ .error (.fault .divisionByZero)) ∧
    (∀ (market : Market) bars, market.changeAt bars ≠ .error (.fault .divisionByZero)) ∧
    (∀ (f : Formula) (s : Session), (s.evaluate f).1 ≠ .error (.fault .divisionByZero)) ∧
    ∀ rules (s : Session),
      (Rules.runCompiled rules s).1 ≠ .error (.eval (.fault .divisionByZero)) := by
  refine ⟨⟨Indicator.neverDividesByZero, quotient_noZeroDivision, relativeChange_noZeroDivision⟩,
    Indicator.neverDividesByZero, fun _ _ _ h => ?_, fun _ _ h => ?_, fun _ _ h => ?_,
    fun _ _ h => ?_⟩
  · exact (operational_of_binaryValue h).notDivision rfl
  · cases (Market.changeAt_eq_error h).1
  · exact Session.evaluate_notDivision h rfl
  · exact Rules.runCompiled_notDivision h rfl

end BarScript
