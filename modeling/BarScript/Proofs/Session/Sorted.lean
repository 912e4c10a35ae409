import BarScript.Proofs.Evaluation.Sorted
import BarScript.Proofs.Session.Containment

/-!
# Rules that are true or false

A compiled rule whose formula has the sort of booleans is true or false in any session: whatever the
market, and whatever the session remembers, its evaluation does not fail, but for a square that
overflows where squares are allowed (`Formula.Scripted.gives`).  So a run of such rules reports no
other error (`Rules.exists_run_sorted`).
-/

namespace BarScript

/-- **A formula of the sort of booleans is true or false in any session**, but for squares. -/
theorem Formula.Scripted.gives {f : Formula} (hf : f.Scripted) {squares : Bool}
    (h : f.expr.ownSorts squares .boolean = true) (s : Session) :
    Gives squares (fun v => v.kind = .boolean) (s.evaluate f).1 := by
  -- at the start no values are remembered
  have hmemo : s.forget.memo.Fits squares f.graph := fun _ _ _ hv => by
    simp [Session.forget] at hv
  rw [Session.evaluate_eq, Formula.recall_eq]
  have hgives := (keeps_meaning s.market hf.wellFormed.ordered f.root hf.wellFormed.root_lt ⟨_, h⟩ 0
    (Int.le_refl 0) s.forget.memo hmemo).1
  rcases hrun : ((f.graph.meaning s.market f.root 0).runOn s.forget.memo).1 with e | v
  · rw [hrun] at hgives
    exact hgives
  · rw [hrun] at hgives
    have hkind : v.kind = .boolean := hgives _ h
    cases v with
    | boolean b => exact hkind
    | _ => cases hkind

namespace Rules

/-- A compiled rule whose formula has the sort of booleans. -/
structure Sorted (squares : Bool) (r : Rule) : Prop where
  scripted : r.formula.Scripted
  sort : r.formula.expr.ownSorts squares .boolean = true

variable {squares : Bool}

/-- The message is that of the one error there may be. -/
def OverflowOnly (squares : Bool) (message : String) : Prop :=
  squares = true ∧ message = Fault.squareOverflow.message

theorem exists_runSide_sorted {rule : Option Rule} (h : ∀ r, rule = some r → Sorted squares r)
    (s : Session) : ∃ result s', runSide rule s = (.ok result, s') ∧
      ∀ message, result = some (.error message) → OverflowOnly squares message := by
  cases rule with
  | none => exact ⟨_, _, rfl, fun message hm => by cases hm⟩
  | some r =>
    have hgives := (h r rfl).scripted.gives (h r rfl).sort s
    simp only [runSide]
    rcases hev : s.evaluate r.formula with ⟨e | v, s'⟩
    · rw [hev] at hgives
      obtain ⟨hsquares, rfl⟩ := hgives
      exact ⟨_, _, rfl, fun message hm => by cases hm; exact ⟨hsquares, rfl⟩⟩
    · exact ⟨_, _, rfl, fun message hm => by cases hm⟩

/-- The error of an outcome is that of one of the sides. -/
theorem error_outcome {buy sell : Option (Except String Value)} {message : String}
    (h : (outcome buy sell).error = some message) :
    buy = some (.error message) ∨ sell = some (.error message) := by
  unfold outcome at h
  split at h
  · cases h
    exact .inl rfl
  · cases h
    exact .inr rfl
  all_goals cases h

/-- **A run of rules that are true or false** reports no error but that of a square. -/
theorem exists_run_sorted (rules : Rules)
    (h : ∀ r, rules.buy = some r ∨ rules.sell = some r → Sorted squares r) (s : Session) :
    ∃ outcome, (rules.run s).1 = .ok outcome ∧
      ∀ message, outcome.error = some message → OverflowOnly squares message := by
  obtain ⟨buy, s₁, hbuy, hbuyError⟩ := exists_runSide_sorted (fun r hr => h r (.inl hr)) s
  obtain ⟨sell, s₂, hsell, hsellError⟩ := exists_runSide_sorted (fun r hr => h r (.inr hr)) s₁
  refine ⟨outcome buy sell, ?_, fun message hm => ?_⟩
  · rw [run, hbuy]
    simp only [hsell]
  · exact (error_outcome hm).elim (hbuyError message) (hsellError message)

end Rules

end BarScript
