import BarScript.Proofs.Evaluation.Correspondence
import BarScript.Proofs.Grammar.Program
import BarScript.Proofs.Market.Past
import BarScript.Proofs.Session.Recall

/-!
# The errors of an evaluation

An evaluation may fail because of the values it meets: a wrong argument, values that cannot be
compared, an arithmetic fault other than a division by zero (`EvalError.Contained`).  The other
errors say that the expression makes no sense: an unknown name or operator, a bar after the last
one.  They do not occur for trees of known names whose nodes can stand in a script, whatever is
remembered when the evaluation starts (`contains_meaning`).
-/

namespace BarScript

/-- An error that comes from the values an expression meets. -/
def EvalError.Contained : EvalError → Prop
  | argument _ | cannotCompare _ _ | notDefined _ _ => True
  | fault f => f ≠ .divisionByZero
  | unknown _ | unknownOperator _ _ | noSuchBar | tooDeep => False

/-- An error of this kind is reported as the result of a run. -/
theorem EvalError.Contained.reported {e : EvalError} (h : e.Contained) : e.reported = true := by
  cases e with
  | fault f => cases f <;> first | rfl | exact absurd rfl h
  | noSuchBar => exact h.elim
  | _ => rfl

/-- A result with a property, or an error of this kind. -/
def Contained {α : Type} (P : α → Prop) : Except EvalError α → Prop
  | .ok a => P a
  | .error e => e.Contained

namespace Contained

variable {α β : Type} {P : α → Prop} {Q : β → Prop}

theorem bind {x : Except EvalError α} {f : α → Except EvalError β} (hx : Contained P x)
    (hf : ∀ a, P a → Contained Q (f a)) : Contained Q (x >>= f) := by
  cases x with
  | ok a => exact hf a hx
  | error e => exact hx

theorem map {x : Except EvalError α} {f : α → β} (hx : Contained P x) (hf : ∀ a, P a → Q (f a)) :
    Contained Q (x.map f) := by
  cases x with
  | ok a => exact hf a hx
  | error e => exact hx

theorem of_error {x : Except EvalError α} (hx : Contained P x) {e : EvalError} (h : x = .error e) :
    e.Contained := by
  rw [h] at hx
  exact hx

end Contained

/-- An evaluation that gives anything, or fails with an error of this kind. -/
abbrev ErrorsContained {α : Type} : Except EvalError α → Prop := Contained fun _ => True

/-! ### Operators -/

theorem contained_toNumber (what : String) (v : Value) : ErrorsContained (v.toNumber what) := by
  cases v <;> trivial

theorem contained_unaryResult {operator : String} (h : operator ∈ ["+", "-"]) (x : Float) :
    ErrorsContained (unaryResult operator x) := by
  simp only [List.mem_cons, List.not_mem_nil, or_false] at h
  rcases h with rfl | rfl <;> trivial

theorem contained_unaryValue {operator : String} (h : operator ∈ ["+", "-"]) (v : Value) :
    ErrorsContained (unaryValue operator v) := by
  refine (contained_toNumber _ v).bind fun x _ => ?_
  cases x with
  | none => trivial
  | some x => exact (contained_unaryResult h x).bind fun _ _ => trivial

theorem contained_binaryResult {operator : String} (h : operator ∈ ["+", "-", "*", "/"])
    (x y : Float) : ErrorsContained (binaryResult operator x y) := by
  simp only [List.mem_cons, List.not_mem_nil, or_false] at h
  rcases h with rfl | rfl | rfl | rfl
  · trivial
  · trivial
  · trivial
  · -- a quotient by zero is zero
    change ErrorsContained (ofFault (Scalar.quotient x y))
    rw [quotient_eq_ok]
    trivial

theorem contained_binaryValue {operator : String} (h : operator ∈ ["+", "-", "*", "/"])
    (v w : Value) : ErrorsContained (binaryValue operator v w) := by
  have hboth : ErrorsContained (bothNumbers operator v w) := by
    refine (contained_toNumber _ v).bind fun x _ => (contained_toNumber _ w).bind fun y _ => ?_
    cases x <;> cases y <;> trivial
  refine hboth.bind fun xy _ => ?_
  cases xy with
  | none => trivial
  | some xy => exact (contained_binaryResult h xy.1 xy.2).bind fun _ _ => trivial

theorem contained_compareNumbers {operator : String} (h : operator ∈ Statement.comparisons)
    (tolerance x y : Float) : ErrorsContained (compareNumbers tolerance operator x y) := by
  simp only [Statement.comparisons, List.mem_cons, List.not_mem_nil, or_false] at h
  rcases h with rfl | rfl | rfl | rfl | rfl | rfl <;> trivial

theorem contained_compareSame {α : Type} [BEq α] (operator : String) (kind : ValueKind) (x y : α) :
    ErrorsContained (compareSame operator kind x y) := by
  unfold compareSame
  split
  · trivial
  · split <;> trivial

theorem contained_compareValues {operator : String} (h : operator ∈ Statement.comparisons)
    (tolerance : Float) (v w : Value) :
    ErrorsContained (compareValues tolerance operator v w) := by
  unfold compareValues
  split
  · exact contained_compareSame operator _ _ _
  · exact contained_compareSame operator _ _ _
  iterate 8 · trivial
  · refine (contained_toNumber _ _).bind fun a _ => (contained_toNumber _ _).bind fun b _ => ?_
    cases a with
    | none => trivial
    | some a =>
      cases b with
      | none => trivial
      | some b => exact contained_compareNumbers h tolerance a b

/-! ### Functions -/

theorem contained_ofFault {α : Type} {r : Except Fault α} (h : NoZeroDivision r) :
    ErrorsContained (ofFault r) := by
  cases r with
  | ok a => trivial
  | error f => exact fun hf => h (hf ▸ rfl)

theorem contained_toWhole (function : String) (v : Value) :
    ErrorsContained (v.toWhole function) := by
  refine (contained_toNumber function v).bind fun x _ => ?_
  cases x with
  | none => trivial
  | some x =>
    simp only
    split
    · intro h
      cases h
    · split <;> trivial

theorem contained_readSettings (function : String) (parameters : List Parameter)
    (arguments : List Value) : ErrorsContained (readSettings function parameters arguments) := by
  induction parameters generalizing arguments with
  | nil => cases arguments <;> trivial
  | cons p ps ih =>
    cases arguments with
    | nil =>
      simp only [readSettings]
      cases p.default? with
      | none => trivial
      | some s => exact (ih []).bind fun _ _ => trivial
    | cons v vs =>
      have hfraction : ErrorsContained ((v.toNumber function).map (·.map Setting.fraction)) :=
        (contained_toNumber function v).map fun _ _ => trivial
      have hwhole : ErrorsContained ((v.toWhole function).map (·.map Setting.whole)) :=
        (contained_toWhole function v).map fun _ _ => trivial
      simp only [readSettings]
      split
      · refine hfraction.bind fun setting _ => ?_
        cases setting with
        | none => trivial
        | some s => exact (ih vs).bind fun _ _ => trivial
      · refine hwhole.bind fun setting _ => ?_
        cases setting with
        | none => trivial
        | some s => exact (ih vs).bind fun _ _ => trivial

theorem contained_checkCount (function : String) (least : Nat) (most : Option Nat) (n : Nat) :
    ErrorsContained (checkCount function least most n) := by
  unfold checkCount
  split <;> trivial

theorem contained_settings (function : String) (parameters : List Parameter)
    (arguments : List Value) : ErrorsContained (settings function parameters arguments) :=
  (contained_checkCount _ _ _ _).bind fun _ _ => contained_readSettings _ _ _

theorem contained_toNumbers (function : String) (vs : List Value) :
    ErrorsContained (toNumbers function vs) := by
  induction vs with
  | nil => trivial
  | cons v vs ih =>
    exact (contained_toNumber function v).bind fun x _ => ih.bind fun xs _ => trivial

theorem contained_barSources (function : String) (arguments : List Value) (s : Series) :
    ErrorsContained (barSources function arguments s) := by
  unfold barSources
  split
  · split <;> trivial
  · trivial
  · trivial

/-- **A call of a builtin function fails because of its arguments only.** -/
theorem Builtin.contained_apply (f : Builtin) (arguments : List Value) (s : Series) :
    ErrorsContained (f.apply arguments s) := by
  cases f with
  | price g =>
    simp only [apply]
    refine (contained_settings _ _ _).bind fun given _ => ?_
    cases given with
    | none => trivial
    | some given => exact contained_ofFault (PriceFunction.compute_noZeroDivision _ g given)
  | bar g =>
    refine (contained_barSources _ arguments s).bind fun sources _ => ?_
    refine (contained_settings _ _ _).bind fun given _ => ?_
    split
    · exact contained_ofFault (BarFunction.compute_noZeroDivision _ _ _ g _)
    · trivial
  | arithmetic g =>
    refine (contained_checkCount _ _ _ _).bind fun _ _ => ?_
    refine (contained_toNumbers _ arguments).bind fun xs _ => ?_
    split
    · trivial
    · exact contained_ofFault (Arithmetic.compute_noZeroDivision g _)

/-! ### Nodes -/

/-- The names of a node are those of variables and functions. -/
def Node.Named : Node Unit → Prop
  | .name symbol => (Variable.ofName? symbol).isSome = true
  | .call function _ => (Function.ofName? function).isSome = true
  | _ => True

theorem Node.named_of_checkName {β : Type} {n : Node β} (h : n.checkName = .ok ()) :
    n.bare.Named := by
  cases n with
  | name symbol | call symbol arguments =>
    simp only [checkName] at h
    split at h
    · assumption
    · cases h
  | _ => trivial

/-- A check of names that passes has looked at every node. -/
theorem Expr.every_named {e : Expr} (h : e.checkNames = .ok ()) : e.Every Node.Named := by
  induction e using Expr.node_induction with
  | h n ih =>
    rw [checkNames, fold_mk] at h
    obtain ⟨⟨⟩, hname, hchildren⟩ := bind_eq_ok_iff.1 h
    have hchildren := forM_eq_ok_iff.1 hchildren
    rw [Node.children_map, List.forall_mem_map] at hchildren
    have hnamed := Node.named_of_checkName hname
    rw [Node.bare_map] at hnamed
    exact every_mk.2 ⟨hnamed, fun c hc => ih c hc (hchildren c hc)⟩

theorem Node.admissible_of_scripted {n : Node Nat} (h : n.bare.Scripted ∧ n.bare.Named) :
    n.Admissible EvalError.Contained (fun _ => True) (0 ≤ ·) := by
  obtain ⟨⟨hback, hoperates⟩, hnamed⟩ := h
  cases n with
  | name symbol =>
    simp only [Admissible]
    cases hv : Variable.ofName? symbol with
    | none =>
      have hnamed : (Variable.ofName? symbol).isSome = true := hnamed
      rw [hv] at hnamed
      cases hnamed
    | some v => trivial
  | call function arguments =>
    intro hf
    have hnamed : (Function.ofName? function).isSome = true := hnamed
    rw [hf] at hnamed
    cases hnamed
  | history c bars =>
    intro b hb
    have hback : 0 ≤ bars := hback
    omega
  | unary operator c => exact fun v e he => (contained_unaryValue hoperates v).of_error he
  | binary operator c d => exact fun v w e he => (contained_binaryValue hoperates v w).of_error he
  | comparison operator c d =>
    exact fun tolerance v w e he => (contained_compareValues hoperates tolerance v w).of_error he
  | logical operator cs =>
    intro hand hor
    have hoperates : operator = "AND" ∨ operator = "OR" := hoperates
    rcases hoperates with rfl | rfl
    · exact absurd (by decide +kernel) hand
    · exact absurd (by decide +kernel) hor
  | _ => trivial

/-! ### Evaluation with a memory -/

/-- From any memory, the first evaluation gives a result with a property or fails with an error of
this kind; the second one does not matter. -/
def Contains {α : Type} (x _ : Recall α) (P : α → Prop) : Prop :=
  ∀ memo : Memo, Contained P (x.runOn memo).1

theorem contains_correspondence : Correspondence Contains EvalError.Contained where
  pure a ha _ := ha
  throw e he _ := he
  bind := by
    intro α β x y f g P Q hx hf memo
    rw [Recall.runOn_bind]
    have hrun := hx memo
    rcases hxm : x.runOn memo with ⟨_ | a, memo'⟩
    · rw [hxm] at hrun
      exact hrun
    · rw [hxm] at hrun
      exact hf a hrun memo'

/-- There is always some history, and no value is forgotten for it. -/
theorem exists_recallSeries (market : Market) (bars : Int) (memo : Memo) :
    ∃ s memo', (recallSeries market bars).runOn memo = (.ok s, memo') ∧
      memo'.values = memo.values := by
  unfold recallSeries
  split
  · exact ⟨_, _, rfl, rfl⟩
  · simp only [Recall.runOn_bind, Recall.runOn_get]
    cases memo.shifted[bars]? with
    | some s => exact ⟨_, _, rfl, rfl⟩
    | none => exact ⟨_, _, rfl, rfl⟩

theorem contains_call (market : Market) (f : Builtin) (arguments : List Value) (bars : Int)
    (y : Recall Value) : Contains (recallCall market f arguments bars) y fun _ => True := by
  intro memo
  obtain ⟨s, memo', hs, -⟩ := exists_recallSeries market bars memo
  simp only [recallCall, Recall.runOn_bind, Recall.runOn_get]
  cases memo.call? ⟨f, arguments.map Value.key, bars⟩ with
  | some r => trivial
  | none =>
    have happly := f.contained_apply arguments s
    simp only [Recall.runOn_bind, hs, Recall.runOn_liftError]
    cases hr : f.apply arguments s with
    | ok r => trivial
    | error e => exact happly.of_error hr

theorem contains_alignment (market : Market) :
    Alignment Contains EvalError.Contained (fun _ => True) (fun _ => True) (0 ≤ ·) 0 market market
      (Access.recall market) (Access.recall market) where
  toCorrespondence := contains_correspondence
  tolerance := rfl
  plain _ _ := trivial
  argument _ := trivial
  succ bars h := by omega
  read v bars _ h := by
    rw [Int.add_zero]
    obtain ⟨close, hclose⟩ := market.exists_closeAt h
    obtain ⟨change, hchange⟩ := market.exists_changeAt h
    refine contains_correspondence.read (fun _ _ => trivial) rfl (fun _ => ⟨rfl, fun e he => ?_⟩)
      (fun _ => ⟨rfl, fun e he => ?_⟩) fun l _ memo => ?_
    · rw [hclose] at he
      cases he
    · rw [hchange] at he
      cases he
    · obtain ⟨s, memo', hs, -⟩ := exists_recallSeries market bars memo
      change Contained _ ((recallSeries market bars).runOn memo).1
      rw [hs]
      trivial
  call f arguments bars _ _ := by
    rw [Int.add_zero]
    exact contains_call market f arguments bars _

/-- A node means something, in a graph of nodes that can stand in a script. -/
theorem contains_meaning (market : Market) {g : Graph} (hg : g.Ordered) :
    ∀ i, i < g.size → (g.expand i).Every (fun n => n.Scripted ∧ n.Named) → ∀ bars, 0 ≤ bars →
      Contains (g.meaning market i bars) (g.meaning market i bars) fun _ => True := by
  refine hg.induction fun i hi ih hevery bars hbars memo => ?_
  rw [Graph.every_expand hg hi] at hevery
  have hnode := (contains_alignment market).eval (Node.admissible_of_scripted hevery.1)
    (fun c hc bars hb => by rw [Int.add_zero]; exact ih c hc (hevery.2 c hc) bars hb) hbars
  rw [Int.add_zero] at hnode
  rw [Graph.meaning_eq market hg hi]
  cases hv : memo.values[(i, bars)]? with
  | some v =>
    -- what is remembered is no error
    rw [recallValue_of_some hv]
    trivial
  | none =>
    have hrun := hnode memo
    rw [recallValue_of_none hv]
    rcases hn : ((g.nodes[i].map (g.meaning market)).eval market (Access.recall market)
      bars).runOn memo with ⟨_ | v, memo'⟩
    · rw [hn] at hrun
      exact hrun
    · trivial

end BarScript
