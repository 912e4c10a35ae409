import BarScript.Proofs.Evaluation.Growth

/-!
# Expressions and more history

An expression is steady (`Expr.Steady`) if it looks back only, negates nothing, compares no booleans
and calls no average that starts from the first bar.  With more history its value only grows
(`Expr.Steady.grows`): a number stays the same, and what is true stays true
(`Expr.Steady.eval_extends`).

The proof is a relation between the two evaluations that every node keeps, by induction over the
nodes.
-/

namespace BarScript

/-! ### Expressions -/

/-- Whether a node gives a boolean, if its operands do as said. -/
def Node.givesBoolean : Node Bool → Bool
  | .name symbol => match Variable.ofName? symbol with
    | some (.truth _) => true
    | _ => false
  | .call function _ => match Function.ofName? function with
    | some (.crossing _) => true
    | _ => false
  | .history operand _ => operand
  | .comparison .. | .logical .. | .negation _ => true
  | _ => false

/-- Whether an expression gives a boolean when it gives a value. -/
def Expr.givesBoolean : Expr → Bool := Expr.fold Node.givesBoolean

/-- The functions whose results depend on the last bars only. -/
def steadyFunctions : List String :=
  ["sma", "rsi", "roc", "highest", "lowest", "bb_upper", "bb_middle", "bb_lower", "wr", "abs",
    "round", "floor", "ceil", "max", "min", "crossover", "crossunder"]

/-- An expression without negations that looks back only, compares no booleans and calls functions
of the last bars only. -/
inductive Expr.Steady : Expr → Prop
  | number (x : Float) : Steady (.mk (.number x))
  | text (s : String) : Steady (.mk (.text s))
  | name (symbol : String) : Steady (.mk (.name symbol))
  | call {function : String} {arguments : List Expr} (hf : function ∈ steadyFunctions)
      (h : ∀ e ∈ arguments, Steady e) : Steady (.mk (.call function arguments))
  | history {operand : Expr} {bars : Int} (hb : 0 ≤ bars) (h : Steady operand) :
      Steady (.mk (.history operand bars))
  | unary {operator : String} {operand : Expr} (h : Steady operand) :
      Steady (.mk (.unary operator operand))
  | binary {operator : String} {left right : Expr} (hl : Steady left) (hr : Steady right) :
      Steady (.mk (.binary operator left right))
  | comparison {operator : String} {left right : Expr} (hl : Steady left) (hr : Steady right)
      (hlb : left.givesBoolean = false) (hrb : right.givesBoolean = false) :
      Steady (.mk (.comparison operator left right))
  | logical {operator : String} {operands : List Expr} (h : ∀ e ∈ operands, Steady e) :
      Steady (.mk (.logical operator operands))

theorem Expr.eval_mk (market : Market) (n : Node Expr) :
    (mk n).eval market = (n.map (Expr.eval market)).eval market (Access.plain market) :=
  fold_mk _ n

theorem liftError_eq {α : Type} (r : Except EvalError α) : liftError r = r := by cases r <;> rfl

/-! ### Kinds of values -/

theorem Value.kind_ofOption (x : Option Float) : (ofOption x).kind ≠ .boolean := by
  cases x <;> simp [ofOption, kind]

theorem Variable.kind_read {market : Market} {x : Variable} (h : ∀ b, x ≠ .truth b)
    {bars : Int} {v : Value} (hv : x.read market (Access.plain market) bars = .ok v) :
    v.kind ≠ .boolean := by
  cases x with
  | truth b => exact absurd rfl (h b)
  | symbol => cases hv; simp [Value.kind]
  | close | change | changePercent | line =>
    obtain ⟨x, -, hv⟩ := bind_eq_ok_iff.1 hv
    cases hv
    first | exact Value.kind_ofOption _ | simp [Value.kind]

theorem kind_unaryValue {operator : String} {v w : Value} (h : unaryValue operator v = .ok w) :
    w.kind ≠ .boolean := by
  obtain ⟨x, -, h⟩ := bind_eq_ok_iff.1 h
  cases x with
  | none => cases h; simp [Value.kind]
  | some x =>
    obtain ⟨y, -, h⟩ := bind_eq_ok_iff.1 h
    cases h
    simp [Value.kind]

theorem kind_binaryValue {operator : String} {v v' w : Value}
    (h : binaryValue operator v v' = .ok w) : w.kind ≠ .boolean := by
  obtain ⟨x, -, h⟩ := bind_eq_ok_iff.1 h
  cases x with
  | none => cases h; simp [Value.kind]
  | some x =>
    obtain ⟨y, -, h⟩ := bind_eq_ok_iff.1 h
    cases h
    simp [Value.kind]

/-- **Only an expression that gives booleans has a boolean for its value.** -/
theorem Expr.kind_ne_boolean {market : Market} {e : Expr} (h : e.givesBoolean = false) {bars : Int}
    {v : Value} (hv : e.eval market bars = .ok v) : v.kind ≠ .boolean := by
  induction e using Expr.node_induction generalizing bars with
  | h n ih =>
    rw [eval_mk] at hv
    rw [givesBoolean, fold_mk] at h
    cases n with
    | number x | text s => cases hv; simp [Value.kind]
    | comparison | logical | negation => cases h
    | history c bars => exact ih c (by simp [Node.children]) h hv
    | name symbol =>
      simp only [Node.map, Node.eval] at hv
      simp only [Node.map, Node.givesBoolean] at h
      cases hname : Variable.ofName? symbol with
      | none => simp only [hname] at hv; cases hv
      | some x =>
        simp only [hname] at hv h
        refine x.kind_read (fun b hb => ?_) hv
        subst hb
        cases h
    | call function arguments =>
      simp only [Node.map, Node.eval, evalCall] at hv
      simp only [Node.map, Node.givesBoolean] at h
      cases hname : Function.ofName? function with
      | none => simp only [hname] at hv; cases hv
      | some f =>
        simp only [hname] at hv h
        cases f with
        | crossing up => cases h
        | builtin f =>
          obtain ⟨vs, -, hv⟩ := bind_eq_ok_iff.1 hv
          obtain ⟨x, -, rfl⟩ := map_eq_ok_iff.1 hv
          exact Value.kind_ofOption x
    | unary operator c =>
      obtain ⟨x, -, hv⟩ := bind_eq_ok_iff.1 hv
      rw [liftError_eq] at hv
      exact kind_unaryValue hv
    | binary operator c d =>
      obtain ⟨x, -, hv⟩ := bind_eq_ok_iff.1 hv
      obtain ⟨y, -, hv⟩ := bind_eq_ok_iff.1 hv
      rw [liftError_eq] at hv
      exact kind_binaryValue hv

/-! ### Two evaluations -/

section

variable {n : Nat} {market market' : Market}

/-- The second operand gives what the value of the first can become with `n` older bars. -/
def Follows (n : Nat) (f g : Meaning (Except EvalError)) : Prop :=
  ∀ bars, 0 ≤ bars → Agree (Value.Grows n) (f bars) (g bars)

variable {f g : Meaning (Except EvalError)} {fs gs : List (Meaning (Except EvalError))}

theorem Follows.allTrue (h : List.Forall₂ (Follows n) fs gs) {bars : Int} (hb : 0 ≤ bars) :
    Agree (fun b c => b = true → c = true) (allTrue bars fs) (allTrue bars gs) := by
  induction h with
  | nil => exact .ok id
  | cons h _ ih =>
    refine (h bars hb).bind fun v w hvw => ?_
    cases hv : v.truthy with
    | false => exact fun a b ha _ => by cases ha; exact nofun
    | true =>
      rw [hvw.truthy hv]
      exact ih

theorem Follows.anyTrue (h : List.Forall₂ (Follows n) fs gs) {bars : Int} (hb : 0 ≤ bars) :
    Agree (fun b c => b = true → c = true) (anyTrue bars fs) (anyTrue bars gs) := by
  induction h with
  | nil => exact .ok id
  | cons h _ ih =>
    refine (h bars hb).bind fun v w hvw => ?_
    cases hv : v.truthy with
    | true =>
      rw [hvw.truthy hv]
      exact .ok id
    | false =>
      cases hw : w.truthy with
      | true => exact fun a b _ hb _ => by cases hb; rfl
      | false => exact ih

theorem Follows.mapM (h : List.Forall₂ (Follows n) fs gs) {bars : Int} (hb : 0 ≤ bars) :
    Agree (List.Forall₂ (Value.Grows n)) (fs.mapM fun a => a bars) (gs.mapM fun a => a bars) := by
  induction h with
  | nil => exact .ok .nil
  | cons h _ ih =>
    rw [List.mapM_cons, List.mapM_cons]
    refine (h bars hb).bind fun v w hvw => ih.bind fun vs ws hvs => ?_
    exact .ok (.cons hvw hvs)

/-! ### Names and crossings -/

theorem Variable.agree_read (hm : market.Extends n market') (x : Variable) {bars : Int}
    (hb : 0 ≤ bars) : Agree (Value.Grows n) (x.read market (Access.plain market) bars)
      (x.read market' (Access.plain market') bars) := by
  cases x with
  | close =>
    simp only [read, liftError_eq]
    exact (hm.closeAt hb).bind fun x y hx => .ok (.ofOption hx)
  | change =>
    simp only [read, liftError_eq]
    exact (hm.changeAt hb).bind fun x y hx => .ok (.ofOption hx)
  | changePercent =>
    simp only [read, liftError_eq]
    exact (hm.changeAt hb).bind fun x y hx => .ok (.ofOption (hx.map _))
  | line l => exact .ok (.series l ((hm.series.shifted hb).line l))
  | symbol =>
    simp only [read, hm.symbol]
    exact .ok (.text _)
  | truth b => exact .ok (.boolean id)

theorem lastN_two {α : Type} {xs ys : List α} (h : xs <:+ ys) :
    (Indicator.lastN 2 xs).length < 2 ∨ Indicator.lastN 2 xs = Indicator.lastN 2 ys := by
  obtain ⟨older, rfl⟩ := h
  by_cases hlen : xs.length < 2
  · exact .inl (by rw [Indicator.lastN, List.length_drop]; omega)
  · refine .inr ?_
    rw [Indicator.lastN, Indicator.lastN, List.length_append, Nat.add_sub_assoc (by omega),
      ← List.drop_drop, List.drop_left]

/-- Two points that are known stay. -/
theorem Follows.crossingPoints (h : Follows n f g) (function : String) {bars : Int}
    (hb : 0 ≤ bars) : Agree (fun xs ys => xs.length < 2 ∨ xs = ys)
      (crossingPoints function f bars) (crossingPoints function g bars) := by
  refine (h bars hb).bind fun v w hvw => ?_
  cases hvw with
  | series l hl => exact .ok (lastN_two hl.suffix)
  | boolean | text => exact .error_left _
  | undefined w =>
    intro a b ha _
    obtain ⟨x, hx, ha⟩ := bind_eq_ok_iff.1 ha
    obtain ⟨before, -, ha⟩ := bind_eq_ok_iff.1 ha
    obtain ⟨y, -, ha⟩ := bind_eq_ok_iff.1 ha
    cases hx
    cases ha
    exact .inl (by simp)
  | number x =>
    refine (Agree.refl _).bind fun now now' hnow => ?_
    cases hnow
    refine (h (bars + 1) (by omega)).bind fun v w hvw => ?_
    simp only [liftError_eq]
    refine (hvw.toNumber function).bind fun before before' hbefore => ?_
    cases now with
    | none => exact .ok (.inr rfl)
    | some x =>
      rcases hbefore with rfl | rfl
      · exact fun a b ha _ => by cases ha; exact .inl (by simp)
      · exact .ok (.inr rfl)

theorem lastTwo_eq_none {α : Type} {xs : List α} (h : xs.length < 2) :
    Indicator.lastTwo xs = none := by
  match xs with
  | [] | [_] => rfl
  | _ :: _ :: _ => simp at h

theorem Follows.evalCrossing (h : List.Forall₂ (Follows n) fs gs) (function : String) (up : Bool)
    {bars : Int} (hb : 0 ≤ bars) : Agree (Value.Grows n) (evalCrossing function up fs bars)
      (evalCrossing function up gs bars) := by
  match h with
  | .cons h (.cons h' .nil) =>
    refine (h.crossingPoints function hb).bind fun xs ys hxs => ?_
    refine (h'.crossingPoints function hb).bind fun xs' ys' hxs' => ?_
    have hnone : ∀ {ps qs : List Float}, Indicator.lastTwo ps = none ∨ Indicator.lastTwo qs = none →
        (if up then Indicator.crossesUp ps qs else Indicator.crossesDown ps qs) = false := by
      rintro ps qs (h | h) <;> simp [Indicator.crossesUp, Indicator.crossesDown, h]
    refine .ok (.boolean ?_)
    rcases hxs with hlen | rfl
    · rw [hnone (.inl (lastTwo_eq_none hlen))]
      exact nofun
    rcases hxs' with hlen | rfl
    · rw [hnone (.inr (lastTwo_eq_none hlen))]
      exact nofun
    · exact id
  | .nil | .cons _ .nil | .cons _ (.cons _ (.cons _ _)) => exact .error_left _

/-! ### Nodes -/

theorem forall₂_map {es : List Expr}
    (h : ∀ e ∈ es, Follows n (e.eval market) (e.eval market')) :
    List.Forall₂ (Follows n) (es.map (Expr.eval market)) (es.map (Expr.eval market')) := by
  rw [List.forall₂_map_left_iff, List.forall₂_map_right_iff, List.forall₂_same]
  exact h

/-- A steady function is a crossing or a steady builtin function. -/
theorem exists_of_steadyFunctions {function : String} (h : function ∈ steadyFunctions) :
    ∃ f, Function.ofName? function = some f ∧ ∀ b, f = .builtin b → b.Steady := by
  simp only [steadyFunctions, List.mem_cons, List.not_mem_nil, or_false] at h
  rcases h with rfl | rfl | rfl | rfl | rfl | rfl | rfl | rfl | rfl | rfl | rfl | rfl | rfl | rfl |
    rfl | rfl | rfl | rfl
  all_goals exact ⟨_, rfl, fun b hb => by cases hb <;> trivial⟩

theorem Follows.evalCall (hm : market.Extends n market') {function : String}
    (hf : function ∈ steadyFunctions) (h : List.Forall₂ (Follows n) fs gs) :
    Follows n (evalCall (Access.plain market) function fs)
      (evalCall (Access.plain market') function gs) := by
  intro bars hb
  obtain ⟨f, hname, hsteady⟩ := exists_of_steadyFunctions hf
  simp only [BarScript.evalCall, hname]
  cases f with
  | crossing up => exact evalCrossing h function up hb
  | builtin b =>
    refine (mapM h hb).bind fun vs ws hvs => ?_
    exact (Builtin.agree_apply (hsteady b rfl) hvs (hm.series.shifted hb)).map fun x y hx =>
      .ofOption hx

/-- **With more history the value of a steady expression only grows.** -/
theorem Expr.Steady.grows {e : Expr} (he : e.Steady) (hm : market.Extends n market') :
    Follows n (e.eval market) (e.eval market') := by
  induction he with
  | number x => exact fun bars _ => .ok (.number x)
  | text s => exact fun bars _ => .ok (.text s)
  | name symbol =>
    intro bars hb
    simp only [eval_mk, Node.map, Node.eval]
    cases Variable.ofName? symbol with
    | none => exact .error_left _
    | some x => exact x.agree_read hm hb
  | call hf _ ih =>
    rw [eval_mk, eval_mk]
    exact Follows.evalCall hm hf (forall₂_map ih)
  | history hb _ ih =>
    intro bars hb'
    rw [eval_mk, eval_mk]
    exact ih _ (Int.add_nonneg hb' hb)
  | unary _ ih =>
    intro bars hb
    simp only [eval_mk, Node.map, Node.eval, liftError_eq]
    exact (ih bars hb).bind fun v w hvw => agree_unaryValue _ hvw
  | binary _ _ ihl ihr =>
    intro bars hb
    simp only [eval_mk, Node.map, Node.eval, liftError_eq]
    exact (ihl bars hb).bind fun v w hvw => (ihr bars hb).bind fun v' w' hvw' =>
      agree_binaryValue _ hvw hvw'
  | @comparison operator left right _ _ hlb hrb ihl ihr =>
    intro bars hb
    simp only [eval_mk, Node.map, Node.eval, liftError_eq, hm.tolerance]
    -- an operand that is no boolean does not turn from false to true
    have hl := (ihl bars hb).and_left fun v hv => kind_ne_boolean hlb hv
    have hr := (ihr bars hb).and_left fun v hv => kind_ne_boolean hrb hv
    refine hl.bind fun v w hvw => hr.bind fun v' w' hvw' => ?_
    exact (agree_compareValues _ operator hvw.1 hvw'.1 hvw.2 hvw'.2).bind fun b c hbc =>
      .ok (.boolean hbc)
  | @logical operator operands _ ih =>
    intro bars hb
    simp only [eval_mk, Node.map, Node.eval]
    split
    · exact (Follows.allTrue (forall₂_map ih) hb).bind fun b c hbc => .ok (.boolean hbc)
    · split
      · exact (Follows.anyTrue (forall₂_map ih) hb).bind fun b c hbc => .ok (.boolean hbc)
      · exact .error_left _

/-- **More history never removes a signal.**  If a steady expression has a value in a market and in
the same market with older bars, then a number is the same number, and what is true stays true; only
what is undefined or false can change. -/
theorem Expr.Steady.eval_extends {e : Expr} (he : e.Steady) (hm : market.Extends n market')
    {v w : Value} (hv : e.eval market 0 = .ok v) (hw : e.eval market' 0 = .ok w) :
    (∀ x, v.collapse = .number x → w.collapse = .number x) ∧
      (v.collapse.truthy = true → w.collapse.truthy = true) ∧
      (v.collapse = .undefined ∨ v.collapse = .boolean false ∨ w.collapse = v.collapse) := by
  have hcollapse := (he.grows hm 0 (Int.le_refl 0) hv hw).collapse
  refine ⟨fun x hx => ?_, fun ht => ?_, hcollapse⟩
  · rcases hcollapse with h | h | h
    · rw [h] at hx; cases hx
    · rw [h] at hx; cases hx
    · rw [h, hx]
  · rcases hcollapse with h | h | h
    · rw [h] at ht; cases ht
    · rw [h] at ht; cases ht
    · rw [h, ht]

/-- Whether the greatest close of two bars is above the close one bar ago. -/
theorem Expr.Steady.eval_extends_highest :
    let market : Market := ⟨"A", ⟨4, 0⟩, ⟨[1, 2, 4], fun _ => none, by simp⟩, 0.001⟩
    let market' : Market := ⟨"A", ⟨4, 0⟩, ⟨[3, 1, 2, 4], fun _ => none, by simp⟩, 0.001⟩
    let e : Expr := .mk (.comparison ">" (.mk (.call "highest" [.mk (.number 2)]))
      (.mk (.history (.mk (.name "close")) 1)))
    e.Steady ∧ market.Extends 1 market' ∧ e.eval market 0 = .ok (.boolean true) ∧
      e.eval market' 0 = .ok (.boolean true) ∧
      ((Value.boolean true).collapse.truthy = true →
        (Value.boolean true).collapse.truthy = true) := by
  intro market market' e
  have he : e.Steady := .comparison (.call (by decide) (by simpa using .number 2))
    (.history (by decide) (.name _)) rfl rfl
  have hm : market.Extends 1 market' :=
    ⟨rfl, rfl, rfl, ⟨⟨[3], rfl, rfl⟩, fun _ => .none⟩⟩
  have hv : e.eval market 0 = .ok (.boolean true) := rfl
  have hw : e.eval market' 0 = .ok (.boolean true) := rfl
  exact ⟨he, hm, hv, hw, (he.eval_extends hm hv hw).2.1⟩

end

end BarScript
