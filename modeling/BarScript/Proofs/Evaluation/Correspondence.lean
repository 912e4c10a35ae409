import BarScript.Eval
import BarScript.Proofs.Except
import Mathlib.Data.List.Forall2

/-!
# Corresponding evaluations

`Node.eval` says what a node means in any monad with errors.  This file compares two evaluations,
in two monads, for two markets, or for two numbers of bars, once and for all.

A `Correspondence` is a relation between computations that respects returning, going on and
failing; it also carries what is known of the common result.  An `Alignment` says that what a node
reads and calls `bars + shift` bars ago on the one side corresponds to what it reads and calls
`bars` bars ago on the other.

* `Alignment.eval` : if the operands of a node correspond, so does the node.
* `Alignment.eval_expr` : so does every expression, by plain recursion over its nodes.
-/

namespace BarScript

variable {m m' : Type → Type} [Monad m] [MonadExceptOf EvalError m] [Monad m']
  [MonadExceptOf EvalError m']

/-- A relation between computations, with a condition on their common result, that respects what
evaluations are made of.  Only errors with `E` are thrown. -/
structure Correspondence (R : ∀ {α : Type}, m α → m' α → (α → Prop) → Prop)
    (E : EvalError → Prop) : Prop where
  pure : ∀ {α : Type} {P : α → Prop} (a : α), P a → R (pure a) (pure a) P
  bind : ∀ {α β : Type} {x : m α} {y : m' α} {f : α → m β} {g : α → m' β} {P : α → Prop}
    {Q : β → Prop}, R x y P → (∀ a, P a → R (f a) (g a) Q) → R (x >>= f) (y >>= g) Q
  throw : ∀ {α : Type} {P : α → Prop} (e : EvalError), E e → R (throw e) (throw e) P

/-- What has to hold of a node by itself: the errors it raises have `E`, the variable it names has
`A`, and it looks back from bars with `D` to bars with `D`. -/
def Node.Admissible {β : Type} (E : EvalError → Prop) (A : Variable → Prop) (D : Int → Prop) :
    Node β → Prop
  | .name symbol => match Variable.ofName? symbol with
    | none => E (.unknown ⟨.identifier, symbol⟩)
    | some v => A v
  | .call function _ => Function.ofName? function = none → E (.unknown ⟨.function, function⟩)
  | .history _ n => ∀ bars, D bars → D (bars + n)
  | .unary operator _ => ∀ v e, unaryValue operator v = .error e → E e
  | .binary operator _ _ => ∀ v w e, binaryValue operator v w = .error e → E e
  | .comparison operator _ _ => ∀ tolerance v w e,
    compareValues tolerance operator v w = .error e → E e
  | .logical operator _ => operator.toUpper ≠ "AND" → operator.toUpper ≠ "OR" →
    E (.unknownOperator .logical operator)
  | _ => True

/-- Two markets and two accesses that correspond: reading and calling `bars + shift` bars ago on the
one side is reading and calling `bars` bars ago on the other, for variables with `A`, bars with `D`
and arguments with `V`. -/
structure Alignment (R : ∀ {α : Type}, m α → m' α → (α → Prop) → Prop) (E : EvalError → Prop)
    (V : Value → Prop) (A : Variable → Prop) (D : Int → Prop) (shift : Int)
    (market market' : Market) (access : Access m) (access' : Access m') : Prop where
  toCorrespondence : Correspondence R E
  tolerance : market.tolerance = market'.tolerance
  /-- Every value but a price list is known to have `V`. -/
  plain : ∀ v : Value, v.kind ≠ .series → V v
  argument : ∀ e : ArgumentError, E (.argument e)
  succ : ∀ bars, D bars → D (bars + 1)
  read : ∀ v bars, A v → D bars →
    R (v.read market access (bars + shift)) (v.read market' access' bars) V
  call : ∀ f arguments bars, D bars → (∀ v ∈ arguments, V v) →
    R (access.call f arguments (bars + shift)) (access'.call f arguments bars) V

theorem Node.admissible_true {β : Type} (n : Node β) :
    n.Admissible (fun _ => True) (fun _ => True) fun _ => True := by
  cases n <;> simp only [Node.Admissible] <;> first | (split <;> trivial) | simp

/-! ### Parts of an evaluation -/

theorem kind_ne_series_of_unaryValue {operator : String} {v w : Value}
    (h : unaryValue operator v = .ok w) : w.kind ≠ .series := by
  simp only [unaryValue, bind_eq_ok_iff] at h
  obtain ⟨x, -, h⟩ := h
  cases x with
  | none => cases h; simp [Value.kind]
  | some x =>
    obtain ⟨y, -, h⟩ := bind_eq_ok_iff.1 h
    cases h
    simp [Value.kind]

theorem kind_ne_series_of_binaryValue {operator : String} {v w u : Value}
    (h : binaryValue operator v w = .ok u) : u.kind ≠ .series := by
  simp only [binaryValue, bind_eq_ok_iff] at h
  obtain ⟨x, -, h⟩ := h
  cases x with
  | none => cases h; simp [Value.kind]
  | some x =>
    obtain ⟨y, -, h⟩ := bind_eq_ok_iff.1 h
    cases h
    simp [Value.kind]

namespace Correspondence

variable {R : ∀ {α : Type}, m α → m' α → (α → Prop) → Prop} {E : EvalError → Prop}
  {V : Value → Prop} {β : Type}

theorem liftError (h : Correspondence R E) {α : Type} {P : α → Prop} {r : Except EvalError α}
    (he : ∀ e, r = .error e → E e) (hp : ∀ a, r = .ok a → P a) :
    R (liftError r) (liftError r) P := by
  cases r with
  | ok a => exact h.pure a (hp a rfl)
  | error e => exact h.throw e (he e rfl)

/-- Reading a variable, if what it reads corresponds. -/
theorem read (h : Correspondence R E) {market market' : Market} {access : Access m}
    {access' : Access m'} {bars bars' : Int} (hp : ∀ v : Value, v.kind ≠ .series → V v)
    (hs : market.symbol = market'.symbol) {v : Variable}
    (hc : v = .close → market.closeAt bars = market'.closeAt bars' ∧
      ∀ e, market.closeAt bars = .error e → E e)
    (hd : v = .change ∨ v = .changePercent → market.changeAt bars = market'.changeAt bars' ∧
      ∀ e, market.changeAt bars = .error e → E e)
    (hl : ∀ l, v = .line l →
      R (access.seriesAt bars) (access'.seriesAt bars') fun s => V (.series l (s.line l))) :
    R (v.read market access bars) (v.read market' access' bars') V := by
  have hopt : ∀ x : Option Float, V (.ofOption x) := fun x => by
    cases x <;> exact hp _ (by simp [Value.ofOption, Value.kind])
  have hlift : ∀ {r : Except EvalError (Option Float)}, (∀ e, r = .error e → E e) →
      R (BarScript.liftError r) (BarScript.liftError r) fun _ => True :=
    fun he => h.liftError he fun _ _ => trivial
  cases v with
  | close =>
    obtain ⟨heq, he⟩ := hc rfl
    simp only [Variable.read, ← heq]
    exact h.bind (hlift he) fun x _ => h.pure _ (hopt x)
  | change =>
    obtain ⟨heq, he⟩ := hd (.inl rfl)
    simp only [Variable.read, ← heq]
    exact h.bind (hlift he) fun x _ => h.pure _ (hopt x)
  | changePercent =>
    obtain ⟨heq, he⟩ := hd (.inr rfl)
    simp only [Variable.read, ← heq]
    exact h.bind (hlift he) fun x _ => h.pure _ (hopt _)
  | line l => exact h.bind (hl l rfl) fun s hv => h.pure _ hv
  | symbol => simp only [Variable.read, hs]; exact h.pure _ (hp _ (by simp [Value.kind]))
  | truth b => exact h.pure _ (hp _ (by simp [Value.kind]))

theorem allTrue (h : Correspondence R E) {f : β → Meaning m} {g : β → Meaning m'} {bars bars' : Int}
    {operands : List β} (hc : ∀ c ∈ operands, R (f c bars) (g c bars') V) :
    R (allTrue bars (operands.map f)) (allTrue bars' (operands.map g)) fun _ => True := by
  induction operands with
  | nil => exact h.pure true trivial
  | cons c cs ih =>
    refine h.bind (hc c List.mem_cons_self) fun v _ => ?_
    split
    · exact ih fun c hmem => hc c (List.mem_cons_of_mem _ hmem)
    · exact h.pure false trivial

theorem anyTrue (h : Correspondence R E) {f : β → Meaning m} {g : β → Meaning m'} {bars bars' : Int}
    {operands : List β} (hc : ∀ c ∈ operands, R (f c bars) (g c bars') V) :
    R (anyTrue bars (operands.map f)) (anyTrue bars' (operands.map g)) fun _ => True := by
  induction operands with
  | nil => exact h.pure false trivial
  | cons c cs ih =>
    refine h.bind (hc c List.mem_cons_self) fun v _ => ?_
    split
    · exact h.pure true trivial
    · exact ih fun c hmem => hc c (List.mem_cons_of_mem _ hmem)

/-- The values of arguments, evaluated one after another behind those in `done`. -/
theorem mapM_loop (h : Correspondence R E) {f : β → Meaning m} {g : β → Meaning m'}
    {bars bars' : Int} {V : β → Value → Prop} {Q : List Value → Prop} {arguments : List β}
    (hc : ∀ c ∈ arguments, R (f c bars) (g c bars') (V c)) :
    ∀ done : List Value, (∀ vs, List.Forall₂ V arguments vs → Q (done.reverse ++ vs)) →
      R (List.mapM.loop (fun a : Meaning m => a bars) (arguments.map f) done)
        (List.mapM.loop (fun a : Meaning m' => a bars') (arguments.map g) done) Q := by
  induction arguments with
  | nil => exact fun done hq => h.pure _ (by simpa using hq [] .nil)
  | cons c cs ih =>
    intro done hq
    refine h.bind (hc c List.mem_cons_self) fun v hv => ?_
    refine ih (fun c hmem => hc c (List.mem_cons_of_mem _ hmem)) (v :: done) fun vs hvs => ?_
    simpa using hq (v :: vs) (.cons hv hvs)

/-- The values of arguments, each with what is known of its argument. -/
theorem mapM_forall₂ (h : Correspondence R E) {f : β → Meaning m} {g : β → Meaning m'}
    {bars bars' : Int} {V : β → Value → Prop} {arguments : List β}
    (hc : ∀ c ∈ arguments, R (f c bars) (g c bars') (V c)) :
    R ((arguments.map f).mapM fun a => a bars) ((arguments.map g).mapM fun a => a bars')
      (List.Forall₂ V arguments) :=
  h.mapM_loop hc [] fun _ hvs => hvs

theorem mapM (h : Correspondence R E) {f : β → Meaning m} {g : β → Meaning m'} {bars bars' : Int}
    {arguments : List β} (hc : ∀ c ∈ arguments, R (f c bars) (g c bars') V) :
    R ((arguments.map f).mapM fun a => a bars) ((arguments.map g).mapM fun a => a bars')
      fun vs => ∀ v ∈ vs, V v := by
  refine h.mapM_loop (V := fun _ => V) hc [] fun vs hvs => ?_
  clear hc
  induction hvs with
  | nil => simp
  | cons hv _ ih => exact List.forall_mem_cons.2 ⟨hv, ih⟩

end Correspondence

namespace Alignment

variable {R : ∀ {α : Type}, m α → m' α → (α → Prop) → Prop} {E : EvalError → Prop}
  {V : Value → Prop} {A : Variable → Prop} {D : Int → Prop} {shift : Int}
  {market market' : Market} {access : Access m} {access' : Access m'} {β : Type}
  {f : β → Meaning m} {g : β → Meaning m'}

theorem toNumber (h : Alignment R E V A D shift market market' access access') (what : String)
    (v : Value) : R (liftError (v.toNumber what)) (liftError (v.toNumber what)) fun _ => True := by
  refine h.toCorrespondence.liftError (fun e he => ?_) fun _ _ => trivial
  cases v <;> simp only [Value.toNumber, reduceCtorEq, Except.error.injEq] at he <;> subst he <;>
    exact h.argument _

theorem crossingPoints (h : Alignment R E V A D shift market market' access access')
    (function : String) {c : β} {bars : Int} (hd : D bars)
    (hc : ∀ bars, D bars → R (f c (bars + shift)) (g c bars) V) :
    R (crossingPoints function (f c) (bars + shift)) (crossingPoints function (g c) bars)
      fun _ => True := by
  have hr := h.toCorrespondence
  -- a crossing also looks one bar further back
  have hnext : R (f c (bars + shift + 1)) (g c (bars + 1)) V := by
    have := hc (bars + 1) (h.succ bars hd)
    rwa [Int.add_right_comm] at this
  refine hr.bind (hc bars hd) fun v _ => ?_
  split
  · exact hr.pure _ trivial
  · refine hr.bind (h.toNumber function v) fun now _ => ?_
    refine hr.bind hnext fun w _ => hr.bind (h.toNumber function w) fun before _ => ?_
    cases now with
    | none => exact hr.pure _ trivial
    | some x => exact hr.pure _ trivial

theorem evalCrossing (h : Alignment R E V A D shift market market' access access')
    (function : String) (up : Bool) {arguments : List β} {bars : Int} (hd : D bars)
    (hc : ∀ c ∈ arguments, ∀ bars, D bars → R (f c (bars + shift)) (g c bars) V) :
    R (evalCrossing function up (arguments.map f) (bars + shift))
      (evalCrossing function up (arguments.map g) bars) V := by
  have hr := h.toCorrespondence
  match arguments with
  | [c, d] =>
    refine hr.bind (h.crossingPoints function hd (hc c (by simp))) fun a _ => ?_
    refine hr.bind (h.crossingPoints function hd (hc d (by simp))) fun b _ => ?_
    exact hr.pure _ (h.plain _ (by simp [Value.kind]))
  | [] => exact hr.throw _ (h.argument _)
  | [_] => exact hr.throw _ (h.argument _)
  | _ :: _ :: _ :: _ => exact hr.throw _ (h.argument _)

theorem evalCall (h : Alignment R E V A D shift market market' access access')
    {function : String} {arguments : List β} {bars : Int} (hd : D bars)
    (hu : Function.ofName? function = none → E (.unknown ⟨.function, function⟩))
    (hc : ∀ c ∈ arguments, ∀ bars, D bars → R (f c (bars + shift)) (g c bars) V) :
    R (evalCall access function (arguments.map f) (bars + shift))
      (evalCall access' function (arguments.map g) bars) V := by
  have hr := h.toCorrespondence
  unfold BarScript.evalCall
  cases hf : Function.ofName? function with
  | none => exact hr.throw _ (hu hf)
  | some called =>
    cases called with
    | crossing up => exact h.evalCrossing function up hd hc
    | builtin b =>
      refine hr.bind (hr.mapM fun c hmem => hc c hmem bars hd) fun vs hvs => ?_
      exact h.call b vs bars hd hvs

/-! ### Nodes and expressions -/

/-- **If the operands of a node correspond, so does the node.** -/
theorem eval (h : Alignment R E V A D shift market market' access access') {n : Node β}
    (hn : n.Admissible E A D)
    (hc : ∀ c ∈ n.children, ∀ bars, D bars → R (f c (bars + shift)) (g c bars) V) {bars : Int}
    (hd : D bars) :
    R ((n.map f).eval market access (bars + shift)) ((n.map g).eval market' access' bars) V := by
  have hr := h.toCorrespondence
  have hbool : ∀ b, V (.boolean b) := fun b => h.plain _ (by simp [Value.kind])
  cases n with
  | number x => exact hr.pure _ (h.plain _ (by simp [Value.kind]))
  | text s => exact hr.pure _ (h.plain _ (by simp [Value.kind]))
  | name symbol =>
    simp only [Node.Admissible] at hn
    simp only [Node.map, Node.eval]
    cases hv : Variable.ofName? symbol with
    | none => simp only [hv] at hn; exact hr.throw _ hn
    | some v => simp only [hv] at hn; exact h.read v bars hn hd
  | call function arguments => exact h.evalCall hd hn hc
  | history c n =>
    -- the shift and the bars of the node add up
    have := hc c (by simp [Node.children]) (bars + n) (hn bars hd)
    rwa [Int.add_right_comm] at this
  | unary operator c =>
    refine hr.bind (hc c (by simp [Node.children]) bars hd) fun v _ => ?_
    exact hr.liftError (hn v) fun w hw => h.plain w (kind_ne_series_of_unaryValue hw)
  | binary operator c d =>
    refine hr.bind (hc c (by simp [Node.children]) bars hd) fun v _ => ?_
    refine hr.bind (hc d (by simp [Node.children]) bars hd) fun w _ => ?_
    exact hr.liftError (hn v w) fun u hu => h.plain u (kind_ne_series_of_binaryValue hu)
  | comparison operator c d =>
    refine hr.bind (hc c (by simp [Node.children]) bars hd) fun v _ => ?_
    refine hr.bind (hc d (by simp [Node.children]) bars hd) fun w _ => ?_
    simp only [h.tolerance]
    refine hr.bind (hr.liftError (P := fun _ => True) (hn _ v w) fun _ _ => trivial) fun b _ => ?_
    exact hr.pure _ (hbool b)
  | logical operator operands =>
    have ha : ∀ c ∈ operands, R (f c (bars + shift)) (g c bars) V :=
      fun c hmem => hc c hmem bars hd
    simp only [Node.map, Node.eval]
    split
    · exact hr.bind (hr.allTrue ha) fun b _ => hr.pure _ (hbool b)
    · split
      · exact hr.bind (hr.anyTrue ha) fun b _ => hr.pure _ (hbool b)
      · rename_i hand hor
        exact hr.throw _ (hn hand hor)
  | negation c =>
    refine hr.bind (hc c (by simp [Node.children]) bars hd) fun v _ => ?_
    split
    · exact hr.pure _ (h.plain _ (by simp [Value.kind]))
    · exact hr.pure _ (hbool _)

/-- **Evaluations of one expression by recursion over its nodes correspond.** -/
theorem eval_expr (h : Alignment R E V A D shift market market' access access')
    (hn : ∀ n : Node Expr, n.Admissible E A D) (e : Expr) :
    ∀ bars, D bars → R (e.fold (Node.eval market access) (bars + shift))
      (e.fold (Node.eval market' access') bars) V := by
  refine Expr.node_induction (P := fun e => ∀ bars, D bars →
    R (e.fold (Node.eval market access) (bars + shift)) (e.fold (Node.eval market' access') bars) V)
    (fun n ih bars hd => ?_) e
  rw [Expr.fold_mk, Expr.fold_mk]
  exact h.eval (hn n) ih hd

end Alignment

end BarScript
