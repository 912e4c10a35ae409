import BarScript.Proofs.Grammar.Filled
import BarScript.Proofs.Indicator.Fault

/-!
# Expressions with a sort

A sort says what kind of values an expression has (`Value.Has`): above all whether they are numbers,
and for the settings of indicators that they are positive or whole.  The sorts of an expression are
computed from the sorts of its operands (`Expr.sorts`), where some names may stand for numbers of
which the sorts are given.  With such numbers in their place the expression keeps its sorts
(`Expr.sorts_subst`).

A function that squares numbers has a sort only where squares are allowed, which `squares` says.
-/

namespace BarScript

open Grammar Number

/-! ### Sorts of values -/

/-- A sort of values. -/
inductive ValueSort where
  | boolean
  /-- Whatever stands for a number: a number, a price list, or undefined. -/
  | number
  | list
  /-- A finite number above zero. -/
  | positive
  /-- A finite whole number above zero. -/
  | whole
  deriving DecidableEq

/-- Which sorts something has. -/
abbrev Sorts := ValueSort → Bool

namespace Value

/-- Whether a value has a sort. -/
def Has : ValueSort → Value → Prop
  | .boolean, v => v.kind = .boolean
  | .number, v => v.kind ≠ .boolean ∧ v.kind ≠ .text
  | .list, v => v.kind = .series
  | .positive, v => ∃ x, v = .number x ∧ IsPositive x
  | .whole, v => ∃ x, v = .number x ∧ IsPositive x ∧ isWhole x = true

/-- A value has the sorts it is said to have. -/
def Fits (sorts : Sorts) (v : Value) : Prop := ∀ t, sorts t = true → v.Has t

theorem has_ofOption (x : Option Float) : (ofOption x).Has .number := by
  cases x <;> exact ⟨by simp [ofOption, kind], by simp [ofOption, kind]⟩

end Value

/-- The sorts of a number. -/
def numberSorts (x : Float) : Sorts
  | .number => true
  | .positive => IsPositive x
  | .whole => decide (IsPositive x) && isWhole x
  | _ => false

theorem fits_numberSorts (x : Float) : (Value.number x).Fits (numberSorts x) := by
  intro t ht
  cases t with
  | number => exact ⟨by simp [Value.kind], by simp [Value.kind]⟩
  | positive => exact ⟨x, rfl, of_decide_eq_true ht⟩
  | whole =>
    obtain ⟨hpositive, hwhole⟩ := Bool.and_eq_true_iff.1 ht
    exact ⟨x, rfl, of_decide_eq_true hpositive, hwhole⟩
  | boolean | list => cases ht

/-! ### Sorts of expressions -/

/-- The sorts of a variable. -/
def Variable.sorts : Variable → Sorts
  | .close, .number | .change, .number | .changePercent, .number => true
  | .line _, .number | .line _, .list => true
  | .truth _, .boolean => true
  | _, _ => false

/-- The sort of a setting. -/
def Parameter.sort (p : Parameter) : ValueSort := if p.fractional then .positive else .whole

/-- Whether arguments can be the settings of a function, all of which are given. -/
def fitParameters : List Parameter → List Sorts → Bool
  | [], [] => true
  | p :: ps, sorts :: rest => sorts p.sort && fitParameters ps rest
  | _, _ => false

/-- Whether arguments can be those of a function. -/
def Builtin.accepts (squares : Bool) : Builtin → List Sorts → Bool
  | price f, arguments => (squares || decide ¬f.IsBand) &&
    (fitParameters f.parameters arguments ||
      arguments.head?.any (· .list) && fitParameters f.parameters arguments.tail)
  | bar f, arguments => fitParameters f.parameters arguments
  | arithmetic _, _ => false

/-- Whether arguments can be those of a function; no crossing has a sort. -/
def Function.accepts (squares : Bool) : Function → List Sorts → Bool
  | builtin f, arguments => f.accepts squares arguments
  | crossing _, _ => false

theorem exists_sort_of_fitParameters {ps : List Parameter} {xs : List Sorts}
    (h : fitParameters ps xs = true) : ∀ x ∈ xs, ∃ t, x t = true := by
  induction xs generalizing ps with
  | nil => simp
  | cons x xs ih =>
    cases ps with
    | nil => cases h
    | cons p ps =>
      rw [fitParameters, Bool.and_eq_true] at h
      exact List.forall_mem_cons.2 ⟨⟨_, h.1⟩, ih h.2⟩

theorem Builtin.exists_sort {squares : Bool} {f : Builtin} {xs : List Sorts}
    (h : f.accepts squares xs = true) : ∀ x ∈ xs, ∃ t, x t = true := by
  cases f with
  | price f =>
    simp only [accepts, Bool.and_eq_true, Bool.or_eq_true] at h
    rcases h.2 with hfit | ⟨hlist, hfit⟩
    · exact exists_sort_of_fitParameters hfit
    · cases xs with
      | nil => cases hlist
      | cons x xs => exact List.forall_mem_cons.2 ⟨⟨_, hlist⟩, exists_sort_of_fitParameters hfit⟩
  | bar f => exact exists_sort_of_fitParameters h
  | arithmetic f => cases h

/-- The sorts of a node from those of its operands. -/
def Node.sorts (parameter : String → Option Sorts) (squares : Bool) : Node Sorts → Sorts
  | .number x, t => numberSorts x t
  | .text _, _ => false
  | .name symbol, t =>
    ((parameter symbol).or ((Variable.ofName? symbol).map Variable.sorts)).any (· t)
  | .call function arguments, t =>
    t == .number && (Function.ofName? function).any (·.accepts squares arguments)
  | .history operand bars, t => decide (0 ≤ bars) && operand t
  | .unary operator operand, t =>
    t == .number && ["+", "-"].contains operator && operand .number
  | .binary operator left right, t =>
    t == .number && ["+", "-", "*", "/"].contains operator && left .number && right .number
  | .comparison operator left right, t =>
    t == .boolean && Statement.comparisons.contains operator && left .number && right .number
  | .logical operator operands, t =>
    t == .boolean && ["AND", "OR"].contains operator && operands.all (· .boolean)
  | .negation operand, t => t == .boolean && operand .boolean

/-- The sorts of an expression, some names of which stand for numbers. -/
def Expr.sorts (parameter : String → Option Sorts) (squares : Bool) : Expr → Sorts :=
  Expr.fold (Node.sorts parameter squares)

/-! ### Numbers in the place of names -/

section

variable {squares : Bool} {parameter : String → Option Sorts}

theorem fitParameters_mono {ps : List Parameter} {xs ys : List Sorts}
    (h : List.Forall₂ (fun x y : Sorts => ∀ t, x t = true → y t = true) xs ys)
    (hfit : fitParameters ps xs = true) : fitParameters ps ys = true := by
  induction h generalizing ps with
  | nil => exact hfit
  | cons hxy _ ih =>
    cases ps with
    | nil => cases hfit
    | cons p ps =>
      rw [fitParameters, Bool.and_eq_true] at hfit ⊢
      exact ⟨hxy _ hfit.1, ih hfit.2⟩

theorem Builtin.accepts_mono {f : Builtin} {xs ys : List Sorts}
    (h : List.Forall₂ (fun x y : Sorts => ∀ t, x t = true → y t = true) xs ys)
    (haccepts : f.accepts squares xs = true) : f.accepts squares ys = true := by
  cases f with
  | price f =>
    simp only [accepts, Bool.and_eq_true, Bool.or_eq_true] at haccepts ⊢
    refine ⟨haccepts.1, haccepts.2.imp (fitParameters_mono h) fun hlist => ?_⟩
    cases h with
    | nil => exact hlist
    | cons hxy htail => exact ⟨hxy _ hlist.1, fitParameters_mono htail hlist.2⟩
  | bar f => exact fitParameters_mono h haccepts
  | arithmetic f => cases haccepts

theorem Function.accepts_mono {f : Function} {xs ys : List Sorts}
    (h : List.Forall₂ (fun x y : Sorts => ∀ t, x t = true → y t = true) xs ys)
    (haccepts : f.accepts squares xs = true) : f.accepts squares ys = true := by
  cases f with
  | builtin f => exact Builtin.accepts_mono h haccepts
  | crossing up => cases haccepts

/-- Operands with more sorts give a node with more sorts. -/
theorem Node.sorts_mono {β : Type} {n : Node β} {f g : β → Sorts}
    {parameter' : String → Option Sorts} (hname : ∀ s, n ≠ .name s)
    (h : ∀ c ∈ n.children, ∀ t, f c t = true → g c t = true) {t : ValueSort}
    (ht : (n.map f).sorts parameter squares t = true) :
    (n.map g).sorts parameter' squares t = true := by
  cases n with
  | number x | text s => exact ht
  | name s => exact absurd rfl (hname s)
  | call function arguments =>
    simp only [map, sorts, Bool.and_eq_true, Option.any_eq_true] at ht ⊢
    obtain ⟨hnumber, called, hcalled, haccepts⟩ := ht
    refine ⟨hnumber, called, hcalled, Function.accepts_mono ?_ haccepts⟩
    rw [List.forall₂_map_left_iff, List.forall₂_map_right_iff, List.forall₂_same]
    exact h
  | history c bars | unary operator c | negation c =>
    simp only [map, sorts, Bool.and_eq_true] at ht ⊢
    exact ⟨ht.1, h c (by simp [children]) _ ht.2⟩
  | binary operator c d | comparison operator c d =>
    simp only [map, sorts, Bool.and_eq_true] at ht ⊢
    exact ⟨⟨ht.1.1, h c (by simp [children]) _ ht.1.2⟩, h d (by simp [children]) _ ht.2⟩
  | logical operator cs =>
    simp only [map, sorts, Bool.and_eq_true, List.all_map, List.all_eq_true] at ht ⊢
    exact ⟨ht.1, fun c hc => h c hc _ (ht.2 c hc)⟩

/-- **With numbers in the place of names an expression keeps its sorts.** -/
theorem Expr.sorts_subst {leaves : Leaves}
    (hsome : ∀ s sorts, parameter s = some sorts → ∃ x, leaves s = some (.mk (.number x)) ∧
      ∀ t, sorts t = true → numberSorts x t = true)
    (hnone : ∀ s, parameter s = none → leaves s = none) {e : Expr} :
    ∀ t, e.sorts parameter squares t = true →
      (e.subst leaves).sorts (fun _ => none) squares t = true := by
  induction e using Expr.node_induction with
  | h n ih =>
    intro t ht
    by_cases hn : ∃ s, n = .name s
    · obtain ⟨s, rfl⟩ := hn
      rw [subst_name]
      cases hs : parameter s with
      | none =>
        rw [hnone s hs]
        rw [sorts, fold_mk, Node.map, Node.sorts, hs] at ht
        exact ht
      | some given =>
        obtain ⟨x, hx, hgiven⟩ := hsome s given hs
        rw [hx]
        rw [sorts, fold_mk, Node.map, Node.sorts, hs] at ht
        exact hgiven t ht
    · have hn : ∀ s, n ≠ .name s := fun s heq => hn ⟨s, heq⟩
      rw [subst_mk _ hn, sorts, fold_mk, Node.map_map]
      rw [sorts, fold_mk] at ht
      exact Node.sorts_mono hn ih ht

end

end BarScript
