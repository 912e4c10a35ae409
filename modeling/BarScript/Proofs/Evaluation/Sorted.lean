import BarScript.Proofs.Evaluation.Containment
import BarScript.Proofs.Evaluation.Sorts

/-!
# Evaluating expressions with a sort

An expression with a sort has values of this sort, and its evaluation does not fail, whatever calls
and histories are remembered (`keeps_meaning`).  The one exception is a square that overflows
(`OnlySquares`), where squares are allowed.

Operators on what stands for numbers do not fail (`exists_unaryValue` and so on), and neither does a
call whose arguments fit: its settings are whole where they have to be and not too large
(`exists_settings`), so only the indicator itself is left (`Builtin.onlySquares_apply`).
-/

namespace BarScript

open Number

/-! ### Operators -/

section

variable {operator : String} {v w : Value}

theorem Value.Has.exists_toNumber (h : v.Has .number) (what : String) :
    ∃ x, v.toNumber what = .ok x := by
  cases v with
  | boolean b => exact absurd rfl h.1
  | text s => exact absurd rfl h.2
  | undefined | number x | series l points => exact ⟨_, rfl⟩

theorem exists_unaryValue (hop : operator ∈ ["+", "-"]) (hv : v.Has .number) :
    ∃ u, unaryValue operator v = .ok u ∧ u.Has .number := by
  obtain ⟨x, hx⟩ := hv.exists_toNumber s!"Unary '{operator}'"
  rw [unaryValue, hx]
  cases x with
  | none => exact ⟨_, rfl, Value.has_ofOption none⟩
  | some x =>
    obtain ⟨y, hy⟩ : ∃ y, unaryResult operator x = .ok y := by
      simp only [List.mem_cons, List.not_mem_nil, or_false] at hop
      rcases hop with rfl | rfl <;> exact ⟨_, rfl⟩
    refine ⟨.number y, ?_, Value.has_ofOption (some y)⟩
    simp only [bind, Except.bind, hy, pure, Except.pure]

theorem exists_binaryValue (hop : operator ∈ ["+", "-", "*", "/"]) (hv : v.Has .number)
    (hw : w.Has .number) : ∃ u, binaryValue operator v w = .ok u ∧ u.Has .number := by
  obtain ⟨x, hx⟩ := hv.exists_toNumber s!"Operator '{operator}'"
  obtain ⟨y, hy⟩ := hw.exists_toNumber s!"Operator '{operator}'"
  rw [binaryValue, bothNumbers, hx, hy]
  have hnone := Value.has_ofOption none
  cases x with
  | none => exact ⟨_, rfl, hnone⟩
  | some x =>
    cases y with
    | none => exact ⟨_, rfl, hnone⟩
    | some y =>
      obtain ⟨z, hz⟩ : ∃ z, binaryResult operator x y = .ok z := by
        simp only [List.mem_cons, List.not_mem_nil, or_false] at hop
        rcases hop with rfl | rfl | rfl | rfl
        · exact ⟨_, rfl⟩
        · exact ⟨_, rfl⟩
        · exact ⟨_, rfl⟩
        · -- a quotient by zero is zero
          change ∃ z, ofFault (Scalar.quotient x y) = .ok z
          rw [quotient_eq_ok]
          exact ⟨_, rfl⟩
      refine ⟨.number z, ?_, Value.has_ofOption (some z)⟩
      simp only [bind, Except.bind, hz, pure, Except.pure]

theorem exists_compareValues (hop : operator ∈ Statement.comparisons) (hv : v.Has .number)
    (hw : w.Has .number) (tolerance : Float) :
    ∃ b, compareValues tolerance operator v w = .ok b := by
  obtain ⟨x, hx⟩ := hv.exists_toNumber s!"Operator '{operator}'"
  obtain ⟨y, hy⟩ := hw.exists_toNumber s!"Operator '{operator}'"
  have hnumbers : ∀ x y, ∃ b, compareNumbers tolerance operator x y = .ok b := fun x y => by
    simp only [Statement.comparisons, List.mem_cons, List.not_mem_nil, or_false] at hop
    rcases hop with rfl | rfl | rfl | rfl | rfl | rfl <;> exact ⟨_, rfl⟩
  unfold compareValues
  split
  -- a boolean or a text on one side is excluded
  iterate 10
    · first
      | exact absurd rfl hv.1
      | exact absurd rfl hv.2
      | exact absurd rfl hw.1
      | exact absurd rfl hw.2
  rw [hx, hy]
  cases x with
  | none => exact ⟨_, rfl⟩
  | some x =>
    cases y with
    | none => exact ⟨_, rfl⟩
    | some y => exact hnumbers x y

end

/-! ### Calls -/

/-- The one error there may be. -/
def OnlySquares (squares : Bool) (e : EvalError) : Prop :=
  squares = true ∧ e = .fault .squareOverflow

section

variable {squares : Bool} {sorts : List Sorts} {vs : List Value}

/-- A value of the sort of a parameter is one of its settings. -/
theorem exists_setting {p : Parameter} {v : Value} (h : v.Has p.sort) (function : String) :
    v.kind = .number ∧ ∃ s, (if p.fractional then (v.toNumber function).map (·.map Setting.fraction)
      else (v.toWhole function).map (·.map Setting.whole)) = .ok (some s) ∧
      ∀ n : Int, s = .whole n → n ≤ greatest := by
  rw [Parameter.sort] at h
  cases hp : p.fractional with
  | true =>
    rw [hp] at h
    obtain ⟨x, rfl, -⟩ := h
    exact ⟨rfl, .fraction x, rfl, fun n hn => by cases hn⟩
  | false =>
    rw [hp] at h
    obtain ⟨x, rfl, hpositive, hwhole⟩ := h
    obtain ⟨n, hn, -, hle⟩ := hpositive.exists_truncate hwhole
    refine ⟨rfl, .whole n, ?_, fun m hm => by cases hm; exact hle⟩
    simp [Value.toWhole, Value.toNumber, hn, hwhole, bind, Except.bind, pure, Except.pure,
      Except.map]

theorem exists_readSettings {ps : List Parameter} (hfit : fitParameters ps sorts = true)
    (hvs : List.Forall₂ Value.Fits sorts vs) (function : String) :
    vs.length = ps.length ∧ (∀ v ∈ vs, v.kind = .number) ∧
      ∃ given, readSettings function ps vs = .ok (some given) ∧
        ∀ n : Int, .whole n ∈ given → n ≤ greatest := by
  induction hvs generalizing ps with
  | nil =>
    cases ps with
    | nil =>
      exact ⟨rfl, fun v h => absurd h List.not_mem_nil, [], rfl,
        fun n h => absurd h List.not_mem_nil⟩
    | cons p ps => cases hfit
  | @cons sort v sorts vs hv _ ih =>
    cases ps with
    | nil => cases hfit
    | cons p ps =>
      rw [fitParameters, Bool.and_eq_true] at hfit
      obtain ⟨hkind, s, hs, hle⟩ := exists_setting (hv _ hfit.1) function
      obtain ⟨hlength, hkinds, given, hgiven, hles⟩ := ih hfit.2
      refine ⟨by simp [hlength], List.forall_mem_cons.2 ⟨hkind, hkinds⟩, s :: given, ?_,
        fun n hn => ?_⟩
      · rw [readSettings]
        split at hs <;> rename_i hp
        · rw [if_pos hp, hs]
          simp only [bind, Except.bind, hgiven]
          rfl
        · rw [if_neg hp, hs]
          simp only [bind, Except.bind, hgiven]
          rfl
      · rcases List.mem_cons.1 hn with rfl | hn
        · exact hle n rfl
        · exact hles n hn

/-- **Arguments that fit are settings**, and none of them is too large. -/
theorem exists_settings {ps : List Parameter} (hfit : fitParameters ps sorts = true)
    (hvs : List.Forall₂ Value.Fits sorts vs) (function : String) :
    ∃ given, settings function ps vs = .ok (some given) ∧
      ∀ n : Int, .whole n ∈ given → n ≤ greatest := by
  obtain ⟨hlength, -, given, hgiven, hle⟩ := exists_readSettings hfit hvs function
  refine ⟨given, ?_, hle⟩
  have hleast := List.countP_le_length (p := fun p : Parameter => p.default?.isNone) (l := ps)
  rw [settings, checkCount, hlength, if_neg (by simp; omega), hgiven]
  rfl

theorem onlySquares_price {f : PriceFunction} (function : String) (prices : List Float)
    (hband : (squares || decide ¬f.IsBand) = true) (hfit : fitParameters f.parameters sorts = true)
    (hvs : List.Forall₂ Value.Fits sorts vs) {e : EvalError}
    (he : (do
      match ← settings function f.parameters vs with
      | none => return none
      | some given => ofFault (f.compute prices given)) = .error e) : OnlySquares squares e := by
  obtain ⟨given, hgiven, -⟩ := exists_settings hfit hvs function
  rw [hgiven] at he
  obtain ⟨fault, hfault, rfl⟩ := mapError_eq_error_iff.1 he
  obtain ⟨hisBand, rfl⟩ := f.fails_compute prices given fault hfault
  refine ⟨?_, rfl⟩
  rw [Bool.or_eq_true, decide_eq_true_eq] at hband
  exact hband.resolve_right fun h => h hisBand

/-- Without price lists among the arguments the highs, lows and closes are those of the market. -/
theorem exists_barSources (hkinds : ∀ v ∈ vs, v.kind = .number) (function : String) (s : Series) :
    ∃ sources, barSources function vs s = .ok (sources, vs) ∧
      ∀ highs lows closes, sources = some (highs, lows, closes) →
        highs.length = closes.length ∧ lows.length = closes.length := by
  have hnone : (vs.take 3).filterMap Value.points? = [] := by
    refine List.filterMap_eq_nil_iff.2 fun v hv => ?_
    have := hkinds v (List.mem_of_mem_take hv)
    cases v <;> first | rfl | cases this
  rw [barSources, hnone]
  cases hh : s.companion .highs with
  | none => exact ⟨none, rfl, fun _ _ _ h => by cases h⟩
  | some highs =>
    cases hl : s.companion .lows with
    | none => exact ⟨none, rfl, fun _ _ _ h => by cases h⟩
    | some lows =>
      refine ⟨_, rfl, fun _ _ _ h => ?_⟩
      cases h
      exact ⟨s.aligned _ _ hh, s.aligned _ _ hl⟩

/-- **A call with arguments that fit does not fail**, but for squares. -/
theorem Builtin.onlySquares_apply {f : Builtin} (h : f.accepts squares sorts = true)
    (hvs : List.Forall₂ Value.Fits sorts vs) {s : Series} {e : EvalError}
    (he : f.apply vs s = .error e) : OnlySquares squares e := by
  cases f with
  | price g =>
    obtain ⟨hband, hfit⟩ := Bool.and_eq_true_iff.1 h
    rcases Bool.or_eq_true_iff.1 hfit with hfit | hfit
    · -- the settings only
      have hkinds := (exists_readSettings hfit hvs "").2.1
      refine onlySquares_price (price g).name s.closes hband hfit hvs ?_
      cases vs with
      | nil => exact he
      | cons v vs =>
        have hv := hkinds v List.mem_cons_self
        cases v with
        | number x => exact he
        | _ => cases hv
    · -- a price list in front
      cases hvs with
      | nil => cases hfit
      | @cons sort v sorts vs hv htail =>
        obtain ⟨hlist, hfit⟩ := Bool.and_eq_true_iff.1 hfit
        have hv : v.kind = .series := hv _ hlist
        cases v with
        | series l points => exact onlySquares_price (price g).name points hband hfit htail he
        | _ => cases hv
  | bar g =>
    obtain ⟨-, hkinds, -⟩ := exists_readSettings h hvs ""
    obtain ⟨sources, hsources, haligned⟩ := exists_barSources hkinds (bar g).name s
    obtain ⟨given, hgiven, hle⟩ := exists_settings h hvs (bar g).name
    simp only [apply, hsources, hgiven, bind, Except.bind] at he
    cases sources with
    | none => cases he
    | some sources =>
      obtain ⟨highs, lows, closes⟩ := sources
      obtain ⟨hhighs, hlows⟩ := haligned highs lows closes rfl
      obtain ⟨x, hx⟩ := g.exists_compute hhighs hlows hle
      simp only [hx] at he
      cases he
  | arithmetic g => cases h

end

/-! ### Evaluation with a memory -/

/-- The sorts of an expression whose names stand for themselves. -/
abbrev Expr.ownSorts (squares : Bool) : Expr → Sorts := Expr.sorts (fun _ => none) squares

/-- The values that are remembered have the sorts of their nodes. -/
def Memo.Fits (squares : Bool) (g : Graph) (memo : Memo) : Prop :=
  ∀ (i : Nat) (bars : Int) (v : Value), memo.values[(i, bars)]? = some v →
    v.Fits ((g.expand i).ownSorts squares)

/-- A result with a property, or the one error there may be. -/
def Gives (squares : Bool) {α : Type} (P : α → Prop) : Except EvalError α → Prop
  | .ok a => P a
  | .error e => OnlySquares squares e

/-- From a memory of values that fit, the first evaluation gives a result with a property, unless
it fails because of squares, and it leaves such a memory; the second one does not matter. -/
def Keeps (squares : Bool) (g : Graph) {α : Type} (x _ : Recall α) (P : α → Prop) : Prop :=
  ∀ memo : Memo, memo.Fits squares g →
    Gives squares P (x.runOn memo).1 ∧ (x.runOn memo).2.Fits squares g

section

variable {squares : Bool} {g : Graph} {market : Market} {bars : Int}

theorem Value.Has.fits {v : Value} {t : ValueSort} {sorts : Sorts} (h : v.Has t)
    (hs : ∀ u, sorts u = true → u = t) : v.Fits sorts := fun u hu => hs u hu ▸ h

theorem Memo.Fits.of_values_eq {memo memo' : Memo} (h : memo.Fits squares g)
    (heq : memo'.values = memo.values) : memo'.Fits squares g := by
  rw [Memo.Fits, heq]
  exact h

theorem Memo.Fits.addValue {memo : Memo} (h : memo.Fits squares g) {i : Nat} {v : Value}
    (hv : v.Fits ((g.expand i).ownSorts squares)) :
    ({ memo with values := memo.values.insert (i, bars) v } : Memo).Fits squares g := by
  intro j b w hw
  simp only [Std.HashMap.getElem?_insert, beq_iff_eq, Prod.mk.injEq] at hw
  split at hw
  · rename_i heq
    obtain ⟨rfl, rfl⟩ := heq
    cases hw
    exact hv
  · exact h j b w hw

theorem Keeps.mono {α : Type} {x y : Recall α} {P Q : α → Prop} (h : Keeps squares g x y P)
    (hPQ : ∀ a, P a → Q a) : Keeps squares g x y Q := by
  intro memo hm
  obtain ⟨hgives, hm'⟩ := h memo hm
  refine ⟨?_, hm'⟩
  cases hrun : (x.runOn memo).1 with
  | ok a =>
    rw [hrun] at hgives
    exact hPQ a hgives
  | error e =>
    rw [hrun] at hgives
    exact hgives

theorem keeps_correspondence :
    Correspondence (Keeps squares g) (OnlySquares squares) where
  pure a ha memo hm := ⟨ha, hm⟩
  throw e he memo hm := ⟨he, hm⟩
  bind := by
    intro α β x y f k P Q hx hf memo hm
    rw [Recall.runOn_bind]
    obtain ⟨hgives, hm'⟩ := hx memo hm
    rcases hrun : x.runOn memo with ⟨_ | a, memo'⟩
    · rw [hrun] at hgives hm'
      exact ⟨hgives, hm'⟩
    · rw [hrun] at hgives hm'
      exact hf a hgives memo' hm'

theorem keeps_series {P : Series → Prop} (hp : ∀ s, P s) :
    Keeps squares g (recallSeries market bars) (recallSeries market bars) P := by
  intro memo hm
  obtain ⟨s, memo', hs, heq⟩ := exists_recallSeries market bars memo
  rw [hs]
  exact ⟨hp s, hm.of_values_eq heq⟩

theorem keeps_call {f : Builtin} {sorts : List Sorts} {vs : List Value}
    (h : f.accepts squares sorts = true) (hvs : List.Forall₂ Value.Fits sorts vs) :
    Keeps squares g (recallCall market f vs bars) (recallCall market f vs bars)
      (Value.Has .number) := by
  intro memo hm
  obtain ⟨s, memo', hs, heq⟩ := exists_recallSeries market bars memo
  simp only [recallCall, Recall.runOn_bind, Recall.runOn_get]
  cases memo.call? ⟨f, vs.map Value.key, bars⟩ with
  | some r => exact ⟨Value.has_ofOption r, hm⟩
  | none =>
    simp only [Recall.runOn_bind, hs, Recall.runOn_liftError]
    cases hr : f.apply vs s with
    | ok r => exact ⟨Value.has_ofOption r, hm.of_values_eq heq⟩
    | error e => exact ⟨Builtin.onlySquares_apply h hvs hr, hm.of_values_eq heq⟩

/-- **A variable with a sort is read**, and it has values of its sorts. -/
theorem keeps_read {v : Variable} {t : ValueSort} (ht : v.sorts t = true) (hbars : 0 ≤ bars) :
    Keeps squares g (v.read market (Access.recall market) bars)
      (v.read market (Access.recall market) bars) (Value.Fits v.sorts) := by
  have hr : Correspondence (Keeps squares g) (OnlySquares squares) := keeps_correspondence
  have hnumber : ∀ (x : Option Float) {v : Variable}, (∀ u, v.sorts u = true → u = .number) →
      (Value.ofOption x).Fits v.sorts := fun x v hv => (Value.has_ofOption x).fits hv
  cases v with
  | close =>
    obtain ⟨x, hx⟩ := market.exists_closeAt hbars
    simp only [Variable.read, hx]
    exact hr.pure _ (hnumber x fun u hu => by cases u <;> trivial)
  | change =>
    obtain ⟨x, hx⟩ := market.exists_changeAt hbars
    simp only [Variable.read, hx]
    exact hr.pure _ (hnumber x fun u hu => by cases u <;> trivial)
  | changePercent =>
    obtain ⟨x, hx⟩ := market.exists_changeAt hbars
    simp only [Variable.read, hx]
    exact hr.pure _ (hnumber _ fun u hu => by cases u <;> trivial)
  | line l =>
    refine hr.bind (keeps_series (P := fun _ => True) fun _ => trivial) fun s _ => hr.pure _ ?_
    intro u hu
    cases u with
    | number => exact ⟨by simp [Value.kind], by simp [Value.kind]⟩
    | list => rfl
    | boolean | positive | whole => cases hu
  | symbol => cases t <;> cases ht
  | truth b =>
    have hbool : (Value.boolean b).Has .boolean := rfl
    exact hr.pure _ (hbool.fits fun u hu => by cases u <;> trivial)

section

variable (market : Market) {β : Type} {f : β → Sorts} {k : β → Meaning Recall}

/-- **A call with arguments that fit gives a number** or is undefined. -/
theorem keeps_evalCall {function : String} {arguments : List β} {called : Function}
    (hcalled : Function.ofName? function = some called)
    (haccepts : called.accepts squares (arguments.map f) = true)
    (hc : ∀ c ∈ arguments, (∃ u, f c u = true) →
      Keeps squares g (k c bars) (k c bars) (Value.Fits (f c))) :
    Keeps squares g (evalCall (Access.recall market) function (arguments.map k) bars)
      (evalCall (Access.recall market) function (arguments.map k) bars) (Value.Has .number) := by
  have hr : Correspondence (Keeps squares g) (OnlySquares squares) := keeps_correspondence
  rw [evalCall, hcalled]
  cases called with
  | crossing up => cases haccepts
  | builtin b =>
    have hvalues := hr.mapM_forall₂ fun c hmem =>
      hc c hmem (Builtin.exists_sort haccepts _ (List.mem_map_of_mem hmem))
    exact hr.bind hvalues fun vs hvs => keeps_call haccepts (List.forall₂_map_left_iff.2 hvs)

/-- **A node with a sort has values of its sorts** if its operands do. -/
theorem keeps_eval {n : Node β} {t : ValueSort}
    (ht : (n.map f).sorts (fun _ => none) squares t = true)
    (hc : ∀ c ∈ n.children, (∃ u, f c u = true) → ∀ bars, 0 ≤ bars →
      Keeps squares g (k c bars) (k c bars) (Value.Fits (f c))) (hbars : 0 ≤ bars) :
    Keeps squares g ((n.map k).eval market (Access.recall market) bars)
      ((n.map k).eval market (Access.recall market) bars)
      (Value.Fits ((n.map f).sorts (fun _ => none) squares)) := by
  have hr : Correspondence (Keeps squares g) (OnlySquares squares) := keeps_correspondence
  have hbool : ∀ {b : Bool} {sorts : Sorts}, (∀ u, sorts u = true → u = .boolean) →
      (Value.boolean b).Fits sorts := fun hs => Value.Has.fits (t := .boolean) rfl hs
  cases n with
  | number x => exact hr.pure _ (fits_numberSorts x)
  | text s => cases ht
  | name symbol =>
    cases hv : Variable.ofName? symbol with
    | none =>
      simp only [Node.map, Node.sorts, hv] at ht
      cases ht
    | some v =>
      have hsorts : ((Node.name symbol).map f).sorts (fun _ => none) squares = v.sorts := by
        funext u
        simp only [Node.map, Node.sorts, hv]
        rfl
      rw [hsorts] at ht ⊢
      simp only [Node.map, Node.eval, hv]
      exact keeps_read ht hbars
  | call function arguments =>
    simp only [Node.map, Node.sorts, Bool.and_eq_true, Option.any_eq_true] at ht
    obtain ⟨-, called, hcalled, haccepts⟩ := ht
    have hnumber := keeps_evalCall market hcalled haccepts fun c hmem hsort =>
      hc c hmem hsort bars hbars
    exact hnumber.mono fun v hv => hv.fits fun u hu => by simp_all [Node.map, Node.sorts]
  | history c n =>
    simp only [Node.map, Node.sorts, Bool.and_eq_true, decide_eq_true_eq] at ht
    have hsorts : ((Node.history c n).map f).sorts (fun _ => none) squares = f c := by
      funext u
      simp [Node.map, Node.sorts, ht.1]
    rw [hsorts]
    exact hc c (by simp [Node.children]) ⟨t, ht.2⟩ (bars + n) (by omega)
  | unary operator c =>
    simp only [Node.map, Node.sorts, Bool.and_eq_true, List.contains_iff_mem] at ht
    obtain ⟨⟨-, hop⟩, hnumber⟩ := ht
    refine hr.bind (hc c (by simp [Node.children]) ⟨_, hnumber⟩ bars hbars) fun v hv => ?_
    obtain ⟨u, hu, hnum⟩ := exists_unaryValue hop (hv _ hnumber)
    rw [hu]
    exact hr.pure u (hnum.fits fun u hu => by simp_all [Node.map, Node.sorts])
  | binary operator c d =>
    simp only [Node.map, Node.sorts, Bool.and_eq_true, List.contains_iff_mem] at ht
    obtain ⟨⟨⟨-, hop⟩, hleft⟩, hright⟩ := ht
    refine hr.bind (hc c (by simp [Node.children]) ⟨_, hleft⟩ bars hbars) fun v hv => ?_
    refine hr.bind (hc d (by simp [Node.children]) ⟨_, hright⟩ bars hbars) fun w hw => ?_
    obtain ⟨u, hu, hnum⟩ := exists_binaryValue hop (hv _ hleft) (hw _ hright)
    rw [hu]
    exact hr.pure u (hnum.fits fun u hu => by simp_all [Node.map, Node.sorts])
  | comparison operator c d =>
    simp only [Node.map, Node.sorts, Bool.and_eq_true, List.contains_iff_mem] at ht
    obtain ⟨⟨⟨-, hop⟩, hleft⟩, hright⟩ := ht
    refine hr.bind (hc c (by simp [Node.children]) ⟨_, hleft⟩ bars hbars) fun v hv => ?_
    refine hr.bind (hc d (by simp [Node.children]) ⟨_, hright⟩ bars hbars) fun w hw => ?_
    obtain ⟨b, hb⟩ := exists_compareValues hop (hv _ hleft) (hw _ hright) market.tolerance
    rw [hb]
    exact hr.pure _ (hbool fun u hu => by simp_all [Node.map, Node.sorts])
  | logical operator operands =>
    simp only [Node.map, Node.sorts, Bool.and_eq_true, List.contains_iff_mem, List.all_map,
      List.all_eq_true] at ht
    obtain ⟨⟨-, hop⟩, hall⟩ := ht
    have hoperands : ∀ c ∈ operands, Keeps squares g (k c bars) (k c bars) (Value.Has .boolean) :=
      fun c hmem => (hc c hmem ⟨_, hall c hmem⟩ bars hbars).mono fun v hv => hv _ (hall c hmem)
    have hbool : ∀ b, (Value.boolean b).Fits
        (((Node.logical operator operands).map f).sorts (fun _ => none) squares) := fun b =>
      hbool fun u hu => by simp_all [Node.map, Node.sorts]
    simp only [List.mem_cons, List.not_mem_nil, or_false] at hop
    simp only [Node.map, Node.eval]
    rcases hop with rfl | rfl
    · rw [if_pos (by decide +kernel)]
      exact hr.bind (hr.allTrue hoperands) fun b _ => hr.pure _ (hbool b)
    · rw [if_neg (by decide +kernel), if_pos (by decide +kernel)]
      exact hr.bind (hr.anyTrue hoperands) fun b _ => hr.pure _ (hbool b)
  | negation c =>
    simp only [Node.map, Node.sorts, Bool.and_eq_true] at ht
    refine hr.bind (hc c (by simp [Node.children]) ⟨_, ht.2⟩ bars hbars) fun v hv => ?_
    have hkind : v.kind = .boolean := hv _ ht.2
    cases v with
    | boolean b => exact hr.pure _ (hbool fun u hu => by simp_all [Node.map, Node.sorts])
    | _ => cases hkind

end

/-- **A node of a graph has values of the sorts of its tree**, whatever is remembered. -/
theorem keeps_meaning (market : Market) (hg : g.Ordered) :
    ∀ i, i < g.size → (∃ t, (g.expand i).ownSorts squares t = true) → ∀ bars, 0 ≤ bars →
      Keeps squares g (g.meaning market i bars) (g.meaning market i bars)
        (Value.Fits ((g.expand i).ownSorts squares)) := by
  refine hg.induction fun i hi ih hsort bars hbars memo hm => ?_
  have hsorts : (g.expand i).ownSorts squares =
      (g.nodes[i].map fun c => (g.expand c).ownSorts squares).sorts (fun _ => none) squares :=
    Graph.fold_expand _ hg hi
  obtain ⟨t, ht⟩ := hsort
  rw [hsorts] at ht
  have hnode := keeps_eval market ht ih hbars
  rw [← hsorts] at hnode
  rw [Graph.meaning_eq market hg hi]
  cases hv : memo.values[(i, bars)]? with
  | some v =>
    rw [recallValue_of_some hv]
    exact ⟨hm i bars v hv, hm⟩
  | none =>
    rw [recallValue_of_none hv]
    obtain ⟨hgives, hm'⟩ := hnode memo hm
    rcases hrun : ((g.nodes[i].map (g.meaning market)).eval market (Access.recall market)
      bars).runOn memo with ⟨_ | v, memo'⟩
    · rw [hrun] at hgives hm'
      exact ⟨hgives, hm'⟩
    · rw [hrun] at hgives hm'
      exact ⟨hgives, hm'.addValue hgives⟩

end

end BarScript
