import BarScript.Proofs.Evaluation.Correspondence
import BarScript.Proofs.Number.Double
import BarScript.Proofs.Session.Transparency

/-!
# Sharing changes nothing

Formulas that unfold to the same tree are evaluated alike in any session, whatever it remembers, and
leave the same session behind (`Session.evaluate_eq_of_expr_eq`); so rules with the same trees run
alike (`Rules.run_eq_of_expr_eq`).

A shared node is evaluated once for each number of bars, and its value is then remembered; in the
tree it is evaluated as often as it is met.  Both come to the same since an evaluation that has
succeeded once is settled (`Settled`): it is found again call by call, gives the same value, and
adds nothing to what is remembered.
-/

namespace BarScript

/-! ### Keys -/

namespace ArgumentKey

/-- A number without the sign of zero. -/
def unsignedZero (x : Float) : Float := if x = -0 then 0 else x

theorem sameNumber_iff {x y : Float} :
    sameNumber x y = true ↔ unsignedZero x = unsignedZero y := by
  have hnan : ((-0 : Float) == -0) = true := by decide +kernel
  constructor
  · intro h
    rw [sameNumber, Bool.or_eq_true, Bool.and_eq_true] at h
    rcases h with h | ⟨hx, hy⟩
    · obtain ⟨-, -, rfl | ⟨rfl, rfl⟩ | ⟨rfl, rfl⟩⟩ := Float.beq_iff_ne_nan_and_eq.1 h
      · rfl
      · decide +kernel
      · decide +kernel
    · rw [Float.isNaN_eq_decide_eq_nan, decide_eq_true_iff] at hx hy
      rw [hx, hy]
  · intro h
    rw [sameNumber, Bool.or_eq_true, Bool.and_eq_true]
    unfold unsignedZero at h
    have hself : (x == x) = true ∨ x.isNaN = true ∧ x.isNaN = true := by
      by_cases hx : x = Float.nan
      · exact .inr (by simp [Float.isNaN_eq_decide_eq_nan, hx])
      · exact .inl (Float.beq_iff_ne_nan_and_eq.2 ⟨hx, hx, .inl rfl⟩)
    split at h <;> split at h
    · rename_i hx hy
      rw [hx, hy]
      exact .inl (by decide +kernel)
    · rename_i hx _
      rw [hx, ← h]
      exact .inl (by decide +kernel)
    · rename_i _ hy
      rw [h, hy]
      exact .inl (by decide +kernel)
    · rwa [← h]

/-- A key without the sign of zero. -/
def canonical : ArgumentKey → ArgumentKey
  | number x => number (unsignedZero x)
  | key => key

theorem beq_iff {a b : ArgumentKey} : (a == b) = true ↔ a.canonical = b.canonical := by
  change same a b = true ↔ _
  cases a <;> cases b <;> simp [same, canonical, sameNumber_iff]

theorem list_beq_iff {as bs : List ArgumentKey} :
    (as == bs) = true ↔ as.map canonical = bs.map canonical := by
  induction as generalizing bs with
  | nil => cases bs <;> simp
  | cons a as ih =>
    cases bs with
    | nil => simp
    | cons b bs => simp [List.cons_beq_cons, beq_iff, ih]

end ArgumentKey

/-- A key of a call without the signs of zeros. -/
def CallKey.canonical (k : CallKey) : CallKey :=
  { k with arguments := k.arguments.map ArgumentKey.canonical }

theorem CallKey.beq_iff {k l : CallKey} : (k == l) = true ↔ k.canonical = l.canonical := by
  change (k.function == l.function && (k.arguments == l.arguments && k.bars == l.bars)) = true ↔ _
  simp [canonical, ArgumentKey.list_beq_iff]

/-! ### Memories that know more -/

/-- What one memory knows of calls and histories the other one knows, too. -/
structure Memo.Extends (memo memo' : Memo) : Prop where
  calls : ∀ key r, memo.call? key = some r → memo'.call? key = some r
  shifted : ∀ (bars : Int) s, memo.shifted[bars]? = some s → memo'.shifted[bars]? = some s

namespace Memo

theorem Extends.refl (memo : Memo) : memo.Extends memo := ⟨fun _ _ => id, fun _ _ => id⟩

theorem Extends.trans {m m' m'' : Memo} (h : m.Extends m') (h' : m'.Extends m'') :
    m.Extends m'' :=
  ⟨fun key r hr => h'.calls key r (h.calls key r hr),
    fun bars s hs => h'.shifted bars s (h.shifted bars s hs)⟩

theorem call?_cons (memo : Memo) (key : CallKey) (r : Option Float) (key' : CallKey) :
    ({ memo with calls := ⟨key, r⟩ :: memo.calls } : Memo).call? key' =
      if key == key' then some r else memo.call? key' := by
  rw [call?, call?, List.find?_cons]
  cases key == key' <;> rfl

/-- A call that is not remembered yet hides none that is. -/
theorem extends_addCall {memo : Memo} {key : CallKey} (h : memo.call? key = none)
    (r : Option Float) :
    memo.Extends { memo with calls := ⟨key, r⟩ :: memo.calls } where
  calls key' r' hr := by
    rw [call?_cons]
    split
    · -- an entry for the one key would be one for the other
      rename_i heq
      obtain ⟨e, he, -⟩ := Option.map_eq_some_iff.1 hr
      have hfound : (e.key == key') = true := by simpa using List.find?_some he
      have hkey := CallKey.beq_iff.1 hfound
      have hmem := List.mem_of_find?_eq_some he
      have hnone := List.find?_eq_none.1 (Option.map_eq_none_iff.1 h) e hmem
      exact absurd (CallKey.beq_iff.2 (hkey.trans (CallKey.beq_iff.1 heq).symm)) hnone
    · exact hr
  shifted _ _ hs := hs

theorem extends_addShifted {memo : Memo} {bars : Int} (h : memo.shifted[bars]? = none)
    (s : Series) : memo.Extends { memo with shifted := memo.shifted.insert bars s } where
  calls _ _ hr := hr
  shifted b s' hs := by
    rw [Std.HashMap.getElem?_insert]
    split
    · rename_i heq
      rw [← beq_iff_eq.1 heq, h] at hs
      cases hs
    · exact hs

end Memo

/-! ### Settled evaluations -/

/-- Wherever no less is known, the evaluation gives this result and adds nothing. -/
def Settled {α : Type} (x : Recall α) (a : α) (memo : Memo) : Prop :=
  ∀ memo', memo.Extends memo' → x.runOn memo' = (.ok a, memo')

theorem Settled.extends {α : Type} {x : Recall α} {a : α} {memo memo' : Memo}
    (h : Settled x a memo) (he : memo.Extends memo') : Settled x a memo' :=
  fun m hm => h m (he.trans hm)

theorem Settled.bind {α β : Type} {x : Recall α} {f : α → Recall β} {a : α} {b : β} {memo : Memo}
    (hx : Settled x a memo) (hf : Settled (f a) b memo) : Settled (x >>= f) b memo := by
  intro memo' he
  rw [Recall.runOn_bind, hx memo' he]
  exact hf memo' he

/-- Memories that differ in the values of nodes only extend the same ones. -/
theorem Memo.Extends.setValues {memo memo' : Memo} (h : memo.Extends memo')
    (values values' : Std.HashMap (Nat × Int) Value) :
    ({ memo with values } : Memo).Extends { memo' with values := values' } := ⟨h.calls, h.shifted⟩

/-- A history is settled once it has been cut off. -/
theorem recallSeries_settled (market : Market) (bars : Int) (memo : Memo) :
    ∃ s shifted, (∀ values, (recallSeries market bars).runOn { memo with values } =
        (.ok s, { memo with shifted, values })) ∧
      memo.Extends { memo with shifted } ∧
      Settled (recallSeries market bars) s { memo with shifted } := by
  by_cases hb : bars ≤ 0
  · have hrun : ∀ m, (recallSeries market bars).runOn m = (.ok market.series, m) := fun m => by
      rw [recallSeries, if_pos hb, Recall.runOn_pure]
    exact ⟨market.series, memo.shifted, fun values => hrun _, .refl memo, fun m _ => hrun m⟩
  · have hrun : ∀ {m : Memo} {s : Series}, m.shifted[bars]? = some s →
        (recallSeries market bars).runOn m = (.ok s, m) := fun hs => by
      simp only [recallSeries, if_neg hb, Recall.runOn_bind, Recall.runOn_get, hs,
        Recall.runOn_pure]
    cases hs : memo.shifted[bars]? with
    | some s =>
      exact ⟨s, memo.shifted, fun values => hrun hs, .refl memo,
        fun m hm => hrun (hm.shifted _ _ hs)⟩
    | none =>
      let s := market.series.shifted bars
      refine ⟨s, memo.shifted.insert bars s, fun values => ?_, Memo.extends_addShifted hs s,
        fun m hm => hrun (hm.shifted _ _ (by simp))⟩
      simp only [recallSeries, if_neg hb, Recall.runOn_bind, Recall.runOn_get, hs,
        Recall.runOn_modify, Recall.runOn_pure]
      rfl

/-- A call is settled once it has been computed. -/
theorem recallCall_settled (market : Market) (f : Builtin) (arguments : List Value) (bars : Int)
    (memo : Memo) :
    ∃ r memo', (∀ values, (recallCall market f arguments bars).runOn { memo with values } =
        (r, { memo' with values })) ∧
      memo.Extends memo' ∧
      ∀ v, r = .ok v → Settled (recallCall market f arguments bars) v memo' := by
  let key : CallKey := ⟨f, arguments.map Value.key, bars⟩
  have hsettled : ∀ {m : Memo} {r : Option Float}, m.call? key = some r →
      Settled (recallCall market f arguments bars) (.ofOption r) m :=
    fun hr memo' he => recallCall_of_some (he.calls _ _ hr)
  cases hcall : memo.call? key with
  | some r =>
    refine ⟨.ok (.ofOption r), memo, fun values => recallCall_of_some hcall, .refl memo,
      fun v hv => ?_⟩
    cases hv
    exact hsettled hcall
  | none =>
    obtain ⟨s, shifted, hs, hext, -⟩ := recallSeries_settled market bars memo
    have hcall' : ({ memo with shifted } : Memo).call? key = none := hcall
    have hcallOn : ∀ values, ({ memo with values } : Memo).call? key = none := fun _ => hcall
    cases hr : f.apply arguments s with
    | ok r =>
      refine ⟨.ok (.ofOption r), { memo with shifted, calls := ⟨key, r⟩ :: memo.calls },
        fun values => ?_,
        hext.trans (Memo.extends_addCall hcall' r), fun v hv => ?_⟩
      · simp only [recallCall, Recall.runOn_bind, Recall.runOn_get, hcallOn, key, hs,
          Recall.runOn_liftError, hr, Recall.runOn_modify, Recall.runOn_pure]
      · cases hv
        refine hsettled ?_
        have hself : (key == key) = true := CallKey.beq_iff.2 rfl
        exact (Memo.call?_cons { memo with shifted } key r key).trans (if_pos hself)
    | error e =>
      refine ⟨.error e, { memo with shifted }, fun values => ?_, hext, fun v hv => by cases hv⟩
      simp only [recallCall, Recall.runOn_bind, Recall.runOn_get, hcallOn, key, hs,
        Recall.runOn_liftError, hr]

/-! ### Graphs and trees -/

/-- The value of an expression some bars ago, each node being evaluated as often as it is met and
each call being remembered. -/
def Expr.recall (market : Market) (e : Expr) : Meaning Recall :=
  e.fold (Node.eval market (Access.recall market))

/-- The values of nodes are those that the trees are settled at. -/
def Graph.Settles (g : Graph) (market : Market) (values : Std.HashMap (Nat × Int) Value)
    (memo : Memo) : Prop :=
  ∀ i bars v, values[(i, bars)]? = some v → Settled ((g.expand i).recall market bars) v memo

/-- The first evaluation, which looks at the values of nodes, and the second one, which does not,
give the same and add the same; and if they succeed the second one is settled. -/
def Mirrors (market : Market) (g : Graph) {α : Type} (x y : Recall α) (P : α → Prop) : Prop :=
  ∀ memo values, g.Settles market values memo →
    ∃ r memo' values', x.runOn { memo with values } = (r, { memo' with values := values' }) ∧
      (∀ vs, y.runOn { memo with values := vs } = (r, { memo' with values := vs })) ∧
      memo.Extends memo' ∧ g.Settles market values' memo' ∧
      ∀ a, r = .ok a → P a ∧ Settled y a memo'

section

variable {market : Market} {g : Graph} {memo memo' : Memo}
  {values : Std.HashMap (Nat × Int) Value}

theorem Graph.Settles.extends (h : g.Settles market values memo) (he : memo.Extends memo') :
    g.Settles market values memo' := fun i bars v hv => (h i bars v hv).extends he

theorem Graph.Settles.insert (h : g.Settles market values memo) {i : Nat} {bars : Int} {v : Value}
    (hv : Settled ((g.expand i).recall market bars) v memo) :
    g.Settles market (values.insert (i, bars) v) memo := by
  intro j b w hw
  rw [Std.HashMap.getElem?_insert] at hw
  split at hw
  · rename_i heq
    cases beq_iff_eq.1 heq
    cases hw
    exact hv
  · exact h j b w hw

theorem mirrors_correspondence : Correspondence (Mirrors market g) fun _ => True where
  pure a ha memo values hs := ⟨.ok a, memo, values, rfl, fun _ => rfl, .refl memo, hs,
    fun b hb => by cases hb; exact ⟨ha, fun _ _ => rfl⟩⟩
  throw e _ memo values hs := ⟨.error e, memo, values, rfl, fun _ => rfl, .refl memo, hs,
    fun b hb => by cases hb⟩
  bind := by
    intro α β x y f g' P Q hx hf memo values hs
    obtain ⟨r, m, vals, hxr, hyr, hext, hset, hok⟩ := hx memo values hs
    cases r with
    | error e =>
      refine ⟨.error e, m, vals, ?_, fun vs => ?_, hext, hset, fun a ha => by cases ha⟩
      · rw [Recall.runOn_bind, hxr]
      · rw [Recall.runOn_bind, hyr]
    | ok a =>
      obtain ⟨ha, hsettled⟩ := hok a rfl
      obtain ⟨r', m', vals', hfr, hgr, hext', hset', hok'⟩ := hf a ha m vals hset
      refine ⟨r', m', vals', ?_, fun vs => ?_, hext.trans hext', hset', fun b hb => ?_⟩
      · rw [Recall.runOn_bind, hxr]
        exact hfr
      · rw [Recall.runOn_bind, hyr]
        exact hgr vs
      · obtain ⟨hb, hsettled'⟩ := hok' b hb
        exact ⟨hb, (hsettled.extends hext').bind hsettled'⟩

theorem mirrors_series (bars : Int) :
    Mirrors market g (recallSeries market bars) (recallSeries market bars) fun _ => True := by
  intro memo values hs
  obtain ⟨s, shifted, hrun, hext, hsettled⟩ := recallSeries_settled market bars memo
  exact ⟨.ok s, _, values, hrun values, hrun, hext, hs.extends hext,
    fun a ha => by cases ha; exact ⟨trivial, hsettled⟩⟩

theorem mirrors_call (f : Builtin) (arguments : List Value) (bars : Int) :
    Mirrors market g (recallCall market f arguments bars) (recallCall market f arguments bars)
      fun _ => True := by
  intro memo values hs
  obtain ⟨r, memo', hrun, hext, hsettled⟩ := recallCall_settled market f arguments bars memo
  exact ⟨r, memo', values, hrun values, hrun, hext, hs.extends hext,
    fun a ha => ⟨trivial, hsettled a ha⟩⟩

theorem mirrors_alignment : Alignment (Mirrors market g) (fun _ => True) (fun _ => True)
    (fun _ => True) (fun _ => True) 0 market market (Access.recall market)
    (Access.recall market) where
  toCorrespondence := mirrors_correspondence
  tolerance := rfl
  plain _ _ := trivial
  argument _ := trivial
  succ _ _ := trivial
  read v bars _ _ := by
    rw [Int.add_zero]
    refine mirrors_correspondence.read (fun _ _ => trivial) rfl (fun _ => ⟨rfl, fun _ _ => trivial⟩)
      (fun _ => ⟨rfl, fun _ _ => trivial⟩) fun l _ => mirrors_series bars
  call f arguments bars _ _ := by
    rw [Int.add_zero]
    exact mirrors_call f arguments bars

/-- **A node of a graph is evaluated as its tree is.** -/
theorem mirrors_meaning (hg : g.Ordered) : ∀ i, i < g.size → ∀ bars,
    Mirrors market g (g.meaning market i bars) ((g.expand i).recall market bars)
      fun _ => True := by
  refine hg.induction fun i hi ih bars memo values hs => ?_
  have hnode : Mirrors market g
      ((g.nodes[i].map (g.meaning market)).eval market (Access.recall market) (bars + 0))
      ((g.nodes[i].map fun c => (g.expand c).recall market).eval market (Access.recall market)
        bars) fun _ => True :=
    mirrors_alignment.eval g.nodes[i].admissible_true
      (fun c hc bars _ => by rw [Int.add_zero]; exact ih c hc bars) trivial
  rw [Int.add_zero] at hnode
  have hrecall : (g.expand i).recall market =
      (g.nodes[i].map fun c => (g.expand c).recall market).eval market (Access.recall market) :=
    Graph.fold_expand _ hg hi
  rw [← hrecall] at hnode
  rw [Graph.meaning_eq market hg hi]
  cases hv : values[(i, bars)]? with
  | some v =>
    have hsettled := hs i bars v hv
    exact ⟨.ok v, memo, values, recallValue_of_some hv,
      fun vs => hsettled _ ((Memo.Extends.refl memo).setValues memo.values vs), .refl memo, hs,
      fun a ha => by cases ha; exact ⟨trivial, hsettled⟩⟩
  | none =>
    obtain ⟨r, memo', values', hx, hy, hext, hset, hok⟩ := hnode memo values hs
    have hrun : (recallValue i ((g.nodes[i].map (g.meaning market)).eval market
        (Access.recall market)) bars).runOn { memo with values } = _ := recallValue_of_none hv
    rw [hx] at hrun
    cases r with
    | ok v =>
      exact ⟨.ok v, memo', values'.insert (i, bars) v, hrun, hy, hext,
        hset.insert (hok v rfl).2, hok⟩
    | error e => exact ⟨.error e, memo', values', hrun, hy, hext, hset, hok⟩

end

/-! ### Sessions -/

/-- Evaluating a formula is evaluating its tree, each node as often as it is met. -/
theorem Session.evaluate_eq_recall {f : Formula} (hf : f.WellFormed) (s : Session) :
    s.evaluate f = (((f.expr.recall s.market 0).runOn s.forget.memo).1.map Value.collapse,
      Session.forget { s with memo := ((f.expr.recall s.market 0).runOn s.forget.memo).2 }) := by
  have hroot : Mirrors s.market f.graph _ _ _ := mirrors_meaning hf.ordered f.root hf.root_lt 0
  obtain ⟨r, memo', values', hrun, htree, -⟩ := hroot s.memo ∅ fun i bars v hv => by simp at hv
  have hrun : (f.recall s.market).runOn s.forget.memo = (r, { memo' with values := values' }) :=
    hrun
  have htree : (f.expr.recall s.market 0).runOn s.forget.memo = (r, { memo' with values := ∅ }) :=
    htree ∅
  -- the two memories differ in the values of nodes only
  rw [evaluate_eq, hrun, htree]
  rfl

/-- **Formulas of the same tree are evaluated alike**, and leave the same session behind. -/
theorem Session.evaluate_eq_of_expr_eq {f f' : Formula} (hf : f.WellFormed) (hf' : f'.WellFormed)
    (h : f.expr = f'.expr) (s : Session) : s.evaluate f = s.evaluate f' := by
  rw [evaluate_eq_recall hf, evaluate_eq_recall hf', h]

/-- **Rules with the same trees run alike**, in any session. -/
theorem Rules.run_eq_of_expr_eq {rules rules' : Rules} (h : rules.WellFormed)
    (h' : rules'.WellFormed)
    (hbuy : rules.buy.map (·.formula.expr) = rules'.buy.map (·.formula.expr))
    (hsell : rules.sell.map (·.formula.expr) = rules'.sell.map (·.formula.expr)) (s : Session) :
    rules.run s = rules'.run s := by
  have hside : ∀ {rule rule' : Option Rule}, (∀ r ∈ rule, r.formula.WellFormed) →
      (∀ r ∈ rule', r.formula.WellFormed) →
      rule.map (·.formula.expr) = rule'.map (·.formula.expr) → ∀ s,
        runSide rule s = runSide rule' s := by
    intro rule rule' hr hr' heq s
    cases rule with
    | none =>
      cases rule' with
      | none => rfl
      | some r' => cases heq
    | some r =>
      cases rule' with
      | none => cases heq
      | some r' =>
        rw [runSide, runSide,
          Session.evaluate_eq_of_expr_eq (hr r rfl) (hr' r' rfl) (Option.some.inj heq)]
  rw [run, run, hside h.buy h'.buy hbuy]
  rcases runSide rules'.buy s with ⟨_ | buy, s'⟩
  · rfl
  · simp only [hside h.sell h'.sell hsell]

end BarScript
