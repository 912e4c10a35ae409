import BarScript.Proofs.Graph.Graft
import BarScript.Proofs.Session.Calls
import BarScript.Proofs.Session.Recall
import BarScript.Rules

/-!
# Sessions answer as if they had no memory

A session is asked to evaluate formulas, to run rules and for histories (`Step`), in any order and
however many of these fail.  Each answer is the one that plain recursion gives for that step alone
(`Step.plain`), and no value of a node is remembered after a step: `Session.playAll_start`.

The exception is a call that is found again under the key of another call.  Two calls have the same
key without being the same only if they differ in the sign of a zero (`Call.DiffersInSign`), so
there must be no such two among the calls of the session.

The invariant of a session is that what it remembers of calls and histories is right
(`Memo.Justified`); while a formula is evaluated, so is what it remembers of values
(`Memo.Sound`).
-/

namespace BarScript

/-! ### What a memory may hold -/

/-- The calls that are remembered were made, with arguments that keys tell apart, and have the
remembered results; the histories are those of the market. -/
structure Memo.Justified (market : Market) (made : Call → Prop) (memo : Memo) : Prop where
  calls : ∀ entry ∈ memo.calls, ∃ c : Call, made c ∧ (∀ v ∈ c.arguments, v.Grounded market) ∧
    entry.key = c.key ∧ c.result market = .ok entry.result
  histories : memo.Histories market

/-- The values that are remembered are those of plain evaluation. -/
structure Memo.Sound (market : Market) (made : Call → Prop) (g : Graph) (memo : Memo) : Prop
    extends memo.Justified market made where
  values : ∀ i bars v, memo.values[(i, bars)]? = some v →
    (g.expand i).eval market bars = .ok v ∧ v.Grounded market

/-- No two calls differ only in the sign of a zero. -/
def SignsAgree (made : Call → Prop) : Prop := ∀ c d, made c → made d → ¬ c.DiffersInSign d

theorem signsAgree_of_forall_eq {made : Call → Prop} {c : Call} (h : ∀ d, made d → d = c) :
    SignsAgree made := fun d e hd he hs => hs.2.2.1 (by rw [h d hd, h e he])

section

variable {market : Market} {made : Call → Prop} {g : Graph}

theorem Memo.Justified.shift {memo : Memo} (h : memo.Justified market made)
    {shifted : Std.HashMap Int Series} (hs : ({ memo with shifted } : Memo).Histories market) :
    ({ memo with shifted } : Memo).Justified market made := ⟨h.calls, hs⟩

theorem Memo.Sound.shift {memo : Memo} (h : memo.Sound market made g)
    {shifted : Std.HashMap Int Series} (hs : ({ memo with shifted } : Memo).Histories market) :
    ({ memo with shifted } : Memo).Sound market made g := ⟨h.toJustified.shift hs, h.values⟩

theorem Memo.Sound.addCall {memo : Memo} (h : memo.Sound market made g) {c : Call}
    (hc : made c) (ha : ∀ v ∈ c.arguments, v.Grounded market) {r : Option Float}
    (hr : c.result market = .ok r) :
    ({ memo with calls := ⟨c.key, r⟩ :: memo.calls } : Memo).Sound market made g := by
  refine ⟨⟨fun entry he => ?_, h.histories⟩, h.values⟩
  rcases List.mem_cons.1 he with rfl | he
  · exact ⟨c, hc, ha, rfl, hr⟩
  · exact h.calls entry he

theorem Memo.Sound.addValue {memo : Memo} (h : memo.Sound market made g) {i : Nat} {bars : Int}
    {v : Value} (hv : (g.expand i).eval market bars = .ok v) (hg : v.Grounded market) :
    ({ memo with values := memo.values.insert (i, bars) v } : Memo).Sound market made g := by
  refine ⟨⟨h.calls, h.histories⟩, fun j b w hw => ?_⟩
  simp only [Std.HashMap.getElem?_insert, beq_iff_eq, Prod.mk.injEq] at hw
  split at hw
  · rename_i heq
    obtain ⟨rfl, rfl⟩ := heq
    cases hw
    exact ⟨hv, hg⟩
  · exact h.values j b w hw

/-- **A call that is found has the result of the call that is looked for.** -/
theorem Memo.Justified.result_of_call? {memo : Memo} (h : memo.Justified market made)
    (hs : SignsAgree made) {c : Call} (hc : made c) (ha : ∀ v ∈ c.arguments, v.Grounded market)
    {r : Option Float} (hr : memo.call? c.key = some r) : c.result market = .ok r := by
  obtain ⟨entry, hfind, rfl⟩ := Option.map_eq_some_iff.1 hr
  obtain ⟨d, hd, hda, hkey, hres⟩ := h.calls entry (List.mem_of_find?_eq_some hfind)
  have hfound : (entry.key == c.key) = true :=
    List.find?_some (p := fun e : CallEntry => e.key == c.key) hfind
  -- the call found and the call looked for have one key
  rw [hkey] at hfound
  rw [← Call.eq_of_key hda ha hfound (hs d c hd hc), hres]

/-! ### Evaluation with a memory -/

/-- From a sound memory, if the calls on the way are among those that are made, evaluation with a
memory gives the result of plain evaluation and leaves a sound memory. -/
def Recalls (market : Market) (made : Call → Prop) (g : Graph) {α : Type} (x : Recall α)
    (y : Noted α) (P : α → Prop) : Prop :=
  ∀ memo : Memo, memo.Sound market made g → (∀ c ∈ y.calls, made c) →
    (x.runOn memo).1 = y.result ∧ (x.runOn memo).2.Sound market made g ∧
      ∀ a, y.result = .ok a → P a

theorem recalls_correspondence : Correspondence (Recalls market made g) fun _ => True where
  pure a ha memo hm _ := ⟨rfl, hm, fun b hb => by cases hb; exact ha⟩
  throw e _ memo hm _ := ⟨rfl, hm, fun b hb => by cases hb⟩
  bind := by
    intro α β x y f k P Q hx hf memo hm hmade
    rw [Recall.runOn_bind, Noted.result_bind]
    cases hy : y.result with
    | ok a =>
      rw [Noted.calls_bind_ok hy] at hmade
      obtain ⟨hres, hm', hp⟩ := hx memo hm fun c hc => hmade c (List.mem_append_left _ hc)
      rcases hrun : x.runOn memo with ⟨r, memo'⟩
      rw [hrun, hy] at hres
      rw [hrun] at hm'
      subst hres
      exact hf a (hp a hy) memo' hm' fun c hc => hmade c (List.mem_append_right _ hc)
    | error e =>
      rw [Noted.calls_bind_error hy] at hmade
      obtain ⟨hres, hm', -⟩ := hx memo hm hmade
      rcases hrun : x.runOn memo with ⟨r, memo'⟩
      rw [hrun, hy] at hres
      rw [hrun] at hm'
      subst hres
      exact ⟨rfl, hm', fun b hb => by cases hb⟩

theorem recalls_series (bars : Int) {P : Series → Prop} (hp : P (market.series.shifted bars)) :
    Recalls market made g (recallSeries market bars) (pure (market.series.shifted bars)) P := by
  intro memo hm _
  obtain ⟨shifted, hs, hrun⟩ := recallSeries_runOn hm.histories bars
  rw [hrun]
  exact ⟨rfl, hm.shift hs, fun s h => by cases h; exact hp⟩

theorem recalls_call (hs : SignsAgree made) {f : Builtin} {arguments : List Value} {bars : Int}
    (ha : ∀ v ∈ arguments, v.Grounded market) :
    Recalls market made g (recallCall market f arguments bars)
      ((Access.noted market).call f arguments bars) (Value.Grounded market) := by
  intro memo hm hmade
  have hplain : ∀ v : Value,
      ((Access.noted market).call f arguments bars).result = .ok v → v.Grounded market := by
    intro v hv
    obtain ⟨r, -, rfl⟩ := map_eq_ok_iff.1 hv
    exact Value.grounded_of_kind (by cases r <;> simp [Value.ofOption, Value.kind])
  -- the only call on the way is this one
  have hc : made ⟨f, arguments, bars⟩ := hmade _ (List.mem_singleton.2 rfl)
  cases hcall : memo.call? ⟨f, arguments.map Value.key, bars⟩ with
  | some r =>
    have hres := hm.toJustified.result_of_call? hs hc ha hcall
    rw [recallCall_of_some hcall]
    exact ⟨by simp only [Access.noted, hres, Except.map], hm, hplain⟩
  | none =>
    obtain ⟨shifted, hshift, hrun⟩ := recallCall_of_none hm.histories hcall
    rw [hrun]
    cases hr : f.apply arguments (market.series.shifted bars) with
    | ok r =>
      have hres : Call.result market ⟨f, arguments, bars⟩ = .ok r := hr
      exact ⟨by simp only [Access.noted, hres, Except.map], (hm.shift hshift).addCall hc ha hres,
        hplain⟩
    | error e =>
      have hres : Call.result market ⟨f, arguments, bars⟩ = .error e := hr
      exact ⟨by simp only [Access.noted, hres, Except.map], hm.shift hshift, hplain⟩

theorem recalls_alignment (hs : SignsAgree made) :
    Alignment (Recalls market made g) (fun _ => True) (Value.Grounded market) (fun _ => True)
      (fun _ => True) 0 market market (Access.recall market) (Access.noted market) where
  toCorrespondence := recalls_correspondence
  tolerance := rfl
  plain _ := Value.grounded_of_kind
  argument _ := trivial
  succ _ _ := trivial
  read v bars _ _ := by
    rw [Int.add_zero]
    exact recalls_correspondence.read (fun _ => Value.grounded_of_kind) rfl
      (fun _ => ⟨rfl, fun _ _ => trivial⟩) (fun _ => ⟨rfl, fun _ _ => trivial⟩)
      fun l _ => recalls_series bars (Value.grounded_shifted market l bars)
  call f arguments bars _ ha := by
    rw [Int.add_zero]
    exact recalls_call hs ha

/-- A node means, with a memory, what plain evaluation of its tree gives. -/
theorem recalls_meaning (hs : SignsAgree made) (hg : g.Ordered) :
    ∀ i, i < g.size → ∀ bars, Recalls market made g (g.meaning market i bars)
      ((g.expand i).noted market bars) (Value.Grounded market) := by
  refine hg.induction fun i hi ih bars memo hm hmade => ?_
  have hnode : Recalls market made g
      ((g.nodes[i].map (g.meaning market)).eval market (Access.recall market) (bars + 0))
      ((g.nodes[i].map fun c => (g.expand c).noted market).eval market (Access.noted market) bars)
      (Value.Grounded market) :=
    (recalls_alignment hs).eval g.nodes[i].admissible_true
      (fun c hc bars _ => by rw [Int.add_zero]; exact ih c hc bars) trivial
  rw [Int.add_zero] at hnode
  -- plain evaluation of the tree is the same step over the trees of the operands
  have hnoted : (g.expand i).noted market =
      (g.nodes[i].map fun c => (g.expand c).noted market).eval market (Access.noted market) :=
    Graph.fold_expand _ hg hi
  rw [← hnoted] at hnode
  rw [Graph.meaning_eq market hg hi]
  cases hv : memo.values[(i, bars)]? with
  | some v =>
    obtain ⟨heval, hground⟩ := hm.values i bars v hv
    rw [recallValue_of_some hv, Expr.noted_result, heval]
    exact ⟨rfl, hm, fun w hw => by cases hw; exact hground⟩
  | none =>
    obtain ⟨hres, hm', hp⟩ := hnode memo hm hmade
    rw [recallValue_of_none hv]
    rcases hrun : ((g.nodes[i].map (g.meaning market)).eval market (Access.recall market)
      bars).runOn memo with ⟨r, memo'⟩
    rw [hrun] at hres hm'
    subst hres
    cases hr : ((g.expand i).noted market bars).result with
    | ok v =>
      have heval : (g.expand i).eval market bars = .ok v := by rw [← Expr.noted_result, hr]
      exact ⟨rfl, hm'.addValue heval (hp v hr), hr ▸ hp⟩
    | error e => exact ⟨rfl, hm', hr ▸ hp⟩

end

/-! ### Steps of a session -/

/-- The rules there are have formulas over ordered graphs. -/
structure Rules.WellFormed (rules : Rules) : Prop where
  buy : ∀ r ∈ rules.buy, r.formula.WellFormed
  sell : ∀ r ∈ rules.sell, r.formula.WellFormed

/-- What a session can be asked. -/
inductive Step where
  | evaluate (f : Formula) (h : f.WellFormed)
  | run (rules : Rules) (h : rules.WellFormed)
  | seriesAt (bars : Int)

/-- What a session answers. -/
inductive Answer where
  | value (result : Except EvalError Value)
  | outcome (result : Except RunError Outcome)
  | series (history : Series)

namespace Session

/-- The answer to a step, and the session after it. -/
def play (s : Session) : Step → Answer × Session
  | .evaluate f _ => ((s.evaluate f).1 |> .value, (s.evaluate f).2)
  | .run rules _ => ((rules.run s).1 |> .outcome, (rules.run s).2)
  | .seriesAt bars => ((s.seriesAt bars).1 |> .series, (s.seriesAt bars).2)

/-- The answers to one step after another, each with the session after it. -/
def playAll : List Step → Session → List (Answer × Session)
  | [], _ => []
  | step :: steps, s => s.play step :: playAll steps (s.play step).2

end Session

/-! ### Plain answers -/

/-- The value of an expression now, by plain recursion. -/
def Expr.now (market : Market) (e : Expr) : Except EvalError Value :=
  (e.eval market 0).map Value.collapse

/-- The calls made for the value of an expression now. -/
def Expr.callsNow (market : Market) (e : Expr) : List Call := e.calls market 0

namespace Rules

/-- A rule evaluated alone, if there is one. -/
def plainSide (market : Market) (rule : Option Rule) :
    Except EvalError (Option (Except String Value)) :=
  match rule with
  | none => .ok none
  | some r => (solo (r.formula.expr.now market)).map some

/-- The outcome of both rules, each evaluated alone. -/
def plain (market : Market) (rules : Rules) : Except RunError Outcome := do
  let buy ← (plainSide market rules.buy).mapError .eval
  let sell ← (plainSide market rules.sell).mapError .eval
  return outcome buy sell

/-- The calls made for a rule, if there is one. -/
def sideCalls (market : Market) (rule : Option Rule) : List Call :=
  match rule with
  | none => []
  | some r => r.formula.expr.callsNow market

/-- The calls made for both rules; none for the second one if the first one ends the run. -/
def calls (market : Market) (rules : Rules) : List Call :=
  match plainSide market rules.buy with
  | .ok _ => sideCalls market rules.buy ++ sideCalls market rules.sell
  | .error _ => sideCalls market rules.buy

end Rules

namespace Step

/-- The answer to a step alone, without memory. -/
def plain (market : Market) : Step → Answer
  | evaluate f _ => .value (f.expr.now market)
  | run rules _ => .outcome (rules.plain market)
  | seriesAt bars => .series (market.series.shifted bars)

/-- The calls made for a step. -/
def calls (market : Market) : Step → List Call
  | evaluate f _ => f.expr.callsNow market
  | run rules _ => rules.calls market
  | seriesAt _ => []

end Step

/-! ### Runs -/

/-- Between two steps the session has its market, no values, and a memory that is right. -/
structure Session.Sound (market : Market) (made : Call → Prop) (s : Session) : Prop where
  market_eq : s.market = market
  values_eq : s.memo.values = ∅
  justified : s.memo.Justified market made

namespace Session

variable {market : Market} {made : Call → Prop}

theorem sound_start (market : Market) (made : Call → Prop) : (start market).Sound market made where
  market_eq := rfl
  values_eq := rfl
  justified := ⟨fun _ h => by simp [start, Memo.empty] at h,
    fun _ _ h => by simp [start, Memo.empty] at h⟩

theorem Sound.evaluate (hs : SignsAgree made) {s : Session} (h : s.Sound market made)
    {f : Formula} (hf : f.WellFormed) (hc : ∀ c ∈ f.expr.callsNow market, made c) :
    (s.evaluate f).1 = f.expr.now market ∧ (s.evaluate f).2.Sound market made := by
  obtain ⟨_, memo⟩ := s
  obtain ⟨rfl, -, hj⟩ := h
  rw [Expr.now, evaluate_eq, Formula.recall_eq]
  obtain ⟨hres, hsound, -⟩ := recalls_meaning hs hf.ordered f.root hf.root_lt 0
    { memo with values := ∅ } ⟨⟨hj.calls, hj.histories⟩, fun _ _ _ hv => by simp at hv⟩ hc
  rw [Expr.noted_result] at hres
  exact ⟨congrArg (Except.map Value.collapse) hres, rfl, rfl, hsound.calls, hsound.histories⟩

theorem Sound.runSide (hs : SignsAgree made) {s : Session} (h : s.Sound market made)
    {rule : Option Rule} (hr : ∀ r ∈ rule, r.formula.WellFormed)
    (hc : ∀ c ∈ Rules.sideCalls market rule, made c) :
    (Rules.runSide rule s).1 = Rules.plainSide market rule ∧
      (Rules.runSide rule s).2.Sound market made := by
  cases rule with
  | none => exact ⟨rfl, h⟩
  | some r =>
    obtain ⟨heq, hsound⟩ := h.evaluate hs (hr r rfl) hc
    exact ⟨congrArg (fun v => (solo v).map some) heq, hsound⟩

theorem Sound.run (hs : SignsAgree made) {s : Session} (h : s.Sound market made) {rules : Rules}
    (hw : rules.WellFormed) (hc : ∀ c ∈ rules.calls market, made c) :
    (rules.run s).1 = rules.plain market ∧ (rules.run s).2.Sound market made := by
  -- the calls of the first rule are made in any case
  have hbuy : ∀ c ∈ Rules.sideCalls market rules.buy, made c := fun c hmem => hc c <| by
    rw [Rules.calls]
    split
    · exact List.mem_append_left _ hmem
    · exact hmem
  obtain ⟨heq, h'⟩ := h.runSide hs hw.buy hbuy
  rw [Rules.run, Rules.plain]
  rcases hrun : Rules.runSide rules.buy s with ⟨_ | buy, s'⟩
  · rw [hrun] at heq h'
    rw [← heq]
    exact ⟨rfl, h'⟩
  · rw [hrun] at heq h'
    rw [Rules.calls, ← heq] at hc
    have hsell := Sound.runSide (s := s') hs h' hw.sell fun c hmem =>
      hc c (List.mem_append_right _ hmem)
    rcases hrun' : Rules.runSide rules.sell s' with ⟨_ | sell, s''⟩
    all_goals
      rw [hrun'] at hsell
      rw [← heq, ← hsell.1]
      simp only [hrun']
      exact ⟨rfl, hsell.2⟩

theorem Sound.seriesAt {s : Session} (h : s.Sound market made) (bars : Int) :
    (s.seriesAt bars).1 = market.series.shifted bars ∧ (s.seriesAt bars).2.Sound market made := by
  obtain ⟨_, memo⟩ := s
  obtain ⟨rfl, hv, hj⟩ := h
  obtain ⟨shifted, hshift, hrun⟩ := recallSeries_runOn hj.histories bars
  have hrun : (recallSeries _ bars).run.run memo = _ := hrun
  rw [Session.seriesAt, hrun]
  exact ⟨rfl, rfl, hv, hj.shift hshift⟩

/-- One step answers as if there were no memory, and leaves a sound session. -/
theorem Sound.play (hs : SignsAgree made) {s : Session} (h : s.Sound market made) {step : Step}
    (hc : ∀ c ∈ step.calls market, made c) :
    (s.play step).1 = step.plain market ∧ (s.play step).2.Sound market made := by
  cases step with
  | evaluate f hf =>
    obtain ⟨heq, h'⟩ := h.evaluate hs hf hc
    exact ⟨congrArg Answer.value heq, h'⟩
  | run rules hw =>
    obtain ⟨heq, h'⟩ := h.run hs hw hc
    exact ⟨congrArg Answer.outcome heq, h'⟩
  | seriesAt bars =>
    obtain ⟨heq, h'⟩ := h.seriesAt bars
    exact ⟨congrArg Answer.series heq, h'⟩

/-- So do any number of steps. -/
theorem Sound.playAll (hs : SignsAgree made) {s : Session} (h : s.Sound market made)
    {steps : List Step} (hc : ∀ step ∈ steps, ∀ c ∈ step.calls market, made c) :
    (s.playAll steps).map (·.1) = steps.map (Step.plain market) ∧
      ∀ r ∈ s.playAll steps, r.2.Sound market made := by
  induction steps generalizing s with
  | nil => exact ⟨rfl, fun r hr => by cases hr⟩
  | cons step steps ih =>
    rw [List.forall_mem_cons] at hc
    obtain ⟨heq, h'⟩ := h.play hs hc.1
    obtain ⟨hrest, hsound⟩ := ih h' hc.2
    refine ⟨congrArg₂ List.cons heq hrest, fun r hr => ?_⟩
    rcases List.mem_cons.1 hr with rfl | hr
    · exact h'
    · exact hsound r hr

/-- **A session answers each step as plain recursion does, whatever came before, and remembers no
values afterwards.** -/
theorem playAll_start (market : Market) (steps : List Step)
    (hs : SignsAgree fun c => c ∈ steps.flatMap (Step.calls market)) :
    ((start market).playAll steps).map (·.1) = steps.map (Step.plain market) ∧
      ∀ r ∈ (start market).playAll steps, r.2.memo.values = ∅ := by
  obtain ⟨heq, hsound⟩ := (sound_start market _).playAll hs fun step hstep c hc =>
    List.mem_flatMap.2 ⟨step, hstep, hc⟩
  exact ⟨heq, fun r hr => (hsound r hr).values_eq⟩

/-- The highest close, a failure behind the same call, a history, and the highest close again. -/
theorem playAll_start_highest :
    let market : Market := ⟨"A", ⟨4, 0⟩, ⟨[1, 2, 3], fun _ => none, by simp⟩, 0.001⟩
    let highest : Expr := .mk (.call "highest" [.mk (.number 2)])
    let failing : Expr := .mk (.binary "+" highest (.mk (.name "open")))
    let ask (e : Expr) : Step := .evaluate (.ofExpr e) (Formula.wellFormed_ofExpr e)
    let steps : List Step := [ask highest, ask failing, .seriesAt 1, ask highest]
    (SignsAgree fun c => c ∈ steps.flatMap (Step.calls market)) ∧
      ((start market).playAll steps).map (·.1) =
        [.value (.ok (.number 3)), .value (.error (.unknown ⟨.identifier, "open"⟩)),
          .series (market.series.shifted 1), .value (.ok (.number 3))] ∧
      ∀ r ∈ (start market).playAll steps, r.2.memo.values = ∅ := by
  intro market highest failing ask steps
  have hcalls : steps.flatMap (Step.calls market) =
      [⟨.price .highest, [.number 2], 0⟩, ⟨.price .highest, [.number 2], 0⟩,
        ⟨.price .highest, [.number 2], 0⟩] := by
    simp only [steps, ask, List.flatMap_cons, List.flatMap_nil, Step.calls, Formula.expr_ofExpr]
    rfl
  have hs : SignsAgree fun c => c ∈ steps.flatMap (Step.calls market) := by
    rw [hcalls]
    exact signsAgree_of_forall_eq (c := ⟨.price .highest, [.number 2], 0⟩) (by simp)
  obtain ⟨heq, hvalues⟩ := playAll_start market steps hs
  refine ⟨hs, heq.trans ?_, hvalues⟩
  simp only [steps, ask, List.map_cons, List.map_nil, Step.plain, Formula.expr_ofExpr]
  rfl

end Session

end BarScript
