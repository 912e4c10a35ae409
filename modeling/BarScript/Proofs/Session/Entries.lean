import BarScript.Proofs.Session.Sharing

/-!
# What is remembered of calls is right and stays

Every call that a session remembers has the result that the builtin function gives on the arguments
its key stands for, and nothing that is remembered of calls is ever changed or dropped
(`Session.entries_justified`).  In contrast to the answers of a session (`Session.playAll_start`)
this needs nothing of the signs of zeros: a call may be answered by an entry for another zero, but
the entry itself is right.

An entry has the keys of arguments and not the arguments, and a price list is told by its name and
its length only.  The invariant that carries the proof is that price lists are prefixes of those of
the market wherever values go (`Value.Grounded`), in what is remembered of nodes as well
(`Memo.Grounded`).
-/

namespace BarScript

/-! ### What a key stands for -/

namespace ArgumentKey

/-- The argument that a key stands for; that of a price list is a prefix of the list of the
market. -/
def value (market : Market) : ArgumentKey → Value
  | undefined => .undefined
  | number x => .number x
  | boolean b => .boolean b
  | text s => .text s
  | series line n => .series line ((market.series.line line).take n)

/-- A price list of the market is as long as the key says. -/
def Fits (market : Market) : ArgumentKey → Prop
  | series line n => n ≤ (market.series.line line).length
  | _ => True

end ArgumentKey

namespace Value.Grounded

variable {market : Market} {v : Value}

theorem value_key (h : v.Grounded market) : v.key.value market = v := by
  cases v with
  | series line points => exact congrArg (Value.series line) (Eq.symm h)
  | _ => rfl

theorem fits_key (h : v.Grounded market) : v.key.Fits market := by
  cases v with
  | series line points =>
    have hlength := congrArg List.length (show points = _ from h)
    rw [List.length_take] at hlength
    exact hlength.trans_le (Nat.min_le_right _ _)
  | _ => trivial

end Value.Grounded

/-- An entry is that of a builtin function that is no crossing, the price lists of its key are
prefixes of those of the market, and its result is that of the function on the arguments that the
key stands for and the history the session has for the bars. -/
structure CallEntry.Justified (s : Session) (entry : CallEntry) : Prop where
  builtin : Function.ofName? entry.key.function.name = some (.builtin entry.key.function)
  fits : ∀ key ∈ entry.key.arguments, key.Fits s.market
  result : entry.key.function.apply (entry.key.arguments.map (·.value s.market))
    (s.seriesAt entry.key.bars).1 = .ok entry.result

theorem Builtin.ofName?_name (f : Builtin) : Function.ofName? f.name = some (.builtin f) := by
  rcases f with f | f | f <;> cases f <;> rfl

/-- What is known of the calls of a sound session is what its entries say. -/
theorem Session.Sound.entry {market : Market} {made : Call → Prop} {s : Session}
    (h : s.Sound market made) {entry : CallEntry} (he : entry ∈ s.memo.calls) :
    entry.Justified s := by
  obtain ⟨c, -, hgrounded, hkey, hresult⟩ := h.justified.calls entry he
  have hvalues : (c.arguments.map Value.key).map (·.value market) = c.arguments := by
    rw [List.map_map]
    exact (List.map_congr_left fun v hv => (hgrounded v hv).value_key).trans (List.map_id _)
  refine ⟨entry.key.function.ofName?_name, ?_, ?_⟩
  · rw [hkey, h.market_eq]
    exact List.forall_mem_map.2 fun v hv => (hgrounded v hv).fits_key
  · rw [hkey, h.market_eq, (h.seriesAt _).1]
    change c.function.apply ((c.arguments.map Value.key).map (·.value market)) _ = _
    rw [hvalues]
    exact hresult

/-! ### Memories that keep their entries -/

/-- The calls of one memory are the last calls of the other, and are found there as well. -/
structure Memo.Keeps (memo memo' : Memo) : Prop where
  suffix : memo.calls <:+ memo'.calls
  found : ∀ key r, memo.call? key = some r → memo'.call? key = some r

namespace Memo.Keeps

variable {memo memo' memo'' : Memo}

theorem refl (memo : Memo) : memo.Keeps memo := ⟨List.suffix_refl _, fun _ _ => id⟩

theorem trans (h : memo.Keeps memo') (h' : memo'.Keeps memo'') : memo.Keeps memo'' :=
  ⟨h.suffix.trans h'.suffix, fun key r hr => h'.found key r (h.found key r hr)⟩

theorem of_calls_eq (h : memo.calls = memo'.calls) : memo.Keeps memo' :=
  ⟨h ▸ List.suffix_refl _, fun key r hr => by rw [call?, ← h]; exact hr⟩

end Memo.Keeps

/-- What is remembered of calls and histories is right, and the price lists among the values that
are remembered are prefixes of those of the market. -/
structure Memo.Grounded (market : Market) (memo : Memo) : Prop
    extends memo.Justified market fun _ => True where
  values : ∀ (i : Nat) (bars : Int) v, memo.values[(i, bars)]? = some v → v.Grounded market

/-- From a grounded memory, the first evaluation leaves a grounded memory that keeps all entries,
and its result has a property; the second one does not matter. -/
def Preserves (market : Market) {α : Type} (x _ : Recall α) (P : α → Prop) : Prop :=
  ∀ memo : Memo, memo.Grounded market → (x.runOn memo).2.Grounded market ∧
    memo.Keeps (x.runOn memo).2 ∧ ∀ a, (x.runOn memo).1 = .ok a → P a

section

variable {market : Market}

theorem preserves_correspondence : Correspondence (Preserves market) fun _ => True where
  pure a ha memo hm := ⟨hm, .refl memo, fun b hb => Except.ok.inj hb ▸ ha⟩
  throw e _ memo hm := ⟨hm, .refl memo, nofun⟩
  bind := by
    intro α β x y f g P Q hx hf memo hm
    rw [Recall.runOn_bind]
    obtain ⟨hm', hkeeps, hok⟩ := hx memo hm
    rcases hxm : x.runOn memo with ⟨e | a, memo'⟩
    · rw [hxm] at hm' hkeeps
      exact ⟨hm', hkeeps, nofun⟩
    · rw [hxm] at hm' hkeeps hok
      obtain ⟨hm'', hkeeps', hok'⟩ := hf a (hok a rfl) memo' hm'
      exact ⟨hm'', hkeeps.trans hkeeps', hok'⟩

theorem preserves_series (bars : Int) {P : Series → Prop} (hp : P (market.series.shifted bars))
    (y : Recall Series) : Preserves market (recallSeries market bars) y P := by
  intro memo hm
  obtain ⟨shifted, hs, hrun⟩ := recallSeries_runOn hm.histories bars
  rw [hrun]
  exact ⟨⟨hm.toJustified.shift hs, hm.values⟩, .of_calls_eq rfl,
    fun s h => Except.ok.inj h ▸ hp⟩

theorem Value.grounded_ofOption (r : Option Float) : (Value.ofOption r).Grounded market :=
  grounded_of_kind (by cases r <;> simp [ofOption, kind])

/-- A call adds no entry or one that is right. -/
theorem preserves_call (f : Builtin) {arguments : List Value} (bars : Int)
    (ha : ∀ v ∈ arguments, v.Grounded market) (y : Recall Value) :
    Preserves market (recallCall market f arguments bars) y (Value.Grounded market) := by
  intro memo hm
  cases hcall : memo.call? ⟨f, arguments.map Value.key, bars⟩ with
  | some r =>
    rw [recallCall_of_some hcall]
    exact ⟨hm, .refl memo, fun v hv => Except.ok.inj hv ▸ Value.grounded_ofOption r⟩
  | none =>
    obtain ⟨shifted, hs, hrun⟩ := recallCall_of_none hm.histories hcall
    have hshift := hm.toJustified.shift hs
    rw [hrun]
    cases hr : f.apply arguments (market.series.shifted bars) with
    | error e => exact ⟨⟨hshift, hm.values⟩, .of_calls_eq rfl, nofun⟩
    | ok r =>
      refine ⟨⟨⟨fun entry he => ?_, hs⟩, hm.values⟩, ⟨List.suffix_cons _ _, ?_⟩,
        fun v hv => Except.ok.inj hv ▸ Value.grounded_ofOption r⟩
      · rcases List.mem_cons.1 he with rfl | he
        · exact ⟨⟨f, arguments, bars⟩, trivial, ha, rfl, hr⟩
        · exact hm.calls entry he
      · have hnone : Memo.call? { memo with shifted } ⟨f, arguments.map Value.key, bars⟩ = none :=
          hcall
        exact (Memo.extends_addCall hnone r).calls

/-- A call that fails adds no entry to any memory. -/
theorem calls_of_recallCall_error {f : Builtin} {arguments : List Value} {bars : Int} {memo : Memo}
    {e : EvalError} (h : ((recallCall market f arguments bars).runOn memo).1 = .error e) :
    ((recallCall market f arguments bars).runOn memo).2.calls = memo.calls := by
  cases hcall : memo.call? ⟨f, arguments.map Value.key, bars⟩ with
  | some r => rw [recallCall_of_some hcall]
  | none =>
    obtain ⟨s, shifted, hrun, -⟩ := recallSeries_settled market bars memo
    have hrun := hrun memo.values
    simp only [recallCall, Recall.runOn_bind, Recall.runOn_get, hcall, hrun,
      Recall.runOn_liftError] at h ⊢
    cases hr : f.apply arguments s with
    | error e => rfl
    | ok r =>
      simp only [hr, Recall.runOn_modify, Recall.runOn_pure] at h
      cases h

theorem preserves_alignment (market : Market) :
    Alignment (Preserves market) (fun _ => True) (Value.Grounded market) (fun _ => True)
      (fun _ => True) 0 market market (Access.recall market) (Access.recall market) where
  toCorrespondence := preserves_correspondence
  tolerance := rfl
  plain _ := Value.grounded_of_kind
  argument _ := trivial
  succ _ _ := trivial
  read v bars _ _ := by
    rw [Int.add_zero]
    exact preserves_correspondence.read (fun _ => Value.grounded_of_kind) rfl
      (fun _ => ⟨rfl, fun _ _ => trivial⟩) (fun _ => ⟨rfl, fun _ _ => trivial⟩)
      fun l _ => preserves_series bars (Value.grounded_shifted market l bars) _
  call f arguments bars _ ha := by
    rw [Int.add_zero]
    exact preserves_call f bars ha _

/-- The evaluation of a node keeps all entries, also if it fails. -/
theorem preserves_meaning (market : Market) {g : Graph} (hg : g.Ordered) : ∀ i, i < g.size →
    ∀ bars, Preserves market (g.meaning market i bars) (g.meaning market i bars)
      (Value.Grounded market) := by
  refine hg.induction fun i hi ih bars memo hm => ?_
  have hnode : Preserves market
      ((g.nodes[i].map (g.meaning market)).eval market (Access.recall market) (bars + 0))
      ((g.nodes[i].map (g.meaning market)).eval market (Access.recall market) bars)
      (Value.Grounded market) :=
    (preserves_alignment market).eval g.nodes[i].admissible_true
      (fun c hc b _ => by rw [Int.add_zero]; exact ih c hc b) trivial
  rw [Int.add_zero] at hnode
  rw [Graph.meaning_eq market hg hi]
  cases hv : memo.values[(i, bars)]? with
  | some v =>
    rw [recallValue_of_some hv]
    exact ⟨hm, .refl memo, fun w hw => Except.ok.inj hw ▸ hm.values i bars v hv⟩
  | none =>
    obtain ⟨hm', hkeeps, hok⟩ := hnode memo hm
    rw [recallValue_of_none hv]
    rcases hrun : ((g.nodes[i].map (g.meaning market)).eval market (Access.recall market)
      bars).runOn memo with ⟨e | v, memo'⟩
    · rw [hrun] at hm' hkeeps
      exact ⟨hm', hkeeps, nofun⟩
    · rw [hrun] at hm' hkeeps hok
      have hv : v.Grounded market := hok v rfl
      refine ⟨⟨⟨hm'.calls, hm'.histories⟩, fun j b w hw => ?_⟩,
        hkeeps.trans (.of_calls_eq rfl), fun w hw => Except.ok.inj hw ▸ hv⟩
      simp only [Std.HashMap.getElem?_insert] at hw
      split at hw
      · exact Option.some.inj hw ▸ hv
      · exact hm'.values j b w hw

end

/-! ### Steps of a session -/

namespace Session

/-- The session after some steps. -/
def after (s : Session) (steps : List Step) : Session :=
  steps.foldl (fun s step => (s.play step).2) s

/-- One session is right and keeps the entries of another one. -/
structure Continues (market : Market) (s s' : Session) : Prop where
  sound : s'.Sound market fun _ => True
  keeps : s.memo.Keeps s'.memo

variable {market : Market} {s : Session}

theorem Sound.evaluate_continues (h : s.Sound market fun _ => True) {f : Formula}
    (hf : f.WellFormed) : Continues market s (s.evaluate f).2 := by
  obtain ⟨_, memo⟩ := s
  obtain ⟨rfl, -, hj⟩ := h
  rw [evaluate_eq, Formula.recall_eq]
  obtain ⟨hm, hkeeps, -⟩ := preserves_meaning _ hf.ordered f.root hf.root_lt 0
    { memo with values := ∅ } ⟨⟨hj.calls, hj.histories⟩, fun _ _ _ hv => by simp at hv⟩
  exact ⟨⟨rfl, rfl, hm.calls, hm.histories⟩, hkeeps.suffix, hkeeps.found⟩

theorem Sound.runSide_continues (h : s.Sound market fun _ => True) {rule : Option Rule}
    (hr : ∀ r ∈ rule, r.formula.WellFormed) : Continues market s (Rules.runSide rule s).2 := by
  cases rule with
  | none => exact ⟨h, .refl _⟩
  | some r => exact h.evaluate_continues (hr r rfl)

theorem Sound.run_continues (h : s.Sound market fun _ => True) {rules : Rules}
    (hw : rules.WellFormed) : Continues market s (rules.run s).2 := by
  obtain ⟨hsound, hkeeps⟩ := h.runSide_continues hw.buy
  rw [Rules.run]
  rcases hrun : Rules.runSide rules.buy s with ⟨e | buy, s'⟩
  · rw [hrun] at hsound hkeeps
    exact ⟨hsound, hkeeps⟩
  · rw [hrun] at hsound hkeeps
    obtain ⟨hsound', hkeeps'⟩ := Sound.runSide_continues (s := s') hsound hw.sell
    rcases hrun' : Rules.runSide rules.sell s' with ⟨e | sell, s''⟩
    all_goals
      rw [hrun'] at hsound' hkeeps'
      simp only [hrun']
      exact ⟨hsound', hkeeps.trans hkeeps'⟩

theorem Sound.play_continues (h : s.Sound market fun _ => True) (step : Step) :
    Continues market s (s.play step).2 := by
  cases step with
  | evaluate f hf => exact h.evaluate_continues hf
  | run rules hw => exact h.run_continues hw
  | seriesAt bars =>
    obtain ⟨history, shifted, hrun, -⟩ := recallSeries_settled s.market bars s.memo
    have hrun : (recallSeries s.market bars).run.run s.memo = _ := hrun s.memo.values
    refine ⟨(h.seriesAt bars).2, .of_calls_eq ?_⟩
    change s.memo.calls = (s.seriesAt bars).2.memo.calls
    rw [Session.seriesAt, hrun]

theorem Sound.after_continues (h : s.Sound market fun _ => True) (steps : List Step) :
    Continues market s (s.after steps) := by
  induction steps generalizing s with
  | nil => exact ⟨h, .refl _⟩
  | cons step steps ih =>
    obtain ⟨hsound, hkeeps⟩ := h.play_continues step
    obtain ⟨hsound', hkeeps'⟩ := ih hsound
    exact ⟨hsound', hkeeps.trans hkeeps'⟩

/-- **Every entry is justified and permanent.**  Whatever a session has been asked, its market is
that of its start, every call that it remembers is a builtin function with the result it has on the
arguments that the key stands for, and whatever it is asked next, the entries stay and are found.  A
call that fails adds no entry. -/
theorem entries_justified (market : Market) (steps : List Step) :
    let s := (start market).after steps
    s.market = market ∧ (∀ entry ∈ s.memo.calls, entry.Justified s) ∧
      (∀ more, s.memo.Keeps (s.after more).memo) ∧
      ∀ f arguments bars memo error,
        ((recallCall market f arguments bars).runOn memo).1 = .error error →
          ((recallCall market f arguments bars).runOn memo).2.calls = memo.calls := by
  intro s
  obtain ⟨hsound, -⟩ := (sound_start market fun _ => True).after_continues steps
  refine ⟨hsound.market_eq, fun entry he => hsound.entry he,
    fun more => (hsound.after_continues more).keeps, fun f arguments bars memo error he => ?_⟩
  exact calls_of_recallCall_error he

/-- The highest close is remembered though the evaluation fails, and a call without arguments is
not. -/
theorem entries_justified_highest :
    let market : Market := ⟨"A", ⟨4, 0⟩, ⟨[1, 2, 3], fun _ => none, by simp⟩, 0.001⟩
    let e : Expr := .mk (.binary "+" (.mk (.call "highest" [.mk (.number 2)])) (.mk (.name "open")))
    let ask : Step := .evaluate (.ofExpr e) (Formula.wellFormed_ofExpr e)
    let s := (start market).after [ask]
    let entry : CallEntry := ⟨⟨.price .highest, [.number 2], 0⟩, some 3⟩
    s.memo.calls = [entry] ∧ entry.Justified s ∧ s.memo.Keeps (s.after [.seriesAt 1, ask]).memo ∧
      ((recallCall market (.price .highest) [] 0).runOn s.memo).1 =
        .error (.argument (.count "highest" 1 (some 1))) ∧
      ((recallCall market (.price .highest) [] 0).runOn s.memo).2.calls = [entry] := by
  intro market e ask s entry
  have hf := Formula.wellFormed_ofExpr e
  have hcalls : s.memo.calls = [entry] := by
    change ((start market).evaluate (.ofExpr e)).2.memo.calls = [entry]
    rw [evaluate_eq_recall hf, Formula.expr_ofExpr]
    rfl
  have hfails : ((recallCall market (.price .highest) [] 0).runOn s.memo).1 =
      .error (.argument (.count "highest" 1 (some 1))) := by
    have hnone : s.memo.call? ⟨.price .highest, [], 0⟩ = none := by
      rw [Memo.call?, hcalls]
      rfl
    simp only [recallCall, Recall.runOn_bind, Recall.runOn_get, List.map_nil, hnone]
    rfl
  obtain ⟨-, hjustified, hkeeps, herror⟩ := entries_justified market [ask]
  refine ⟨hcalls, hjustified entry ?_, hkeeps _, hfails, (herror _ _ _ _ _ hfails).trans hcalls⟩
  exact hcalls ▸ List.mem_singleton_self entry

end Session

end BarScript
