import BarScript.Proofs.Evaluation.Correspondence
import BarScript.Proofs.Expr.Every
import BarScript.Proofs.Market.Past
import BarScript.Proofs.Session.Recall

/-!
# A history node is a journey in time

Looking `n` bars back at a formula (`Formula.history`) gives what the formula gave `n` bars ago:
its value, or its error, in the market as it was then (`Market.ago`), with the close of that time
for the quoted price and the change of that time for the quoted change, and where no name reads
the quote, with any quote (`Session.evaluate_history`).

The evaluation now and the one of then go side by side.  What the one remembers for `bars + n` bars
is what the other one remembers for `bars` bars (`Memo.Apart`).
-/

namespace BarScript

/-! ### Two memories -/

/-- The entry of the same call some bars earlier. -/
def CallEntry.earlier (n : Nat) (e : CallEntry) : CallEntry :=
  ⟨{ e.key with bars := e.key.bars + n }, e.result⟩

/-- What is remembered now for `bars + n` bars is what is remembered then for `bars` bars, of the
nodes before `size`. -/
structure Memo.Apart (market market' : Market) (n size : Nat) (now before : Memo) : Prop where
  now_histories : now.Histories market
  before_histories : before.Histories market'
  calls : now.calls = before.calls.map (CallEntry.earlier n)
  values : ∀ (i : Nat) (bars : Int), i < size →
    now.values[(i, bars + n)]? = before.values[(i, bars)]?

/-- Evaluations now and then that give the same from memories that are apart, and leave such
memories. -/
def Tracks (market market' : Market) (n size : Nat) {α : Type} (x y : Recall α) (P : α → Prop) :
    Prop :=
  ∀ now before : Memo, now.Apart market market' n size before →
    (x.runOn now).1 = (y.runOn before).1 ∧
      (x.runOn now).2.Apart market market' n size (y.runOn before).2 ∧
        ∀ a, (y.runOn before).1 = .ok a → P a

section

variable {market market' : Market} {n size : Nat} {now before : Memo}

theorem Memo.apart_empty : Memo.empty.Apart market market' n size .empty where
  now_histories _ _ h := by simp [empty] at h
  before_histories _ _ h := by simp [empty] at h
  calls := rfl
  values _ _ _ := by simp [empty]

namespace Memo.Apart

theorem shift (h : now.Apart market market' n size before) {s s' : Std.HashMap Int Series}
    (hs : ({ now with shifted := s } : Memo).Histories market)
    (hs' : ({ before with shifted := s' } : Memo).Histories market') :
    ({ now with shifted := s } : Memo).Apart market market' n size { before with shifted := s' } :=
  ⟨hs, hs', h.calls, h.values⟩

theorem addCall (h : now.Apart market market' n size before) (e : CallEntry) :
    ({ now with calls := e.earlier n :: now.calls } : Memo).Apart market market' n size
      { before with calls := e :: before.calls } :=
  ⟨h.now_histories, h.before_histories, by rw [h.calls, List.map_cons], h.values⟩

theorem addValue (h : now.Apart market market' n size before) {i : Nat} {bars : Int} {v : Value} :
    ({ now with values := now.values.insert (i, bars + n) v } : Memo).Apart market market' n size
      { before with values := before.values.insert (i, bars) v } := by
  refine ⟨h.now_histories, h.before_histories, h.calls, fun j b hj => ?_⟩
  simp only [Std.HashMap.getElem?_insert, beq_iff_eq, Prod.mk.injEq, h.values j b hj]
  have hiff : (i = j ∧ bars + (n : Int) = b + n) ↔ i = j ∧ bars = b := by omega
  simp only [hiff]

theorem call?_eq (h : now.Apart market market' n size before) (f : Builtin)
    (keys : List ArgumentKey) (bars : Int) :
    now.call? ⟨f, keys, bars + n⟩ = before.call? ⟨f, keys, bars⟩ := by
  have hkey : ((fun e : CallEntry => e.key == ⟨f, keys, bars + n⟩) ∘ CallEntry.earlier n) =
      fun e => e.key == ⟨f, keys, bars⟩ := by
    funext e
    change (e.key.function == f &&
        (e.key.arguments == keys && e.key.bars + (n : Int) == bars + n)) =
      (e.key.function == f && (e.key.arguments == keys && e.key.bars == bars))
    rw [show (e.key.bars + (n : Int) == bars + n) = (e.key.bars == bars) by
      rw [Bool.eq_iff_iff, beq_iff_eq, beq_iff_eq]; omega]
  rw [Memo.call?, Memo.call?, h.calls, List.find?_map, hkey, Option.map_map]
  rfl

end Memo.Apart

theorem tracks_correspondence : Correspondence (Tracks market market' n size) fun _ => True where
  pure a ha now before h := ⟨rfl, h, fun b hb => by cases hb; exact ha⟩
  throw e _ now before h := ⟨rfl, h, fun b hb => by cases hb⟩
  bind := by
    intro α β x y f g P Q hx hf now before h
    obtain ⟨hres, h', hp⟩ := hx now before h
    rw [Recall.runOn_bind, Recall.runOn_bind]
    rcases hy : y.runOn before with ⟨r, before'⟩
    rcases hx : x.runOn now with ⟨r', now'⟩
    rw [hx, hy] at hres h'
    rw [hy] at hp
    subst hres
    cases r' with
    | ok a => exact hf a (hp a rfl) now' before' h'
    | error e => exact ⟨rfl, h', fun b hb => by cases hb⟩

theorem tracks_series {bars : Int}
    (hs : market.series.shifted (bars + n) = market'.series.shifted bars) :
    Tracks market market' n size (recallSeries market (bars + n)) (recallSeries market' bars)
      fun _ => True := by
  intro now before h
  obtain ⟨s, hnow, hrun⟩ := recallSeries_runOn h.now_histories (bars + n)
  obtain ⟨s', hbefore, hrun'⟩ := recallSeries_runOn h.before_histories bars
  rw [hrun, hrun', hs]
  exact ⟨rfl, h.shift hnow hbefore, fun _ _ => trivial⟩

theorem tracks_call {f : Builtin} {arguments : List Value} {bars : Int}
    (hs : market.series.shifted (bars + n) = market'.series.shifted bars) :
    Tracks market market' n size (recallCall market f arguments (bars + n))
      (recallCall market' f arguments bars) fun _ => True := by
  intro now before h
  have hkey := h.call?_eq f (arguments.map Value.key) bars
  cases hcall : before.call? ⟨f, arguments.map Value.key, bars⟩ with
  | some r =>
    rw [recallCall_of_some hcall, recallCall_of_some (hkey.trans hcall)]
    exact ⟨rfl, h, fun _ _ => trivial⟩
  | none =>
    obtain ⟨s, hnow, hrun⟩ := recallCall_of_none h.now_histories (hkey.trans hcall)
    obtain ⟨s', hbefore, hrun'⟩ := recallCall_of_none h.before_histories hcall
    rw [hrun, hrun', hs]
    cases f.apply arguments (market'.series.shifted bars) with
    | ok r => exact ⟨rfl, (h.shift hnow hbefore).addCall ⟨⟨f, _, bars⟩, r⟩, fun _ _ => trivial⟩
    | error e => exact ⟨rfl, h.shift hnow hbefore, fun _ _ => trivial⟩

/-- Reading and calling now, `n` bars further back, is reading and calling then. -/
theorem tracks_alignment {quote : Quote} {A : Variable → Prop}
    (hc : A .close → market.closeAt n = .ok (some quote.price))
    (hd : A .change ∨ A .changePercent → market.changeAt n = .ok (some quote.change)) :
    Alignment (Tracks market (market.ago n quote) n size) (fun _ => True) (fun _ => True) A (0 ≤ ·)
      n market (market.ago n quote) (Access.recall market)
      (Access.recall (market.ago n quote)) where
  toCorrespondence := tracks_correspondence
  tolerance := rfl
  plain _ _ := trivial
  argument _ := trivial
  succ bars h := by omega
  read v bars hv hbars := by
    have hshift := Series.shifted_shifted market.series (m := n) (n := bars) (by omega) hbars
    refine tracks_correspondence.read (fun _ _ => trivial) (by rfl) ?_ ?_ fun l _ => ?_
    · -- at that time itself the quote is read, before it the closes
      rintro rfl
      refine ⟨?_, fun _ _ => trivial⟩
      rcases hbars.eq_or_lt with rfl | hpos
      · rw [Int.zero_add, hc hv]
        rfl
      · exact Market.closeAt_ago quote hpos
    · intro hchange
      refine ⟨?_, fun _ _ => trivial⟩
      rcases hbars.eq_or_lt with rfl | hpos
      · have hA : A .change ∨ A .changePercent := by
          rcases hchange with rfl | rfl
          · exact .inl hv
          · exact .inr hv
        rw [Int.zero_add, hd hA]
        rfl
      · exact Market.changeAt_ago quote hpos
    · exact tracks_series hshift.symm
  call f arguments bars hbars _ :=
    tracks_call (Series.shifted_shifted market.series (m := n) (by omega) hbars).symm

/-- A node means now, `n` bars further back, what it meant then. -/
theorem tracks_meaning {quote : Quote} {A : Variable → Prop} {p : Node Unit → Prop} {g : Graph}
    (hg : g.Ordered) (hc : A .close → market.closeAt n = .ok (some quote.price))
    (hd : A .change ∨ A .changePercent → market.changeAt n = .ok (some quote.change))
    (hp : ∀ {n : Node Nat}, p n.bare → n.Admissible (fun _ => True) A (0 ≤ ·)) :
    ∀ i, i < g.size → (g.expand i).Every p → ∀ bars : Int, 0 ≤ bars →
      Tracks market (market.ago n quote) n g.size (g.meaning market i (bars + n))
        (g.meaning (market.ago n quote) i bars) fun _ => True := by
  refine hg.induction fun i hi ih he bars hbars now before h => ?_
  obtain ⟨hnow, hlater⟩ := (Graph.every_expand hg hi).1 he
  have hnode : Tracks market (market.ago n quote) n g.size _ _ fun _ => True :=
    (tracks_alignment hc hd).eval (hp hnow) (fun c hc => ih c hc (hlater c hc)) hbars
  rw [Graph.meaning_eq market hg hi, Graph.meaning_eq _ hg hi]
  cases hv : before.values[(i, bars)]? with
  | some v =>
    rw [recallValue_of_some hv, recallValue_of_some ((h.values i bars hi).trans hv)]
    exact ⟨rfl, h, fun _ _ => trivial⟩
  | none =>
    -- neither side remembers the value, as the memories are apart
    obtain ⟨hres, h', -⟩ := hnode now before h
    rw [recallValue_of_none hv, recallValue_of_none ((h.values i bars hi).trans hv)]
    rcases hx : ((g.nodes[i].map (g.meaning market)).eval market (Access.recall market)
      (bars + n)).runOn now with ⟨r, now'⟩
    rcases hy : ((g.nodes[i].map (g.meaning (market.ago n quote))).eval (market.ago n quote)
      (Access.recall (market.ago n quote)) bars).runOn before with ⟨r', before'⟩
    rw [hx, hy] at hres h'
    subst hres
    cases r with
    | ok v => exact ⟨rfl, h'.addValue, fun _ _ => trivial⟩
    | error e => exact ⟨rfl, h', fun _ _ => trivial⟩

end

/-! ### Looking back at a formula -/

/-- The formula some bars ago. -/
def Formula.history (f : Formula) (bars : Int) : Formula :=
  ⟨f.graph.push (.history f.root bars), f.graph.size⟩

namespace Formula

variable {f : Formula}

theorem WellFormed.history (hf : f.WellFormed) (bars : Int) : (f.history bars).WellFormed :=
  ⟨hf.ordered.push (by simpa [Node.children] using hf.root_lt), by simp [Formula.history]⟩

theorem expr_history (hf : f.WellFormed) (bars : Int) :
    (f.history bars).expr = .mk (.history f.expr bars) :=
  Graph.expand_push_size hf.ordered (by simpa [Node.children] using hf.root_lt)

/-- The history of a formula is the formula, so many bars ago. -/
theorem recall_history (market : Market) (hf : f.WellFormed) (bars : Int) :
    (((f.history bars).recall market).runOn .empty).1 =
      ((f.graph.meaning market f.root (0 + bars)).runOn .empty).1 := by
  have hg : (f.graph.push (.history f.root bars)).Ordered := (hf.history bars).ordered
  have hroot : (f.graph.push (.history f.root bars)).meaning market f.root =
      f.graph.meaning market f.root := (Graph.Extends.push _ _).value_eq _ hf.root_lt
  rw [recall_eq, Formula.history, Graph.meaning_eq market hg (by simp), Graph.getElem_push_size,
    recallValue_of_none (by simp [Memo.empty])]
  simp only [Node.map, Node.eval, hroot]
  rcases (f.graph.meaning market f.root (0 + bars)).runOn .empty with ⟨_ | _, _⟩ <;> rfl

end Formula

theorem Node.admissible_of_looksBack {n : Node Nat} (h : n.bare.LooksBack) :
    n.Admissible (fun _ => True) (fun _ => True) (0 ≤ ·) := by
  cases n with
  | name symbol => simp only [Admissible]; split <;> trivial
  | history c bars =>
    intro b hb
    have h : 0 ≤ bars := h
    omega
  | _ => simp [Admissible]

/-- A variable that does not read the latest quote. -/
def Variable.Unquoted (v : Variable) : Prop := v ≠ close ∧ v ≠ change ∧ v ≠ changePercent

theorem Node.admissible_of_unquoted {n : Node Nat} (h : n.bare.LooksBack ∧ n.bare.Unquoted) :
    n.Admissible (fun _ => True) Variable.Unquoted (0 ≤ ·) := by
  cases n with
  | name symbol =>
    simp only [Admissible]
    cases hv : Variable.ofName? symbol with
    | none => trivial
    | some v => exact Variable.not_quote_of_ofName? h.2 hv
  | history c bars => exact Node.admissible_of_looksBack (n := .history c bars) h.1
  | _ => simp [Admissible]

namespace Session

/-- The history of a formula is evaluated as the formula was then. -/
theorem evaluate_history_of_every {market : Market} {f : Formula} (hf : f.WellFormed) {n : Nat}
    {quote : Quote} {A : Variable → Prop} {p : Node Unit → Prop} (he : f.expr.Every p)
    (hc : A .close → market.closeAt n = .ok (some quote.price))
    (hd : A .change ∨ A .changePercent → market.changeAt n = .ok (some quote.change))
    (hp : ∀ {n : Node Nat}, p n.bare → n.Admissible (fun _ => True) A (0 ≤ ·)) :
    ((start market).evaluate (f.history n)).1 = ((start (market.ago n quote)).evaluate f).1 := by
  obtain ⟨hres, -, -⟩ := tracks_meaning hf.ordered hc hd hp f.root hf.root_lt he 0 (by omega)
    .empty .empty Memo.apart_empty
  change Except.map Value.collapse (((f.history n).recall market).runOn .empty).1 =
    Except.map Value.collapse ((f.recall (market.ago n quote)).runOn .empty).1
  rw [Formula.recall_history market hf, hres]
  rfl

/-- **Looking back at a formula gives what it gave then**, with the close and the change of that
time as the quote if there are two bars before it, and with any quote if no name reads the quote. -/
theorem evaluate_history (market : Market) {f : Formula} (hf : f.WellFormed)
    (hback : f.expr.Every Node.LooksBack) {n : Nat} (hn : 1 ≤ n) :
    (∀ hl : n + 1 < market.series.length, ((start market).evaluate (f.history n)).1 =
      ((start (market.ago n (market.series.quote n hl))).evaluate f).1) ∧
    (f.expr.Every Node.Unquoted → ∀ quote, ((start market).evaluate (f.history n)).1 =
      ((start (market.ago n quote)).evaluate f).1) := by
  refine ⟨fun hl => ?_, fun hquote quote => ?_⟩
  · exact evaluate_history_of_every hf hback (fun _ => Market.closeAt_of_lt hn (by omega))
      (fun _ => Market.changeAt_of_lt hn hl) Node.admissible_of_looksBack
  · exact evaluate_history_of_every hf (hback.and hquote) (fun h => absurd rfl h.1)
      (fun h => h.elim (fun h => absurd rfl h.2.1) fun h => absurd rfl h.2.2)
      Node.admissible_of_unquoted

/-- Whether the close was above the average of two, one bar ago. -/
theorem evaluate_history_above_average :
    let market : Market := ⟨"A", ⟨9, 0⟩, ⟨[1, 2, 4, 3], fun _ => none, by simp⟩, 0.001⟩
    let average : Expr := .mk (.call "sma" [.mk (.number 2)])
    let f : Formula := .ofExpr (.mk (.comparison ">" (.mk (.name "close")) average))
    f.WellFormed ∧ f.expr.Every Node.LooksBack ∧
      ((start market).evaluate (f.history 1)).1 =
        ((start (market.ago 1 ⟨4, (4 - 2) / 2⟩)).evaluate f).1 := by
  intro market average f
  have hf : f.WellFormed := Formula.wellFormed_ofExpr _
  have hback : f.expr.Every Node.LooksBack := by
    rw [Formula.expr_ofExpr]
    simp [average, Expr.every_mk, Node.bare, Node.map, Node.children, Node.LooksBack]
  have hl : 1 + 1 < market.series.length := by decide
  have := (evaluate_history market hf hback (Nat.le_refl 1)).1 hl
  have hquote : market.series.quote 1 hl = ⟨4, (4 - 2) / 2⟩ := by
    change Quote.mk 4 (if ((2 : Float) == 0) = true then 0 else (4 - 2) / 2) = _
    rw [show ((2 : Float) == 0) = false by decide]
    rfl
  rw [Nat.cast_one, hquote] at this
  exact ⟨hf, hback, this⟩

end Session

end BarScript
