import BarScript.Expr.Document
import BarScript.Proofs.Evaluation.Raises
import BarScript.Proofs.Expr.Document
import BarScript.Proofs.Session.Transparency
import BarScript.Rules

/-!
# Rules from documents

A rule loaded from a document (`Rule.Loaded`) need not look like one from a script: it may hold any
names, operators and numbers of bars, also negative ones.  Still a run of such rules has an outcome,
with one exception (`Rules.loaded_settled`).  A negative number of bars may lead ahead of the last
bar.  There price lists and functions keep to the last bar, but the variables of the latest quote
are looked up in the closes, and this ends the run (`Expr.ReadsQuote`, `Rules.loaded_quote_ne_ok`).
-/

namespace BarScript

/-! ### Quotes ahead of the last bar -/

/-- Whether a node reads a variable of the latest quote ahead of the last bar, if its operands do as
said. -/
def Node.ReadsQuote : Node (Int → Prop) → Int → Prop
  | .name symbol, bars => bars < 0 ∧ symbol ∈ quoteNames
  | .history operand n, bars => operand (bars + n)
  | n, bars => ∃ operand ∈ n.children, operand bars

/-- Somewhere in the expression, looked at some bars ago, is a variable of the latest quote at a bar
ahead of the last one. -/
def Expr.ReadsQuote (e : Expr) : Int → Prop := e.fold Node.ReadsQuote

namespace Expr

theorem readsQuote_mk (n : Node Expr) : (mk n).ReadsQuote = (n.map ReadsQuote).ReadsQuote :=
  fold_mk _ n

/-- What is ahead of the last bar was so before. -/
theorem ReadsQuote.mono {e : Expr} {bars bars' : Int} (hle : bars ≤ bars')
    (h : e.ReadsQuote bars') : e.ReadsQuote bars := by
  induction e using node_induction generalizing bars bars' with
  | h n ih =>
    rw [readsQuote_mk] at h ⊢
    cases n with
    | name symbol => exact ⟨Int.lt_of_le_of_lt hle h.1, h.2⟩
    | history operand m => exact ih operand (by simp [Node.children]) (Int.add_le_add_right hle m) h
    | _ =>
      obtain ⟨_, hmem, h⟩ := h
      obtain ⟨c, hc, rfl⟩ := List.mem_map.1 (Node.children_map ReadsQuote _ ▸ hmem)
      exact ⟨_, Node.children_map ReadsQuote _ ▸ List.mem_map_of_mem hc, ih c hc hle h⟩

/-- A node that is no history reads ahead if an operand does. -/
theorem readsQuote_of_child {n : Node Expr} (hn : ∀ c m, n ≠ .history c m) {c : Expr}
    (hc : c ∈ n.children) {bars : Int} (h : c.ReadsQuote bars) : (mk n).ReadsQuote bars := by
  rw [readsQuote_mk]
  have hmem : c.ReadsQuote ∈ (n.map ReadsQuote).children :=
    Node.children_map ReadsQuote n ▸ List.mem_map_of_mem hc
  cases n with
  | history operand m => exact absurd rfl (hn operand m)
  | name symbol => cases hc
  | _ => exact ⟨_, hmem, h⟩

end Expr

/-! ### Evaluation -/

/-- The errors that are reported, and that of a quote ahead of the last bar. -/
def Expr.Raised (e : Expr) (bars : Int) (error : EvalError) : Prop :=
  error.reported = true ∨ error = .noSuchBar ∧ e.ReadsQuote bars

theorem Expr.raisable_raised : Raisable Expr.Raised where
  operational _ _ _ h := .inl h.reported
  identifier _ _ _ := .inl rfl
  function _ _ _ _ := .inl rfl
  quote symbol hquote bars hneg := .inr ⟨rfl, by rw [readsQuote_mk]; exact ⟨hneg, hquote⟩⟩
  history c n bars error h := h.imp_right (.imp_right fun h => by rw [readsQuote_mk]; exact h)
  operand n hn c hc bars bars' hle error h :=
    h.imp_right (.imp_right fun h => readsQuote_of_child hn hc (h.mono hle))

/-- **Whatever its tree, a formula fails with an error that is reported, or with that of a quote
ahead of the last bar.** -/
theorem Formula.WellFormed.raised {f : Formula} (hf : f.WellFormed) {s : Session} {e : EvalError}
    (h : (s.evaluate f).1 = .error e) : f.expr.Raised 0 e :=
  Expr.raisable_raised.of_evaluate hf h

/-! ### Runs -/

/-- A rule whose formula is the tree of a document, with U+FFFD for the surrogates in it. -/
def Rule.Loaded (r : Rule) : Prop :=
  ∃ text e, Expr.load text = .ok e ∧ r.formula = .ofExpr e.plain

theorem Rule.Loaded.wellFormed {r : Rule} (h : r.Loaded) : r.formula.WellFormed := by
  obtain ⟨_, e, -, heq⟩ := h
  exact heq ▸ Formula.wellFormed_ofExpr e.plain

/-- An expression within the limits whose numbers can be written is that of a document. -/
theorem Rule.loaded_of_within {e : Expr} (hs : e.shape.Within) (hw : e.Every Node.Writable)
    (source : String) : Loaded ⟨source, .ofExpr e⟩ :=
  ⟨_, e.points, Expr.load_dump_points hs hw, by rw [Expr.plain_points]⟩

namespace Rules

/-- The rule of one side fails in a run: that for buying in the session of the run, and that for
selling in the session that the other one leaves. -/
def Fails (rules : Rules) (s : Session) : Prop :=
  (∃ r e, rules.buy = some r ∧ (s.evaluate r.formula).1 = .error e) ∨
    ∃ r e, rules.sell = some r ∧ ((runSide rules.buy s).2.evaluate r.formula).1 = .error e

/-- A loaded rule gives a run its error if it fails, unless a quote is read ahead of the last
bar. -/
theorem loaded_runSide {rule : Option Rule} (h : ∀ r, rule = some r → r.Loaded) (s : Session) :
    (∃ result, (runSide rule s).1 = .ok result ∧ ∀ r e, rule = some r →
      (s.evaluate r.formula).1 = .error e → result = some (.error e.message)) ∨
    (runSide rule s).1 = .error .noSuchBar ∧
      ∃ r, rule = some r ∧ r.formula.expr.ReadsQuote 0 := by
  cases rule with
  | none => exact .inl ⟨none, rfl, nofun⟩
  | some r =>
    simp only [runSide]
    cases hev : (s.evaluate r.formula).1 with
    | ok v =>
      refine .inl ⟨some (.ok v), rfl, fun r' e hr he => ?_⟩
      cases hr
      rw [hev] at he
      cases he
    | error e =>
      by_cases hreported : e.reported = true
      · refine .inl ⟨some (.error e.message), by simp only [solo, hreported, if_true]; rfl, ?_⟩
        intro r' e' hr he
        cases hr
        rw [hev] at he
        cases he
        rfl
      · rcases (h r rfl).wellFormed.raised hev with h' | ⟨rfl, hquote⟩
        · exact absurd h' hreported
        · exact .inr ⟨rfl, r, rfl, hquote⟩

/-- An error of either side is the outcome. -/
theorem outcome_error {buy sell : Option (Except String Value)}
    (h : (∃ m, buy = some (.error m)) ∨ ∃ m, sell = some (.error m)) :
    ∃ message, outcome buy sell = .failed message := by
  rcases h with ⟨m, rfl⟩ | ⟨m, rfl⟩
  · exact ⟨m, rfl⟩
  · rcases buy with _ | m' | v
    · exact ⟨m, rfl⟩
    · exact ⟨m', rfl⟩
    · exact ⟨m, rfl⟩

/-- **A run of loaded rules has an outcome, unless a quote is read ahead of the last bar.**  If the
evaluation of a side fails, the outcome has the error and no signal and no value. -/
theorem loaded_settled (rules : Rules)
    (h : ∀ r, rules.buy = some r ∨ rules.sell = some r → r.Loaded) (s : Session) :
    ((∃ o, (rules.run s).1 = .ok o) ∨ (rules.run s).1 = .error (.eval .noSuchBar) ∧
      ∃ r, (rules.buy = some r ∨ rules.sell = some r) ∧ r.formula.expr.ReadsQuote 0) ∧
    ∀ o, (rules.run s).1 = .ok o → rules.Fails s → ∃ message, o = .failed message := by
  rw [run]
  rcases loaded_runSide (fun r hr => h r (.inl hr)) s with
    ⟨buy, hbuy, hbuyError⟩ | ⟨hbuy, r, hr, hq⟩
  · rcases hrun : runSide rules.buy s with ⟨result, s'⟩
    rw [hrun] at hbuy
    subst hbuy
    rcases loaded_runSide (fun r hr => h r (.inr hr)) s' with
      ⟨sell, hsell, hsellError⟩ | ⟨hsell, r, hr, hq⟩
    · rcases hrun' : runSide rules.sell s' with ⟨result, s''⟩
      rw [hrun'] at hsell
      subst hsell
      simp only [hrun']
      refine ⟨.inl ⟨_, rfl⟩, fun o ho hfails => ?_⟩
      cases ho
      rw [Fails, hrun] at hfails
      refine outcome_error (hfails.imp ?_ ?_)
      · rintro ⟨r, e, hr, he⟩
        exact ⟨_, hbuyError r e hr he⟩
      · rintro ⟨r, e, hr, he⟩
        exact ⟨_, hsellError r e hr he⟩
    · rcases hrun' : runSide rules.sell s' with ⟨result, s''⟩
      rw [hrun'] at hsell
      subst hsell
      simp only [hrun']
      exact ⟨.inr ⟨trivial, r, .inr hr, hq⟩, fun o ho => by cases ho⟩
  · rcases hrun : runSide rules.buy s with ⟨result, s'⟩
    rw [hrun] at hbuy
    subst hbuy
    exact ⟨.inr ⟨rfl, r, .inl hr, hq⟩, fun o ho => by cases ho⟩

/-- The square of the close, written with an operator that does not exist. -/
theorem loaded_settled_power :
    let market : Market := ⟨"A", ⟨4, 0⟩, ⟨[1, 2, 3], fun _ => none, by simp⟩, 0.001⟩
    let e : Expr := .mk (.binary "^" (.mk (.name "close")) (.mk (.number 2)))
    let rules : Rules := ⟨some ⟨"", .ofExpr e⟩, none⟩
    (∀ r, rules.buy = some r ∨ rules.sell = some r → r.Loaded) ∧ rules.Fails (.start market) ∧
      ∃ message, (rules.run (.start market)).1 = .ok (.failed message) := by
  intro market e rules
  have hwritable : e.Every Node.Writable := by
    simp only [e, Expr.every_mk, Node.children, List.forall_mem_cons, List.not_mem_nil,
      false_imp_iff, implies_true, and_true, Node.bare, Node.map, Node.Writable]
    exact ⟨trivial, trivial, rfl⟩
  have hloaded : ∀ r, rules.buy = some r ∨ rules.sell = some r → r.Loaded := by
    rintro r (hr | hr) <;> cases hr
    exact Rule.loaded_of_within (by decide) hwritable ""
  have hfails : rules.Fails (.start market) := by
    have hcalls : e.callsNow market = [] := rfl
    have hnow := ((Session.sound_start market fun _ => False).evaluate (fun _ _ h => h.elim)
      (Formula.wellFormed_ofExpr e) (by simp [hcalls])).1
    rw [Formula.expr_ofExpr] at hnow
    exact .inl ⟨_, .unknownOperator .binary "^", rfl, hnow.trans rfl⟩
  obtain ⟨⟨o, ho⟩ | ⟨-, r, hr, hquote⟩, houtcome⟩ := loaded_settled rules hloaded (.start market)
  · obtain ⟨message, rfl⟩ := houtcome o ho hfails
    exact ⟨hloaded, hfails, message, ho⟩
  · -- the close is read at the last bar
    rcases hr with hr | hr <;> cases hr
    simp only [Formula.expr_ofExpr, e, Expr.readsQuote_mk, Node.map, Node.ReadsQuote, Node.children,
      List.mem_cons, List.not_mem_nil, or_false, exists_eq_or_imp, exists_eq_left] at hquote
    rcases hquote with ⟨hneg, -⟩ | ⟨_, h, -⟩
    · exact absurd hneg (by decide)
    · cases h

/-- **A quote ahead of the last bar ends the run**: the close one bar ahead, loaded from its
document. -/
theorem loaded_quote_ne_ok :
    let market : Market := ⟨"A", ⟨4, 0⟩, ⟨[1, 2, 3], fun _ => none, by simp⟩, 0.001⟩
    let e : Expr := .mk (.history (.mk (.name "close")) (-1))
    let rules : Rules := ⟨some ⟨"", .ofExpr e⟩, none⟩
    (∀ r, rules.buy = some r ∨ rules.sell = some r → r.Loaded) ∧
      (rules.run (.start market)).1 = .error (.eval .noSuchBar) ∧
      ¬∃ o, (rules.run (.start market)).1 = .ok o := by
  intro market e rules
  have hwritable : e.Every Node.Writable := by
    simp only [e, Expr.every_mk, Node.children, List.forall_mem_cons, List.not_mem_nil,
      false_imp_iff, implies_true, and_true, Node.bare, Node.map, Node.Writable]
    decide +kernel
  have hloaded : ∀ r, rules.buy = some r ∨ rules.sell = some r → r.Loaded := by
    rintro r (hr | hr) <;> cases hr
    exact Rule.loaded_of_within (by decide) hwritable ""
  have hrun : (rules.run (.start market)).1 = .error (.eval .noSuchBar) := by
    have hw : rules.WellFormed := ⟨fun r hr => (hloaded r (.inl hr)).wellFormed,
      fun r hr => (hloaded r (.inr hr)).wellFormed⟩
    have hplain : rules.plain market = .error (.eval .noSuchBar) := by
      simp only [rules, plain, plainSide, Formula.expr_ofExpr]
      rfl
    have hcalls : rules.calls market = [] := by
      simp only [rules, calls, plainSide, sideCalls, Formula.expr_ofExpr]
      rfl
    rw [((Session.sound_start market fun _ => False).run (fun _ _ h => h.elim) hw
      (by simp [hcalls])).1, hplain]
  refine ⟨hloaded, hrun, ?_⟩
  rintro ⟨o, ho⟩
  rw [hrun] at ho
  cases ho

end Rules

end BarScript
