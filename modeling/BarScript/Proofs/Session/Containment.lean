import BarScript.Proofs.Evaluation.Containment
import BarScript.Proofs.Session.Compile

/-!
# Compiled rules always have an outcome

A rule compiled from a text (`Rule.Compiled`) is a formula of known names that the grammar allows.
Its evaluation, in any session, gives a value that is no price list, or fails because of the values
it meets; a run of such rules reports such a failure as its outcome (`Rules.compiled_contained`).
-/

namespace BarScript

open Grammar

/-! ### Compiled rules -/

/-- A rule that comes from a text: the result of a script, or a side of a combined script. -/
inductive Rule.Compiled : Rule → Prop
  | script {script : String} {r : Rule} (h : Rule.compile script = .ok r) : Compiled r
  | combined {script : Option String} {rules : Rules} {r : Rule}
    (h : Rules.ofCombined script = .ok rules) (hr : rules.buy = some r ∨ rules.sell = some r) :
    Compiled r

/-- A formula of known names that the grammar allows. -/
structure Formula.Scripted (f : Formula) : Prop where
  wellFormed : f.WellFormed
  every : f.expr.Every fun n => n.Scripted ∧ n.Named
  within : f.expr.shape.Within

theorem Formula.scripted_of_checkNames {f : Formula}
    (hf : f.WellFormed ∧ f.expr.Every Node.Scripted ∧ f.expr.shape.Within)
    (h : f.expr.checkNames = .ok ()) : f.Scripted :=
  ⟨hf.1, hf.2.1.and (Expr.every_named h), hf.2.2⟩

/-- **Compiling gives formulas of known names that the grammar allows.** -/
theorem Rule.Compiled.scripted {r : Rule} (h : r.Compiled) : r.formula.Scripted := by
  cases h with
  | script h =>
    obtain ⟨-, p, hp, hnames, rfl⟩ := compile_eq_ok_iff.1 h
    exact Formula.scripted_of_checkNames (Program.parse_formula hp (.inl rfl)) hnames
  | combined h hr =>
    obtain ⟨-, p, hp, -, hbuy, hsell, rfl⟩ := Rules.ofCombined_eq_ok_iff.1 h
    have hside : ∀ {symbol : String} {f : Formula}, p.local? symbol = some f →
        f.expr.checkNames = .ok () → f.Scripted := fun hf =>
      Formula.scripted_of_checkNames (Program.parse_formula hp (.inr ⟨_, hf⟩))
    rcases hr with hr | hr
    · obtain ⟨f, hf, rfl⟩ := Option.map_eq_some_iff.1 hr
      exact hside hf (hbuy f hf)
    · obtain ⟨f, hf, rfl⟩ := Option.map_eq_some_iff.1 hr
      exact hside hf (hsell f hf)

/-- What the grammar allows within the limits is compiled, if its names are known. -/
theorem Rule.exists_compile {script : String} {ts : List Token} {ws : List Written} {e : Expr}
    (hne : (Text.strip script).isEmpty = false) (hts : Token.scan (Text.strip script) = .ok ts)
    (hws : DerivesScript levelLimit ts ws)
    (hwithin : ∀ e ∈ trees (fun _ => none) ws, e.shape.Within)
    (hlast : (trees (fun _ => none) ws).getLast? = some e) (hnames : e.checkNames = .ok ()) :
    ∃ r, Rule.compile script = .ok r ∧ r.formula.expr = e := by
  obtain ⟨before, body, after, rfl, hb, ha, hbody⟩ := hws
  rw [List.append_assoc] at hts
  rcases statements_complete hbody hb ha (Nat.lt_succ_self _) reads_empty with
    ⟨p, hok, hread⟩ | ⟨hlt, -⟩ | ⟨e', hmem, x, -, hx, -⟩
  · obtain ⟨i, hi, hexpr⟩ := Option.map_eq_some_iff.1 (hread.result_eq.trans hlast)
    have hparse : Program.parse (Text.strip script) =
        .ok ⟨Text.strip script, p.graph, p.locals, i⟩ := by
      simp only [Program.parse, hts, Except.mapError, bind, Except.bind, hok, hi]
      rfl
    have hexprnames : (Formula.mk p.graph i).expr.checkNames = .ok () := by
      rw [Formula.expr, hexpr, hnames]
    exact ⟨_, Rule.compile_eq_ok_iff.2 ⟨hne, _, hparse, hexprnames, rfl⟩, hexpr⟩
  · exact absurd hlt (lt_irrefl _)
  · rw [Shape.excess?_eq_none_iff.2 (hwithin e' hmem)] at hx
    cases hx

/-! ### Evaluation -/

theorem Value.kind_collapse (v : Value) : v.collapse.kind ≠ .series := by
  cases v with
  | series l points => cases h : points.getLast? <;> simp [collapse, h, ofOption, kind]
  | _ => simp [collapse, kind]

/-- The evaluation of such a formula is contained. -/
theorem Formula.Scripted.contained {f : Formula} (hf : f.Scripted) (s : Session) :
    Contained (fun v => v.kind ≠ .series) (s.evaluate f).1 := by
  rw [Session.evaluate_eq, Formula.recall_eq]
  have hrun := contains_meaning s.market hf.wellFormed.ordered f.root hf.wellFormed.root_lt
    hf.every 0 (Int.le_refl 0) s.forget.memo
  exact hrun.map fun v _ => Value.kind_collapse v

namespace Rules

theorem exists_runSide {rule : Option Rule} (h : ∀ r, rule = some r → r.Compiled) (s : Session) :
    ∃ result s', runSide rule s = (.ok result, s') := by
  cases rule with
  | none => exact ⟨_, _, rfl⟩
  | some r =>
    have hr := (h r rfl).scripted.contained s
    simp only [runSide]
    rcases hev : s.evaluate r.formula with ⟨e | v, s'⟩
    · rw [hev] at hr
      simp only [solo, EvalError.Contained.reported hr, if_true]
      exact ⟨_, _, rfl⟩
    · exact ⟨_, _, rfl⟩

/-- **Evaluating compiled rules is contained**: in any session the evaluation of a compiled rule
gives a number, a boolean, a text or undefined, or fails with an error that comes from the values it
meets.  So a run of compiled rules always has an outcome. -/
theorem compiled_contained (rules : Rules)
    (h : ∀ r, rules.buy = some r ∨ rules.sell = some r → r.Compiled) (s : Session) :
    (∀ r, rules.buy = some r ∨ rules.sell = some r →
      Contained (fun v => v.kind ≠ .series) (s.evaluate r.formula).1) ∧
    ∃ outcome, (rules.run s).1 = .ok outcome := by
  refine ⟨fun r hr => (h r hr).scripted.contained s, ?_⟩
  obtain ⟨buy, s₁, hbuy⟩ := exists_runSide (fun r hr => h r (.inl hr)) s
  obtain ⟨sell, s₂, hsell⟩ := exists_runSide (fun r hr => h r (.inr hr)) s₁
  rw [run, hbuy]
  simp only [hsell]
  exact ⟨_, rfl⟩

/-- The rule `close > 2` for buying. -/
theorem compiled_contained_close : ∃ r, Rule.compile "close > 2" = .ok r ∧ ∀ s : Session,
    Contained (fun v => v.kind ≠ .series) (s.evaluate r.formula).1 ∧
      ∃ outcome, ((⟨some r, none⟩ : Rules).run s).1 = .ok outcome := by
  let close : Token := ⟨.word, "close", 0⟩
  let above : Token := ⟨.operator, ">", 6⟩
  let two : Token := ⟨.number, "2", 8⟩
  have hsum : ∀ {t : Token} {e : Expr}, Derives 63 .primary [t] e →
      Derives 63 (.chain .sum) [t] e := fun h =>
    .of_operand (c := .sum) (.of_operand (c := .product) (.unsigned (.indexed h .nil)))
  have hname : IsName close := ⟨rfl, by decide +kernel⟩
  have hor : Derives 63 (.chain .or) [close, above, two]
      (.mk (.comparison ">" (.mk (.name close.lower)) (.mk (.number (Statement.literal two))))) :=
    .of_operand (c := .or) (.of_operand (c := .and)
      (.positive (.comparison (hsum (.name hname)) rfl (hsum (.number rfl)))))
  have hscript : DerivesScript levelLimit [close, above, two] _ :=
    ⟨[], _, [], rfl, by simp [Separators], by simp [Separators], .one (.plain hor)⟩
  have hstrip : Text.strip "close > 2" = "close > 2" := by decide +kernel
  have hscan : Token.scan "close > 2" = .ok [close, above, two] := rfl
  obtain ⟨r, hr⟩ : ∃ r, Rule.compile "close > 2" = .ok r :=
    (Rule.exists_compile (by decide +kernel) (hstrip ▸ hscan) hscript (by decide +kernel) rfl
      (by decide +kernel)).imp fun _ h => h.1
  have hcompiled : ∀ r', some r = some r' ∨ none = some r' → r'.Compiled := by
    rintro r' (h | h) <;> cases h
    exact .script hr
  refine ⟨r, hr, fun s => ?_⟩
  have h := compiled_contained ⟨some r, none⟩ hcompiled s
  exact ⟨h.1 r (.inl rfl), h.2⟩

end Rules

end BarScript
