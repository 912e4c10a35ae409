import BarScript.Proofs.Session.Outcome
import BarScript.Proofs.Session.Transparency

/-!
# A pair of scripts is decided by its two sides

A script taken alone is skipped, is rejected when it is compiled, fails in a session of its own, or
has a value there (`Alone`).  The two scripts of a pair share a session, and the first one may leave
calls behind in it that were made before it failed; still the outcome of the pair follows from what
becomes of each script alone (`Alone.Decides`, `Rules.runScripts_decided`).
-/

namespace BarScript

open Grammar

theorem Value.number?_eq_some {v : Value} {x : Float} : v.number? = some x ↔ v = .number x := by
  cases v <;> simp [number?]

/-- What becomes of a script taken alone. -/
inductive Alone where
  /-- There is nothing but blanks. -/
  | skipped
  /-- It cannot be compiled. -/
  | rejected (message : String)
  /-- It cannot be evaluated. -/
  | failed (message : String)
  | value (v : Value)

namespace Alone

/-- What becomes of a rule in a session of its own, if there is one. -/
def ofRule (market : Market) : Option Rule → Alone
  | none => skipped
  | some r =>
    match ((Session.start market).evaluate r.formula).1 with
    | .ok v => value v
    | .error e => failed e.message

/-- What becomes of a script in a session of its own. -/
def ofScript (market : Market) (script : Option String) : Alone :=
  match Rules.compileSide script with
  | .ok rule => ofRule market rule
  | .error e => rejected e.message

/-- The signal of a script: false unless it has a value. -/
def signal : Alone → Bool
  | value v => v.truthy
  | _ => false

/-- No error: the script is skipped or has a value. -/
def Passes : Alone → Prop
  | skipped => True
  | value _ => True
  | _ => False

/-- How the outcome of a pair follows from what becomes of the two scripts: compiling comes before
evaluating, and at each of the two the script for buying comes first. -/
structure Decides (buy sell : Alone) (o : Outcome) : Prop where
  buy_rejected : ∀ m, buy = rejected m → o = .failed m
  sell_rejected : ∀ m, (∀ n, buy ≠ rejected n) → sell = rejected m → o = .failed m
  buy_failed : ∀ m, (∀ n, sell ≠ rejected n) → buy = failed m → o = .failed m
  sell_failed : ∀ m, buy.Passes → sell = failed m → o = .failed m
  signals : buy.Passes → sell.Passes → o.error = none ∧ o.buy = buy.signal ∧ o.sell = sell.signal
  /-- There is a value if one script has been run and the other skipped, and the value is a
  number. -/
  number : buy.Passes → sell.Passes → ∀ x, o.value = some x ↔
    buy = value (.number x) ∧ sell = skipped ∨ buy = skipped ∧ sell = value (.number x)

/-- What a run is told of a script that has been compiled. -/
def told : Alone → Option (Except String Value)
  | skipped => none
  | rejected m => some (.error m)
  | failed m => some (.error m)
  | value v => some (.ok v)

theorem ofRule_ne_rejected (market : Market) (rule : Option Rule) (m : String) :
    ofRule market rule ≠ rejected m := by
  cases rule with
  | none => exact nofun
  | some r => rw [ofRule]; split <;> simp

/-- The outcome of a run is decided by what it is told. -/
theorem decides_outcome {buy sell : Alone} (hb : ∀ m, buy ≠ rejected m)
    (hs : ∀ m, sell ≠ rejected m) : Decides buy sell (Rules.outcome buy.told sell.told) where
  buy_rejected m h := absurd h (hb m)
  sell_rejected m _ h := absurd h (hs m)
  buy_failed m _ h := by subst h; rfl
  sell_failed m hp h := by
    subst h
    cases buy with
    | rejected n => exact absurd rfl (hb n)
    | failed n => exact hp.elim
    | _ => rfl
  signals hp hq := by
    cases buy <;> cases sell <;> first | exact hp.elim | exact hq.elim | exact ⟨rfl, rfl, rfl⟩
  number hp hq x := by
    cases buy <;> cases sell <;>
      first
      | exact hp.elim
      | exact hq.elim
      | simp [told, Rules.outcome, Value.number?_eq_some]

/-- A script for buying that is rejected decides the outcome. -/
theorem decides_rejected (m : String) (sell : Alone) : Decides (rejected m) sell (.failed m) where
  buy_rejected n h := by cases h; rfl
  sell_rejected n hb _ := absurd rfl (hb m)
  buy_failed n _ h := by cases h
  sell_failed n hp _ := hp.elim
  signals hp _ := hp.elim
  number hp _ := hp.elim

/-- So does one for selling, if the other has been compiled. -/
theorem rejected_decides {buy : Alone} (hb : ∀ m, buy ≠ rejected m) (m : String) :
    Decides buy (rejected m) (.failed m) where
  buy_rejected n h := absurd h (hb n)
  sell_rejected n _ h := by cases h; rfl
  buy_failed n hs _ := absurd rfl (hs m)
  sell_failed n _ h := by cases h
  signals _ hq := hq.elim
  number _ hq := hq.elim

end Alone

theorem SignsAgree.mono {made made' : Call → Prop} (h : SignsAgree made)
    (hsub : ∀ c, made' c → made c) : SignsAgree made' :=
  fun c d hc hd => h c d (hsub c hc) (hsub d hd)

namespace Rules

/-- A rule on its own is what a run is told of it. -/
theorem plainSide_eq_told {market : Market} {rule : Option Rule}
    (h : ∀ r, rule = some r → r.Compiled)
    (hs : SignsAgree fun c => c ∈ sideCalls market rule) :
    plainSide market rule = .ok (Alone.ofRule market rule).told := by
  cases rule with
  | none => rfl
  | some r =>
    have hr := (h r rfl).scripted
    obtain ⟨heq, -⟩ := (Session.sound_start market _).evaluate hs hr.wellFormed fun _ hc => hc
    have hcontained := hr.contained (.start market)
    rw [heq] at hcontained
    rw [plainSide, Alone.ofRule, heq]
    cases hv : r.formula.expr.now market with
    | ok v => rfl
    | error e =>
      rw [hv] at hcontained
      simp only [solo, EvalError.Contained.reported hcontained, if_true]
      rfl

/-- Compiled rules run from the start are decided by what becomes of each. -/
theorem run_decided {market : Market} {rules : Rules}
    (h : ∀ r, rules.buy = some r ∨ rules.sell = some r → r.Compiled)
    (hs : SignsAgree fun c => c ∈ rules.calls market) :
    (rules.run (.start market)).1 = .ok
      (outcome (Alone.ofRule market rules.buy).told (Alone.ofRule market rules.sell).told) := by
  have hw : rules.WellFormed := ⟨fun r hr => (h r (.inl hr)).scripted.wellFormed,
    fun r hr => (h r (.inr hr)).scripted.wellFormed⟩
  -- the calls of each side are among those of the run
  have hbuy := plainSide_eq_told (fun r hr => h r (.inl hr)) <| SignsAgree.mono hs fun c hc => by
    rw [calls]; split
    · exact List.mem_append_left _ hc
    · exact hc
  have hsell := plainSide_eq_told (fun r hr => h r (.inr hr)) <| SignsAgree.mono hs fun c hc => by
    rw [calls, hbuy]
    exact List.mem_append_right _ hc
  rw [((Session.sound_start market _).run hs hw fun _ hc => hc).1, plain, hbuy, hsell]
  rfl

/-- A run of rules that could not be compiled has the error as its outcome, if it has one. -/
theorem failed_of_runCompiled {e : CompileError} {s : Session} {o : Outcome}
    (h : (runCompiled (.error e) s).1 = .ok o) : o = .failed e.message := by
  cases e <;> cases h <;> rfl

/-- **A pair run is decided by its two sides run alone.**  If the run of two scripts from the start
has an outcome, this follows from what becomes of each script in a session of its own.  No two calls
of the run may differ only in the sign of a zero. -/
theorem runScripts_decided (market : Market) (buy sell : Option String) (o : Outcome)
    (h : (runScripts buy sell (.start market)).1 = .ok o)
    (hs : ∀ rules, compile buy sell = .ok rules → SignsAgree fun c => c ∈ rules.calls market) :
    Alone.Decides (.ofScript market buy) (.ofScript market sell) o := by
  rw [Alone.ofScript, Alone.ofScript]
  cases hb : compileSide buy with
  | error e =>
    -- nothing but the first error counts
    have ho : o = .failed e.message := by
      simp only [runScripts, compile, hb, bind, Except.bind] at h
      exact failed_of_runCompiled h
    subst ho
    exact Alone.decides_rejected _ _
  | ok b =>
    cases hc : compileSide sell with
    | error e =>
      have ho : o = .failed e.message := by
        simp only [runScripts, compile, hb, hc, bind, Except.bind] at h
        exact failed_of_runCompiled h
      subst ho
      exact Alone.rejected_decides (Alone.ofRule_ne_rejected market b) _
    | ok c =>
      have hcompile : compile buy sell = .ok ⟨b, c⟩ := compile_eq_ok_iff.2 ⟨hb, hc⟩
      rw [runScripts, hcompile, runCompiled, run_decided (fun r hr =>
        hr.elim (compiled_of_compileSide hb) (compiled_of_compileSide hc)) (hs _ hcompile)] at h
      cases h
      exact Alone.decides_outcome (Alone.ofRule_ne_rejected market b)
        (Alone.ofRule_ne_rejected market c)

/-- The highest close compared with 2 for buying, and alone for selling: the second script finds the
call of the first one. -/
theorem runScripts_decided_highest :
    let market : Market := ⟨"A", ⟨4, 0⟩, ⟨[1, 2, 3], fun _ => none, by simp⟩, 0.001⟩
    (runScripts (some "highest(2) > 2") (some "highest(2)") (.start market)).1 =
        .ok ⟨true, true, none, none⟩ ∧
      Alone.Decides (.ofScript market (some "highest(2) > 2"))
        (.ofScript market (some "highest(2)")) ⟨true, true, none, none⟩ := by
  intro market
  let highest : Expr := .mk (.call "highest" [.mk (.number 2)])
  let name : Token := ⟨.word, "highest", 0⟩
  let opening : Token := ⟨.openParen, "(", 7⟩
  let closing : Token := ⟨.closeParen, ")", 9⟩
  let call : List Token := name :: opening :: [⟨.number, "2", 8⟩] ++ [closing]
  have hliteral : (Numeral.float? "2").getD 0 = 2 := by decide +kernel
  have hnumber : ∀ d position, Derives d .signed [⟨.number, "2", position⟩] (.mk (.number 2)) :=
    fun d position => hliteral ▸
      .unsigned (.indexed (.number (t := ⟨.number, "2", position⟩) rfl) .nil)
  have hname : IsName name := ⟨rfl, by decide +kernel⟩
  have hopening : opening.kind = .openParen := rfl
  have hlower : name.lower = "highest" := by decide +kernel
  have hprimary : Derives (62 + 1) .primary call (.mk (.call name.lower [.mk (.number 2)])) :=
    .callWith hname hopening (.one (.of_signed (hnumber 62 8))) rfl
  rw [hlower] at hprimary
  have hcall : Derives (62 + 1) .signed call highest := .unsigned (.indexed hprimary .nil)
  have hsum : ∀ {ts : List Token} {e : Expr}, Derives (62 + 1) .signed ts e →
      Derives (62 + 1) (.chain .sum) ts e := fun h =>
    .of_operand (c := .sum) (.of_operand (c := .product) h)
  have hscan : Token.scan "highest(2) > 2" =
      .ok (call ++ [⟨.operator, ">", 11⟩, ⟨.number, "2", 13⟩]) := rfl
  have hstrip : Text.strip "highest(2) > 2" = "highest(2) > 2" := by decide +kernel
  have hne : (Text.strip "highest(2) > 2").isEmpty = false := by decide +kernel
  obtain ⟨b, hb, hbuy⟩ := Rule.exists_compile hne
    (hstrip ▸ hscan)
    ⟨[], _, [], rfl, by simp [Separators], by simp [Separators],
      .one (.plain (.of_operand (c := .or) (.of_operand (c := .and)
        (.positive (.comparison (hsum hcall) rfl (hsum (hnumber _ 13)))))))⟩
    (by decide +kernel) rfl (by decide +kernel)
  have hscan : Token.scan "highest(2)" = .ok call := rfl
  have hstrip : Text.strip "highest(2)" = "highest(2)" := by decide +kernel
  have hne : (Text.strip "highest(2)").isEmpty = false := by decide +kernel
  obtain ⟨c, hc, hsell⟩ := Rule.exists_compile hne
    (hstrip ▸ hscan)
    ⟨[], _, [], rfl, by simp [Separators], by simp [Separators], .one (.plain (.of_signed hcall))⟩
    (by decide +kernel) rfl (by decide +kernel)
  have hcompile : compile (some "highest(2) > 2") (some "highest(2)") = .ok ⟨some b, some c⟩ :=
    compile_eq_ok_iff.2 ⟨compileSide_of_compile hb, compileSide_of_compile hc⟩
  have hcalls : (⟨some b, some c⟩ : Rules).calls market =
      [⟨.price .highest, [.number 2], 0⟩, ⟨.price .highest, [.number 2], 0⟩] := by
    rw [calls, plainSide, sideCalls, sideCalls, hbuy, hsell]
    rfl
  have hs : ∀ rules, compile (some "highest(2) > 2") (some "highest(2)") = .ok rules →
      SignsAgree fun c => c ∈ rules.calls market := by
    intro rules h
    cases hcompile.symm.trans h
    rw [hcalls]
    exact signsAgree_of_forall_eq (c := ⟨.price .highest, [.number 2], 0⟩) (by simp)
  have hrun : (runScripts (some "highest(2) > 2") (some "highest(2)") (.start market)).1 =
      .ok ⟨true, true, none, none⟩ := by
    have hw : (⟨some b, some c⟩ : Rules).WellFormed :=
      ⟨fun r hr => by cases hr; exact (Rule.Compiled.script hb).scripted.wellFormed,
        fun r hr => by cases hr; exact (Rule.Compiled.script hc).scripted.wellFormed⟩
    rw [runScripts, hcompile, runCompiled,
      ((Session.sound_start market _).run (hs _ hcompile) hw fun _ hc => hc).1, plain, plainSide,
      plainSide, hbuy, hsell]
    rfl
  exact ⟨hrun, runScripts_decided market _ _ _ hrun hs⟩

end Rules

end BarScript
