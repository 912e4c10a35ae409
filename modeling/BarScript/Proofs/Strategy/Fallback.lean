import BarScript.Proofs.Session.Outcome
import BarScript.Strategy.Signal

/-!
# Scripts and thresholds are kept apart

The signal of a strategy comes either from its scripts or from its thresholds
(`Strategy.Decides`).  Scripts that are in use and run decide alone, whatever the thresholds are.
If there are none in use, or if they fail, the thresholds decide alone; of scripts that failed only
the error is shown, and `fallback` says that it is (`Strategy.signalIn_decides`).  Where the run of
the scripts raises, there is no signal (`Strategy.signalIn_overlong_ne_ok`).

Which scripts are run is a choice between those that are written down and the two tables of
templates (`StrategyScript.Runs`).
-/

namespace BarScript

/-! ### The scripts in use -/

/-- The script of a strategy is in use. -/
structure Strategy.Uses (s : Strategy) (script : StrategyScript) : Prop where
  kind_eq : s.kind = .script
  script_eq : s.script = some script
  enabled : script.enabled = true

theorem Strategy.activeScript?_eq_some_iff {s : Strategy} {script : StrategyScript} :
    s.activeScript? = some script ↔ s.Uses script := by
  rw [activeScript?]
  constructor
  · intro h
    cases hkind : s.kind with
    | simple => rw [hkind] at h; cases h
    | script =>
      rw [hkind] at h
      obtain ⟨hscript, henabled⟩ := Option.filter_eq_some_iff.1 h
      exact ⟨hkind, hscript, henabled⟩
  · rintro ⟨hkind, hscript, henabled⟩
    rw [hkind, hscript]
    exact if_pos henabled

theorem Strategy.activeScript?_eq_none_iff {s : Strategy} :
    s.activeScript? = none ↔ ∀ script, ¬s.Uses script := by
  simp only [Option.eq_none_iff_forall_ne_some, ← activeScript?_eq_some_iff, ne_eq]

/-- The texts that are run. -/
def RuleSource.texts : RuleSource → List String
  | scripts buy sell => [buy.getD "", sell.getD ""]
  | combined script => [script]
  | unknownTemplate _ => []

namespace StrategyScript

/-- The scripts that are written down are to be run: one of them is not blank, or there is no
template in their place. -/
def RunsWritten (script : StrategyScript) : Prop :=
  Rules.isBlank script.buy = false ∨ Rules.isBlank script.sell = false ∨
    script.template = none ∨ script.template = some ""

/-- The result of running the scripts of a strategy in a session.  Blank scripts give way to the
template of a name: the preset, or else the one script for both sides. -/
inductive Runs (script : StrategyScript) (session : Session) : Except RunError Outcome → Prop
  | written (h : script.RunsWritten) :
    Runs script session (Rules.runScripts script.buy script.sell session).1
  | preset {template : String} {p : Preset} (h : ¬script.RunsWritten)
    (htemplate : script.template = some template) (hp : Preset.find? template = some p) :
    Runs script session (Rules.runScripts (some p.buyScript) (some p.sellScript) session).1
  | combined {template text : String} (h : ¬script.RunsWritten)
    (htemplate : script.template = some template) (hp : Preset.find? template = none)
    (htext : Preset.combined? template = some text) :
    Runs script session (Rules.runCombined (some text) session).1
  | unknown {template : String} (h : ¬script.RunsWritten)
    (htemplate : script.template = some template) (hp : Preset.find? template = none)
    (htext : Preset.combined? template = none) :
    Runs script session (.ok (.failed s!"Unknown strategy template '{template}'"))

/-- The run of the scripts raises: a text of theirs has a number of bars with too many digits, which
the run does not report (`Rules.Settled`).  Then there is neither an outcome nor an error that the
thresholds could stand in for. -/
def Raises (script : StrategyScript) (session : Session) (digits : Nat) : Prop :=
  script.Runs session (.error (.offsetTooLong digits)) ∧
    ∃ text ∈ script.source.texts, Program.HasLongOffset (Text.strip text) digits

variable {script : StrategyScript} {session : Session}

theorem source_of_runsWritten (h : script.RunsWritten) :
    script.source = .scripts script.buy script.sell := by
  rw [source]
  split
  · rfl
  · rename_i template htemplate
    refine if_pos ?_
    rcases h with h | h | h | h
    · simp [isWritten, h]
    · simp [isWritten, h]
    · rw [h] at htemplate
      cases htemplate
    · rw [h] at htemplate
      cases htemplate
      simp

theorem source_of_not_runsWritten (h : ¬script.RunsWritten) :
    ∃ template, script.template = some template ∧ script.source = templateSource template := by
  simp only [RunsWritten, not_or, Bool.not_eq_false] at h
  obtain ⟨hbuy, hsell, hnone, hempty⟩ := h
  obtain ⟨template, htemplate⟩ := Option.ne_none_iff_exists'.1 hnone
  refine ⟨template, htemplate, ?_⟩
  have hne : template.isEmpty = false := by
    rw [htemplate, Option.some.injEq] at hempty
    exact Bool.eq_false_iff.2 fun h => hempty (String.isEmpty_iff.1 h)
  rw [source, htemplate]
  simp [isWritten, hbuy, hsell, hne]

/-- **Which scripts are run.** -/
theorem runs_iff {result : Except RunError Outcome} :
    script.Runs session result ↔ result = (script.source.run session).1 := by
  constructor
  · rintro (h | ⟨h, htemplate, hp⟩ | ⟨h, htemplate, hp, htext⟩ | ⟨h, htemplate, hp, htext⟩)
    · rw [source_of_runsWritten h]
      rfl
    all_goals
      obtain ⟨template, htemplate', hsource⟩ := source_of_not_runsWritten h
      cases htemplate.symm.trans htemplate'
      rw [hsource, templateSource, hp]
    · rfl
    · rw [htext]
      rfl
    · rw [htext]
      rfl
  · rintro rfl
    by_cases h : script.RunsWritten
    · rw [source_of_runsWritten h]
      exact .written h
    · obtain ⟨template, htemplate, hsource⟩ := source_of_not_runsWritten h
      rw [hsource, templateSource]
      cases hp : Preset.find? template with
      | some p => exact .preset h htemplate hp
      | none =>
        cases htext : Preset.combined? template with
        | some text => exact .combined h htemplate hp htext
        | none => exact .unknown h htemplate hp htext

/-- Whichever scripts are run, there is an outcome unless a number of bars in them is too long. -/
theorem exists_runs (script : StrategyScript) (session : Session) :
    ∃ result, script.Runs session result ∧ Rules.Settled script.source.texts result := by
  refine ⟨_, runs_iff.2 rfl, ?_⟩
  cases script.source with
  | scripts buy sell => exact Rules.settled_runScripts buy sell session
  | combined text => exact Rules.settled_runCombined (some text) session
  | unknownTemplate template => exact .inl ⟨_, rfl⟩

end StrategyScript

/-! ### The signal -/

namespace Strategy

variable {s t : Strategy} {script : StrategyScript} {session : Session}

/-- What the signal of a strategy in a session follows from. -/
structure Decides (s : Strategy) (session : Session) (result : Except RunError Signal) : Prop where
  /-- Without a script in use the thresholds decide. -/
  simple : (∀ script, ¬s.Uses script) → result = .ok (s.thresholdSignal session.market)
  /-- Scripts that run decide. -/
  script : ∀ script outcome, s.Uses script → script.Runs session (.ok outcome) →
    outcome.error = none → result = .ok ⟨s.id, session.market.symbol, .script, outcome.buy,
      outcome.sell, outcome.value, none, false⟩
  /-- If they fail the thresholds decide, and of the scripts nothing but the error is shown. -/
  fallback : ∀ script outcome message, s.Uses script → script.Runs session (.ok outcome) →
    outcome.error = some message → result = .ok
      { s.thresholdSignal session.market with error := some message, fallback := true }
  /-- A run without an outcome leaves no signal. -/
  raises : ∀ script e, s.Uses script → script.Runs session (.error e) → result = .error e

theorem signalIn_of_not_uses (h : ∀ script, ¬s.Uses script) (session : Session) :
    s.signalIn session = (.ok (s.thresholdSignal session.market), session) := by
  rw [signalIn, activeScript?_eq_none_iff.2 h]

theorem signalIn_of_uses (h : s.Uses script) (session : Session) :
    s.signalIn session = ((script.source.run session).1.map (s.scriptSignal session.market),
      (script.source.run session).2) := by
  rw [signalIn, activeScript?_eq_some_iff.2 h]

theorem Uses.unique {script' : StrategyScript} (h : s.Uses script) (h' : s.Uses script') :
    script = script' := Option.some.inj (h.script_eq.symm.trans h'.script_eq)

/-- The signal of a run. -/
theorem signalIn_of_runs (h : s.Uses script) {result : Except RunError Outcome}
    (hr : script.Runs session result) :
    (s.signalIn session).1 = result.map (s.scriptSignal session.market) := by
  rw [signalIn_of_uses h, StrategyScript.runs_iff.1 hr]

theorem decides_signalIn (s : Strategy) (session : Session) :
    s.Decides session (s.signalIn session).1 where
  simple h := congrArg Prod.fst (signalIn_of_not_uses h session)
  script script outcome h hr herror := by
    rw [signalIn_of_runs h hr, Except.map, scriptSignal, herror]
  fallback script outcome message h hr herror := by
    rw [signalIn_of_runs h hr, Except.map, scriptSignal, herror]
  raises script e h hr := signalIn_of_runs h hr

/-- The signal of the thresholds depends on the thresholds only. -/
theorem thresholdSignal_congr (hid : t.id = s.id) (hthresholds : t.thresholds = s.thresholds)
    (market : Market) : t.thresholdSignal market = s.thresholdSignal market := by
  rw [thresholdSignal, thresholdSignal, hid, hthresholds]

theorem value_thresholdSignal (s : Strategy) (market : Market) :
    (s.thresholdSignal market).value = none := by
  rw [thresholdSignal]
  split <;> rfl

theorem scriptSignal_fallback_iff {outcome : Outcome} {market : Market} :
    (s.scriptSignal market outcome).fallback = true ↔
      (s.scriptSignal market outcome).error ≠ none := by
  rw [scriptSignal]
  split <;> simp

theorem thresholdSignal_error (s : Strategy) (market : Market) :
    (s.thresholdSignal market).error = none ∧ (s.thresholdSignal market).fallback = false := by
  rw [thresholdSignal]
  split <;> exact ⟨rfl, rfl⟩

/-- A signal says that it is a fallback exactly if it shows an error. -/
theorem fallback_iff_error {signal : Signal} (h : (s.signalIn session).1 = .ok signal) :
    signal.fallback = true ↔ signal.error ≠ none := by
  cases hactive : s.activeScript? with
  | none =>
    rw [signalIn_of_not_uses (activeScript?_eq_none_iff.1 hactive)] at h
    cases h
    simp [thresholdSignal_error s session.market]
  | some script =>
    rw [signalIn_of_uses (activeScript?_eq_some_iff.1 hactive)] at h
    obtain ⟨outcome, -, rfl⟩ := map_eq_ok_iff.1 h
    exact scriptSignal_fallback_iff

/-- A fallback is the signal of the thresholds with the error. -/
theorem eq_of_fallback {signal : Signal} (h : (s.signalIn session).1 = .ok signal)
    (hfallback : signal.fallback = true) : ∃ message, signal =
      { s.thresholdSignal session.market with error := some message, fallback := true } := by
  cases hactive : s.activeScript? with
  | none =>
    rw [signalIn_of_not_uses (activeScript?_eq_none_iff.1 hactive)] at h
    cases h
    rw [(thresholdSignal_error s session.market).2] at hfallback
    cases hfallback
  | some script =>
    rw [signalIn_of_uses (activeScript?_eq_some_iff.1 hactive)] at h
    obtain ⟨outcome, -, rfl⟩ := map_eq_ok_iff.1 h
    rw [scriptSignal] at hfallback ⊢
    split at hfallback
    · cases hfallback
    · rename_i message _
      exact ⟨message, rfl⟩

/-- Thresholds do not matter to scripts that run. -/
theorem signalIn_of_other_thresholds {outcome : Outcome} (h : s.Uses script)
    (hr : script.Runs session (.ok outcome)) (herror : outcome.error = none)
    (thresholds : Option ThresholdPair) :
    ({ s with thresholds } : Strategy).signalIn session = s.signalIn session := by
  have h' : ({ s with thresholds } : Strategy).Uses script := ⟨h.kind_eq, h.script_eq, h.enabled⟩
  rw [signalIn_of_uses h, signalIn_of_uses h', ← StrategyScript.runs_iff.1 hr]
  simp only [Except.map, scriptSignal, herror]

/-- There is a signal, unless the run of the scripts raises. -/
theorem exists_signalIn (s : Strategy) (session : Session) :
    (∃ signal, (s.signalIn session).1 = .ok signal) ∨
      ∃ script digits, s.Uses script ∧ script.Raises session digits := by
  cases hactive : s.activeScript? with
  | none =>
    exact .inl ⟨_, (decides_signalIn s session).simple (activeScript?_eq_none_iff.1 hactive)⟩
  | some script =>
    have huses := activeScript?_eq_some_iff.1 hactive
    obtain ⟨result, hr, ⟨outcome, rfl⟩ | ⟨digits, rfl, hlong⟩⟩ := script.exists_runs session
    · exact .inl ⟨_, signalIn_of_runs huses hr⟩
    · exact .inr ⟨script, digits, huses, hr, hlong⟩

/-- **Scripts and thresholds are kept apart.**  In every session the signal of a strategy comes from
its thresholds or from its scripts (`Strategy.Decides`), of which exactly one run is chosen.

* If no script is in use, nothing but the thresholds matters, whatever the script is.
* If the scripts run, the thresholds do not matter.
* If they fail, the signal of the thresholds is shown, without a value; nothing but the error shows
  which scripts failed, and after which evaluations.

Hence a signal is a fallback exactly if it shows an error.  There is a signal unless the run of the
scripts raises (`StrategyScript.Raises`), which no signal tells. -/
theorem signalIn_decides (s : Strategy) (session : Session) :
    (s.Decides session (s.signalIn session).1 ∧
      ∀ script : StrategyScript, ∃! result, script.Runs session result) ∧
    (∀ t : Strategy, (∀ script, ¬s.Uses script) → (∀ script, ¬t.Uses script) → t.id = s.id →
      t.thresholds = s.thresholds → t.signalIn session = s.signalIn session) ∧
    (∀ script outcome, s.Uses script → script.Runs session (.ok outcome) → outcome.error = none →
      ∀ thresholds, ({ s with thresholds } : Strategy).signalIn session = s.signalIn session) ∧
    (∀ signal, (s.signalIn session).1 = .ok signal → signal.fallback = true →
      signal.value = none ∧ ∀ (t : Strategy) (session' : Session) (signal' : Signal),
        t.id = s.id → t.thresholds = s.thresholds → session'.market = session.market →
        (t.signalIn session').1 = .ok signal' → signal'.fallback = true →
        signal' = { signal with error := signal'.error }) ∧
    (∀ signal, (s.signalIn session).1 = .ok signal →
      (signal.fallback = true ↔ signal.error ≠ none)) ∧
    ((∃ signal, (s.signalIn session).1 = .ok signal) ∨
      ∃ script digits, s.Uses script ∧ script.Raises session digits) := by
  refine ⟨⟨decides_signalIn s session, fun script => ?_⟩, ?_, ?_, ?_, fun _ => fallback_iff_error,
    exists_signalIn s session⟩
  · exact ⟨_, StrategyScript.runs_iff.2 rfl, fun _ => StrategyScript.runs_iff.1⟩
  · intro t hs ht hid hthresholds
    rw [signalIn_of_not_uses hs, signalIn_of_not_uses ht, thresholdSignal_congr hid hthresholds]
  · intro script outcome huses hr herror
    exact signalIn_of_other_thresholds huses hr herror
  · intro signal h hfallback
    obtain ⟨message, rfl⟩ := eq_of_fallback h hfallback
    refine ⟨value_thresholdSignal s session.market, ?_⟩
    intro t session' signal' hid hthresholds hmarket h' hfallback'
    obtain ⟨message', rfl⟩ := eq_of_fallback h' hfallback'
    rw [hmarket, thresholdSignal_congr hid hthresholds]

/-- A strategy with a template that nobody knows, and with a price to buy at. -/
def unknownTemplate : Strategy where
  id := "s"
  name := ""
  symbols := ["A"]
  kind := .script
  script := some ⟨none, some " ", true, some "nothing"⟩
  thresholds := some ⟨some ⟨some 5, none, true⟩, none⟩

/-- Its signal is that of the price. -/
theorem signalIn_decides_unknownTemplate :
    unknownTemplate.Uses ⟨none, some " ", true, some "nothing"⟩ ∧
      (unknownTemplate.signalIn
        (.start ⟨"A", ⟨4, 0⟩, ⟨[1, 2, 3], fun _ => none, by simp⟩, 0.001⟩)).1 =
        .ok ⟨"s", "A", .simple, true, false, none,
          some "Unknown strategy template 'nothing'", true⟩ := by
  have huses : unknownTemplate.Uses ⟨none, some " ", true, some "nothing"⟩ := ⟨rfl, rfl, rfl⟩
  have hwritten : ¬StrategyScript.RunsWritten ⟨none, some " ", true, some "nothing"⟩ := by
    rintro (h | h | h | h)
    · exact absurd h (by decide +kernel)
    · exact absurd h (by decide +kernel)
    · cases h
    · exact absurd h (by decide)
  obtain ⟨⟨hdecides, -⟩, -⟩ := signalIn_decides unknownTemplate
    (.start ⟨"A", ⟨4, 0⟩, ⟨[1, 2, 3], fun _ => none, by simp⟩, 0.001⟩)
  refine ⟨huses, (hdecides.fallback _ _ _ huses (.unknown hwritten rfl ?_ ?_) rfl).trans ?_⟩
  · decide +kernel
  · decide +kernel
  · rfl

/-- A strategy whose script to buy looks back a number of bars with one digit more than is allowed,
and with a price to buy at. -/
def overlong : Strategy where
  id := "s"
  name := ""
  symbols := ["A"]
  kind := .script
  script := some ⟨some (closeBack (Numeral.maxIntDigits + 1)), none, true, none⟩
  thresholds := some ⟨some ⟨some 5, none, true⟩, none⟩

/-- **Scripts that raise leave no signal**, also where the thresholds could stand in for them. -/
theorem signalIn_overlong_ne_ok :
    overlong.Uses ⟨some (closeBack (Numeral.maxIntDigits + 1)), none, true, none⟩ ∧
      ¬∃ signal, (overlong.signalIn
        (.start ⟨"A", ⟨4, 0⟩, ⟨[1, 2, 3], fun _ => none, by simp⟩, 0.001⟩)).1 = .ok signal := by
  have huses : overlong.Uses ⟨some (closeBack (Numeral.maxIntDigits + 1)), none, true, none⟩ :=
    ⟨rfl, rfl, rfl⟩
  refine ⟨huses, ?_⟩
  rintro ⟨signal, h⟩
  rw [signalIn_of_uses huses, StrategyScript.source_of_runsWritten (.inr (.inr (.inl rfl))),
    RuleSource.run, Rules.runScripts_closeBack (Nat.lt_succ_self _)] at h
  cases h

end Strategy

end BarScript
