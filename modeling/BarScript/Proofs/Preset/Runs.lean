import BarScript.Proofs.Preset.Custom
import BarScript.Proofs.Session.Sorted

/-!
# A customized preset always runs

The patterns of all presets have the sort of booleans, if the names of the parameters stand for
positive numbers, and for whole ones where the default is whole (`boolean_pattern`).  The numbers of
a customized preset are of this kind (`Regular.sorts_number`), so its scripts are true or false on
every market and in every session (`run_customized`): the periods may be longer than any history,
and the histories may have any values or be missing.  Only the Bollinger bands have squares, and one
of them may overflow.
-/

namespace BarScript

open Grammar Number

/-- A whole amount that is converted to a finite double has a double that is whole. -/
theorem Amount.isWhole_toFloat {a : Amount} (hpositive : a.isNonPositive = false)
    (hwhole : a.isWhole = true) (hx : IsPositive a.toFloat) : Number.isWhole a.toFloat = true := by
  cases a with
  | whole n =>
    have hn : ¬n ≤ 0 := of_decide_eq_false hpositive
    exact isWhole_ofInt (by omega) hx
  | real x => exact hwhole

namespace Preset

/-- The sorts of the numbers that may take the place of a default. -/
def valueSorts (default : Amount) : Sorts
  | .number | .positive => true
  | .whole => default.wantsWhole
  | .boolean | .list => false

/-- The sorts of the parameters. -/
def parameterSorts (p : Preset) (q : String) : Option Sorts := (p.parameter? q).map valueSorts

/-- Whether a preset has functions that square numbers. -/
def hasSquares (p : Preset) : Bool := p.key == "bollinger_bands"

/-- **The patterns of all presets are true or false.** -/
theorem boolean_pattern {p : Preset} (hp : p ∈ all) : ∀ template ∈ [p.buyTemplate, p.sellTemplate],
    ∀ e ∈ template.pattern? p.names, e.sorts p.parameterSorts p.hasSquares .boolean = true := by
  have hall : ∀ p ∈ all, ∀ template ∈ [p.buyTemplate, p.sellTemplate],
      ∀ e ∈ template.pattern? p.names,
        e.sorts p.parameterSorts p.hasSquares .boolean = true := by decide +kernel
  exact hall p hp

variable {preset p : Preset} {settings : List (String × Option Amount)} {buy sell : Expr}

/-- **A value of a customized preset has the sorts of its parameter.** -/
theorem Regular.sorts_number (h : Regular preset buy sell) (hp : Customized preset settings p)
    (hpositive : ∀ q a, p.parameter? q = some a → IsPositive a.toFloat) {q : String} {sorts : Sorts}
    (hq : preset.parameterSorts q = some sorts) :
    ∃ x, preset.leavesWith settings q = some (.mk (.number x)) ∧
      ∀ t, sorts t = true → numberSorts x t = true := by
  obtain ⟨default, hdefault, rfl⟩ := Option.map_eq_some_iff.1 hq
  have ha : p.parameter? q = some ((setting? settings q).getD default) := by
    rw [hp.parameter?_eq, valueWith?, hdefault]
    rfl
  generalize (setting? settings q).getD default = a at ha
  have hx := hpositive q a ha
  obtain ⟨haccepted, default', hdefault', hwhole⟩ := hp.value h.accepted ha
  cases hdefault.symm.trans hdefault'
  refine ⟨a.toFloat, by rw [leavesWith, ← hp.parameter?_eq, ha]; rfl, fun t ht => ?_⟩
  cases t with
  | number => rfl
  | positive => exact decide_eq_true hx
  | whole =>
    have hw := Amount.isWhole_toFloat haccepted (hwhole ht) hx
    exact Bool.and_eq_true_iff.2 ⟨decide_eq_true hx, hw⟩
  | boolean | list => cases ht

/-- The trees of the scripts are true or false. -/
theorem Regular.sorted (h : Regular preset buy sell) (hp : Customized preset settings p)
    (hpositive : ∀ q a, p.parameter? q = some a → IsPositive a.toFloat) {squares : Bool} {e : Expr}
    (he : e.sorts preset.parameterSorts squares .boolean = true) {script : String} {r : Rule}
    (hr : Rule.compile script = .ok r)
    (hexpr : r.formula.expr = e.subst (preset.leavesWith settings)) : Rules.Sorted squares r where
  scripted := (Rule.Compiled.script hr).scripted
  sort := by
    rw [hexpr]
    refine Expr.sorts_subst (fun q sorts => h.sorts_number hp hpositive) (fun q hq => ?_) _ he
    have hnone : preset.parameter? q = none := Option.map_eq_none_iff.1 hq
    rw [leavesWith, valueWith?, hnone]
    rfl

/-- **A customized preset always runs.**  Whatever the accepted settings are, on every market and in
every session the two scripts have an outcome, and it reports no error.  The exception is the
Bollinger preset, which may report that a square overflows. -/
theorem run_customized {key : String} (h : customize key settings = .ok p) (s : Session) :
    ∃ outcome, (Rules.runScripts (some p.buyScript) (some p.sellScript) s).1 = .ok outcome ∧
      ∀ message, outcome.error = some message →
        key = "bollinger_bands" ∧ message = Fault.squareOverflow.message := by
  obtain ⟨preset, hmem, buy, sell, hfind, hregular, hp, hpositive⟩ := exists_patterns h
  obtain ⟨⟨rb, hrb, hbuy⟩, ⟨rs, hrs, hsell⟩⟩ := hregular.compilesTo hp hpositive
  have hboolean := boolean_pattern hmem
  have hbuySorted := hregular.sorted hp hpositive
    (hboolean preset.buyTemplate (by simp) buy hregular.buy_eq) hrb hbuy
  have hsellSorted := hregular.sorted hp hpositive
    (hboolean preset.sellTemplate (by simp) sell hregular.sell_eq) hrs hsell
  have hrules : Rules.compile (some p.buyScript) (some p.sellScript) = .ok ⟨some rb, some rs⟩ :=
    Rules.compile_eq_ok_iff.2
      ⟨Rules.compileSide_of_compile hrb, Rules.compileSide_of_compile hrs⟩
  have hsorted : ∀ r, some rb = some r ∨ some rs = some r →
      Rules.Sorted preset.hasSquares r := by
    rintro r (hr | hr)
    · exact Option.some.inj hr ▸ hbuySorted
    · exact Option.some.inj hr ▸ hsellSorted
  obtain ⟨outcome, hrun, herror⟩ := Rules.exists_run_sorted ⟨some rb, some rs⟩ hsorted s
  refine ⟨outcome, by rw [Rules.runScripts, hrules]; exact hrun, fun message hm => ?_⟩
  obtain ⟨hsquares, hmessage⟩ := herror message hm
  have hkey : (preset.key == key) = true :=
    List.find?_some (p := fun p : Preset => p.key == key) hfind
  exact ⟨(beq_iff_eq.1 hkey).symm.trans (beq_iff_eq.1 hsquares), hmessage⟩

/-- A small threshold on three closes without highs, lows and volumes: the average of twenty bars
is undefined. -/
theorem run_customized_small : ∃ p, customize "mean_reversion" smallThreshold = .ok p ∧
    ∃ outcome, (Rules.runScripts (some p.buyScript) (some p.sellScript)
        (.start ⟨"A", ⟨4, 0⟩, ⟨[1, 2, 3], fun _ => none, by simp⟩, 0.001⟩)).1 = .ok outcome ∧
      outcome.error = none := by
  obtain ⟨p, hp, -⟩ := exists_customize_smallThreshold
  obtain ⟨outcome, hrun, herror⟩ := run_customized hp
    (.start ⟨"A", ⟨4, 0⟩, ⟨[1, 2, 3], fun _ => none, by simp⟩, 0.001⟩)
  refine ⟨p, hp, outcome, hrun, Option.eq_none_iff_forall_ne_some.2 fun message hm => ?_⟩
  exact absurd (herror message hm).1 (by decide +kernel)

end Preset

end BarScript
