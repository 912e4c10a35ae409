import BarScript.Preset.Catalogue
import BarScript.Proofs.Evaluation.Containment
import BarScript.Proofs.Preset.Pattern
import BarScript.Proofs.Preset.Setting

/-!
# Customizing replaces numbers

The scripts of a customized preset are compiled to the trees of the default scripts with other
numbers in the places of the parameters, and with nothing else changed (`customize_substitutes`).
Both are the patterns of the templates with a number in the place of each parameter.

A value that is infinite or NaN passes the checks of a setting, but it is written as a word that
means nothing.  Since each parameter has a place in one of the scripts (`Regular.mentioned`), a
preset with such a value is not compiled (`Regular.isPositive`).
-/

namespace BarScript

open Grammar Number Token

/-! ### Names in a tree -/

namespace Expr

/-- Whether a name is in an expression. -/
def mentions (symbol : String) : Expr → Bool :=
  Expr.fold fun n => (match n with
    | .name s => s == symbol
    | _ => false) || n.children.any id

theorem mentions_mk {symbol : String} {n : Node Expr} : (mk n).mentions symbol = true ↔
    n = .name symbol ∨ ∃ c ∈ n.children, c.mentions symbol = true := by
  rw [mentions, fold_mk, Bool.or_eq_true, Node.children_map, List.any_map, List.any_eq_true]
  refine or_congr ?_ Iff.rfl
  cases n <;> simp [Node.map]

/-- What holds of the nodes after a name has been replaced holds of those in its place. -/
theorem every_of_mentions {p : Node Unit → Prop} {leaves : Leaves} {symbol : String} {x e : Expr}
    (hmentions : e.mentions symbol = true) (hleaf : leaves symbol = some x)
    (h : (e.subst leaves).Every p) : x.Every p := by
  induction e using Expr.node_induction with
  | h n ih =>
    rcases mentions_mk.1 hmentions with rfl | ⟨c, hc, hmentions⟩
    · rwa [subst_name, hleaf] at h
    · have hn : ∀ s, n ≠ .name s := by
        rintro s rfl
        cases hc
      rw [subst_mk _ hn, every_mk, Node.children_map, List.forall_mem_map] at h
      exact ih c hc hmentions (h.2 c hc)

/-- Of what replaces the names nothing matters to a check of names but what it says of that. -/
theorem checkNames_subst_congr {leaves leaves' : Leaves}
    (h : ∀ s, (leaves s).map checkNames = (leaves' s).map checkNames) (e : Expr) :
    (e.subst leaves).checkNames = (e.subst leaves').checkNames := by
  induction e using Expr.node_induction with
  | h n ih =>
    by_cases hn : ∃ s, n = .name s
    · obtain ⟨s, rfl⟩ := hn
      rw [subst_name, subst_name]
      have hs := h s
      cases hl : leaves s <;> cases hl' : leaves' s <;> simp_all
    · have hne : ∀ s, n ≠ .name s := fun s heq => hn ⟨s, heq⟩
      simp only [checkNames] at ih ⊢
      rw [subst_mk _ hne, subst_mk _ hne, fold_mk, fold_mk, Node.map_map, Node.map_map,
        Node.map_congr ih]

end Expr

/-! ### Patterns of presets -/

/-- A script that is compiled to a tree. -/
def CompilesTo (script : String) (e : Expr) : Prop :=
  ∃ r, Rule.compile script = .ok r ∧ r.formula.expr = e

namespace Preset

variable {preset p : Preset} {settings : List (String × Option Amount)} {buy sell : Expr}

/-- The names of the parameters. -/
def names (p : Preset) : List String := p.parameters.map (·.1)

/-- The number in the place of each parameter. -/
def leavesWith (preset : Preset) (settings : List (String × Option Amount)) : Leaves := fun q =>
  (preset.valueWith? settings q).map fun a => .mk (.number a.toFloat)

/-- The patterns of a preset whose defaults are accepted, and in which no parameter is missing. -/
structure Regular (p : Preset) (buy sell : Expr) : Prop where
  buy_eq : p.buyTemplate.pattern? p.names = some buy
  sell_eq : p.sellTemplate.pattern? p.names = some sell
  mentioned : ∀ q ∈ p.names, buy.mentions q = true ∨ sell.mentions q = true
  accepted : ∀ r ∈ p.parameters, r.2.isNonPositive = false
  finite : ∀ r ∈ p.parameters, kindOf r.2.toFloat ≠ .infinite false ∧ kindOf r.2.toFloat ≠ .nan
  buy_names : (buy.subst (p.leavesWith [])).checkNames = .ok ()
  sell_names : (sell.subst (p.leavesWith [])).checkNames = .ok ()

/-- **Every preset has patterns.** -/
theorem exists_regular {p : Preset} (hp : p ∈ all) : ∃ buy sell, p.Regular buy sell := by
  have hall : ∀ p ∈ all, ∃ buy ∈ p.buyTemplate.pattern? p.names,
      ∃ sell ∈ p.sellTemplate.pattern? p.names,
        (∀ q ∈ p.names, buy.mentions q = true ∨ sell.mentions q = true) ∧
        (∀ r ∈ p.parameters, r.2.isNonPositive = false) ∧
        (∀ r ∈ p.parameters,
          kindOf r.2.toFloat ≠ .infinite false ∧ kindOf r.2.toFloat ≠ .nan) ∧
        (buy.subst (p.leavesWith [])).checkNames = .ok () ∧
        (sell.subst (p.leavesWith [])).checkNames = .ok () := by
    decide +kernel
  obtain ⟨buy, hbuy, sell, hsell, hmentioned, haccepted, hfinite, hnames⟩ := hall p hp
  exact ⟨buy, sell, hbuy, hsell, hmentioned, haccepted, hfinite, hnames.1, hnames.2⟩

/-! ### The scripts of a preset -/

/-- What fills the place of a parameter. -/
def filling (p : Preset) (q : String) : Filling :=
  ((p.parameter? q).map fun a => Filling.double a.toFloat).getD (.word "")

theorem text_filling (p : Preset) : (fun q => (p.filling q).text) = p.slotText := by
  funext q
  rw [filling, slotText]
  cases p.parameter? q with
  | none => rfl
  | some a => exact Filling.text_double a.toFloat

theorem mem_names_iff {q : String} : q ∈ p.names ↔ ∃ a, p.parameter? q = some a := by
  rw [← Option.isSome_iff_exists, parameter?, Option.isSome_map, List.find?_isSome, names,
    List.mem_map]
  simp

theorem Customized.mem_names_iff (hp : Customized preset settings p) {q : String} :
    q ∈ preset.names ↔ ∃ a, p.parameter? q = some a := by
  simp only [hp.parameter?_eq, valueWith?, Preset.mem_names_iff, Option.map_eq_some_iff]
  constructor
  · rintro ⟨a, ha⟩
    exact ⟨_, a, ha, rfl⟩
  · rintro ⟨-, a, ha, -⟩
    exact ⟨a, ha⟩

namespace Regular

variable (h : Regular preset buy sell) (hp : Customized preset settings p)
include h hp

theorem passesAsPositive {q : String} {a : Amount} (ha : p.parameter? q = some a) :
    PassesAsPositive a.toFloat :=
  Amount.passesAsPositive (hp.value h.accepted ha).1

theorem proper_filling {q : String} (hq : q ∈ preset.names) : (p.filling q).Proper := by
  obtain ⟨a, ha⟩ := hp.mem_names_iff.1 hq
  rw [filling, ha]
  exact Filling.proper_double (h.passesAsPositive hp ha)

/-- What the scripts are compiled to. -/
theorem compilesTo_iff (e : Expr) :
    (CompilesTo p.buyScript e ↔ e = buy.subst (placeLeaves preset.names p.filling) ∧
      (buy.subst (placeLeaves preset.names p.filling)).checkNames = .ok ()) ∧
    (CompilesTo p.sellScript e ↔ e = sell.subst (placeLeaves preset.names p.filling) ∧
      (sell.subst (placeLeaves preset.names p.filling)).checkNames = .ok ()) := by
  obtain ⟨bps, hbuy⟩ := Template.exists_pattern h.buy_eq
  obtain ⟨sps, hsell⟩ := Template.exists_pattern h.sell_eq
  have hproper : ∀ q ∈ preset.names, (p.filling q).Proper := fun q => h.proper_filling hp
  rw [CompilesTo, CompilesTo, buyScript, sellScript, hp.buyTemplate_eq, hp.sellTemplate_eq,
    ← text_filling]
  exact ⟨hbuy.compile_iff hproper, hsell.compile_iff hproper⟩

/-- **A preset with scripts that are compiled has finite values only.** -/
theorem isPositive {rules : Rules} (hcompile : p.compile = .ok rules) {q : String} {a : Amount}
    (ha : p.parameter? q = some a) : IsPositive a.toFloat := by
  obtain ⟨rb, hrb, hrest⟩ := bind_eq_ok_iff.1 hcompile
  obtain ⟨rs, hrs, -⟩ := bind_eq_ok_iff.1 hrest
  have hbuy := ((h.compilesTo_iff hp _).1.1 ⟨rb, hrb, rfl⟩).2
  have hsell := ((h.compilesTo_iff hp _).2.1 ⟨rs, hrs, rfl⟩).2
  have hq : q ∈ preset.names := hp.mem_names_iff.2 ⟨a, ha⟩
  have hleaf : placeLeaves preset.names p.filling q = some (Filling.double a.toFloat).leaf := by
    rw [placeLeaves, if_pos hq, filling, ha]
    rfl
  have hnamed : (Filling.double a.toFloat).leaf.Every Node.Named :=
    (h.mentioned q hq).elim
      (fun hm => Expr.every_of_mentions hm hleaf (Expr.every_named hbuy))
      fun hm => Expr.every_of_mentions hm hleaf (Expr.every_named hsell)
  -- the words for other doubles name nothing
  rcases h.passesAsPositive hp ha with hx | hx | hx
  · exact hx
  · rw [Filling.double_of_infinite hx] at hnamed
    have hname : (Variable.ofName? "Infinity".toLower).isSome = true := (Expr.every_mk.1 hnamed).1
    exact absurd hname (by decide +kernel)
  · rw [Filling.double_of_nan hx] at hnamed
    have hname : (Variable.ofName? "NaN".toLower).isSome = true := (Expr.every_mk.1 hnamed).1
    exact absurd hname (by decide +kernel)

omit h in
theorem placeLeaves_eq (hpositive : ∀ q a, p.parameter? q = some a → IsPositive a.toFloat) :
    placeLeaves preset.names p.filling = preset.leavesWith settings := by
  funext q
  rw [leavesWith, ← hp.parameter?_eq, placeLeaves]
  by_cases hq : q ∈ preset.names
  · obtain ⟨a, ha⟩ := hp.mem_names_iff.1 hq
    rw [if_pos hq, filling, ha]
    exact congrArg some (Filling.leaf_double (hpositive q a ha))
  · have hnone : p.parameter? q = none :=
      Option.eq_none_iff_forall_ne_some.2 fun a ha => hq (hp.mem_names_iff.2 ⟨a, ha⟩)
    rw [if_neg hq, hnone]
    rfl

/-- **Scripts with positive numbers are compiled** to the patterns with these numbers. -/
theorem compilesTo (hpositive : ∀ q a, p.parameter? q = some a → IsPositive a.toFloat) :
    CompilesTo p.buyScript (buy.subst (preset.leavesWith settings)) ∧
      CompilesTo p.sellScript (sell.subst (preset.leavesWith settings)) := by
  have hcompiles := h.compilesTo_iff hp
  rw [placeLeaves_eq hp hpositive] at hcompiles
  -- the names are those of the default scripts
  have hnames : ∀ e : Expr, (e.subst (preset.leavesWith settings)).checkNames =
      (e.subst (preset.leavesWith [])).checkNames :=
    Expr.checkNames_subst_congr fun s => by
      simp only [leavesWith, valueWith?, Option.map_map]
      rfl
  exact ⟨(hcompiles _).1.2 ⟨rfl, (hnames buy).trans h.buy_names⟩,
    (hcompiles _).2.2 ⟨rfl, (hnames sell).trans h.sell_names⟩⟩

theorem isPositive_of_finite (hfinite : ∀ r ∈ p.parameters,
      kindOf r.2.toFloat ≠ .infinite false ∧ kindOf r.2.toFloat ≠ .nan) (q : String) (a : Amount)
    (ha : p.parameter? q = some a) : IsPositive a.toFloat := by
  obtain ⟨r, hfind, hr⟩ := Option.map_eq_some_iff.1 ha
  have hne := hfinite r (List.mem_of_find?_eq_some hfind)
  rw [hr] at hne
  exact (h.passesAsPositive hp ha).resolve_right (not_or.2 hne)

end Regular

/-- **What a customized preset comes from**: a preset with patterns, and values for its parameters
all of which are finite and above zero. -/
theorem exists_patterns {key : String} (h : customize key settings = .ok p) :
    ∃ preset ∈ all, ∃ buy sell, find? key = some preset ∧ preset.Regular buy sell ∧
      Customized preset settings p ∧ ∀ q a, p.parameter? q = some a → IsPositive a.toFloat := by
  obtain ⟨preset, hmem, hfind, hp, rules, hcompile⟩ := exists_customized h
  obtain ⟨buy, sell, hregular⟩ := exists_regular hmem
  exact ⟨preset, hmem, buy, sell, hfind, hregular, hp, fun q a => hregular.isPositive hp hcompile⟩

/-- **Customizing replaces numbers.**  Let a preset be customized.  Its two templates, read with the
names of the parameters in their places, have trees from which those of both the default scripts and
the customized ones come: the default scripts are compiled to these trees with the default number of
each parameter in the place of its name, and the customized scripts to the same trees with the
number of the last setting there, where there is one.  All these numbers are finite and above zero,
and such a number is written as one number without an exponent, which reads back. -/
theorem customize_substitutes {key : String} (h : customize key settings = .ok p) :
    (∃ preset buy sell, find? key = some preset ∧
      preset.buyTemplate.IsPattern buy ∧ preset.sellTemplate.IsPattern sell ∧
      CompilesTo preset.buyScript (buy.subst (preset.leavesWith [])) ∧
      CompilesTo preset.sellScript (sell.subst (preset.leavesWith [])) ∧
      CompilesTo p.buyScript (buy.subst (preset.leavesWith settings)) ∧
      CompilesTo p.sellScript (sell.subst (preset.leavesWith settings)) ∧
      ∀ q a, preset.valueWith? settings q = some a → IsPositive a.toFloat) ∧
    ∀ x, IsPositive x → scan (scriptText x) = .ok [⟨.number, scriptText x, 0⟩] ∧
      (∀ c ∈ (scriptText x).toList, c ∈ Numeral.literalChars) ∧
      Numeral.float? (scriptText x) = some x := by
  constructor
  · obtain ⟨preset, -, buy, sell, hfind, hregular, hp, hpositive⟩ := exists_patterns h
    obtain ⟨bps, hbuy⟩ := Template.exists_pattern hregular.buy_eq
    obtain ⟨sps, hsell⟩ := Template.exists_pattern hregular.sell_eq
    have hdefault := Customized.refl preset
    obtain ⟨hbuyDefault, hsellDefault⟩ :=
      hregular.compilesTo hdefault (hregular.isPositive_of_finite hdefault hregular.finite)
    obtain ⟨hbuyCustom, hsellCustom⟩ := hregular.compilesTo hp hpositive
    exact ⟨preset, buy, sell, hfind, hbuy.isPattern, hsell.isPattern, hbuyDefault, hsellDefault,
      hbuyCustom, hsellCustom, fun q a ha => hpositive q a (hp.parameter?_eq q ▸ ha)⟩
  · intro x hx
    exact ⟨(isToken_scriptText hx).scan_eq, Numeral.float?_scriptText hx⟩

/-- The setting of a small threshold. -/
def smallThreshold : List (String × Option Amount) := [("threshold", some (.real 0.00001))]

theorem exists_customize_smallThreshold : ∃ p, customize "mean_reversion" smallThreshold = .ok p ∧
    p.buyScript = "(close - sma(20)) / sma(20) < -0.00001" := by
  let p := meanReversion.set "threshold" (.real 0.00001)
  have hsetting : meanReversion.setting "threshold" (some (.real 0.00001)) =
      .ok (.real 0.00001) :=
    setting_eq_ok_iff.2 ⟨.real 0.05, rfl, rfl, by decide +kernel, nofun⟩
  have hfold : smallThreshold.foldlM
      (fun p s => (meanReversion.setting s.1 s.2).map fun value => p.set s.1 value)
      meanReversion = .ok p :=
    bind_eq_ok_iff.2 ⟨p, map_eq_ok_iff.2 ⟨_, hsetting, rfl⟩, rfl⟩
  obtain ⟨hchanged, haccepted⟩ := changed_of_foldlM hfold
  obtain ⟨buy, sell, hregular⟩ := exists_regular (p := meanReversion) (by simp [all])
  have hfinite : ∀ r ∈ p.parameters,
      kindOf r.2.toFloat ≠ .infinite false ∧ kindOf r.2.toFloat ≠ .nan := by decide +kernel
  have hp : Customized meanReversion smallThreshold p := ⟨hchanged, haccepted⟩
  have hpositive := hregular.isPositive_of_finite hp hfinite
  obtain ⟨⟨rb, hrb, -⟩, ⟨rs, hrs, -⟩⟩ := hregular.compilesTo hp hpositive
  refine ⟨p, customize_eq_ok_iff.2 ⟨rfl, meanReversion, rfl, hfold, by decide +kernel,
    ⟨some rb, some rs⟩, ?_⟩, by decide +kernel⟩
  exact bind_eq_ok_iff.2 ⟨rb, hrb, bind_eq_ok_iff.2 ⟨rs, hrs, rfl⟩⟩

/-- A threshold that would be shown with an exponent. -/
theorem customize_substitutes_small : ∃ p, customize "mean_reversion" smallThreshold = .ok p ∧
    p.buyScript = "(close - sma(20)) / sma(20) < -0.00001" ∧
    ∃ buy, meanReversion.buyTemplate.IsPattern buy ∧
      CompilesTo p.buyScript (buy.subst (meanReversion.leavesWith smallThreshold)) := by
  obtain ⟨p, hp, htext⟩ := exists_customize_smallThreshold
  obtain ⟨⟨preset, buy, sell, hfind, hbuy, -, -, -, hcompiles, -⟩, -⟩ := customize_substitutes hp
  cases hfind
  exact ⟨p, hp, htext, buy, hbuy, hcompiles⟩

end Preset

end BarScript
