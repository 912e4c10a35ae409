import BarScript.Proofs.Preset.Custom
import BarScript.Service.Endpoint

/-!
# Settings that are refused

Some settings are refused by themselves (`Preset.Refuses`): those of an unknown parameter, and those
with a value that is no number, that is not above zero, that is not finite, or that is not whole
where the default is.  A preset is customized exactly if it exists, none of the settings is refused
and none has the name of the key (`exists_customize_iff`).

Nearly all errors are told to who asked (`CustomError.Reported`).  Two are not
(`customize_refuses`): that of a setting with the name of the key, and that of a whole number beyond
the doubles, which is not compared with the doubles before it is converted.
-/

namespace BarScript

open Number

/-- An error that is told to who customizes a preset. -/
def CustomError.Reported : CustomError → Prop
  | .reserved | .tooLarge | .script (.offsetTooLong _) => False
  | _ => True

namespace Amount

variable {a : Amount}

theorem isTooLarge_eq_true_iff : a.isTooLarge = true ↔ ∃ n, a = .whole n ∧ ofInt? n = none := by
  cases a with
  | whole n => simp [isTooLarge]
  | real x => simp [isTooLarge]

theorem isTooLarge_of_isPositive (h : IsPositive a.toFloat) : a.isTooLarge = false := by
  cases a with
  | real x => rfl
  | whole n =>
    obtain ⟨v, hk, -⟩ := h
    have hfinite : ¬(Float.ofInt n).isInf = true := fun hinf => by
      change (Float.ofInt n).toModel.unpack.isInf = true at hinf
      change kindOf (Float.ofInt n) = .finite v at hk
      rw [kindOf_eq] at hk
      cases hu : (Float.ofInt n).toModel.unpack with
      | infinity => rw [hu] at hk; cases hk
      | notANumber | zero | finite => rw [hu] at hinf; cases hinf
    have hsome : ofInt? n = some (Float.ofInt n) := if_neg hfinite
    rw [isTooLarge, hsome]
    rfl

end Amount

namespace Preset

variable {preset p start : Preset} {settings : List (String × Option Amount)} {key name : String}
  {value : Option Amount} {buy sell : Expr} {e : CustomError}

/-! ### One setting -/

/-- The settings that a preset refuses, each by itself. -/
inductive Refuses (preset : Preset) : String → Option Amount → Prop
  | unknown {name : String} {value : Option Amount} (h : preset.parameter? name = none) :
    Refuses preset name value
  | notNumber (name : String) : Refuses preset name none
  | notPositive (name : String) {a : Amount} (h : a.isNonPositive = true) :
    Refuses preset name (some a)
  | notFinite (name : String) {a : Amount}
    (h : kindOf a.toFloat = .infinite false ∨ kindOf a.toFloat = .nan) :
    Refuses preset name (some a)
  /-- The default is whole, and the value is not. -/
  | notWhole {name : String} {n : Int} {a : Amount}
    (hdefault : preset.parameter? name = some (.whole n)) (h : a.isWhole = false) :
    Refuses preset name (some a)

/-- **A setting that is not refused** has a number that suits the parameter. -/
theorem not_refuses_iff : ¬preset.Refuses name value ↔
    ∃ default a, preset.parameter? name = some default ∧ value = some a ∧
      a.isNonPositive = false ∧ IsPositive a.toFloat ∧
      (default.wantsWhole = true → a.isWhole = true) := by
  constructor
  · intro h
    obtain ⟨default, hdefault⟩ : ∃ default, preset.parameter? name = some default :=
      Option.ne_none_iff_exists'.1 fun hnone => h (.unknown hnone)
    obtain ⟨a, rfl⟩ : ∃ a, value = some a :=
      Option.ne_none_iff_exists'.1 fun hnone => h (hnone ▸ .notNumber name)
    have haccepted : a.isNonPositive = false :=
      Bool.eq_false_iff.2 fun hn => h (.notPositive name hn)
    refine ⟨default, a, hdefault, rfl, haccepted, ?_, fun hwants => ?_⟩
    · exact (Amount.passesAsPositive haccepted).resolve_right fun hk => h (.notFinite name hk)
    · cases default with
      | real x => cases hwants
      | whole n => exact Bool.not_eq_false _ ▸ fun hw => h (.notWhole hdefault hw)
  · rintro ⟨default, a, hdefault, rfl, haccepted, ⟨v, hk, -⟩, hwhole⟩ hrefuses
    cases hrefuses with
    | unknown h => rw [hdefault] at h; cases h
    | notPositive h => rw [haccepted] at h; cases h
    | notFinite h => rcases h with h | h <;> · rw [hk] at h; cases h
    | notWhole hwhole' h =>
      cases hdefault.symm.trans hwhole'
      rw [hwhole rfl] at h
      cases h

theorem setting_of_not_refuses (h : ¬preset.Refuses name value) :
    ∃ a, value = some a ∧ IsPositive a.toFloat ∧ preset.setting name value = .ok a := by
  obtain ⟨default, a, hdefault, rfl, haccepted, hpositive, hwhole⟩ := not_refuses_iff.1 h
  exact ⟨a, rfl, hpositive, setting_eq_ok_iff.2 ⟨default, hdefault, rfl, haccepted, fun hwants =>
    ⟨Amount.isTooLarge_of_isPositive hpositive, hwhole hwants⟩⟩⟩

/-- An error of one setting is told, unless the value is too large. -/
theorem reported_of_setting (h : preset.setting name value = .error e) :
    e.Reported ∨ e = .tooLarge ∧ ∃ n, value = some (.whole n) ∧ ofInt? n = none := by
  unfold setting at h
  split at h
  · cases h
    exact .inl trivial
  · cases h
    exact .inl trivial
  · rename_i default a _
    split at h
    · cases h
      exact .inl trivial
    · split at h
      · rename_i hlarge
        cases h
        obtain ⟨n, rfl, hn⟩ := Amount.isTooLarge_eq_true_iff.1 (Bool.and_eq_true_iff.1 hlarge).2
        exact .inr ⟨rfl, n, rfl, hn⟩
      · split at h
        · cases h
          exact .inl trivial
        · cases h

/-! ### All settings -/

/-- Settings that are all accepted are applied one after another. -/
theorem exists_foldlM (h : ∀ s ∈ settings, ∃ a, preset.setting s.1 s.2 = .ok a) (start : Preset) :
    ∃ p, settings.foldlM (fun p s => (preset.setting s.1 s.2).map fun value => p.set s.1 value)
      start = .ok p := by
  induction settings generalizing start with
  | nil => exact ⟨start, rfl⟩
  | cons s settings ih =>
    obtain ⟨⟨a, ha⟩, hrest⟩ := List.forall_mem_cons.1 h
    obtain ⟨p, hp⟩ := ih hrest (start.set s.1 a)
    exact ⟨p, bind_eq_ok_iff.2 ⟨_, map_eq_ok_iff.2 ⟨a, ha, rfl⟩, hp⟩⟩

/-- An error is that of one of the settings. -/
theorem exists_of_foldlM_error
    (h : settings.foldlM (fun p s => (preset.setting s.1 s.2).map fun value => p.set s.1 value)
      start = .error e) : ∃ s ∈ settings, preset.setting s.1 s.2 = .error e := by
  induction settings generalizing start with
  | nil => cases h
  | cons s settings ih =>
    rcases bind_eq_error_iff.1 h with h | ⟨next, -, h⟩
    · exact ⟨s, List.mem_cons_self, map_eq_error_iff.1 h⟩
    · obtain ⟨t, ht, herror⟩ := ih h
      exact ⟨t, List.mem_cons_of_mem s ht, herror⟩

/-- Each value comes from the start or from a setting. -/
theorem mem_parameters_of_foldlM {r : String × Amount}
    (h : settings.foldlM (fun p s => (preset.setting s.1 s.2).map fun value => p.set s.1 value)
      start = .ok p) (hr : r ∈ p.parameters) :
    r ∈ start.parameters ∨ (r.1, some r.2) ∈ settings := by
  induction settings generalizing start with
  | nil =>
    cases h
    exact .inl hr
  | cons s settings ih =>
    obtain ⟨next, hnext, h⟩ := bind_eq_ok_iff.1 h
    obtain ⟨a, ha, rfl⟩ := map_eq_ok_iff.1 hnext
    obtain ⟨-, -, hvalue, -⟩ := setting_eq_ok_iff.1 ha
    rcases ih h with hmem | hmem
    · obtain ⟨r', hr', rfl⟩ := List.mem_map.1 hmem
      split
      · exact .inr (List.mem_cons.2 (.inl (Prod.ext rfl hvalue.symm)))
      · exact .inl hr'
    · exact .inr (List.mem_cons_of_mem s hmem)

/-- In settings of different names each is the last one of its name. -/
theorem setting?_of_mem {a : Amount} (hnames : (settings.map (·.1)).Nodup)
    (h : (name, some a) ∈ settings) : setting? settings name = some a := by
  induction settings with
  | nil => cases h
  | cons s settings ih =>
    obtain ⟨hnew, hnames⟩ := List.nodup_cons.1 hnames
    rw [setting?_cons]
    rcases List.mem_cons.1 h with rfl | h
    · have hnone : setting? settings name = none :=
        Option.eq_none_iff_forall_ne_some.2 fun b hb =>
          hnew (List.mem_map.2 ⟨_, exists_mem_of_setting? hb, rfl⟩)
      rw [hnone, if_pos rfl]
      rfl
    · rw [ih hnames h]
      rfl

/-! ### The scripts -/

/-- The scripts of a customized preset can be read, so compiling them fails only for a name that
means nothing. -/
theorem Regular.exists_unknown_of_compile (h : Regular preset buy sell)
    (hp : Customized preset settings p) {e : CompileError} (herror : p.compile = .error e) :
    ∃ symbol, e = .unknown symbol := by
  obtain ⟨bps, hbuy⟩ := Template.exists_pattern h.buy_eq
  obtain ⟨sps, hsell⟩ := Template.exists_pattern h.sell_eq
  have hproper : ∀ q ∈ preset.names, (p.filling q).Proper := fun q => h.proper_filling hp
  have hbuyText : p.buyScript = preset.buyTemplate.fill fun q => (p.filling q).text := by
    rw [buyScript, hp.buyTemplate_eq, ← text_filling]
  have hsellText : p.sellScript = preset.sellTemplate.fill fun q => (p.filling q).text := by
    rw [sellScript, hp.sellTemplate_eq, ← text_filling]
  rcases bind_eq_error_iff.1 herror with herror | ⟨r, -, herror⟩
  · obtain ⟨hempty, program, hparse⟩ := hbuy.exists_parse hproper hbuyText
    exact Rule.exists_unknown_of_compile hempty hparse herror
  · rcases bind_eq_error_iff.1 herror with herror | ⟨r', -, herror⟩
    · obtain ⟨hempty, program, hparse⟩ := hsell.exists_parse hproper hsellText
      exact Rule.exists_unknown_of_compile hempty hparse herror
    · cases herror

/-! ### Customizing -/

/-- No default is too large. -/
theorem isTooLarge_default {p : Preset} (hp : p ∈ all) :
    ∀ r ∈ p.parameters, r.2.isTooLarge = false := by
  have hall : ∀ p ∈ all, ∀ r ∈ p.parameters, r.2.isTooLarge = false := by decide +kernel
  exact hall p hp

/-- A setting with the name of the key fails before all else. -/
theorem customize_of_reserved (h : "key" ∈ settings.map (·.1)) :
    customize key settings = .error .reserved := by
  have hany : (settings.any fun s => s.1 == "key") = true := by
    obtain ⟨s, hs, hkey⟩ := List.mem_map.1 h
    exact List.any_eq_true.2 ⟨s, hs, beq_iff_eq.2 hkey⟩
  simp only [customize, hany]
  rfl

/-- **Where an error comes from.** -/
theorem cases_of_customize_eq_error (h : customize key settings = .error e) :
    (e = .reserved ∧ "key" ∈ settings.map (·.1)) ∨ e = .unknownPreset key ∨
    (∃ preset, find? key = some preset ∧ ∃ s ∈ settings, preset.setting s.1 s.2 = .error e) ∨
    (e = .tooLarge ∧ ∃ s ∈ settings, ∃ n, s.2 = some (.whole n) ∧ ofInt? n = none) ∨
    ∃ symbol, e = .script (.unknown symbol) := by
  simp only [customize] at h
  split at h
  · rename_i hreserved
    cases h
    exact .inl ⟨rfl, by simpa using hreserved⟩
  · split at h
    · cases h
      exact .inr (.inl rfl)
    · rename_i preset hfind
      refine .inr (.inr ?_)
      rcases bind_eq_error_iff.1 h with h | ⟨p, hfold, h⟩
      · exact .inl ⟨preset, hfind, exists_of_foldlM_error h⟩
      · have hmem := List.mem_of_find?_eq_some hfind
        split at h
        · rename_i hlarge
          cases h
          obtain ⟨r, hr, hlarge⟩ := List.any_eq_true.1 hlarge
          rcases mem_parameters_of_foldlM hfold hr with hdefault | hsetting
          · rw [isTooLarge_default hmem r hdefault] at hlarge
            cases hlarge
          · obtain ⟨n, hn, hlarge⟩ := Amount.isTooLarge_eq_true_iff.1 hlarge
            exact .inr (.inl ⟨rfl, _, hsetting, n, congrArg some hn, hlarge⟩)
        · split at h
          · rename_i herror
            cases h
            obtain ⟨buy, sell, hregular⟩ := exists_regular hmem
            obtain ⟨hchanged, haccepted⟩ := changed_of_foldlM hfold
            obtain ⟨symbol, rfl⟩ :=
              hregular.exists_unknown_of_compile ⟨hchanged, haccepted⟩ herror
            exact .inr (.inr ⟨symbol, rfl⟩)
          · cases h

/-- **When a preset is customized.** -/
theorem exists_customize_iff (hnames : (settings.map (·.1)).Nodup) :
    (∃ p, customize key settings = .ok p) ↔ "key" ∉ settings.map (·.1) ∧
      ∃ preset, find? key = some preset ∧ ∀ s ∈ settings, ¬preset.Refuses s.1 s.2 := by
  constructor
  · rintro ⟨p, h⟩
    have hreserved : "key" ∉ settings.map (·.1) := fun hkey => by
      rw [customize_of_reserved hkey] at h
      cases h
    obtain ⟨preset, -, -, -, hfind, -, hp, hpositive⟩ := exists_patterns h
    refine ⟨hreserved, preset, hfind, fun s hs => ?_⟩
    obtain ⟨a, ha⟩ := hp.accepted s hs
    obtain ⟨default, hdefault, hvalue, haccepted, hwhole⟩ := setting_eq_ok_iff.1 ha
    have hlast : setting? settings s.1 = some a := by
      refine setting?_of_mem hnames ?_
      rwa [← hvalue]
    have hparameter : p.parameter? s.1 = some a := by
      rw [hp.parameter?_eq, valueWith?, hdefault, hlast]
      rfl
    exact not_refuses_iff.2 ⟨default, a, hdefault, hvalue, haccepted, hpositive _ _ hparameter,
      fun hwants => (hwhole hwants).2⟩
  · rintro ⟨hreserved, preset, hfind, haccepts⟩
    obtain ⟨p, hfold⟩ := exists_foldlM
      (fun s hs => (setting_of_not_refuses (haccepts s hs)).imp fun _ h => h.2.2) preset
    obtain ⟨hchanged, haccepted⟩ := changed_of_foldlM hfold
    have hp : Customized preset settings p := ⟨hchanged, haccepted⟩
    have hmem := List.mem_of_find?_eq_some hfind
    obtain ⟨buy, sell, hregular⟩ := exists_regular hmem
    -- each value is a default or that of a setting
    have hvalues : ∀ r ∈ p.parameters, r ∈ preset.parameters ∨ IsPositive r.2.toFloat := by
      intro r hr
      refine (mem_parameters_of_foldlM hfold hr).imp_right fun hsetting => ?_
      obtain ⟨a, ha, hpositive, -⟩ := setting_of_not_refuses (haccepts _ hsetting)
      cases ha
      exact hpositive
    have hlarge : (p.parameters.any fun q => q.2.isTooLarge) = false := by
      rw [List.any_eq_false]
      intro r hr
      rw [Bool.not_eq_true]
      rcases hvalues r hr with hdefault | hpositive
      · exact isTooLarge_default hmem r hdefault
      · exact Amount.isTooLarge_of_isPositive hpositive
    have hfinite : ∀ r ∈ p.parameters,
        kindOf r.2.toFloat ≠ .infinite false ∧ kindOf r.2.toFloat ≠ .nan := by
      intro r hr
      rcases hvalues r hr with hdefault | ⟨v, hk, -⟩
      · exact hregular.finite r hdefault
      · simp [hk]
    obtain ⟨⟨rb, hrb, -⟩, ⟨rs, hrs, -⟩⟩ :=
      hregular.compilesTo hp (hregular.isPositive_of_finite hp hfinite)
    refine ⟨p, customize_eq_ok_iff.2 ⟨?_, preset, hfind, hfold, hlarge, ⟨some rb, some rs⟩, ?_⟩⟩
    · rw [List.any_eq_false]
      intro s hs hkey
      exact hreserved (List.mem_map.2 ⟨s, hs, beq_iff_eq.1 hkey⟩)
    · exact bind_eq_ok_iff.2 ⟨rb, hrb, bind_eq_ok_iff.2 ⟨rs, hrs, rfl⟩⟩

/-- **Which errors are not told**: that of a setting with the name of the key, and that of a whole
number beyond the doubles. -/
theorem reported_of_customize (h : customize key settings = .error e) : e.Reported ∨
    (e = .reserved ∧ "key" ∈ settings.map (·.1)) ∨
    (e = .tooLarge ∧ ∃ s ∈ settings, ∃ n, s.2 = some (.whole n) ∧ ofInt? n = none) := by
  rcases cases_of_customize_eq_error h with
    hreserved | rfl | ⟨preset, -, s, hs, hsetting⟩ | hlarge | ⟨symbol, rfl⟩
  · exact .inr (.inl hreserved)
  · exact .inl trivial
  · rcases reported_of_setting hsetting with hreported | ⟨rfl, n, hn⟩
    · exact .inl hreported
    · exact .inr (.inr ⟨rfl, s, hs, n, hn⟩)
  · exact .inr (.inr hlarge)
  · exact .inl trivial

/-- **What is refused, and how.**  Let the names of the settings be different.  Customizing fails
exactly if a setting has the name of the key, if there is no preset of the key, or if the preset
refuses one of the settings.  The error is one that is told, with two exceptions: a setting with the
name of the key, and a whole number beyond the doubles. -/
theorem customize_refuses (key : String) {settings : List (String × Option Amount)}
    (hnames : (settings.map (·.1)).Nodup) :
    (∀ e, customize key settings = .error e → e.Reported ∨
      (e = .reserved ∧ "key" ∈ settings.map (·.1)) ∨
      (e = .tooLarge ∧ ∃ s ∈ settings, ∃ n, s.2 = some (.whole n) ∧ ofInt? n = none)) ∧
    ((∃ e, customize key settings = .error e) ↔ "key" ∈ settings.map (·.1) ∨ find? key = none ∨
      ∃ preset, find? key = some preset ∧ ∃ s ∈ settings, preset.Refuses s.1 s.2) := by
  refine ⟨fun e => reported_of_customize, ?_⟩
  have hfails : (∃ e, customize key settings = .error e) ↔
      ¬∃ p, customize key settings = .ok p := by
    cases customize key settings <;> simp
  rw [hfails, exists_customize_iff hnames]
  cases find? key with
  | none => simp
  | some preset => simp [imp_iff_not_or]

/-- A period that is not whole, and no other setting. -/
theorem customize_refuses_fraction :
    ([("short", some (Amount.real 2.5))].map (·.1)).Nodup ∧
      ∃ e, customize "double_ma_cross" [("short", some (.real 2.5))] = .error e ∧ e.Reported := by
  have hnames : ([("short", some (Amount.real 2.5))].map (·.1)).Nodup := List.nodup_singleton _
  obtain ⟨hreported, hfails⟩ := customize_refuses "double_ma_cross" hnames
  have hrefuses : averageCross.Refuses "short" (some (.real 2.5)) :=
    .notWhole (n := 5) rfl (by decide +kernel)
  obtain ⟨e, he⟩ :=
    hfails.2 (.inr (.inr ⟨averageCross, rfl, _, List.mem_singleton_self _, hrefuses⟩))
  refine ⟨hnames, e, he, ?_⟩
  rcases hreported e he with h | ⟨-, h⟩ | ⟨-, s, hs, n, h, -⟩
  · exact h
  · exact absurd h (by decide)
  · rw [List.mem_singleton.1 hs] at h
    cases h

/-- A parameter with the name of the key is unknown, but the error is not told; neither is that of a
period beyond the doubles. -/
theorem customize_key_not_reported :
    (∃ e, customize "double_ma_cross" [("key", some (.whole 1))] = .error e ∧ ¬e.Reported) ∧
      ∃ e, customize "double_ma_cross" [("short", some (.whole (10 ^ 400)))] = .error e ∧
        ¬e.Reported := by
  refine ⟨⟨.reserved, customize_of_reserved (by decide), id⟩, .tooLarge, ?_, id⟩
  have hlarge : (Amount.whole (10 ^ 400)).isTooLarge = true := by decide +kernel
  have hpositive : (Amount.whole (10 ^ 400)).isNonPositive = false := by decide +kernel
  have hsetting : averageCross.setting "short" (some (.whole (10 ^ 400))) = .error .tooLarge := by
    have hdefault : averageCross.parameter? "short" = some (.whole 5) := rfl
    simp only [setting, hdefault, hlarge, hpositive]
    rfl
  have hfind : find? "double_ma_cross" = some averageCross := rfl
  have hany : ([("short", some (Amount.whole (10 ^ 400)))].any fun s => s.1 == "key") = false := rfl
  simp only [customize, hany, hfind, List.foldlM_cons, hsetting]
  rfl

end Preset

namespace Endpoint

/-- **When a request for other parameters is not answered**: there is a preset of the key, and one
of the parameters has the name of the key. -/
theorem customize_failure_iff (key : String) (body : CustomizeBody) :
    (customize key body).reply = .failure ↔
      (Preset.find? key).isSome = true ∧ "key" ∈ body.parameters.map (·.1) := by
  have hnames : (body.parameters.map fun q => (q.1, some (Amount.real q.2))).map (·.1) =
      body.parameters.map (·.1) := List.map_map
  rw [customize]
  cases hfind : Preset.find? key with
  | none => simp [noPreset, Response.silent, Reply.detail]
  | some preset =>
    simp only [Option.isNone_some, Bool.false_eq_true, if_false, Option.isSome_some, true_and]
    by_cases hkey : "key" ∈ body.parameters.map (·.1)
    · rw [Preset.customize_of_reserved (hnames ▸ hkey)]
      simp [hkey, Response.silent]
    · simp only [hkey, iff_false]
      cases hc : Preset.customize key (body.parameters.map fun q => (q.1, some (.real q.2))) with
      | ok p => exact nofun
      | error e =>
        rcases Preset.reported_of_customize hc with hreported | ⟨-, h⟩ | ⟨-, s, hs, n, hn, -⟩
        · -- an error that is told has a reply of its own
          cases e with
          | reserved | tooLarge => cases hreported
          | script e =>
            cases e with
            | offsetTooLong => cases hreported
            | parse | unknown => exact nofun
          | _ => exact nofun
        · exact absurd (hnames ▸ h) hkey
        · obtain ⟨q, -, rfl⟩ := List.mem_map.1 hs
          cases hn

end Endpoint

end BarScript
