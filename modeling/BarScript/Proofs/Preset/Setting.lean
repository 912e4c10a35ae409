import BarScript.Preset.Custom
import BarScript.Proofs.Number.Literal
import BarScript.Proofs.Session.Compile

/-!
# The values of a customized preset

A customized preset has the templates of the preset, and for each parameter the value of its last
setting or else the default (`Customized`).  Every setting has been checked by itself
(`setting_eq_ok_iff`), so a value that comes from one passes as positive, and is whole where the
default is.
-/

namespace BarScript

open Number

/-- A value that is not refused passes as positive when it is converted. -/
theorem Amount.passesAsPositive {a : Amount} (h : a.isNonPositive = false) :
    PassesAsPositive a.toFloat := by
  cases a with
  | whole n => exact (positive_ofInt (not_le.1 (of_decide_eq_false h))).passesAsPositive
  | real x => exact passesAsPositive_of_not_le (of_decide_eq_false h)

namespace Preset

variable {preset p : Preset} {settings : List (String × Option Amount)} {name q : String}
  {a : Amount}

/-! ### One setting -/

theorem setting_eq_ok_iff {value : Option Amount} : p.setting name value = .ok a ↔
    ∃ default, p.parameter? name = some default ∧ value = some a ∧ a.isNonPositive = false ∧
      (default.wantsWhole = true → a.isTooLarge = false ∧ a.isWhole = true) := by
  unfold setting
  split
  · rename_i hnone
    simp [hnone]
  · rename_i hsome
    simp [hsome]
  · rename_i default value hsome
    simp only [hsome, Option.some.injEq, exists_eq_left']
    constructor
    · intro h
      split at h
      · cases h
      · split at h
        · cases h
        · split at h
          · cases h
          · cases h
            simp_all
    · rintro ⟨rfl, hpositive, hwhole⟩
      cases hw : default.wantsWhole <;> simp_all

theorem parameter?_set (p : Preset) (name : String) (a : Amount) (q : String) :
    (p.set name a).parameter? q =
      (p.parameter? q).map fun default => if name = q then a else default := by
  rw [parameter?, set, parameter?, Option.map_map]
  induction p.parameters with
  | nil => rfl
  | cons r rs ih =>
    by_cases hq : r.1 = q
    · by_cases hname : r.1 = name
      · simp_all
      · have hne : name ≠ q := fun h => hname (hq.trans h.symm)
        simp_all
    · by_cases hname : r.1 = name <;> simp_all

/-! ### All settings -/

/-- The value of the last setting of a parameter. -/
def setting? (settings : List (String × Option Amount)) (q : String) : Option Amount :=
  settings.reverse.findSome? fun s => if s.1 = q then s.2 else none

theorem setting?_cons (s : String × Option Amount) (settings : List (String × Option Amount))
    (q : String) : setting? (s :: settings) q =
      (setting? settings q).or (if s.1 = q then s.2 else none) := by
  simp [setting?, List.findSome?_append]

theorem exists_mem_of_setting? (h : setting? settings q = some a) : (q, some a) ∈ settings := by
  obtain ⟨⟨s, value⟩, hmem, hvalue⟩ := List.exists_of_findSome?_eq_some h
  split at hvalue
  · rename_i hs
    cases hs
    cases hvalue
    exact List.mem_reverse.1 hmem
  · cases hvalue

/-- The value of a parameter with settings. -/
def valueWith? (preset : Preset) (settings : List (String × Option Amount)) (q : String) :
    Option Amount :=
  (preset.parameter? q).map fun default => (setting? settings q).getD default

/-- The preset `p` is `preset` with other values for its parameters. -/
structure Changed (preset : Preset) (settings : List (String × Option Amount)) (p : Preset) :
    Prop where
  key_eq : p.key = preset.key
  buyTemplate_eq : p.buyTemplate = preset.buyTemplate
  sellTemplate_eq : p.sellTemplate = preset.sellTemplate
  parameter?_eq : ∀ q, p.parameter? q = preset.valueWith? settings q

/-- The preset `p` is `preset` with other values that have been accepted. -/
structure Customized (preset : Preset) (settings : List (String × Option Amount)) (p : Preset) :
    Prop extends Changed preset settings p where
  accepted : ∀ s ∈ settings, ∃ a, preset.setting s.1 s.2 = .ok a

/-- A preset is changed by no settings into itself. -/
theorem Customized.refl (p : Preset) : Customized p [] p where
  key_eq := rfl
  buyTemplate_eq := rfl
  sellTemplate_eq := rfl
  parameter?_eq _ := (Option.map_id' ..).symm
  accepted := by simp

/-- Settings that are applied one after another have all been accepted. -/
theorem changed_of_foldlM {start : Preset}
    (h : settings.foldlM (fun p s => (preset.setting s.1 s.2).map fun value => p.set s.1 value)
      start = .ok p) :
    Changed start settings p ∧ ∀ s ∈ settings, ∃ a, preset.setting s.1 s.2 = .ok a := by
  induction settings generalizing start with
  | nil =>
    cases h
    exact ⟨(Customized.refl _).toChanged, by simp⟩
  | cons s settings ih =>
    obtain ⟨next, hnext, h⟩ := bind_eq_ok_iff.1 h
    obtain ⟨a, ha, rfl⟩ := map_eq_ok_iff.1 hnext
    obtain ⟨hchanged, haccepted⟩ := ih h
    obtain ⟨-, -, hvalue, -⟩ := setting_eq_ok_iff.1 ha
    refine ⟨⟨hchanged.key_eq, hchanged.buyTemplate_eq, hchanged.sellTemplate_eq,
      fun q => ?_⟩, List.forall_mem_cons.2 ⟨⟨a, ha⟩, haccepted⟩⟩
    rw [hchanged.parameter?_eq, valueWith?, valueWith?, parameter?_set, Option.map_map,
      setting?_cons, hvalue]
    congr 1
    funext default
    by_cases hs : s.1 = q <;> cases setting? settings q <;> simp [hs]

/-- **When a preset is customized**: there is one of the key, its settings are accepted, no value is
too large, and the scripts are compiled. -/
theorem customize_eq_ok_iff {key : String} : customize key settings = .ok p ↔
    (settings.any fun s => s.1 == "key") = false ∧ ∃ preset, find? key = some preset ∧
      settings.foldlM (fun p s => (preset.setting s.1 s.2).map fun value => p.set s.1 value)
        preset = .ok p ∧
      (p.parameters.any fun q => q.2.isTooLarge) = false ∧ ∃ rules, p.compile = .ok rules := by
  simp only [customize]
  constructor
  · intro h
    split at h
    · cases h
    · rename_i hreserved
      split at h
      · cases h
      · rename_i preset hfind
        obtain ⟨custom, hcustom, h⟩ := bind_eq_ok_iff.1 h
        split at h
        · cases h
        · rename_i hlarge
          cases hcompile : custom.compile with
          | error e =>
            rw [hcompile] at h
            cases h
          | ok rules =>
            rw [hcompile] at h
            cases h
            exact ⟨Bool.eq_false_iff.2 hreserved, preset, hfind, hcustom,
              Bool.eq_false_iff.2 hlarge, rules, hcompile⟩
  · rintro ⟨hreserved, preset, hfind, hcustom, hlarge, rules, hcompile⟩
    rw [if_neg (Bool.eq_false_iff.1 hreserved), hfind]
    refine bind_eq_ok_iff.2 ⟨p, hcustom, ?_⟩
    rw [if_neg (Bool.eq_false_iff.1 hlarge), hcompile]
    rfl

/-- **What customizing gives**: the preset of the key with the last accepted setting of each
parameter, with scripts that are compiled. -/
theorem exists_customized {key : String} (h : customize key settings = .ok p) :
    ∃ preset ∈ all, find? key = some preset ∧ Customized preset settings p ∧
      ∃ rules, p.compile = .ok rules := by
  obtain ⟨-, preset, hfind, hcustom, -, hcompile⟩ := customize_eq_ok_iff.1 h
  obtain ⟨hchanged, haccepted⟩ := changed_of_foldlM hcustom
  exact ⟨preset, List.mem_of_find?_eq_some hfind, hfind, ⟨hchanged, haccepted⟩, hcompile⟩

/-- A value of a customized preset is not refused, if the defaults are not, and it is whole where
the default is. -/
theorem Customized.value (h : Customized preset settings p)
    (hdefaults : ∀ r ∈ preset.parameters, r.2.isNonPositive = false)
    (ha : p.parameter? q = some a) : a.isNonPositive = false ∧
      ∃ default, preset.parameter? q = some default ∧
        (default.wantsWhole = true → a.isWhole = true) := by
  rw [h.parameter?_eq] at ha
  obtain ⟨default, hdefault, rfl⟩ := Option.map_eq_some_iff.1 ha
  cases hs : setting? settings q with
  | none =>
    obtain ⟨r, hfind, hr⟩ := Option.map_eq_some_iff.1 hdefault
    have haccepted := hdefaults r (List.mem_of_find?_eq_some hfind)
    rw [hr] at haccepted
    refine ⟨haccepted, _, hdefault, fun hw => ?_⟩
    cases default with
    | whole n => rfl
    | real x => cases hw
  | some a =>
    obtain ⟨b, hb⟩ := h.accepted _ (exists_mem_of_setting? hs)
    obtain ⟨d, hd, hvalue, hpositive, hwhole⟩ := setting_eq_ok_iff.1 hb
    cases hvalue
    cases hdefault.symm.trans hd
    exact ⟨hpositive, _, hdefault, fun hw => (hwhole hw).2⟩

end Preset

end BarScript
