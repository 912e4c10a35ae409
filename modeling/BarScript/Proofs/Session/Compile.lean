import BarScript.Proofs.Except
import BarScript.Rules

/-!
# What is compiled

What a script has to be for rules to come out of it, and which rules these are.

* `Rule.compile_eq_ok_iff` : it is not blank, it can be read, and the names of its result mean
  something;
* `Rules.ofCombined_eq_ok_iff` : it is not blank, it can be read, it assigns `buy` or `sell`, and
  the names of what it assigns mean something;
* `Rules.compile_eq_ok_iff`, `Rules.compileSide_eq_ok_iff` : of two scripts each is blank or
  compiled on its own.
-/

namespace BarScript

open Program

namespace Rule

variable {source : String}

theorem ofFormula_eq_ok_iff {f : Formula} {r : Rule} :
    ofFormula source f = .ok r ↔ f.expr.checkNames = .ok () ∧ r = ⟨source, f⟩ := by
  rw [ofFormula]
  cases f.expr.checkNames with
  | ok u => simp [eq_comm]
  | error e => simp

theorem mapM_ofFormula_eq_ok_iff {f : Option Formula} {rule : Option Rule} :
    f.mapM (ofFormula source) = .ok rule ↔
      (∀ g ∈ f, g.expr.checkNames = .ok ()) ∧ rule = f.map (⟨source, ·⟩) := by
  cases f with
  | none =>
    constructor
    · intro h
      cases h
      exact ⟨by simp, rfl⟩
    · rintro ⟨-, rfl⟩
      rfl
  | some f =>
    constructor
    · intro h
      obtain ⟨r, hr, h⟩ := bind_eq_ok_iff.1 h
      cases h
      obtain ⟨hnames, rfl⟩ := ofFormula_eq_ok_iff.1 hr
      exact ⟨by simpa using hnames, rfl⟩
    · rintro ⟨hnames, rfl⟩
      exact bind_eq_ok_iff.2 ⟨_, ofFormula_eq_ok_iff.2 ⟨hnames f rfl, rfl⟩, rfl⟩

/-- **What a script is compiled to**: the rule of its result. -/
theorem compile_eq_ok_iff {script : String} {r : Rule} : compile script = .ok r ↔
    (Text.strip script).isEmpty = false ∧ ∃ p, parse (Text.strip script) = .ok p ∧
      (p.formula p.result).expr.checkNames = .ok () ∧
        r = ⟨Text.strip script, p.formula p.result⟩ := by
  simp only [compile]
  by_cases h : (Text.strip script).isEmpty = true
  · rw [if_pos h, h]
    constructor
    · intro h
      cases h
    · rintro ⟨h, -⟩
      cases h
  · rw [if_neg h, Bool.eq_false_iff.2 h]
    simp only [bind_eq_ok_iff, mapError_eq_ok_iff, ofFormula_eq_ok_iff, true_and]

/-- A script that can be read fails only for a name that means nothing. -/
theorem exists_unknown_of_compile {script : String} {p : Program} {e : CompileError}
    (hempty : (Text.strip script).isEmpty = false) (hparse : parse (Text.strip script) = .ok p)
    (h : compile script = .error e) : ∃ symbol, e = .unknown symbol := by
  simp only [compile, hempty, hparse] at h
  obtain ⟨q, hq, h⟩ := (bind_eq_error_iff.1 h).resolve_left nofun
  rw [ofFormula] at h
  split at h
  · cases h
  · rename_i symbol _
    cases h
    exact ⟨symbol, rfl⟩

end Rule

namespace Rules

/-- **What one script for both sides is compiled to**: the rules of `buy` and `sell`. -/
theorem ofCombined_eq_ok_iff {script : Option String} {r : Rules} :
    ofCombined script = .ok r ↔ (Text.strip (script.getD "")).isEmpty = false ∧
      ∃ p, parse (Text.strip (script.getD "")) = .ok p ∧
        (p.local? "buy" = none → p.local? "sell" ≠ none) ∧
        (∀ f ∈ p.local? "buy", f.expr.checkNames = .ok ()) ∧
        (∀ f ∈ p.local? "sell", f.expr.checkNames = .ok ()) ∧
        r = ⟨(p.local? "buy").map (⟨Text.strip (script.getD ""), ·⟩),
          (p.local? "sell").map (⟨Text.strip (script.getD ""), ·⟩)⟩ := by
  simp only [ofCombined]
  generalize Text.strip (script.getD "") = source
  by_cases h : source.isEmpty = true
  · rw [if_pos h, h]
    constructor
    · intro h
      cases h
    · rintro ⟨h, -⟩
      cases h
  · rw [if_neg h, Bool.eq_false_iff.2 h, bind_eq_ok_iff]
    simp only [mapError_eq_ok_iff, true_and]
    refine exists_congr fun p => and_congr_right fun _ => ?_
    split
    · rename_i hbuy hsell
      constructor
      · intro h
        cases h
      · rintro ⟨hsides, -⟩
        exact absurd hsell (hsides hbuy)
    · rename_i hsides
      simp only [bind_eq_ok_iff, Rule.mapM_ofFormula_eq_ok_iff]
      constructor
      · rintro ⟨_, ⟨hbuy, rfl⟩, _, ⟨hsell, rfl⟩, h⟩
        cases h
        exact ⟨hsides, hbuy, hsell, rfl⟩
      · rintro ⟨-, hbuy, hsell, rfl⟩
        exact ⟨_, ⟨hbuy, rfl⟩, _, ⟨hsell, rfl⟩, rfl⟩

theorem compileSide_eq_ok_iff {script : Option String} {rule : Option Rule} :
    compileSide script = .ok rule ↔ isBlank script = true ∧ rule = none ∨
      ∃ r, Rule.compile (script.getD "") = .ok r ∧ rule = some r := by
  rw [compileSide]
  by_cases h : isBlank script = true
  · rw [if_pos h]
    constructor
    · intro h'
      cases h'
      exact .inl ⟨h, rfl⟩
    · rintro (⟨-, rfl⟩ | ⟨r, hr, -⟩)
      · rfl
      · cases h.symm.trans (Rule.compile_eq_ok_iff.1 hr).1
  · rw [if_neg h, map_eq_ok_iff]
    constructor
    · rintro ⟨r, hr, rfl⟩
      exact .inr ⟨r, hr, rfl⟩
    · rintro (⟨hblank, -⟩ | ⟨r, hr, rfl⟩)
      · exact absurd hblank h
      · exact ⟨r, hr, rfl⟩

/-- A script that is compiled is not blank. -/
theorem compileSide_of_compile {script : String} {r : Rule} (h : Rule.compile script = .ok r) :
    compileSide (some script) = .ok (some r) :=
  compileSide_eq_ok_iff.2 (.inr ⟨r, h, rfl⟩)

/-- **What two scripts are compiled to**: each side on its own. -/
theorem compile_eq_ok_iff {buy sell : Option String} {r : Rules} : compile buy sell = .ok r ↔
    compileSide buy = .ok r.buy ∧ compileSide sell = .ok r.sell := by
  rw [compile, bind_eq_ok_iff]
  constructor
  · rintro ⟨b, hb, h⟩
    obtain ⟨s, hs, h⟩ := bind_eq_ok_iff.1 h
    cases h
    exact ⟨hb, hs⟩
  · rintro ⟨hb, hs⟩
    exact ⟨_, hb, bind_eq_ok_iff.2 ⟨_, hs, rfl⟩⟩

end Rules

end BarScript
