import BarScript.Eval
import BarScript.Proofs.Market.Older

/-!
# Values and more history

When a market is known further back, an undefined value may become defined, and with it a condition
may become true; nothing else changes.  `Value.Grows` relates a value to what it can become with
older bars.  Every operator keeps this relation but the comparison of booleans
(`agree_unaryValue`, `agree_binaryValue`, `agree_compareValues`), and so does every function but the
averages that start from the first bar (`Builtin.agree_apply`).
-/

namespace BarScript

/-! ### Values -/

/-- What a value can become with `n` older bars: anything if it is undefined, true if it is false,
and else the same, a price list having older items in front. -/
inductive Value.Grows (n : Nat) : Value → Value → Prop
  | undefined (w : Value) : Grows n .undefined w
  | number (x : Float) : Grows n (.number x) (.number x)
  | boolean {b c : Bool} (h : b = true → c = true) : Grows n (.boolean b) (.boolean c)
  | text (s : String) : Grows n (.text s) (.text s)
  | series (l : Line) {xs ys : List Float} (h : Longer n xs ys) :
      Grows n (.series l xs) (.series l ys)

namespace Value.Grows

variable {n : Nat} {v w : Value}

theorem ofOption {x y : Option Float} (h : Kept x y) : Grows n (.ofOption x) (.ofOption y) := by
  rcases h with rfl | rfl
  · exact .undefined _
  · cases x
    · exact .undefined _
    · exact .number _

theorem truthy (h : Grows n v w) (hv : v.truthy = true) : w.truthy = true := by
  cases h with
  | undefined => cases hv
  | number | text => exact hv
  | boolean h => exact h hv
  | series l h =>
    simp only [Value.truthy] at hv ⊢
    rcases kept_getLast? h.suffix with hnone | heq
    · rw [hnone] at hv
      cases hv
    · rwa [← heq]

/-- A value that is neither undefined nor false stays. -/
theorem collapse (h : Grows n v w) : v.collapse = .undefined ∨ v.collapse = .boolean false ∨
    w.collapse = v.collapse := by
  cases h with
  | undefined => exact .inl rfl
  | number | text => exact .inr (.inr rfl)
  | @boolean b c h =>
    cases b with
    | false => exact .inr (.inl rfl)
    | true => rw [h rfl]; exact .inr (.inr rfl)
  | series l h =>
    simp only [Value.collapse]
    rcases kept_getLast? h.suffix with hnone | heq
    · exact .inl (by rw [hnone]; rfl)
    · exact .inr (.inr (by rw [heq]))

theorem toNumber (h : Grows n v w) (what : String) :
    Agree Kept (v.toNumber what) (w.toNumber what) := by
  cases h with
  | undefined => exact fun a b ha hb => by cases ha; exact .inl rfl
  | number x => exact .ok (.refl _)
  | boolean | text => exact .error_left _
  | series l h => exact .ok (kept_getLast? h.suffix)

theorem toWhole (h : Grows n v w) (function : String) :
    Agree Kept (v.toWhole function) (w.toWhole function) := by
  refine (h.toNumber function).bind fun x y hx => ?_
  rcases hx with rfl | rfl
  · exact fun a b ha hb => by cases ha; exact .inl rfl
  · exact (Agree.refl _).mono fun a b hab => .inr hab

end Value.Grows

section

variable {n : Nat} {v v' w w' : Value}

/-! ### Operators -/

theorem agree_unaryValue (operator : String) (h : v.Grows n w) :
    Agree (Value.Grows n) (unaryValue operator v) (unaryValue operator w) := by
  refine (h.toNumber _).bind fun x y hx => ?_
  rcases hx with rfl | rfl
  · exact fun a b ha hb => by cases ha; exact .undefined _
  cases x with
  | none => exact .ok (.undefined _)
  | some x => exact (Agree.refl _).bind fun a b hab => by cases hab; exact .ok (.number a)

theorem agree_bothNumbers (operator : String) (h : v.Grows n w) (h' : v'.Grows n w') :
    Agree Kept (bothNumbers operator v v') (bothNumbers operator w w') := by
  refine (h.toNumber _).bind fun x y hx => (h'.toNumber _).bind fun x' y' hx' => ?_
  rcases hx with rfl | rfl
  · exact fun a b ha hb => by cases ha; exact .inl rfl
  rcases hx' with rfl | rfl
  · cases x <;> exact fun a b ha hb => by cases ha; exact .inl rfl
  · exact (Agree.refl _).mono fun a b hab => .inr hab

theorem agree_binaryValue (operator : String) (h : v.Grows n w) (h' : v'.Grows n w') :
    Agree (Value.Grows n) (binaryValue operator v v') (binaryValue operator w w') := by
  refine (agree_bothNumbers operator h h').bind fun x y hx => ?_
  rcases hx with rfl | rfl
  · exact fun a b ha hb => by cases ha; exact .undefined _
  cases x with
  | none => exact .ok (.undefined _)
  | some x => exact (Agree.refl _).bind fun a b hab => by cases hab; exact .ok (.number a)

/-- Nothing compares to an undefined value. -/
theorem compareValues_undefined {tolerance : Float} {operator : String} {b : Bool}
    (h : compareValues tolerance operator .undefined v = .ok b) : b = false := by
  cases v <;> simp [compareValues, Value.toNumber, bind, Except.bind, pure, Except.pure] at h <;>
    exact h

theorem compareValues_undefined_right {tolerance : Float} {operator : String} {b : Bool}
    (h : compareValues tolerance operator v .undefined = .ok b) : b = false := by
  cases v with
  | series l points =>
    cases hlast : points.getLast? <;>
      simp [compareValues, Value.toNumber, bind, Except.bind, pure, Except.pure, hlast] at h <;>
        exact h
  | _ =>
    simp [compareValues, Value.toNumber, bind, Except.bind, pure, Except.pure] at h
    exact h

theorem agree_compareNumbers (tolerance : Float) (operator : String) (h : v.Grows n w)
    (h' : v'.Grows n w') :
    Agree (fun b c => b = true → c = true)
      (do
        let a ← v.toNumber s!"Operator '{operator}'"
        let b ← v'.toNumber s!"Operator '{operator}'"
        match a, b with
        | some a, some b => compareNumbers tolerance operator a b
        | _, _ => return false)
      (do
        let a ← w.toNumber s!"Operator '{operator}'"
        let b ← w'.toNumber s!"Operator '{operator}'"
        match a, b with
        | some a, some b => compareNumbers tolerance operator a b
        | _, _ => return false) := by
  refine (h.toNumber _).bind fun x y hx => (h'.toNumber _).bind fun x' y' hx' => ?_
  rcases hx with rfl | rfl
  · exact fun a b ha hb => by cases ha; exact nofun
  rcases hx' with rfl | rfl
  · cases x <;> exact fun a b ha hb => by cases ha; exact nofun
  · exact (Agree.refl _).mono fun a b hab => by rw [hab]; exact id

/-- A comparison that holds still does, unless booleans are compared. -/
theorem agree_compareValues (tolerance : Float) (operator : String) (h : v.Grows n w)
    (h' : v'.Grows n w') (hv : v.kind ≠ .boolean) (hv' : v'.kind ≠ .boolean) :
    Agree (fun b c => b = true → c = true) (compareValues tolerance operator v v')
      (compareValues tolerance operator w w') := by
  have hnumbers := agree_compareNumbers tolerance operator h h'
  cases h with
  | boolean => exact absurd rfl hv
  | undefined w => exact fun b c hb _ => by rw [compareValues_undefined hb]; exact nofun
  | text s =>
    cases h' with
    | boolean => exact absurd rfl hv'
    | undefined w' => exact fun b c hb _ => by rw [compareValues_undefined_right hb]; exact nofun
    | text s' => exact (Agree.refl _).mono fun b c hbc => by rw [hbc]; exact id
    | number | series => exact .error_left _
  | number x | series l hl =>
    cases h' with
    | boolean => exact absurd rfl hv'
    | undefined w' => exact fun b c hb _ => by rw [compareValues_undefined_right hb]; exact nofun
    | text => exact .error_left _
    | number | series => exact hnumbers

/-! ### Settings -/

theorem agree_readSettings (function : String) (ps : List Parameter) {vs ws : List Value}
    (h : List.Forall₂ (Value.Grows n) vs ws) :
    Agree Kept (readSettings function ps vs) (readSettings function ps ws) := by
  induction ps generalizing vs ws with
  | nil => exact .ok (.refl _)
  | cons p ps ih =>
    cases h with
    | nil => exact (Agree.refl _).mono fun a b hab => .inr hab
    | @cons v w vs ws h hs =>
      simp only [readSettings]
      split
      on_goal 1 => refine ((h.toNumber function).map fun _ _ hx => hx.map _).bind fun x y hx => ?_
      on_goal 2 => refine ((h.toWhole function).map fun _ _ hx => hx.map _).bind fun x y hx => ?_
      -- nothing behind an undefined argument is looked at
      all_goals
        rcases hx with rfl | rfl
        · exact fun a b ha hb => by cases ha; exact .inl rfl
        cases x with
        | none => exact .ok (.refl _)
        | some x => exact (ih hs).bind fun a b hab => .ok (hab.map _)

theorem agree_settings (function : String) (ps : List Parameter) {vs ws : List Value}
    (h : List.Forall₂ (Value.Grows n) vs ws) :
    Agree Kept (settings function ps vs) (settings function ps ws) := by
  rw [settings, settings, h.length_eq]
  exact (Agree.refl _).bind fun _ _ _ => agree_readSettings function ps h

/-- There are no more arguments than places for them. -/
theorem length_le_of_settings {function : String} {ps : List Parameter} {vs : List Value}
    {given : Option (List Setting)} (h : settings function ps vs = .ok given) :
    vs.length ≤ ps.length := by
  obtain ⟨_, h, -⟩ := bind_eq_ok_iff.1 h
  unfold checkCount at h
  split at h
  · cases h
  · rename_i hcount
    simpa using (not_or.1 hcount).2

theorem settings_undefined {function : String} {p : Parameter} {ps : List Parameter}
    {vs : List Value} {given : Option (List Setting)}
    (h : settings function (p :: ps) (.undefined :: vs) = .ok given) : given = none := by
  obtain ⟨_, -, h⟩ := bind_eq_ok_iff.1 h
  rw [readSettings] at h
  split at h <;> · cases h; rfl

/-! ### Functions -/

theorem agree_toNumbers (function : String) {vs ws : List Value}
    (h : List.Forall₂ (Value.Grows n) vs ws) :
    Agree (List.Forall₂ Kept) (toNumbers function vs) (toNumbers function ws) := by
  induction h with
  | nil => exact .ok .nil
  | cons h _ ih =>
    refine (h.toNumber function).bind fun x y hx => ih.bind fun xs ys hxs => ?_
    exact .ok (.cons hx hxs)

theorem kept_mapM {xs ys : List (Option Float)} (h : List.Forall₂ Kept xs ys) :
    Kept (xs.mapM fun x => x) (ys.mapM fun y => y) := by
  induction h with
  | nil => exact .refl _
  | @cons x _ _ _ h _ ih =>
    rw [List.mapM_cons, List.mapM_cons]
    rcases h with rfl | rfl
    · exact .inl rfl
    rcases ih with hnone | heq
    · rw [hnone]
      cases x <;> exact .inl rfl
    · rw [heq]
      exact .refl _

/-- A function whose result depends on the last bars only. -/
def Builtin.Steady : Builtin → Prop
  | price f => f.Windowed
  | bar f => f = .williamsR
  | arithmetic _ => True

theorem agree_ofFault {r : Option Float → Option Float → Prop} {x y : Except Fault (Option Float)}
    (h : Agree r x y) : Agree r (ofFault x) (ofFault y) := fun _ _ ha hb =>
  h (mapError_eq_ok_iff.1 ha) (mapError_eq_ok_iff.1 hb)

theorem PriceFunction.parameters_ne_nil (f : PriceFunction) : ∃ p ps, f.parameters = p :: ps := by
  cases f <;> exact ⟨_, _, rfl⟩

/-- Settings that are known are those with more history, and then so is a point computed with
them. -/
theorem agree_given (function : String) (ps : List Parameter) {vs ws : List Value}
    (h : List.Forall₂ (Value.Grows n) vs ws)
    {f g : List Setting → Except Fault (Option Float)}
    (hf : ∀ given, Agree Kept (f given) (g given)) :
    Agree Kept
      (do
        match ← settings function ps vs with
        | none => return none
        | some given => ofFault (f given))
      (do
        match ← settings function ps ws with
        | none => return none
        | some given => ofFault (g given)) := by
  refine (agree_settings function ps h).bind fun x y hx => ?_
  rcases hx with rfl | rfl
  · exact fun a b ha hb => by cases ha; exact .inl rfl
  cases x with
  | none => exact .ok (.refl _)
  | some given => exact agree_ofFault (hf given)

theorem PriceFunction.agree_apply {f : PriceFunction} (hf : f.Windowed) {vs ws : List Value}
    (h : List.Forall₂ (Value.Grows n) vs ws) {s t : Series} (hs : s.Longer n t) :
    Agree Kept ((Builtin.price f).apply vs s) ((Builtin.price f).apply ws t) := by
  have hcloses := agree_given (Builtin.price f).name f.parameters h
    (f.kept_compute hf hs.closes.suffix)
  cases h with
  | nil => exact hcloses
  | cons h hvs =>
    cases h with
    | number | boolean | text => exact hcloses
    | series l hl => exact agree_given _ _ hvs (f.kept_compute hf hl.suffix)
    | undefined w =>
      -- the list of prices may be another one, but the settings are undefined
      intro a b ha hb
      obtain ⟨given, hgiven, ha⟩ := bind_eq_ok_iff.1 ha
      obtain ⟨p, ps, hps⟩ := f.parameters_ne_nil
      rw [hps] at hgiven
      rw [settings_undefined hgiven] at ha
      cases ha
      exact .inl rfl

/-- Highs, lows and closes with older ones in front, or none on both sides. -/
def SourcesGrow (n : Nat) : Option (List Float × List Float × List Float) →
    Option (List Float × List Float × List Float) → Prop :=
  Option.Rel fun x y => Longer n x.1 y.1 ∧ Longer n x.2.1 y.2.1 ∧ Longer n x.2.2 y.2.2

theorem points_cons {vs : List Value} {points : List (List Float)}
    (h : (v :: vs).filterMap Value.points? = points) (hlen : points.length = vs.length + 1) :
    ∃ l xs points', v = .series l xs ∧ points = xs :: points' ∧
      vs.filterMap Value.points? = points' := by
  have hle := List.length_filterMap_le Value.points? vs
  cases v with
  | series l xs => exact ⟨l, xs, _, rfl, h.symm, rfl⟩
  | _ =>
    rw [List.filterMap_cons_none rfl] at h
    rw [h] at hle
    omega

/-- Three price lists in front are three lists that the first arguments are. -/
theorem exists_three_series {vs : List Value} {highs lows closes : List Float}
    (h : (vs.take 3).filterMap Value.points? = [highs, lows, closes]) :
    ∃ l₁ l₂ l₃ rest, vs = .series l₁ highs :: .series l₂ lows :: .series l₃ closes :: rest := by
  have hle := List.length_filterMap_le Value.points? (vs.take 3)
  rw [h] at hle
  match vs with
  | [] | [_] | [_, _] => simp at hle
  | v₁ :: v₂ :: v₃ :: rest =>
    obtain ⟨l₁, _, _, rfl, heq, h⟩ := points_cons h rfl
    cases heq
    obtain ⟨l₂, _, _, rfl, heq, h⟩ := points_cons h rfl
    cases heq
    obtain ⟨l₃, _, _, rfl, heq, -⟩ := points_cons h rfl
    cases heq
    exact ⟨l₁, l₂, l₃, rest, rfl⟩

/-- What the place of the close is computed from, and the arguments that are left: the call fails
for too many of them, it is undefined because the first one is, or both have only grown. -/
def BarsGrow (n : Nat) (x y : Option (List Float × List Float × List Float) × List Value) : Prop :=
  1 < x.2.length ∨ x.2.head? = some .undefined ∨
    SourcesGrow n x.1 y.1 ∧ List.Forall₂ (Value.Grows n) x.2 y.2

theorem agree_marketSources {s t : Series} (hs : s.Longer n t) {vs ws : List Value}
    (h : List.Forall₂ (Value.Grows n) vs ws) :
    Agree (BarsGrow n)
      (match s.companion .highs, s.companion .lows with
        | some highs, some lows => .ok (some (highs, lows, s.closes), vs)
        | _, _ => .ok (none, vs) : Except EvalError _)
      (match t.companion .highs, t.companion .lows with
        | some highs, some lows => .ok (some (highs, lows, t.closes), ws)
        | _, _ => .ok (none, ws) : Except EvalError _) := by
  have hcloses := hs.closes
  have hh := hs.companion .highs
  have hl := hs.companion .lows
  generalize s.companion .highs = x, t.companion .highs = x' at hh
  generalize s.companion .lows = y, t.companion .lows = y' at hl
  rcases hh with hh | _
  · rcases hl with hl | _
    · exact .ok (.inr (.inr ⟨.some ⟨hh, hl, hcloses⟩, h⟩))
    · exact .ok (.inr (.inr ⟨.none, h⟩))
  · exact .ok (.inr (.inr ⟨.none, h⟩))

theorem agree_barSources (function : String) {vs ws : List Value}
    (h : List.Forall₂ (Value.Grows n) vs ws) {s t : Series} (hs : s.Longer n t) :
    Agree (BarsGrow n) (barSources function vs s) (barSources function ws t) := by
  rw [barSources]
  split
  case h_1 hnone =>
    -- the lists of the market; all arguments are left
    have hleft : ∀ {x}, (match s.companion .highs, s.companion .lows with
        | some highs, some lows => .ok (some (highs, lows, s.closes), vs)
        | _, _ => .ok (none, vs) : Except EvalError _) = .ok x → x.2 = vs := by
      intro x hx
      split at hx <;> cases hx <;> rfl
    cases h with
    | nil => exact agree_marketSources hs .nil
    | cons hv hvs =>
      cases hvs with
      | cons => exact fun x y hx _ => .inl (by rw [hleft hx]; simp)
      | nil =>
        cases hv with
        | undefined => exact fun x y hx _ => .inr (.inl (by rw [hleft hx]; rfl))
        | number x => exact agree_marketSources hs (.cons (.number x) .nil)
        | boolean h => exact agree_marketSources hs (.cons (.boolean h) .nil)
        | text s => exact agree_marketSources hs (.cons (.text s) .nil)
        | series => cases hnone
  case h_2 highs lows closes hthree =>
    obtain ⟨l₁, l₂, l₃, rest, rfl⟩ := exists_three_series hthree
    cases h with
    | cons h₁ h =>
      cases h with
      | cons h₂ h =>
        cases h with
        | cons h₃ hrest =>
          cases h₁ with
          | series _ hh =>
            cases h₂ with
            | series _ hl =>
              cases h₃ with
              | series _ hc => exact .ok (.inr (.inr ⟨.some ⟨hh, hl, hc⟩, hrest⟩))
  case h_3 => exact .error_left _

theorem BarFunction.agree_apply_williamsR {vs ws : List Value}
    (h : List.Forall₂ (Value.Grows n) vs ws) {s t : Series} (hs : s.Longer n t) :
    Agree Kept ((Builtin.bar .williamsR).apply vs s) ((Builtin.bar .williamsR).apply ws t) := by
  refine (agree_barSources _ h hs).bind fun x y hxy => ?_
  obtain ⟨sources, rest⟩ := x
  obtain ⟨sources', rest'⟩ := y
  rcases hxy with hlen | hundefined | ⟨hsources, hrest⟩
  · have hlen : 1 < rest.length := hlen
    intro a b ha hb
    obtain ⟨given, hgiven, -⟩ := bind_eq_ok_iff.1 ha
    exact absurd (length_le_of_settings hgiven) (Nat.not_le_of_lt hlen)
  · obtain ⟨vs, rfl⟩ := List.head?_eq_some_iff.1 hundefined
    intro a b ha hb
    obtain ⟨given, hgiven, ha⟩ := bind_eq_ok_iff.1 ha
    cases settings_undefined hgiven
    cases ha
    exact .inl rfl
  · refine (agree_settings _ _ hrest).bind fun x y hx => ?_
    rcases hx with rfl | rfl
    · exact fun a b ha hb => by cases ha; exact .inl rfl
    rcases hsources with ⟨hh, hl, hc⟩ | _
    · cases x with
      | none => exact .ok (.refl _)
      | some given => exact agree_ofFault (kept_compute_williamsR hh hl hc given)
    · cases x <;> exact .ok (.refl _)

theorem Arithmetic.agree_apply (f : Arithmetic) {vs ws : List Value}
    (h : List.Forall₂ (Value.Grows n) vs ws) (s t : Series) :
    Agree Kept ((Builtin.arithmetic f).apply vs s) ((Builtin.arithmetic f).apply ws t) := by
  simp only [Builtin.apply, h.length_eq]
  refine (Agree.refl _).bind fun _ _ _ => (agree_toNumbers _ h).bind fun xs ys hxs => ?_
  rcases kept_mapM hxs with hnone | heq
  · rw [hnone]
    exact fun a b ha hb => by cases ha; exact .inl rfl
  · rw [heq]
    exact (Agree.refl _).mono fun a b hab => .inr hab

/-- **A result of such a function that is known stays.** -/
theorem Builtin.agree_apply {f : Builtin} (hf : f.Steady) {vs ws : List Value}
    (h : List.Forall₂ (Value.Grows n) vs ws) {s t : Series} (hs : s.Longer n t) :
    Agree Kept (f.apply vs s) (f.apply ws t) := by
  cases f with
  | price f => exact f.agree_apply hf h hs
  | bar f =>
    cases (hf : f = .williamsR)
    exact BarFunction.agree_apply_williamsR h hs
  | arithmetic f => exact f.agree_apply h s t

end

end BarScript
