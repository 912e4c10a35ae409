import BarScript.Proofs.Except
import BarScript.Proofs.Grammar.Basic

/-!
# What the parsers accept derives from the grammar

A parser is `Sound` for a language if whatever it accepts is in front of the tokens it leaves and
belongs to the language, with the tree it gives.  Each way of building a parser from others keeps
soundness; the parsers of level `n` are sound for derivations of at most `n` levels
(`levels_sound`).
-/

namespace BarScript

namespace Grammar

open Statement

/-- Trees of lists of tokens. -/
abbrev Language := List Token → Expr → Prop

/-- What the parser accepts belongs to the language. -/
def Sound (p : Parser) (l : Language) : Prop :=
  ∀ ⦃ts e rest⦄, p ts = .ok (e, rest) → ∃ us, ts = us ++ rest ∧ l us e

theorem Sound.mono {p : Parser} {l l' : Language} (h : Sound p l) (hl : ∀ ts e, l ts e → l' ts e) :
    Sound p l' := by
  intro ts e rest hp
  obtain ⟨us, rfl, hus⟩ := h hp
  exact ⟨us, rfl, hl us e hus⟩

section

variable {d : ℕ∞} {c : Chain} {operators : List String} {operand : Parser}

/-! ### Chains -/

theorem sumOf_sound (hop : ∀ t, t.isOperator operators = c.isOperator t)
    (hp : Sound operand (Derives d c.operand)) (fuel : Nat) (left : Expr) {ts rest : List Token}
    {e : Expr} (h : sumOf operators operand fuel left ts = .ok (e, rest)) :
    ∃ us more, ts = us ++ rest ∧ More d c us more ∧ e = binaryTree left more := by
  induction fuel generalizing left ts with
  | zero => cases h; exact ⟨[], [], rfl, .nil, rfl⟩
  | succ fuel ih =>
    cases ts with
    | nil => cases h; exact ⟨[], [], rfl, .nil, rfl⟩
    | cons t ts =>
      simp only [sumOf] at h
      split at h
      · rename_i ht
        obtain ⟨⟨right, ts'⟩, hright, h₁⟩ := bind_eq_ok_iff.1 h
        obtain ⟨us, rfl, hus⟩ := hp hright
        obtain ⟨vs, more, rfl, hmore, rfl⟩ := ih _ h₁
        exact ⟨t :: us ++ vs, (t, right) :: more, by simp, .cons (hop t ▸ ht) hus hmore, rfl⟩
      · cases h; exact ⟨[], [], rfl, .nil, rfl⟩

theorem leftChain_sound (hop : ∀ t, t.isOperator operators = c.isOperator t)
    (hc : c.tree = binaryTree) (hp : Sound operand (Derives d c.operand)) :
    Sound (leftChain operators operand) (Derives d (.chain c)) := by
  intro ts e rest h
  obtain ⟨⟨first, ts'⟩, hfirst, h₁⟩ := bind_eq_ok_iff.1 h
  obtain ⟨us, rfl, hus⟩ := hp hfirst
  obtain ⟨vs, more, rfl, hmore, rfl⟩ := sumOf_sound hop hp _ _ h₁
  exact ⟨us ++ vs, by rw [List.append_assoc], hc ▸ .chain hus hmore⟩

theorem operandsOf_sound (hp : Sound operand (Derives d c.operand)) (fuel : Nat)
    {ts rest : List Token} {es : List Expr}
    (h : operandsOf c.isOperator operand fuel ts = .ok (es, rest)) :
    ∃ us more, ts = us ++ rest ∧ More d c us more ∧ es = more.map (·.2) := by
  induction fuel generalizing ts es with
  | zero => cases h; exact ⟨[], [], rfl, .nil, rfl⟩
  | succ fuel ih =>
    cases ts with
    | nil => cases h; exact ⟨[], [], rfl, .nil, rfl⟩
    | cons t ts =>
      simp only [operandsOf] at h
      split at h
      · rename_i ht
        obtain ⟨⟨e, ts'⟩, he, h₁⟩ := bind_eq_ok_iff.1 h
        obtain ⟨⟨es', ts''⟩, hes, h₂⟩ := bind_eq_ok_iff.1 h₁
        cases h₂
        obtain ⟨us, rfl, hus⟩ := hp he
        obtain ⟨vs, more, rfl, hmore, rfl⟩ := ih hes
        exact ⟨t :: us ++ vs, (t, e) :: more, by simp, .cons ht hus hmore, rfl⟩
      · cases h; exact ⟨[], [], rfl, .nil, rfl⟩

theorem logicalChain_sound {name : String} (hc : c.tree = logicalTree name)
    (hp : Sound operand (Derives d c.operand)) :
    Sound (logicalChain name c.isOperator operand) (Derives d (.chain c)) := by
  intro ts e rest h
  obtain ⟨⟨first, ts'⟩, hfirst, h₁⟩ := bind_eq_ok_iff.1 h
  obtain ⟨⟨es, ts''⟩, hes, h₂⟩ := bind_eq_ok_iff.1 h₁
  cases h₂
  obtain ⟨us, rfl, hus⟩ := hp hfirst
  obtain ⟨vs, more, rfl, hmore, rfl⟩ := operandsOf_sound hp _ hes
  refine ⟨us ++ vs, by rw [List.append_assoc], ?_⟩
  have := Derives.chain hus hmore
  simpa only [hc, logicalTree, List.isEmpty_map] using this

/-! ### Comparisons, signs and negations -/

theorem comparison_sound (hp : Sound operand (Derives d (.chain .sum))) :
    Sound (comparison operand) (Derives d .comparison) := by
  intro ts e rest h
  obtain ⟨⟨left, ts'⟩, hleft, h₁⟩ := bind_eq_ok_iff.1 h
  obtain ⟨us, rfl, hus⟩ := hp hleft
  cases ts' with
  | nil => cases h₁; exact ⟨us, rfl, .uncompared hus⟩
  | cons t ts' =>
    simp only at h₁
    split at h₁
    · rename_i ht
      obtain ⟨⟨right, ts''⟩, hright, h₂⟩ := bind_eq_ok_iff.1 h₁
      cases h₂
      obtain ⟨vs, rfl, hvs⟩ := hp hright
      exact ⟨us ++ t :: vs, by simp, .comparison hus ht hvs⟩
    · split at h₁
      · cases h₁
      · cases h₁; exact ⟨us, rfl, .uncompared hus⟩

theorem leading_sound {isLeading : Token → Bool} {node : Token → Expr → Node Expr}
    {deeper : Option Parser} {tighter : Parser} {l : Language}
    (hd : ∀ p ∈ deeper, ∀ t, isLeading t = true → ∃ l', Sound p l' ∧
      ∀ ts e, l' ts e → l (t :: ts) (.mk (node t e)))
    (ht : Sound tighter l) : Sound (leading isLeading node deeper tighter) l := by
  intro ts e rest h
  cases ts with
  | nil => exact ht h
  | cons t ts =>
    simp only [leading] at h
    split at h
    · rename_i hleading
      cases deeper with
      | none => cases h
      | some p =>
        obtain ⟨⟨e', ts'⟩, he, h₁⟩ := bind_eq_ok_iff.1 h
        cases h₁
        obtain ⟨l', hp, hl⟩ := hd p rfl t hleading
        obtain ⟨us, rfl, hus⟩ := hp he
        exact ⟨t :: us, rfl, hl us e' hus⟩
    · exact ht h

/-! ### History -/

theorem expect_eq_ok_iff {kind : TokenKind} {ts rest : List Token} {t : Token} :
    expect kind ts = .ok (t, rest) ↔ ts = t :: rest ∧ t.kind = kind := by
  cases ts with
  | nil => simp [expect]
  | cons t' ts =>
    simp only [expect]
    split
    · simp only [Except.ok.injEq, Prod.mk.injEq, List.cons.injEq]
      constructor
      · rintro ⟨rfl, rfl⟩
        exact ⟨⟨rfl, rfl⟩, ‹_›⟩
      · exact And.left
    · rename_i hk
      simp only [reduceCtorEq, List.cons.injEq, false_iff]
      rintro ⟨⟨rfl, -⟩, hk'⟩
      exact hk hk'

theorem offset_eq_ok_iff {t : Token} {bars : Int} : offset t = .ok bars ↔
    t.text.toList.length ≤ Numeral.maxIntDigits ∧
      bars = (Text.digitsValue t.text.toList : Int) := by
  simp only [offset, Numeral.ofDigits]
  split
  · rename_i n h
    split at h
    · cases h
    · simp only [Bool.false_eq_true, if_false, Numeral.IntReading.value.injEq] at h
      subst h
      simp only [Except.ok.injEq, eq_comm, iff_and_self]
      omega
  · rename_i h
    split at h
    · simp only [reduceCtorEq, false_iff]
      omega
    · cases h
  · rename_i h
    split at h <;> cases h

theorem histories_sound (fuel : Nat) (e : Expr) {ts rest : List Token} {e' : Expr}
    (h : histories fuel e ts = .ok (e', rest)) :
    ∃ us offsets, ts = us ++ rest ∧ Brackets us offsets ∧
      e' = offsets.foldl (fun e bars => .mk (.history e bars)) e := by
  induction fuel generalizing e ts with
  | zero => cases h; exact ⟨[], [], rfl, .nil, rfl⟩
  | succ fuel ih =>
    cases ts with
    | nil => cases h; exact ⟨[], [], rfl, .nil, rfl⟩
    | cons t ts =>
      simp only [histories] at h
      split at h
      · rename_i ht
        obtain ⟨⟨number, ts₁⟩, hnumber, h₁⟩ := bind_eq_ok_iff.1 h
        obtain ⟨rfl, hn⟩ := expect_eq_ok_iff.1 hnumber
        simp only at h₁
        split at h₁
        · cases h₁
        · rename_i hdot
          obtain ⟨⟨closing, ts₂⟩, hclosing, h₂⟩ := bind_eq_ok_iff.1 h₁
          obtain ⟨rfl, hc⟩ := expect_eq_ok_iff.1 hclosing
          obtain ⟨bars, hbars, h₃⟩ := bind_eq_ok_iff.1 h₂
          obtain ⟨hshort, rfl⟩ := offset_eq_ok_iff.1 hbars
          obtain ⟨us, offsets, rfl, hus, rfl⟩ := ih _ h₃
          exact ⟨t :: number :: closing :: us, _ :: offsets, rfl,
            .cons ht hn (by simpa using hdot) hshort hc hus, rfl⟩
      · cases h; exact ⟨[], [], rfl, .nil, rfl⟩

theorem withHistory_sound (hp : Sound operand (Derives d .primary)) :
    Sound (withHistory operand) (Derives d .indexed) := by
  intro ts e rest h
  obtain ⟨⟨first, ts'⟩, hfirst, h₁⟩ := bind_eq_ok_iff.1 h
  obtain ⟨us, rfl, hus⟩ := hp hfirst
  obtain ⟨vs, offsets, rfl, hvs, rfl⟩ := histories_sound _ _ h₁
  exact ⟨us ++ vs, by rw [List.append_assoc], .indexed hus hvs⟩

/-! ### Primaries -/

/-- The fuel outlasts the arguments, as each of them takes a token. -/
theorem arguments_sound (hp : Sound operand (Derives d (.chain .or))) (fuel : Nat)
    {ts rest : List Token} {es : List Expr} (hfuel : ts.length ≤ fuel) (hpos : 0 < fuel)
    (h : arguments operand fuel ts = .ok (es, rest)) :
    ∃ us, ts = us ++ rest ∧ Arguments d us es := by
  induction fuel generalizing ts es with
  | zero => exact absurd hpos (Nat.lt_irrefl 0)
  | succ fuel ih =>
    obtain ⟨⟨e, ts'⟩, he, h₁⟩ := bind_eq_ok_iff.1 h
    obtain ⟨us, rfl, hus⟩ := hp he
    have hlen := hus.length_pos
    cases ts' with
    | nil => cases h₁; exact ⟨us, rfl, .one hus⟩
    | cons t ts' =>
      simp only at h₁
      split at h₁
      · rename_i ht
        obtain ⟨⟨es', ts''⟩, hes, h₂⟩ := bind_eq_ok_iff.1 h₁
        cases h₂
        simp only [List.length_append, List.length_cons] at hfuel
        obtain ⟨vs, rfl, hvs⟩ := ih (by omega) (by omega) hes
        exact ⟨us ++ t :: vs, by simp, .cons hus ht hvs⟩
      · cases h₁; exact ⟨us, rfl, .one hus⟩

/-- If the parser of groups accepts anything, there is a level left, and the parser is sound for
it. -/
def SoundGroup (d : ℕ∞) (group : Parser) : Prop :=
  ∀ ⦃ts e rest⦄, group ts = .ok (e, rest) → ∃ d', d = d' + 1 ∧ Sound group (Derives d' (.chain .or))

theorem callArguments_sound {group : Parser} (hg : SoundGroup d group) {ts rest : List Token}
    {es : List Expr} (h : callArguments group ts = .ok (es, rest)) :
    ∃ us closing, ts = us ++ closing :: rest ∧ closing.kind = .closeParen ∧
      (us = [] ∧ es = [] ∨ ∃ d', d = d' + 1 ∧ Arguments d' us es) := by
  cases ts with
  | nil => cases h
  | cons t ts =>
    simp only [callArguments] at h
    split at h
    · rw [pure_bind] at h
      obtain ⟨⟨closing, ts'⟩, hclosing, h₁⟩ := bind_eq_ok_iff.1 h
      obtain ⟨heq, hc⟩ := expect_eq_ok_iff.1 hclosing
      cases h₁
      exact ⟨[], closing, heq, hc, .inl ⟨rfl, rfl⟩⟩
    · obtain ⟨⟨es', ts'⟩, hargs, h₁⟩ := bind_eq_ok_iff.1 h
      obtain ⟨⟨closing, ts''⟩, hclosing, h₂⟩ := bind_eq_ok_iff.1 h₁
      obtain ⟨rfl, hc⟩ := expect_eq_ok_iff.1 hclosing
      cases h₂
      -- that the first argument was read shows that there is a level left
      have hfirst := hargs
      rw [List.length_cons] at hfirst
      obtain ⟨⟨e, us⟩, he, -⟩ := bind_eq_ok_iff.1 hfirst
      obtain ⟨d', rfl, hsound⟩ := hg he
      obtain ⟨us, heq, hus⟩ := arguments_sound hsound _ (Nat.le_refl _) (by simp) hargs
      exact ⟨us, closing, heq, hc, .inr ⟨d', rfl, hus⟩⟩

theorem primary_sound {group : Parser} (hg : SoundGroup d group) :
    Sound (primary group) (Derives d .primary) := by
  intro ts e rest h
  cases ts with
  | nil => cases h
  | cons t ts =>
    simp only [primary] at h
    split at h
    · rename_i ht
      cases h
      exact ⟨[t], rfl, .number ht⟩
    · rename_i ht
      cases h
      exact ⟨[t], rfl, .text ht⟩
    · rename_i ht
      obtain ⟨⟨e', ts'⟩, he, h₁⟩ := bind_eq_ok_iff.1 h
      obtain ⟨⟨closing, ts''⟩, hclosing, h₂⟩ := bind_eq_ok_iff.1 h₁
      obtain ⟨rfl, hc⟩ := expect_eq_ok_iff.1 hclosing
      cases h₂
      obtain ⟨d', rfl, hsound⟩ := hg he
      obtain ⟨us, rfl, hus⟩ := hsound he
      exact ⟨t :: us ++ [closing], by simp, .group ht hus hc⟩
    · rename_i ht
      split at h
      · cases h
      · rename_i hkey
        -- a name, and a call if there is a parenthesis behind it
        have hname : IsName t := ⟨ht, by simpa using hkey⟩
        cases ts with
        | nil => cases h; exact ⟨[t], rfl, .name hname⟩
        | cons p ts =>
          simp only at h
          split at h
          · rename_i hopen
            obtain ⟨⟨es, ts'⟩, hes, h₁⟩ := bind_eq_ok_iff.1 h
            cases h₁
            obtain ⟨us, closing, rfl, hc, ⟨rfl, rfl⟩ | ⟨d', rfl, hus⟩⟩ := callArguments_sound hg hes
            · exact ⟨[t, p, closing], rfl, .call hname hopen hc⟩
            · exact ⟨t :: p :: us ++ [closing], by simp, .callWith hname hopen hus hc⟩
          · cases h; exact ⟨[t], rfl, .name hname⟩
    · cases h

end

/-! ### Levels -/

theorem exists_add_one {n : Nat} {d : ℕ∞} (h : ((n + 1 : Nat) : ℕ∞) ≤ d) :
    ∃ d', d = d' + 1 ∧ (n : ℕ∞) ≤ d' := by
  cases d with
  | top => exact ⟨⊤, rfl, le_top⟩
  | coe m =>
    have hm : n + 1 ≤ m := by exact_mod_cast h
    exact ⟨(m - 1 : Nat), by exact_mod_cast (by omega : m = m - 1 + 1), by
      exact_mod_cast (by omega : n ≤ m - 1)⟩

/-- The parsers of a level are sound for derivations that may have as many levels. -/
structure SoundLevel (n : Nat) (level : Level) : Prop where
  group : ∀ d : ℕ∞, (n : ℕ∞) ≤ d + 1 → Sound level.group (Derives d (.chain .or))
  negated : ∀ d : ℕ∞, (n : ℕ∞) ≤ d → Sound level.negated (Derives d .negated)
  signed : ∀ d : ℕ∞, (n : ℕ∞) ≤ d → Sound level.signed (Derives d .signed)

theorem levelOver_group_sound {n : Nat} {deeper : Option Level}
    (hd : ∀ l ∈ deeper, ∃ m, n = m + 1 ∧ SoundLevel m l) {d : ℕ∞} (h : (n : ℕ∞) ≤ d + 1) :
    Sound (levelOver deeper).group (Derives d (.chain .or)) := by
  cases deeper with
  | none => intro ts e rest hts; cases hts
  | some level =>
    obtain ⟨m, rfl, hl⟩ := hd level rfl
    have hle : (m : ℕ∞) ≤ d := (ENat.add_le_add_iff_right ENat.one_ne_top).1 (by simpa using h)
    have hand : Sound (logicalChain "AND" isAnd level.negated) (Derives d (.chain .and)) :=
      logicalChain_sound (c := .and) rfl (hl.negated d hle)
    exact logicalChain_sound (c := .or) rfl hand

theorem levelOver_sound {n : Nat} {deeper : Option Level}
    (hd : ∀ l ∈ deeper, ∃ m, n = m + 1 ∧ SoundLevel m l) : SoundLevel n (levelOver deeper) := by
  -- without a deeper level no group is read
  have hgroup : ∀ d : ℕ∞, (n : ℕ∞) ≤ d → SoundGroup d (levelOver deeper).group := by
    intro d h ts e rest hts
    cases deeper with
    | none => cases hts
    | some level =>
      obtain ⟨m, rfl, -⟩ := hd level rfl
      obtain ⟨d', rfl, -⟩ := exists_add_one h
      exact ⟨d', rfl, levelOver_group_sound hd h⟩
  have hsigned : ∀ d : ℕ∞, (n : ℕ∞) ≤ d → Sound (levelOver deeper).signed (Derives d .signed) := by
    intro d h
    refine leading_sound (fun p hp t ht => ?_)
      ((withHistory_sound (primary_sound (hgroup d h))).mono fun ts e => .unsigned)
    obtain ⟨level, hlevel, rfl⟩ := Option.map_eq_some_iff.1 hp
    obtain ⟨m, rfl, hl⟩ := hd level hlevel
    obtain ⟨d', rfl, hle⟩ := exists_add_one h
    exact ⟨_, hl.signed d' hle, fun ts e => .sign ht⟩
  refine ⟨fun d h => levelOver_group_sound hd h, fun d h => ?_, hsigned⟩
  have hsum : Sound (leftChain ["+", "-"] (leftChain ["*", "/"] (levelOver deeper).signed))
      (Derives d (.chain .sum)) :=
    leftChain_sound (c := .sum) (fun _ => rfl) rfl
      (leftChain_sound (c := .product) (fun _ => rfl) rfl (hsigned d h))
  refine leading_sound (fun p hp t ht => ?_) ((comparison_sound hsum).mono fun ts e => .positive)
  obtain ⟨level, hlevel, rfl⟩ := Option.map_eq_some_iff.1 hp
  obtain ⟨m, rfl, hl⟩ := hd level hlevel
  obtain ⟨d', rfl, hle⟩ := exists_add_one h
  exact ⟨_, hl.negated d' hle, fun ts e => .negation ht⟩

/-- **The parsers of a level are sound** for derivations of at least that many levels. -/
theorem levels_sound (n : Nat) : SoundLevel n (levels n) := by
  induction n with
  | zero => exact levelOver_sound (by simp)
  | succ n ih => exact levelOver_sound (by simpa using ih)

end Grammar

end BarScript
