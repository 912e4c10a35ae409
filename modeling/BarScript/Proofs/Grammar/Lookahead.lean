import BarScript.Proofs.Grammar.Sound
import Mathlib.Data.List.Forall2
import Mathlib.Data.List.TakeDrop

/-!
# One token ahead

A parser looks at its tokens from left to right, and one token ahead at most.  Whether it accepts
the first `n` tokens it knows from these and the next one; and if it fails at some token, it would
fail whatever stood behind (`PromptAt`).  Where the tokens before that one always are the front of
something the parser should accept (`Viable`), its error is at the first token that makes the list
impossible.  Parsers made of parsers are prompt if those are (`PromptAt.bind`); `Prompt` is a parser
that is prompt on all tokens and accepts nothing but what derives from a symbol.

The digits of a number are a case apart.  A number of bars of too many digits is no error at a
token: reading it fails in another way, but only once the bracket behind it has been seen.  Until
then the parser takes it like any other number.  Lists of tokens are therefore compared up to
numbers that are too long (`Shortened`), and a front that ends with such a number need only be
viable with a shorter one in its place.
-/

namespace BarScript

/-- A limit has been exceeded, whatever the tokens mean. -/
def ParseCause.IsLimit : ParseCause → Prop
  | .nesting _ => True
  | .excess _ => True
  | _ => False

namespace Grammar

open Statement

/-! ### Whole numbers -/

/-- A whole number, as it may stand in brackets. -/
def IsWhole (t : Token) : Prop := t.kind = .number ∧ '.' ∉ t.text.toList

/-- A whole number of too many digits. -/
def TooLong (t : Token) : Prop := IsWhole t ∧ Numeral.maxIntDigits < t.text.toList.length

/-- The token `u` is `t`, or a shorter number instead of one that is too long. -/
def Shortened (u t : Token) : Prop :=
  u = t ∨ TooLong t ∧ IsWhole u ∧ u.text.toList.length ≤ Numeral.maxIntDigits

namespace Shortened

variable {t u : Token}

theorem refl (t : Token) : Shortened t t := .inl rfl

theorem eq_of_not_tooLong (h : Shortened u t) (ht : ¬ TooLong t) : u = t :=
  h.resolve_right fun h => ht h.1

theorem kind_eq (h : Shortened u t) : u.kind = t.kind := by
  rcases h with rfl | ⟨ht, hu, -⟩
  · rfl
  · exact hu.1.trans ht.1.1.symm

theorem isWhole (h : Shortened u t) (ht : IsWhole t) : IsWhole u := by
  rcases h with rfl | ⟨-, hu, -⟩
  · exact ht
  · exact hu

/-- No number has any property that only other tokens have. -/
theorem iff_of_imp (h : Shortened u t) {P : Token → Prop} (hP : ∀ t, P t → t.kind ≠ .number) :
    P u ↔ P t := by
  rcases h with rfl | ⟨ht, hu, -⟩
  · rfl
  · exact ⟨fun h => absurd hu.1 (hP u h), fun h => absurd ht.1.1 (hP t h)⟩

end Shortened

theorem forall₂_shortened_refl (ts : List Token) : List.Forall₂ Shortened ts ts :=
  List.forall₂_same.2 fun t _ => .refl t

theorem eq_of_forall₂_shortened {us ts : List Token} (h : List.Forall₂ Shortened us ts)
    (hts : ∀ t ∈ ts, ¬ TooLong t) : us = ts := by
  induction h with
  | nil => rfl
  | cons hu _ ih =>
    rw [List.forall_mem_cons] at hts
    rw [hu.eq_of_not_tooLong hts.1, ih hts.2]

/-! ### The same front -/

/-- The lists have the same first `n` tokens, and the same one behind these or none, up to numbers
that are too long. -/
def SameFront (n : Nat) (us ts : List Token) : Prop :=
  List.Forall₂ Shortened (us.take (n + 1)) (ts.take (n + 1))

namespace SameFront

variable {m n : Nat} {t : Token} {us ts : List Token}

theorem refl (n : Nat) (ts : List Token) : SameFront n ts ts := forall₂_shortened_refl _

theorem mono (h : SameFront n us ts) (hm : m ≤ n) : SameFront m us ts := by
  have := List.forall₂_take (m + 1) h
  rwa [List.take_take, List.take_take, Nat.min_eq_left (by omega)] at this

theorem drop (h : SameFront (n + m) us ts) : SameFront m (us.drop n) (ts.drop n) := by
  have := List.forall₂_drop n h
  rwa [List.drop_take, List.drop_take, show n + m + 1 - n = m + 1 by omega] at this

theorem eq_nil (h : SameFront n us []) : us = [] := by
  have hnil : us.take (n + 1) = [] := List.forall₂_nil_right_iff.1 h
  simpa using hnil

theorem exists_cons (h : SameFront n us (t :: ts)) : ∃ u us', us = u :: us' ∧ Shortened u t ∧
    List.Forall₂ Shortened (us'.take n) (ts.take n) := by
  cases us with
  | nil => cases h
  | cons u us =>
    rw [SameFront, List.take_succ_cons, List.take_succ_cons, List.forall₂_cons] at h
    exact ⟨u, us, rfl, h.1, h.2⟩

/-- A token that is no number that is too long is the same in both lists. -/
theorem exists_cons_of_not_tooLong (h : SameFront n us (t :: ts)) (ht : ¬ TooLong t) :
    ∃ us', us = t :: us' ∧ List.Forall₂ Shortened (us'.take n) (ts.take n) := by
  obtain ⟨u, us', rfl, hu, hus⟩ := h.exists_cons
  exact ⟨us', by rw [hu.eq_of_not_tooLong ht], hus⟩

theorem forall_head? (h : SameFront n us ts) {P : Token → Prop}
    (hP : ∀ {u t}, Shortened u t → P t → P u) (hts : ∀ t ∈ ts.head?, P t) :
    ∀ u ∈ us.head?, P u := by
  cases ts with
  | nil =>
    rw [h.eq_nil]
    simp
  | cons t ts =>
    obtain ⟨u, us, rfl, hu, -⟩ := h.exists_cons
    rintro _ ⟨⟩
    exact hP hu (hts t rfl)

theorem forall_head?_kind (h : SameFront n us ts) {P : TokenKind → Prop}
    (hts : ∀ t ∈ ts.head?, P t.kind) : ∀ u ∈ us.head?, P u.kind :=
  h.forall_head? (P := fun t => P t.kind) (fun hu ht => hu.kind_eq ▸ ht) hts

end SameFront

/-! ### Prompt results -/

section

variable {α β : Type} {V W : List Token → Prop} {ts : List Token}

/-- A failure at a place in the script that is not for a limit. -/
def Refuses (r : Except Failure (Parsed α)) : Prop :=
  ∃ cause token, r = .error (.at cause token) ∧ ¬ cause.IsLimit

/-- Two results that leave the same tokens or fail in the same way. -/
def SameRest (r r' : Except Failure (Parsed α)) : Prop := r.map Prod.snd = r'.map Prod.snd

namespace SameRest

variable {r r' : Except Failure (Parsed α)}

theorem refl (r : Except Failure (Parsed α)) : SameRest r r := rfl

theorem ok (a b : α) (rest : List Token) : SameRest (.ok (a, rest)) (.ok (b, rest)) := rfl

theorem exists_ok (h : SameRest r r') {a : α} {rest : List Token} (hr : r = .ok (a, rest)) :
    ∃ b, r' = .ok (b, rest) := by
  subst hr
  cases r' with
  | error e => cases h
  | ok x =>
    obtain ⟨b, rest'⟩ := x
    cases h
    exact ⟨b, rfl⟩

theorem refuses (h : SameRest r r') (hr : Refuses r) : Refuses r' := by
  obtain ⟨cause, token, rfl, hc⟩ := hr
  cases r' with
  | error e => cases h; exact ⟨cause, token, rfl, hc⟩
  | ok x => cases h

theorem bind {k k' : Parsed α → Except Failure (Parsed β)} (h : SameRest r r')
    (hk : ∀ a b rest, SameRest (k (a, rest)) (k' (b, rest))) : SameRest (r >>= k) (r' >>= k') := by
  cases r with
  | error e =>
    cases r' with
    | error e' => cases h; rfl
    | ok x' => cases h
  | ok x =>
    cases r' with
    | error e' => cases h
    | ok x' =>
      obtain ⟨a, rest⟩ := x
      obtain ⟨b, rest'⟩ := x'
      cases h
      exact hk a b rest

end SameRest

/-- The parser decides on each token as soon as it comes.  If it accepts the first `n` tokens, then
because of these and the token behind them only.  If it fails, then at a token or behind all of
them; where that is not for a limit, the tokens before have the property `V`, and the parser fails
because of these and the token only. -/
structure PromptAt (V : List Token → Prop) (p : List Token → Except Failure (Parsed α))
    (ts : List Token) : Prop where
  ok : ∀ {a rest}, p ts = .ok (a, rest) → ∃ n ≤ ts.length, rest = ts.drop n ∧
    ∀ us, SameFront n us ts → ∃ b, p us = .ok (b, us.drop n)
  error : ∀ {cause token}, p ts = .error (.at cause token) → ∃ n ≤ ts.length, ts[n]? = token ∧
    (cause.IsLimit ∨ V (ts.take n) ∧ ∀ us, SameFront n us ts → Refuses (p us))

namespace PromptAt

variable {p q : List Token → Except Failure (Parsed α)}

theorem mono (h : PromptAt V p ts) (hV : ∀ us, V us → W us) : PromptAt W p ts where
  ok := h.ok
  error hp := by
    obtain ⟨n, hn, htoken, h⟩ := h.error hp
    exact ⟨n, hn, htoken, h.imp_right (.imp_left (hV _))⟩

/-- A parser that looks at the next token first. -/
theorem congr (h : PromptAt V q ts) (hpq : ∀ us, SameFront 0 us ts → p us = q us) :
    PromptAt V p ts where
  ok hp := by
    rw [hpq ts (.refl 0 ts)] at hp
    obtain ⟨n, hn, hrest, h⟩ := h.ok hp
    refine ⟨n, hn, hrest, fun us hus => ?_⟩
    rw [hpq us (hus.mono n.zero_le)]
    exact h us hus
  error hp := by
    rw [hpq ts (.refl 0 ts)] at hp
    obtain ⟨n, hn, htoken, h⟩ := h.error hp
    refine ⟨n, hn, htoken, h.imp_right (.imp_right fun h us hus => ?_)⟩
    rw [hpq us (hus.mono n.zero_le)]
    exact h us hus

/-- A parser that accepts so many tokens. -/
theorem accept {n : Nat} (hn : n ≤ ts.length)
    (h : ∀ us, SameFront n us ts → ∃ a, p us = .ok (a, us.drop n)) : PromptAt V p ts where
  ok hp := by
    obtain ⟨a, hts⟩ := h ts (.refl n ts)
    cases hp.symm.trans hts
    exact ⟨n, hn, rfl, h⟩
  error hp := by
    obtain ⟨a, hts⟩ := h ts (.refl n ts)
    cases hp.symm.trans hts

/-- A parser that takes no token. -/
theorem stay (h : ∀ us, SameFront 0 us ts → ∃ a, p us = .ok (a, us)) : PromptAt V p ts :=
  accept (Nat.zero_le _) h

/-- A parser that fails behind so many tokens. -/
theorem refuse {n : Nat} (hn : n ≤ ts.length) (hV : V (ts.take n)) (h : ∀ us, SameFront n us ts →
    ∃ cause, p us = .error (.at cause us[n]?) ∧ ¬ cause.IsLimit) : PromptAt V p ts where
  ok hp := by
    obtain ⟨cause, hts, -⟩ := h ts (.refl n ts)
    cases hp.symm.trans hts
  error hp := by
    obtain ⟨cause, hts, -⟩ := h ts (.refl n ts)
    cases hp.symm.trans hts
    refine ⟨n, hn, rfl, .inr ⟨hV, fun us hus => ?_⟩⟩
    obtain ⟨cause, hus, hc⟩ := h us hus
    exact ⟨cause, _, hus, hc⟩

/-- A parser that fails at the next token. -/
theorem refuse_head (hV : V []) (h : ∀ us, SameFront 0 us ts →
    ∃ cause, p us = .error (.at cause us.head?) ∧ ¬ cause.IsLimit) : PromptAt V p ts :=
  refuse (Nat.zero_le _) hV fun us hus => by simpa [List.head?_eq_getElem?] using h us hus

/-- A parser that fails for a number that is too long. -/
theorem tooLong {digits : Nat} (h : p ts = .error (.offsetTooLong digits)) : PromptAt V p ts where
  ok hp := by cases hp.symm.trans h
  error hp := by cases hp.symm.trans h

/-- A parser without a level left. -/
theorem limit {cause : ParseCause} (h : p ts = .error (.at cause ts.head?)) (hc : cause.IsLimit) :
    PromptAt V p ts where
  ok hp := by cases hp.symm.trans h
  error hp := by
    cases hp.symm.trans h
    exact ⟨0, Nat.zero_le _, List.head?_eq_getElem?.symm, .inl hc⟩

/-- A parser that has taken a token. -/
theorem cons {t : Token} (ht : ¬ TooLong t)
    (h : PromptAt (fun us => V (t :: us)) (fun us => p (t :: us)) ts) : PromptAt V p (t :: ts) where
  ok hp := by
    obtain ⟨n, hn, hrest, h⟩ := h.ok hp
    refine ⟨n + 1, Nat.succ_le_succ hn, hrest, fun us hus => ?_⟩
    obtain ⟨us, rfl, hus'⟩ := hus.exists_cons_of_not_tooLong ht
    exact h us hus'
  error hp := by
    obtain ⟨n, hn, htoken, h⟩ := h.error hp
    refine ⟨n + 1, Nat.succ_le_succ hn, htoken, h.imp_right (.imp_right fun h us hus => ?_)⟩
    obtain ⟨us, rfl, hus'⟩ := hus.exists_cons_of_not_tooLong ht
    exact h us hus'

/-- **A parser made of two.**  What the second one does with the tokens must not depend on the
result of the first. -/
theorem bind {k : Parsed α → Except Failure (Parsed β)} (h : PromptAt V q ts)
    (hsame : ∀ a b us, SameRest (k (a, us)) (k (b, us)))
    (hk : ∀ a n, n ≤ ts.length → q ts = .ok (a, ts.drop n) →
      PromptAt (fun us => V (ts.take n ++ us)) (fun us => k (a, us)) (ts.drop n)) :
    PromptAt V (fun us => q us >>= k) ts where
  ok hp := by
    obtain ⟨⟨a, rest⟩, hq, hp⟩ := bind_eq_ok_iff.1 hp
    obtain ⟨n, hn, rfl, hfirst⟩ := h.ok hq
    obtain ⟨m, hm, rfl, hsecond⟩ := (hk a n hn hq).ok hp
    rw [List.length_drop] at hm
    refine ⟨n + m, by omega, by rw [List.drop_drop], fun us hus => ?_⟩
    obtain ⟨b, hb⟩ := hfirst us (hus.mono (Nat.le_add_right n m))
    obtain ⟨c, hc⟩ := hsecond _ hus.drop
    obtain ⟨c', hc'⟩ := (hsame a b _).exists_ok hc
    exact ⟨c', by rw [hb, ← List.drop_drop]; exact hc'⟩
  error hp := by
    rcases bind_eq_error_iff.1 hp with hq | ⟨⟨a, rest⟩, hq, hp⟩
    · obtain ⟨n, hn, htoken, h⟩ := h.error hq
      refine ⟨n, hn, htoken, h.imp_right (.imp_right fun h us hus => ?_)⟩
      obtain ⟨cause, token, hus, hc⟩ := h us hus
      exact ⟨cause, token, by rw [hus]; rfl, hc⟩
    · obtain ⟨n, hn, rfl, hfirst⟩ := h.ok hq
      obtain ⟨m, hm, htoken, hsecond⟩ := (hk a n hn hq).error hp
      rw [List.length_drop] at hm
      refine ⟨n + m, by omega, by rwa [List.getElem?_drop] at htoken, hsecond.imp_right fun h => ?_⟩
      rw [List.take_add]
      refine ⟨h.1, fun us hus => ?_⟩
      obtain ⟨b, hb⟩ := hfirst us (hus.mono (Nat.le_add_right n m))
      obtain ⟨cause, token, hk, hc⟩ := (hsame a b _).refuses (h.2 _ hus.drop)
      exact ⟨cause, token, by rw [hb]; exact hk, hc⟩

/-- A parser whose result is changed. -/
theorem map {k : Parsed α → Except Failure (Parsed β)} (h : PromptAt V q ts)
    (hk : ∀ a us, ∃ b, k (a, us) = .ok (b, us)) : PromptAt V (fun us => q us >>= k) ts := by
  refine .bind h (fun a b us => ?_) fun a _ _ _ => .stay fun us _ => hk a us
  obtain ⟨c, hc⟩ := hk a us
  obtain ⟨d, hd⟩ := hk b us
  rw [hc, hd]
  exact .ok c d us

end PromptAt

end

/-! ### Prefixes of what derives -/

/-- The tokens derive from the symbol. -/
def Derivable (s : Symbol) (ts : List Token) : Prop := ∃ e, Derives ⊤ s ts e

/-- The tokens are the front of a list of the language, once the last of them is shortened if it is
a number that is too long. -/
def Viable (l : List Token → Prop) (before : List Token) : Prop :=
  (∃ more, l (before ++ more)) ∨ ∃ front number short more, before = front ++ [number] ∧
    Shortened short number ∧ l (front ++ short :: more)

namespace Viable

variable {l l' : List Token → Prop} {before : List Token}

theorem of_append (more : List Token) (h : l (before ++ more)) : Viable l before := .inl ⟨more, h⟩

theorem append (h : Viable l before) (vs : List Token)
    (hl : ∀ us, l us → ∃ more, l' (vs ++ us ++ more)) : Viable l' (vs ++ before) := by
  rcases h with ⟨more, h⟩ | ⟨front, number, short, more, rfl, hshort, h⟩
  · obtain ⟨more', h⟩ := hl _ h
    exact .inl ⟨more ++ more', by simpa using h⟩
  · obtain ⟨more', h⟩ := hl _ h
    exact .inr ⟨vs ++ front, number, short, more ++ more', by simp, hshort, by simpa using h⟩

theorem behind (h : Viable l before) {vs : List Token} {t : Token}
    (hl : ∀ us, l us → l' (vs ++ t :: us)) : Viable l' (vs ++ t :: before) := by
  have := h.append (vs ++ [t]) fun us hus => ⟨[], by simpa using hl us hus⟩
  simpa using this

theorem mono (h : Viable l before) (hl : ∀ us, l us → l' us) : Viable l' before :=
  h.append [] fun us hus => ⟨[], by simpa using hl us hus⟩

end Viable

/-- The parser accepts only what derives from the symbol, and fails as soon as the tokens are no
prefix of that. -/
structure Prompt (s : Symbol) (p : Parser) : Prop where
  sound : Sound p (Derives ⊤ s)
  prompt : ∀ ts, PromptAt (Viable (Derivable s)) p ts

theorem take_eq_of_append {ts us : List Token} {n : Nat} (hn : n ≤ ts.length)
    (h : ts = us ++ ts.drop n) : ts.take n = us := by
  have hlength : us.length = n := by
    have := congrArg List.length h
    rw [List.length_append, List.length_drop] at this
    omega
  rw [h, ← hlength, List.take_left]

theorem Sound.take {p : Parser} {l : Language} (h : Sound p l) {ts : List Token} {e : Expr}
    {n : Nat} (hn : n ≤ ts.length) (hp : p ts = .ok (e, ts.drop n)) : l (ts.take n) e := by
  obtain ⟨us, hts, hus⟩ := h hp
  rwa [take_eq_of_append hn hts]

theorem Prompt.take {s : Symbol} {p : Parser} (h : Prompt s p) {ts : List Token} {e : Expr}
    {n : Nat} (hn : n ≤ ts.length) (hp : p ts = .ok (e, ts.drop n)) : Derivable s (ts.take n) :=
  ⟨e, h.sound.take hn hp⟩

theorem Prompt.length_le {s : Symbol} {p : Parser} (h : Prompt s p) {ts rest : List Token}
    {e : Expr} (hp : p ts = .ok (e, rest)) : rest.length ≤ ts.length := by
  obtain ⟨us, rfl, -⟩ := h.sound hp
  simp

end Grammar

end BarScript
