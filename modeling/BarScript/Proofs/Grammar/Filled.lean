import BarScript.Proofs.Grammar.Basic
import BarScript.Proofs.Graph.Graft
import Mathlib.Data.List.Chain
import Mathlib.Data.List.Forall2

/-!
# Tokens in the place of names

A name in an expression may be given a leaf to stand for by putting another token in its place
(`Fills`).  The expression then has that leaf wherever it had the name, and is the same
everywhere else (`Derives.filled`).  The name of a function is no name of a value and stays.
-/

namespace BarScript

namespace Grammar

open Statement Token

/-- What each name stands for, if its token is replaced. -/
abbrev Leaves := String → Option Expr

/-- The token `u` stands in the place of `t`: it is `t` itself, or a leaf for a name. -/
inductive Fills (leaves : Leaves) : Token → Token → Prop
  | same {t : Token} (h : IsName t → leaves t.lower = none) : Fills leaves t t
  | leaf {t u : Token} {e : Expr} (ht : IsName t) (h : leaves t.lower = some e)
      (hu : ∀ d, Derives d .primary [u] e) : Fills leaves u t

/-- The tokens `us` stand in the places of `ts`. -/
abbrev Filled (leaves : Leaves) (us ts : List Token) : Prop := List.Forall₂ (Fills leaves) us ts

/-- The name of a function is not replaced. -/
abbrev KeepsCalls (leaves : Leaves) (ts : List Token) : Prop :=
  ts.IsChain fun t next => next.kind = .openParen → leaves t.lower = none

variable {leaves : Leaves}

namespace Fills

variable {t u : Token}

theorem eq_of_not_isName (h : Fills leaves u t) (ht : ¬ IsName t) : u = t := by
  cases h with
  | same => rfl
  | leaf hname => exact absurd hname ht

theorem eq_of_leaves (h : Fills leaves u t) (ht : leaves t.lower = none) : u = t := by
  cases h with
  | same => rfl
  | leaf _ hleaf =>
    rw [ht] at hleaf
    cases hleaf

theorem eq_of_kind (h : Fills leaves u t) {k : TokenKind} (ht : t.kind = k) (hk : k ≠ .word) :
    u = t :=
  h.eq_of_not_isName fun hname => hk (ht.symm.trans hname.1)

theorem eq_of_isOperator (h : Fills leaves u t) {operators : List String}
    (ht : t.isOperator operators = true) : u = t := by
  simp only [Token.isOperator, Bool.and_eq_true, decide_eq_true_eq] at ht
  exact h.eq_of_kind ht.1 (by decide)

theorem eq_of_isKeyword (h : Fills leaves u t) {word : String} (hword : word ∈ keywords)
    (ht : t.isKeyword word = true) : u = t := by
  simp only [Token.isKeyword, Bool.and_eq_true, decide_eq_true_eq, beq_iff_eq] at ht
  exact h.eq_of_not_isName fun hname => hname.2 (ht.2 ▸ hword)

theorem eq_of_isNot (h : Fills leaves u t) (ht : isNot t = true) : u = t :=
  (Bool.or_eq_true_iff.1 ht).elim (h.eq_of_isKeyword (by decide)) h.eq_of_isOperator

theorem eq_of_chain (h : Fills leaves u t) {c : Chain} (ht : c.isOperator t = true) : u = t := by
  cases c with
  | or => exact (Bool.or_eq_true_iff.1 ht).elim (h.eq_of_isKeyword (by decide)) h.eq_of_isOperator
  | and => exact (Bool.or_eq_true_iff.1 ht).elim (h.eq_of_isKeyword (by decide)) h.eq_of_isOperator
  | sum | product => exact h.eq_of_isOperator ht

end Fills

namespace Filled

variable {t : Token} {us ts ts' : List Token}

theorem exists_cons (h : Filled leaves us (t :: ts)) :
    ∃ u us', us = u :: us' ∧ Fills leaves u t ∧ Filled leaves us' ts := by
  obtain ⟨u, us', hu, hus, rfl⟩ := List.forall₂_cons_right_iff.1 h
  exact ⟨u, us', rfl, hu, hus⟩

theorem exists_singleton (h : Filled leaves us [t]) : ∃ u, us = [u] ∧ Fills leaves u t := by
  obtain ⟨u, us', rfl, hu, hnil⟩ := h.exists_cons
  cases hnil
  exact ⟨u, rfl, hu⟩

theorem exists_append (h : Filled leaves us (ts ++ ts')) :
    ∃ us₁ us₂, us = us₁ ++ us₂ ∧ Filled leaves us₁ ts ∧ Filled leaves us₂ ts' := by
  exact ⟨us.take ts.length, us.drop ts.length, (List.take_append_drop _ us).symm,
    List.forall₂_take_append us ts ts' h, List.forall₂_drop_append us ts ts' h⟩

end Filled

/-! ### Trees -/

section Trees

variable {e : Expr}

theorem subst_histories (offsets : List Int) :
    (offsets.foldl (fun e bars => Expr.mk (.history e bars)) e).subst leaves =
      offsets.foldl (fun e bars => .mk (.history e bars)) (e.subst leaves) := by
  induction offsets generalizing e with
  | nil => rfl
  | cons bars offsets ih =>
    have hhistory : (Expr.mk (.history e bars)).subst leaves =
        .mk (.history (e.subst leaves) bars) := Expr.subst_mk _ nofun
    rw [List.foldl_cons, ih, hhistory, List.foldl_cons]

theorem subst_binaryTree (more : List (Token × Expr)) : (binaryTree e more).subst leaves =
    binaryTree (e.subst leaves) (more.map fun r => (r.1, r.2.subst leaves)) := by
  induction more generalizing e with
  | nil => rfl
  | cons r more ih =>
    have hbinary : (Expr.mk (.binary r.1.text e r.2)).subst leaves =
        .mk (.binary r.1.text (e.subst leaves) (r.2.subst leaves)) := Expr.subst_mk _ nofun
    change (binaryTree _ more).subst leaves = _
    rw [ih, hbinary]
    rfl

theorem subst_logicalTree (name : String) (more : List (Token × Expr)) :
    (logicalTree name e more).subst leaves =
      logicalTree name (e.subst leaves) (more.map fun r => (r.1, r.2.subst leaves)) := by
  cases more with
  | nil => rfl
  | cons r more =>
    have hlogical : (Expr.mk (.logical name (e :: (r :: more).map (·.2)))).subst leaves =
        .mk (.logical name ((e :: (r :: more).map (·.2)).map (Expr.subst leaves))) :=
      Expr.subst_mk _ nofun
    change (Expr.mk _).subst leaves = _
    rw [hlogical]
    simp [logicalTree]

theorem Chain.subst_tree (c : Chain) (more : List (Token × Expr)) : (c.tree e more).subst leaves =
    c.tree (e.subst leaves) (more.map fun r => (r.1, r.2.subst leaves)) := by
  cases c with
  | or | and => exact subst_logicalTree _ more
  | sum | product => exact subst_binaryTree more

end Trees

/-! ### Expressions -/

theorem Brackets.filled {ts : List Token} {offsets : List Int} (h : Brackets ts offsets)
    {us : List Token} (hu : Filled leaves us ts) : us = ts := by
  induction h generalizing us with
  | nil => cases hu; rfl
  | cons ho hn _ _ hc _ ih =>
    obtain ⟨opening, us₁, rfl, ho', h₁⟩ := hu.exists_cons
    obtain ⟨number, us₂, rfl, hn', h₂⟩ := h₁.exists_cons
    obtain ⟨closing, us₃, rfl, hc', h₃⟩ := h₂.exists_cons
    rw [ho'.eq_of_kind ho (by decide), hn'.eq_of_kind hn (by decide),
      hc'.eq_of_kind hc (by decide), ih h₃]

mutual

/-- **Tokens in the place of names replace the names in the tree.** -/
theorem Derives.filled {d : ℕ∞} {s : Symbol} {ts us : List Token} {e : Expr} :
    Derives d s ts e → KeepsCalls leaves ts → Filled leaves us ts → Derives d s us (e.subst leaves)
  | .chain hfirst hmore, hk, hu => by
    obtain ⟨us₁, us₂, rfl, h₁, h₂⟩ := hu.exists_append
    rw [Chain.subst_tree]
    exact .chain (hfirst.filled hk.left_of_append h₁) (hmore.filled hk.right_of_append h₂)
  | .negation ht h, hk, hu => by
    obtain ⟨u, vs, rfl, hut, hvs⟩ := hu.exists_cons
    rw [hut.eq_of_isNot ht, Expr.subst_mk]
    · exact .negation ht (h.filled hk.tail hvs)
    · nofun
  | .positive h, hk, hu => .positive (h.filled hk hu)
  | .comparison hleft ht hright, hk, hu => by
    obtain ⟨us₁, us₂, rfl, h₁, h₂⟩ := hu.exists_append
    obtain ⟨u, us₃, rfl, hut, h₃⟩ := h₂.exists_cons
    rw [hut.eq_of_isOperator ht, Expr.subst_mk]
    · exact .comparison (hleft.filled hk.left_of_append h₁) ht
        (hright.filled hk.right_of_append.tail h₃)
    · nofun
  | .uncompared h, hk, hu => .uncompared (h.filled hk hu)
  | .sign ht h, hk, hu => by
    obtain ⟨u, vs, rfl, hut, hvs⟩ := hu.exists_cons
    rw [hut.eq_of_isOperator ht, Expr.subst_mk]
    · exact .sign ht (h.filled hk.tail hvs)
    · nofun
  | .unsigned h, hk, hu => .unsigned (h.filled hk hu)
  | .indexed h hb, hk, hu => by
    obtain ⟨us₁, us₂, rfl, h₁, h₂⟩ := hu.exists_append
    rw [subst_histories, hb.filled h₂]
    exact .indexed (h.filled hk.left_of_append h₁) hb
  | .number ht, _, hu => by
    obtain ⟨u, rfl, hut⟩ := hu.exists_singleton
    rw [hut.eq_of_kind ht (by decide), Expr.subst_mk]
    · exact .number ht
    · nofun
  | .text ht, _, hu => by
    obtain ⟨u, rfl, hut⟩ := hu.exists_singleton
    rw [hut.eq_of_kind ht (by decide), Expr.subst_mk]
    · exact .text ht
    · nofun
  | .name ht, _, hu => by
    obtain ⟨u, rfl, hut⟩ := hu.exists_singleton
    rw [Expr.subst_name]
    cases hut with
    | same h =>
      rw [h ht]
      exact .name ht
    | leaf _ h hleaf =>
      rw [h]
      exact hleaf _
  | .call ht ho hc, hk, hu => by
    obtain ⟨u, us₁, rfl, hut, h₁⟩ := hu.exists_cons
    obtain ⟨opening, us₂, rfl, ho', h₂⟩ := h₁.exists_cons
    obtain ⟨closing, rfl, hc'⟩ := h₂.exists_singleton
    rw [hut.eq_of_leaves (hk.rel ho), ho'.eq_of_kind ho (by decide),
      hc'.eq_of_kind hc (by decide), Expr.subst_mk]
    · exact .call ht ho hc
    · nofun
  | .callWith ht ho h hc, hk, hu => by
    obtain ⟨us₁, us₂, rfl, h₁, h₂⟩ := hu.exists_append
    obtain ⟨u, us₃, rfl, hut, h₃⟩ := h₁.exists_cons
    obtain ⟨opening, us₄, rfl, ho', h₄⟩ := h₃.exists_cons
    obtain ⟨closing, rfl, hc'⟩ := h₂.exists_singleton
    have hk := hk.left_of_append
    rw [hut.eq_of_leaves (hk.rel ho), ho'.eq_of_kind ho (by decide),
      hc'.eq_of_kind hc (by decide), Expr.subst_mk]
    · exact .callWith ht ho (h.filled hk.tail.tail h₄) hc
    · nofun
  | .group ho h hc, hk, hu => by
    obtain ⟨us₁, us₂, rfl, h₁, h₂⟩ := hu.exists_append
    obtain ⟨opening, us₃, rfl, ho', h₃⟩ := h₁.exists_cons
    obtain ⟨closing, rfl, hc'⟩ := h₂.exists_singleton
    rw [ho'.eq_of_kind ho (by decide), hc'.eq_of_kind hc (by decide)]
    exact .group ho (h.filled hk.left_of_append.tail h₃) hc

theorem More.filled {d : ℕ∞} {c : Chain} {ts us : List Token} {more : List (Token × Expr)} :
    More d c ts more → KeepsCalls leaves ts → Filled leaves us ts →
      More d c us (more.map fun r => (r.1, r.2.subst leaves))
  | .nil, _, hu => by
    cases hu
    exact .nil
  | .cons ht h hmore, hk, hu => by
    obtain ⟨us₁, us₂, rfl, h₁, h₂⟩ := hu.exists_append
    obtain ⟨u, us₃, rfl, hut, h₃⟩ := h₁.exists_cons
    rw [hut.eq_of_chain ht]
    exact .cons ht (h.filled hk.left_of_append.tail h₃) (hmore.filled hk.right_of_append h₂)

theorem Arguments.filled {d : ℕ∞} {ts us : List Token} {es : List Expr} :
    Arguments d ts es → KeepsCalls leaves ts → Filled leaves us ts →
      Arguments d us (es.map (Expr.subst leaves))
  | .one h, hk, hu => .one (h.filled hk hu)
  | .cons h ht hrest, hk, hu => by
    obtain ⟨us₁, us₂, rfl, h₁, h₂⟩ := hu.exists_append
    obtain ⟨comma, us₃, rfl, hcomma, h₃⟩ := h₂.exists_cons
    rw [hcomma.eq_of_kind ht (by decide)]
    exact .cons (h.filled hk.left_of_append h₁) ht (hrest.filled hk.right_of_append.tail h₃)

end

end Grammar

end BarScript
