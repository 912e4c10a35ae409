import BarScript.Proofs.Grammar.Basic

/-!
# Levels of nesting

What derives from a symbol is read at a level.  A group, an argument of a call and the operand of a
sign or of a negation are read one level deeper: a group and an argument open the level at their
first token, a sign and a negation at the operator itself.  `Opens n s ts e os` is a derivation read
at level `n`, with the levels it opens and the tokens at which it does, in the order of the tokens.

Every derivation can be read at every level, and opens levels as far as it is deep
(`Derives.opens`); what is read at a level derives from the symbol (`Opens.derives`).
-/

namespace BarScript

namespace Grammar

open Statement

/-- A token at which a level is opened, and the level. -/
abbrev Opening := Token × Nat

mutual

/-- The tokens derive from the symbol with the tree; read at level `n`, they open the levels. -/
inductive Opens : Nat → Symbol → List Token → Expr → List Opening → Prop
  | chain {n c ts us e more os os'} (hfirst : Opens n c.operand ts e os)
      (hmore : OpensMore n c us more os') :
      Opens n (.chain c) (ts ++ us) (c.tree e more) (os ++ os')
  | negation {n t ts e os} (ht : isNot t = true) (h : Opens (n + 1) .negated ts e os) :
      Opens n .negated (t :: ts) (.mk (.negation e)) ((t, n + 1) :: os)
  | positive {n ts e os} (h : Opens n .comparison ts e os) : Opens n .negated ts e os
  | comparison {n t ts us left right os os'} (hleft : Opens n (.chain .sum) ts left os)
      (ht : t.isOperator comparisons = true) (hright : Opens n (.chain .sum) us right os') :
      Opens n .comparison (ts ++ t :: us) (.mk (.comparison t.text left right)) (os ++ os')
  | uncompared {n ts e os} (h : Opens n (.chain .sum) ts e os) : Opens n .comparison ts e os
  | sign {n t ts e os} (ht : t.isOperator ["+", "-"] = true) (h : Opens (n + 1) .signed ts e os) :
      Opens n .signed (t :: ts) (.mk (.unary t.text e)) ((t, n + 1) :: os)
  | unsigned {n ts e os} (h : Opens n .indexed ts e os) : Opens n .signed ts e os
  | indexed {n ts us e offsets os} (h : Opens n .primary ts e os) (hb : Brackets us offsets) :
      Opens n .indexed (ts ++ us) (offsets.foldl (fun e bars => .mk (.history e bars)) e) os
  | number {n t} (ht : t.kind = .number) : Opens n .primary [t] (.mk (.number (literal t))) []
  | text {n t} (ht : t.kind = .text) : Opens n .primary [t] (.mk (.text t.unquoted)) []
  | name {n t} (ht : IsName t) : Opens n .primary [t] (.mk (.name t.lower)) []
  | call {n t opening closing} (ht : IsName t) (ho : opening.kind = .openParen)
      (hc : closing.kind = .closeParen) :
      Opens n .primary [t, opening, closing] (.mk (.call t.lower [])) []
  | callWith {n t opening closing ts es os} (ht : IsName t) (ho : opening.kind = .openParen)
      (h : OpensArguments n ts es os) (hc : closing.kind = .closeParen) :
      Opens n .primary (t :: opening :: ts ++ [closing]) (.mk (.call t.lower es)) os
  | group {n opening first closing ts e os} (ho : opening.kind = .openParen)
      (h : Opens (n + 1) (.chain .or) (first :: ts) e os) (hc : closing.kind = .closeParen) :
      Opens n .primary (opening :: first :: ts ++ [closing]) e ((first, n + 1) :: os)

/-- The operators and operands behind the first operand of a chain. -/
inductive OpensMore : Nat → Chain → List Token → List (Token × Expr) → List Opening → Prop
  | nil {n c} : OpensMore n c [] [] []
  | cons {n c t ts us e more os os'} (ht : c.isOperator t = true) (h : Opens n c.operand ts e os)
      (hmore : OpensMore n c us more os') :
      OpensMore n c (t :: ts ++ us) ((t, e) :: more) (os ++ os')

/-- Arguments with commas between them. -/
inductive OpensArguments : Nat → List Token → List Expr → List Opening → Prop
  | one {n first ts e os} (h : Opens (n + 1) (.chain .or) (first :: ts) e os) :
      OpensArguments n (first :: ts) [e] ((first, n + 1) :: os)
  | cons {n first comma ts us e es os os'} (h : Opens (n + 1) (.chain .or) (first :: ts) e os)
      (hcomma : comma.kind = .comma) (hrest : OpensArguments n us es os') :
      OpensArguments n (first :: ts ++ comma :: us) (e :: es) ((first, n + 1) :: (os ++ os'))

end

/-- An operand alone is a chain. -/
theorem Opens.of_operand {n : Nat} {c : Chain} {ts : List Token} {e : Expr} {os : List Opening}
    (h : Opens n c.operand ts e os) : Opens n (.chain c) ts e os := by
  have hc : Opens n (.chain c) (ts ++ []) (c.tree e []) (os ++ []) := .chain h .nil
  rw [List.append_nil, List.append_nil] at hc
  cases c <;> exact hc

/-! ### What is read at a level derives from the symbol -/

mutual

theorem Opens.derives {n : Nat} {s : Symbol} {ts : List Token} {e : Expr} {os : List Opening} :
    Opens n s ts e os → Derives ⊤ s ts e
  | .chain hfirst hmore => .chain hfirst.derives hmore.derives
  | .negation ht h => Derives.negation (d := ⊤) ht h.derives
  | .positive h => .positive h.derives
  | .comparison hleft ht hright => .comparison hleft.derives ht hright.derives
  | .uncompared h => .uncompared h.derives
  | .sign ht h => Derives.sign (d := ⊤) ht h.derives
  | .unsigned h => .unsigned h.derives
  | .indexed h hb => .indexed h.derives hb
  | .number ht => .number ht
  | .text ht => .text ht
  | .name ht => .name ht
  | .call ht ho hc => .call ht ho hc
  | .callWith ht ho h hc => Derives.callWith (d := ⊤) ht ho h.derives hc
  | .group ho h hc => Derives.group (d := ⊤) ho h.derives hc

theorem OpensMore.derives {n : Nat} {c : Chain} {ts : List Token} {more : List (Token × Expr)}
    {os : List Opening} : OpensMore n c ts more os → More ⊤ c ts more
  | .nil => .nil
  | .cons ht h hmore => .cons ht h.derives hmore.derives

theorem OpensArguments.derives {n : Nat} {ts : List Token} {es : List Expr} {os : List Opening} :
    OpensArguments n ts es os → Arguments ⊤ ts es
  | .one h => .one h.derives
  | .cons h hcomma hrest => .cons h.derives hcomma hrest.derives

end

/-! ### Every derivation can be read at every level -/

/-- No level beyond a bound is opened. -/
def Below (bound : ℕ∞) (os : List Opening) : Prop := ∀ o ∈ os, (o.2 : ℕ∞) ≤ bound

namespace Below

variable {bound : ℕ∞} {os os' : List Opening}

theorem nil : Below bound [] := by simp [Below]

theorem append (h : Below bound os) (h' : Below bound os') : Below bound (os ++ os') :=
  List.forall_mem_append.2 ⟨h, h'⟩

/-- A level deeper, and what is read there. -/
theorem cons {n : Nat} {d : ℕ∞} (t : Token) (h : Below ((n + 1 : Nat) + d) os) :
    Below (n + (d + 1)) ((t, n + 1) :: os) := by
  have heq : ((n + 1 : Nat) : ℕ∞) + d = n + (d + 1) := by
    rw [Nat.cast_add, Nat.cast_one, add_assoc, add_comm 1 d]
  rw [heq] at h
  refine List.forall_mem_cons.2 ⟨?_, h⟩
  rw [← heq]
  exact le_self_add

end Below

mutual

/-- **A derivation opens levels as far as it is deep.** -/
theorem Derives.opens {d : ℕ∞} {s : Symbol} {ts : List Token} {e : Expr} :
    Derives d s ts e → ∀ n : Nat, ∃ os, Opens n s ts e os ∧ Below (n + d) os
  | .chain hfirst hmore, n => by
    obtain ⟨os, h, hb⟩ := hfirst.opens n
    obtain ⟨os', h', hb'⟩ := hmore.opens n
    exact ⟨os ++ os', .chain h h', hb.append hb'⟩
  | .negation ht h, n => by
    obtain ⟨os, h, hb⟩ := h.opens (n + 1)
    exact ⟨_, .negation ht h, hb.cons _⟩
  | .positive h, n => by
    obtain ⟨os, h, hb⟩ := h.opens n
    exact ⟨os, .positive h, hb⟩
  | .comparison hleft ht hright, n => by
    obtain ⟨os, h, hb⟩ := hleft.opens n
    obtain ⟨os', h', hb'⟩ := hright.opens n
    exact ⟨os ++ os', .comparison h ht h', hb.append hb'⟩
  | .uncompared h, n => by
    obtain ⟨os, h, hb⟩ := h.opens n
    exact ⟨os, .uncompared h, hb⟩
  | .sign ht h, n => by
    obtain ⟨os, h, hb⟩ := h.opens (n + 1)
    exact ⟨_, .sign ht h, hb.cons _⟩
  | .unsigned h, n => by
    obtain ⟨os, h, hb⟩ := h.opens n
    exact ⟨os, .unsigned h, hb⟩
  | .indexed h hbrackets, n => by
    obtain ⟨os, h, hb⟩ := h.opens n
    exact ⟨os, .indexed h hbrackets, hb⟩
  | .number ht, _ => ⟨[], .number ht, .nil⟩
  | .text ht, _ => ⟨[], .text ht, .nil⟩
  | .name ht, _ => ⟨[], .name ht, .nil⟩
  | .call ht ho hc, _ => ⟨[], .call ht ho hc, .nil⟩
  | .callWith ht ho h hc, n => by
    obtain ⟨os, h, hb⟩ := h.opens n
    exact ⟨os, .callWith ht ho h hc, hb⟩
  | .group ho h hc, n => by
    obtain ⟨os, hopens, hb⟩ := h.opens (n + 1)
    obtain ⟨first, ts, rfl, -⟩ := h.starts
    exact ⟨_, .group ho hopens hc, hb.cons first⟩

theorem More.opens {d : ℕ∞} {c : Chain} {ts : List Token} {more : List (Token × Expr)} :
    More d c ts more → ∀ n : Nat, ∃ os, OpensMore n c ts more os ∧ Below (n + d) os
  | .nil, _ => ⟨[], .nil, .nil⟩
  | .cons ht h hmore, n => by
    obtain ⟨os, h, hb⟩ := h.opens n
    obtain ⟨os', h', hb'⟩ := hmore.opens n
    exact ⟨os ++ os', .cons ht h h', hb.append hb'⟩

/-- Arguments are read one level deeper than their call. -/
theorem Arguments.opens {d : ℕ∞} {ts : List Token} {es : List Expr} :
    Arguments d ts es → ∀ n : Nat, ∃ os, OpensArguments n ts es os ∧ Below (n + (d + 1)) os
  | .one h, n => by
    obtain ⟨os, hopens, hb⟩ := h.opens (n + 1)
    obtain ⟨first, ts, rfl, -⟩ := h.starts
    exact ⟨_, .one hopens, hb.cons first⟩
  | .cons h hcomma hrest, n => by
    obtain ⟨os, hopens, hb⟩ := h.opens (n + 1)
    obtain ⟨first, ts, rfl, -⟩ := h.starts
    obtain ⟨os', hopens', hb'⟩ := hrest.opens n
    exact ⟨_, .cons hopens hcomma hopens', (hb.cons first).append hb'⟩

end

end Grammar

end BarScript
