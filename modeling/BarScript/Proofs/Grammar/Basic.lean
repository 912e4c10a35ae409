import BarScript.Proofs.Grammar.Alone
import Mathlib.Data.ENat.Basic

/-!
# The grammar of expressions

The grammar, with `*` for repetition and `?` for what may be missing:

```
or         := and (('or' | '||') and)*
and        := negated (('and' | '&&') negated)*
negated    := ('not' | '!') negated | comparison
comparison := sum (('>' | '<' | '>=' | '<=' | '==' | '!=') sum)?
sum        := product (('+' | '-') product)*
product    := signed (('*' | '/') signed)*
signed     := ('+' | '-') signed | indexed
indexed    := primary ('[' NUMBER ']')*
primary    := NUMBER | STRING | NAME | NAME '(' (or (',' or)*)? ')' | '(' or ')'
```

`Derives d s ts e` says that the tokens `ts` derive from the symbol `s` with the tree `e`, where at
most `d` groups, calls with arguments, signs and negations lie in one another.  Derivations without
such a limit are those with `d = ⊤`.

What the parsers need to know of the grammar is which tokens an expression starts with
(`Derives.starts`), which tokens go on with an expression (`Symbol.continues`), and that no
expression has a single equals sign or a separator in it (`Derives.isPart`).
-/

namespace BarScript

namespace Grammar

open Statement

/-! ### Symbols -/

/-- The operators that may be repeated. -/
inductive Chain where
  | or
  | and
  | sum
  | product
  deriving DecidableEq

/-- The symbols of the grammar. -/
inductive Symbol where
  | chain (c : Chain)
  | negated
  | comparison
  | signed
  | indexed
  | primary
  deriving DecidableEq

/-- What stands between the operators of a chain. -/
def Chain.operand : Chain → Symbol
  | or => .chain .and
  | and => .negated
  | sum => .chain .product
  | product => .signed

/-- Whether a token is an operator of a chain. -/
def Chain.isOperator : Chain → Token → Bool
  | or => isOr
  | and => isAnd
  | sum => Token.isOperator ["+", "-"]
  | product => Token.isOperator ["*", "/"]

/-- A logical node over at least two operands; one operand stays as it is. -/
def logicalTree (name : String) (first : Expr) (more : List (Token × Expr)) : Expr :=
  if more.isEmpty then first else .mk (.logical name (first :: more.map (·.2)))

/-- Binary nodes, grouped to the left. -/
def binaryTree (first : Expr) (more : List (Token × Expr)) : Expr :=
  more.foldl (fun left r => .mk (.binary r.1.text left r.2)) first

/-- The tree of a chain: its first operand, and each operator with the operand behind it. -/
def Chain.tree : Chain → Expr → List (Token × Expr) → Expr
  | or => logicalTree "OR"
  | and => logicalTree "AND"
  | sum => binaryTree
  | product => binaryTree

/-- A word that is no keyword. -/
def IsName (t : Token) : Prop := t.kind = .word ∧ t.lower ∉ Token.keywords

/-! ### Derivations -/

/-- `('[' NUMBER ']')*`, with whole numbers of not too many digits. -/
inductive Brackets : List Token → List Int → Prop
  | nil : Brackets [] []
  | cons {opening number closing : Token} {ts : List Token} {offsets : List Int}
      (hopening : opening.kind = .openBracket) (hnumber : number.kind = .number)
      (hwhole : '.' ∉ number.text.toList)
      (hshort : number.text.toList.length ≤ Numeral.maxIntDigits)
      (hclosing : closing.kind = .closeBracket) (hrest : Brackets ts offsets) :
      Brackets (opening :: number :: closing :: ts)
        ((Text.digitsValue number.text.toList : Int) :: offsets)

mutual

/-- The tokens derive from the symbol with the tree, at most `d` levels deep. -/
inductive Derives : ℕ∞ → Symbol → List Token → Expr → Prop
  | chain {d c ts us e more} (hfirst : Derives d c.operand ts e) (hmore : More d c us more) :
      Derives d (.chain c) (ts ++ us) (c.tree e more)
  | negation {d t ts e} (ht : isNot t = true) (h : Derives d .negated ts e) :
      Derives (d + 1) .negated (t :: ts) (.mk (.negation e))
  | positive {d ts e} (h : Derives d .comparison ts e) : Derives d .negated ts e
  | comparison {d t ts us left right} (hleft : Derives d (.chain .sum) ts left)
      (ht : t.isOperator comparisons = true) (hright : Derives d (.chain .sum) us right) :
      Derives d .comparison (ts ++ t :: us) (.mk (.comparison t.text left right))
  | uncompared {d ts e} (h : Derives d (.chain .sum) ts e) : Derives d .comparison ts e
  | sign {d t ts e} (ht : t.isOperator ["+", "-"] = true) (h : Derives d .signed ts e) :
      Derives (d + 1) .signed (t :: ts) (.mk (.unary t.text e))
  | unsigned {d ts e} (h : Derives d .indexed ts e) : Derives d .signed ts e
  | indexed {d ts us e offsets} (h : Derives d .primary ts e) (hb : Brackets us offsets) :
      Derives d .indexed (ts ++ us) (offsets.foldl (fun e bars => .mk (.history e bars)) e)
  | number {d t} (ht : t.kind = .number) : Derives d .primary [t] (.mk (.number (literal t)))
  | text {d t} (ht : t.kind = .text) : Derives d .primary [t] (.mk (.text t.unquoted))
  | name {d t} (ht : IsName t) : Derives d .primary [t] (.mk (.name t.lower))
  | call {d t opening closing} (ht : IsName t) (ho : opening.kind = .openParen)
      (hc : closing.kind = .closeParen) :
      Derives d .primary [t, opening, closing] (.mk (.call t.lower []))
  | callWith {d t opening closing ts es} (ht : IsName t) (ho : opening.kind = .openParen)
      (h : Arguments d ts es) (hc : closing.kind = .closeParen) :
      Derives (d + 1) .primary (t :: opening :: ts ++ [closing]) (.mk (.call t.lower es))
  | group {d opening closing ts e} (ho : opening.kind = .openParen)
      (h : Derives d (.chain .or) ts e) (hc : closing.kind = .closeParen) :
      Derives (d + 1) .primary (opening :: ts ++ [closing]) e

/-- The operators and operands behind the first operand of a chain. -/
inductive More : ℕ∞ → Chain → List Token → List (Token × Expr) → Prop
  | nil {d c} : More d c [] []
  | cons {d c t ts us e more} (ht : c.isOperator t = true) (h : Derives d c.operand ts e)
      (hmore : More d c us more) : More d c (t :: ts ++ us) ((t, e) :: more)

/-- Arguments with commas between them. -/
inductive Arguments : ℕ∞ → List Token → List Expr → Prop
  | one {d ts e} (h : Derives d (.chain .or) ts e) : Arguments d ts [e]
  | cons {d t ts us e es} (h : Derives d (.chain .or) ts e) (ht : t.kind = .comma)
      (hrest : Arguments d us es) : Arguments d (ts ++ t :: us) (e :: es)

end

/-- An operand alone is a chain. -/
theorem Derives.of_operand {d : ℕ∞} {c : Chain} {ts : List Token} {e : Expr}
    (h : Derives d c.operand ts e) : Derives d (.chain c) ts e := by
  have hc : Derives d (.chain c) (ts ++ []) (c.tree e []) := .chain h .nil
  rw [List.append_nil] at hc
  cases c <;> exact hc

/-- So is what has no looser operator in it. -/
theorem Derives.of_signed {d : ℕ∞} {ts : List Token} {e : Expr} (h : Derives d .signed ts e) :
    Derives d (.chain .or) ts e := by
  have hproduct : Derives d (.chain .product) ts e := of_operand h
  have hsum : Derives d (.chain .sum) ts e := of_operand hproduct
  have hand : Derives d (.chain .and) ts e := of_operand (c := .and) (.positive (.uncompared hsum))
  exact of_operand hand

/-! ### First tokens -/

/-- Whether a token can be the first one of a primary. -/
def startsPrimary (t : Token) : Prop :=
  t.kind = .number ∨ t.kind = .text ∨ t.kind = .openParen ∨ IsName t

/-- Whether a token can be the first one of what derives from a symbol. -/
def Symbol.starts : Symbol → Token → Prop
  | primary, t | indexed, t => startsPrimary t
  | signed, t | comparison, t | chain .sum, t | chain .product, t =>
    t.isOperator ["+", "-"] = true ∨ startsPrimary t
  | negated, t | chain .or, t | chain .and, t =>
    isNot t = true ∨ t.isOperator ["+", "-"] = true ∨ startsPrimary t

theorem Symbol.starts_chain {c : Chain} {t : Token} (h : c.operand.starts t) :
    (chain c).starts t := by
  cases c with
  | or => exact h
  | and => exact h
  | sum => exact h
  | product => exact h

/-- What derives from a symbol is not empty, and its first token can be one. -/
theorem Derives.starts {d : ℕ∞} {s : Symbol} {ts : List Token} {e : Expr} :
    Derives d s ts e → ∃ t us, ts = t :: us ∧ s.starts t
  | .chain hfirst _ => by
    obtain ⟨t, us, rfl, ht⟩ := hfirst.starts
    exact ⟨t, _, rfl, Symbol.starts_chain ht⟩
  | .negation ht _ => ⟨_, _, rfl, .inl ht⟩
  | .positive h => by
    obtain ⟨t, us, rfl, ht⟩ := h.starts
    exact ⟨t, us, rfl, .inr ht⟩
  | .comparison hleft _ _ => by
    obtain ⟨t, us, rfl, ht⟩ := hleft.starts
    exact ⟨t, _, rfl, ht⟩
  | .uncompared h => h.starts
  | .sign ht _ => ⟨_, _, rfl, .inl ht⟩
  | .unsigned h => by
    obtain ⟨t, us, rfl, ht⟩ := h.starts
    exact ⟨t, us, rfl, .inr ht⟩
  | .indexed h _ => by
    obtain ⟨t, us, rfl, ht⟩ := h.starts
    exact ⟨t, _, rfl, ht⟩
  | .number ht => ⟨_, _, rfl, .inl ht⟩
  | .text ht => ⟨_, _, rfl, .inr (.inl ht)⟩
  | .name ht => ⟨_, _, rfl, .inr (.inr (.inr ht))⟩
  | .call ht _ _ => ⟨_, _, rfl, .inr (.inr (.inr ht))⟩
  | .callWith ht _ _ _ => ⟨_, _, rfl, .inr (.inr (.inr ht))⟩
  | .group ho _ _ => ⟨_, _, rfl, .inr (.inr (.inl ho))⟩

theorem Derives.length_pos {d : ℕ∞} {s : Symbol} {ts : List Token} {e : Expr}
    (h : Derives d s ts e) : 0 < ts.length := by
  obtain ⟨t, us, rfl, -⟩ := h.starts
  exact Nat.succ_pos _

/-! ### What an expression has no tokens of -/

/-- Whether a token assigns. -/
def isAssignment (t : Token) : Bool := t.isOperator ["="]

/-- A token that an expression can have in it: no single equals sign and no separator. -/
structure IsPart (t : Token) : Prop where
  not_assignment : isAssignment t = false
  not_separator : t.kind ≠ .separator

theorem isPart_of_kind {t : Token} {k : TokenKind} (h : t.kind = k)
    (hk : k ≠ .operator ∧ k ≠ .separator) : IsPart t where
  not_assignment := by simp [isAssignment, Token.isOperator, h, hk.1]
  not_separator := h ▸ hk.2

theorem isPart_of_isOperator {t : Token} {operators : List String}
    (h : t.isOperator operators = true) (ho : "=" ∉ operators) : IsPart t := by
  simp only [Token.isOperator, Bool.and_eq_true, List.contains_eq_mem, decide_eq_true_eq] at h
  refine ⟨?_, by simp [h.1]⟩
  simp only [isAssignment, Token.isOperator, List.contains_eq_mem, Bool.and_eq_false_imp,
    decide_eq_true_eq, decide_eq_false_iff_not]
  intro _ heq
  rw [List.mem_singleton.1 heq] at h
  exact ho h.2

theorem isPart_of_isKeyword {t : Token} {word : String} (h : t.isKeyword word = true) :
    IsPart t := by
  simp only [Token.isKeyword, Bool.and_eq_true, decide_eq_true_eq] at h
  exact isPart_of_kind h.1 (by decide)

theorem isPart_of_isNot {t : Token} (h : isNot t = true) : IsPart t :=
  (Bool.or_eq_true_iff.1 h).elim isPart_of_isKeyword fun h => isPart_of_isOperator h (by decide)

theorem Chain.isPart {c : Chain} {t : Token} (h : c.isOperator t = true) : IsPart t := by
  cases c with
  | or | and =>
    rcases Bool.or_eq_true_iff.1 h with h | h
    · exact isPart_of_isKeyword h
    · exact isPart_of_isOperator h (by decide)
  | sum | product => exact isPart_of_isOperator h (by decide)

theorem IsName.isPart {t : Token} (h : IsName t) : IsPart t := isPart_of_kind h.1 (by decide)

theorem Brackets.isPart {ts : List Token} {offsets : List Int} (h : Brackets ts offsets) :
    ∀ t ∈ ts, IsPart t := by
  induction h with
  | nil => simp
  | cons ho hn _ _ hc _ ih =>
    simp only [List.forall_mem_cons]
    exact ⟨isPart_of_kind ho (by decide), isPart_of_kind hn (by decide),
      isPart_of_kind hc (by decide), ih⟩

mutual

/-- **No expression has a single equals sign or a separator in it.** -/
theorem Derives.isPart {d : ℕ∞} {s : Symbol} {ts : List Token} {e : Expr} :
    Derives d s ts e → ∀ t ∈ ts, IsPart t
  | .chain hfirst hmore => List.forall_mem_append.2 ⟨hfirst.isPart, hmore.isPart⟩
  | .negation ht h => List.forall_mem_cons.2 ⟨isPart_of_isNot ht, h.isPart⟩
  | .positive h => h.isPart
  | .comparison hleft ht hright =>
    List.forall_mem_append.2 ⟨hleft.isPart, List.forall_mem_cons.2
      ⟨isPart_of_isOperator ht (by decide), hright.isPart⟩⟩
  | .uncompared h => h.isPart
  | .sign ht h => List.forall_mem_cons.2 ⟨isPart_of_isOperator ht (by decide), h.isPart⟩
  | .unsigned h => h.isPart
  | .indexed h hb => List.forall_mem_append.2 ⟨h.isPart, hb.isPart⟩
  | .number ht => List.forall_mem_singleton.2 (isPart_of_kind ht (by decide))
  | .text ht => List.forall_mem_singleton.2 (isPart_of_kind ht (by decide))
  | .name ht => List.forall_mem_singleton.2 ht.isPart
  | .call ht ho hc => by
    simpa using ⟨ht.isPart, isPart_of_kind ho (by decide), isPart_of_kind hc (by decide)⟩
  | .callWith ht ho h hc => by
    simp only [List.cons_append, List.forall_mem_cons, List.forall_mem_append]
    exact ⟨ht.isPart, isPart_of_kind ho (by decide), h.isPart,
      by simpa using isPart_of_kind hc (by decide)⟩
  | .group ho h hc => by
    simp only [List.cons_append, List.forall_mem_cons, List.forall_mem_append]
    exact ⟨isPart_of_kind ho (by decide), h.isPart, by simpa using isPart_of_kind hc (by decide)⟩

theorem More.isPart {d : ℕ∞} {c : Chain} {ts : List Token} {more : List (Token × Expr)} :
    More d c ts more → ∀ t ∈ ts, IsPart t
  | .nil => by simp
  | .cons ht h hmore => by
    simp only [List.cons_append, List.forall_mem_cons, List.forall_mem_append]
    exact ⟨Chain.isPart ht, h.isPart, hmore.isPart⟩

theorem Arguments.isPart {d : ℕ∞} {ts : List Token} {es : List Expr} :
    Arguments d ts es → ∀ t ∈ ts, IsPart t
  | .one h => h.isPart
  | .cons h ht hrest =>
    List.forall_mem_append.2 ⟨h.isPart,
      List.forall_mem_cons.2 ⟨isPart_of_kind ht (by decide), hrest.isPart⟩⟩

end

/-! ### Tokens that go on with an expression -/

/-- The precedence of a symbol, the tightest one first. -/
def Symbol.rank : Symbol → Nat
  | primary => 0
  | indexed => 1
  | signed => 1
  | chain .product => 2
  | chain .sum => 3
  | comparison => 4
  | negated => 4
  | chain .and => 5
  | chain .or => 6

/-- Whether a token behind what derives from a symbol could be taken for a part of it. -/
def Symbol.continues (s : Symbol) (t : Token) : Prop :=
  t.kind = .openParen ∨ 1 ≤ s.rank ∧ t.kind = .openBracket ∨
    2 ≤ s.rank ∧ Chain.product.isOperator t = true ∨ 3 ≤ s.rank ∧ Chain.sum.isOperator t = true ∨
    4 ≤ s.rank ∧ (t.isOperator comparisons = true ∨ isAssignment t = true) ∨
    5 ≤ s.rank ∧ Chain.and.isOperator t = true ∨ 6 ≤ s.rank ∧ Chain.or.isOperator t = true

/-- What follows an expression does not go on with it. -/
def Symbol.Ends (s : Symbol) (rest : List Token) : Prop := ∀ t ∈ rest.head?, ¬ s.continues t

namespace Symbol

variable {s : Symbol} {t : Token} {rest : List Token}

theorem ends_cons : s.Ends (t :: rest) ↔ ¬ s.continues t := by simp [Ends]

/-- What goes on with something tight goes on with something looser. -/
theorem continues_mono {s' : Symbol} (h : s.rank ≤ s'.rank) (hc : s.continues t) :
    s'.continues t := by
  have hle : ∀ n, n ≤ s.rank → n ≤ s'.rank := fun n hn => Nat.le_trans hn h
  exact hc.imp_right <| Or.imp (.imp_left (hle 1)) <| Or.imp (.imp_left (hle 2)) <|
    Or.imp (.imp_left (hle 3)) <| Or.imp (.imp_left (hle 4)) <|
    Or.imp (.imp_left (hle 5)) (.imp_left (hle 6))

theorem Ends.mono {s' : Symbol} (h : s.rank ≤ s'.rank) (he : s'.Ends rest) : s.Ends rest :=
  fun t ht hc => he t ht (continues_mono h hc)

/-- A token of another kind than operators, words and opening brackets ends every expression. -/
theorem not_continues_of_kind {k : TokenKind} (h : t.kind = k)
    (hk : k = .closeParen ∨ k = .comma ∨ k = .separator) : ¬ s.continues t := by
  unfold continues
  rcases hk with rfl | rfl | rfl <;>
    simp [h, Chain.isOperator, isOr, isAnd, isAssignment, Token.isOperator, Token.isKeyword]

end Symbol

/-- The texts and words of an operator of a chain. -/
theorem Chain.isOperator_iff {c : Chain} {t : Token} : c.isOperator t = true ↔ match c with
    | or => t.kind = .word ∧ t.lower = "or" ∨ t.kind = .operator ∧ t.text = "||"
    | and => t.kind = .word ∧ t.lower = "and" ∨ t.kind = .operator ∧ t.text = "&&"
    | sum => t.kind = .operator ∧ (t.text = "+" ∨ t.text = "-")
    | product => t.kind = .operator ∧ (t.text = "*" ∨ t.text = "/") := by
  cases c <;> simp [Chain.isOperator, isOr, isAnd, Token.isKeyword, Token.isOperator]

theorem isComparison_iff {t : Token} : t.isOperator comparisons = true ↔ t.kind = .operator ∧
    (t.text = ">" ∨ t.text = ">=" ∨ t.text = "<" ∨ t.text = "<=" ∨ t.text = "==" ∨
      t.text = "!=") := by
  simp [Token.isOperator, comparisons]

theorem isAssignment_iff {t : Token} :
    isAssignment t = true ↔ t.kind = .operator ∧ t.text = "=" := by
  simp [isAssignment, Token.isOperator]

/-- **An operator of a chain ends the operand before it.** -/
theorem Chain.ends_operand {c : Chain} {t : Token} (h : c.isOperator t = true)
    (rest : List Token) : c.operand.Ends (t :: rest) := by
  rw [Symbol.ends_cons]
  simp only [Symbol.continues, isOperator_iff, isComparison_iff, isAssignment_iff] at h ⊢
  cases c <;> simp only [Chain.operand, Symbol.rank] at h ⊢
  · rcases h with ⟨hk, ht⟩ | ⟨hk, ht⟩ <;> simp [hk, ht]
  · rcases h with ⟨hk, ht⟩ | ⟨hk, ht⟩ <;> simp [hk, ht]
  · rcases h with ⟨hk, ht | ht⟩ <;> simp [hk, ht]
  · rcases h with ⟨hk, ht | ht⟩ <;> simp [hk]

/-- A comparison ends the sum before it. -/
theorem ends_sum_of_isComparison {t : Token} (h : t.isOperator comparisons = true)
    (rest : List Token) : (Symbol.chain .sum).Ends (t :: rest) := by
  rw [Symbol.ends_cons]
  simp only [Symbol.continues, Chain.isOperator_iff, isComparison_iff, Symbol.rank] at h ⊢
  obtain ⟨hk, ht | ht | ht | ht | ht | ht⟩ := h <;> simp [hk, ht]

theorem Chain.rank_operand_le (c : Chain) : c.operand.rank ≤ (Symbol.chain c).rank := by
  cases c <;> decide

/-- An operator of a chain goes on with the chain. -/
theorem Chain.continues_of_isOperator {c : Chain} {t : Token} (h : c.isOperator t = true) :
    (Symbol.chain c).continues t := by
  unfold Symbol.continues
  cases c <;> simp [Symbol.rank, h]

end Grammar

end BarScript
