import BarScript.Proofs.Grammar.Nesting

/-!
# What derives from the grammar is accepted

A parser is `Exact` for a symbol at a level if it reads every list of tokens that derives from the
symbol to its tree and leaves what follows, as long as what follows does not go on with the
expression, except that it fails at the first token that opens the level behind a limit.  The
parsers with `k` levels left are exact at every level `n` for the limit `n + k` (`levels_exact`).

No parser backtracks.  What makes that right is that an operator never goes on with the operand in
front of it (`Chain.ends_operand`), and that the first token of an expression tells the alternatives
apart (`Derives.starts`).
-/

namespace BarScript

namespace Grammar

open Statement

/-! ### The level behind a limit -/

/-- The first opening of the level behind a limit. -/
def exceeding (limit : Nat) (os : List Opening) : Option Opening :=
  os.find? fun o => o.2 = limit + 1

/-- The result of reading what opens these levels, up to a limit. -/
def outcome {α : Type} (limit : Nat) (os : List Opening) (a : α) : Except Failure α :=
  match exceeding limit os with
  | some o => .error (tooNested (some o.1))
  | none => .ok a

section

variable {α β : Type} {limit : Nat} {os os' : List Opening} {a : α} {b : β}

theorem outcome_of_exceeding {o : Opening} (h : exceeding limit os = some o) :
    outcome limit os a = .error (tooNested (some o.1)) := by
  rw [outcome, h]

theorem outcome_of_not_exceeding (h : exceeding limit os = none) : outcome limit os a = .ok a := by
  rw [outcome, h]

/-- The level behind the limit fails at once. -/
theorem outcome_cons_limit (t : Token) :
    outcome limit ((t, limit + 1) :: os) a = .error (tooNested (some t)) :=
  outcome_of_exceeding (List.find?_cons_of_pos (by simp))

/-- A level before it does not matter. -/
theorem outcome_cons_lt {n : Nat} (h : n < limit) (t : Token) :
    outcome limit ((t, n + 1) :: os) a = outcome limit os a := by
  rw [outcome, outcome, exceeding, exceeding, List.find?_cons_of_neg (by simp; omega)]

/-- Reading goes on behind what has been read. -/
theorem outcome_bind {k : α → Except Failure β} (h : k a = outcome limit os' b) :
    (outcome limit os a >>= k) = outcome limit (os ++ os') b := by
  rw [outcome, outcome, exceeding, exceeding, List.find?_append]
  cases ho : os.find? fun o => o.2 = limit + 1 with
  | none => exact h
  | some o => rfl

/-- What comes behind the last opening. -/
theorem outcome_bind_ok {k : α → Except Failure β} (h : k a = .ok b) :
    (outcome limit os a >>= k) = outcome limit os b := by
  have hk : k a = outcome limit [] b := h
  rw [outcome_bind hk, List.append_nil]

end

/-- What derives from the symbol is read, up to what follows it and to the limit. -/
def Exact (limit n : Nat) (p : Parser) (s : Symbol) : Prop :=
  ∀ ⦃ts e os rest⦄, Opens n s ts e os → s.Ends rest →
    p (ts ++ rest) = outcome limit os (e, rest)

/-- What is read a level deeper opens the level at its first token. -/
def ExactInside (limit n : Nat) (p : Parser) : Prop :=
  ∀ ⦃first ts e os rest⦄, Opens (n + 1) (.chain .or) (first :: ts) e os →
    (Symbol.chain .or).Ends rest →
    p (first :: ts ++ rest) = outcome limit ((first, n + 1) :: os) (e, rest)

section

variable {limit n : Nat} {c : Chain} {operators : List String} {operand : Parser}

/-! ### Chains -/

theorem OpensMore.ends {us rest : List Token} {more : List (Token × Expr)} {os : List Opening}
    (h : OpensMore n c us more os) (hr : (Symbol.chain c).Ends rest) :
    c.operand.Ends (us ++ rest) := by
  cases h with
  | nil => exact hr.mono c.rank_operand_le
  | cons ht => exact Chain.ends_operand ht _

theorem Symbol.Ends.not_isOperator {t : Token} {rest : List Token}
    (h : (Symbol.chain c).Ends (t :: rest)) : c.isOperator t = false := by
  rw [← Bool.not_eq_true]
  exact fun ht => Symbol.ends_cons.1 h (Chain.continues_of_isOperator ht)

theorem sumOf_exact (hop : ∀ t, t.isOperator operators = c.isOperator t)
    (hp : Exact limit n operand c.operand) {us rest : List Token} {more : List (Token × Expr)}
    {os : List Opening} (h : OpensMore n c us more os) (hr : (Symbol.chain c).Ends rest)
    {fuel : Nat} (hfuel : us.length ≤ fuel) (left : Expr) :
    sumOf operators operand fuel left (us ++ rest) =
      outcome limit os (binaryTree left more, rest) := by
  induction more generalizing us os fuel left with
  | nil =>
    cases h
    cases fuel with
    | zero => rfl
    | succ fuel =>
      cases rest with
      | nil => rfl
      | cons t rest =>
        rw [List.nil_append, sumOf, hop, hr.not_isOperator]
        rfl
  | cons r more ih =>
    cases h with
    | @cons _ _ t ts us e _ os os' ht hts hmore =>
      cases fuel with
      | zero => simp at hfuel
      | succ fuel =>
        simp only [List.cons_append, List.length_cons, List.length_append] at hfuel ⊢
        rw [sumOf, hop, ht, if_pos rfl, List.append_assoc, hp hts (hmore.ends hr)]
        exact outcome_bind (ih hmore (by omega) _)

theorem leftChain_exact (hop : ∀ t, t.isOperator operators = c.isOperator t)
    (hc : c.tree = binaryTree) (hp : Exact limit n operand c.operand) :
    Exact limit n (leftChain operators operand) (.chain c) := by
  intro ts e os rest h hr
  cases h with
  | chain hfirst hmore =>
    rw [hc, List.append_assoc, leftChain, hp hfirst (hmore.ends hr)]
    exact outcome_bind (sumOf_exact hop hp hmore hr (by rw [List.length_append]; omega) _)

theorem operandsOf_exact (hp : Exact limit n operand c.operand) {us rest : List Token}
    {more : List (Token × Expr)} {os : List Opening} (h : OpensMore n c us more os)
    (hr : (Symbol.chain c).Ends rest) {fuel : Nat} (hfuel : us.length ≤ fuel) :
    operandsOf c.isOperator operand fuel (us ++ rest) =
      outcome limit os (more.map (·.2), rest) := by
  induction more generalizing us os fuel with
  | nil =>
    cases h
    cases fuel with
    | zero => rfl
    | succ fuel =>
      cases rest with
      | nil => rfl
      | cons t rest =>
        rw [List.nil_append, operandsOf, hr.not_isOperator]
        rfl
  | cons r more ih =>
    cases h with
    | @cons _ _ t ts us e _ os os' ht hts hmore =>
      cases fuel with
      | zero => simp at hfuel
      | succ fuel =>
        simp only [List.cons_append, List.length_cons, List.length_append] at hfuel ⊢
        rw [operandsOf, ht, if_pos rfl, List.append_assoc, hp hts (hmore.ends hr)]
        refine outcome_bind ?_
        simp only [ih hmore (by omega : us.length ≤ fuel)]
        exact outcome_bind_ok rfl

theorem logicalChain_exact {name : String} (hc : c.tree = logicalTree name)
    (hp : Exact limit n operand c.operand) :
    Exact limit n (logicalChain name c.isOperator operand) (.chain c) := by
  intro ts e os rest h hr
  cases h with
  | @chain _ _ ts us e more os os' hfirst hmore =>
    rw [hc, List.append_assoc, logicalChain, hp hfirst (hmore.ends hr)]
    have hlen : us.length ≤ (us ++ rest).length := by rw [List.length_append]; omega
    refine outcome_bind ?_
    simp only [operandsOf_exact hp hmore hr hlen]
    refine outcome_bind_ok ?_
    simp only [logicalTree, List.isEmpty_map]
    rfl

/-! ### Comparisons, signs and negations -/

theorem comparison_exact (hp : Exact limit n operand (.chain .sum)) :
    Exact limit n (comparison operand) .comparison := by
  intro ts e os rest h hr
  cases h with
  | @comparison _ t ts us left right os os' hleft ht hright =>
    rw [List.append_assoc, List.cons_append, comparison, hp hleft (ends_sum_of_isComparison ht _)]
    refine outcome_bind ?_
    simp only [ht, if_true, hp hright (hr.mono (by decide))]
    exact outcome_bind_ok rfl
  | uncompared h =>
    rw [comparison, hp h (hr.mono (by decide))]
    refine outcome_bind_ok ?_
    cases rest with
    | nil => rfl
    | cons t rest =>
      -- the next token is no operator of a comparison, and no equals sign either
      have hno : ¬ (t.isOperator comparisons = true ∨ isAssignment t = true) := fun h =>
        Symbol.ends_cons.1 hr (.inr (.inr (.inr (.inr (.inl ⟨by decide, h⟩)))))
      rw [not_or] at hno
      simp only [if_neg hno.1]
      rw [if_neg (show ¬ t.isOperator ["="] = true from hno.2)]
      rfl

theorem leading_of_not {isLeading : Token → Bool} {node : Token → Expr → Node Expr}
    {deeper : Option Parser} {tighter : Parser} {t : Token} (h : isLeading t = false)
    (ts : List Token) :
    leading isLeading node deeper tighter (t :: ts) = tighter (t :: ts) := by
  simp only [leading, h, Bool.false_eq_true, if_false]

/-- A leading token opens a level. -/
theorem leading_exact {isLeading : Token → Bool} {node : Token → Expr → Node Expr}
    {deeper : Option Parser} {tighter : Parser} {t : Token} (h : isLeading t = true)
    {ts rest : List Token} {e : Expr} {os : List Opening} (hnone : deeper = none → n = limit)
    (hd : ∀ p ∈ deeper, n < limit ∧ p ts = outcome limit os (e, rest)) :
    leading isLeading node deeper tighter (t :: ts) =
      outcome limit ((t, n + 1) :: os) (.mk (node t e), rest) := by
  simp only [leading, h, if_true]
  cases deeper with
  | none => rw [hnone rfl, outcome_cons_limit]
  | some p =>
    obtain ⟨hlt, hp⟩ := hd p rfl
    simp only [hp, outcome_cons_lt hlt]
    exact outcome_bind_ok rfl

theorem startsPrimary_not_operator {t : Token} (h : startsPrimary t) : t.kind ≠ .operator := by
  rcases h with h | h | h | h
  · simp [h]
  · simp [h]
  · simp [h]
  · simp [h.1]

theorem not_sign_of_startsPrimary {t : Token} (h : startsPrimary t) :
    t.isOperator ["+", "-"] = false := by
  simp [Token.isOperator, startsPrimary_not_operator h]

/-- What a comparison starts with is no negation. -/
theorem not_isNot_of_starts {t : Token} (h : Symbol.comparison.starts t) : isNot t = false := by
  rcases h with h | h
  · simp only [Token.isOperator, List.contains_eq_mem, Bool.and_eq_true, decide_eq_true_eq,
      List.mem_cons, List.not_mem_nil, or_false] at h
    obtain ⟨hk, ht | ht⟩ := h <;> simp [isNot, Token.isKeyword, Token.isOperator, hk, ht]
  · have hop := startsPrimary_not_operator h
    rcases h with h | h | h | h
    · simp [isNot, Token.isKeyword, Token.isOperator, h]
    · simp [isNot, Token.isKeyword, Token.isOperator, h]
    · simp [isNot, Token.isKeyword, Token.isOperator, h]
    · have hne : t.lower ≠ "not" := fun heq => h.2 (by simp [heq, Token.keywords])
      simp [isNot, Token.isKeyword, Token.isOperator, h.1, hne]

/-! ### History -/

theorem expect_of_kind {kind : TokenKind} {t : Token} (h : t.kind = kind) (rest : List Token) :
    expect kind (t :: rest) = .ok (t, rest) := by
  rw [expect, if_pos h]

theorem offset_of_short {t : Token} (h : t.text.toList.length ≤ Numeral.maxIntDigits) :
    offset t = .ok (Text.digitsValue t.text.toList : Int) := by
  rw [offset, Numeral.ofDigits, if_neg (Nat.not_lt.2 h)]
  rfl

theorem histories_of_brackets {us rest : List Token} {offsets : List Int} (h : Brackets us offsets)
    (hr : Symbol.indexed.Ends rest) {fuel : Nat} (hfuel : us.length ≤ fuel) (e : Expr) :
    histories fuel e (us ++ rest) =
      .ok (offsets.foldl (fun e bars => .mk (.history e bars)) e, rest) := by
  induction h generalizing fuel e with
  | nil =>
    cases fuel with
    | zero => rfl
    | succ fuel =>
      cases rest with
      | nil => rfl
      | cons t rest =>
        have hno : t.kind ≠ .openBracket := fun h =>
          Symbol.ends_cons.1 hr (.inr (.inl ⟨by decide, h⟩))
        rw [List.nil_append, histories, if_neg hno]
        rfl
  | @cons opening number closing ts offsets ho hn hdot hshort hc _ ih =>
    cases fuel with
    | zero => simp at hfuel
    | succ fuel =>
      simp only [List.length_cons] at hfuel
      have hcontains : number.text.toList.contains '.' = false := by simpa using hdot
      simp only [List.cons_append, histories, ho, if_true, expect_of_kind hn, expect_of_kind hc,
        offset_of_short hshort, hcontains, bind, Except.bind]
      exact ih (by omega) _

theorem withHistory_exact (hp : Exact limit n operand .primary) :
    Exact limit n (withHistory operand) .indexed := by
  intro ts e os rest h hr
  cases h with
  | @indexed _ ts us e offsets os h hb =>
    -- behind a primary there is an opening bracket, or what follows the whole expression
    have hends : Symbol.primary.Ends (us ++ rest) := by
      cases hb with
      | nil => exact hr.mono (by decide)
      | cons ho =>
        rw [List.cons_append, Symbol.ends_cons]
        simp [Symbol.continues, Symbol.rank, ho]
    rw [List.append_assoc, withHistory, hp h hends]
    exact outcome_bind_ok (histories_of_brackets hb hr (by rw [List.length_append]; omega) _)

/-! ### Primaries -/

/-- What stands behind an expression in parentheses. -/
theorem ends_of_closeParen {closing : Token} (hc : closing.kind = .closeParen)
    (rest : List Token) : (Symbol.chain .or).Ends (closing :: rest) :=
  Symbol.ends_cons.2 (Symbol.not_continues_of_kind hc (.inl rfl))

theorem arguments_exact (hp : ExactInside limit n operand) {us rest : List Token} {es : List Expr}
    {os : List Opening} (h : OpensArguments n us es os) {closing : Token}
    (hc : closing.kind = .closeParen) {fuel : Nat} (hfuel : us.length ≤ fuel) :
    arguments operand fuel (us ++ closing :: rest) = outcome limit os (es, closing :: rest) := by
  induction es generalizing us os fuel with
  | nil => cases h
  | cons e es ih =>
    cases fuel with
    | zero =>
      rw [List.eq_nil_of_length_eq_zero (Nat.le_zero.1 hfuel)] at h
      cases h
    | succ fuel =>
      cases h with
      | one h =>
        rw [arguments, hp h (ends_of_closeParen hc rest)]
        refine outcome_bind_ok ?_
        simp only [hc, reduceCtorEq, if_false]
        rfl
      | @cons _ first comma ts us _ _ os os' h hcomma hrest =>
        simp only [List.length_append, List.length_cons] at hfuel
        -- a comma ends the argument before it
        have hends : (Symbol.chain .or).Ends (comma :: us ++ closing :: rest) :=
          Symbol.ends_cons.2 (Symbol.not_continues_of_kind hcomma (.inr (.inl rfl)))
        rw [List.append_assoc, arguments, hp h hends, ← List.cons_append]
        refine outcome_bind ?_
        simp only [List.cons_append, hcomma, if_true, ih hrest (by omega : us.length ≤ fuel)]
        exact outcome_bind_ok rfl

/-- What an argument starts with is no closing parenthesis. -/
theorem not_closeParen_of_starts {t : Token} (h : (Symbol.chain .or).starts t) :
    t.kind ≠ .closeParen := by
  rcases h with h | h | h | h | h | h
  · rcases Bool.or_eq_true_iff.1 h with h | h
    · simp only [Token.isKeyword, Bool.and_eq_true, decide_eq_true_eq] at h
      simp [h.1]
    · simp only [Token.isOperator, Bool.and_eq_true, decide_eq_true_eq] at h
      simp [h.1]
  · simp only [Token.isOperator, Bool.and_eq_true, decide_eq_true_eq] at h
    simp [h.1]
  · simp [h]
  · simp [h]
  · simp [h]
  · simp [h.1]

theorem Arguments.starts {d : ℕ∞} {us : List Token} {es : List Expr} (h : Arguments d us es) :
    ∃ t us', us = t :: us' ∧ (Symbol.chain .or).starts t := by
  cases h with
  | one h => exact h.starts
  | cons h =>
    obtain ⟨t, us, rfl, ht⟩ := h.starts
    exact ⟨t, _, rfl, ht⟩

theorem callArguments_exact {group : Parser} (hg : ExactInside limit n group)
    {us rest : List Token} {es : List Expr} {os : List Opening} (h : OpensArguments n us es os)
    {closing : Token} (hc : closing.kind = .closeParen) :
    callArguments group (us ++ closing :: rest) = outcome limit os (es, rest) := by
  have hall : arguments group (us ++ closing :: rest).length (us ++ closing :: rest) =
      outcome limit os (es, closing :: rest) :=
    arguments_exact hg h hc (by rw [List.length_append]; omega)
  obtain ⟨t, us, rfl, ht⟩ := h.derives.starts
  simp only [List.cons_append] at hall ⊢
  simp only [callArguments, if_neg (not_closeParen_of_starts ht), hall]
  refine outcome_bind_ok ?_
  simp only [expect_of_kind hc]
  rfl

theorem callArguments_of_closeParen {group : Parser} {closing : Token}
    (hc : closing.kind = .closeParen) (rest : List Token) :
    callArguments group (closing :: rest) = .ok ([], rest) := by
  simp only [callArguments, hc, if_true, pure_bind, expect_of_kind hc]
  rfl

theorem IsName.contains {t : Token} (h : IsName t) : Token.keywords.contains t.lower = false := by
  simpa using h.2

/-- A name with a parenthesis behind it is a call. -/
theorem primary_of_call {group : Parser} {t opening : Token} (ht : IsName t)
    (ho : opening.kind = .openParen) (ts : List Token) :
    primary group (t :: opening :: ts) = do
      let (es, rest) ← callArguments group ts
      return (.mk (.call t.lower es), rest) := by
  simp only [primary, ht.1, ht.contains, ho, Bool.false_eq_true, if_false, if_true]

theorem primary_exact {group : Parser} (hg : ExactInside limit n group) :
    Exact limit n (primary group) .primary := by
  intro ts e os rest h hr
  cases h with
  | number ht => simp only [List.cons_append, primary, ht]; rfl
  | text ht => simp only [List.cons_append, primary, ht]; rfl
  | name ht =>
    simp only [List.cons_append, List.nil_append, primary, ht.1, ht.contains, Bool.false_eq_true,
      if_false]
    cases rest with
    | nil => rfl
    | cons p rest =>
      -- with a parenthesis behind it the name would be a call
      have hno : p.kind ≠ .openParen := fun h => Symbol.ends_cons.1 hr (.inl h)
      simp only [if_neg hno]
      rfl
  | call ht ho hc =>
    simp only [List.cons_append, List.nil_append, primary_of_call ht ho,
      callArguments_of_closeParen hc]
    rfl
  | @callWith _ t opening closing ts es os ht ho h hc =>
    simp only [List.cons_append, List.append_assoc, List.nil_append, primary_of_call ht ho,
      callArguments_exact hg h hc]
    exact outcome_bind_ok rfl
  | @group _ opening first closing ts _ os ho h hc =>
    have hgroup := hg h (ends_of_closeParen hc rest)
    simp only [List.cons_append, List.append_assoc, List.nil_append] at hgroup ⊢
    simp only [primary, ho, hgroup]
    refine outcome_bind_ok ?_
    simp only [expect_of_kind hc]
    rfl

end

/-! ### Levels -/

/-- The parsers of a level are exact. -/
structure ExactLevel (limit n : Nat) (level : Level) : Prop where
  group : ExactInside limit n level.group
  negated : Exact limit n level.negated .negated
  signed : Exact limit n level.signed .signed

theorem levelOver_signed (deeper : Option Level) : (levelOver deeper).signed =
    leading (Token.isOperator ["+", "-"]) (fun t e => .unary t.text e) (deeper.map (·.signed))
      (withHistory (primary (levelOver deeper).group)) := rfl

theorem levelOver_negated (deeper : Option Level) : (levelOver deeper).negated =
    leading isNot (fun _ e => .negation e) (deeper.map (·.negated))
      (comparison (leftChain ["+", "-"] (leftChain ["*", "/"] (levelOver deeper).signed))) := rfl

section

variable {limit n : Nat} {deeper : Option Level}

theorem levelOver_group_exact (hnone : deeper = none → n = limit)
    (hd : ∀ l ∈ deeper, n < limit ∧ ExactLevel limit (n + 1) l) :
    ExactInside limit n (levelOver deeper).group := by
  intro first ts e os rest h hr
  cases deeper with
  | none =>
    rw [hnone rfl, outcome_cons_limit]
    rfl
  | some level =>
    obtain ⟨hlt, hl⟩ := hd level rfl
    rw [outcome_cons_lt hlt]
    exact logicalChain_exact (c := .or) rfl (logicalChain_exact (c := .and) rfl hl.negated) h hr

theorem levelOver_exact (hnone : deeper = none → n = limit)
    (hd : ∀ l ∈ deeper, n < limit ∧ ExactLevel limit (n + 1) l) :
    ExactLevel limit n (levelOver deeper) := by
  have hprimary : Exact limit n (primary (levelOver deeper).group) .primary :=
    primary_exact (levelOver_group_exact hnone hd)
  have hsigned : Exact limit n (levelOver deeper).signed .signed := by
    intro ts e os rest h hr
    cases h with
    | @sign _ t ts e os ht h =>
      rw [levelOver_signed, List.cons_append]
      refine leading_exact ht (fun hnil => hnone (Option.map_eq_none_iff.1 hnil)) fun p hp => ?_
      obtain ⟨level, hlevel, rfl⟩ := Option.map_eq_some_iff.1 hp
      obtain ⟨hlt, hl⟩ := hd level hlevel
      exact ⟨hlt, hl.signed h hr⟩
    | unsigned h =>
      -- the first token of a primary is no sign
      obtain ⟨t, us, rfl, ht⟩ := h.derives.starts
      rw [levelOver_signed, List.cons_append, leading_of_not (not_sign_of_startsPrimary ht)]
      exact withHistory_exact hprimary h (hr.mono (by decide))
  refine ⟨levelOver_group_exact hnone hd, fun ts e os rest h hr => ?_, hsigned⟩
  have hsum : Exact limit n
      (leftChain ["+", "-"] (leftChain ["*", "/"] (levelOver deeper).signed)) (.chain .sum) :=
    leftChain_exact (c := .sum) (fun _ => rfl) rfl
      (leftChain_exact (c := .product) (fun _ => rfl) rfl hsigned)
  cases h with
  | @negation _ t ts e os ht h =>
    rw [levelOver_negated, List.cons_append]
    refine leading_exact ht (fun hnil => hnone (Option.map_eq_none_iff.1 hnil)) fun p hp => ?_
    obtain ⟨level, hlevel, rfl⟩ := Option.map_eq_some_iff.1 hp
    obtain ⟨hlt, hl⟩ := hd level hlevel
    exact ⟨hlt, hl.negated h hr⟩
  | positive h =>
    -- the first token of a comparison is no negation
    obtain ⟨t, us, rfl, ht⟩ := h.derives.starts
    rw [levelOver_negated, List.cons_append, leading_of_not (not_isNot_of_starts ht)]
    exact comparison_exact hsum h (hr.mono (by decide))

end

/-- **The parsers with so many levels left are exact**: they fail where the level behind the last
one is opened, and nowhere else. -/
theorem levels_exact (left n : Nat) : ExactLevel (n + left) n (levels left) := by
  induction left generalizing n with
  | zero => exact levelOver_exact (fun _ => rfl) (by simp)
  | succ left ih =>
    have hl := ih (n + 1)
    rw [Nat.add_assoc, Nat.add_comm 1 left] at hl
    exact levelOver_exact (by simp) (by simpa using hl)

/-! ### Derivations of so many levels -/

/-- The result is `a`, or `f` holds and there is a level too many. -/
def Gives {α : Type} (f : Prop) (r : Except Failure α) (a : α) : Prop :=
  r = .ok a ∨ f ∧ ∃ t, r = .error (tooNested t)

theorem outcome_gives {α : Type} {limit : Nat} {d : ℕ∞} {os : List Opening} (h : Below d os)
    (a : α) : Gives ((limit : ℕ∞) < d) (outcome limit os a) a := by
  cases ho : exceeding limit os with
  | none => exact .inl (outcome_of_not_exceeding ho)
  | some o =>
    have hlevel : o.2 = limit + 1 := by simpa using List.find?_some ho
    have hle := h o (List.mem_of_find?_eq_some ho)
    rw [hlevel] at hle
    exact .inr ⟨lt_of_lt_of_le (by exact_mod_cast Nat.lt_succ_self limit) hle, _,
      outcome_of_exceeding ho⟩

end Grammar

end BarScript
