import BarScript.Proofs.Grammar.Lookahead
import BarScript.Proofs.Grammar.Offset

/-!
# The parsers decide on each token as it comes

The parsers of a level are prompt (`levels_prompt`): each of them accepts only what derives from its
symbol, and if it fails, but not for a limit, then at the first token with which the list is the
front of nothing that derives from the symbol.  The proof goes by the ways of building parsers from
others.  Each has two parts: what has been taken can be completed, with operands and brackets that
are still missing; and a token that is refused is refused whatever stands behind it.

The loops that read further operands, numbers of bars and arguments are given as much fuel as there
are tokens.  How much that is does not matter (`sumOf_fuel`, `operandsOf_fuel`, `histories_fuel`,
`arguments_fuel`), nor does what a loop has built so far matter to the tokens it takes
(`Loop.sameRest`, `histories_sameRest`).
-/

namespace BarScript

namespace Grammar

open Statement

/-! ### Chains -/

section

variable {c : Chain} {operators : List String} {operand : Parser}

theorem not_tooLong_of_kind {t : Token} (h : t.kind ≠ .number) : ¬ TooLong t := fun ht => h ht.1.1

theorem kind_of_isOperator {t : Token} (h : t.isOperator operators = true) :
    t.kind = .operator := by
  simp only [Token.isOperator, Bool.and_eq_true, decide_eq_true_eq] at h
  exact h.1

theorem Shortened.isOperator_eq {t u : Token} (h : Shortened u t) (operators : List String) :
    u.isOperator operators = t.isOperator operators :=
  Bool.eq_iff_iff.2 (h.iff_of_imp (P := fun t => t.isOperator operators = true)
    fun _ ht => by simp [kind_of_isOperator ht])

theorem kind_of_chain {t : Token} (h : c.isOperator t = true) : t.kind ≠ .number := by
  rw [Chain.isOperator_iff] at h
  intro hk
  cases c <;> simp [hk] at h

theorem Shortened.chain_eq {t u : Token} (h : Shortened u t) (c : Chain) :
    c.isOperator u = c.isOperator t :=
  Bool.eq_iff_iff.2 <| h.iff_of_imp (P := fun t => c.isOperator t = true) fun _ => kind_of_chain

theorem More.append {us vs : List Token} {more more' : List (Token × Expr)} {d : ℕ∞}
    (h : More d c us more) (h' : More d c vs more') : More d c (us ++ vs) (more ++ more') := by
  induction more generalizing us with
  | nil =>
    cases h
    exact h'
  | cons r more ih =>
    cases h with
    | cons ht hfirst hrest =>
      rw [List.append_assoc]
      exact .cons ht hfirst (ih hrest)

theorem Derives.snoc {d : ℕ∞} {vs us : List Token} {t : Token} {e e' : Expr}
    (hvs : Derives d (.chain c) vs e) (ht : c.isOperator t = true)
    (hus : Derives d c.operand us e') : ∃ e'', Derives d (.chain c) (vs ++ t :: us) e'' := by
  cases hvs with
  | chain hfirst hmore =>
    have hlast : More d c (t :: us ++ []) [(t, e')] := .cons ht hus .nil
    rw [List.append_nil] at hlast
    rw [List.append_assoc]
    exact ⟨_, .chain hfirst (hmore.append hlast)⟩

/-- A chain goes on with an operator and an operand. -/
theorem Derivable.snoc {vs us : List Token} {t : Token} (hvs : Derivable (.chain c) vs)
    (ht : c.isOperator t = true) (hus : Derivable c.operand us) :
    Derivable (.chain c) (vs ++ t :: us) := by
  obtain ⟨e, hvs⟩ := hvs
  obtain ⟨e', hus⟩ := hus
  exact hvs.snoc ht hus

theorem Derivable.of_operand {us : List Token} (h : Derivable c.operand us) :
    Derivable (.chain c) us := by
  obtain ⟨e, h⟩ := h
  exact ⟨e, .of_operand h⟩

/-- A parser of what follows an operand: it takes an operator and an operand and goes on, or it
stops in front of anything else.  It goes by what it has built so far. -/
structure Loop {σ α : Type} (c : Chain) (operand : Parser)
    (go : σ → List Token → Except Failure (Parsed α)) : Prop where
  stop : ∀ s us, (∀ t ∈ us.head?, c.isOperator t = false) → ∃ a, go s us = .ok (a, us)
  step : ∀ s t, c.isOperator t = true → ∃ (next : Expr → σ) (result : Expr → α → α), ∀ rest,
    go s (t :: rest) = operand rest >>= fun r => go (next r.1) r.2 >>= fun q =>
      .ok (result r.1 q.1, q.2)

section

variable {σ α : Type} {go : σ → List Token → Except Failure (Parsed α)}

theorem forall_or_exists_operator (c : Chain) (us : List Token) :
    (∀ t ∈ us.head?, c.isOperator t = false) ∨
      ∃ t rest, us = t :: rest ∧ c.isOperator t = true := by
  cases us with
  | nil => simp
  | cons t rest => cases h : c.isOperator t <;> simp [h]

/-- What has been built so far does not matter to what is taken. -/
theorem Loop.sameRest (hl : Loop c operand go) (hp : Prompt c.operand operand) (s s' : σ)
    (us : List Token) : SameRest (go s us) (go s' us) := by
  induction hn : us.length using Nat.strongRecOn generalizing s s' us with
  | ind n ih =>
    subst hn
    rcases forall_or_exists_operator c us with h | ⟨t, rest, rfl, ht⟩
    · obtain ⟨a, ha⟩ := hl.stop s us h
      obtain ⟨b, hb⟩ := hl.stop s' us h
      rw [ha, hb]
      exact .ok a b us
    · obtain ⟨next, result, hstep⟩ := hl.step s t ht
      obtain ⟨next', result', hstep'⟩ := hl.step s' t ht
      rw [hstep, hstep']
      cases hr : operand rest with
      | error e => exact .refl _
      | ok r =>
        have hlength := Nat.lt_succ_of_le (hp.length_le hr)
        have hgo := ih r.2.length hlength (next r.1) (next' r.1) r.2 rfl
        exact hgo.bind fun _ _ _ => .ok _ _ _

/-- **What stands behind operands** goes on with the chain at once, or not at all. -/
theorem Loop.prompt (hl : Loop c operand go) (hp : Prompt c.operand operand) (s : σ)
    {vs : List Token} (hvs : Derivable (.chain c) vs) (us : List Token) :
    PromptAt (fun ws => Viable (Derivable (.chain c)) (vs ++ ws)) (go s) us := by
  induction hn : us.length using Nat.strongRecOn generalizing s vs us with
  | ind n ih =>
    subst hn
    rcases forall_or_exists_operator c us with h | ⟨t, rest, rfl, ht⟩
    · exact .stay fun us' hus => hl.stop s us' (hus.forall_head? (fun hu h => hu.chain_eq c ▸ h) h)
    · obtain ⟨next, result, hstep⟩ := hl.step s t ht
      have hsnoc : ∀ us, Derivable c.operand us → Derivable (.chain c) (vs ++ t :: us) :=
        fun us hus => hvs.snoc ht hus
      refine .cons (not_tooLong_of_kind (kind_of_chain ht)) ?_
      simp only [hstep]
      refine .bind ((hp.prompt rest).mono fun us hus => hus.behind hsnoc)
        (fun a b us => .bind (hl.sameRest hp _ _ us) fun _ _ _ => .ok _ _ _) fun e n hn he => ?_
      have hlength : (rest.drop n).length < (t :: rest).length := by
        rw [List.length_drop, List.length_cons]
        omega
      have htail := ih _ hlength (next e) (hsnoc _ (hp.take hn he)) _ rfl
      dsimp only
      refine .map (htail.mono fun us hus => ?_) fun a us => ⟨_, rfl⟩
      simpa using hus

end

theorem sumOf_fuel (hp : Prompt c.operand operand) {fuel fuel' : Nat} (left : Expr)
    {us : List Token} (h : us.length ≤ fuel) (h' : us.length ≤ fuel') :
    sumOf operators operand fuel left us = sumOf operators operand fuel' left us := by
  induction fuel generalizing fuel' left us with
  | zero =>
    rw [List.eq_nil_of_length_eq_zero (Nat.le_zero.1 h)]
    cases fuel' <;> rfl
  | succ fuel ih =>
    cases us with
    | nil => cases fuel' <;> rfl
    | cons t rest =>
      cases fuel' with
      | zero => cases h'
      | succ fuel' =>
        rw [sumOf, sumOf]
        split
        · refine bind_congr_ok fun r hr => ?_
          have := hp.length_le hr
          rw [List.length_cons] at h h'
          exact ih _ (by omega) (by omega)
        · rfl

theorem sumOf_loop (hop : ∀ t, t.isOperator operators = c.isOperator t)
    (hp : Prompt c.operand operand) :
    Loop c operand fun left us => sumOf operators operand us.length left us where
  stop left us h := by
    cases us with
    | nil => exact ⟨left, rfl⟩
    | cons t rest =>
      have ht : c.isOperator t = false := h t rfl
      exact ⟨left, by simp [sumOf, hop, ht]⟩
  step left t ht := by
    refine ⟨fun e => .mk (.binary t.text left e), fun _ a => a, fun rest => ?_⟩
    rw [List.length_cons, sumOf, if_pos ((hop t).trans ht)]
    refine bind_congr_ok fun r hr => ?_
    obtain ⟨right, rest⟩ := r
    simp only [sumOf_fuel hp _ (hp.length_le hr) le_rfl]
    exact (bind_pure _).symm

theorem leftChain_prompt (hop : ∀ t, t.isOperator operators = c.isOperator t)
    (hc : c.tree = binaryTree) (hp : Prompt c.operand operand) :
    Prompt (.chain c) (leftChain operators operand) where
  sound := leftChain_sound hop hc hp.sound
  prompt ts := by
    have hloop := sumOf_loop hop hp
    show PromptAt _ (fun us => operand us >>= fun r =>
      sumOf operators operand r.2.length r.1 r.2) ts
    refine .bind ((hp.prompt ts).mono fun us hus => hus.mono fun us => .of_operand)
      (fun a b us => hloop.sameRest hp _ _ us) fun first n hn hfirst => ?_
    exact hloop.prompt hp first (.of_operand (hp.take hn hfirst)) _

theorem operandsOf_fuel (hp : Prompt c.operand operand) {fuel fuel' : Nat} {us : List Token}
    (h : us.length ≤ fuel) (h' : us.length ≤ fuel') :
    operandsOf c.isOperator operand fuel us = operandsOf c.isOperator operand fuel' us := by
  induction fuel generalizing fuel' us with
  | zero =>
    rw [List.eq_nil_of_length_eq_zero (Nat.le_zero.1 h)]
    cases fuel' <;> rfl
  | succ fuel ih =>
    cases us with
    | nil => cases fuel' <;> rfl
    | cons t rest =>
      cases fuel' with
      | zero => cases h'
      | succ fuel' =>
        rw [operandsOf, operandsOf]
        split
        · refine bind_congr_ok fun r hr => ?_
          obtain ⟨e, rest⟩ := r
          have := hp.length_le hr
          rw [List.length_cons] at h h'
          simp only [@ih fuel' rest (by omega) (by omega)]
        · rfl

theorem operandsOf_loop (hp : Prompt c.operand operand) :
    Loop c operand fun (_ : Unit) us => operandsOf c.isOperator operand us.length us where
  stop _ us h := by
    cases us with
    | nil => exact ⟨[], rfl⟩
    | cons t rest =>
      have ht : c.isOperator t = false := h t rfl
      exact ⟨[], by simp [operandsOf, ht]⟩
  step _ t ht := by
    refine ⟨fun _ => (), fun e more => e :: more, fun rest => ?_⟩
    rw [List.length_cons, operandsOf, if_pos ht]
    refine bind_congr_ok fun r hr => ?_
    obtain ⟨e, rest⟩ := r
    simp only [operandsOf_fuel hp (hp.length_le hr) le_rfl]
    rfl

theorem logicalChain_prompt {name : String} (hc : c.tree = logicalTree name)
    (hp : Prompt c.operand operand) :
    Prompt (.chain c) (logicalChain name c.isOperator operand) where
  sound := logicalChain_sound hc hp.sound
  prompt ts := by
    show PromptAt _ (fun us => operand us >>= fun r =>
      operandsOf c.isOperator operand r.2.length r.2 >>= fun s =>
        .ok (if s.1.isEmpty then r.1 else .mk (.logical name (r.1 :: s.1)), s.2)) ts
    refine .bind ((hp.prompt ts).mono fun us hus => hus.mono fun us => .of_operand)
      (fun a b us => .bind (.refl _) fun _ _ _ => .ok _ _ _) fun first n hn hfirst => ?_
    dsimp only
    refine .map ?_ fun more us => ⟨_, rfl⟩
    exact (operandsOf_loop hp).prompt hp () (.of_operand (hp.take hn hfirst)) _

/-! ### Comparisons, signs and negations -/

/-- What may follow the left side of a comparison: an operator and the right side. -/
def comparedWith (operand : Parser) (left : Expr) : Parser
  | [] => .ok (left, [])
  | t :: rest =>
    if t.isOperator comparisons then
      operand rest >>= fun r => .ok (.mk (.comparison t.text left r.1), r.2)
    else if t.isOperator ["="] then .error (.at .assignedExpression (some t))
    else .ok (left, t :: rest)

theorem comparison_eq (operand : Parser) (ts : List Token) :
    comparison operand ts = operand ts >>= fun r => comparedWith operand r.1 r.2 := by
  refine bind_congr_ok fun r _ => ?_
  obtain ⟨left, rest⟩ := r
  cases rest <;> rfl

theorem comparedWith_sameRest (left left' : Expr) (us : List Token) :
    SameRest (comparedWith operand left us) (comparedWith operand left' us) := by
  cases us with
  | nil => exact .ok _ _ _
  | cons t us =>
    simp only [comparedWith]
    split
    · exact .bind (.refl _) fun _ _ _ => .ok _ _ _
    · split
      · exact .refl _
      · exact .ok _ _ _

theorem Derivable.uncompared {us : List Token} (h : Derivable (.chain .sum) us) :
    Derivable .comparison us := by
  obtain ⟨e, h⟩ := h
  exact ⟨e, .uncompared h⟩

theorem comparedWith_prompt (hp : Prompt (.chain .sum) operand) (left : Expr) {vs : List Token}
    (hvs : Derivable (.chain .sum) vs) (us : List Token) :
    PromptAt (fun ws => Viable (Derivable .comparison) (vs ++ ws)) (comparedWith operand left)
      us := by
  cases us with
  | nil => exact .stay fun us hus => ⟨left, by rw [hus.eq_nil]; rfl⟩
  | cons t rest =>
    cases ht : t.isOperator comparisons with
    | true =>
      refine .cons (not_tooLong_of_kind (by simp [kind_of_isOperator ht])) ?_
      simp only [comparedWith, ht, if_true]
      refine .map ((hp.prompt rest).mono fun us hus => hus.behind ?_) fun right us => ⟨_, rfl⟩
      intro us hus
      obtain ⟨e, hus⟩ := hus
      exact hvs.imp' _ fun e' hvs => .comparison hvs ht hus
    | false =>
      cases heq : t.isOperator ["="] with
      | true =>
        have hviable : Viable (Derivable .comparison) (vs ++ []) :=
          .of_append [] (by simpa using hvs.uncompared)
        refine .refuse_head hviable fun us hus => ⟨.assignedExpression, ?_, id⟩
        obtain ⟨u, us, rfl, hu, -⟩ := hus.exists_cons
        simp [comparedWith, hu.isOperator_eq, ht, heq]
      | false =>
        refine .stay fun us hus => ⟨left, ?_⟩
        obtain ⟨u, us, rfl, hu, -⟩ := hus.exists_cons
        simp [comparedWith, hu.isOperator_eq, ht, heq]

theorem comparison_prompt (hp : Prompt (.chain .sum) operand) :
    Prompt .comparison (comparison operand) where
  sound := comparison_sound hp.sound
  prompt ts := by
    rw [show comparison operand = _ from funext (comparison_eq operand)]
    refine .bind ((hp.prompt ts).mono fun us hus => hus.mono fun us => .uncompared)
      (fun a b us => comparedWith_sameRest a b us) fun left n hn hleft => ?_
    exact comparedWith_prompt hp left (hp.take hn hleft) _

theorem Prompt.mono {s s' : Symbol} {p : Parser} (h : Prompt s p)
    (hs : ∀ us e, Derives ⊤ s us e → Derives ⊤ s' us e) : Prompt s' p where
  sound := h.sound.mono hs
  prompt ts := (h.prompt ts).mono fun _ hus => hus.mono fun us => Exists.imp (hs us)

theorem leading_prompt {isLeading : Token → Bool} {node : Token → Expr → Node Expr}
    {deeper : Option Parser} {tighter : Parser} {s : Symbol}
    (hl : ∀ t, isLeading t = true → t.kind ≠ .number)
    (hd : ∀ p ∈ deeper, Prompt s p) (ht : Prompt s tighter)
    (hs : ∀ t us e, isLeading t = true → Derives ⊤ s us e →
      Derives ⊤ s (t :: us) (.mk (node t e))) :
    Prompt s (leading isLeading node deeper tighter) where
  sound := leading_sound (fun p hp t hleading =>
    ⟨_, (hd p hp).sound, fun us e => hs t us e hleading⟩) ht.sound
  prompt ts := by
    cases ts with
    | nil => exact (ht.prompt []).congr fun us hus => by rw [hus.eq_nil]; rfl
    | cons t rest =>
      cases hleading : isLeading t with
      | false =>
        refine (ht.prompt (t :: rest)).congr fun us hus => ?_
        obtain ⟨u, us, rfl, hu, -⟩ := hus.exists_cons
        have hu : isLeading u = isLeading t :=
          Bool.eq_iff_iff.2 (hu.iff_of_imp (P := fun t => isLeading t = true) hl)
        simp [leading, hu, hleading]
      | true =>
        cases deeper with
        | none =>
          have hnone : leading isLeading node none tighter (t :: rest) =
              .error (tooNested (some t)) := by
            simp [leading, hleading]
          exact .limit hnone trivial
        | some p =>
          refine .cons (not_tooLong_of_kind (hl t hleading)) ?_
          simp only [leading, hleading, if_true]
          have hderivable : ∀ us, Derivable s us → Derivable s (t :: us) := by
            rintro us ⟨e, hus⟩
            exact ⟨_, hs t us e hleading hus⟩
          refine .map (((hd p rfl).prompt rest).mono fun us hus => ?_) fun e us => ⟨_, rfl⟩
          exact hus.append [t] fun us hus => ⟨[], by simpa using hderivable us hus⟩

/-! ### History -/

/-- A number that can stand anywhere. -/
def zero : Token := ⟨.number, "0", 0⟩

theorem isWhole_zero : IsWhole zero := ⟨rfl, by decide⟩

theorem Brackets.append {us vs : List Token} {offsets offsets' : List Int}
    (h : Brackets us offsets) (h' : Brackets vs offsets') :
    Brackets (us ++ vs) (offsets ++ offsets') := by
  induction h with
  | nil => exact h'
  | cons ho hn hwhole hshort hc _ ih => exact .cons ho hn hwhole hshort hc ih

theorem Derives.index {d : ℕ∞} {vs : List Token} {opening number closing : Token} {e : Expr}
    (hvs : Derives d .indexed vs e) (ho : opening.kind = .openBracket) (hn : IsWhole number)
    (hshort : number.text.toList.length ≤ Numeral.maxIntDigits)
    (hc : closing.kind = .closeBracket) :
    ∃ e', Derives d .indexed (vs ++ [opening, number, closing]) e' := by
  cases hvs with
  | indexed h hb =>
    rw [List.append_assoc]
    exact ⟨_, .indexed h (hb.append (.cons ho hn.1 hn.2 hshort hc .nil))⟩

theorem Derivable.unindexed {us : List Token} (h : Derivable .primary us) :
    Derivable .indexed us := by
  obtain ⟨e, h⟩ := h
  have hnone : Derives ⊤ .indexed (us ++ []) _ := .indexed h .nil
  rw [List.append_nil] at hnone
  exact ⟨_, hnone⟩

/-- A number of bars goes on with an expression. -/
theorem Derivable.index {vs : List Token} {opening number closing : Token}
    (hvs : Derivable .indexed vs) (ho : opening.kind = .openBracket) (hn : IsWhole number)
    (hshort : number.text.toList.length ≤ Numeral.maxIntDigits)
    (hc : closing.kind = .closeBracket) :
    Derivable .indexed (vs ++ [opening, number, closing]) := by
  obtain ⟨e, hvs⟩ := hvs
  exact hvs.index ho hn hshort hc

theorem histories_fuel {fuel fuel' : Nat} (e : Expr) {us : List Token} (h : us.length ≤ fuel)
    (h' : us.length ≤ fuel') : histories fuel e us = histories fuel' e us := by
  induction fuel generalizing fuel' e us with
  | zero =>
    rw [List.eq_nil_of_length_eq_zero (Nat.le_zero.1 h)]
    cases fuel' <;> rfl
  | succ fuel ih =>
    cases us with
    | nil => cases fuel' <;> rfl
    | cons t rest =>
      cases fuel' with
      | zero => cases h'
      | succ fuel' =>
        rw [List.length_cons] at h h'
        rw [histories, histories]
        split
        · refine bind_congr_ok fun r hnumber => ?_
          obtain ⟨number, rest₁⟩ := r
          obtain ⟨rfl, -⟩ := expect_eq_ok_iff.1 hnumber
          simp only
          split
          · rfl
          · refine bind_congr_ok fun r hclosing => ?_
            obtain ⟨closing, rest₂⟩ := r
            obtain ⟨rfl, -⟩ := expect_eq_ok_iff.1 hclosing
            simp only [List.length_cons] at h h'
            exact bind_congr_ok fun bars _ => @ih fuel' _ rest₂ (by omega) (by omega)
        · rfl

theorem histories_sameRest (fuel : Nat) (e e' : Expr) (us : List Token) :
    SameRest (histories fuel e us) (histories fuel e' us) := by
  induction fuel generalizing e e' us with
  | zero => exact .ok _ _ _
  | succ fuel ih =>
    cases us with
    | nil => exact .ok _ _ _
    | cons t rest =>
      rw [histories, histories]
      split
      · cases hnumber : expect .number rest with
        | error f => exact .refl _
        | ok r =>
          obtain ⟨number, rest₁⟩ := r
          simp only [bind, Except.bind]
          split
          · exact .refl _
          · cases hclosing : expect .closeBracket rest₁ with
            | error f => exact .refl _
            | ok r =>
              cases hoffset : offset number with
              | error f => exact .refl _
              | ok bars => exact ih _ _ _
      · exact .ok _ _ _

section

variable {opening number : Token}

theorem histories_of_isWhole (ho : opening.kind = .openBracket) (hn : IsWhole number) (fuel : Nat)
    (e : Expr) (rest : List Token) : histories (fuel + 1) e (opening :: number :: rest) =
      expect .closeBracket rest >>= fun r => offset number >>= fun bars =>
        histories fuel (.mk (.history e bars)) r.2 := by
  have hdot : number.text.toList.contains '.' = false := by simpa using hn.2
  simp only [histories, expect, ho, hn.1, if_true, hdot, bind, Except.bind, Bool.false_eq_true,
    if_false]

theorem histories_of_not_isWhole (ho : opening.kind = .openBracket) (hn : ¬ IsWhole number)
    (fuel : Nat) (e : Expr) (rest : List Token) : ∃ cause,
      histories (fuel + 1) e (opening :: number :: rest) = .error (.at cause (some number)) ∧
        ¬ cause.IsLimit := by
  by_cases hk : number.kind = .number
  · have hdot : number.text.toList.contains '.' = true := by
      by_contra hdot
      exact hn ⟨hk, by simpa using hdot⟩
    refine ⟨.fractionalOffset, ?_, id⟩
    simp only [histories, expect, ho, hk, if_true, hdot, bind, Except.bind]
    rfl
  · refine ⟨.expected .number number.text, ?_, id⟩
    simp only [histories, expect, ho, hk, if_true, if_false, bind, Except.bind]

theorem histories_of_openBracket (ho : opening.kind = .openBracket) (fuel : Nat) (e : Expr) :
    histories (fuel + 1) e [opening] = .error (.at .unexpectedEnd none) := by
  simp only [histories, expect, ho, if_true, bind, Except.bind]

/-- A number of bars that has been closed. -/
theorem histories_of_closed {closing : Token} (ho : opening.kind = .openBracket)
    (hn : IsWhole number) (hc : closing.kind = .closeBracket) (e : Expr) (us : List Token) :
    histories (opening :: number :: closing :: us).length e (opening :: number :: closing :: us) =
      offset number >>= fun bars => histories us.length (.mk (.history e bars)) us := by
  rw [List.length_cons, histories_of_isWhole ho hn, expect, if_pos hc]
  have hfuel : us.length ≤ (number :: closing :: us).length := by
    simp only [List.length_cons]
    omega
  exact bind_congr_ok fun bars _ => histories_fuel _ hfuel le_rfl

/-- A bracket that is opened can be closed again. -/
theorem viable_opening {vs : List Token} (hvs : Derivable .indexed vs)
    (ho : opening.kind = .openBracket) : Viable (Derivable .indexed) (vs ++ [opening]) := by
  refine .of_append [zero, ⟨.closeBracket, "]", 0⟩] ?_
  simpa using hvs.index ho isWhole_zero (by decide) rfl

/-- So it is behind a number of bars, unless that is too long: then behind a shorter one. -/
theorem viable_number {vs : List Token} (hvs : Derivable .indexed vs)
    (ho : opening.kind = .openBracket) (hn : IsWhole number) :
    Viable (Derivable .indexed) (vs ++ [opening, number]) := by
  let closing : Token := ⟨.closeBracket, "]", 0⟩
  by_cases hlong : TooLong number
  · refine .inr ⟨vs ++ [opening], number, zero, [closing], by simp,
      .inr ⟨hlong, isWhole_zero, by decide⟩, ?_⟩
    simpa using hvs.index ho isWhole_zero (by decide) rfl
  · refine .of_append [closing] ?_
    simpa using hvs.index ho hn (Nat.not_lt.1 fun h => hlong ⟨hn, h⟩) rfl

end

/-- Where a kind of token must come next, any other one is refused. -/
theorem expect_refuses {kind : TokenKind} {us : List Token} (h : ∀ t ∈ us.head?, t.kind ≠ kind) :
    ∃ cause, expect kind us = .error (.at cause us.head?) ∧ ¬ cause.IsLimit := by
  cases us with
  | nil => exact ⟨.unexpectedEnd, rfl, id⟩
  | cons t us =>
    refine ⟨.expected kind t.text, ?_, id⟩
    rw [expect, if_neg (h t rfl)]
    rfl

/-- A number of bars goes on with an expression at once, or not at all. -/
theorem histories_prompt (e : Expr) {vs : List Token} (hvs : Derivable .indexed vs)
    (us : List Token) : PromptAt (fun ws => Viable (Derivable .indexed) (vs ++ ws))
      (fun us => histories us.length e us) us := by
  induction hn : us.length using Nat.strongRecOn generalizing e vs us with
  | ind n ih =>
    subst hn
    cases us with
    | nil => exact .stay fun us hus => ⟨e, by rw [hus.eq_nil]; rfl⟩
    | cons opening rest =>
      by_cases ho : opening.kind = .openBracket
      case neg =>
        refine .stay fun us hus => ⟨e, ?_⟩
        obtain ⟨u, us, rfl, hu, -⟩ := hus.exists_cons
        simp [histories, hu.kind_eq, ho]
      refine .cons (not_tooLong_of_kind (by simp [ho])) ?_
      cases rest with
      | nil =>
        refine .refuse_head (viable_opening hvs ho) fun us hus => ?_
        rw [hus.eq_nil]
        exact ⟨_, histories_of_openBracket ho _ e, id⟩
      | cons number rest =>
        by_cases hwhole : IsWhole number
        case neg =>
          refine .refuse_head (viable_opening hvs ho) fun us hus => ?_
          obtain ⟨us, rfl, -⟩ := hus.exists_cons_of_not_tooLong fun h => hwhole h.1
          exact histories_of_not_isWhole ho hwhole _ e us
        by_cases hclose : ∀ t ∈ rest.head?, t.kind ≠ .closeBracket
        · -- the number may be another one, but what stands behind it is no closing bracket either
          refine .refuse (n := 1) (by simp) (viable_number hvs ho hwhole) fun us hus => ?_
          obtain ⟨u, us, rfl, hu, hus⟩ := hus.exists_cons
          obtain ⟨cause, hcause, hc⟩ := expect_refuses
            (SameFront.forall_head?_kind (n := 0) (P := (· ≠ .closeBracket)) hus hclose)
          refine ⟨cause, ?_, hc⟩
          rw [List.length_cons, histories_of_isWhole ho (hu.isWhole hwhole), hcause,
            List.head?_eq_getElem?]
          rfl
        · obtain ⟨closing, hhead, hc⟩ : ∃ t ∈ rest.head?, t.kind = .closeBracket := by
            simpa using hclose
          obtain ⟨after, rfl⟩ := List.head?_eq_some_iff.1 hhead
          by_cases hlong : TooLong number
          · have hoffset := (offset_eq_tooLong_iff (t := number)).2 ⟨rfl, hlong.2⟩
            exact .tooLong (by rw [histories_of_closed ho hwhole hc, hoffset]; rfl)
          · have hshort : number.text.toList.length ≤ Numeral.maxIntDigits :=
              Nat.not_lt.1 fun h => hlong ⟨hwhole, h⟩
            obtain ⟨bars, hoffset⟩ : ∃ bars, offset number = .ok bars :=
              ⟨_, offset_eq_ok_iff.2 ⟨hshort, rfl⟩⟩
            refine .cons hlong (.cons (not_tooLong_of_kind (by simp [hc])) ?_)
            simp only [histories_of_closed ho hwhole hc, hoffset]
            have hlength : after.length < (opening :: number :: closing :: after).length := by
              simp only [List.length_cons]
              omega
            have htail := ih _ hlength (.mk (.history e bars)) (hvs.index ho hwhole hshort hc) after
              rfl
            exact htail.mono fun us hus => by simpa using hus

theorem withHistory_prompt (hp : Prompt .primary operand) :
    Prompt .indexed (withHistory operand) where
  sound := withHistory_sound hp.sound
  prompt ts := by
    show PromptAt _ (fun us => operand us >>= fun r => histories r.2.length r.1 r.2) ts
    refine .bind ((hp.prompt ts).mono fun us hus => hus.mono fun us => .unindexed)
      (fun a b us => histories_sameRest _ _ _ _) fun e n hn he => ?_
    exact histories_prompt e (hp.take hn he).unindexed _

/-! ### Primaries -/

/-- Arguments with commas between them. -/
def AreArguments (us : List Token) : Prop := ∃ es, Arguments ⊤ us es

theorem AreArguments.one {us : List Token} (h : Derivable (.chain .or) us) : AreArguments us := by
  obtain ⟨e, h⟩ := h
  exact ⟨[e], .one h⟩

theorem AreArguments.cons {vs us : List Token} {t : Token} (h : AreArguments us)
    (hvs : Derivable (.chain .or) vs) (ht : t.kind = .comma) : AreArguments (vs ++ t :: us) := by
  obtain ⟨es, h⟩ := h
  obtain ⟨e, hvs⟩ := hvs
  exact ⟨e :: es, .cons hvs ht h⟩

theorem arguments_fuel (hp : Prompt (.chain .or) operand) {fuel fuel' : Nat} {us : List Token}
    (h : us.length ≤ fuel) (h' : us.length ≤ fuel') (hpos : 0 < fuel) (hpos' : 0 < fuel') :
    arguments operand fuel us = arguments operand fuel' us := by
  induction fuel generalizing fuel' us with
  | zero => exact absurd hpos (Nat.lt_irrefl 0)
  | succ fuel ih =>
    cases fuel' with
    | zero => exact absurd hpos' (Nat.lt_irrefl 0)
    | succ fuel' =>
      rw [arguments, arguments]
      refine bind_congr_ok fun r hr => ?_
      obtain ⟨e, rest⟩ := r
      obtain ⟨vs, rfl, hvs⟩ := hp.sound hr
      have := hvs.length_pos
      cases rest with
      | nil => rfl
      | cons t rest =>
        simp only [List.length_append, List.length_cons] at h h'
        simp only [@ih fuel' rest (by omega) (by omega) (by omega) (by omega)]

/-- What may follow an argument: a comma and more of them. -/
def furtherArguments (operand : Parser) (e : Expr) :
    List Token → Except Failure (Parsed (List Expr))
  | [] => .ok ([e], [])
  | t :: rest =>
    if t.kind = .comma then
      arguments operand (rest.length + 1) rest >>= fun r => .ok (e :: r.1, r.2)
    else .ok ([e], t :: rest)

theorem arguments_eq (hp : Prompt (.chain .or) operand) (us : List Token) :
    arguments operand (us.length + 1) us =
      operand us >>= fun r => furtherArguments operand r.1 r.2 := by
  rw [arguments]
  refine bind_congr_ok fun r hr => ?_
  obtain ⟨e, rest⟩ := r
  obtain ⟨vs, rfl, hvs⟩ := hp.sound hr
  have := hvs.length_pos
  cases rest with
  | nil => rfl
  | cons t rest =>
    have hfuel := @arguments_fuel operand hp (vs ++ t :: rest).length (rest.length + 1) rest
      (by simp; omega) (by omega) (by simp) (by omega)
    simp only [furtherArguments, hfuel]
    rfl

theorem furtherArguments_sameRest (e e' : Expr) (us : List Token) :
    SameRest (furtherArguments operand e us) (furtherArguments operand e' us) := by
  cases us with
  | nil => exact .ok _ _ _
  | cons t us =>
    simp only [furtherArguments]
    split
    · exact .bind (.refl _) fun _ _ _ => .ok _ _ _
    · exact .ok _ _ _

theorem arguments_prompt (hp : Prompt (.chain .or) operand) (us : List Token) :
    PromptAt (Viable AreArguments) (fun us => arguments operand (us.length + 1) us) us := by
  induction hn : us.length using Nat.strongRecOn generalizing us with
  | ind n ih =>
    subst hn
    simp only [arguments_eq hp]
    refine .bind ((hp.prompt us).mono fun us hus => hus.mono fun us => .one)
      (fun a b us => furtherArguments_sameRest a b us) fun e n hn he => ?_
    have hvs := hp.take hn he
    have hlength : (us.drop n).length ≤ us.length := by simp
    generalize us.take n = vs at hvs
    generalize us.drop n = rest at hlength
    cases rest with
    | nil => exact .stay fun us hus => ⟨[e], by rw [hus.eq_nil]; rfl⟩
    | cons t rest =>
      by_cases ht : t.kind = .comma
      · refine .cons (not_tooLong_of_kind (by simp [ht])) ?_
        simp only [furtherArguments, ht, if_true]
        have htail := (ih rest.length hlength rest rfl).mono fun us hus =>
          hus.behind fun us hus => hus.cons hvs ht
        exact htail.map fun more us => ⟨_, rfl⟩
      · refine .stay fun us hus => ⟨[e], ?_⟩
        obtain ⟨u, us, rfl, hu, -⟩ := hus.exists_cons
        simp [furtherArguments, hu.kind_eq, ht]

/-- What may stand behind the opening parenthesis of a call. -/
def ClosesCall (us : List Token) : Prop := ∃ vs closing, us = vs ++ [closing] ∧
  closing.kind = .closeParen ∧ (vs = [] ∨ AreArguments vs)

/-- A token of a kind that must come next. -/
theorem expect_prompt {α : Type} {V : List Token → Prop} {kind : TokenKind}
    (hkind : kind ≠ .number) (a : α) (hV : V []) (us : List Token) :
    PromptAt V (fun us => expect kind us >>= fun r => .ok (a, r.2)) us := by
  by_cases h : ∃ t ∈ us.head?, t.kind = kind
  · obtain ⟨t, hhead, ht⟩ := h
    obtain ⟨rest, rfl⟩ := List.head?_eq_some_iff.1 hhead
    refine .cons (not_tooLong_of_kind (ht ▸ hkind)) (.stay fun us _ => ⟨a, ?_⟩)
    rw [expect, if_pos ht]
    rfl
  · refine .refuse_head hV fun us hus => ?_
    obtain ⟨cause, hcause, hc⟩ := expect_refuses (hus.forall_head?_kind (P := (· ≠ kind))
      fun t ht hk => h ⟨t, ht, hk⟩)
    exact ⟨cause, by rw [hcause]; rfl, hc⟩

theorem callArguments_prompt {group : Parser} (hg : Prompt (.chain .or) group) (us : List Token) :
    PromptAt (Viable ClosesCall) (callArguments group) us := by
  have hempty : ClosesCall [⟨.closeParen, ")", 0⟩] := ⟨[], _, rfl, rfl, .inl rfl⟩
  have hclose : PromptAt (Viable ClosesCall)
      (fun us => expect .closeParen us >>= fun r => .ok (([] : List Expr), r.2)) us :=
    expect_prompt (by decide) [] (.of_append [_] hempty) us
  cases us with
  | nil => exact hclose.congr fun us hus => by rw [hus.eq_nil]; rfl
  | cons t rest =>
    by_cases ht : t.kind = .closeParen
    · refine hclose.congr fun us hus => ?_
      obtain ⟨u, us, rfl, hu, -⟩ := hus.exists_cons
      simp only [callArguments, hu.kind_eq, ht, if_true]
      rfl
    · have hargs : PromptAt (Viable ClosesCall) (fun us => arguments group (us.length + 1) us >>=
          fun r => expect .closeParen r.2 >>= fun s => .ok (r.1, s.2)) (t :: rest) := by
        refine .bind ((arguments_prompt hg (t :: rest)).mono fun us hus => ?_)
          (fun a b us => .bind (.refl _) fun _ _ _ => .ok _ _ _) fun es n hn hes => ?_
        · exact hus.append [] fun us hus =>
            ⟨[⟨.closeParen, ")", 0⟩], us, _, rfl, rfl, .inr hus⟩
        · obtain ⟨vs, heq, hvs⟩ := arguments_sound hg.sound _ (Nat.le_succ _) (Nat.succ_pos _) hes
          refine expect_prompt (by decide) es ?_ _
          rw [take_eq_of_append hn heq, List.append_nil]
          exact .of_append [⟨.closeParen, ")", 0⟩]
            ⟨vs, _, rfl, rfl, .inr ⟨es, hvs⟩⟩
      refine hargs.congr fun us hus => ?_
      obtain ⟨u, us, rfl, hu, -⟩ := hus.exists_cons
      have hfuel := @arguments_fuel group hg (u :: us).length ((u :: us).length + 1) (u :: us)
        le_rfl (Nat.le_succ _) (by simp) (by simp)
      simp only [callArguments, hu.kind_eq, ht, if_false, hfuel]
      rfl

theorem derivable_zero : Derivable .primary [zero] := ⟨_, .number rfl⟩

theorem Derivable.group {us : List Token} {opening closing : Token} (ho : opening.kind = .openParen)
    (h : Derivable (.chain .or) us) (hc : closing.kind = .closeParen) :
    Derivable .primary (opening :: us ++ [closing]) := by
  obtain ⟨e, h⟩ := h
  exact ⟨e, .group (d := ⊤) ho h hc⟩

theorem derivable_call {us : List Token} {t opening : Token} (ht : IsName t)
    (ho : opening.kind = .openParen) (h : ClosesCall us) :
    Derivable .primary (t :: opening :: us) := by
  obtain ⟨vs, closing, rfl, hc, rfl | ⟨es, hvs⟩⟩ := h
  · exact ⟨_, .call ht ho hc⟩
  · exact ⟨_, .callWith (d := ⊤) ht ho hvs hc⟩

theorem primary_prompt {group : Parser} (hg : Prompt (.chain .or) group) :
    Prompt .primary (primary group) where
  sound := primary_sound fun _ _ _ _ => ⟨⊤, rfl, hg.sound⟩
  prompt ts := by
    have hviable : Viable (Derivable .primary) [] := .of_append [zero] derivable_zero
    cases ts with
    | nil => exact .refuse_head hviable fun us hus => ⟨.unexpectedEnd, by rw [hus.eq_nil]; rfl, id⟩
    | cons t rest =>
      -- a token that no primary starts with
      have hrefuse : (∀ us, primary group (t :: us) =
          .error (.at (.unexpectedToken t.text) (some t))) → t.kind ≠ .number →
          PromptAt (Viable (Derivable .primary)) (primary group) (t :: rest) := by
        intro h ht
        refine .refuse_head hviable fun us hus => ⟨.unexpectedToken t.text, ?_, id⟩
        obtain ⟨us, rfl, -⟩ := hus.exists_cons_of_not_tooLong (not_tooLong_of_kind ht)
        exact h us
      cases hk : t.kind with
      | number =>
        refine .accept (n := 1) (by simp) fun us hus => ?_
        obtain ⟨u, us, rfl, hu, -⟩ := hus.exists_cons
        exact ⟨.mk (.number (literal u)), by simp [primary, hu.kind_eq, hk]⟩
      | text =>
        refine .accept (n := 1) (by simp) fun us hus => ?_
        obtain ⟨u, us, rfl, hu, -⟩ := hus.exists_cons
        exact ⟨.mk (.text u.unquoted), by simp [primary, hu.kind_eq, hk]⟩
      | openParen =>
        refine .cons (not_tooLong_of_kind (by simp [hk])) ?_
        simp only [primary, hk]
        refine .bind ((hg.prompt rest).mono fun us hus => ?_)
          (fun a b us => .bind (.refl _) fun _ _ _ => .ok _ _ _) fun e n hn he => ?_
        · exact hus.append [t] fun us hus => ⟨[⟨.closeParen, ")", 0⟩], .group hk hus rfl⟩
        · refine expect_prompt (by decide) e ?_ _
          rw [List.append_nil]
          exact .of_append [⟨.closeParen, ")", 0⟩] (.group hk (hg.take hn he) rfl)
      | word =>
        cases hkey : Token.keywords.contains t.lower with
        | true =>
          refine .refuse_head hviable fun us hus => ⟨.unexpectedKeyword t.text, ?_, id⟩
          obtain ⟨us, rfl, -⟩ :=
            hus.exists_cons_of_not_tooLong (not_tooLong_of_kind (by simp [hk]))
          simp only [primary, hk, hkey, if_true, List.head?_cons]
        | false =>
          have hname : IsName t := ⟨hk, by simpa using hkey⟩
          refine .cons (not_tooLong_of_kind (by simp [hk])) ?_
          simp only [primary, hk, hkey, Bool.false_eq_true, if_false]
          cases rest with
          | nil => exact .stay fun us hus => ⟨.mk (.name t.lower), by rw [hus.eq_nil]⟩
          | cons opening rest =>
            by_cases ho : opening.kind = .openParen
            · refine .cons (not_tooLong_of_kind (by simp [ho])) ?_
              simp only [ho, if_true]
              refine .map ((callArguments_prompt hg rest).mono fun us hus => ?_)
                fun es us => ⟨_, rfl⟩
              exact hus.append [t, opening] fun us hus =>
                ⟨[], by simpa using derivable_call hname ho hus⟩
            · refine .stay fun us hus => ⟨.mk (.name t.lower), ?_⟩
              obtain ⟨u, us, rfl, hu, -⟩ := hus.exists_cons
              simp [hu.kind_eq, ho]
      | _ => exact hrefuse (fun us => by simp [primary, hk]) (by simp [hk])

end

/-! ### Levels -/

/-- The parsers of a level are prompt. -/
structure PromptLevel (level : Level) : Prop where
  group : Prompt (.chain .or) level.group
  negated : Prompt .negated level.negated
  signed : Prompt .signed level.signed

theorem kind_of_isNot {t : Token} (h : isNot t = true) : t.kind ≠ .number := by
  intro hk
  simp [isNot, Token.isKeyword, Token.isOperator, hk] at h

theorem levelOver_prompt {deeper : Option Level} (hd : ∀ l ∈ deeper, PromptLevel l) :
    PromptLevel (levelOver deeper) := by
  have hgroup : Prompt (.chain .or) (levelOver deeper).group := by
    cases deeper with
    | none => exact ⟨nofun, fun ts => .limit rfl trivial⟩
    | some level =>
      exact logicalChain_prompt (c := .or) rfl
        (logicalChain_prompt (c := .and) rfl (hd level rfl).negated)
  have hsigned : Prompt .signed (levelOver deeper).signed := by
    refine leading_prompt (fun t ht => by simp [kind_of_isOperator ht]) (fun p hp => ?_)
      ((withHistory_prompt (primary_prompt hgroup)).mono fun us e => .unsigned)
      fun t us e ht h => .sign (d := ⊤) ht h
    obtain ⟨level, hlevel, rfl⟩ := Option.map_eq_some_iff.1 hp
    exact (hd level hlevel).signed
  have hsum : Prompt (.chain .sum)
      (leftChain ["+", "-"] (leftChain ["*", "/"] (levelOver deeper).signed)) :=
    leftChain_prompt (c := .sum) (fun _ => rfl) rfl
      (leftChain_prompt (c := .product) (fun _ => rfl) rfl hsigned)
  refine ⟨hgroup, leading_prompt (fun t ht => kind_of_isNot ht) (fun p hp => ?_)
    ((comparison_prompt hsum).mono fun us e => .positive)
    fun t us e ht h => .negation (d := ⊤) ht h, hsigned⟩
  obtain ⟨level, hlevel, rfl⟩ := Option.map_eq_some_iff.1 hp
  exact (hd level hlevel).negated

/-- **The parsers of a level are prompt.** -/
theorem levels_prompt (n : Nat) : PromptLevel (levels n) := by
  induction n with
  | zero => exact levelOver_prompt (by simp)
  | succ n ih => exact levelOver_prompt (by simpa using ih)

end Grammar

end BarScript
