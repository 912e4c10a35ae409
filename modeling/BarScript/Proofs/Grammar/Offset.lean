import BarScript.Proofs.Grammar.Reader
import BarScript.Proofs.Grammar.Sound

/-!
# Numbers of bars that are too long

A script that cannot be read gives an error at a place in it, with one exception: a number of bars
in brackets that has no point but more digits than a whole number may have (`LongOffset`).  The
parsers leave a suffix of their tokens, and fail for such a number only where there is one
(`Careful`); each way of building a parser from others keeps this (`levels_careful`).
`Program.parse_cases` is what follows for a whole script.
-/

namespace BarScript

namespace Grammar

open Statement

/-- A number of bars in brackets, of so many digits, which are too many. -/
def LongOffset (digits : Nat) (ts : List Token) : Prop :=
  ∃ before opening number closing after, ts = before ++ opening :: number :: closing :: after ∧
    opening.kind = .openBracket ∧ number.kind = .number ∧ closing.kind = .closeBracket ∧
    '.' ∉ number.text.toList ∧ number.text.toList.length = digits ∧ Numeral.maxIntDigits < digits

theorem LongOffset.mono {digits : Nat} {ts us : List Token} (hs : us <:+ ts)
    (h : LongOffset digits us) : LongOffset digits ts := by
  obtain ⟨front, rfl⟩ := hs
  obtain ⟨before, opening, number, closing, after, rfl, h⟩ := h
  exact ⟨front ++ before, opening, number, closing, after, by simp, h⟩

/-! ### Results of reading tokens -/

section

variable {α β : Type}

/-- A result of reading tokens leaves a suffix of them, and fails for a number of bars that is too
long only if there is one. -/
structure CarefulAt (ts : List Token) (r : Except Failure (Parsed α)) : Prop where
  suffix : ∀ {a rest}, r = .ok (a, rest) → rest <:+ ts
  long : ∀ {digits}, r = .error (.offsetTooLong digits) → LongOffset digits ts

theorem CarefulAt.ok {ts rest : List Token} (h : rest <:+ ts) (a : α) :
    CarefulAt ts (.ok (a, rest)) where
  suffix h' := by cases h'; exact h
  long h' := by cases h'

theorem CarefulAt.error (ts : List Token) (cause : ParseCause) (token : Option Token) :
    CarefulAt ts (.error (.at cause token) : Except Failure (Parsed α)) where
  suffix h := by cases h
  long h := by cases h

theorem CarefulAt.mono {ts us : List Token} {r : Except Failure (Parsed α)} (hs : us <:+ ts)
    (h : CarefulAt us r) : CarefulAt ts r where
  suffix hr := (h.suffix hr).trans hs
  long hr := (h.long hr).mono hs

theorem CarefulAt.cons {ts : List Token} {r : Except Failure (Parsed α)} (t : Token)
    (h : CarefulAt ts r) : CarefulAt (t :: ts) r :=
  h.mono (List.suffix_cons t ts)

theorem CarefulAt.bind_of_eq {ts : List Token} {r : Except Failure α}
    {f : α → Except Failure (Parsed β)} (h : ∀ {digits}, r = .error (.offsetTooLong digits) →
      LongOffset digits ts) (hf : ∀ a, r = .ok a → CarefulAt ts (f a)) :
    CarefulAt ts (r >>= f) := by
  cases r with
  | error e => exact ⟨nofun, fun h' => h (by cases h'; rfl)⟩
  | ok a => exact hf a rfl

theorem CarefulAt.bind {ts : List Token} {r : Except Failure (Parsed α)}
    {f : Parsed α → Except Failure (Parsed β)} (h : CarefulAt ts r)
    (hf : ∀ a rest, CarefulAt rest (f (a, rest))) : CarefulAt ts (r >>= f) :=
  .bind_of_eq h.long fun a hr => (hf a.1 a.2).mono (h.suffix hr)

end

/-- A parser whose results are careful. -/
def Careful (p : Parser) : Prop := ∀ ts, CarefulAt ts (p ts)

theorem expect_careful (kind : TokenKind) (ts : List Token) : CarefulAt ts (expect kind ts) := by
  cases ts with
  | nil => exact .error _ _ _
  | cons t rest =>
    simp only [expect]
    split
    · exact .ok (List.suffix_cons t rest) t
    · exact .error _ _ _

section

variable {operand : Parser}

/-! ### Chains -/

theorem sumOf_careful (operators : List String) (hp : Careful operand) (fuel : Nat) (left : Expr) :
    Careful (sumOf operators operand fuel left) := by
  induction fuel generalizing left with
  | zero => exact fun ts => .ok List.suffix_rfl left
  | succ fuel ih =>
    rintro (_ | ⟨t, rest⟩)
    · exact .ok List.suffix_rfl left
    · simp only [sumOf]
      split
      · exact .cons t (.bind (hp rest) fun right rest' => ih _ rest')
      · exact .ok List.suffix_rfl left

theorem leftChain_careful (operators : List String) (hp : Careful operand) :
    Careful (leftChain operators operand) := fun ts =>
  (hp ts).bind fun first rest => sumOf_careful operators hp rest.length first rest

theorem operandsOf_careful (isOperator : Token → Bool) (hp : Careful operand) (fuel : Nat)
    (ts : List Token) : CarefulAt ts (operandsOf isOperator operand fuel ts) := by
  induction fuel generalizing ts with
  | zero => exact .ok List.suffix_rfl []
  | succ fuel ih =>
    cases ts with
    | nil => exact .ok List.suffix_rfl []
    | cons t rest =>
      simp only [operandsOf]
      split
      · exact .cons t (.bind (hp rest) fun e rest' => .bind (ih rest') fun more rest =>
          .ok List.suffix_rfl (e :: more))
      · exact .ok List.suffix_rfl []

theorem logicalChain_careful (name : String) (isOperator : Token → Bool) (hp : Careful operand) :
    Careful (logicalChain name isOperator operand) := fun ts =>
  (hp ts).bind fun _ rest => (operandsOf_careful isOperator hp rest.length rest).bind
    fun _ _ => .ok List.suffix_rfl _

/-! ### Comparisons, signs and negations -/

theorem comparison_careful (hp : Careful operand) : Careful (comparison operand) := by
  refine fun ts => (hp ts).bind fun left rest => ?_
  cases rest with
  | nil => exact .ok List.suffix_rfl left
  | cons t rest =>
    simp only
    split
    · exact .cons t (.bind (hp rest) fun right rest => .ok List.suffix_rfl _)
    · split
      · exact .error _ _ _
      · exact .ok List.suffix_rfl left

theorem leading_careful (isLeading : Token → Bool) (node : Token → Expr → Node Expr)
    {deeper : Option Parser} {tighter : Parser} (hd : ∀ p ∈ deeper, Careful p)
    (ht : Careful tighter) : Careful (leading isLeading node deeper tighter) := by
  rintro (_ | ⟨t, rest⟩)
  · exact ht []
  · simp only [leading]
    split
    · cases deeper with
      | none => exact .error _ _ _
      | some p =>
        exact .cons t (.bind (hd p rfl rest) fun e rest => .ok List.suffix_rfl _)
    · exact ht (t :: rest)

/-! ### History -/

theorem offset_eq_tooLong_iff {t : Token} {digits : Nat} :
    offset t = .error (.offsetTooLong digits) ↔
      t.text.toList.length = digits ∧ Numeral.maxIntDigits < digits := by
  rw [offset, Numeral.ofDigits]
  by_cases h : Numeral.maxIntDigits < t.text.toList.length
  · simp only [h, if_true, Except.error.injEq, Failure.offsetTooLong.injEq]
    exact ⟨fun h' => ⟨h', h' ▸ h⟩, And.left⟩
  · simp only [h, if_false, reduceCtorEq, false_iff]
    rintro ⟨rfl, h'⟩
    exact h h'

/-- The brackets are the only place where a number of bars is read. -/
theorem histories_careful (fuel : Nat) (e : Expr) : Careful (histories fuel e) := by
  induction fuel generalizing e with
  | zero => exact fun ts => .ok List.suffix_rfl e
  | succ fuel ih =>
    rintro (_ | ⟨opening, rest⟩)
    · exact .ok List.suffix_rfl e
    simp only [histories]
    split
    case isFalse => exact .ok List.suffix_rfl e
    case isTrue hopening =>
      refine .bind_of_eq ((expect_careful _ _).cons opening).long fun r hnumber => ?_
      obtain ⟨number, rest⟩ := r
      obtain ⟨rfl, hn⟩ := expect_eq_ok_iff.1 hnumber
      split
      · exact .error _ _ _
      rename_i hdot
      refine .bind_of_eq (((expect_careful _ _).cons number).cons opening).long fun r hclosing => ?_
      obtain ⟨closing, rest⟩ := r
      obtain ⟨rfl, hc⟩ := expect_eq_ok_iff.1 hclosing
      refine .bind_of_eq (fun hoffset => ?_) fun bars _ =>
        .cons opening (.cons number (.cons closing (ih _ rest)))
      obtain ⟨rfl, hlong⟩ := offset_eq_tooLong_iff.1 hoffset
      exact ⟨[], opening, number, closing, rest, rfl, hopening, hn, hc, by simpa using hdot, rfl,
        hlong⟩

theorem withHistory_careful (hp : Careful operand) : Careful (withHistory operand) := fun ts =>
  (hp ts).bind fun e rest => histories_careful rest.length e rest

/-! ### Primaries -/

theorem arguments_careful (hp : Careful operand) (fuel : Nat) (ts : List Token) :
    CarefulAt ts (arguments operand fuel ts) := by
  induction fuel generalizing ts with
  | zero => exact .ok List.suffix_rfl []
  | succ fuel ih =>
    refine (hp ts).bind fun e rest => ?_
    cases rest with
    | nil => exact .ok List.suffix_rfl [e]
    | cons t rest =>
      simp only
      split
      · exact .cons t (.bind (ih rest) fun more rest => .ok List.suffix_rfl _)
      · exact .ok List.suffix_rfl [e]

theorem callArguments_careful (hp : Careful operand) (ts : List Token) :
    CarefulAt ts (callArguments operand ts) := by
  have hclose : ∀ (es : List Expr) rest, CarefulAt rest (expect .closeParen rest >>= fun r =>
      (.ok (es, r.2) : Except Failure (Parsed (List Expr)))) := fun es rest =>
    .bind (expect_careful .closeParen rest) fun _ rest => .ok List.suffix_rfl es
  cases ts with
  | nil => exact .bind (.ok List.suffix_rfl []) hclose
  | cons t rest =>
    simp only [callArguments]
    split
    · exact .bind (.ok List.suffix_rfl []) hclose
    · exact .bind (arguments_careful hp _ _) hclose

theorem primary_careful {group : Parser} (hg : Careful group) : Careful (primary group) := by
  rintro (_ | ⟨t, rest⟩)
  · exact .error _ _ _
  simp only [primary]
  split
  · exact .ok (List.suffix_cons t rest) _
  · exact .ok (List.suffix_cons t rest) _
  · exact .cons t (.bind (hg rest) fun e rest => .bind (expect_careful .closeParen rest)
      fun _ rest => .ok List.suffix_rfl e)
  · split
    · exact .error _ _ _
    cases rest with
    | nil => exact .ok (List.suffix_cons t []) _
    | cons p rest =>
      simp only
      split
      · exact .cons t (.cons p (.bind (callArguments_careful hg rest) fun es rest =>
          .ok List.suffix_rfl _))
      · exact .ok (List.suffix_cons t _) _
  · exact .error _ _ _

end

/-! ### Levels -/

/-- The parsers of a level are careful. -/
structure CarefulLevel (level : Level) : Prop where
  group : Careful level.group
  negated : Careful level.negated
  signed : Careful level.signed

theorem levelOver_careful {deeper : Option Level} (hd : ∀ l ∈ deeper, CarefulLevel l) :
    CarefulLevel (levelOver deeper) := by
  have hgroup : Careful (levelOver deeper).group := by
    cases deeper with
    | none => exact fun ts => .error _ _ _
    | some level =>
      exact logicalChain_careful "OR" isOr (logicalChain_careful "AND" isAnd (hd level rfl).negated)
  have hsigned : Careful (levelOver deeper).signed := by
    refine leading_careful _ _ (fun p hp => ?_) (withHistory_careful (primary_careful hgroup))
    obtain ⟨level, hlevel, rfl⟩ := Option.map_eq_some_iff.1 hp
    exact (hd level hlevel).signed
  refine ⟨hgroup, leading_careful _ _ (fun p hp => ?_) (comparison_careful
    (leftChain_careful _ (leftChain_careful _ hsigned))), hsigned⟩
  obtain ⟨level, hlevel, rfl⟩ := Option.map_eq_some_iff.1 hp
  exact (hd level hlevel).negated

theorem levels_careful (n : Nat) : CarefulLevel (levels n) := by
  induction n with
  | zero => exact levelOver_careful (by simp)
  | succ n ih => exact levelOver_careful (by simpa using ih)

/-! ### Scripts -/

theorem target_careful (ts : List Token) : CarefulAt ts (target ts) := by
  rcases ts with _ | ⟨t, _ | ⟨e, rest⟩⟩
  · exact .ok List.suffix_rfl none
  · exact .ok List.suffix_rfl none
  · simp only [target]
    split
    · split
      · exact .error _ _ _
      · exact .ok ((List.suffix_cons e rest).trans (List.suffix_cons t _)) _
    · exact .ok List.suffix_rfl none

/-- Adding a statement fails for its size only. -/
theorem add_eq_error {p : Program.Partial} {first : Token} {symbol : Option String} {e : Expr}
    {failure : Failure} (h : p.add first symbol e = .error failure) :
    ∃ x, failure = .at (.excess x) (some first) := by
  simp only [Program.Partial.add] at h
  split at h
  · cases h
    exact ⟨_, rfl⟩
  · cases h

/-- Reading statements fails for a number of bars that is too long only if there is one. -/
theorem statements_long {fuel digits : Nat} {p : Program.Partial} {ts : List Token}
    (h : Program.statements fuel p ts = .error (.offsetTooLong digits)) : LongOffset digits ts := by
  induction fuel generalizing p ts with
  | zero => cases h
  | succ fuel ih =>
    have hskip : Program.skipSeparators ts <:+ ts := List.dropWhile_suffix _
    refine LongOffset.mono hskip ?_
    rw [Program.statements_succ] at h
    cases hts : Program.skipSeparators ts with
    | nil => rw [hts] at h; cases h
    | cons first rest =>
      simp only [hts] at h
      rcases bind_eq_error_iff.1 h with h | ⟨⟨symbol, us⟩, htarget, h⟩
      · exact (target_careful _).long h
      refine LongOffset.mono ((target_careful _).suffix htarget) ?_
      rcases bind_eq_error_iff.1 h with h | ⟨⟨e, vs⟩, he, h⟩
      · exact ((levels_careful maxNesting).group us).long h
      refine LongOffset.mono (((levels_careful maxNesting).group us).suffix he) ?_
      rcases bind_eq_error_iff.1 h with h | ⟨q, -, h⟩
      · obtain ⟨x, hx⟩ := add_eq_error h
        cases hx
      · cases vs with
        | nil => cases h
        | cons t vs =>
          simp only at h
          split at h
          · exact ih h
          · cases h

end Grammar

/-- A script has a number of bars in brackets, of so many digits, which are too many. -/
def Program.HasLongOffset (source : String) (digits : Nat) : Prop :=
  ∃ ts, Token.scan source = .ok ts ∧ Grammar.LongOffset digits ts

/-- A script gives a program, or an error at a place in it, or has a number of bars that is too
long. -/
theorem Program.parse_cases (source : String) :
    (∃ p, parse source = .ok p) ∨ (∃ e, parse source = .error (.parse e)) ∨
      ∃ digits, parse source = .error (.offsetTooLong digits) ∧ HasLongOffset source digits := by
  cases h : parse source with
  | ok p => exact .inl ⟨p, rfl⟩
  | error e =>
    cases e with
    | parse e => exact .inr (.inl ⟨e, rfl⟩)
    | offsetTooLong digits =>
      refine .inr (.inr ⟨digits, rfl, ?_⟩)
      simp only [parse] at h
      rcases bind_eq_error_iff.1 h with h | ⟨ts, hts, h⟩
      · cases hscan : Token.scan source <;> rw [hscan] at h <;> cases h
      rw [mapError_eq_ok_iff] at hts
      refine ⟨ts, hts, ?_⟩
      rcases bind_eq_error_iff.1 h with h | ⟨q, -, h⟩
      · cases hstatements : statements (ts.length + 1) .empty ts with
        | ok q => rw [hstatements] at h; cases h
        | error e =>
          rw [hstatements] at h
          cases e with
          | «at» cause token => cases token <;> cases h
          | offsetTooLong n => cases h; exact Grammar.statements_long hstatements
      · split at h <;> cases h

end BarScript
