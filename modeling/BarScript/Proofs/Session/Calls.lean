import BarScript.Proofs.Evaluation.Correspondence
import BarScript.Proofs.Number.Double
import Mathlib.Data.List.Forall2
import Mathlib.Tactic.ByContra

/-!
# The calls of an evaluation

A `Call` is a builtin function with its arguments, some bars ago.  Plain evaluation that notes each
call it makes (`Expr.noted`) has the result of plain evaluation (`Expr.noted_result`), and the calls
it notes are those that an evaluation with a memory looks up.

A memory tells a price list by its name and its length only.  That is enough for the price lists
that evaluations come across, as these are prefixes of the lists of the market
(`Value.Grounded`): arguments with the same keys are the same up to the signs of zeros
(`sameUpToSign_of_key`).  So a memory confuses two calls only if they differ in the sign of a zero
(`Call.eq_of_key`).
-/

namespace BarScript

/-! ### Calls -/

/-- A call of a builtin function some bars ago. -/
structure Call where
  function : Builtin
  arguments : List Value
  bars : Int

namespace Call

/-- What a memory tells the call by. -/
def key (c : Call) : CallKey := ⟨c.function, c.arguments.map Value.key, c.bars⟩

/-- What the call gives. -/
def result (market : Market) (c : Call) : Except EvalError (Option Float) :=
  c.function.apply c.arguments (market.series.shifted c.bars)

end Call

/-- The same value, or two numbers that are zero. -/
def Value.SameUpToSign (v w : Value) : Prop :=
  v = w ∨ ∃ x y, v = .number x ∧ w = .number y ∧ (x == 0) = true ∧ (y == 0) = true

/-- Two calls whose arguments differ, but only in the signs of zeros. -/
def Call.DiffersInSign (c d : Call) : Prop :=
  c.function = d.function ∧ c.bars = d.bars ∧ c.arguments ≠ d.arguments ∧
    List.Forall₂ Value.SameUpToSign c.arguments d.arguments

/-! ### Evaluation that notes its calls -/

/-- The result of an evaluation and the calls that were made on the way. -/
structure Noted (α : Type) where
  calls : List Call
  result : Except EvalError α

namespace Noted

instance : Monad Noted where
  pure a := ⟨[], .ok a⟩
  bind x f := match x.result with
    | .ok a => ⟨x.calls ++ (f a).calls, (f a).result⟩
    | .error e => ⟨x.calls, .error e⟩

instance : MonadExceptOf EvalError Noted where
  throw e := ⟨[], .error e⟩
  tryCatch x handle := match x.result with
    | .ok _ => x
    | .error e => ⟨x.calls ++ (handle e).calls, (handle e).result⟩

variable {α β : Type}

theorem result_bind (x : Noted α) (f : α → Noted β) :
    (x >>= f).result = x.result >>= fun a => (f a).result := by
  simp only [bind, Except.bind]
  cases x.result <;> rfl

theorem calls_bind_ok {x : Noted α} {f : α → Noted β} {a : α} (h : x.result = .ok a) :
    (x >>= f).calls = x.calls ++ (f a).calls := by
  simp only [bind, h]

theorem calls_bind_error {x : Noted α} {f : α → Noted β} {e : EvalError}
    (h : x.result = .error e) : (x >>= f).calls = x.calls := by
  simp only [bind, h]

end Noted

/-- Access without memory that notes the calls. -/
def Access.noted (market : Market) : Access Noted where
  seriesAt bars := pure (market.series.shifted bars)
  call f arguments bars :=
    ⟨[⟨f, arguments, bars⟩], (Call.result market ⟨f, arguments, bars⟩).map .ofOption⟩

/-- The value of an expression some bars ago, by plain recursion, and the calls made for it. -/
def Expr.noted (market : Market) (e : Expr) : Meaning Noted :=
  e.fold (Node.eval market (Access.noted market))

/-- The calls that plain evaluation of an expression makes. -/
def Expr.calls (market : Market) (e : Expr) (bars : Int) : List Call := (e.noted market bars).calls

/-- Noted and plain evaluation have the same result. -/
def SameResult {α : Type} (x : Noted α) (y : Except EvalError α) (P : α → Prop) : Prop :=
  x.result = y ∧ ∀ a, y = .ok a → P a

theorem sameResult_correspondence : Correspondence SameResult fun _ => True where
  pure a ha := ⟨rfl, fun b hb => by cases hb; exact ha⟩
  throw e _ := ⟨rfl, fun b hb => by cases hb⟩
  bind := by
    rintro α β x _ f g P Q ⟨rfl, hp⟩ hf
    rw [SameResult, Noted.result_bind]
    cases hx : x.result with
    | ok a => exact hf a (hp a hx)
    | error e => exact ⟨rfl, fun b hb => by cases hb⟩

theorem sameResult_alignment (market : Market) :
    Alignment SameResult (fun _ => True) (fun _ => True) (fun _ => True) (fun _ => True) 0 market
      market (Access.noted market) (Access.plain market) where
  toCorrespondence := sameResult_correspondence
  tolerance := rfl
  plain _ _ := trivial
  argument _ := trivial
  succ _ _ := trivial
  read v bars _ _ := by
    rw [Int.add_zero]
    exact sameResult_correspondence.read (fun _ _ => trivial) rfl
      (fun _ => ⟨rfl, fun _ _ => trivial⟩) (fun _ => ⟨rfl, fun _ _ => trivial⟩)
      fun _ _ => ⟨rfl, fun _ _ => trivial⟩
  call f arguments bars _ _ := by
    rw [Int.add_zero]
    exact ⟨rfl, fun _ _ => trivial⟩

/-- **Noting calls does not change the result.** -/
theorem Expr.noted_result (market : Market) (e : Expr) (bars : Int) :
    (e.noted market bars).result = e.eval market bars := by
  have := (sameResult_alignment market).eval_expr (fun n => n.admissible_true) e bars trivial
  rw [Int.add_zero] at this
  exact this.1

/-! ### Price lists -/

/-- The value is no price list, or it is a prefix of a price list of the market. -/
def Value.Grounded (market : Market) : Value → Prop
  | .series line points => points = (market.series.line line).take points.length
  | _ => True

theorem Value.grounded_of_kind {market : Market} {v : Value} (h : v.kind ≠ .series) :
    v.Grounded market := by
  cases v <;> trivial

theorem Series.line_take (s : Series) (n : Nat) (l : Line) :
    (s.take n).line l = (s.line l).take n := by
  have hopt : ∀ x : Option (List Float), (x.map (List.take n)).getD [] = (x.getD []).take n := by
    intro x
    cases x <;> simp
  cases l
  · rfl
  all_goals exact hopt _

/-- A price list some bars ago is a prefix of the price list. -/
theorem Value.grounded_shifted (market : Market) (l : Line) (bars : Int) :
    (Value.series l ((market.series.shifted bars).line l)).Grounded market := by
  simp only [Grounded, Series.shifted]
  split
  · rw [List.take_length]
  · rw [Series.line_take, List.length_take, List.take_eq_take_min]

/-- **Price lists with the same key are the same, and so are other values up to the signs of
zeros.** -/
theorem sameUpToSign_of_key {market : Market} {v w : Value} (hv : v.Grounded market)
    (hw : w.Grounded market) (h : v.key == w.key) : v.SameUpToSign w := by
  change ArgumentKey.same v.key w.key = true at h
  cases v <;> cases w <;> simp only [Value.key, ArgumentKey.same, reduceCtorEq] at h
  case undefined.undefined => exact .inl rfl
  case number.number x y =>
    rcases Number.eq_or_zeros_of_sameNumber h with rfl | ⟨hx, hy⟩
    · exact .inl rfl
    · exact .inr ⟨x, y, rfl, rfl, hx, hy⟩
  case boolean.boolean => exact .inl (by rw [beq_iff_eq.1 h])
  case text.text => exact .inl (by rw [beq_iff_eq.1 h])
  case series.series line points line' points' =>
    -- one line and one length: both are the same prefix
    rw [Bool.and_eq_true, beq_iff_eq, beq_iff_eq] at h
    obtain ⟨rfl, hlen⟩ := h
    rw [Value.Grounded] at hv hw
    exact .inl (by rw [hv, hw, hlen])

theorem forall₂_sameUpToSign_of_keys {market : Market} {vs ws : List Value}
    (hv : ∀ v ∈ vs, v.Grounded market) (hw : ∀ w ∈ ws, w.Grounded market)
    (h : vs.map Value.key == ws.map Value.key) : List.Forall₂ Value.SameUpToSign vs ws := by
  induction vs generalizing ws with
  | nil =>
    cases ws with
    | nil => exact .nil
    | cons w ws => cases h
  | cons v vs ih =>
    cases ws with
    | nil => cases h
    | cons w ws =>
      simp only [List.map_cons, List.cons_beq_cons, Bool.and_eq_true] at h
      rw [List.forall_mem_cons] at hv hw
      exact .cons (sameUpToSign_of_key hv.1 hw.1 h.1) (ih hv.2 hw.2 h.2)

/-- **Calls that a memory cannot tell apart are the same call, unless they differ in the sign of a
zero.** -/
theorem Call.eq_of_key {market : Market} {c d : Call} (hc : ∀ v ∈ c.arguments, v.Grounded market)
    (hd : ∀ v ∈ d.arguments, v.Grounded market) (h : c.key == d.key) (hs : ¬ c.DiffersInSign d) :
    c = d := by
  obtain ⟨f, as, i⟩ := c
  obtain ⟨g, bs, j⟩ := d
  have h : (f == g && (as.map Value.key == bs.map Value.key && i == j)) = true := h
  simp only [Bool.and_eq_true, beq_iff_eq] at h
  obtain ⟨rfl, hkeys, rfl⟩ := h
  by_contra hne
  exact hs ⟨rfl, rfl, fun heq => hne (by rw [show as = bs from heq]),
    forall₂_sameUpToSign_of_keys hc hd hkeys⟩

end BarScript
