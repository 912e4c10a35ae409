import BarScript.Proofs.Evaluation.Correspondence
import BarScript.Proofs.Evaluation.Steady
import BarScript.Proofs.Expr.Every
import BarScript.Proofs.Market.Past

/-!
# Crossings spelled out

A crossing of two operands is written as a call, or spelled out: one bar ago the first operand was
not above the second, and now it is (`Expr.crossing`, `Expr.spelledOut`).  Both say the same where
the operands have points now and one bar ago (`Expr.crossing_eq_spelledOut`).

They differ in how they come by their points.  A call takes the last two items of a price list,
while the spelled-out form takes the last item of the list as it is now and as it was one bar ago.
Up to the last bar these are the same two items (`Series.line_shifted_succ`).  Ahead of the last bar
a list stays what it is, so there the two forms can differ (`Expr.crossing_ne_spelledOut_ahead`).
-/

namespace BarScript

/-! ### Points -/

namespace Value

/-- A value that has at most one point: no boolean and no text. -/
def IsPoint (v : Value) : Prop := v.kind ≠ .boolean ∧ v.kind ≠ .text

/-- The point of a value: a number, or the last item of a price list. -/
def point : Value → Option Float
  | number x => some x
  | series _ points => points.getLast?
  | _ => none

theorem IsPoint.toNumber {v : Value} (h : v.IsPoint) (what : String) :
    v.toNumber what = .ok v.point := by
  cases v with
  | boolean b => exact absurd rfl h.1
  | text s => exact absurd rfl h.2
  | _ => rfl

end Value

/-- The points of a line at two bars, if both are known. -/
def between (before now : Option Float) : Option (Float × Float) :=
  before.bind fun a => now.map fun b => (a, b)

/-- The comparison of two points; nothing compares to an undefined one. -/
def comparePoints (tolerance : Float) (operator : String) :
    Option Float → Option Float → Except EvalError Bool
  | some x, some y => compareNumbers tolerance operator x y
  | _, _ => .ok false

/-- Values with points compare as their points do. -/
theorem compareValues_of_isPoint {v w : Value} (hv : v.IsPoint) (hw : w.IsPoint)
    (tolerance : Float) (operator : String) :
    compareValues tolerance operator v w =
      comparePoints tolerance operator v.point w.point := by
  have hnumbers : compareValues tolerance operator v w = (do
      let a ← v.toNumber s!"Operator '{operator}'"
      let b ← w.toNumber s!"Operator '{operator}'"
      match a, b with
      | some a, some b => compareNumbers tolerance operator a b
      | _, _ => return false) := by
    cases v <;> cases w <;>
      first
      | rfl
      | exact absurd rfl hv.1
      | exact absurd rfl hv.2
      | exact absurd rfl hw.1
      | exact absurd rfl hw.2
  rw [hnumbers, hv.toNumber, hw.toNumber]
  cases v.point with
  | none => rfl
  | some x =>
    cases w.point with
    | none => rfl
    | some y => rfl

/-! ### The last two items of a list -/

namespace Indicator

/-- The last two items are the last one and the last one without it. -/
theorem lastTwo_eq_between : ∀ xs : List Float,
    lastTwo xs = between xs.dropLast.getLast? xs.getLast?
  | [] => rfl
  | [_] => rfl
  | [_, _] => rfl
  | _ :: b :: c :: xs => by
    have ih := lastTwo_eq_between (b :: c :: xs)
    simp only [List.dropLast_cons_cons, List.getLast?_cons_cons] at ih ⊢
    exact ih

theorem lastTwo_lastN_two : ∀ xs : List Float, lastTwo (lastN 2 xs) = lastTwo xs
  | [] => rfl
  | [_] => rfl
  | [_, _] => rfl
  | _ :: b :: c :: xs => lastTwo_lastN_two (b :: c :: xs)

end Indicator

/-- **A price list one bar earlier is the list without its last item**, up to the last bar. -/
theorem Series.line_shifted_succ (s : Series) (l : Line) {bars : Int} (h : 0 ≤ bars) :
    (s.shifted (bars + 1)).line l = ((s.shifted bars).line l).dropLast := by
  -- each list that is known is as long as the closes
  have htake : ∀ {xs : List Float}, xs.length = s.closes.length →
      xs.take (s.length - (bars + 1).toNat) = (xs.take (s.length - bars.toNat)).dropLast := by
    intro xs hxs
    rw [List.dropLast_eq_take, List.length_take, List.take_take, hxs, length]
    congr 1
    omega
  have hcompanion : ∀ c, ((s.companion c).map
      (List.take (s.length - (bars + 1).toNat))).getD [] =
        (((s.companion c).map (List.take (s.length - bars.toNat))).getD []).dropLast := by
    intro c
    cases hc : s.companion c with
    | none => rfl
    | some xs => exact htake (s.aligned c xs hc)
  rw [shifted_of_nonneg s h, shifted_of_nonneg s (by omega)]
  cases l with
  | prices => exact htake rfl
  | highs => exact hcompanion .highs
  | lows => exact hcompanion .lows
  | volumes => exact hcompanion .volumes

/-! ### Price lists -/

/-- The price list that a node stands for and the bars in the brackets behind it, if it is one. -/
def Node.list? : Node (Option (Line × Int)) → Option (Line × Int)
  | .name symbol => match Variable.ofName? symbol with
    | some (.line l) => some (l, 0)
    | _ => none
  | .history operand n => operand.map fun r => (r.1, n + r.2)
  | _ => none

theorem Variable.exists_line_of_read {market : Market} {x : Variable} {bars : Int} {v : Value}
    (h : x.read market (Access.plain market) bars = .ok v) (hv : v.kind = .series) :
    ∃ l, x = .line l := by
  cases x with
  | line l => exact ⟨l, rfl⟩
  | symbol | truth => cases h; cases hv
  | close | change | changePercent =>
    obtain ⟨x, -, h⟩ := bind_eq_ok_iff.1 h
    cases h
    cases x <;> cases hv

theorem evalCrossing_eq_ok {function : String} {up : Bool}
    {arguments : List (Meaning (Except EvalError))} {bars : Int} {v : Value}
    (h : evalCrossing function up arguments bars = .ok v) : ∃ b, v = .boolean b := by
  unfold evalCrossing at h
  split at h
  · obtain ⟨a, -, h⟩ := bind_eq_ok_iff.1 h
    obtain ⟨b, -, h⟩ := bind_eq_ok_iff.1 h
    cases h
    exact ⟨_, rfl⟩
  · cases h

namespace Expr

variable {market : Market}

/-- The price list that an expression stands for and the bars in the brackets behind it, if it is
one. -/
def list? : Expr → Option (Line × Int) := fold Node.list?

theorem eval_of_list? (market : Market) {e : Expr} {l : Line} {n : Int}
    (h : e.list? = some (l, n)) (bars : Int) :
    e.eval market bars = .ok (.series l ((market.series.shifted (bars + n)).line l)) := by
  induction e using node_induction generalizing bars n with
  | h node ih =>
    rw [list?, fold_mk] at h
    rw [eval_mk]
    cases node with
    | name symbol =>
      simp only [Node.map, Node.list?] at h
      split at h
      · rename_i l' hname
        cases h
        simp only [Node.map, Node.eval, hname, Int.add_zero]
        rfl
      · cases h
    | history operand m =>
      obtain ⟨⟨l', k⟩, hlist, h⟩ := Option.map_eq_some_iff.1 h
      cases h
      rw [← Int.add_assoc]
      exact ih operand (by simp [Node.children]) hlist (bars + m)
    | _ => cases h

/-- **Only a price list has a price list for its value.** -/
theorem exists_list?_of_eval {e : Expr} {bars : Int} {v : Value} (h : e.eval market bars = .ok v)
    (hv : v.kind = .series) : ∃ l n, e.list? = some (l, n) := by
  induction e using node_induction generalizing bars with
  | h node ih =>
    rw [eval_mk] at h
    rw [list?, fold_mk]
    cases node with
    | number x | text s => cases h; cases hv
    | name symbol =>
      simp only [Node.map, Node.eval] at h
      cases hname : Variable.ofName? symbol with
      | none => simp only [hname] at h; cases h
      | some x =>
        simp only [hname] at h
        have hx : ∃ l, x = .line l := Variable.exists_line_of_read h hv
        obtain ⟨l, rfl⟩ := hx
        exact ⟨l, 0, by simp only [Node.map, Node.list?, hname]⟩
    | call function arguments =>
      simp only [Node.map, Node.eval, evalCall] at h
      split at h
      · cases h
      · rename_i up _
        obtain ⟨b, rfl⟩ := evalCrossing_eq_ok h
        cases hv
      · obtain ⟨vs, -, h⟩ := bind_eq_ok_iff.1 h
        obtain ⟨x, -, rfl⟩ := map_eq_ok_iff.1 h
        cases x <;> cases hv
    | history operand n =>
      obtain ⟨l, m, hlist⟩ := ih operand (by simp [Node.children]) h
      exact ⟨l, n + m, by rw [Node.map, Node.list?, ← list?, hlist, Option.map_some]⟩
    | unary operator c =>
      obtain ⟨x, -, h⟩ := bind_eq_ok_iff.1 h
      rw [liftError_eq] at h
      exact absurd hv (kind_ne_series_of_unaryValue h)
    | binary operator c d =>
      obtain ⟨x, -, h⟩ := bind_eq_ok_iff.1 h
      obtain ⟨y, -, h⟩ := bind_eq_ok_iff.1 h
      rw [liftError_eq] at h
      exact absurd hv (kind_ne_series_of_binaryValue h)
    | comparison operator c d =>
      obtain ⟨x, -, h⟩ := bind_eq_ok_iff.1 h
      obtain ⟨y, -, h⟩ := bind_eq_ok_iff.1 h
      obtain ⟨b, -, h⟩ := bind_eq_ok_iff.1 h
      cases h
      cases hv
    | logical operator operands =>
      simp only [Node.map, Node.eval] at h
      split at h
      · obtain ⟨b, -, h⟩ := bind_eq_ok_iff.1 h
        cases h
        cases hv
      · split at h
        · obtain ⟨b, -, h⟩ := bind_eq_ok_iff.1 h
          cases h
          cases hv
        · cases h
    | negation c =>
      obtain ⟨x, -, h⟩ := bind_eq_ok_iff.1 h
      split at h <;> cases h <;> cases hv

/-! ### Crossings -/

/-- The call of a crossing. -/
def crossing (up : Bool) (x y : Expr) : Expr :=
  .mk (.call (if up then "crossover" else "crossunder") [x, y])

/-- A crossing spelled out: `x[1] <= y[1] and x > y`, or `x[1] >= y[1] and x < y`. -/
def spelledOut (up : Bool) (x y : Expr) : Expr :=
  .mk (.logical "AND"
    [.mk (.comparison (if up then "<=" else ">=") (.mk (.history x 1)) (.mk (.history y 1))),
      .mk (.comparison (if up then ">" else "<") x y)])

/-- The expression has a value some bars ago that is no boolean and no text. -/
def HasPoint (market : Market) (e : Expr) (bars : Int) : Prop :=
  ∃ v, e.eval market bars = .ok v ∧ v.IsPoint

/-- The expression is a price list, and some bars ago with the brackets behind it is ahead of the
last bar. -/
def ReadsAhead (e : Expr) (bars : Int) : Prop := ∃ l n, e.list? = some (l, n) ∧ bars + n < 0

/-- **The points that a call takes are those of the operand one bar ago and now.** -/
theorem lastTwo_crossingPoints {e : Expr} {bars : Int} {now before : Value}
    (hnow : e.eval market bars = .ok now) (hpoint : now.IsPoint)
    (hbefore : e.eval market (bars + 1) = .ok before) (hpoint' : before.IsPoint)
    (hahead : ¬ e.ReadsAhead bars) :
    ∃ points, (∀ function, crossingPoints function (e.eval market) bars = .ok points) ∧
      Indicator.lastTwo points = between before.point now.point := by
  by_cases hkind : now.kind = .series
  · obtain ⟨l, n, hlist⟩ := exists_list?_of_eval hnow hkind
    have hbars : 0 ≤ bars + n := by
      by_contra hneg
      exact hahead ⟨l, n, hlist, by omega⟩
    have hnow' := (eval_of_list? market hlist bars).symm.trans hnow
    have hbefore' := (eval_of_list? market hlist (bars + 1)).symm.trans hbefore
    rw [show bars + 1 + n = bars + n + 1 by omega, Series.line_shifted_succ _ l hbars] at hbefore'
    cases hnow'
    cases hbefore'
    refine ⟨_, fun function => by simp only [crossingPoints, hnow, bind, Except.bind]; rfl, ?_⟩
    rw [Indicator.lastTwo_lastN_two, Indicator.lastTwo_eq_between]
    rfl
  · refine ⟨now.point.elim [] fun x => before.point.toList ++ [x], fun function => ?_, ?_⟩
    · simp only [crossingPoints, hnow, hbefore, bind, Except.bind, liftError_eq,
        hpoint'.toNumber]
      cases now with
      | series l points => exact absurd rfl hkind
      | boolean b => exact absurd rfl hpoint.1
      | text s => exact absurd rfl hpoint.2
      | undefined => rfl
      | number x => rfl
    · cases now.point with
      | none => cases before.point <;> rfl
      | some x => cases before.point <;> rfl

/-- A comparison of two expressions with points compares the points. -/
theorem comparison_eval (operator : String) {x y : Expr} {bars : Int} {v w : Value}
    (hv : x.eval market bars = .ok v) (hvp : v.IsPoint)
    (hw : y.eval market bars = .ok w) (hwp : w.IsPoint) :
    (mk (.comparison operator x y)).eval market bars =
      (comparePoints market.tolerance operator v.point w.point).map .boolean := by
  rw [eval_mk]
  simp only [Node.map, Node.eval, hv, hw, bind, Except.bind, liftError_eq,
    compareValues_of_isPoint hvp hwp]
  cases comparePoints market.tolerance operator v.point w.point <;> rfl

/-- A conjunction of two expressions with boolean values. -/
theorem and_eval {x y : Expr} {bars : Int} {b c : Bool}
    (hx : x.eval market bars = .ok (.boolean b)) (hy : y.eval market bars = .ok (.boolean c)) :
    (mk (.logical "AND" [x, y])).eval market bars = .ok (.boolean (b && c)) := by
  have hand : "AND".toUpper = "AND" := by decide +kernel
  rw [eval_mk]
  simp only [Node.map, Node.eval, hand, if_true, List.map_cons, List.map_nil, allTrue, hx, hy, bind,
    Except.bind, Value.truthy]
  cases b <;> cases c <;> rfl

/-- Whether a line with two known points crosses another one. -/
def crosses (up : Bool) : Option (Float × Float) → Option (Float × Float) → Bool
  | some (a, a'), some (b, b') => if up then a ≤ b && b' < a' else b ≤ a && a' < b'
  | _, _ => false

theorem crossing_eval {up : Bool} {x y : Expr} {bars : Int} {ps qs : List Float}
    (hx : ∀ function, crossingPoints function (x.eval market) bars = .ok ps)
    (hy : ∀ function, crossingPoints function (y.eval market) bars = .ok qs) :
    (crossing up x y).eval market bars =
      .ok (.boolean (crosses up (Indicator.lastTwo ps) (Indicator.lastTwo qs))) := by
  have hname : Function.ofName? (if up then "crossover" else "crossunder") =
      some (.crossing up) := by
    cases up <;> rfl
  have hcrosses : (if up then Indicator.crossesUp ps qs else Indicator.crossesDown ps qs) =
      crosses up (Indicator.lastTwo ps) (Indicator.lastTwo qs) := by
    simp only [Indicator.crossesUp, Indicator.crossesDown]
    cases Indicator.lastTwo ps <;> cases Indicator.lastTwo qs <;> cases up <;> rfl
  rw [crossing, eval_mk, ← hcrosses]
  simp only [Node.map, Node.eval, evalCall, hname, List.map_cons, List.map_nil, evalCrossing, hx,
    hy, bind, Except.bind]
  rfl

/-- Whether one point is not on the far side of another one before a crossing. -/
theorem comparePoints_before (tolerance : Float) (up : Bool) (x y : Option Float) :
    comparePoints tolerance (if up then "<=" else ">=") x y = .ok (match x, y with
      | some a, some b => if up then a ≤ b else b ≤ a
      | _, _ => false) := by
  cases x <;> cases y <;> cases up <;> simp [comparePoints, compareNumbers]

theorem comparePoints_now (tolerance : Float) (up : Bool) (x y : Option Float) :
    comparePoints tolerance (if up then ">" else "<") x y = .ok (match x, y with
      | some a, some b => if up then b < a else a < b
      | _, _ => false) := by
  cases x <;> cases y <;> cases up <;> simp [comparePoints, compareNumbers]

theorem spelledOut_eval {up : Bool} {x y : Expr} {bars : Int} {v v' w w' : Value}
    (hv : x.eval market bars = .ok v) (hvp : v.IsPoint)
    (hv' : x.eval market (bars + 1) = .ok v') (hvp' : v'.IsPoint)
    (hw : y.eval market bars = .ok w) (hwp : w.IsPoint)
    (hw' : y.eval market (bars + 1) = .ok w') (hwp' : w'.IsPoint) :
    (spelledOut up x y).eval market bars =
      .ok (.boolean (crosses up (between v'.point v.point) (between w'.point w.point))) := by
  have hback : ∀ e : Expr, (mk (.history e 1)).eval market bars = e.eval market (bars + 1) :=
    fun e => by rw [eval_mk]; rfl
  have hbefore := comparison_eval (if up then "<=" else ">=")
    ((hback x).trans hv') hvp' ((hback y).trans hw') hwp'
  have hnow := comparison_eval (if up then ">" else "<") hv hvp hw hwp
  rw [comparePoints_before] at hbefore
  rw [comparePoints_now] at hnow
  rw [spelledOut, and_eval hbefore hnow]
  cases v'.point <;> cases v.point <;> cases w'.point <;> cases w.point <;> cases up <;>
    simp [between, crosses]

/-- **A crossing is its spelled-out form.**  If two expressions have points now and one bar ago, and
neither is a price list that is read ahead of the last bar, then `crossover(x, y)` and
`x[1] <= y[1] and x > y` have the same boolean for their value, and so have `crossunder(x, y)` and
`x[1] >= y[1] and x < y`. -/
theorem crossing_eq_spelledOut (market : Market) (x y : Expr) (bars : Int)
    (hx : x.HasPoint market bars) (hx' : x.HasPoint market (bars + 1))
    (hy : y.HasPoint market bars) (hy' : y.HasPoint market (bars + 1))
    (hxa : ¬ x.ReadsAhead bars) (hya : ¬ y.ReadsAhead bars) (up : Bool) :
    ∃ b, (crossing up x y).eval market bars = .ok (.boolean b) ∧
      (spelledOut up x y).eval market bars = .ok (.boolean b) := by
  obtain ⟨v, hv, hvp⟩ := hx
  obtain ⟨v', hv', hvp'⟩ := hx'
  obtain ⟨w, hw, hwp⟩ := hy
  obtain ⟨w', hw', hwp'⟩ := hy'
  obtain ⟨ps, hps, hps2⟩ := lastTwo_crossingPoints hv hvp hv' hvp' hxa
  obtain ⟨qs, hqs, hqs2⟩ := lastTwo_crossingPoints hw hwp hw' hwp' hya
  refine ⟨_, crossing_eval hps hqs, ?_⟩
  rw [hps2, hqs2]
  exact spelledOut_eval hv hvp hv' hvp' hw hwp hw' hwp'

/-- The closes cross their least one of two bars: one bar ago both were 1, and now 4 is above 1. -/
theorem crossing_eq_spelledOut_lowest :
    let market : Market := ⟨"A", ⟨4, 0⟩, ⟨[3, 1, 4], fun _ => none, by simp⟩, 0.001⟩
    let prices : Expr := .mk (.name "prices")
    let lowest : Expr := .mk (.call "lowest" [.mk (.number 2)])
    prices.HasPoint market 0 ∧ prices.HasPoint market 1 ∧ lowest.HasPoint market 0 ∧
      lowest.HasPoint market 1 ∧ ¬ prices.ReadsAhead 0 ∧ ¬ lowest.ReadsAhead 0 ∧
      (crossing true prices lowest).eval market 0 = .ok (.boolean true) ∧
      ∃ b, (crossing true prices lowest).eval market 0 = .ok (.boolean b) ∧
        (spelledOut true prices lowest).eval market 0 = .ok (.boolean b) := by
  intro market prices lowest
  have hpoint : ∀ x : Float, (Value.number x).IsPoint := fun _ => ⟨nofun, nofun⟩
  have hlist : ∀ l points, (Value.series l points).IsPoint := fun _ _ => ⟨nofun, nofun⟩
  have hx : prices.HasPoint market 0 := ⟨.series .prices [3, 1, 4], rfl, hlist _ _⟩
  have hx' : prices.HasPoint market 1 := ⟨.series .prices [3, 1], rfl, hlist _ _⟩
  have hy : lowest.HasPoint market 0 := ⟨.number 1, rfl, hpoint _⟩
  have hy' : lowest.HasPoint market 1 := ⟨.number 1, rfl, hpoint _⟩
  have hxa : ¬ prices.ReadsAhead 0 := by
    rintro ⟨l, n, h, hn⟩
    cases h
    exact absurd hn (by decide)
  have hya : ¬ lowest.ReadsAhead 0 := by
    rintro ⟨l, n, h, -⟩
    cases h
  exact ⟨hx, hx', hy, hy', hxa, hya, rfl,
    crossing_eq_spelledOut market prices lowest 0 hx hx' hy hy' hxa hya true⟩

/-- **Ahead of the last bar the two forms differ.**  One bar ahead the closes 1 and 3 still cross 2
by their last two items, but are 3 both then and one bar before. -/
theorem crossing_ne_spelledOut_ahead :
    let market : Market := ⟨"A", ⟨3, 0⟩, ⟨[1, 3], fun _ => none, by simp⟩, 0.001⟩
    let prices : Expr := .mk (.name "prices")
    let two : Expr := .mk (.number 2)
    prices.Every Node.LooksBack ∧ two.Every Node.LooksBack ∧
      prices.HasPoint market (-1) ∧ prices.HasPoint market (-1 + 1) ∧
      two.HasPoint market (-1) ∧ two.HasPoint market (-1 + 1) ∧
      (crossing true prices two).eval market (-1) = .ok (.boolean true) ∧
      (spelledOut true prices two).eval market (-1) = .ok (.boolean false) := by
  intro market prices two
  have hpoint : ∀ x : Float, (Value.number x).IsPoint := fun _ => ⟨nofun, nofun⟩
  have hlist : ∀ l points, (Value.series l points).IsPoint := fun _ _ => ⟨nofun, nofun⟩
  have hx : ∀ bars, bars = -1 ∨ bars = -1 + 1 →
      prices.eval market bars = .ok (.series .prices [1, 3]) := by
    rintro _ (rfl | rfl) <;> rfl
  have hy : ∀ bars, two.eval market bars = .ok (.number 2) := fun _ => rfl
  refine ⟨?_, ?_, ⟨_, hx _ (.inl rfl), hlist _ _⟩, ⟨_, hx _ (.inr rfl), hlist _ _⟩,
    ⟨_, hy _, hpoint _⟩, ⟨_, hy _, hpoint _⟩, rfl,
    spelledOut_eval (hx _ (.inl rfl)) (hlist _ _) (hx _ (.inr rfl)) (hlist _ _) (hy _) (hpoint _)
      (hy _) (hpoint _)⟩
  · exact Expr.every_mk.2 ⟨trivial, by simp [Node.children]⟩
  · exact Expr.every_mk.2 ⟨trivial, by simp [Node.children]⟩

end Expr

end BarScript
