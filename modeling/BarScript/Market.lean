/-!
# What a script can see of the market

A `Series` is the price history of one symbol, oldest bar first: the closes, and if they are known
the highs, lows and volumes, one for each close.  `Series.create` checks that; shifting a series
into the past (`Series.shifted`) keeps it.

A `Market` is a series together with the latest quote and the tolerance of comparisons.
-/

namespace BarScript

/-- The lists that go with the closes. -/
inductive Companion where
  | highs
  | lows
  | volumes
  deriving Repr, DecidableEq

/-- The name of a companion list. -/
def Companion.name : Companion → String
  | highs => "highs"
  | lows => "lows"
  | volumes => "volumes"

/-- A price history, oldest bar first. -/
structure Series where
  closes : List Float
  companion : Companion → Option (List Float)
  /-- A companion list that is known has one item for each close. -/
  aligned : ∀ c xs, companion c = some xs → xs.length = closes.length

/-- A companion list that does not have one item for each close. -/
structure Misaligned where
  companion : Companion
  points : Nat
  closes : Nat
  deriving Repr, DecidableEq

/-- The wording of a misalignment. -/
def Misaligned.message (e : Misaligned) : String :=
  let name := e.companion.name
  let points := e.points
  let closes := e.closes
  s!"{name} has {points} points but closes has {closes}"

namespace Series

/-- The misalignment of a companion list, if there is one. -/
def misaligned? (closes : List Float) (c : Companion) : Option (List Float) → Option Misaligned
  | none => none
  | some xs =>
    if xs.length = closes.length then none else some ⟨c, xs.length, closes.length⟩

/-- Selects among three things by companion. -/
def select {α : Type} (highs lows volumes : α) : Companion → α
  | .highs => highs
  | .lows => lows
  | .volumes => volumes

/-- The series of aligned lists, or the first misalignment. -/
def create (closes : List Float) (highs lows volumes : Option (List Float)) :
    Except Misaligned Series :=
  match hh : misaligned? closes .highs highs with
  | some e => .error e
  | none => match hl : misaligned? closes .lows lows with
    | some e => .error e
    | none => match hv : misaligned? closes .volumes volumes with
      | some e => .error e
      | none => .ok
        { closes
          companion := select highs lows volumes
          aligned := by
            intro c xs h
            cases c <;> simp only [select] at h <;> subst h <;>
              simp only [misaligned?, ite_eq_left_iff, reduceCtorEq, imp_false,
                Decidable.not_not] at hh hl hv <;> assumption }

/-- The number of bars. -/
def length (s : Series) : Nat := s.closes.length

/-- The series of the first `n` bars. -/
def take (n : Nat) (s : Series) : Series where
  closes := s.closes.take n
  companion c := (s.companion c).map (List.take n)
  aligned := by
    intro c xs h
    obtain ⟨ys, hy, rfl⟩ := Option.map_eq_some_iff.1 h
    simp [s.aligned c ys hy]

/-- The series as it was some bars ago; a number of bars that is not positive changes nothing. -/
def shifted (s : Series) (bars : Int) : Series :=
  if bars ≤ 0 then s else s.take (s.length - bars.toNat)

end Series

/-- The latest quote of a symbol. -/
structure Quote where
  price : Float
  /-- The change against the close before, as a fraction. -/
  change : Float
  deriving Repr

/-- What the evaluation of a script can read. -/
structure Market where
  symbol : String
  quote : Quote
  series : Series
  /-- Numbers closer than this count as equal. -/
  tolerance : Float

end BarScript
