/-!
# Code points

Some code points are no characters: a high surrogate and a low one behind it encode a character
beyond U+FFFF.  A document can name surrogates one by one, and then they stand in its texts like
characters, also alone or in the wrong order (`CodePoint`).

Every text is a list of code points (`Text.points`).  The way back puts U+FFFD in place of a
surrogate (`Text.plain`).  Where a list of code points is written with one escape for each 16-bit
unit, a high surrogate and a low one behind it cannot be told from the character that they encode;
what is left of the list is `Text.join`.
-/

namespace BarScript

/-- A character, or a surrogate, which is given by its place among the surrogates. -/
inductive CodePoint where
  | char (c : Char)
  | surrogate (place : Fin 0x800)
  deriving Repr, DecidableEq

/-- A text that may hold surrogates. -/
abbrev CodePoints := List CodePoint

namespace CodePoint

/-- The code point that a 16-bit unit stands for by itself. -/
def ofUnit (unit : Nat) : CodePoint :=
  if h : 0xD800 ≤ unit ∧ unit < 0xE000 then surrogate ⟨unit - 0xD800, by omega⟩
  else char (Char.ofNat unit)

/-- The character, and U+FFFD for a surrogate. -/
def toChar : CodePoint → Char
  | char c => c
  | surrogate _ => '\uFFFD'

/-- The character, if it is one. -/
def char? : CodePoint → Option Char
  | char c => some c
  | surrogate _ => none

/-- The character that a high surrogate and a low one encode. -/
def pair? : CodePoint → CodePoint → Option Char
  | surrogate high, surrogate low =>
    if high.val < 0x400 ∧ 0x400 ≤ low.val then
      some (Char.ofNat (0x10000 + high.val * 0x400 + (low.val - 0x400)))
    else none
  | _, _ => none

end CodePoint

namespace Text

/-- The code points of a text. -/
def points (s : String) : CodePoints := s.toList.map .char

/-- The text of code points, with U+FFFD for every surrogate. -/
def plain (ps : CodePoints) : String := String.ofList (ps.map CodePoint.toChar)

/-- The text of code points, if there is no surrogate among them. -/
def plain? (ps : CodePoints) : Option String := (ps.mapM CodePoint.char?).map String.ofList

/-- A code point in front of others; with a low surrogate behind it, a high one becomes one
character. -/
def attach (p : CodePoint) : CodePoints → CodePoints
  | [] => [p]
  | q :: rest =>
    match p.pair? q with
    | some c => .char c :: rest
    | none => p :: q :: rest

/-- The code points with every high surrogate and the low one behind it put together. -/
def join (ps : CodePoints) : CodePoints := ps.foldr attach []

theorem plain_points (s : String) : plain (points s) = s := by
  have h : CodePoint.toChar ∘ CodePoint.char = id := rfl
  rw [plain, points, List.map_map, h, List.map_id, String.ofList_toList]

theorem points_inj {s t : String} (h : points s = points t) : s = t := by
  rw [← plain_points s, h, plain_points]

/-- Characters stay as they are. -/
theorem join_chars (cs : List Char) : join (cs.map .char) = cs.map .char := by
  induction cs with
  | nil => rfl
  | cons c cs ih =>
    rw [join] at ih ⊢
    rw [List.map_cons, List.foldr_cons, ih]
    cases cs <;> rfl

end Text

/-- Kinds of texts that every text can be written as. -/
class OfString (τ : Type) where
  /-- The text as one of this kind. -/
  ofString : String → τ

export OfString (ofString)

instance : OfString String := ⟨id⟩

instance : OfString CodePoints := ⟨Text.points⟩

end BarScript
