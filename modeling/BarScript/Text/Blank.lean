/-!
# White space

Two classes of white space occur.  `isWhiteSpace` is the property White_Space of Unicode, which a
number that stands alone in a text may be surrounded with.  `isBlank` has the four separators U+001C
to U+001F as well; script texts are stripped of it.
-/

namespace BarScript.Text

/-- The white space characters outside the ranges U+0009 to U+000D and U+2000 to U+200A. -/
def spaces : List Nat := [0x20, 0x85, 0xA0, 0x1680, 0x2028, 0x2029, 0x202F, 0x205F, 0x3000]

/-- The Unicode property White_Space. -/
def isWhiteSpace (c : Char) : Bool :=
  (0x09 ≤ c.toNat && c.toNat ≤ 0x0D) || (0x2000 ≤ c.toNat && c.toNat ≤ 0x200A) ||
    spaces.contains c.toNat

/-- White space and the information separators. -/
def isBlank (c : Char) : Bool :=
  isWhiteSpace c || (0x1C ≤ c.toNat && c.toNat ≤ 0x1F)

/-- A text without the characters of a class at its two ends. -/
def trim (drop : Char → Bool) (cs : List Char) : List Char :=
  ((cs.dropWhile drop).reverse.dropWhile drop).reverse

/-- A text without blanks at its ends. -/
def strip (s : String) : String := String.ofList (trim isBlank s.toList)

end BarScript.Text
