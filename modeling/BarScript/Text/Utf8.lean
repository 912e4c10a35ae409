/-!
# UTF-8

`Text.utf8Bytes` writes characters as bytes.  `Text.ofUtf8` reads any bytes: where they are no UTF-8
it puts the replacement character U+FFFD, once for each longest run of bytes that could have begun a
character.
-/

namespace BarScript.Text

/-- The bytes of a character. -/
def utf8Bytes (c : Char) : List Nat := (String.utf8EncodeChar c).map UInt8.toNat

/-- The bytes that may follow another one inside a character. -/
def trail : Nat × Nat := (0x80, 0xBF)

/-- What the first byte of a character says: the bits it brings, and for each byte that must follow
the least and the greatest it can be.  The narrower ranges shut out code points that would fit into
fewer bytes, surrogates, and what lies beyond U+10FFFF. -/
def lead? (b : Nat) : Option (Nat × List (Nat × Nat)) :=
  if b < 0x80 then some (b, [])
  else if b < 0xC2 then none
  else if b < 0xE0 then some (b - 0xC0, [trail])
  else if b = 0xE0 then some (0, [(0xA0, 0xBF), trail])
  else if b = 0xED then some (0xD, [(0x80, 0x9F), trail])
  else if b < 0xF0 then some (b - 0xE0, [trail, trail])
  else if b = 0xF0 then some (0, [(0x90, 0xBF), trail, trail])
  else if b < 0xF4 then some (b - 0xF0, [trail, trail, trail])
  else if b = 0xF4 then some (4, [(0x80, 0x8F), trail, trail])
  else none

/-- The character of some bits and the bytes that must follow, and the bytes behind it. -/
def follow (bits : Nat) : List (Nat × Nat) → List Nat → Char × List Nat
  | [], bytes => (Char.ofNat bits, bytes)
  | _ :: _, [] => ('\uFFFD', [])
  | range :: ranges, b :: bytes =>
    if range.1 ≤ b ∧ b ≤ range.2 then follow (bits * 64 + (b - 0x80)) ranges bytes
    else ('\uFFFD', b :: bytes)

theorem length_follow_le (bits : Nat) (ranges : List (Nat × Nat)) (bytes : List Nat) :
    (follow bits ranges bytes).2.length ≤ bytes.length := by
  fun_induction follow bits ranges bytes with
  | case1 => simp
  | case2 => simp
  | case3 bits range ranges b bytes _ ih => exact Nat.le_succ_of_le ih
  | case4 => simp

/-- The characters that bytes stand for. -/
def ofUtf8 : List Nat → List Char
  | [] => []
  | b :: bytes =>
    match lead? b with
    | none => '\uFFFD' :: ofUtf8 bytes
    | some (bits, ranges) =>
      (follow bits ranges bytes).1 :: ofUtf8 (follow bits ranges bytes).2
termination_by bytes => bytes.length
decreasing_by
  · simp
  · exact Nat.lt_succ_of_le (length_follow_le bits ranges bytes)

end BarScript.Text
