import BarScript.Text.CodePoint
import Mathlib.Data.List.Chain

/-!
# Pairs of surrogates

A high surrogate and a low one behind it are put together where a text of code points is written in
16-bit units and read again (`Text.join`).  This is done from the left as well as from the right,
since a low surrogate is never the first of a pair (`Text.join_cons_of_unpaired`,
`Text.join_cons_pair`).  A text is left as it is if and only if it has no such pair in it
(`Text.join_eq_self_iff`), and none is left afterwards (`Text.unpaired_join`).
-/

namespace BarScript

namespace CodePoint

variable {p q : CodePoint} {c : Char}

theorem ofUnit_of_not_surrogate {unit : Nat} (h : unit < 0xD800 ∨ 0xE000 ≤ unit) :
    ofUnit unit = char (Char.ofNat unit) := dif_neg (by omega)

theorem ofUnit_of_surrogate {unit : Nat} (h : 0xD800 ≤ unit ∧ unit < 0xE000)
    (hplace : unit - 0xD800 < 0x800) : ofUnit unit = surrogate ⟨unit - 0xD800, hplace⟩ := dif_pos h

theorem ofUnit_place (place : Fin 0x800) : ofUnit (0xD800 + place.val) = surrogate place := by
  have h := place.isLt
  rw [ofUnit_of_surrogate (by omega) (by omega)]
  simp

@[simp] theorem pair?_char_left (c : Char) (q : CodePoint) : (char c).pair? q = none := rfl

@[simp] theorem pair?_char_right (p : CodePoint) (c : Char) : p.pair? (char c) = none := by
  cases p <;> rfl

/-- The units of a high surrogate and of a low one are those of a character. -/
theorem pair?_ofUnit {high low : Nat} (hhigh : 0xD800 ≤ high ∧ high < 0xDC00)
    (hlow : 0xDC00 ≤ low ∧ low < 0xE000) : (ofUnit high).pair? (ofUnit low) =
      some (Char.ofNat (0x10000 + (high - 0xD800) * 0x400 + (low - 0xDC00))) := by
  have hplace : low - 0xD800 - 0x400 = low - 0xDC00 := by omega
  rw [ofUnit_of_surrogate (by omega) (by omega), ofUnit_of_surrogate (by omega) (by omega)]
  simp only [pair?]
  rw [if_pos (by omega), hplace]

theorem exists_of_pair? (h : p.pair? q = some c) : ∃ high low, p = surrogate high ∧
    q = surrogate low ∧ high.val < 0x400 ∧ 0x400 ≤ low.val := by
  cases p with
  | char _ => cases h
  | surrogate high =>
    cases q with
    | char _ => cases h
    | surrogate low =>
      rw [pair?] at h
      split at h
      · exact ⟨high, low, rfl, rfl, ‹_›⟩
      · cases h

/-- A low surrogate is never the first of a pair. -/
theorem pair?_eq_none_of_pair? (h : p.pair? q = some c) (r : CodePoint) : q.pair? r = none := by
  obtain ⟨_, low, -, rfl, -, hlow⟩ := exists_of_pair? h
  cases r with
  | char _ => rfl
  | surrogate _ => exact if_neg (by omega)

end CodePoint

namespace Text

variable {p q : CodePoint} {ps : CodePoints} {c : Char}

theorem attach_of_unpaired (h : ∀ q ∈ ps.head?, p.pair? q = none) : attach p ps = p :: ps := by
  cases ps with
  | nil => rfl
  | cons q rest => rw [attach, h q rfl]

/-- What is in front of a joined text was in front before, or is a character. -/
theorem head?_join (h : q ∈ (join ps).head?) : q ∈ ps.head? ∨ ∃ c, q = .char c := by
  cases ps with
  | nil => cases h
  | cons p ps =>
    rw [join, List.foldr_cons, attach.eq_def] at h
    split at h
    · exact .inl h
    · split at h
      · cases h
        exact .inr ⟨_, rfl⟩
      · exact .inl h

theorem join_cons_of_unpaired (h : ∀ q ∈ ps.head?, p.pair? q = none) :
    join (p :: ps) = p :: join ps := by
  refine attach_of_unpaired fun q hq => ?_
  obtain hq | ⟨c, rfl⟩ := head?_join hq
  · exact h q hq
  · exact CodePoint.pair?_char_right p c

theorem join_cons_pair (h : p.pair? q = some c) (ps : CodePoints) :
    join (p :: q :: ps) = .char c :: join ps := by
  have hq : join (q :: ps) = q :: join ps :=
    join_cons_of_unpaired fun r _ => CodePoint.pair?_eq_none_of_pair? h r
  rw [join, List.foldr_cons, ← join, hq, attach, h]

/-- No high surrogate has a low one right behind it. -/
def Unpaired (ps : CodePoints) : Prop := ps.IsChain fun p q => p.pair? q = none

instance (ps : CodePoints) : Decidable (Unpaired ps) :=
  inferInstanceAs (Decidable (ps.IsChain _))

theorem unpaired_attach (p : CodePoint) (h : Unpaired ps) : Unpaired (attach p ps) := by
  cases ps with
  | nil => exact .singleton p
  | cons q rest =>
    rw [attach]
    cases hpair : p.pair? q with
    | none => exact .cons_cons hpair h
    | some c => exact (List.IsChain.tail h).cons fun r _ => CodePoint.pair?_char_left c r

/-- **A joined text has no pair in it.** -/
theorem unpaired_join (ps : CodePoints) : Unpaired (join ps) := by
  induction ps with
  | nil => exact .nil
  | cons p ps ih => exact unpaired_attach p ih

/-- **A text is left as it is if and only if it has no pair in it.** -/
theorem join_eq_self_iff : join ps = ps ↔ Unpaired ps := by
  refine ⟨fun h => h ▸ unpaired_join ps, fun h => ?_⟩
  induction ps with
  | nil => rfl
  | cons p ps ih => rw [join_cons_of_unpaired (List.IsChain.rel_head? h), ih (List.IsChain.tail h)]

example : ¬ Unpaired [.surrogate 0x3D, .surrogate 0x600] := by decide

end Text

end BarScript
