import BarScript.Proofs.Json.Number
import BarScript.Proofs.Json.Text

/-!
# JSON text is one line

No text of a value has a control character in it, whatever the value and the set of characters
(`onOneLine_chars`): control characters are always escaped, and everything else that is written is
above them.
-/

namespace BarScript.Json

open Number Text

/-- There is no control character. -/
def OnOneLine (cs : List Char) : Prop := ∀ c ∈ cs, 0x20 ≤ c.toNat

instance (cs : List Char) : Decidable (OnOneLine cs) :=
  decidable_of_iff ((cs.all fun c => 0x20 ≤ c.toNat) = true) (by simp [OnOneLine])

namespace OnOneLine

variable {cs ds : List Char} {c : Char}

theorem nil : OnOneLine [] := by simp [OnOneLine]

theorem cons (hc : 0x20 ≤ c.toNat) (h : OnOneLine cs) : OnOneLine (c :: cs) :=
  List.forall_mem_cons.2 ⟨hc, h⟩

theorem append (hc : OnOneLine cs) (hd : OnOneLine ds) : OnOneLine (cs ++ ds) := by
  intro c h
  rcases List.mem_append.1 h with h | h
  · exact hc c h
  · exact hd c h

theorem flatMap {α : Type} {f : α → List Char} {as : List α} (h : ∀ a ∈ as, OnOneLine (f a)) :
    OnOneLine (as.flatMap f) := by
  intro c hc
  obtain ⟨a, ha, hc⟩ := List.mem_flatMap.1 hc
  exact h a ha c hc

/-- What words and numbers are made of is above the control characters. -/
theorem atomChars (h : Reader.AtomChars cs) : OnOneLine cs := by
  intro c hc
  have hatom := h c hc
  by_contra hlow
  have hlt : c.toNat < 0x20 := Nat.not_le.1 hlow
  have hall : ∀ n < 0x20, Reader.isAtomChar (Char.ofNat n) = false := by decide
  rw [← Char.ofNat_toNat c, hall _ hlt] at hatom
  cases hatom

theorem separated {items : List (List Char)} (h : ∀ item ∈ items, OnOneLine item) :
    OnOneLine (Json.separated items) := by
  induction items with
  | nil => exact nil
  | cons item rest ih =>
    obtain ⟨hitem, hrest⟩ := List.forall_mem_cons.1 h
    cases rest with
    | nil => exact hitem
    | cons next rest => exact hitem.append (cons (by decide) (cons (by decide) (ih hrest)))

end OnOneLine

/-! ### Texts -/

theorem onOneLine_unitEscape {n : Nat} (hn : n < 16 ^ 4) : OnOneLine (unitEscape n) := by
  have hdigit : ∀ d < 16, 0x20 ≤ d.digitChar.toNat := by decide
  rw [unitEscape, hexChars_four hn]
  refine .cons (by decide) (.cons (by decide) ?_)
  simp only [OnOneLine, List.forall_mem_cons]
  exact ⟨hdigit _ (by omega), hdigit _ (by omega), hdigit _ (by omega), hdigit _ (by omega),
    by simp⟩

/-- **A control character is escaped**, and so the text of a character has none. -/
theorem onOneLine_escapeChar (charset : Charset) (c : Char) : OnOneLine (escapeChar charset c) := by
  rcases Reader.escapeChar_cases charset c with ⟨d, hd, hsimple, -⟩ | hunicode | ⟨hself, -, -, hlow⟩
  · rw [hd]
    refine .cons (by decide) (.cons ?_ .nil)
    unfold Reader.simpleEscape? at hsimple
    split at hsimple <;> first | decide | cases hsimple
  · rw [hunicode, unicodeEscape]
    split
    · exact onOneLine_unitEscape (by omega)
    · have := Reader.toNat_cases c
      exact (onOneLine_unitEscape (by omega)).append (onOneLine_unitEscape (by omega))
  · rw [hself]
    exact .cons (Nat.not_lt.1 hlow) .nil

theorem onOneLine_stringChars (charset : Charset) (s : String) :
    OnOneLine (stringChars (escapeText charset) s) :=
  .cons (by decide)
    ((OnOneLine.flatMap fun c _ => onOneLine_escapeChar charset c).append (.cons (by decide) .nil))

/-! ### Values -/

mutual

/-- **The text of a value has no control character.** -/
theorem onOneLine_chars (charset : Charset) : ∀ v, OnOneLine (chars (escapeText charset) v)
  | .null => by rw [chars]; decide
  | .bool true => by rw [chars]; decide
  | .bool false => by rw [chars]; decide
  | .int n => .atomChars (Reader.atomChars_intText n)
  | .real x => .atomChars (Reader.atomChars_number x)
  | .string s => onOneLine_stringChars charset s
  | .array items =>
    .cons (by decide)
      ((OnOneLine.separated (onOneLine_itemChars charset items)).append (.cons (by decide) .nil))
  | .object members =>
    .cons (by decide)
      ((OnOneLine.separated (onOneLine_memberChars charset members)).append
        (.cons (by decide) .nil))

theorem onOneLine_itemChars (charset : Charset) :
    ∀ items, ∀ item ∈ itemChars (escapeText charset) items, OnOneLine item
  | [] => by simp [itemChars]
  | v :: rest =>
    List.forall_mem_cons.2 ⟨onOneLine_chars charset v, onOneLine_itemChars charset rest⟩

theorem onOneLine_memberChars (charset : Charset) :
    ∀ members, ∀ member ∈ memberChars (escapeText charset) members, OnOneLine member
  | [] => by simp [memberChars]
  | (name, v) :: rest =>
    List.forall_mem_cons.2
      ⟨(onOneLine_stringChars charset name).append
        (.cons (by decide) (.cons (by decide) (onOneLine_chars charset v))),
        onOneLine_memberChars charset rest⟩

end

end BarScript.Json
