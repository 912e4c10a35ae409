import BarScript.Proofs.Token.Scan

/-!
# Where tokens stand

A token of a text stands in it at its position (`StandsAt`), and so does the character that no
lexeme starts with (`scan_placed`).
-/

namespace BarScript

open Token Lexeme

variable {c : Char} {cs front : List Char} {l : Lexeme}

/-- The characters `word` stand in the text `cs` at a position. -/
structure StandsAt (word cs : List Char) (position : Nat) : Prop where
  position_le : position ≤ cs.length
  isPrefix : word <+: cs.drop position

theorem StandsAt.append (front word rest : List Char) :
    StandsAt word (front ++ (word ++ rest)) front.length where
  position_le := by simp
  isPrefix := by simp

/-! ### Line ends -/

theorem kind_of_number? (h : number? cs = some l) : l.kind = .token .number := by
  have hcases : ∀ whole fraction : Lexeme, whole.kind = .token .number →
      fraction.kind = .token .number →
      (if fraction.chars.isEmpty then if whole.chars.isEmpty then none else some whole
        else some (fraction.after (whole.chars ++ ['.']))) = some l → l.kind = .token .number := by
    intro whole fraction hwhole hfraction h
    split at h
    · split at h
      · cases h
      · cases h
        exact hwhole
    · cases h
      exact hfraction
  exact hcases _ _ rfl (by split <;> rfl) h

theorem kind_of_quoted? (h : quoted? c cs = some l) : l.kind = .token .text := by
  simp only [quoted?] at h
  split at h
  · split at h <;> cases h
    rfl
  · cases h

theorem kind_of_token? (h : token? cs = some l) : ∃ kind, l.kind = .token kind := by
  cases cs with
  | nil => cases h
  | cons c cs =>
    rcases Option.or_eq_some_iff.1 h with h | ⟨-, h⟩
    · exact ⟨_, kind_of_number? h⟩
    split at h
    · exact ⟨_, kind_of_quoted? h⟩
    · split at h
      · cases h
        exact ⟨_, rfl⟩
      · obtain ⟨s, -, h⟩ := List.exists_of_findSome?_eq_some h
        split at h <;> cases h
        exact ⟨_, rfl⟩

theorem chars_of_lineEnd (h : next? cs = some l) (hl : l.kind = .lineEnd) : l.chars = ['\n'] := by
  have hfront := front_next? cs
  rw [h] at hfront
  generalize heq : some l = l' at hfront
  cases hfront with
  | nil => cases heq
  | comment rest => cases heq; cases hl
  | lineEnd rest => cases heq; rfl
  | space hc rest => cases heq; cases hl
  | token =>
    obtain ⟨kind, hkind⟩ := kind_of_token? heq.symm
    rw [hkind] at hl
    cases hl

/-! ### Scanning -/

/-- What scanning a lexeme gives stands where the lexeme does. -/
theorem scanFrom_lexeme (hl : next? cs = some l) (fuel position depth : Nat) (done : List Token) :
    ∃ depth' us, (∀ t ∈ us, t.position = position ∧ t.text.toList = l.chars) ∧
      scanFrom (fuel + 1) position depth done cs =
        scanFrom fuel (position + l.chars.length) depth' (us ++ done) l.rest := by
  cases cs with
  | nil => cases hl
  | cons c cs =>
    simp only [scanFrom, hl]
    cases hkind : l.kind with
    | comment | space => exact ⟨depth, [], by simp, rfl⟩
    | lineEnd =>
      by_cases hdepth : depth = 0
      · rw [if_pos hdepth]
        refine ⟨depth, [⟨.separator, "\n", position⟩], ?_, rfl⟩
        simp [chars_of_lineEnd hl hkind]
      · rw [if_neg hdepth]
        exact ⟨depth, [], by simp, rfl⟩
    | token kind =>
      refine ⟨_, [⟨kind, String.ofList l.chars, position⟩], ?_, rfl⟩
      simp

/-- The tokens stand in the text. -/
def StandIn (ts : List Token) (cs : List Char) : Prop :=
  ∀ t ∈ ts, StandsAt t.text.toList cs t.position

/-- What scanning a text gives stands in the text: its tokens, or the character that is wrong. -/
def Placed (cs : List Char) : Except ParseError (List Token) → Prop
  | .ok ts => StandIn ts cs
  | .error e => ∃ c n, e = ⟨.unexpectedCharacter c, some n, some (String.ofList [c])⟩ ∧
      StandsAt [c] cs n

theorem StandIn.reverse {ts : List Token} (h : StandIn ts cs) : StandIn ts.reverse cs :=
  fun t ht => h t (List.mem_reverse.1 ht)

theorem scanFrom_placed (fuel depth : Nat) {done : List Token} (h : StandIn done (front ++ cs)) :
    Placed (front ++ cs) (scanFrom fuel front.length depth done cs) := by
  induction fuel generalizing cs front depth done with
  | zero => cases cs <;> exact h.reverse
  | succ fuel ih =>
    cases hl : next? cs with
    | none =>
      cases cs with
      | nil => exact h.reverse
      | cons c cs =>
        rw [scanFrom, hl]
        exact ⟨c, front.length, rfl, .append front [c] cs⟩
    | some l =>
      obtain ⟨depth', us, hus, hstep⟩ := scanFrom_lexeme hl fuel front.length depth done
      obtain ⟨rfl, -⟩ := starts_next? hl
      have hdone : StandIn (us ++ done) (front ++ (l.chars ++ l.rest)) := by
        intro t ht
        rcases List.mem_append.1 ht with ht | ht
        · obtain ⟨hposition, htext⟩ := hus t ht
          rw [hposition, htext]
          exact .append front l.chars l.rest
        · exact h t ht
      rw [hstep, ← List.length_append, ← List.append_assoc]
      rw [← List.append_assoc] at hdone
      exact ih depth' hdone

/-- **The tokens of a text stand in it**, and so does the character that no lexeme starts with. -/
theorem scan_placed (source : String) : Placed source.toList (scan source) := by
  have h : StandIn [] ([] ++ source.toList) := by simp [StandIn]
  exact scanFrom_placed source.length 0 h

end BarScript
