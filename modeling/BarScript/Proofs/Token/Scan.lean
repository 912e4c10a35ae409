import BarScript.Proofs.Except
import BarScript.Proofs.Token.Lexeme
import Mathlib.Data.List.Induction

/-!
# Scanning part by part

`Lexed cs ls` says that the text `cs` is made of the lexemes `ls`.  Lexemes do not know of open
brackets, so lexemes of texts with a line end between them are those of the two texts
(`Lexed.append_lineEnd`); which line ends are separators is settled afterwards (`tokens`).

* `scan_eq_ok`, `exists_scan` : a text has tokens if and only if it is made of lexemes, and up to
  their places the tokens are those of the lexemes.
* `Lexed.trim` : blanks around a text only make a difference of separators at its two ends.
-/

namespace BarScript

/-! ### Tokens at other places -/

namespace Token

/-- A token at no place of its own. -/
def unplaced (t : Token) : Token := { t with position := 0 }

/-- The tokens `us` are the tokens `ts`, at other places. -/
def Moved (us ts : List Token) : Prop := us.map unplaced = ts.map unplaced

namespace Moved

variable {t : Token} {us us' ts ts' : List Token}

theorem refl (ts : List Token) : Moved ts ts := rfl

theorem append (h : Moved us ts) (h' : Moved us' ts') : Moved (us ++ us') (ts ++ ts') := by
  rw [Moved, List.map_append, List.map_append, h, h']

theorem symm (h : Moved us ts) : Moved ts us := Eq.symm h

theorem map_kind (h : Moved us ts) : us.map kind = ts.map kind := by
  -- the kind of a token is that of the token at no place
  have := congrArg (List.map kind) h
  rwa [List.map_map, List.map_map] at this

theorem eq_nil {us : List Token} (h : Moved us []) : us = [] := List.map_eq_nil_iff.1 h

theorem ne_nil (h : Moved us ts) (hne : ts ≠ []) : us ≠ [] := by
  rintro rfl
  exact hne (h.symm.eq_nil)

theorem exists_cons (h : Moved us (t :: ts)) :
    ∃ n us', us = { t with position := n } :: us' ∧ Moved us' ts := by
  obtain ⟨⟨kind, text, n⟩, us', rfl, ht, hts⟩ := List.map_eq_cons_iff.1 h
  cases t
  cases ht
  exact ⟨n, us', rfl, hts⟩

theorem exists_append (h : Moved us (ts ++ ts')) :
    ∃ us₁ us₂, us = us₁ ++ us₂ ∧ Moved us₁ ts ∧ Moved us₂ ts' := by
  rw [Moved, List.map_append] at h
  exact List.map_eq_append_iff.1 h

end Moved

/-! ### Open brackets -/

/-- The number of open brackets behind tokens. -/
def depthBehind (depth : Nat) (ts : List Token) : Nat :=
  ts.foldl (fun d t => depthAfter t.kind d) depth

@[simp] theorem depthBehind_nil (n : Nat) : depthBehind n [] = n := rfl

@[simp] theorem depthBehind_cons (n : Nat) (t : Token) (ts : List Token) :
    depthBehind n (t :: ts) = depthBehind (depthAfter t.kind n) ts := rfl

@[simp] theorem depthBehind_append (n : Nat) (ts us : List Token) :
    depthBehind n (ts ++ us) = depthBehind (depthBehind n ts) us := List.foldl_append

theorem Moved.depthBehind_eq {us ts : List Token} (h : Moved us ts) (n : Nat) :
    depthBehind n us = depthBehind n ts := by
  have hkind : ∀ ts : List Token,
      (ts.map kind).foldl (fun d k => depthAfter k d) n = depthBehind n ts :=
    fun ts => List.foldl_map
  rw [← hkind, ← hkind, h.map_kind]

end Token

open Token Lexeme

/-! ### The lexemes of a text -/

/-- The text is made of the lexemes, each given by its kind and its characters. -/
inductive Lexed : List Char → List (LexemeKind × List Char) → Prop
  | nil : Lexed [] []
  | cons {cs : List Char} {l : Lexeme} {ls : List (LexemeKind × List Char)}
      (h : next? cs = some l) (hrest : Lexed l.rest ls) : Lexed cs ((l.kind, l.chars) :: ls)

/-- The tokens of lexemes behind `depth` open brackets, at no places of their own. -/
def tokens (depth : Nat) : List (LexemeKind × List Char) → List Token
  | [] => []
  | (.token k, chars) :: ls => ⟨k, String.ofList chars, 0⟩ :: tokens (depthAfter k depth) ls
  | (.lineEnd, _) :: ls =>
    if depth = 0 then ⟨.separator, "\n", 0⟩ :: tokens depth ls else tokens depth ls
  | (.comment, _) :: ls => tokens depth ls
  | (.space, _) :: ls => tokens depth ls

variable {cs ds : List Char} {ls ls' : List (LexemeKind × List Char)}

theorem tokens_append (depth : Nat) (ls ls' : List (LexemeKind × List Char)) :
    tokens depth (ls ++ ls') =
      tokens depth ls ++ tokens (depthBehind depth (tokens depth ls)) ls' := by
  induction ls generalizing depth with
  | nil => rfl
  | cons l ls ih =>
    obtain ⟨kind, chars⟩ := l
    cases kind with
    | token kind => simp [tokens, ih]
    | lineEnd =>
      by_cases h : depth = 0
      · simp [tokens, h, ih, depthAfter]
      · simp [tokens, h, ih]
    | comment | space => simp [tokens, ih]

theorem tokens_cons (depth : Nat) (l : LexemeKind × List Char)
    (ls : List (LexemeKind × List Char)) :
    tokens depth (l :: ls) = tokens depth [l] ++ tokens (depthBehind depth (tokens depth [l])) ls :=
  tokens_append depth [l] ls

theorem Lexed.eq_nil (h : Lexed [] ls) : ls = [] := by
  cases h with
  | nil => rfl
  | cons h => cases h

/-- A text is made of its lexemes in one way only. -/
theorem Lexed.unique (h : Lexed cs ls) (h' : Lexed cs ls') : ls = ls' := by
  induction h generalizing ls' with
  | nil => exact h'.eq_nil.symm
  | cons h hrest ih =>
    cases h' with
    | nil => cases h
    | cons h' hrest' =>
      cases h.symm.trans h'
      rw [ih hrest']

/-! ### Scanning -/

/-- A step of scanning takes one lexeme, which gives at most one token. -/
theorem scanFrom_next {l : Lexeme} (hl : next? cs = some l) (fuel position depth : Nat)
    (done : List Token) : ∃ us, Moved us (tokens depth [(l.kind, l.chars)]) ∧
      scanFrom (fuel + 1) position depth done cs =
        scanFrom fuel (position + l.chars.length)
          (depthBehind depth (tokens depth [(l.kind, l.chars)])) (us.reverse ++ done) l.rest := by
  cases cs with
  | nil => cases hl
  | cons c cs =>
    rw [scanFrom, hl]
    rcases hkind : l.kind with _ | _ | _ | k
    · exact ⟨[], .refl _, by simp [hkind, tokens]⟩
    · by_cases hdepth : depth = 0
      · refine ⟨[⟨.separator, "\n", position⟩], ?_, ?_⟩
        · rw [tokens, if_pos hdepth]
          rfl
        · simp [hkind, tokens, hdepth, depthAfter]
      · exact ⟨[], by rw [tokens, if_neg hdepth]; rfl, by simp [hkind, tokens, hdepth]⟩
    · exact ⟨[], .refl _, by simp [hkind, tokens]⟩
    · exact ⟨[⟨k, String.ofList l.chars, position⟩], rfl, by simp [hkind, tokens]⟩

theorem scanFrom_eq_ok {fuel position depth : Nat} {done ts : List Token}
    (hfuel : cs.length ≤ fuel) (h : scanFrom fuel position depth done cs = .ok ts) :
    ∃ ls us, Lexed cs ls ∧ ts = done.reverse ++ us ∧ Moved us (tokens depth ls) := by
  induction fuel generalizing cs position depth done with
  | zero =>
    rw [List.eq_nil_of_length_eq_zero (Nat.le_zero.1 hfuel)] at h ⊢
    cases h
    exact ⟨[], [], .nil, by simp, .refl _⟩
  | succ fuel ih =>
    cases hl : next? cs with
    | none =>
      cases cs with
      | nil =>
        cases h
        exact ⟨[], [], .nil, by simp, .refl _⟩
      | cons c cs =>
        rw [scanFrom, hl] at h
        cases h
    | some l =>
      have hlength := length_rest_lt hl
      obtain ⟨us, hus, hstep⟩ := scanFrom_next hl fuel position depth done
      rw [hstep] at h
      obtain ⟨ls, us', hls, hts, hus'⟩ := ih (by omega) h
      refine ⟨_, us ++ us', .cons hl hls, by simp [hts], ?_⟩
      rw [tokens_cons]
      exact hus.append hus'

theorem exists_scanFrom (h : Lexed cs ls) {fuel : Nat} (hfuel : cs.length ≤ fuel)
    (position depth : Nat) (done : List Token) : ∃ us,
      scanFrom fuel position depth done cs = .ok (done.reverse ++ us) ∧
        Moved us (tokens depth ls) := by
  induction h generalizing fuel position depth done with
  | nil => exact ⟨[], by cases fuel <;> simp [scanFrom], .refl _⟩
  | @cons cs l ls hl hrest ih =>
    have hlength := length_rest_lt hl
    obtain ⟨fuel, rfl⟩ : ∃ fuel', fuel = fuel' + 1 := ⟨fuel - 1, by omega⟩
    obtain ⟨us, hus, hstep⟩ := scanFrom_next hl fuel position depth done
    have hfuel' : l.rest.length ≤ fuel := by omega
    obtain ⟨us', hscan, hus'⟩ := ih hfuel' (position + l.chars.length)
      (depthBehind depth (tokens depth [(l.kind, l.chars)])) (us.reverse ++ done)
    refine ⟨us ++ us', by rw [hstep, hscan]; simp, ?_⟩
    rw [tokens_cons]
    exact hus.append hus'

/-- **The tokens of a text are those of its lexemes.** -/
theorem scan_eq_ok {text : String} {ts : List Token} (h : scan text = .ok ts) :
    ∃ ls, Lexed text.toList ls ∧ Moved ts (tokens 0 ls) := by
  obtain ⟨ls, us, hls, rfl, hus⟩ := scanFrom_eq_ok (Nat.le_of_eq String.length_toList) h
  exact ⟨ls, hls, hus⟩

/-- A text that is made of lexemes has tokens. -/
theorem exists_scan {text : String} (h : Lexed text.toList ls) :
    ∃ ts, scan text = .ok ts ∧ Moved ts (tokens 0 ls) :=
  exists_scanFrom h (Nat.le_of_eq String.length_toList) 0 0 []

/-! ### Texts behind one another -/

/-- **A line end keeps two texts apart.** -/
theorem Lexed.append_lineEnd (h : Lexed cs ls) (h' : Lexed ds ls') :
    Lexed (cs ++ '\n' :: ds) (ls ++ (.lineEnd, ['\n']) :: ls') := by
  induction h with
  | nil => exact .cons (l := ⟨.lineEnd, ['\n'], ds⟩) rfl h'
  | @cons cs l ls hl hrest ih =>
    have hne : cs ≠ [] := by
      rintro rfl
      cases hl
    have hblank : Text.isBlank '\n' = true := rfl
    rcases next?_append hblank (.inl rfl) hne with h | ⟨hn, -⟩
    · rw [hl, Option.map_some] at h
      exact .cons (l := l.before ('\n' :: ds)) h ih
    · exact absurd rfl hn

/-- White space in front of a text changes no token. -/
theorem Lexed.cons_space (h : Lexed cs ls) :
    ∃ ls', Lexed (' ' :: cs) ls' ∧ ∀ depth, tokens depth ls' = tokens depth ls := by
  have hspace : isSpace ' ' = true := rfl
  have hnext := next?_of_isSpace hspace cs
  rw [span, List.takeWhile_cons_of_pos hspace, List.dropWhile_cons_of_pos hspace] at hnext
  cases h with
  | nil => exact ⟨_, .cons hnext .nil, fun _ => rfl⟩
  | @cons _ l ls hl hrest =>
    obtain ⟨c, cs, rfl⟩ : ∃ c cs', cs = c :: cs' := by
      cases cs with
      | nil => cases hl
      | cons c cs => exact ⟨c, cs, rfl⟩
    cases hc : isSpace c with
    | true =>
      -- the text starts with white space itself
      rw [next?_of_isSpace hc] at hl
      cases hl
      exact ⟨_, .cons hnext hrest, fun _ => rfl⟩
    | false =>
      rw [List.dropWhile_cons_of_neg (by simp [hc])] at hnext
      exact ⟨_, .cons hnext (.cons hl hrest), fun _ => rfl⟩

/-- A name with an equals sign in front of a text. -/
theorem Lexed.assign (h : Lexed cs ls) (name : List Char)
    (hname : ∀ rest, next? (name ++ ' ' :: rest) = some ⟨.token .word, name, ' ' :: rest⟩) :
    ∃ ls', Lexed (name ++ ' ' :: '=' :: ' ' :: cs) ls' ∧ ∀ depth, tokens depth ls' =
      ⟨.word, String.ofList name, 0⟩ :: ⟨.operator, "=", 0⟩ :: tokens depth ls := by
  obtain ⟨ls₁, h₁, htokens⟩ := h.cons_space
  have hspace : next? (' ' :: '=' :: ' ' :: cs) = some ⟨.space, [' '], '=' :: ' ' :: cs⟩ := rfl
  have hequals : next? ('=' :: ' ' :: cs) = some ⟨.token .operator, ['='], ' ' :: cs⟩ := rfl
  refine ⟨_, .cons (hname _) (.cons hspace (.cons hequals h₁)), fun depth => ?_⟩
  simp only [tokens, depthAfter, htokens]

/-! ### Blanks around a text -/

/-- What is no token gives a separator at most. -/
theorem tokens_cons_of_ne {kind : LexemeKind} (h : ∀ k, kind ≠ .token k) (depth : Nat)
    (chars : List Char) (ls : List (LexemeKind × List Char)) :
    ∃ separators, (∀ t ∈ separators, t.kind = .separator) ∧
      tokens depth ((kind, chars) :: ls) = separators ++ tokens depth ls := by
  cases kind with
  | token k => exact absurd rfl (h k)
  | comment | space => exact ⟨[], by simp, rfl⟩
  | lineEnd =>
    by_cases hdepth : depth = 0
    · exact ⟨[⟨.separator, "\n", 0⟩], by simp, by rw [tokens, if_pos hdepth]; rfl⟩
    · exact ⟨[], by simp, by rw [tokens, if_neg hdepth]; rfl⟩

theorem dropWhile_isBlank_dropWhile (cs : List Char) :
    (cs.dropWhile isSpace).dropWhile Text.isBlank = cs.dropWhile Text.isBlank := by
  induction cs with
  | nil => rfl
  | cons c cs ih =>
    cases hc : isSpace c with
    | true =>
      rw [List.dropWhile_cons_of_pos hc, List.dropWhile_cons_of_pos (isBlank_of_isSpace hc), ih]
    | false => rw [List.dropWhile_cons_of_neg (by simp [hc])]

/-- Blanks in front of a text give nothing but separators. -/
theorem Lexed.dropWhile_isBlank (h : Lexed cs ls) (depth : Nat) :
    ∃ ls' before, Lexed (cs.dropWhile Text.isBlank) ls' ∧ (∀ t ∈ before, t.kind = .separator) ∧
      tokens depth ls = before ++ tokens depth ls' := by
  induction h with
  | nil => exact ⟨[], [], .nil, by simp, rfl⟩
  | @cons cs l ls hl hrest ih =>
    obtain ⟨c, cs, rfl⟩ : ∃ c cs', cs = c :: cs' := by
      cases cs with
      | nil => cases hl
      | cons c cs => exact ⟨c, cs, rfl⟩
    cases hb : Text.isBlank c with
    | false =>
      rw [List.dropWhile_cons_of_neg (by simp [hb])]
      exact ⟨_, [], .cons hl hrest, by simp, rfl⟩
    | true =>
      obtain ⟨ls', before, hls', hbefore, htokens⟩ := ih
      have hblank : (∀ k, l.kind ≠ .token k) ∧
          (c :: cs).dropWhile Text.isBlank = l.rest.dropWhile Text.isBlank := by
        rcases next?_of_isBlank hb hl with ⟨rfl, rfl⟩ | ⟨-, rfl⟩
        · exact ⟨nofun, List.dropWhile_cons_of_pos hb⟩
        · exact ⟨nofun, (dropWhile_isBlank_dropWhile _).symm⟩
      obtain ⟨separators, hseparators, heq⟩ := tokens_cons_of_ne hblank.1 depth l.chars ls
      refine ⟨ls', separators ++ before, hblank.2 ▸ hls', ?_, by rw [heq, htokens]; simp⟩
      exact List.forall_mem_append.2 ⟨hseparators, hbefore⟩

/-- A blank behind a text gives a separator at most. -/
theorem Lexed.of_append_singleton {c : Char} (hc : Text.isBlank c = true)
    (h : Lexed (cs ++ [c]) ls) (depth : Nat) :
    ∃ ls' after, Lexed cs ls' ∧ (∀ t ∈ after, t.kind = .separator) ∧
      tokens depth ls = tokens depth ls' ++ after := by
  generalize hcs : cs ++ [c] = cs' at h
  induction h generalizing cs depth with
  | nil => simp at hcs
  | @cons cs' l ls hl hrest ih =>
    subst hcs
    by_cases hne : cs = []
    · subst hne
      have hblank : (∀ k, l.kind ≠ .token k) ∧ l.rest = [] := by
        rcases next?_of_isBlank hc hl with ⟨-, rfl⟩ | ⟨hs, rfl⟩
        · exact ⟨nofun, rfl⟩
        · exact ⟨nofun, List.dropWhile_cons_of_pos hs⟩
      obtain rfl := (hblank.2 ▸ hrest).eq_nil
      obtain ⟨after, hafter, heq⟩ := tokens_cons_of_ne hblank.1 depth l.chars []
      exact ⟨[], after, .nil, hafter, by rw [heq]; simp [tokens]⟩
    · rcases next?_append hc (.inr rfl) hne with h | ⟨-, l₀, hl₀, hkind, hrest₀, h⟩
      · -- the blank is behind the first lexeme
        rw [hl] at h
        obtain ⟨l₀, hl₀, rfl⟩ := Option.map_eq_some_iff.1 h.symm
        obtain ⟨ls', after, hls', hafter, heq⟩ :=
          ih (depthBehind depth (tokens depth [(l₀.kind, l₀.chars)])) rfl
        refine ⟨_, after, .cons hl₀ hls', hafter, ?_⟩
        rw [tokens_cons, tokens_cons depth (l₀.kind, l₀.chars), List.append_assoc, ← heq]
        rfl
      · -- the first lexeme takes the whole text and the blank
        rw [hl] at h
        cases h
        obtain rfl := (hrest₀ ▸ hrest).eq_nil
        refine ⟨_, [], .cons hl₀ hrest, by simp, ?_⟩
        rcases hkind with hkind | hkind <;> simp [hkind, tokens]

theorem Lexed.of_append_blanks {bs : List Char} (hbs : ∀ b ∈ bs, Text.isBlank b = true)
    (h : Lexed (cs ++ bs) ls) (depth : Nat) :
    ∃ ls' after, Lexed cs ls' ∧ (∀ t ∈ after, t.kind = .separator) ∧
      tokens depth ls = tokens depth ls' ++ after := by
  induction bs using List.reverseRecOn generalizing ls with
  | nil => exact ⟨ls, [], by simpa using h, by simp, by simp⟩
  | append_singleton bs b ih =>
    obtain ⟨hbs, hb⟩ := List.forall_mem_append.1 hbs
    rw [← List.append_assoc] at h
    obtain ⟨ls₁, after₁, h₁, hafter₁, heq₁⟩ := h.of_append_singleton (by simpa using hb) depth
    obtain ⟨ls₂, after₂, h₂, hafter₂, heq₂⟩ := ih hbs h₁
    exact ⟨ls₂, after₂ ++ after₁, h₂, List.forall_mem_append.2 ⟨hafter₂, hafter₁⟩,
      by rw [heq₁, heq₂, List.append_assoc]⟩

/-- **Blanks around a text** only make a difference of separators at its two ends. -/
theorem Lexed.trim (h : Lexed cs ls) (depth : Nat) : ∃ ls' before after,
    Lexed (Text.trim Text.isBlank cs) ls' ∧ (∀ t ∈ before, t.kind = .separator) ∧
      (∀ t ∈ after, t.kind = .separator) ∧
      tokens depth ls = before ++ (tokens depth ls' ++ after) := by
  obtain ⟨ls₁, before, h₁, hbefore, heq₁⟩ := h.dropWhile_isBlank depth
  rw [Text.trim]
  generalize cs.dropWhile Text.isBlank = ds at h₁ ⊢
  -- what is dropped at the end is the last blanks
  have hds : (ds.reverse.dropWhile Text.isBlank).reverse ++
      (ds.reverse.takeWhile Text.isBlank).reverse = ds := by
    rw [← List.reverse_append, List.takeWhile_append_dropWhile, List.reverse_reverse]
  have hblanks : ∀ b ∈ (ds.reverse.takeWhile Text.isBlank).reverse, Text.isBlank b = true :=
    fun b hb => List.all_eq_true.1 List.all_takeWhile b (List.mem_reverse.1 hb)
  rw [← hds] at h₁
  obtain ⟨ls₂, after, h₂, hafter, heq₂⟩ := h₁.of_append_blanks hblanks depth
  exact ⟨ls₂, before, after, h₂, hbefore, hafter, by rw [heq₁, heq₂]⟩

end BarScript
