import BarScript.Proofs.Token.Pattern

/-!
# The tokens of a text cover it

`Partition cs ts` says how the tokens `ts` cover the text `cs`: they stand behind one another, what
is between them is blank (`Gap`), and none of them could be longer.  If there are no tokens, the
text is split into lexemes up to the character that is reported, and no further (`Stuck`).

`Scanned` is one pass over the text, a lexeme at a time, and the properties of a partition are
inductions on it; that each lexeme is the longest one where it stands (`Lexeme.longest_next?`)
carries what is said about single tokens.
-/

namespace BarScript

open Token Lexeme

namespace Token

/-- The position behind a token. -/
def stop (t : Token) : Nat := t.position + t.text.length

/-- The position behind tokens that start at a position. -/
def stopBehind (position : Nat) (ts : List Token) : Nat := ts.foldl (fun _ t => t.stop) position

/-- The position in front of tokens that end at a position. -/
def startOf (position : Nat) : List Token → Nat
  | [] => position
  | t :: _ => t.position

end Token

variable {cs : List Char} {ts : List Token} {t : Token} {l : Lexeme} {n depth : Nat}

/-! ### The partition of a text -/

/-- The text goes on as another text behind white space, comments up to the ends of their lines
and, if some bracket is open, line ends. -/
inductive Gap (depth : Nat) : List Char → List Char → Prop
  | nil (cs : List Char) : Gap depth cs cs
  | space {c : Char} {cs rest : List Char} (hc : c = ' ' ∨ c = '\t' ∨ c = '\r')
      (h : Gap depth cs rest) : Gap depth (c :: cs) rest
  | lineEnd {cs rest : List Char} (hdepth : 0 < depth) (h : Gap depth cs rest) :
      Gap depth ('\n' :: cs) rest
  | comment {body cs rest : List Char} (hbody : '\n' ∉ body) (hend : ∀ c ∈ cs.head?, c = '\n')
      (h : Gap depth cs rest) : Gap depth ('/' :: '/' :: body ++ cs) rest

/-- A token is the longest lexeme where it stands, of its kind or a line end. -/
def LexemeAt (cs : List Char) (t : Token) : Prop :=
  ∃ kind, Longest kind t.text.toList (cs.drop t.position) ∧
    (kind = .token t.kind ∨ kind = .lineEnd ∧ t.kind = .separator)

/-- The tokens are a partition of the text. -/
structure Partition (cs : List Char) (ts : List Token) : Prop where
  lexemes : ∀ t ∈ ts, LexemeAt cs t
  stands : ∀ t ∈ ts, t.text ≠ "" ∧ StandsAt t.text.toList cs t.position
  ordered : ts.Pairwise fun t u => t.position < u.position ∧ t.stop ≤ u.position
  /-- What is in front of the tokens, between them and behind them. -/
  gaps : ∀ before after, ts = before ++ after →
    Gap (depthBehind 0 before) (cs.drop (stopBehind 0 before)) (cs.drop (startOf cs.length after))
  /-- A line end is a separator where no bracket is open, and only there. -/
  lineEnds : ∀ n, cs[n]? = some '\n' →
    (⟨.separator, "\n", n⟩ ∈ ts ↔ depthBehind 0 (ts.filter (·.position < n)) = 0)
  /-- Where an operator stands there is no longer one that begins with it, and no comment. -/
  operators : ∀ t ∈ ts, t.kind = .operator →
    (∀ s ∈ symbols, StandsAt s.1 cs t.position → t.text.toList <+: s.1 → s.1 = t.text.toList) ∧
      (t.text = "/" → ¬ StandsAt ['/', '/'] cs t.position)
  words : ∀ t ∈ ts, t.kind = .word →
    ∀ c ∈ (cs.drop t.stop).head?, c.isAlphanum = false ∧ c ≠ '_'
  numbers : ∀ t ∈ ts, t.kind = .number → ∀ c ∈ (cs.drop t.stop).head?, Text.isDigit c = false

/-- The text starts with the pieces, each the longest lexeme where it stands. -/
inductive Splits : List Char → List (List Char) → List Char → Prop
  | nil (cs : List Char) : Splits cs [] cs
  | cons {kind : LexemeKind} {piece cs rest : List Char} {pieces : List (List Char)}
      (h : Longest kind piece (piece ++ cs)) (hrest : Splits cs pieces rest) :
      Splits (piece ++ cs) (piece :: pieces) rest

/-- The text is split into lexemes up to a character that no lexeme starts with, and the error has
the character and its position.  The text cannot be split any further. -/
def Stuck (cs : List Char) (e : ParseError) : Prop :=
  ∃ pieces c rest, Splits cs pieces (c :: rest) ∧
    (∀ kind chars, Matches kind chars → ¬ chars <+: c :: rest) ∧
    (∀ pieces' rest', Splits cs pieces' rest' → pieces' <+: pieces) ∧
    e = ⟨.unexpectedCharacter c, some pieces.flatten.length, some (String.ofList [c])⟩

/-- What splitting a text gives: a partition of the text, or where it cannot be split. -/
def Tokenized (cs : List Char) : Except ParseError (List Token) → Prop
  | .ok ts => Partition cs ts
  | .error e => Stuck cs e

/-! ### Splitting -/

/-- Where no lexeme starts, a text is split no further. -/
theorem Splits.isPrefix {rest rest' : List Char} {pieces pieces' : List (List Char)}
    (h : Splits cs pieces rest) (hstuck : ∀ kind chars, Matches kind chars → ¬ chars <+: rest)
    (h' : Splits cs pieces' rest') : pieces' <+: pieces := by
  induction h generalizing pieces' with
  | nil cs =>
    cases h' with
    | nil => exact List.nil_prefix
    | cons h' => exact absurd h'.isPrefix (hstuck _ _ h'.isMatch)
  | @cons kind piece cs rest pieces h hrest ih =>
    generalize hds : piece ++ cs = ds at h h'
    cases h' with
    | nil => exact List.nil_prefix
    | cons h' hrest' =>
      obtain rfl := h.unique h'
      obtain rfl := List.append_cancel_left hds
      exact List.cons_prefix_cons.2 ⟨rfl, ih hstuck hrest'⟩

theorem Splits.next? {rest : List Char} {pieces : List (List Char)} (hl : next? cs = some l)
    (hrest : Splits l.rest pieces rest) : Splits cs (l.chars :: pieces) rest := by
  have hcs := (starts_next? hl).chars_append_rest
  have h := longest_next? hl
  rw [← hcs] at h ⊢
  exact .cons h hrest

theorem splits_of_scanFrom {fuel : Nat} {done : List Token} {e : ParseError}
    (h : scanFrom fuel n depth done cs = .error e) : ∃ pieces c rest,
      Splits cs pieces (c :: rest) ∧ Lexeme.next? (c :: rest) = none ∧
      e = ⟨.unexpectedCharacter c, some (n + pieces.flatten.length), some (String.ofList [c])⟩ := by
  induction fuel generalizing cs n depth done with
  | zero => cases cs <;> cases h
  | succ fuel ih =>
    cases hl : Lexeme.next? cs with
    | none =>
      cases cs with
      | nil => cases h
      | cons c cs =>
        rw [scanFrom, hl] at h
        cases h
        exact ⟨[], c, cs, .nil _, hl, rfl⟩
    | some l =>
      obtain ⟨depth', us, -, hstep⟩ := scanFrom_lexeme hl fuel n depth done
      rw [hstep] at h
      obtain ⟨pieces, c, rest, hsplits, hnone, rfl⟩ := ih h
      refine ⟨l.chars :: pieces, c, rest, hsplits.next? hl, hnone, ?_⟩
      rw [List.flatten_cons, List.length_append, Nat.add_assoc]

theorem stuck_of_scanFrom {fuel : Nat} {done : List Token} {e : ParseError}
    (h : scanFrom fuel 0 depth done cs = .error e) : Stuck cs e := by
  obtain ⟨pieces, c, rest, hsplits, hnone, rfl⟩ := splits_of_scanFrom h
  have hstuck : ∀ kind chars, Matches kind chars → ¬ chars <+: c :: rest :=
    fun kind chars hm => not_matches_of_next? hnone hm
  exact ⟨pieces, c, rest, hsplits, hstuck, fun _ _ h' => hsplits.isPrefix hstuck h', by simp⟩

/-! ### Scanning -/

/-- A lexeme that is no token behind `depth` open brackets. -/
def Lexeme.Skips (l : Lexeme) (depth : Nat) : Prop :=
  l.kind = .comment ∨ l.kind = .space ∨ l.kind = .lineEnd ∧ 0 < depth

/-- A lexeme that is a token behind `depth` open brackets. -/
structure Lexeme.Yields (l : Lexeme) (depth : Nat) (t : Token) : Prop where
  chars : t.text.toList = l.chars
  kind : l.kind = .token t.kind ∨ l.kind = .lineEnd ∧ t.kind = .separator ∧ depth = 0

/-- A step of scanning leaves a lexeme out or gives a token. -/
theorem scanFrom_step (hl : next? cs = some l) (fuel n depth : Nat) (done : List Token) :
    (l.Skips depth ∧ scanFrom (fuel + 1) n depth done cs =
      scanFrom fuel (n + l.chars.length) depth done l.rest) ∨
    ∃ t : Token, l.Yields depth t ∧ t.position = n ∧ scanFrom (fuel + 1) n depth done cs =
      scanFrom fuel (n + l.chars.length) (depthAfter t.kind depth) (t :: done) l.rest := by
  cases cs with
  | nil => cases hl
  | cons c cs =>
    simp only [scanFrom, hl]
    cases hkind : l.kind with
    | comment => exact .inl ⟨.inl hkind, rfl⟩
    | space => exact .inl ⟨.inr (.inl hkind), rfl⟩
    | lineEnd =>
      by_cases hdepth : depth = 0
      · refine .inr ⟨⟨.separator, "\n", n⟩, ⟨?_, .inr ⟨hkind, rfl, hdepth⟩⟩, rfl, ?_⟩
        · simp [chars_of_lineEnd hl hkind]
        · simp [hdepth, depthAfter]
      · exact .inl ⟨.inr (.inr ⟨hkind, Nat.pos_of_ne_zero hdepth⟩), by simp [hdepth]⟩
    | token kind =>
      exact .inr ⟨⟨kind, String.ofList l.chars, n⟩, ⟨by simp, .inl hkind⟩, rfl, rfl⟩

/-- The tokens that a pass over the text gives from a position on, where `depth` brackets are
open. -/
inductive Scanned (cs : List Char) : Nat → Nat → List Token → Prop
  | nil {n depth : Nat} (hn : cs.drop n = []) : Scanned cs n depth []
  | skip {n depth : Nat} {ts : List Token} {l : Lexeme} (hl : next? (cs.drop n) = some l)
      (hskips : l.Skips depth) (hrest : Scanned cs (n + l.chars.length) depth ts) :
      Scanned cs n depth ts
  | token {n depth : Nat} {ts : List Token} {t : Token} {l : Lexeme}
      (hl : next? (cs.drop n) = some l) (hyields : l.Yields depth t) (hn : t.position = n)
      (hrest : Scanned cs t.stop (depthAfter t.kind depth) ts) : Scanned cs n depth (t :: ts)

theorem drop_of_next? (hl : next? (cs.drop n) = some l) :
    cs.drop (n + l.chars.length) = l.rest := by
  rw [← List.drop_drop, ← (starts_next? hl).chars_append_rest, List.drop_left]

theorem Lexeme.Yields.stop_eq (h : l.Yields depth t) : t.stop = t.position + l.chars.length := by
  rw [stop, ← h.chars, String.length_toList]

theorem scanned_of_scanFrom {fuel : Nat} {done : List Token} (hfuel : (cs.drop n).length ≤ fuel)
    (h : scanFrom fuel n depth done (cs.drop n) = .ok ts) :
    ∃ us, Scanned cs n depth us ∧ ts = done.reverse ++ us := by
  induction fuel generalizing n depth done with
  | zero =>
    have hnil := List.eq_nil_of_length_eq_zero (Nat.le_zero.1 hfuel)
    rw [hnil] at h
    cases h
    exact ⟨[], .nil hnil, by simp⟩
  | succ fuel ih =>
    cases hl : next? (cs.drop n) with
    | none =>
      cases hcs : cs.drop n with
      | nil =>
        rw [hcs] at h
        cases h
        exact ⟨[], .nil hcs, by simp⟩
      | cons c rest =>
        rw [hcs] at h hl
        rw [scanFrom, hl] at h
        cases h
    | some l =>
      have hlength := length_rest_lt hl
      have hrest := drop_of_next? hl
      rcases scanFrom_step hl fuel n depth done with ⟨hskips, hstep⟩ | ⟨t, hyields, hn, hstep⟩
      · rw [hstep, ← hrest] at h
        obtain ⟨us, hus, hts⟩ := ih (by rw [hrest]; omega) h
        exact ⟨us, .skip hl hskips hus, hts⟩
      · rw [hstep, ← hrest] at h
        obtain ⟨us, hus, hts⟩ := ih (by rw [hrest]; omega) h
        rw [← hn, ← hyields.stop_eq] at hus
        exact ⟨t :: us, .token hl hyields hn hus, by simp [hts]⟩

/-! ### Single tokens -/

theorem lexemeAt_of_yields (hl : next? (cs.drop t.position) = some l) (h : l.Yields depth t) :
    LexemeAt cs t := by
  refine ⟨l.kind, h.chars ▸ longest_next? hl, ?_⟩
  rcases h.kind with hkind | ⟨hkind, hseparator, -⟩
  · exact .inl hkind
  · exact .inr ⟨hkind, hseparator⟩

namespace LexemeAt

theorem standsAt (h : LexemeAt cs t) : t.text ≠ "" ∧ StandsAt t.text.toList cs t.position := by
  obtain ⟨kind, hlongest, -⟩ := h
  have hne := hlongest.isMatch.ne_nil
  have hlength := hlongest.isPrefix.length_le
  have hpos := List.length_pos_iff.2 hne
  rw [List.length_drop] at hlength
  refine ⟨fun hempty => hne (by simp [hempty]), by omega, hlongest.isPrefix⟩

theorem longest (h : LexemeAt cs t) (hkind : t.kind ≠ .separator) :
    Longest (.token t.kind) t.text.toList (cs.drop t.position) := by
  obtain ⟨kind, hlongest, rfl | ⟨-, hseparator⟩⟩ := h
  · exact hlongest
  · exact absurd hseparator hkind

theorem operators (h : LexemeAt cs t) (hkind : t.kind = .operator) :
    (∀ s ∈ symbols, StandsAt s.1 cs t.position → t.text.toList <+: s.1 → s.1 = t.text.toList) ∧
      (t.text = "/" → ¬ StandsAt ['/', '/'] cs t.position) := by
  have hlongest := h.longest (by simp [hkind])
  refine ⟨fun s hs hstands hbegins => ?_, fun hslash hstands => ?_⟩
  · have hle := hlongest.length_le _ _ (.symbol hs) hstands.isPrefix
    exact (hbegins.eq_of_length (Nat.le_antisymm hbegins.length_le hle)).symm
  · have hle := hlongest.length_le _ _ (.comment List.not_mem_nil) hstands.isPrefix
    simp [hslash] at hle

/-- The character behind a token does not go on with it. -/
theorem not_matches_concat (h : LexemeAt cs t) (hkind : t.kind ≠ .separator) {c : Char}
    (hc : c ∈ (cs.drop t.stop).head?) : Matches (.token t.kind) t.text.toList ∧
      ¬ Matches (.token t.kind) (t.text.toList ++ [c]) := by
  have hlongest := h.longest hkind
  refine ⟨hlongest.isMatch, hlongest.not_matches_concat ?_ _⟩
  rwa [List.drop_drop, String.length_toList]

theorem words (h : LexemeAt cs t) (hkind : t.kind = .word) {c : Char}
    (hc : c ∈ (cs.drop t.stop).head?) : c.isAlphanum = false ∧ c ≠ '_' := by
  obtain ⟨hm, hnot⟩ := h.not_matches_concat (by simp [hkind]) hc
  rw [hkind] at hm hnot
  have hword : continuesWord c = false :=
    Bool.eq_false_iff.2 fun hcontinues => hnot (hm.word_concat hcontinues)
  rw [continuesWord_eq, Bool.or_eq_false_iff, beq_eq_false_iff_ne] at hword
  exact hword

theorem numbers (h : LexemeAt cs t) (hkind : t.kind = .number) {c : Char}
    (hc : c ∈ (cs.drop t.stop).head?) : Text.isDigit c = false := by
  obtain ⟨hm, hnot⟩ := h.not_matches_concat (by simp [hkind]) hc
  rw [hkind] at hm hnot
  exact Bool.eq_false_iff.2 fun hdigit => hnot (hm.number_concat hdigit)

end LexemeAt

/-! ### Gaps -/

namespace Gap

variable {ds es rest : List Char}

theorem trans (h : Gap depth cs ds) (h' : Gap depth ds es) : Gap depth cs es := by
  induction h with
  | nil => exact h'
  | space hc _ ih => exact .space hc (ih h')
  | lineEnd hdepth _ ih => exact .lineEnd hdepth (ih h')
  | comment hbody hend _ ih => exact .comment hbody hend (ih h')

theorem spaces (hcs : ∀ c ∈ cs, isSpace c = true) (rest : List Char) :
    Gap depth (cs ++ rest) rest := by
  induction cs with
  | nil => exact .nil rest
  | cons c cs ih =>
    rw [List.forall_mem_cons] at hcs
    exact .space (by simpa [isSpace, or_assoc] using hcs.1) (ih hcs.2)

end Gap

theorem Lexeme.Skips.gap (hskips : l.Skips depth) (hl : next? cs = some l) :
    Gap depth cs l.rest := by
  have hlongest := longest_next? hl
  have hcs := (starts_next? hl).chars_append_rest
  have hm := hlongest.isMatch
  rcases hskips with hkind | hkind | ⟨hkind, hdepth⟩
  · -- a comment goes on to the end of its line
    rw [hkind] at hm
    generalize hchars : l.chars = chars at hm
    cases hm with
    | @comment body hbody =>
      rw [← hcs, hchars]
      refine .comment hbody (fun c hc => ?_) (.nil l.rest)
      by_contra hne
      have hbehind : c ∈ (cs.drop l.chars.length).head? := by rwa [← hcs, List.drop_left]
      have hlonger : Matches .comment ('/' :: '/' :: (body ++ [c])) :=
        .comment (by simp [hbody, Ne.symm hne])
      have hnot := hlongest.not_matches_concat hbehind .comment
      rw [hchars] at hnot
      exact hnot hlonger
  · rw [hkind] at hm
    generalize hchars : l.chars = chars at hm
    cases hm with
    | space hne hspaces =>
      rw [← hcs, hchars]
      exact .spaces hspaces l.rest
  · rw [← hcs, chars_of_lineEnd hl hkind]
    exact .lineEnd hdepth (.nil l.rest)

/-! ### A pass over the text -/

namespace Scanned

theorem le_position (h : Scanned cs n depth ts) : ∀ t ∈ ts, n ≤ t.position := by
  induction h with
  | nil => simp
  | skip hl hskips hrest ih => exact fun t ht => Nat.le_of_add_right_le (ih t ht)
  | @token n depth ts t l hl hyields hn hrest ih =>
    refine List.forall_mem_cons.2 ⟨hn.ge, fun u hu => ?_⟩
    have hstop := ih u hu
    rw [hyields.stop_eq, hn] at hstop
    exact Nat.le_of_add_right_le hstop

theorem lexemeAt (h : Scanned cs n depth ts) : ∀ t ∈ ts, LexemeAt cs t := by
  induction h with
  | nil => simp
  | skip hl hskips hrest ih => exact ih
  | token hl hyields hn hrest ih =>
    subst hn
    exact List.forall_mem_cons.2 ⟨lexemeAt_of_yields hl hyields, ih⟩

theorem ordered (h : Scanned cs n depth ts) :
    ts.Pairwise fun t u => t.position < u.position ∧ t.stop ≤ u.position := by
  induction h with
  | nil => exact .nil
  | skip hl hskips hrest ih => exact ih
  | @token n depth ts t l hl hyields hn hrest ih =>
    refine .cons (fun u hu => ?_) ih
    have hstop := hrest.le_position u hu
    have hpos := List.length_pos_iff.2 (starts_next? hl).chars_ne_nil
    rw [hyields.stop_eq] at hstop ⊢
    omega

/-- What is in front of the first token is blank. -/
theorem gap (h : Scanned cs n depth ts) :
    Gap depth (cs.drop n) (cs.drop (startOf cs.length ts)) := by
  induction h with
  | nil hn =>
    rw [hn, startOf, List.drop_length]
    exact .nil []
  | skip hl hskips hrest ih =>
    rw [drop_of_next? hl] at ih
    exact (hskips.gap hl).trans ih
  | token hl hyields hn hrest ih =>
    rw [startOf, hn]
    exact .nil _

theorem tail (h : Scanned cs n depth (t :: ts)) :
    Scanned cs t.stop (depthAfter t.kind depth) ts := by
  generalize hts : t :: ts = us at h
  induction h with
  | nil => cases hts
  | skip hl hskips hrest ih => exact ih hts
  | token hl hyields hn hrest ih =>
    cases hts
    exact hrest

theorem behind {after : List Token} (before : List Token)
    (h : Scanned cs n depth (before ++ after)) :
    Scanned cs (stopBehind n before) (depthBehind depth before) after := by
  induction before generalizing n depth with
  | nil => exact h
  | cons t before ih => exact ih h.tail

/-- A line end inside of a lexeme is the whole lexeme. -/
theorem lineEnd_of_getElem? {m : Nat} (hl : next? (cs.drop n) = some l) (hm : cs[m]? = some '\n')
    (hn : n ≤ m) (hlt : m < n + l.chars.length) :
    m = n ∧ l.kind = .lineEnd ∧ l.chars = ['\n'] := by
  obtain ⟨k, rfl⟩ := Nat.exists_eq_add_of_le hn
  have hk : k < l.chars.length := by omega
  rw [← List.getElem?_drop, ← (starts_next? hl).chars_append_rest, List.getElem?_append_left hk]
    at hm
  obtain ⟨hkind, hchars⟩ := (matches_next? hl).of_mem_lineEnd (List.mem_of_getElem? hm)
  rw [hchars, List.length_singleton] at hk
  exact ⟨by omega, hkind, hchars⟩

/-- A pass from a position on gives no tokens in front of it. -/
theorem filter_position (h : Scanned cs n depth ts) {m : Nat} (hm : m ≤ n) :
    ts.filter (·.position < m) = [] :=
  List.filter_eq_nil_iff.2 fun t ht => by simpa using hm.trans (h.le_position t ht)

theorem lineEnds (h : Scanned cs n depth ts) {m : Nat} (hn : n ≤ m) (hm : cs[m]? = some '\n') :
    ⟨.separator, "\n", m⟩ ∈ ts ↔ depthBehind depth (ts.filter (·.position < m)) = 0 := by
  induction h with
  | @nil n depth hnil =>
    have hlength : cs.length ≤ m := (List.drop_eq_nil_iff.1 hnil).trans hn
    rw [List.getElem?_eq_none hlength] at hm
    cases hm
  | @skip n depth ts l hl hskips hrest ih =>
    by_cases hlt : m < n + l.chars.length
    · -- some bracket is open
      obtain ⟨rfl, hkind, -⟩ := lineEnd_of_getElem? hl hm hn hlt
      have hdepth : 0 < depth := by simpa [Lexeme.Skips, hkind] using hskips
      rw [hrest.filter_position hlt.le, depthBehind_nil]
      refine iff_of_false (fun hmem => ?_) hdepth.ne'
      exact Nat.not_lt.2 (hrest.le_position _ hmem) hlt
    · exact ih (Nat.le_of_not_lt hlt)
  | @token n depth ts t l hl hyields hposition hrest ih =>
    by_cases hlt : m < n + l.chars.length
    · -- the line end is the token
      obtain ⟨rfl, hkind, hchars⟩ := lineEnd_of_getElem? hl hm hn hlt
      obtain ⟨hseparator, hdepth⟩ : t.kind = .separator ∧ depth = 0 := by
        simpa [hkind] using hyields.kind
      have htext : t.text = "\n" := String.toList_injective (hyields.chars.trans hchars)
      have ht : t = ⟨.separator, "\n", m⟩ := by rw [← hseparator, ← htext, ← hposition]
      rw [(Scanned.token hl hyields hposition hrest).filter_position le_rfl, depthBehind_nil]
      exact iff_of_true (ht ▸ List.mem_cons_self) hdepth
    · have hstop : t.stop ≤ m := by
        rw [hyields.stop_eq, hposition]
        exact Nat.le_of_not_lt hlt
      have hbefore : t.position < m := by
        have hpos := List.length_pos_iff.2 (starts_next? hl).chars_ne_nil
        omega
      have hne : ⟨.separator, "\n", m⟩ ≠ t := by
        rintro rfl
        exact Nat.lt_irrefl m hbefore
      rw [List.mem_cons, or_iff_right hne, List.filter_cons_of_pos (by simpa using hbefore),
        depthBehind_cons]
      exact ih hstop

end Scanned

theorem Scanned.partition (h : Scanned cs 0 0 ts) : Partition cs ts where
  lexemes := h.lexemeAt
  stands t ht := (h.lexemeAt t ht).standsAt
  ordered := h.ordered
  gaps := by
    rintro before after rfl
    exact (h.behind before).gap
  lineEnds m hm := h.lineEnds (Nat.zero_le m) hm
  operators t ht hkind := (h.lexemeAt t ht).operators hkind
  words t ht hkind _ hc := (h.lexemeAt t ht).words hkind hc
  numbers t ht hkind _ hc := (h.lexemeAt t ht).numbers hkind hc

/-- **Scanning splits a text into its tokens**, with blanks between them, or says where the text
cannot be split. -/
theorem scan_tokenized (script : String) : Tokenized script.toList (scan script) := by
  cases h : scan script with
  | error e => exact stuck_of_scanFrom h
  | ok ts =>
    have hfuel : (script.toList.drop 0).length ≤ script.length := by
      rw [List.drop_zero, String.length_toList]
    obtain ⟨us, hus, rfl⟩ := scanned_of_scanFrom hfuel h
    exact hus.partition

end BarScript
