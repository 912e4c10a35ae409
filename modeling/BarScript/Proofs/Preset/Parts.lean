import BarScript.Preset.Template
import BarScript.Proofs.Grammar.Filled
import BarScript.Proofs.Token.Filled

/-!
# The parts of a template

A template is made of lexemes and of places for numbers (`Part`).  Whatever number or word stands in
a place, the filled template is made of the same lexemes around it (`Template.lexed_fill`), provided
that no text between two places starts or ends in a character that goes on with a word.  That is
checked where the parts are computed (`Template.parts?`).

So a template has the same tokens with its places filled as with the names of the parameters in
them, but for those in the places (`filled_partTokens`).
-/

namespace BarScript

open Grammar Lexeme Token

/-! ### Parts -/

/-- A lexeme of a template, or the place of a parameter. -/
inductive Part where
  | lexeme (kind : LexemeKind) (chars : List Char)
  | place (parameter : String)
  deriving DecidableEq

/-- A token for a place, and the leaf that it is read as. -/
structure Filling where
  kind : TokenKind
  text : String
  leaf : Expr

namespace Filling

/-- The token is one wherever it stands, and is read as the leaf. -/
structure Proper (f : Filling) : Prop where
  isToken : IsToken f.kind f.text.toList
  derives : ∀ d, Derives d .primary [⟨f.kind, f.text, 0⟩] f.leaf
  isLeaf : f.leaf.shape = ⟨1, 1⟩

/-- A name in a place. -/
def word (text : String) : Filling := ⟨.word, text, .mk (.name text.toLower)⟩

/-- A double in a place: a finite one is a number there, and any other one a name. -/
def double (x : Float) : Filling :=
  match Number.kindOf x with
  | .finite _ => ⟨.number, Number.scriptText x, .mk (.number x)⟩
  | _ => word (Number.scriptText x)

end Filling

/-- A text that is a name wherever it stands. -/
structure IsWord (text : String) : Prop where
  starts : text.toList.head?.any startsWord = true
  continues : text.toList.all continuesWord = true
  not_keyword : text.toLower ∉ Token.keywords

instance (text : String) : Decidable (IsWord text) :=
  decidable_of_iff (text.toList.head?.any startsWord = true ∧
      text.toList.all continuesWord = true ∧ text.toLower ∉ Token.keywords)
    ⟨fun h => ⟨h.1, h.2.1, h.2.2⟩, fun h => ⟨h.starts, h.continues, h.not_keyword⟩⟩

namespace Filling

theorem proper_word {text : String} (h : IsWord text) : (word text).Proper where
  isToken := by
    refine isToken_word ?_ (List.all_eq_true.1 h.continues)
    have hstarts := h.starts
    cases htext : text.toList with
    | nil => simp [htext] at hstarts
    | cons c ds => exact ⟨c, ds, htext, by simpa [htext] using hstarts⟩
  derives _ := .name ⟨rfl, h.not_keyword⟩
  isLeaf := rfl

theorem text_double (x : Float) : (double x).text = Number.scriptText x := by
  unfold double
  split <;> rfl

theorem double_of_finite {x : Float} {v : Number.Exact} (h : Number.kindOf x = .finite v) :
    double x = ⟨.number, Number.scriptText x, .mk (.number x)⟩ := by
  rw [double, h]

theorem double_of_infinite {x : Float} (h : Number.kindOf x = .infinite false) :
    double x = word "Infinity" := by
  simp [double, Number.scriptText, Number.chars, Number.scriptLiteral, h]

theorem double_of_nan {x : Float} (h : Number.kindOf x = .nan) : double x = word "NaN" := by
  simp [double, Number.scriptText, Number.chars, Number.scriptLiteral, h]

theorem leaf_double {x : Float} (hx : Number.IsPositive x) : (double x).leaf = .mk (.number x) := by
  obtain ⟨v, hk, -⟩ := hx
  rw [double_of_finite hk]

/-- What is above zero, or is no number, can stand in a place. -/
theorem proper_double {x : Float} (hx : Number.PassesAsPositive x) : (double x).Proper := by
  rcases hx with hx | hx | hx
  · have hread : Statement.literal ⟨.number, Number.scriptText x, 0⟩ = x := by
      rw [Statement.literal, (Numeral.float?_scriptText hx).2, Option.getD_some]
    obtain ⟨v, hk, -⟩ := id hx
    rw [double_of_finite hk]
    refine ⟨isToken_scriptText hx, fun d => ?_, rfl⟩
    have hnumber : Derives d .primary _ _ := .number (t := ⟨.number, Number.scriptText x, 0⟩) rfl
    rwa [hread] at hnumber
  · rw [double_of_infinite hx]
    exact proper_word (by decide +kernel)
  · rw [double_of_nan hx]
    exact proper_word (by decide +kernel)

end Filling

namespace Part

/-- The lexeme that a part gives. -/
def fill (fillings : String → Filling) : Part → LexemeKind × List Char
  | .lexeme k chars => (k, chars)
  | .place q => (.token (fillings q).kind, (fillings q).text.toList)

/-- The token that a part gives. -/
def token? (fillings : String → Filling) : Part → Option Token
  | .lexeme (.token k) chars => some ⟨k, String.ofList chars, 0⟩
  | .lexeme _ _ => none
  | .place q => some ⟨(fillings q).kind, (fillings q).text, 0⟩

/-- A lexeme that ends in front of every word, and is no line end. -/
def isClosed : Part → Bool
  | .lexeme k _ => k = .space ∨ k = .token .word ∨ k = .token .number ∨ k = .token .operator ∨
      k = .token .openParen ∨ k = .token .closeParen ∨ k = .token .openBracket ∨
      k = .token .closeBracket ∨ k = .token .comma
  | .place _ => true

end Part

/-- The tokens of parts, the places being filled. -/
def partTokens (fillings : String → Filling) (ps : List Part) : List Token :=
  ps.filterMap (Part.token? fillings)

theorem tokens_fill {ps : List Part} (h : ps.all Part.isClosed = true)
    (fillings : String → Filling) (depth : Nat) :
    tokens depth (ps.map (Part.fill fillings)) = partTokens fillings ps := by
  induction ps generalizing depth with
  | nil => rfl
  | cons p ps ih =>
    rw [List.all_cons, Bool.and_eq_true] at h
    rw [List.map_cons, partTokens, List.filterMap_cons]
    cases p with
    | place q =>
      simp only [Part.fill, tokens, Part.token?, String.ofList_toList, ih h.2]
      rfl
    | lexeme kind chars =>
      cases kind with
      | token k =>
        simp only [Part.fill, tokens, Part.token?, ih h.2]
        rfl
      | space =>
        simp only [Part.fill, tokens, Part.token?, ih h.2]
        rfl
      | comment | lineEnd => exact absurd h.1 (by simp [Part.isClosed])

/-! ### Places and names -/

/-- A part that tells places and names apart: a place is one of a parameter, and a word is none. -/
def Part.isApart (parameters : List String) : Part → Bool
  | .place q => q ∈ parameters
  | .lexeme k chars => k = .token .word → (String.ofList chars).toLower ∉ parameters

/-- What the names of the parameters stand for. -/
def placeLeaves (parameters : List String) (fillings : String → Filling) : Leaves := fun s =>
  if s ∈ parameters then some (fillings s).leaf else none

/-- **Filled places are in the places of names.** -/
theorem filled_partTokens {parameters : List String} {ps : List Part}
    (hps : ps.all (Part.isApart parameters) = true)
    (hwords : ∀ q ∈ parameters, IsWord q ∧ q.toLower = q) {fillings : String → Filling}
    (hf : ∀ q ∈ parameters, (fillings q).Proper) :
    Filled (placeLeaves parameters fillings) (partTokens fillings ps)
      (partTokens Filling.word ps) := by
  induction ps with
  | nil => exact .nil
  | cons p ps ih =>
    rw [List.all_cons, Bool.and_eq_true] at hps
    cases p with
    | place q =>
      have hq : q ∈ parameters := of_decide_eq_true hps.1
      obtain ⟨hword, hlower⟩ := hwords q hq
      have hleaf : placeLeaves parameters fillings q.toLower = some (fillings q).leaf := by
        rw [hlower]
        exact if_pos hq
      exact .cons (.leaf (t := ⟨.word, q, 0⟩) ⟨rfl, hword.not_keyword⟩ hleaf (hf q hq).derives)
        (ih hps.2)
    | lexeme k chars =>
      cases k with
      | space | comment | lineEnd => exact ih hps.2
      | token k =>
        refine .cons (.same (t := ⟨k, String.ofList chars, 0⟩) fun hname => ?_) (ih hps.2)
        exact if_neg (of_decide_eq_true hps.1 (congrArg LexemeKind.token hname.1))

/-! ### Lexemes of a text -/

/-- The lexemes of a text. -/
def lexemes? : Nat → List Char → Option (List (LexemeKind × List Char))
  | _, [] => some []
  | 0, _ :: _ => none
  | fuel + 1, c :: cs =>
    (next? (c :: cs)).bind fun l => (lexemes? fuel l.rest).map ((l.kind, l.chars) :: ·)

theorem lexed_of_lexemes? {fuel : Nat} {cs : List Char} {ls : List (LexemeKind × List Char)}
    (h : lexemes? fuel cs = some ls) : Lexed cs ls := by
  induction fuel generalizing cs ls with
  | zero =>
    cases cs with
    | nil => cases h; exact .nil
    | cons => cases h
  | succ fuel ih =>
    cases cs with
    | nil => cases h; exact .nil
    | cons c cs =>
      obtain ⟨l, hl, h⟩ := Option.bind_eq_some_iff.1 h
      obtain ⟨ls, hls, rfl⟩ := Option.map_eq_some_iff.1 h
      exact .cons hl (ih hls)

/-! ### Templates -/

/-- A text and the parameter whose place is behind it. -/
abbrev Segment := List Char × String

namespace Template

/-- The texts with a place behind them, and the text behind the last place. -/
def segments (front : List Char) : Template → List Segment × List Char
  | [] => ([], front)
  | .text s :: rest => segments (front ++ s.toList) rest
  | .slot q :: rest => ((front, q) :: (segments [] rest).1, (segments [] rest).2)

/-- The text of segments with filled places. -/
def segmentChars (value : String → List Char) (tail : List Char) : List Segment → List Char
  | [] => tail
  | (front, q) :: more => front ++ (value q ++ segmentChars value tail more)

theorem segmentChars_segments (value : String → String) (t : Template) (front : List Char) :
    segmentChars (fun q => (value q).toList) (t.segments front).2 (t.segments front).1 =
      front ++ (t.fill value).toList := by
  induction t generalizing front with
  | nil => simp [segments, segmentChars, fill]
  | cons p t ih =>
    cases p with
    | text s =>
      rw [segments, ih]
      simp [fill, pieceValue]
    | slot q =>
      rw [segments, segmentChars, ih]
      simp [fill, pieceValue]

/-- What is behind a place stops it: the next text, or the one at the end. -/
def isStopped (tail : List Char) : List Segment → Bool
  | [] => tail.head?.all fun c => EndsWord c
  | (front, _) :: _ => front.head?.any fun c => EndsWord c

/-- The parts of segments, if they can be told apart from what is filled in. -/
def segmentParts? (tail : List Char) : List Segment → Option (List Part)
  | [] => (lexemes? tail.length tail).map (·.map fun l => .lexeme l.1 l.2)
  | (front, q) :: more => do
    let ls ← lexemes? front.length front
    let ps ← segmentParts? tail more
    if isStopped tail more && front.getLast?.all fun c => EndsWord c then
      some (ls.map (fun l => .lexeme l.1 l.2) ++ .place q :: ps)
    else none

/-- The parts of a template. -/
def parts? (t : Template) : Option (List Part) :=
  (segmentParts? (t.segments []).2 (t.segments []).1).filter fun ps => ps.all Part.isClosed

theorem map_fill_lexeme (fillings : String → Filling) (ls : List (LexemeKind × List Char)) :
    (ls.map fun l => Part.lexeme l.1 l.2).map (Part.fill fillings) = ls := by
  rw [List.map_map]
  exact List.map_id ls

theorem stops_segmentChars {tail : List Char} {segments : List Segment}
    (h : isStopped tail segments = true) (value : String → List Char) :
    Stops (segmentChars value tail segments) := by
  intro c hc
  cases segments with
  | nil =>
    rw [segmentChars] at hc
    rw [isStopped, Option.mem_def.1 hc] at h
    exact of_decide_eq_true h
  | cons s more =>
    obtain ⟨front, q⟩ := s
    cases front with
    | nil => cases h
    | cons d front =>
      cases hc
      exact of_decide_eq_true h

/-- **A template is made of its parts**, whatever fills its places. -/
theorem lexed_segmentChars {tail : List Char} {segments : List Segment} {ps : List Part}
    (h : segmentParts? tail segments = some ps) (hclosed : ps.all Part.isClosed = true)
    {fillings : String → Filling} (hf : ∀ q, .place q ∈ ps → (fillings q).Proper) :
    Lexed (segmentChars (fun q => (fillings q).text.toList) tail segments)
      (ps.map (Part.fill fillings)) := by
  induction segments generalizing ps with
  | nil =>
    obtain ⟨ls, hls, rfl⟩ := Option.map_eq_some_iff.1 h
    rw [map_fill_lexeme]
    exact lexed_of_lexemes? hls
  | cons s more ih =>
    obtain ⟨front, q⟩ := s
    obtain ⟨ls, hls, h⟩ := Option.bind_eq_some_iff.1 h
    obtain ⟨ps, hps, h⟩ := Option.bind_eq_some_iff.1 h
    split at h
    · rename_i hapart
      cases h
      rw [Bool.and_eq_true] at hapart
      simp only [List.all_append, List.all_cons, Bool.and_eq_true] at hclosed
      have hplace := (hf q (by simp)).isToken
      have hrest := ih hps hclosed.2.2 fun q hq => hf q (by simp [hq])
      have hlexed := hplace.lexed (stops_segmentChars hapart.1 _) hrest
      obtain ⟨d, ds, hd, hcontinues⟩ := hplace.starts
      rw [segmentChars]
      simp only [hd, List.cons_append] at hlexed ⊢
      rw [List.map_append, map_fill_lexeme, List.map_cons, Part.fill, hd]
      refine (lexed_of_lexemes? hls).append_cons ?_ ?_ hcontinues hlexed
      · intro l hl
        have := List.all_eq_true.1 hclosed.1 _ (List.mem_map_of_mem hl)
        obtain ⟨kind, chars⟩ := l
        constructor <;> rintro rfl <;> simp [Part.isClosed] at this
      · intro c hc
        rw [Option.mem_def.1 hc] at hapart
        exact of_decide_eq_true hapart.2
    · cases h

theorem lexed_fill {t : Template} {ps : List Part} (h : t.parts? = some ps)
    {fillings : String → Filling} (hf : ∀ q, .place q ∈ ps → (fillings q).Proper) :
    Lexed (t.fill fun q => (fillings q).text).toList (ps.map (Part.fill fillings)) := by
  obtain ⟨hps, hclosed⟩ := Option.filter_eq_some_iff.1 h
  have hlexed := lexed_segmentChars hps hclosed hf
  rwa [segmentChars_segments, List.nil_append] at hlexed

end Template

end BarScript
