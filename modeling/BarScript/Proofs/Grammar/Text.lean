import BarScript.Proofs.Grammar.Layout
import BarScript.Text.Blank

/-!
# Reading a text by its lexemes

A text that is made of lexemes is accepted if and only if the tokens of the lexemes are read in two
steps, and then its names and its result stand for the trees of its statements
(`Program.exists_parse_iff`).  Blanks around the text do not matter to its statements
(`Lexed.strip`, `Program.exists_parse_strip_iff`).

`Program.parse_respelled` : neither does the way in which the tokens of a text are spelled.
-/

namespace BarScript

open Grammar Token Program

variable {source : String} {ls : List (LexemeKind × List Char)} {ws : List Written} {p : Program}

/-- Blanks around a text belong to no statement. -/
theorem Lexed.strip (h : Lexed source.toList ls) : ∃ ls', Lexed (Text.strip source).toList ls' ∧
    statementTokens (tokens 0 ls') = statementTokens (tokens 0 ls) := by
  obtain ⟨ls', before, after, hls', hbefore, hafter, heq⟩ := h.trim 0
  refine ⟨ls', by rwa [Text.strip, String.toList_ofList], ?_⟩
  rw [heq, statementTokens_separators_append hbefore, statementTokens_append_separators _ hafter]

/-- A text with a statement is not blank. -/
theorem Lexed.strip_not_isEmpty (h : Lexed source.toList ls)
    (hne : statementTokens (tokens 0 ls) ≠ []) : (Text.strip source).isEmpty = false := by
  obtain ⟨ls', hls', heq⟩ := h.strip
  rw [← heq] at hne
  rw [Bool.eq_false_iff]
  intro hempty
  rw [String.isEmpty_iff.1 hempty] at hls'
  exact hne (by rw [hls'.eq_nil]; rfl)

/-- What has been read in a program. -/
def Program.toPartial (p : Program) : Partial := ⟨p.graph, p.locals, some p.result⟩

/-- **A program that has been read** stands for the trees of its statements. -/
theorem Program.reads_of_parse (hls : Lexed source.toList ls) (h : parse source = .ok p) :
    ∃ ws, InTwoSteps (tokens 0 ls) ws (trees (fun _ => none) ws) ∧
      Reads p.toPartial (bindings (fun _ => none) ws) (trees (fun _ => none) ws).getLast? := by
  obtain ⟨ts, q, hts, hq, -, hgraph, hlocals, hresult⟩ := parse_eq_ok_iff.1 h
  obtain ⟨ls', hls', hmoved⟩ := scan_eq_ok hts
  obtain rfl := hls.unique hls'
  obtain ⟨ws, es, hsteps⟩ := inTwoSteps_of_statements hq (by rw [hresult]; rfl)
  obtain rfl := hsteps.inlined.eq_trees
  obtain ⟨q', hq', hread⟩ := hsteps.reads
  cases hq.symm.trans hq'
  refine ⟨ws, hsteps.moved hmoved.symm, ?_⟩
  rw [bindings_eq_latest, toPartial, hgraph, hlocals, ← hresult]
  exact hread

/-- **A text whose statements can be read** is a program. -/
theorem Program.exists_parse (hls : Lexed source.toList ls)
    (h : InTwoSteps (tokens 0 ls) ws (trees (fun _ => none) ws)) :
    ∃ p, parse source = .ok p ∧
      Reads p.toPartial (bindings (fun _ => none) ws) (trees (fun _ => none) ws).getLast? := by
  obtain ⟨ts, hts, hmoved⟩ := exists_scan hls
  obtain ⟨q, hq, hread⟩ := (h.moved hmoved).reads
  obtain ⟨e, he⟩ : ∃ e, (trees (fun _ => none) ws).getLast? = some e :=
    ⟨_, List.getLast?_eq_some_getLast (trees_ne_nil h.ne_nil)⟩
  obtain ⟨result, hresult, -⟩ := Option.map_eq_some_iff.1 (hread.result_eq.trans he)
  refine ⟨⟨source, q.graph, q.locals, result⟩,
    parse_eq_ok_iff.2 ⟨ts, q, hts, hq, rfl, rfl, rfl, hresult⟩, ?_⟩
  rw [bindings_eq_latest, toPartial, ← hresult]
  exact hread

/-- **A text is read by its lexemes**: what holds of the trees of its statements holds of the
program, and the other way round. -/
theorem Program.exists_parse_iff (hls : Lexed source.toList ls)
    (P : Bindings → Option Expr → Prop) :
    (∃ p, parse source = .ok p ∧
        P (fun symbol => (p.local? symbol).map Formula.expr) (some (p.formula p.result).expr)) ↔
      ∃ ws, InTwoSteps (tokens 0 ls) ws (trees (fun _ => none) ws) ∧
        P (bindings (fun _ => none) ws) (trees (fun _ => none) ws).getLast? := by
  have hexpr : ∀ {p : Program} {env : Bindings} {result : Option Expr},
      Reads p.toPartial env result → (fun symbol => (p.local? symbol).map Formula.expr) = env ∧
        some (p.formula p.result).expr = result := by
    intro p env result h
    refine ⟨?_, h.result_eq⟩
    funext symbol
    rw [← h.locals_eq symbol, local?, Option.map_map]
    rfl
  constructor
  · rintro ⟨p, hp, h⟩
    obtain ⟨ws, hsteps, hread⟩ := reads_of_parse hls hp
    rw [(hexpr hread).1, (hexpr hread).2] at h
    exact ⟨ws, hsteps, h⟩
  · rintro ⟨ws, hsteps, h⟩
    obtain ⟨p, hp, hread⟩ := exists_parse hls hsteps
    rw [← (hexpr hread).1, ← (hexpr hread).2] at h
    exact ⟨p, hp, h⟩

/-- So it is with any blanks around the text. -/
theorem Program.exists_parse_strip_iff (hls : Lexed source.toList ls)
    (P : Bindings → Option Expr → Prop) :
    ((Text.strip source).isEmpty = false ∧ ∃ p, parse (Text.strip source) = .ok p ∧
        P (fun symbol => (p.local? symbol).map Formula.expr) (some (p.formula p.result).expr)) ↔
      ∃ ws, InTwoSteps (tokens 0 ls) ws (trees (fun _ => none) ws) ∧
        P (bindings (fun _ => none) ws) (trees (fun _ => none) ws).getLast? := by
  obtain ⟨ls', hls', hstrip⟩ := hls.strip
  rw [exists_parse_iff hls']
  constructor
  · rintro ⟨-, ws, hsteps, h⟩
    exact ⟨ws, hsteps.of_statementTokens_eq hstrip.symm, h⟩
  · rintro ⟨ws, hsteps, h⟩
    exact ⟨hls.strip_not_isEmpty hsteps.statementTokens_ne_nil, ws,
      hsteps.of_statementTokens_eq hstrip, h⟩

/-! ### Texts that mean the same -/

/-- Two programs with the same names and the same trees for these and for the result. -/
structure Program.SameMeaning (p q : Program) : Prop where
  local_eq : ∀ symbol, (p.local? symbol).map Formula.expr = (q.local? symbol).map Formula.expr
  result_eq : (p.formula p.result).expr = (q.formula q.result).expr

/-- A text is accepted, and means the same, if its statements are those of an accepted one. -/
theorem Program.exists_sameMeaning {source' : String} {ls' : List (LexemeKind × List Char)}
    (hls : Lexed source.toList ls) (hls' : Lexed source'.toList ls')
    (h : ∀ ws es, InTwoSteps (tokens 0 ls) ws es → InTwoSteps (tokens 0 ls') ws es)
    (hp : parse source = .ok p) : ∃ q, parse source' = .ok q ∧ SameMeaning p q := by
  let P : Bindings → Option Expr → Prop := fun env last =>
    (fun symbol => (p.local? symbol).map Formula.expr) = env ∧
      some (p.formula p.result).expr = last
  obtain ⟨ws, hsteps, hP⟩ := (exists_parse_iff hls P).1 ⟨p, hp, rfl, rfl⟩
  obtain ⟨q, hq, hlocal, hresult⟩ := (exists_parse_iff hls' P).2 ⟨ws, h _ _ hsteps, hP⟩
  exact ⟨q, hq, congrFun hlocal, Option.some.inj hresult⟩

/-- **Layout, the case of letters and the spelling of operators do not matter.**  Of two texts whose
tokens are spelled alike both are accepted or none is, and both mean the same then.  A text that is
accepted also means the same without the blanks around it. -/
theorem Program.parse_respelled (source : String) :
    (∀ source' ts us, Token.scan source = .ok ts → Token.scan source' = .ok us →
      spelled ts = spelled us →
      ((∃ p, parse source = .ok p) ↔ ∃ q, parse source' = .ok q) ∧
        ∀ p q, parse source = .ok p → parse source' = .ok q → SameMeaning p q) ∧
    ∀ p, parse source = .ok p → ∃ q, parse (Text.strip source) = .ok q ∧ SameMeaning p q := by
  constructor
  · intro source' ts us hts hus heq
    obtain ⟨ls, hls, hmoved⟩ := scan_eq_ok hts
    obtain ⟨ls', hls', hmoved'⟩ := scan_eq_ok hus
    have hto : ∀ ws es, InTwoSteps (tokens 0 ls) ws es → InTwoSteps (tokens 0 ls') ws es :=
      fun ws es h => ((h.moved hmoved).of_spelled_eq heq.symm).moved hmoved'.symm
    have hfrom : ∀ ws es, InTwoSteps (tokens 0 ls') ws es → InTwoSteps (tokens 0 ls) ws es :=
      fun ws es h => ((h.moved hmoved').of_spelled_eq heq).moved hmoved.symm
    refine ⟨⟨fun ⟨p, hp⟩ => ?_, fun ⟨q, hq⟩ => ?_⟩, fun p q hp hq => ?_⟩
    · obtain ⟨q, hq, -⟩ := exists_sameMeaning hls hls' hto hp
      exact ⟨q, hq⟩
    · obtain ⟨p, hp, -⟩ := exists_sameMeaning hls' hls hfrom hq
      exact ⟨p, hp⟩
    · obtain ⟨q', hq', hsame⟩ := exists_sameMeaning hls hls' hto hp
      cases hq.symm.trans hq'
      exact hsame
  · intro p hp
    obtain ⟨ts, -, hts, -⟩ := parse_eq_ok_iff.1 hp
    obtain ⟨ls, hls, -⟩ := scan_eq_ok hts
    obtain ⟨ls', hls', hstrip⟩ := hls.strip
    exact exists_sameMeaning hls hls' (fun ws es h => h.of_statementTokens_eq hstrip) hp

/-- The script `a=x && !y` behind an empty line, and in words. -/
theorem Program.parse_respelled_words :
    let a : Token := ⟨.word, "a", 1⟩
    let x : Token := ⟨.word, "x", 3⟩
    let y : Token := ⟨.word, "y", 9⟩
    let ts : List Token := [⟨.separator, "\n", 0⟩, a, ⟨.operator, "=", 2⟩, x,
      ⟨.operator, "&&", 5⟩, ⟨.operator, "!", 8⟩, y]
    let us : List Token := [⟨.word, "A", 0⟩, ⟨.operator, "=", 1⟩, ⟨.word, "X", 2⟩,
      ⟨.word, "AND", 4⟩, ⟨.word, "not", 8⟩, ⟨.word, "Y", 12⟩, ⟨.separator, ";", 13⟩]
    Token.scan "\na=x && !y" = .ok ts ∧ Token.scan "A=X AND not Y;" = .ok us ∧
      spelled ts = spelled us ∧ ∃ p, parse "\na=x && !y" = .ok p ∧
        (∃ q, parse "A=X AND not Y;" = .ok q ∧ SameMeaning p q) ∧
        ∃ q, parse (Text.strip "\na=x && !y") = .ok q ∧ SameMeaning p q := by
  intro a x y ts us
  have hts : Token.scan "\na=x && !y" = .ok ts := rfl
  have hus : Token.scan "A=X AND not Y;" = .ok us := rfl
  have hlower : ("a".toLower = "a" ∧ "x".toLower = "x" ∧ "y".toLower = "y") ∧
      ("A".toLower = "a" ∧ "X".toLower = "x" ∧ "Y".toLower = "y") ∧
      "AND".toLower = "and" ∧ "not".toLower = "not" := by decide +kernel
  have heq : spelled ts = spelled us := by
    simp [spelled, single, skipSeparators, List.rdropWhile, spelling, lower, synonyms,
      List.lookup_cons, ts, us, a, x, y, hlower]
  have hname : ∀ {d : ℕ∞} {t : Token}, IsName t → Derives d .negated [t] (.mk (.name t.lower)) :=
    fun ht => .positive (.uncompared (.of_operand (c := .sum) (.of_operand (c := .product)
      (.unsigned (.indexed (.name ht) .nil)))))
  have ha : IsName a := ⟨rfl, by decide +kernel⟩
  have hx : IsName x := ⟨rfl, by decide +kernel⟩
  have hy : IsName y := ⟨rfl, by decide +kernel⟩
  have hnot := Derives.negation (d := 62) (t := ⟨.operator, "!", 8⟩) rfl (hname hy)
  have hand := Derives.chain (c := .and) (hname hx)
    (.cons (t := ⟨.operator, "&&", 5⟩) rfl hnot .nil)
  have halone := (DerivesStatement.assign (e := ⟨.operator, "=", 2⟩) ha rfl
    (.of_operand (c := .or) hand)).readsAlone
  have hsteps : InTwoSteps ts _ _ :=
    ⟨by simp, .cons halone .nil, inlined_trees _, by decide +kernel⟩
  obtain ⟨p, hp⟩ := (parse_inlined _).2 _ _ _ hts hsteps
  obtain ⟨hspelled, hstrip⟩ := parse_respelled "\na=x && !y"
  obtain ⟨hiff, hsame⟩ := hspelled _ ts us hts hus heq
  obtain ⟨q, hq⟩ := hiff.1 ⟨p, hp⟩
  exact ⟨hts, hus, heq, p, hp, ⟨q, hq, hsame p q hp hq⟩, hstrip p hp⟩

end BarScript
