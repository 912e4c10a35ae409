import BarScript.Proofs.Grammar.Script

/-!
# The limits of a script

A script that derives from the grammar is refused exactly if one of its statements exceeds a limit:
it opens level 65, or the tree it stands for, with the names of earlier statements replaced, is
deeper than 100 or has more than 10000 nodes (`Program.parse_refused_iff`).  Groups, calls and signs
beside one another do not add up, as a level is one more than the level it is opened on.

The first such statement decides, with the error of `Levelled.Exceeds`: the token at which level 65
is opened first, or else the first token of the statement, the depth of the tree being looked at
before its size.
-/

namespace BarScript

namespace Grammar

open Statement Program

/-- A statement with a tree exceeds a limit, and the error that says so. -/
inductive Levelled.Exceeds (l : Levelled) (e : Expr) : ParseError → Prop
  | nesting {o : Opening} (h : l.openings.find? (fun o => o.2 = 65) = some o) :
      Exceeds l e ⟨.nesting 64, some o.1.position, some o.1.text⟩
  | depth (hlevels : ∀ o ∈ l.openings, o.2 ≠ 65) (h : 100 < e.shape.depth) :
      Exceeds l e ⟨.excess (.depth e.shape.depth), some l.first.position, some l.first.text⟩
  | size (hlevels : ∀ o ∈ l.openings, o.2 ≠ 65) (hdepth : e.shape.depth ≤ 100)
      (h : 10000 < e.shape.size) :
      Exceeds l e ⟨.excess (.size e.shape.size), some l.first.position, some l.first.text⟩

namespace Levelled

variable {l : Levelled} {e : Expr} {err : ParseError} {f : Failure}

theorem exceeding_eq_none_iff : exceeding maxNesting l.openings = none ↔
    ∀ o ∈ l.openings, o.2 ≠ 65 := by
  rw [exceeding, List.find?_eq_none]
  exact forall₂_congr fun o _ => not_congr decide_eq_true_iff

theorem exceeds_iff : (∃ err, l.Exceeds e err) ↔
    (∃ o ∈ l.openings, o.2 = 65) ∨ 100 < e.shape.depth ∨ 10000 < e.shape.size := by
  constructor
  · rintro ⟨err, h⟩
    cases h with
    | @nesting o h => exact .inl ⟨o, List.mem_of_find?_eq_some h, by simpa using List.find?_some h⟩
    | depth _ h => exact .inr (.inl h)
    | size _ _ h => exact .inr (.inr h)
  · intro h
    by_cases hlevels : ∀ o ∈ l.openings, o.2 ≠ 65
    · by_cases hdepth : 100 < e.shape.depth
      · exact ⟨_, .depth hlevels hdepth⟩
      · rcases h with ⟨o, ho, hlevel⟩ | h | h
        · exact absurd hlevel (hlevels o ho)
        · exact absurd h hdepth
        · exact ⟨_, .size hlevels (Nat.le_of_not_lt hdepth) h⟩
    · obtain ⟨o, ho⟩ := Option.ne_none_iff_exists'.1 (mt exceeding_eq_none_iff.1 hlevels)
      exact ⟨_, .nesting ho⟩

/-- A statement that exceeds a limit is refused with the error. -/
theorem Exceeds.refusal (h : l.Exceeds e err) (source : String) :
    ∃ f, l.refusal? e = some f ∧ failureIn source f = .parse err := by
  cases h with
  | @nesting o h =>
    have ho : exceeding maxNesting l.openings = some o := h
    exact ⟨_, by rw [refusal?, ho], rfl⟩
  | depth hlevels h =>
    have hx : e.shape.excess? = some (.depth e.shape.depth) := if_pos h
    exact ⟨_, by rw [refusal?, exceeding_eq_none_iff.2 hlevels, hx]; rfl, rfl⟩
  | size hlevels hdepth h =>
    have hx : e.shape.excess? = some (.size e.shape.size) :=
      (if_neg (Nat.not_lt.2 hdepth)).trans (if_pos h)
    exact ⟨_, by rw [refusal?, exceeding_eq_none_iff.2 hlevels, hx]; rfl, rfl⟩

/-- A statement that is refused exceeds a limit. -/
theorem exceeds_of_refusal (h : l.refusal? e = some f) : ∃ err, l.Exceeds e err := by
  rw [refusal?] at h
  split at h
  · rename_i o ho
    exact ⟨_, .nesting ho⟩
  · obtain ⟨x, hx, -⟩ := Option.map_eq_some_iff.1 h
    have hwithin : ¬ e.shape.Within := fun hwithin => by
      rw [Shape.excess?_eq_none_iff.2 hwithin] at hx
      cases hx
    rw [Shape.Within, not_and_or, Nat.not_le, Nat.not_le] at hwithin
    exact exceeds_iff.2 (.inr hwithin)

theorem refusal?_eq_none_iff : l.refusal? e = none ↔ ∀ err, ¬ l.Exceeds e err := by
  constructor
  · intro h err herr
    obtain ⟨f, hf, -⟩ := herr.refusal ""
    rw [h] at hf
    cases hf
  · intro h
    cases hf : l.refusal? e with
    | none => rfl
    | some f =>
      obtain ⟨err, herr⟩ := exceeds_of_refusal hf
      exact absurd herr (h err)

end Levelled

/-! ### Scripts -/

theorem derivesScript_iff_opens {ts : List Token} {ws : List Written} :
    DerivesScript ⊤ ts ws ↔ ∃ ls, OpensScript ts ls ∧ ls.map (·.written) = ws := by
  constructor
  · rintro ⟨before, body, after, rfl, hb, ha, hbody⟩
    obtain ⟨ls, hls, hws, -⟩ := hbody.opens
    exact ⟨ls, ⟨before, body, after, rfl, hb, ha, hls⟩, hws⟩
  · rintro ⟨ls, ⟨before, body, after, rfl, hb, ha, hbody⟩, rfl⟩
    exact ⟨before, body, after, rfl, hb, ha, hbody.derives⟩

theorem verdict_of_opens {ts : List Token} {ls : List Levelled} (h : OpensScript ts ls) :
    Verdict (fun _ => none) ls (statements (ts.length + 1) .empty ts) := by
  obtain ⟨before, body, after, rfl, hb, ha, hbody⟩ := h
  rw [List.append_assoc]
  exact statements_exact hbody hb ha (Nat.lt_succ_self _) reads_empty

variable {source : String} {ts : List Token} {ls : List Levelled}

theorem parse_of_refusal (hscan : Token.scan source = .ok ts) (h : OpensScript ts ls) {f : Failure}
    (hf : refusal? (fun _ => none) ls = some f) : parse source = .error (failureIn source f) := by
  have hverdict := verdict_of_opens h
  rw [Verdict, hf] at hverdict
  simp only [parse, hscan, hverdict, Except.mapError, bind, Except.bind]

theorem exists_parse_of_opens (hscan : Token.scan source = .ok ts) (h : OpensScript ts ls)
    (hnone : refusal? (fun _ => none) ls = none) : ∃ p, parse source = .ok p := by
  have hverdict := verdict_of_opens h
  rw [Verdict, hnone] at hverdict
  obtain ⟨p, hp, hread⟩ := hverdict
  -- there is a last statement, so there is a result
  obtain ⟨_, _, _, -, -, -, hbody⟩ := h
  have hne : ls.map (·.written) ≠ [] := by simpa using hbody.ne_nil
  have hresult := hread.result_eq
  rw [List.getLast?_eq_some_getLast (trees_ne_nil hne)] at hresult
  obtain ⟨i, hi, -⟩ := Option.map_eq_some_iff.1 hresult
  refine ⟨⟨source, p.graph, p.locals, i⟩, ?_⟩
  simp only [parse, hscan, hp, hi, Except.mapError, bind, Except.bind]
  rfl

/-- Negations in front of a name open a level each. -/
theorem opens_negations {n : Nat} {a : Token} (ha : IsName a) {ts : List Token}
    (h : ∀ t ∈ ts, isNot t = true) : Opens n .negated (ts ++ [a])
      (ts.foldr (fun _ e => .mk (.negation e)) (.mk (.name a.lower))) (ts.zipIdx (n + 1)) := by
  induction ts generalizing n with
  | nil =>
    have hsigned : Opens n .signed [a] (.mk (.name a.lower)) [] :=
      .unsigned (.indexed (.name ha) .nil)
    have hproduct : Opens n (.chain .product) [a] (.mk (.name a.lower)) [] := .of_operand hsigned
    exact .positive (.uncompared (.of_operand hproduct))
  | cons t ts ih =>
    rw [List.forall_mem_cons] at h
    exact .negation h.1 (ih h.2)

theorem opensScript_negations {t a : Token} (ha : IsName a) {ts : List Token}
    (h : ∀ t' ∈ t :: ts, isNot t' = true) :
    OpensScript (t :: ts ++ [a]) [⟨t, ⟨none, (t :: ts).foldr (fun _ e => .mk (.negation e))
      (.mk (.name a.lower))⟩, (t :: ts).zipIdx 2⟩] := by
  have hand : Opens 1 (.chain .and) (t :: ts ++ [a]) _ _ :=
    .of_operand (c := .and) (opens_negations ha h)
  exact ⟨[], _, [], by simp, by simp [Separators], by simp [Separators],
    .one (.plain (.of_operand hand))⟩

end Grammar

open Grammar in
/-- **A script is refused exactly if one of its statements exceeds a limit**, with the error of the
first one that does.  The tokens of a script derive from the grammar just in case they can be read
with levels. -/
theorem Program.parse_refused_iff {source : String} {ts : List Token}
    (hscan : Token.scan source = .ok ts) :
    (∀ ws, DerivesScript ⊤ ts ws ↔ ∃ ls, OpensScript ts ls ∧ ls.map (·.written) = ws) ∧
    ∀ ls, OpensScript ts ls →
      ((∃ f, parse source = .error f) ↔ ∃ s ∈ withTrees (fun _ => none) ls,
        (∃ o ∈ s.1.openings, o.2 = 65) ∨ 100 < s.2.shape.depth ∨ 10000 < s.2.shape.size) ∧
      ∀ before l e after err, withTrees (fun _ => none) ls = before ++ (l, e) :: after →
        (∀ s ∈ before, ∀ err, ¬ s.1.Exceeds s.2 err) → l.Exceeds e err →
        parse source = .error (.parse err) := by
  refine ⟨fun ws => derivesScript_iff_opens, fun ls h => ⟨?_, ?_⟩⟩
  · simp only [← Levelled.exceeds_iff]
    constructor
    · rintro ⟨f, hf⟩
      by_contra hno
      have hnone : refusal? (fun _ => none) ls = none :=
        List.findSome?_eq_none_iff.2 fun s hs =>
          Levelled.refusal?_eq_none_iff.2 fun err herr => hno ⟨s, hs, err, herr⟩
      obtain ⟨p, hp⟩ := exists_parse_of_opens hscan h hnone
      rw [hf] at hp
      cases hp
    · rintro ⟨s, hs, err, herr⟩
      obtain ⟨f, hf, -⟩ := herr.refusal source
      obtain ⟨f', hf'⟩ : ∃ f', refusal? (fun _ => none) ls = some f' := by
        refine Option.ne_none_iff_exists'.1 fun hnone => ?_
        rw [List.findSome?_eq_none_iff.1 hnone s hs] at hf
        cases hf
      exact ⟨_, parse_of_refusal hscan h hf'⟩
  · intro before l e after err heq hbefore herr
    obtain ⟨f, hf, hfailure⟩ := herr.refusal source
    have hrefusal : refusal? (fun _ => none) ls = some f := by
      refine List.findSome?_eq_some_iff.2 ⟨before, (l, e), after, heq, hf, fun s hs => ?_⟩
      exact Levelled.refusal?_eq_none_iff.2 (hbefore s hs)
    rw [parse_of_refusal hscan h hrefusal, hfailure]

open Grammar in
/-- Behind 63 negations a name is read at level 64; the 64th one would open level 65. -/
theorem Program.parse_refused_iff_negations :
    let source (n : Nat) := String.ofList (List.replicate n '!' ++ ['a'])
    let bangs (n : Nat) : List Token := (List.range n).map fun i => ⟨.operator, "!", i⟩
    (Token.scan (source 63) = .ok (bangs 63 ++ [⟨.word, "a", 63⟩]) ∧
      ∃ p, parse (source 63) = .ok p) ∧
    Token.scan (source 64) = .ok (bangs 64 ++ [⟨.word, "a", 64⟩]) ∧
      parse (source 64) = .error (.parse ⟨.nesting 64, some 63, some "!"⟩) := by
  intro source bangs
  have hbangs : ∀ n, ∀ t ∈ bangs n, Statement.isNot t = true := by
    intro n t ht
    obtain ⟨i, -, rfl⟩ := List.mem_map.1 ht
    rfl
  have hname : ∀ n, IsName ⟨.word, "a", n⟩ := fun _ =>
    ⟨rfl, show "a".toLower ∉ Token.keywords by decide +kernel⟩
  have hscan : Token.scan (source 63) = .ok (bangs 63 ++ [⟨.word, "a", 63⟩]) := by decide +kernel
  have hscan' : Token.scan (source 64) = .ok (bangs 64 ++ [⟨.word, "a", 64⟩]) := by
    decide +kernel
  refine ⟨⟨hscan, ?_⟩, hscan', ?_⟩
  · have hiff := ((parse_refused_iff hscan).2 _ (opensScript_negations (hname 63) (hbangs 63))).1
    cases hp : parse (source 63) with
    | ok p => exact ⟨p, rfl⟩
    | error f =>
      obtain ⟨s, hs, h⟩ := hiff.1 ⟨f, hp⟩
      cases List.mem_singleton.1 hs
      exact absurd h (by decide +kernel)
  · exact ((parse_refused_iff hscan').2 _ (opensScript_negations (hname 64) (hbangs 64))).2 []
      _ _ [] _ rfl (by simp) (.nesting (o := (⟨.operator, "!", 63⟩, 65)) rfl)

end BarScript
