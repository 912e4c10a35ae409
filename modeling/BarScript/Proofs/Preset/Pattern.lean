import BarScript.Proofs.Preset.Parts
import BarScript.Proofs.Session.Combined

/-!
# What a filled template is compiled to

The pattern of a template is the tree that it is read as with the names of the parameters in its
places (`Template.IsPattern`).  Filled with numbers or words a template is compiled to its pattern
with their leaves in the place of these names, and to nothing else (`Pattern.compile_iff`).

Whether a template has a pattern for which this holds is computed (`Template.pattern?`).
-/

namespace BarScript

open Grammar Token

/-! ### One statement -/

/-- The tree of tokens that are read as one statement without a name. -/
def readAlone? (ts : List Token) : Option Expr :=
  match Statement.target ts with
  | .ok (none, us) =>
    match Statement.expression us with
    | .ok (e, []) => some e
    | _ => none
  | _ => none

theorem readsAlone_of_readAlone? {ts : List Token} {e : Expr} (h : readAlone? ts = some e) :
    ReadsAlone ts ⟨none, e⟩ := by
  unfold readAlone? at h
  split at h
  · rename_i us htarget
    split at h
    · rename_i hexpr
      cases h
      exact readsAlone_iff.2 ⟨us, htarget, hexpr⟩
    · cases h
  · cases h

/-- Tokens in the place of names replace the names in the tree that is read. -/
theorem Grammar.ReadsAlone.filled {leaves : Leaves} {ts us : List Token} {e : Expr}
    (h : ReadsAlone ts ⟨none, e⟩) (hk : KeepsCalls leaves ts) (hu : Filled leaves us ts) :
    ReadsAlone us ⟨none, e.subst leaves⟩ := by
  have hfilled : ∀ {d}, DerivesStatement d ts ⟨none, e⟩ →
      DerivesStatement d us ⟨none, e.subst leaves⟩
    | _, .plain h => .plain (h.filled hk hu)
  exact (hfilled h.derives).readsAlone

/-- A text of one statement is read as its tree, which has to be within the limits. -/
theorem Grammar.ReadsAlone.inTwoSteps_iff {ts : List Token} {e : Expr} (h : ReadsAlone ts ⟨none, e⟩)
    {ws : List Written} : InTwoSteps ts ws (trees (fun _ => none) ws) ↔
      ws = [⟨none, e⟩] ∧ e.shape.Within := by
  have htree : trees (fun _ => none) [⟨none, e⟩] = [e] := by simp [trees]
  constructor
  · rintro ⟨-, halone, -, hwithin⟩
    rw [h.statementTokens_eq] at halone
    obtain rfl := forall₂_readsAlone_unique halone (.cons h .nil)
    exact ⟨rfl, hwithin e (by simp [htree])⟩
  · rintro ⟨rfl, hwithin⟩
    refine ⟨by simp, ?_, inlined_trees _, by simpa [htree] using hwithin⟩
    rw [h.statementTokens_eq]
    exact .cons h .nil

/-- A script of one statement is compiled to its tree, if this is within the limits and its names
mean something. -/
theorem Rule.compile_iff_of_readsAlone {script : String} {ls : List (LexemeKind × List Char)}
    (hls : Lexed script.toList ls) {e e' : Expr} (h : ReadsAlone (tokens 0 ls) ⟨none, e⟩) :
    (∃ r, compile script = .ok r ∧ r.formula.expr = e') ↔
      e' = e ∧ e.shape.Within ∧ e.checkNames = .ok () := by
  rw [compile_iff hls]
  simp only [h.inTwoSteps_iff]
  constructor
  · rintro ⟨_, ⟨rfl, hwithin⟩, hlast, hnames⟩
    simp only [trees, Expr.subst_none, List.getLast?_singleton, Option.some.injEq] at hlast
    subst hlast
    exact ⟨rfl, hwithin, hnames⟩
  · rintro ⟨rfl, hwithin, hnames⟩
    exact ⟨_, ⟨rfl, hwithin⟩, by simp [trees], hnames⟩

/-- Leaves in the place of names do not change the shape. -/
theorem Expr.shape_subst {leaves : Leaves} (hleaves : ∀ s x, leaves s = some x → x.shape = ⟨1, 1⟩)
    (e : Expr) : (e.subst leaves).shape = e.shape := by
  induction e using Expr.node_induction with
  | h n ih =>
    by_cases hn : ∃ s, n = .name s
    · obtain ⟨s, rfl⟩ := hn
      rw [subst_name]
      cases hs : leaves s with
      | none => rfl
      | some x => exact hleaves s x hs
    · rw [subst_mk _ fun s heq => hn ⟨s, heq⟩, shape, shape, fold_mk, fold_mk, Node.map_map]
      congr 1
      exact Node.map_congr ih

/-- Leaves in the place of parameters do not change the shape. -/
theorem Expr.shape_placeLeaves {parameters : List String} {fillings : String → Filling}
    (hf : ∀ q ∈ parameters, (fillings q).Proper) (e : Expr) :
    (e.subst (placeLeaves parameters fillings)).shape = e.shape := by
  refine shape_subst (fun s x hx => ?_) e
  unfold placeLeaves at hx
  split at hx
  · cases hx
    exact (hf s ‹_›).isLeaf
  · cases hx

/-! ### Patterns -/

namespace Template

/-- The tree of a template whose places have the names of their parameters. -/
def IsPattern (t : Template) (e : Expr) : Prop :=
  ∃ p, Program.parse (t.fill id) = .ok p ∧ (p.formula p.result).expr = e

/-- The pattern of a template whose places can be told apart from its names. -/
structure Pattern (parameters : List String) (t : Template) (ps : List Part) (e : Expr) : Prop where
  parts : t.parts? = some ps
  words : ∀ q ∈ parameters, IsWord q ∧ q.toLower = q
  apart : ps.all (Part.isApart parameters) = true
  keepsCalls : (partTokens Filling.word ps).IsChain fun t next =>
    next.kind = .openParen → t.lower ∉ parameters
  reads : readAlone? (partTokens Filling.word ps) = some e
  within : e.shape.Within

/-- The pattern of a template, if it has one. -/
def pattern? (parameters : List String) (t : Template) : Option Expr := do
  let ps ← t.parts?
  let e ← readAlone? (partTokens Filling.word ps)
  if (∀ q ∈ parameters, IsWord q ∧ q.toLower = q) ∧ ps.all (Part.isApart parameters) = true ∧
      ((partTokens Filling.word ps).IsChain fun t next =>
        next.kind = .openParen → t.lower ∉ parameters) ∧ e.shape.Within then some e
  else none

theorem exists_pattern {parameters : List String} {t : Template} {e : Expr}
    (h : t.pattern? parameters = some e) : ∃ ps, Pattern parameters t ps e := by
  obtain ⟨ps, hps, h⟩ := Option.bind_eq_some_iff.1 h
  obtain ⟨x, hx, h⟩ := Option.bind_eq_some_iff.1 h
  split at h
  · rename_i hall
    cases h
    exact ⟨ps, hps, hall.1, hall.2.1, hall.2.2.1, hx, hall.2.2.2⟩
  · cases h

namespace Pattern

variable {parameters : List String} {t : Template} {ps : List Part} {e : Expr}

theorem mem_of_place (h : Pattern parameters t ps e) {q : String} (hq : .place q ∈ ps) :
    q ∈ parameters :=
  of_decide_eq_true (List.all_eq_true.1 h.apart _ hq)

/-- What a filled template is read as. -/
theorem readsAlone (h : Pattern parameters t ps e) {fillings : String → Filling}
    (hf : ∀ q ∈ parameters, (fillings q).Proper) :
    ReadsAlone (partTokens fillings ps) ⟨none, e.subst (placeLeaves parameters fillings)⟩ := by
  have hkeeps : KeepsCalls (placeLeaves parameters fillings) (partTokens Filling.word ps) :=
    h.keepsCalls.imp fun t next hcall ho => if_neg (hcall ho)
  exact (readsAlone_of_readAlone? h.reads).filled hkeeps (filled_partTokens h.apart h.words hf)

theorem lexed (h : Pattern parameters t ps e) {fillings : String → Filling}
    (hf : ∀ q ∈ parameters, (fillings q).Proper) :
    Lexed (t.fill fun q => (fillings q).text).toList (ps.map (Part.fill fillings)) ∧
      tokens 0 (ps.map (Part.fill fillings)) = partTokens fillings ps :=
  ⟨lexed_fill h.parts fun q hq => hf q (h.mem_of_place hq),
    tokens_fill (Option.filter_eq_some_iff.1 h.parts).2 fillings 0⟩

theorem isPattern (h : Pattern parameters t ps e) : t.IsPattern e := by
  have hproper : ∀ q ∈ parameters, (Filling.word q).Proper := fun q hq =>
    Filling.proper_word (h.words q hq).1
  obtain ⟨hls, htokens⟩ := h.lexed hproper
  have hreads := readsAlone_of_readAlone? h.reads
  rw [← htokens] at hreads
  have hsteps := hreads.inTwoSteps_iff.2 ⟨rfl, h.within⟩
  obtain ⟨p, hp, hexpr⟩ := (Program.exists_parse_iff hls fun _ last => last = some e).2
    ⟨_, hsteps, by simp [trees]⟩
  exact ⟨p, hp, Option.some.inj hexpr⟩

/-- **A filled template is compiled to its pattern** with the leaves of the fillings in the place of
the names of the parameters. -/
theorem compile_iff (h : Pattern parameters t ps e) {fillings : String → Filling}
    (hf : ∀ q ∈ parameters, (fillings q).Proper) {e' : Expr} :
    (∃ r, Rule.compile (t.fill fun q => (fillings q).text) = .ok r ∧ r.formula.expr = e') ↔
      e' = e.subst (placeLeaves parameters fillings) ∧
        (e.subst (placeLeaves parameters fillings)).checkNames = .ok () := by
  obtain ⟨hls, htokens⟩ := h.lexed hf
  rw [Rule.compile_iff_of_readsAlone hls (htokens ▸ h.readsAlone hf), Expr.shape_placeLeaves hf]
  simp only [h.within, true_and]

/-- A filled template can be read. -/
theorem exists_parse (h : Pattern parameters t ps e) {fillings : String → Filling}
    (hf : ∀ q ∈ parameters, (fillings q).Proper) {script : String}
    (hscript : script = t.fill fun q => (fillings q).text) :
    (Text.strip script).isEmpty = false ∧ ∃ p, Program.parse (Text.strip script) = .ok p := by
  subst hscript
  obtain ⟨hls, htokens⟩ := h.lexed hf
  have hsteps := (htokens ▸ h.readsAlone hf).inTwoSteps_iff.2
    ⟨rfl, Expr.shape_placeLeaves hf e ▸ h.within⟩
  obtain ⟨hempty, p, hp, -⟩ :=
    (Program.exists_parse_strip_iff hls fun _ _ => True).2 ⟨_, hsteps, trivial⟩
  exact ⟨hempty, p, hp⟩

end Pattern

end Template

end BarScript
