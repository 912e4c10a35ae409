import BarScript.Proofs.Grammar.Sides
import BarScript.Proofs.Session.Pair
import BarScript.Proofs.Session.Sharing

/-!
# One script for both sides and two scripts

Rules may be written as one script that assigns `buy` and `sell` on its last two lines, or as two
scripts whose last lines are the two expressions.  Behind the same statements the two ways compile
the same rules (`Rules.ofCombined_iff_compile`).

Each expression is read alone (`readsAlone_append_iff`, `readsAlone_sides_iff`), its names stand for
the same trees, and the limits hold for each statement on its own.  Only the second expression of
the one script has a name more that stands for a tree, which is `buy`; it is not used if the tokens
have it in front of parentheses only.
-/

namespace BarScript

open Grammar Token Program

/-! ### The texts -/

/-- A text of statements that can be read, or of none. -/
structure Precedes (text : String) (ls : List (LexemeKind × List Char)) (ws : List Written) :
    Prop where
  lexed : Lexed text.toList ls
  reads : List.Forall₂ ReadsAlone (statementTokens (tokens 0 ls)) ws
  within : ∀ e ∈ trees (fun _ => none) ws, e.shape.Within

theorem exists_precedes {text : String} (h : text = "" ∨ ∃ p, parse text = .ok p) :
    ∃ ls ws, Precedes text ls ws := by
  rcases h with rfl | ⟨p, hp⟩
  · exact ⟨[], [], .nil, .nil, by simp [trees]⟩
  · obtain ⟨ts, -, hts, -⟩ := parse_eq_ok_iff.1 hp
    obtain ⟨ls, hls, -⟩ := scan_eq_ok hts
    obtain ⟨ws, hsteps, -⟩ := reads_of_parse hls hp
    exact ⟨ls, ws, hls, hsteps.alone, hsteps.within⟩

namespace Precedes

variable {T B S : String} {tls bls sls : List (LexemeKind × List Char)} {ws : List Written}

theorem depthBehind_eq (h : Precedes T tls ws) : depthBehind 0 (tokens 0 tls) = 0 :=
  depthBehind_of_forall_readsAlone (allRead_of_forall₂ h.reads) 0

/-- The statements of a text with another text on the next line. -/
theorem exists_lexed (h : Precedes T tls ws) {text : List Char} {ls : List (LexemeKind × List Char)}
    (hls : Lexed text ls) : ∃ ls', Lexed (T.toList ++ '\n' :: text) ls' ∧
      statementTokens (tokens 0 ls') =
        statementTokens (tokens 0 tls) ++ statementTokens (tokens 0 ls) := by
  refine ⟨_, h.lexed.append_lineEnd hls, ?_⟩
  rw [tokens_append, h.depthBehind_eq, tokens, if_pos rfl, statementTokens_append_separator rfl]

/-- A last line with one expression. -/
theorem exists_lexed_side (h : Precedes T tls ws) (hB : Lexed B.toList bls) :
    ∃ ls, Lexed (T ++ "\n" ++ B).toList ls ∧
      statementTokens (tokens 0 ls) =
        statementTokens (tokens 0 tls) ++ statementTokens (tokens 0 bls) := by
  have htext : (T ++ "\n" ++ B).toList = T.toList ++ '\n' :: B.toList := by simp
  rw [htext]
  exact h.exists_lexed hB

/-- Two last lines, one for each side. -/
theorem exists_lexed_sides (h : Precedes T tls ws) (hB : Lexed B.toList bls)
    (hS : Lexed S.toList sls) :
    ∃ ls sls', Lexed (T ++ "\nbuy = " ++ B ++ "\nsell = " ++ S).toList ls ∧
      Assigns "sell" sls sls' ∧
      statementTokens (tokens 0 ls) = statementTokens (tokens 0 tls) ++
        statementTokens (assigns "buy" ++ (tokens 0 bls ++
          tokens (depthBehind 0 (tokens 0 bls)) ((.lineEnd, ['\n']) :: sls'))) := by
  obtain ⟨bls', hB', hbuy⟩ := hB.assign ['b', 'u', 'y'] fun _ => rfl
  obtain ⟨sls', hS', hsell⟩ := hS.assign ['s', 'e', 'l', 'l'] fun _ => rfl
  obtain ⟨ls, hls, heq⟩ := h.exists_lexed (hB'.append_lineEnd hS')
  refine ⟨ls, sls', ?_, hsell, ?_⟩
  · have htext : (T ++ "\nbuy = " ++ B ++ "\nsell = " ++ S).toList = T.toList ++ '\n' ::
        (['b', 'u', 'y'] ++ ' ' :: '=' :: ' ' :: B.toList ++
          '\n' :: (['s', 'e', 'l', 'l'] ++ ' ' :: '=' :: ' ' :: S.toList)) := by simp
    rwa [htext]
  · rw [heq, tokens_append, hbuy]
    rfl

end Precedes

/-! ### The trees of the sides -/

/-- The tree that the tokens of one statement have where names stand for trees.  It is within the
limits, and its names mean something. -/
structure TreeOf (env : Bindings) (ts : List Token) (e : Expr) : Prop where
  reads : ∃ x, ReadsAlone ts ⟨none, x⟩ ∧ x.subst env = e
  within : e.shape.Within
  names : e.checkNames = .ok ()

theorem TreeOf.unique {env : Bindings} {ts : List Token} {e e' : Expr} (h : TreeOf env ts e)
    (h' : TreeOf env ts e') : e = e' := by
  obtain ⟨x, hx, rfl⟩ := h.reads
  obtain ⟨x', hx', rfl⟩ := h'.reads
  cases hx.unique hx'
  rfl

section Assigned

variable {env : Bindings} {ws : List Written} {x y : Expr}

/-- The second side has the same tree as without the first one in front of it. -/
theorem trees_append_sides (hy : y.Every (Node.Avoids "buy")) :
    trees env (ws ++ [⟨some "buy", x⟩, ⟨some "sell", y⟩]) =
      trees env ws ++ [x.subst (bindings env ws), y.subst (bindings env ws)] := by
  rw [trees_append, trees, trees, trees, subst_assigned hy]

theorem bindings_append_sides (hy : y.Every (Node.Avoids "buy")) :
    bindings env (ws ++ [⟨some "buy", x⟩, ⟨some "sell", y⟩]) "buy" =
        some (x.subst (bindings env ws)) ∧
      bindings env (ws ++ [⟨some "buy", x⟩, ⟨some "sell", y⟩]) "sell" =
        some (y.subst (bindings env ws)) := by
  rw [bindings_append, bindings, bindings, bindings, subst_assigned hy]
  simp [assigned]

end Assigned

/-! ### Compiling a text by its lexemes -/

section Lexed

variable {script : String} {ls : List (LexemeKind × List Char)}

/-- A script is compiled to a tree if this is the last one and its names mean something. -/
theorem Rule.compile_iff (hls : Lexed script.toList ls) {e : Expr} :
    (∃ r, compile script = .ok r ∧ r.formula.expr = e) ↔
      ∃ ws, InTwoSteps (tokens 0 ls) ws (trees (fun _ => none) ws) ∧
        (trees (fun _ => none) ws).getLast? = some e ∧ e.checkNames = .ok () := by
  rw [← exists_parse_strip_iff hls fun _ last => last = some e ∧ e.checkNames = .ok ()]
  simp only [compile_eq_ok_iff]
  constructor
  · rintro ⟨_, ⟨hne, p, hp, hnames, rfl⟩, rfl⟩
    exact ⟨hne, p, hp, rfl, hnames⟩
  · rintro ⟨hne, p, hp, hlast, hnames⟩
    cases hlast
    exact ⟨_, ⟨hne, p, hp, hnames, rfl⟩, rfl⟩

/-- One script is compiled to what its two names stand for, if one of them stands for a tree. -/
theorem Rules.ofCombined_iff (hls : Lexed script.toList ls) {buy sell : Option Expr} :
    (∃ r, ofCombined (some script) = .ok r ∧ r.buy.map (·.formula.expr) = buy ∧
        r.sell.map (·.formula.expr) = sell) ↔
      ∃ ws, InTwoSteps (tokens 0 ls) ws (trees (fun _ => none) ws) ∧
        bindings (fun _ => none) ws "buy" = buy ∧ bindings (fun _ => none) ws "sell" = sell ∧
        (buy = none → sell ≠ none) ∧ (∀ e ∈ buy, e.checkNames = .ok ()) ∧
        ∀ e ∈ sell, e.checkNames = .ok () := by
  rw [← exists_parse_strip_iff hls fun env _ => env "buy" = buy ∧ env "sell" = sell ∧
    (buy = none → sell ≠ none) ∧ (∀ e ∈ buy, e.checkNames = .ok ()) ∧
    ∀ e ∈ sell, e.checkNames = .ok ()]
  simp only [ofCombined_eq_ok_iff, Option.getD_some]
  have hexpr : ∀ f : Option Formula,
      (f.map (Rule.mk (Text.strip script))).map (·.formula.expr) = f.map Formula.expr := fun f => by
    rw [Option.map_map]
    rfl
  constructor
  · rintro ⟨_, ⟨hne, p, hp, hsides, hbuy, hsell, rfl⟩, rfl, rfl⟩
    rw [hexpr, hexpr]
    refine ⟨hne, p, hp, rfl, rfl, ?_, ?_, ?_⟩
    · simpa using hsides
    · simpa using hbuy
    · simpa using hsell
  · rintro ⟨hne, p, hp, rfl, rfl, hsides, hbuy, hsell⟩
    refine ⟨_, ⟨hne, p, hp, ?_, ?_, ?_, rfl⟩, hexpr _, hexpr _⟩
    · simpa using hsides
    · simpa using hbuy
    · simpa using hsell

end Lexed

section Sides

variable {T B S : String} {tls bls sls : List (LexemeKind × List Char)} {ws : List Written}

/-- **A script of one side** is compiled to the tree of its last line. -/
theorem Rule.compile_iff_treeOf (hT : Precedes T tls ws) (hB : Lexed B.toList bls)
    (hone : IsOneStatement (tokens 0 bls)) {e : Expr} :
    (∃ r, compile (T ++ "\n" ++ B) = .ok r ∧ r.formula.expr = e) ↔
      TreeOf (bindings (fun _ => none) ws) (tokens 0 bls) e := by
  obtain ⟨ls, hls, hruns⟩ := hT.exists_lexed_side hB
  rw [compile_iff hls]
  constructor
  · rintro ⟨vs, ⟨-, halone, -, hwithin⟩, hlast, hnames⟩
    rw [hruns] at halone
    obtain ⟨x, rfl, hx⟩ := (readsAlone_append_iff hT.reads hone).1 halone
    simp only [trees_append, trees, List.getLast?_append, List.getLast?_singleton,
      Option.some_or, Option.some.injEq] at hlast hwithin
    exact ⟨⟨x, hx, hlast⟩, hwithin e (by simp [hlast]), hnames⟩
  · rintro ⟨⟨x, hx, rfl⟩, hwithin, hnames⟩
    have halone := (readsAlone_append_iff hT.reads hone).2 ⟨x, rfl, hx⟩
    refine ⟨_, ⟨by simp, hruns ▸ halone, inlined_trees _, ?_⟩, ?_, hnames⟩
    · simpa [trees_append, trees, or_imp, forall_and] using ⟨hT.within, hwithin⟩
    · simp [trees_append, trees]

/-- **One script of both sides** is compiled to the trees of its last two lines. -/
theorem Rules.ofCombined_iff_treeOf (hT : Precedes T tls ws) (hB : Lexed B.toList bls)
    (hS : Lexed S.toList sls) (honeB : IsOneStatement (tokens 0 bls))
    (honeS : IsOneStatement (tokens 0 sls)) (hbuy : CallsOnly "buy" (tokens 0 sls))
    (buy sell : Option Expr) :
    (∃ r, ofCombined (some (T ++ "\nbuy = " ++ B ++ "\nsell = " ++ S)) = .ok r ∧
        r.buy.map (·.formula.expr) = buy ∧ r.sell.map (·.formula.expr) = sell) ↔
      ∃ b s, buy = some b ∧ sell = some s ∧
        TreeOf (bindings (fun _ => none) ws) (tokens 0 bls) b ∧
        TreeOf (bindings (fun _ => none) ws) (tokens 0 sls) s := by
  obtain ⟨ls, sls', hls, hsell, hruns⟩ := hT.exists_lexed_sides hB hS
  have hsymbols : IsSymbol "buy" ∧ IsSymbol "sell" :=
    ⟨⟨by decide +kernel, by decide +kernel⟩, ⟨by decide +kernel, by decide +kernel⟩⟩
  rw [ofCombined_iff hls]
  constructor
  · rintro ⟨vs, ⟨-, halone, -, hwithin⟩, hb, hs, -, hbuynames, hsellnames⟩
    rw [hruns] at halone
    obtain ⟨ws', us, rfl, hws, hus⟩ := forall₂_append_left halone
    obtain rfl := forall₂_readsAlone_unique hT.reads hws
    obtain ⟨x, y, rfl, hx, hy⟩ :=
      (readsAlone_sides_iff hsymbols.1 hsymbols.2 hsell honeB honeS).1 hus
    have havoids := hy.derives.avoids hbuy
    rw [trees_append_sides havoids] at hwithin
    rw [(bindings_append_sides havoids).1] at hb
    rw [(bindings_append_sides havoids).2] at hs
    subst hb hs
    exact ⟨_, _, rfl, rfl, ⟨⟨x, hx, rfl⟩, hwithin _ (by simp), hbuynames _ rfl⟩,
      ⟨⟨y, hy, rfl⟩, hwithin _ (by simp), hsellnames _ rfl⟩⟩
  · rintro ⟨_, _, rfl, rfl, ⟨⟨x, hx, rfl⟩, hxwithin, hxnames⟩, ⟨y, hy, rfl⟩, hywithin, hynames⟩
    have halone := List.rel_append hT.reads
      ((readsAlone_sides_iff hsymbols.1 hsymbols.2 hsell honeB honeS).2 ⟨x, y, rfl, hx, hy⟩)
    have havoids := hy.derives.avoids hbuy
    refine ⟨_, ⟨by simp, hruns ▸ halone, inlined_trees _, ?_⟩, (bindings_append_sides havoids).1,
      (bindings_append_sides havoids).2, by simp, by simpa using hxnames, by simpa using hynames⟩
    rw [trees_append_sides havoids]
    simpa [or_imp, forall_and] using ⟨hT.within, hxwithin, hywithin⟩

/-- **Two scripts** are compiled to the trees of their last lines. -/
theorem Rules.compile_iff_treeOf (hT : Precedes T tls ws) (hB : Lexed B.toList bls)
    (hS : Lexed S.toList sls) (honeB : IsOneStatement (tokens 0 bls))
    (honeS : IsOneStatement (tokens 0 sls)) (buy sell : Option Expr) :
    (∃ r, compile (some (T ++ "\n" ++ B)) (some (T ++ "\n" ++ S)) = .ok r ∧
        r.buy.map (·.formula.expr) = buy ∧ r.sell.map (·.formula.expr) = sell) ↔
      ∃ b s, buy = some b ∧ sell = some s ∧
        TreeOf (bindings (fun _ => none) ws) (tokens 0 bls) b ∧
        TreeOf (bindings (fun _ => none) ws) (tokens 0 sls) s := by
  have hside : ∀ {E : String} {els : List (LexemeKind × List Char)} {rule : Option Rule},
      Lexed E.toList els → IsOneStatement (tokens 0 els) →
      compileSide (some (T ++ "\n" ++ E)) = .ok rule →
        ∃ r, Rule.compile (T ++ "\n" ++ E) = .ok r ∧ rule = some r := by
    intro E els rule hE hone h
    obtain ⟨ls, hls, hruns⟩ := hT.exists_lexed_side hE
    -- the script has at least one statement
    have hne : statementTokens (tokens 0 ls) ≠ [] := by
      rw [hruns]
      exact List.append_ne_nil_of_right_ne_nil _ fun h =>
        hone.not_separators (statementTokens_eq_nil_iff.1 h)
    rcases compileSide_eq_ok_iff.1 h with ⟨hblank, -⟩ | h
    · rw [isBlank, Option.getD_some, hls.strip_not_isEmpty hne] at hblank
      cases hblank
    · exact h
  simp only [← Rule.compile_iff_treeOf hT hB honeB, ← Rule.compile_iff_treeOf hT hS honeS]
  constructor
  · rintro ⟨⟨_, _⟩, h, rfl, rfl⟩
    obtain ⟨hbuy, hsell⟩ := compile_eq_ok_iff.1 h
    obtain ⟨b, hb, rfl⟩ := hside hB honeB hbuy
    obtain ⟨s, hs, rfl⟩ := hside hS honeS hsell
    exact ⟨_, _, rfl, rfl, ⟨b, hb, rfl⟩, ⟨s, hs, rfl⟩⟩
  · rintro ⟨_, _, rfl, rfl, ⟨b, hb, rfl⟩, ⟨s, hs, rfl⟩⟩
    exact ⟨⟨some b, some s⟩,
      compile_eq_ok_iff.2 ⟨compileSide_of_compile hb, compileSide_of_compile hs⟩, rfl, rfl⟩

end Sides

/-! ### The two ways -/

namespace Rules

theorem wellFormed_of_ofCombined {script : Option String} {r : Rules}
    (h : ofCombined script = .ok r) : r.WellFormed where
  buy _ hb := (Rule.Compiled.combined h (.inl hb)).scripted.wellFormed
  sell _ hs := (Rule.Compiled.combined h (.inr hs)).scripted.wellFormed

theorem wellFormed_of_compile {buy sell : Option String} {r : Rules}
    (h : compile buy sell = .ok r) : r.WellFormed where
  buy _ hb := (compiled_of_compileSide (compile_eq_ok_iff.1 h).1 hb).scripted.wellFormed
  sell _ hs := (compiled_of_compileSide (compile_eq_ok_iff.1 h).2 hs).scripted.wellFormed

/-- **One script for both sides agrees with two scripts.**  Let `T` be a script that can be read or
nothing, and let `B` and `S` each be one statement that assigns no name, where `S` has the name
`buy` in front of parentheses only.  The one script with `B` and `S` for `buy` and `sell` behind `T`
is compiled if and only if the two scripts with `B` and `S` behind `T` are; then there are both
sides, with the same trees, and a run in any session is the same. -/
theorem ofCombined_iff_compile {T B S : String} {bs ss : List Token}
    (hT : T = "" ∨ ∃ p, parse T = .ok p) (hB : scan B = .ok bs) (hS : scan S = .ok ss)
    (hbs : IsOneStatement bs) (hss : IsOneStatement ss) (hbuy : CallsOnly "buy" ss) :
    ((∃ r, ofCombined (some (T ++ "\nbuy = " ++ B ++ "\nsell = " ++ S)) = .ok r) ↔
      ∃ r, compile (some (T ++ "\n" ++ B)) (some (T ++ "\n" ++ S)) = .ok r) ∧
    ∀ r r', ofCombined (some (T ++ "\nbuy = " ++ B ++ "\nsell = " ++ S)) = .ok r →
      compile (some (T ++ "\n" ++ B)) (some (T ++ "\n" ++ S)) = .ok r' →
      (∃ b s, r.buy.map (·.formula.expr) = some b ∧ r.sell.map (·.formula.expr) = some s ∧
        r'.buy.map (·.formula.expr) = some b ∧ r'.sell.map (·.formula.expr) = some s) ∧
      ∀ session, r.run session = r'.run session := by
  obtain ⟨tls, ws, hT⟩ := exists_precedes hT
  obtain ⟨bls, hB, hbmoved⟩ := scan_eq_ok hB
  obtain ⟨sls, hS, hsmoved⟩ := scan_eq_ok hS
  have honeB := hbs.moved hbmoved.symm
  have honeS := hss.moved hsmoved.symm
  have hcombined := ofCombined_iff_treeOf hT hB hS honeB honeS (hbuy.moved hsmoved.symm)
  have hpair := compile_iff_treeOf hT hB hS honeB honeS
  refine ⟨⟨fun ⟨r, h⟩ => ?_, fun ⟨r, h⟩ => ?_⟩, fun r r' h h' => ?_⟩
  · obtain ⟨r', h', -⟩ := (hpair _ _).2 ((hcombined _ _).1 ⟨r, h, rfl, rfl⟩)
    exact ⟨r', h'⟩
  · obtain ⟨r', h', -⟩ := (hcombined _ _).2 ((hpair _ _).1 ⟨r, h, rfl, rfl⟩)
    exact ⟨r', h'⟩
  · obtain ⟨b, s, hb, hs, hbtree, hstree⟩ := (hcombined _ _).1 ⟨r, h, rfl, rfl⟩
    obtain ⟨b', s', hb', hs', hbtree', hstree'⟩ := (hpair _ _).1 ⟨r', h', rfl, rfl⟩
    obtain rfl := hbtree.unique hbtree'
    obtain rfl := hstree.unique hstree'
    exact ⟨⟨b, s, hb, hs, hb', hs'⟩, run_eq_of_expr_eq (wellFormed_of_ofCombined h)
      (wellFormed_of_compile h') (hb.trans hb'.symm) (hs.trans hs'.symm)⟩

/-- Two comparisons with a number that has a name. -/
theorem ofCombined_iff_compile_bounds : ∃ r r',
    ofCombined (some ("a = 2" ++ "\nbuy = " ++ "close > a" ++ "\nsell = " ++ "close < a")) = .ok r ∧
    compile (some ("a = 2" ++ "\n" ++ "close > a")) (some ("a = 2" ++ "\n" ++ "close < a")) =
      .ok r' ∧
    ∀ session, r.run session = r'.run session := by
  have ha : IsSymbol "a" := ⟨by decide +kernel, by decide +kernel⟩
  have hclose : IsSymbol "close" := ⟨by decide +kernel, by decide +kernel⟩
  -- the script in front
  let two : Token := ⟨.number, "2", 0⟩
  let number : Expr := .mk (.number (Statement.literal two))
  have htwo : Derives 63 .signed [two] number := .unsigned (.indexed (.number rfl) .nil)
  have hscanT : scan "a = 2" = .ok [⟨.word, "a", 0⟩, ⟨.operator, "=", 2⟩, ⟨.number, "2", 4⟩] := rfl
  obtain ⟨tls, htls, htmoved⟩ := scan_eq_ok hscanT
  have hread := (readsAlone_assigns_iff ha).2 ⟨_, rfl, htwo.of_signed.readsAlone⟩
  have hsteps : InTwoSteps (assigns "a" ++ [two]) [⟨some "a", number⟩] [number] :=
    ⟨by simp, .cons hread .nil, inlined_trees _, by decide +kernel⟩
  have htokens := hsteps.moved htmoved.symm
  obtain ⟨p, hparse, -⟩ := exists_parse htls htokens
  have hT : Precedes "a = 2" tls [⟨some "a", number⟩] := ⟨htls, htokens.alone, htokens.within⟩
  -- the two comparisons
  have habove : ">" ∈ Statement.comparisons := by decide
  have hbelow : "<" ∈ Statement.comparisons := by decide
  have hscanB : scan "close > a" = .ok (comparesAt 0 6 8 "close" ">" "a") := rfl
  have hscanS : scan "close < a" = .ok (comparesAt 0 6 8 "close" "<" "a") := rfl
  have hbuy : CallsOnly "buy" (comparesAt 0 6 8 "close" "<" "a") := by
    have hne : "close".toLower ≠ "buy" ∧ "a".toLower ≠ "buy" := by decide +kernel
    exact ⟨fun _ h => absurd h hne.1, nofun, fun _ h => absurd h hne.2, trivial⟩
  obtain ⟨hiff, hrun⟩ := ofCombined_iff_compile (.inr ⟨p, hparse⟩) hscanB hscanS
    (isOneStatement_comparesAt habove) (isOneStatement_comparesAt hbelow) hbuy
  obtain ⟨bls, hB, hbmoved⟩ := scan_eq_ok hscanB
  obtain ⟨sls, hS, hsmoved⟩ := scan_eq_ok hscanS
  obtain ⟨r', h', -⟩ := (compile_iff_treeOf hT hB hS
    ((isOneStatement_comparesAt habove).moved hbmoved.symm)
    ((isOneStatement_comparesAt hbelow).moved hsmoved.symm) _ _).2 ⟨_, _, rfl, rfl,
      ⟨⟨_, (readsAlone_comparesAt hclose habove ha).moved hbmoved.symm, rfl⟩, by decide +kernel,
        rfl⟩,
      ⟨⟨_, (readsAlone_comparesAt hclose hbelow ha).moved hsmoved.symm, rfl⟩, by decide +kernel,
        rfl⟩⟩
  obtain ⟨r, h⟩ := hiff.2 ⟨r', h'⟩
  exact ⟨r, r', h, h', (hrun r r' h h').2⟩

end Rules

end BarScript
