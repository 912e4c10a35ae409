import BarScript.Proofs.Evaluation.Raises
import BarScript.Proofs.Session.Transparency

/-!
# Checking names protects evaluation

The check of names looks at all names of an expression in the order of the text (`Expr.names`) and
stops at the first one that is no builtin variable or function (`Expr.checkNames_eq`).  Evaluation
may skip names, meet others several times, and find some of their values remembered; but an unknown
name that it raises is one of the names of the expression (`UnknownNames`), so the check fails where
evaluation fails for a name.
-/

namespace BarScript

/-! ### The names of an expression -/

/-- The name of a node, if it has one, and what it is used as. -/
def Node.ownNames {β : Type} : Node β → List (SymbolKind × String)
  | .name symbol => [(.identifier, symbol)]
  | .call function _ => [(.function, function)]
  | _ => []

/-- The names in an expression and what they are used as, that of a node before those of its
operands. -/
def Expr.names (e : Expr) : List (SymbolKind × String) :=
  e.fold fun n => n.ownNames ++ n.children.flatten

/-- A name used as a variable is that of a builtin variable, one used as a function that of a
builtin function or a crossing. -/
def IsBuiltin : SymbolKind × String → Prop
  | (.identifier, name) => name ∈ Variable.names.map (·.1)
  | (.function, name) => name ∈ Function.names.map (·.1)

theorem Expr.names_mk (n : Node Expr) :
    (mk n).names = n.ownNames ++ (n.children.map names).flatten := by
  rw [names, fold_mk, Node.children_map]
  cases n <;> rfl

theorem Expr.mem_names_of_child {n : Node Expr} {c : Expr} (hc : c ∈ n.children)
    {name : SymbolKind × String} (h : name ∈ c.names) : name ∈ (mk n).names := by
  rw [names_mk]
  exact List.mem_append_right _ (List.mem_flatten_of_mem (List.mem_map_of_mem hc) h)

theorem isSome_variable_iff {name : String} :
    (Variable.ofName? name).isSome = true ↔ IsBuiltin (.identifier, name) := by
  simp [Variable.ofName?, IsBuiltin, List.find?_isSome]

theorem isSome_function_iff {name : String} :
    (Function.ofName? name).isSome = true ↔ IsBuiltin (.function, name) := by
  simp [Function.ofName?, IsBuiltin, List.find?_isSome]

instance (name : SymbolKind × String) : Decidable (IsBuiltin name) :=
  match name with
  | (.identifier, name) => inferInstanceAs (Decidable (name ∈ Variable.names.map (·.1)))
  | (.function, name) => inferInstanceAs (Decidable (name ∈ Function.names.map (·.1)))

/-! ### The check -/

/-- The check of one name. -/
def checkBuiltin (name : SymbolKind × String) : Except UnknownSymbol Unit :=
  if IsBuiltin name then .ok () else .error ⟨name.1, name.2⟩

theorem checkBuiltin_eq_ok_iff {name : SymbolKind × String} :
    checkBuiltin name = .ok () ↔ IsBuiltin name := by
  unfold checkBuiltin
  split <;> simp_all

theorem checkBuiltin_eq_error_iff {name : SymbolKind × String} {u : UnknownSymbol} :
    checkBuiltin name = .error u ↔ ¬ IsBuiltin name ∧ name = (u.kind, u.symbol) := by
  unfold checkBuiltin
  split
  · simp_all
  · obtain ⟨kind, symbol⟩ := name
    obtain ⟨kind', symbol'⟩ := u
    simp_all

@[simp] theorem Node.checkName_map {β γ : Type} (f : β → γ) (n : Node β) :
    (n.map f).checkName = n.checkName := by
  cases n <;> rfl

theorem Node.checkName_eq {β : Type} (n : Node β) : n.checkName = n.ownNames.forM checkBuiltin := by
  have hsingle : ∀ name, [name].forM checkBuiltin = checkBuiltin name := fun name => by
    simp only [List.forM]
    cases checkBuiltin name <;> rfl
  cases n with
  | name symbol =>
    rw [ownNames, hsingle, Node.checkName, checkBuiltin]
    simp only [isSome_variable_iff]
  | call function arguments =>
    rw [ownNames, hsingle, Node.checkName, checkBuiltin]
    simp only [isSome_function_iff]
  | _ => rfl

theorem forM_flatten {α ε : Type} (f : α → Except ε Unit) (xss : List (List α)) :
    xss.flatten.forM f = (xss.map fun xs => xs.forM f).forM fun x => x := by
  induction xss with
  | nil => rfl
  | cons xs xss ih =>
    rw [List.flatten_cons, List.map_cons, List.forM, ← ih]
    exact List.forM_append

theorem Expr.checkNames_mk (n : Node Expr) : (mk n).checkNames =
    (n.checkName >>= fun _ => (n.children.map checkNames).forM fun c => c) := by
  rw [checkNames, fold_mk, Node.checkName_map, Node.children_map]
  rfl

/-- **The check of an expression checks its names one after another.** -/
theorem Expr.checkNames_eq (e : Expr) : e.checkNames = e.names.forM checkBuiltin := by
  induction e using node_induction with
  | h n ih =>
    have happend : (n.ownNames ++ (n.children.map names).flatten).forM checkBuiltin =
        (n.ownNames.forM checkBuiltin >>= fun _ =>
          (n.children.map names).flatten.forM checkBuiltin) := List.forM_append
    rw [checkNames_mk, names_mk, happend, forM_flatten, List.map_map, n.checkName_eq,
      List.map_congr_left ih]
    rfl

/-! ### Evaluation -/

/-- An unknown name that an expression raises is one of its names, and no builtin one. -/
def Expr.UnknownNames (e : Expr) (_ : Int) (error : EvalError) : Prop :=
  ∀ u, error = .unknown u → (u.kind, u.symbol) ∈ e.names ∧ ¬ IsBuiltin (u.kind, u.symbol)

theorem Expr.raisable_unknownNames : Raisable Expr.UnknownNames where
  operational := by
    rintro e bars - h u rfl
    exact h.elim
  identifier := by
    rintro symbol h bars - ⟨⟩
    refine ⟨by simp [names_mk, Node.ownNames], fun hbuiltin => ?_⟩
    rw [← isSome_variable_iff, h] at hbuiltin
    cases hbuiltin
  function := by
    rintro name arguments h bars - ⟨⟩
    refine ⟨by simp [names_mk, Node.ownNames], fun hbuiltin => ?_⟩
    rw [← isSome_function_iff, h] at hbuiltin
    cases hbuiltin
  quote _ _ _ _ := nofun
  history c n bars error h u hu :=
    (h u hu).imp_left (mem_names_of_child (by simp [Node.children]))
  operand n _ c hc bars bars' _ error h u hu := (h u hu).imp_left (mem_names_of_child hc)

/-- **The check of names is exact, and protects evaluation.**  It passes if and only if all names in
the expression are builtin, and else reports the first one that is not.  If evaluating the
expression, however its parts are shared and whatever the session has done before, raises an unknown
name, then it is a name of the expression, and the check does not pass. -/
theorem Expr.checkNames_exact (e : Expr) :
    (e.checkNames = .ok () ↔ ∀ name ∈ e.names, IsBuiltin name) ∧
    (∀ u, e.checkNames = .error u ↔ ∃ before after,
      e.names = before ++ (u.kind, u.symbol) :: after ∧ (∀ name ∈ before, IsBuiltin name) ∧
        ¬ IsBuiltin (u.kind, u.symbol)) ∧
    ∀ f : Formula, f.WellFormed → f.expr = e → ∀ (s : Session) (u : UnknownSymbol),
      (s.evaluate f).1 = .error (.unknown u) →
        ((u.kind, u.symbol) ∈ e.names ∧ ¬ IsBuiltin (u.kind, u.symbol)) ∧
          ∃ v, e.checkNames = .error v := by
  have hok : e.checkNames = .ok () ↔ ∀ name ∈ e.names, IsBuiltin name := by
    rw [checkNames_eq, forM_eq_ok_iff]
    simp only [checkBuiltin_eq_ok_iff]
  refine ⟨hok, fun u => ?_, fun f hf hexpr s u hu => ?_⟩
  · rw [checkNames_eq, forM_eq_error_iff]
    simp only [checkBuiltin_eq_ok_iff, checkBuiltin_eq_error_iff]
    constructor
    · rintro ⟨before, name, after, heq, hbefore, hname, rfl⟩
      exact ⟨before, after, heq, hbefore, hname⟩
    · rintro ⟨before, after, heq, hbefore, hname⟩
      exact ⟨before, _, after, heq, hbefore, hname, rfl⟩
  · subst hexpr
    obtain ⟨hmem, hname⟩ := raisable_unknownNames.of_evaluate hf hu u rfl
    refine ⟨⟨hmem, hname⟩, ?_⟩
    cases hcheck : f.expr.checkNames with
    | error v => exact ⟨v, rfl⟩
    | ok => exact absurd (hok.1 hcheck _ hmem) hname

section

variable {m : Type → Type} [Monad m] [MonadExceptOf EvalError m] (market : Market)
  (access : Access m) (operands : List (Meaning m))

theorem Node.eval_and : Node.eval market access (.logical "AND" operands) =
    fun bars => do return .boolean (← allTrue bars operands) := by
  have hupper : "AND".toUpper = "AND" := by decide +kernel
  funext bars
  simp only [Node.eval, hupper, if_true]

theorem Node.eval_or : Node.eval market access (.logical "OR" operands) =
    fun bars => do return .boolean (← anyTrue bars operands) := by
  have hupper : "OR".toUpper = "OR" := by decide +kernel
  have hne : "OR" ≠ "AND" := by decide
  funext bars
  simp only [Node.eval, hupper, if_neg hne, if_true]

end

/-- The first unknown name stands in a part that is skipped, and the evaluation raises the second
one, also the second time. -/
theorem Expr.checkNames_exact_skipped :
    let market : Market := ⟨"A", ⟨4, 0⟩, ⟨[1, 2, 3], fun _ => none, by simp⟩, 0.001⟩
    let skipped : Expr := .mk (.logical "OR" [.mk (.name "true"), .mk (.call "best" [])])
    let e : Expr := .mk (.logical "AND" [skipped, .mk (.name "open")])
    let s : Session := ((Session.start market).evaluate (.ofExpr e)).2
    e.names = [(.identifier, "true"), (.function, "best"), (.identifier, "open")] ∧
      e.checkNames = .error ⟨.function, "best"⟩ ∧
      (s.evaluate (.ofExpr e)).1 = .error (.unknown ⟨.identifier, "open"⟩) ∧
      ¬ IsBuiltin (.identifier, "open") := by
  intro market skipped e s
  have hcalls : e.callsNow market = [] := by
    simp only [callsNow, e, skipped, calls, noted, fold_mk, Node.map, List.map, Node.eval_and,
      Node.eval_or]
    rfl
  have hnow : e.now market = .error (.unknown ⟨.identifier, "open"⟩) := by
    simp only [now, e, skipped, eval, fold_mk, Node.map, List.map, Node.eval_and, Node.eval_or]
    rfl
  have hagree : SignsAgree fun _ => False := fun _ _ h => h.elim
  have hf := Formula.wellFormed_ofExpr e
  have hexpr := Formula.expr_ofExpr e
  have hsound := ((Session.sound_start market fun _ => False).evaluate hagree hf
    (by simp [hexpr, hcalls])).2
  have heval := (hsound.evaluate hagree hf (by simp [hexpr, hcalls])).1
  rw [hexpr, hnow] at heval
  obtain ⟨hok, herror, hprotects⟩ := checkNames_exact e
  have hnames : e.names = [(.identifier, "true"), (.function, "best"), (.identifier, "open")] := rfl
  have hfirst : e.checkNames = .error ⟨.function, "best"⟩ :=
    (herror _).2 ⟨[(.identifier, "true")], _, hnames, by decide, by decide⟩
  exact ⟨hnames, hfirst, heval, (hprotects _ hf hexpr s _ heval).1.2⟩

end BarScript
