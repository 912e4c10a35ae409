import BarScript.Proofs.Grammar.Program
import BarScript.Proofs.Grammar.Spelling

/-!
# What an expression owes to its tokens

Two facts about what derives from the grammar:

* `Derives.depthBehind_eq` : as many brackets are open behind it as in front of it;
* `Derives.avoids` : a name that its tokens only have in front of parentheses is none of its
  variables, so the tree stays the same if such a name stands for another tree (`subst_assigned`).

They carry over to scripts: where all statements can be read no bracket stays open
(`depthBehind_of_forall_readsAlone`).  Where the tokens stand in the text does not matter to either
of them, nor to what is read (`InTwoSteps.moved`).
-/

namespace BarScript

/-- The node is no variable of a given name. -/
def Node.Avoids (symbol : String) : Node Unit → Prop
  | .name s => s ≠ symbol
  | _ => True

namespace Grammar

open Statement Token

/-! ### Places -/

/-- A statement is read alone wherever it stands. -/
theorem ReadsAlone.moved {ts us : List Token} {w : Written} (h : ReadsAlone ts w)
    (hu : Moved us ts) : ReadsAlone us w :=
  h.respelled hu.respelled

/-- A script is read in two steps wherever its tokens stand. -/
theorem InTwoSteps.moved {ts us : List Token} {ws : List Written} {es : List Expr}
    (h : InTwoSteps ts ws es) (hu : Moved us ts) : InTwoSteps us ws es :=
  h.respelled hu.respelled

/-! ### Statements at the front -/

/-- Tokens without separators are the front of a statement. -/
theorem exists_statementTokens_eq_cons {us : List Token} (hne : us ≠ [])
    (hus : ∀ t ∈ us, t.kind ≠ .separator) (rest : List Token) :
    ∃ more runs, statementTokens (us ++ rest) = (us ++ more) :: runs := by
  have hmore : ∀ t ∈ rest.takeWhile (·.kind ≠ .separator), t.kind ≠ .separator := fun t ht => by
    simpa using List.all_eq_true.1 List.all_takeWhile t ht
  have hafter : ∀ t ∈ (rest.dropWhile (·.kind ≠ .separator)).head?, t.kind = .separator := by
    intro t ht
    have := List.head?_dropWhile_not (fun t : Token => decide (t.kind ≠ .separator)) rest
    rw [Option.mem_def.1 ht] at this
    simpa using this
  have hne' : us ++ rest.takeWhile (·.kind ≠ .separator) ≠ [] := by simp [hne]
  have heq := statementTokens_append hne' (List.forall_mem_append.2 ⟨hus, hmore⟩) hafter
  rw [List.append_assoc, List.takeWhile_append_dropWhile] at heq
  exact ⟨_, _, heq⟩

/-- Tokens without separators are one statement. -/
theorem statementTokens_eq_singleton {ts : List Token} (hne : ts ≠ [])
    (h : ∀ t ∈ ts, t.kind ≠ .separator) : statementTokens ts = [ts] := by
  have hnil : ∀ t ∈ ([] : List Token).head?, t.kind = .separator := by simp
  simpa [statementTokens] using statementTokens_append hne h hnil

/-! ### Brackets -/

section Brackets

theorem depthAfter_of_isOperator {t : Token} {operators : List String}
    (h : t.isOperator operators = true) (n : Nat) : depthAfter t.kind n = n := by
  simp only [Token.isOperator, Bool.and_eq_true, decide_eq_true_eq] at h
  simp [h.1, depthAfter]

theorem depthAfter_of_isKeyword {t : Token} {word : String} (h : t.isKeyword word = true)
    (n : Nat) : depthAfter t.kind n = n := by
  simp only [Token.isKeyword, Bool.and_eq_true, decide_eq_true_eq] at h
  simp [h.1, depthAfter]

theorem depthAfter_of_isNot {t : Token} (h : isNot t = true) (n : Nat) :
    depthAfter t.kind n = n :=
  (Bool.or_eq_true_iff.1 h).elim (depthAfter_of_isKeyword · n) (depthAfter_of_isOperator · n)

theorem Chain.depthAfter_eq {c : Chain} {t : Token} (h : c.isOperator t = true) (n : Nat) :
    depthAfter t.kind n = n := by
  cases c with
  | or | and =>
    rcases Bool.or_eq_true_iff.1 h with h | h
    · exact depthAfter_of_isKeyword h n
    · exact depthAfter_of_isOperator h n
  | sum | product => exact depthAfter_of_isOperator h n

theorem Brackets.depthBehind_eq {ts : List Token} {offsets : List Int} (h : Brackets ts offsets)
    (n : Nat) : depthBehind n ts = n := by
  induction h with
  | nil => rfl
  | cons ho hn _ _ hc _ ih => simp [ho, hn, hc, depthAfter, ih]

mutual

/-- **Brackets are balanced**: as many are open behind an expression as in front of it. -/
theorem Derives.depthBehind_eq {d : ℕ∞} {s : Symbol} {ts : List Token} {e : Expr} :
    Derives d s ts e → ∀ n, depthBehind n ts = n
  | .chain hfirst hmore, n => by
    rw [depthBehind_append, hfirst.depthBehind_eq, hmore.depthBehind_eq]
  | .negation ht h, n => by rw [depthBehind_cons, depthAfter_of_isNot ht, h.depthBehind_eq]
  | .positive h, n => h.depthBehind_eq n
  | .comparison hleft ht hright, n => by
    rw [depthBehind_append, hleft.depthBehind_eq, depthBehind_cons, depthAfter_of_isOperator ht,
      hright.depthBehind_eq]
  | .uncompared h, n => h.depthBehind_eq n
  | .sign ht h, n => by rw [depthBehind_cons, depthAfter_of_isOperator ht, h.depthBehind_eq]
  | .unsigned h, n => h.depthBehind_eq n
  | .indexed h hb, n => by rw [depthBehind_append, h.depthBehind_eq, hb.depthBehind_eq]
  | .number ht, n => by simp [ht, depthAfter]
  | .text ht, n => by simp [ht, depthAfter]
  | .name ht, n => by simp [ht.1, depthAfter]
  | .call ht ho hc, n => by simp [ht.1, ho, hc, depthAfter]
  | .callWith ht ho h hc, n => by simp [ht.1, ho, hc, depthAfter, h.depthBehind_eq]
  | .group ho h hc, n => by simp [ho, hc, depthAfter, h.depthBehind_eq]

theorem More.depthBehind_eq {d : ℕ∞} {c : Chain} {ts : List Token} {more : List (Token × Expr)} :
    More d c ts more → ∀ n, depthBehind n ts = n
  | .nil, n => rfl
  | .cons ht h hmore, n => by
    rw [depthBehind_append, depthBehind_cons, Chain.depthAfter_eq ht, h.depthBehind_eq,
      hmore.depthBehind_eq]

theorem Arguments.depthBehind_eq {d : ℕ∞} {ts : List Token} {es : List Expr} :
    Arguments d ts es → ∀ n, depthBehind n ts = n
  | .one h, n => h.depthBehind_eq n
  | .cons h ht hrest, n => by simp [h.depthBehind_eq, ht, depthAfter, hrest.depthBehind_eq]

end

theorem DerivesStatement.depthBehind_eq {d : ℕ∞} {ts : List Token} {w : Written}
    (h : DerivesStatement d ts w) (n : Nat) : depthBehind n ts = n := by
  cases h with
  | assign ht he h =>
    rw [depthBehind_cons, depthBehind_cons, depthAfter_of_isOperator he, h.depthBehind_eq]
    simp [ht.1, depthAfter]
  | plain h => exact h.depthBehind_eq n

theorem Separators.depthBehind_eq {ts : List Token} (h : Separators ts) (n : Nat) :
    depthBehind n ts = n := by
  induction ts with
  | nil => rfl
  | cons t ts ih =>
    obtain ⟨ht, hts⟩ := List.forall_mem_cons.1 h
    simp [ht, depthAfter, ih hts]

/-- **No bracket stays open** in a script whose statements can be read. -/
theorem depthBehind_of_forall_readsAlone {ts : List Token}
    (h : ∀ run ∈ statementTokens ts, ∃ w, ReadsAlone run w) (n : Nat) : depthBehind n ts = n := by
  induction ts using statementTokens_induction with
  | hnil ts hs => exact hs.depthBehind_eq n
  | hcons before run after hb hne hrun ha ih =>
    rw [statementTokens_separators_append hb, statementTokens_append hne hrun ha,
      List.forall_mem_cons] at h
    obtain ⟨⟨w, hw⟩, h⟩ := h
    rw [depthBehind_append, hb.depthBehind_eq, depthBehind_append, hw.derives.depthBehind_eq, ih h]

end Brackets

/-! ### Names -/

section Names

variable {symbol : String}

/-- Every word that is a given name stands in front of an opening parenthesis. -/
def CallsOnly (symbol : String) : List Token → Prop
  | [] => True
  | t :: ts => (t.kind = .word → t.lower = symbol → ∃ p ∈ ts.head?, p.kind = .openParen) ∧
    CallsOnly symbol ts

theorem CallsOnly.moved {ts us : List Token} (h : CallsOnly symbol ts) (hu : Moved us ts) :
    CallsOnly symbol us := by
  induction ts generalizing us with
  | nil => exact hu.eq_nil ▸ trivial
  | cons t ts ih =>
    obtain ⟨n, us, rfl, hus⟩ := hu.exists_cons
    refine ⟨fun hk hs => ?_, ih h.2 hus⟩
    obtain ⟨p, hp, hopen⟩ := h.1 hk hs
    obtain ⟨ts, rfl⟩ := List.head?_eq_some_iff.1 hp
    obtain ⟨n', us, rfl, -⟩ := hus.exists_cons
    exact ⟨_, rfl, hopen⟩

/-- No opening parenthesis comes next. -/
def NoCall (ts : List Token) : Prop := ∀ p ∈ ts.head?, p.kind ≠ .openParen

theorem noCall_cons {t : Token} {ts : List Token} (h : t.kind ≠ .openParen) : NoCall (t :: ts) := by
  intro p hp
  cases hp
  exact h

theorem noCall_cons_of_isOperator {t : Token} {operators : List String} {ts : List Token}
    (h : t.isOperator operators = true) : NoCall (t :: ts) := by
  simp only [Token.isOperator, Bool.and_eq_true, decide_eq_true_eq] at h
  exact noCall_cons (by simp [h.1])

theorem CallsOnly.of_append {ts us : List Token}
    (h : CallsOnly symbol (ts ++ us)) : CallsOnly symbol us := by
  induction ts with
  | nil => exact h
  | cons t ts ih => exact ih h.2

theorem More.noCall {d : ℕ∞} {c : Chain} {ts rest : List Token} {more : List (Token × Expr)}
    (h : More d c ts more) (hr : NoCall rest) : NoCall (ts ++ rest) := by
  cases h with
  | nil => exact hr
  | cons ht _ _ =>
    refine noCall_cons fun hk => ?_
    rw [Chain.isOperator_iff, hk] at ht
    cases c <;> simp at ht

theorem Brackets.noCall {ts rest : List Token} {offsets : List Int} (h : Brackets ts offsets)
    (hr : NoCall rest) : NoCall (ts ++ rest) := by
  cases h with
  | nil => exact hr
  | cons ho => exact noCall_cons (by simp [ho])

mutual

/-- **A name that only stands in front of parentheses** is none of the variables of the tree. -/
theorem Derives.avoids {d : ℕ∞} {s : Symbol} {ts rest : List Token} {e : Expr} :
    Derives d s ts e → CallsOnly symbol (ts ++ rest) → NoCall rest →
      e.Every (Node.Avoids symbol)
  | .chain hfirst hmore, h, hr => by
    rw [List.append_assoc] at h
    exact every_tree (fun _ _ _ => trivial) (fun _ _ => trivial)
      (hfirst.avoids h (hmore.noCall hr)) (hmore.avoids h.of_append hr)
  | .negation ht h', h, hr =>
    Expr.every_mk.2 ⟨trivial, by simpa [Node.children] using h'.avoids h.2 hr⟩
  | .positive h', h, hr => h'.avoids h hr
  | .comparison hleft ht hright, h, hr => by
    rw [List.append_assoc] at h
    have hl := hleft.avoids h (noCall_cons_of_isOperator ht)
    have hr := hright.avoids h.of_append.2 hr
    exact Expr.every_mk.2 ⟨trivial, by simp [Node.children, hl, hr]⟩
  | .uncompared h', h, hr => h'.avoids h hr
  | .sign ht h', h, hr =>
    Expr.every_mk.2 ⟨trivial, by simpa [Node.children] using h'.avoids h.2 hr⟩
  | .unsigned h', h, hr => h'.avoids h hr
  | .indexed h' hb, h, hr => by
    rw [List.append_assoc] at h
    exact every_histories (fun _ _ => trivial) (h'.avoids h (hb.noCall hr)) hb
  | .number ht, h, hr => Expr.every_mk.2 ⟨trivial, by simp [Node.children]⟩
  | .text ht, h, hr => Expr.every_mk.2 ⟨trivial, by simp [Node.children]⟩
  | .name ht, h, hr => by
    refine Expr.every_mk.2 ⟨fun heq => ?_, by simp [Node.children]⟩
    obtain ⟨p, hp, hopen⟩ := h.1 ht.1 heq
    exact hr p hp hopen
  | .call ht ho hc, h, hr => Expr.every_mk.2 ⟨trivial, by simp [Node.children]⟩
  | .callWith ht ho h' hc, h, hr => by
    rw [List.append_assoc] at h
    exact Expr.every_mk.2 ⟨trivial, h'.avoids h.2.2 (noCall_cons (by simp [hc]))⟩
  | .group ho h' hc, h, hr => by
    rw [List.append_assoc] at h
    exact h'.avoids h.2 (noCall_cons (by simp [hc]))

theorem More.avoids {d : ℕ∞} {c : Chain} {ts rest : List Token} {more : List (Token × Expr)} :
    More d c ts more → CallsOnly symbol (ts ++ rest) → NoCall rest →
      ∀ r ∈ more, c.isOperator r.1 = true ∧ r.2.Every (Node.Avoids symbol)
  | .nil, _, _ => by simp
  | .cons ht h' hmore, h, hr => by
    rw [List.append_assoc] at h
    exact List.forall_mem_cons.2 ⟨⟨ht, h'.avoids h.2 (hmore.noCall hr)⟩,
      hmore.avoids h.2.of_append hr⟩

theorem Arguments.avoids {d : ℕ∞} {ts rest : List Token} {es : List Expr} :
    Arguments d ts es → CallsOnly symbol (ts ++ rest) → NoCall rest →
      ∀ e ∈ es, e.Every (Node.Avoids symbol)
  | .one h', h, hr => by simpa using h'.avoids h hr
  | .cons h' ht hrest, h, hr => by
    rw [List.append_assoc] at h
    exact List.forall_mem_cons.2 ⟨h'.avoids h (noCall_cons (by simp [ht])),
      hrest.avoids h.of_append.2 hr⟩

end

theorem DerivesStatement.avoids {d : ℕ∞} {ts : List Token} {w : Written}
    (h : DerivesStatement d ts w) (hts : CallsOnly symbol ts) :
    w.expr.Every (Node.Avoids symbol) := by
  have hnil : NoCall [] := by simp [NoCall]
  cases h with
  | assign _ _ h => exact h.avoids (by simpa using hts.2.2) hnil
  | plain h => exact h.avoids (by simpa using hts) hnil

/-- Another tree for a name that is none of the variables changes nothing. -/
theorem subst_assigned {e : Expr} (h : e.Every (Node.Avoids symbol)) (env : Bindings) (x : Expr) :
    e.subst (assigned env (some symbol) x) = e.subst env := by
  induction e using Expr.node_induction with
  | h n ih =>
    rw [Expr.every_mk] at h
    by_cases hn : ∃ s, n = .name s
    · obtain ⟨s, rfl⟩ := hn
      have hs : s ≠ symbol := h.1
      rw [Expr.subst_name, Expr.subst_name, assigned]
      simp [hs]
    · have hname : ∀ s, n ≠ .name s := fun s heq => hn ⟨s, heq⟩
      rw [Expr.subst_mk _ hname, Expr.subst_mk _ hname]
      exact congrArg Expr.mk (Node.map_congr fun c hc => ih c hc (h.2 c hc))

end Names

end Grammar

end BarScript
