/-!
# Results of computations that can fail

A computation made of two parts gives a result if both do (`bind_eq_ok_iff`), and fails if the first
does or the second does with the result of the first (`bind_eq_error_iff`).  Two computations may be
compared by their results (`Agree`).
-/

namespace BarScript

variable {ε α β : Type}

@[simp] theorem bind_eq_ok_iff {x : Except ε α} {f : α → Except ε β} {b : β} :
    (x >>= f) = .ok b ↔ ∃ a, x = .ok a ∧ f a = .ok b := by
  cases x <;> simp [bind, Except.bind]

@[simp] theorem bind_eq_error_iff {x : Except ε α} {f : α → Except ε β} {e : ε} :
    (x >>= f) = .error e ↔ x = .error e ∨ ∃ a, x = .ok a ∧ f a = .error e := by
  cases x <;> simp [bind, Except.bind]

@[simp] theorem map_eq_ok_iff {x : Except ε α} {f : α → β} {b : β} :
    x.map f = .ok b ↔ ∃ a, x = .ok a ∧ f a = b := by
  cases x <;> simp [Except.map]

@[simp] theorem map_eq_error_iff {x : Except ε α} {f : α → β} {e : ε} :
    x.map f = .error e ↔ x = .error e := by
  cases x <;> simp [Except.map]

@[simp] theorem mapError_eq_ok_iff {ε' : Type} {x : Except ε α} {f : ε → ε'} {a : α} :
    x.mapError f = .ok a ↔ x = .ok a := by
  cases x with
  | ok b => constructor <;> intro h <;> cases h <;> rfl
  | error e => constructor <;> intro h <;> cases h

theorem mapError_eq_error_iff {ε' : Type} {x : Except ε α} {f : ε → ε'} {e : ε'} :
    x.mapError f = .error e ↔ ∃ e', x = .error e' ∧ f e' = e := by
  cases x with
  | ok a =>
    constructor
    · intro h
      cases h
    · rintro ⟨e', h, -⟩
      cases h
  | error e' =>
    constructor
    · intro h
      cases h
      exact ⟨e', rfl, rfl⟩
    · rintro ⟨e'', h, rfl⟩
      cases h
      rfl

theorem except_map_bind {γ : Type} (x : Except ε α) (f : α → Except ε β) (g : β → γ) :
    (x >>= f).map g = x >>= fun a => (f a).map g := by
  cases x <;> rfl

/-- Whether a computation fails does not depend on what it gives. -/
@[simp] theorem forget_eq_error_iff {x : Except ε α} {e : ε} :
    (fun _ => ()) <$> x = .error e ↔ x = .error e :=
  map_eq_error_iff

/-- Computations one after another fail with the error of the first one that fails. -/
theorem mapM_eq_error_iff {f : α → Except ε β} {as : List α} {e : ε} :
    as.mapM f = .error e ↔ ∃ before a after, as = before ++ a :: after ∧
      (∀ b ∈ before, ∃ c, f b = .ok c) ∧ f a = .error e := by
  induction as with
  | nil =>
    constructor
    · nofun
    · rintro ⟨before, a, after, h, -⟩
      simp at h
  | cons a as ih =>
    rw [List.mapM_cons, bind_eq_error_iff]
    constructor
    · rintro (h | ⟨c, hc, h⟩)
      · exact ⟨[], a, as, rfl, by simp, h⟩
      · rcases bind_eq_error_iff.1 h with h | ⟨cs, -, ⟨⟩⟩
        obtain ⟨before, b, after, rfl, hbefore, hb⟩ := ih.1 h
        exact ⟨a :: before, b, after, rfl, List.forall_mem_cons.2 ⟨⟨c, hc⟩, hbefore⟩, hb⟩
    · rintro ⟨_ | ⟨b, before⟩, c, after, h, hbefore, hc⟩
      · cases h
        exact .inl hc
      · cases h
        obtain ⟨⟨d, hd⟩, hbefore⟩ := List.forall_mem_cons.1 hbefore
        exact .inr ⟨d, hd, bind_eq_error_iff.2 (.inl (ih.2 ⟨before, c, after, rfl, hbefore, hc⟩))⟩

/-- Checks one after another pass if each of them does. -/
theorem forM_eq_ok_iff {f : α → Except ε Unit} {as : List α} :
    as.forM f = .ok () ↔ ∀ a ∈ as, f a = .ok () := by
  induction as with
  | nil => simp [List.forM, pure, Except.pure]
  | cons a as ih =>
    rw [List.forM, bind_eq_ok_iff, List.forall_mem_cons, ← ih]
    exact ⟨fun ⟨_, ha, has⟩ => ⟨ha, has⟩, fun ⟨ha, has⟩ => ⟨(), ha, has⟩⟩

/-- Checks one after another fail with the error of the first one that fails. -/
theorem forM_eq_error_iff {f : α → Except ε Unit} {as : List α} {e : ε} :
    as.forM f = .error e ↔ ∃ before a after, as = before ++ a :: after ∧
      (∀ b ∈ before, f b = .ok ()) ∧ f a = .error e := by
  induction as with
  | nil =>
    constructor
    · nofun
    · rintro ⟨before, a, after, h, -⟩
      simp at h
  | cons a as ih =>
    rw [List.forM, bind_eq_error_iff]
    constructor
    · rintro (h | ⟨⟨⟩, ha, h⟩)
      · exact ⟨[], a, as, rfl, by simp, h⟩
      · obtain ⟨before, b, after, rfl, hbefore, hb⟩ := ih.1 h
        exact ⟨a :: before, b, after, rfl, List.forall_mem_cons.2 ⟨ha, hbefore⟩, hb⟩
    · rintro ⟨_ | ⟨b, before⟩, c, after, h, hbefore, hc⟩
      · cases h
        exact .inl hc
      · cases h
        rw [List.forall_mem_cons] at hbefore
        exact .inr ⟨(), hbefore.1, ih.2 ⟨before, c, after, rfl, hbefore.2, hc⟩⟩

/-- The second part matters for results of the first one only. -/
theorem bind_congr_ok {x : Except ε α} {f g : α → Except ε β} (h : ∀ a, x = .ok a → f a = g a) :
    (x >>= f) = (x >>= g) := by
  cases x with
  | error e => rfl
  | ok a => exact h a rfl

/-! ### Two computations -/

/-- If two computations both give a result, the results are related. -/
def Agree {ε' : Type} (r : α → β → Prop) (x : Except ε α) (y : Except ε' β) : Prop :=
  ∀ ⦃a b⦄, x = .ok a → y = .ok b → r a b

namespace Agree

variable {ε' γ δ : Type} {r : α → β → Prop} {s : γ → δ → Prop} {x : Except ε α} {y : Except ε' β}

theorem ok {a : α} {b : β} (h : r a b) : Agree r (.ok a : Except ε α) (.ok b : Except ε' β) := by
  rintro _ _ ⟨⟩ ⟨⟩
  exact h

theorem error_left (e : ε) : Agree r (.error e) y := nofun

theorem mono {r' : α → β → Prop} (h : Agree r x y) (hr : ∀ a b, r a b → r' a b) : Agree r' x y :=
  fun _ _ ha hb => hr _ _ (h ha hb)

theorem and_left {p : α → Prop} (h : Agree r x y) (hp : ∀ a, x = .ok a → p a) :
    Agree (fun a b => r a b ∧ p a) x y := fun a _ ha hb => ⟨h ha hb, hp a ha⟩

theorem bind {f : α → Except ε γ} {g : β → Except ε' δ} (h : Agree r x y)
    (hf : ∀ a b, r a b → Agree s (f a) (g b)) : Agree s (x >>= f) (y >>= g) := by
  intro c d hc hd
  obtain ⟨a, ha, hc⟩ := bind_eq_ok_iff.1 hc
  obtain ⟨b, hb, hd⟩ := bind_eq_ok_iff.1 hd
  exact hf a b (h ha hb) hc hd

theorem map {f : α → γ} {g : β → δ} (h : Agree r x y) (hf : ∀ a b, r a b → s (f a) (g b)) :
    Agree s (x.map f) (y.map g) := by
  intro c d hc hd
  obtain ⟨a, ha, rfl⟩ := map_eq_ok_iff.1 hc
  obtain ⟨b, hb, rfl⟩ := map_eq_ok_iff.1 hd
  exact hf a b (h ha hb)

/-- A computation agrees with itself. -/
theorem refl (x : Except ε α) : Agree Eq x x := by
  intro a b ha hb
  cases ha.symm.trans hb
  rfl

end Agree

end BarScript
