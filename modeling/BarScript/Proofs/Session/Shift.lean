import BarScript.Proofs.Market.Past
import BarScript.Proofs.Session.Entries

/-!
# Shifts of a history compose

Shifting a history cuts its lists off and could check them against each other anew, as building a
history does (`Series.create_eq_ok_iff`).  The check never fails: shifts one after another cut off
the bars of the positive ones together, of the closes and of each companion list that is known
(`Series.shifts_compose`).  So it does not matter in which order they come and which of them are put
together, and the history that a session has for some bars is its own one shifted once, whatever it
remembers.

What carries the proof is that shifts add up (`Series.shifted_shifted`) and that a shift that is not
positive is none.
-/

namespace BarScript

namespace Series

/-! ### Lists that are aligned -/

theorem misaligned?_eq_none_iff {closes : List Float} {c : Companion}
    {points : Option (List Float)} :
    misaligned? closes c points = none ↔ ∀ xs, points = some xs → xs.length = closes.length := by
  cases points with
  | none => simp [misaligned?]
  | some xs => simp [misaligned?]

/-- **Lists make a history if each companion list that is known has one item for each close**, and
then the history has these lists. -/
theorem create_eq_ok_iff {closes : List Float} {highs lows volumes : Option (List Float)}
    {s : Series} : create closes highs lows volumes = .ok s ↔
      s.closes = closes ∧ s.companion = select highs lows volumes := by
  unfold create
  constructor
  · intro h
    split at h
    · cases h
    · split at h
      · cases h
      · split at h
        · cases h
        · cases h
          exact ⟨rfl, rfl⟩
  · rintro ⟨rfl, hselect⟩
    have haligned : ∀ c, misaligned? s.closes c (select highs lows volumes c) = none := fun c =>
      misaligned?_eq_none_iff.2 (hselect ▸ s.aligned c)
    split
    · rename_i e he
      exact absurd ((haligned .highs).symm.trans he) nofun
    · split
      · rename_i e he
        exact absurd ((haligned .lows).symm.trans he) nofun
      · split
        · rename_i e he
          exact absurd ((haligned .volumes).symm.trans he) nofun
        · exact congrArg Except.ok (ext_lists rfl hselect.symm)

/-- The history some bars ago, its lists cut off and checked against each other anew. -/
def recut (s : Series) (bars : Int) : Except Misaligned Series :=
  if bars ≤ 0 then .ok s
  else
    let cut (points : List Float) := points.take (s.length - bars.toNat)
    create (cut s.closes) ((s.companion .highs).map cut) ((s.companion .lows).map cut)
      ((s.companion .volumes).map cut)

/-- The check never fails. -/
theorem recut_eq (s : Series) (bars : Int) : s.recut bars = .ok (s.shifted bars) := by
  rw [recut, shifted]
  split
  · rfl
  · exact create_eq_ok_iff.2 ⟨rfl, funext fun c => by cases c <;> rfl⟩

/-! ### Shifts one after another -/

/-- The number of bars that shifts cut off together; one that is not positive cuts off none. -/
def barsBack (shifts : List Int) : Int := (shifts.filter (0 < ·)).sum

theorem barsBack_cons (bars : Int) (shifts : List Int) :
    barsBack (bars :: shifts) = max bars 0 + barsBack shifts := by
  rw [barsBack, barsBack, List.filter_cons]
  split
  · rename_i hpos
    rw [List.sum_cons, max_eq_left (of_decide_eq_true hpos).le]
  · rename_i hpos
    rw [max_eq_right (by simpa using hpos), Int.zero_add]

theorem barsBack_nonneg (shifts : List Int) : 0 ≤ barsBack shifts := by
  induction shifts with
  | nil => exact Int.le_refl 0
  | cons bars shifts ih => rw [barsBack_cons]; omega

theorem barsBack_append (shifts more : List Int) :
    barsBack (shifts ++ more) = barsBack shifts + barsBack more := by
  rw [barsBack, List.filter_append, List.sum_append, barsBack, barsBack]

/-- Shifts may be put together in groups. -/
theorem barsBack_flatten (groups : List (List Int)) :
    barsBack groups.flatten = barsBack (groups.map barsBack) := by
  induction groups with
  | nil => rfl
  | cons shifts groups ih =>
    rw [List.flatten_cons, barsBack_append, List.map_cons, barsBack_cons, ih,
      max_eq_left (barsBack_nonneg shifts)]

/-- Shifts may come in any order. -/
theorem barsBack_perm {shifts order : List Int} (h : shifts.Perm order) :
    barsBack shifts = barsBack order := (h.filter _).sum_eq

theorem shifted_max_zero (s : Series) (bars : Int) : s.shifted (max bars 0) = s.shifted bars := by
  rcases le_total bars 0 with h | h
  · rw [max_eq_right h, shifted, shifted, if_pos h, if_pos (Int.le_refl 0)]
  · rw [max_eq_left h]

/-- **Shifts one after another are one shift.** -/
theorem foldl_shifted (s : Series) (shifts : List Int) :
    shifts.foldl shifted s = s.shifted (barsBack shifts) := by
  induction shifts generalizing s with
  | nil => rfl
  | cons bars shifts ih =>
    rw [List.foldl_cons, ih, ← shifted_max_zero s,
      shifted_shifted s (le_max_right bars 0) (barsBack_nonneg shifts), barsBack_cons, Int.add_comm]

theorem foldlM_recut (s : Series) (shifts : List Int) :
    shifts.foldlM recut s = .ok (shifts.foldl shifted s) := by
  induction shifts generalizing s with
  | nil => rfl
  | cons bars shifts ih =>
    rw [List.foldlM_cons, recut_eq, List.foldl_cons]
    exact ih _

/-- What is left after shifts one after another. -/
theorem foldl_shifted_eq_take (s : Series) (shifts : List Int) :
    shifts.foldl shifted s = s.take (s.length - barsBack shifts).toNat := by
  have hnonneg := barsBack_nonneg shifts
  rw [foldl_shifted, shifted_of_nonneg s hnonneg]
  congr 1
  omega

end Series

/-! ### Sessions -/

/-- **Shifts of a history compose.**  Shifts one after another, each with its lists checked anew,
never fail.  They leave the first bars of the closes and of each companion list that is known, as
many as there are without those of the positive shifts, and none of a list that is not known.  Any
other order of the shifts leaves the same, and so does one shift in place of each group of them.
The history that a session has for some bars, whatever it has been asked, is its own shifted
once. -/
theorem Series.shifts_compose :
    (∀ (s : Series) (shifts : List Int),
      let t := shifts.foldl shifted s
      let left := (s.length - barsBack shifts).toNat
      shifts.foldlM recut s = .ok t ∧ t.closes = s.closes.take left ∧
        (∀ c, t.companion c = (s.companion c).map (List.take left)) ∧
        (∀ order, shifts.Perm order → order.foldl shifted s = t) ∧
        ∀ groups : List (List Int), groups.flatten = shifts →
          (groups.map barsBack).foldl shifted s = t) ∧
    ∀ (market : Market) (steps : List Step) (bars : Int),
      let session := (Session.start market).after steps
      session.market = market ∧
        (session.seriesAt bars).1 = session.market.series.shifted bars := by
  constructor
  · intro s shifts t left
    have ht : t = s.take left := foldl_shifted_eq_take s shifts
    refine ⟨foldlM_recut s shifts, ht ▸ rfl, fun c => ht ▸ rfl, fun order h => ?_,
      fun groups h => ?_⟩
    · rw [foldl_shifted, ← barsBack_perm h, ← foldl_shifted]
    · rw [foldl_shifted, ← barsBack_flatten, h, ← foldl_shifted]
  · intro market steps bars session
    obtain ⟨hsound, -⟩ := (Session.sound_start market fun _ => True).after_continues steps
    refine ⟨hsound.market_eq, ?_⟩
    rw [hsound.market_eq]
    exact (hsound.seriesAt bars).1

/-- Two shifts around one that is none, in another order and put together, and a session that is
asked for a history after a failure. -/
theorem Series.shifts_compose_three :
    let s : Series := ⟨[1, 2, 3, 4, 5], select (some [6, 7, 8, 9, 10]) none none, by
      rintro (_ | _ | _) xs h
      · simp only [select, Option.some.injEq] at h
        simp [← h]
      · cases h
      · cases h⟩
    let market : Market := ⟨"A", ⟨4, 0⟩, s, 0.001⟩
    let e : Expr := .mk (.binary "+" (.mk (.call "highest" [.mk (.number 2)])) (.mk (.name "open")))
    let t := [1, -3, 2].foldl shifted s
    [1, -3, 2].foldlM recut s = .ok t ∧ t.closes = [1, 2] ∧ t.companion .highs = some [6, 7] ∧
      t.companion .lows = none ∧ [2, 1, -3].foldl shifted s = t ∧ [1, 2].foldl shifted s = t ∧
      (((Session.start market).after [.evaluate (.ofExpr e) (Formula.wellFormed_ofExpr e),
        .seriesAt 3]).seriesAt 3).1 = t := by
  intro s market e t
  let steps : List Step := [.evaluate (.ofExpr e) (Formula.wellFormed_ofExpr e), .seriesAt 3]
  obtain ⟨hcheck, hcloses, hcompanion, horder, hgroups⟩ := shifts_compose.1 s [1, -3, 2]
  obtain ⟨hmarket, hsession⟩ := shifts_compose.2 market steps 3
  have hback : barsBack [1, -3, 2] = 3 := by decide
  have hleft : (s.length - barsBack [1, -3, 2]).toNat = 2 := by decide
  rw [hleft] at hcloses hcompanion
  refine ⟨hcheck, hcloses, hcompanion .highs, hcompanion .lows, horder _ (by decide),
    hgroups [[1, -3], [2]] rfl, ?_⟩
  have hshifted : t = s.shifted 3 := by rw [← hback, ← foldl_shifted]
  exact hsession.trans ((congrArg (·.series.shifted 3) hmarket).trans hshifted.symm)

end BarScript
