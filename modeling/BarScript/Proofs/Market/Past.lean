import BarScript.Proofs.Indicator.Division

/-!
# The past of a market

Shifts of a series into the past add up (`Series.shifted_shifted`), and the close and the change
some bars before a time in the past are those of the market as it was then (`Market.closeAt_ago`,
`Market.changeAt_ago`).  Looking back never fails (`Market.exists_closeAt`,
`Market.exists_changeAt`).
-/

namespace BarScript

namespace Series

theorem ext_lists {s t : Series} (hc : s.closes = t.closes) (hl : s.companion = t.companion) :
    s = t := by
  cases s
  cases t
  cases hc
  cases hl
  rfl

@[simp] theorem length_take (s : Series) (n : Nat) : (s.take n).length = min n s.length :=
  List.length_take

theorem take_take (s : Series) (m n : Nat) : (s.take m).take n = s.take (min n m) := by
  refine ext_lists List.take_take (funext fun c => ?_)
  simp only [take]
  cases s.companion c with
  | none => rfl
  | some xs => exact congrArg some List.take_take

theorem shifted_of_nonneg (s : Series) {bars : Int} (h : 0 ≤ bars) :
    s.shifted bars = s.take (s.length - bars.toNat) := by
  unfold shifted
  split
  · have hz : bars = 0 := by omega
    subst hz
    refine ext_lists (by simp [take, length]) (funext fun c => ?_)
    simp only [take]
    cases hx : s.companion c with
    | none => rfl
    | some xs => simp [length, ← s.aligned c xs hx]
  · rfl

/-- **Shifts into the past add up.** -/
theorem shifted_shifted (s : Series) {m n : Int} (hm : 0 ≤ m) (hn : 0 ≤ n) :
    (s.shifted m).shifted n = s.shifted (n + m) := by
  rw [shifted_of_nonneg s hm, shifted_of_nonneg _ hn, shifted_of_nonneg s (by omega), take_take,
    length_take]
  congr 1
  omega

/-- The close some bars before the last one. -/
def close (s : Series) (n : Nat) (h : n < s.length) : Float :=
  have hlt : s.length - 1 - n < s.closes.length := by unfold length at *; omega
  s.closes[s.length - 1 - n]

/-- The change of the close some bars before the last one against the close before; none from a
close of zero. -/
def change (s : Series) (n : Nat) (h : n + 1 < s.length) : Float :=
  let before := s.close (n + 1) h
  if before == 0 then 0 else (s.close n (by omega) - before) / before

end Series

/-- The market some bars ago, with a quote for then. -/
def Market.ago (m : Market) (n : Nat) (quote : Quote) : Market :=
  { m with quote, series := m.series.shifted n }

/-- The close and the change some bars ago as a quote. -/
def Series.quote (s : Series) (n : Nat) (h : n + 1 < s.length) : Quote :=
  ⟨s.close n (by omega), s.change n h⟩

namespace Market

variable {m : Market} {n : Nat} {bars : Int}

theorem closeAt_eq (h : 0 < bars) :
    m.closeAt bars = .ok m.series.closes.reverse[bars.toNat]? := by
  have hlen : m.series.length = m.series.closes.length := rfl
  unfold closeAt
  rw [if_neg (by omega)]
  simp only
  split
  · rw [List.getElem?_eq_none (by rw [List.length_reverse]; omega)]
  · rw [List.getElem?_reverse (by omega), show m.series.closes.length - 1 - bars.toNat =
      ((m.series.length : Int) - 1 - bars).toNat by omega,
      List.getElem?_eq_getElem (by omega)]

theorem closes_ago (m : Market) (n : Nat) (quote : Quote) :
    (m.ago n quote).series.closes.reverse = m.series.closes.reverse.drop n := by
  have hlen : (m.ago n quote).series.closes =
      m.series.closes.take (m.series.closes.length - n) := by
    simp only [ago]
    rw [Series.shifted_of_nonneg _ (by omega)]
    rfl
  rw [hlen, List.reverse_take]
  rcases Nat.le_total n m.series.closes.length with h | h
  · rw [Nat.sub_sub_self h]
  · rw [List.drop_eq_nil_of_le (by rw [List.length_reverse]; omega),
      List.drop_eq_nil_of_le (by rw [List.length_reverse]; omega)]

/-- The close some bars before a time in the past. -/
theorem closeAt_ago (quote : Quote) (h : 0 < bars) :
    m.closeAt (bars + n) = (m.ago n quote).closeAt bars := by
  rw [closeAt_eq h, closeAt_eq (by omega), closes_ago, List.getElem?_drop,
    show (bars + n).toNat = n + bars.toNat by omega]

/-- The close at a time in the past. -/
theorem closeAt_of_lt (hn : 1 ≤ n) (h : n < m.series.length) :
    m.closeAt n = .ok (some (m.series.close n h)) := by
  have hlt : n < m.series.closes.length := h
  rw [closeAt_eq (by omega), Int.toNat_natCast, List.getElem?_reverse hlt,
    List.getElem?_eq_getElem (by omega)]
  rfl

/-- The change some bars before a time in the past. -/
theorem changeAt_ago (quote : Quote) (h : 0 < bars) :
    m.changeAt (bars + n) = (m.ago n quote).changeAt bars := by
  rw [changeAt, changeAt, if_neg (by omega), if_neg (by omega), closeAt_ago quote h,
    show bars + (n : Int) + 1 = bars + 1 + n by omega, closeAt_ago quote (by omega)]

theorem relativeChange_eq (before now : Float) :
    Scalar.relativeChange before now = .ok (if before == 0 then 0 else (now - before) / before) :=
  quotient_eq_ok _ _

/-- The change at a time in the past. -/
theorem changeAt_of_lt (hn : 1 ≤ n) (h : n + 1 < m.series.length) :
    m.changeAt n = .ok (some (m.series.change n h)) := by
  rw [changeAt, if_neg (by omega), closeAt_of_lt hn (by omega),
    show (n : Int) + 1 = (n + 1 : Nat) from rfl, closeAt_of_lt (by omega) h]
  simp only [bind, Except.bind, relativeChange_eq]
  rfl

/-- Before the first bar and at every bar the close is known or undefined. -/
theorem exists_closeAt (m : Market) (h : 0 ≤ bars) : ∃ x, m.closeAt bars = .ok x := by
  obtain rfl | hpos := h.eq_or_lt
  · exact ⟨_, rfl⟩
  · exact ⟨_, closeAt_eq hpos⟩

theorem exists_changeAt (m : Market) (h : 0 ≤ bars) : ∃ x, m.changeAt bars = .ok x := by
  obtain rfl | hpos := h.eq_or_lt
  · exact ⟨_, rfl⟩
  · obtain ⟨now, hnow⟩ := exists_closeAt m h
    obtain ⟨before, hbefore⟩ := exists_closeAt m (show 0 ≤ bars + 1 by omega)
    rw [changeAt, if_neg (by omega), hnow, hbefore]
    cases now with
    | none => exact ⟨_, rfl⟩
    | some x =>
      cases before with
      | none => exact ⟨_, rfl⟩
      | some y =>
        simp only [bind, Except.bind, relativeChange_eq]
        exact ⟨_, rfl⟩

end Market

end BarScript
