import BarScript.Proofs.Indicator.Tail
import BarScript.Proofs.Market.Past

/-!
# A market with older bars

A market may be known further back than another one: `Market.Extends n m m'` says that `m'` has `n`
older bars in front of the closes and of each other list that `m` has.  What `m` knows of the past
is then the same in `m'`: the close and the change some bars ago (`Market.Extends.closeAt`,
`Market.Extends.changeAt`) and the history some bars ago (`Series.Extends.shifted`).
-/

namespace BarScript

/-! ### Histories -/

/-- The same history with `n` older bars in front of each list that is known. -/
structure Series.Extends (n : Nat) (s t : Series) : Prop where
  closes : Prepended n s.closes t.closes
  companion : ∀ c, Option.Rel (Prepended n) (s.companion c) (t.companion c)

/-- The same lists known, each with `n` older items in front unless it is empty. -/
structure Series.Longer (n : Nat) (s t : Series) : Prop where
  closes : BarScript.Longer n s.closes t.closes
  companion : ∀ c, Option.Rel (BarScript.Longer n) (s.companion c) (t.companion c)

namespace Series

variable {n : Nat} {s t : Series}

theorem Extends.shifted (h : s.Extends n t) {bars : Int} (hb : 0 ≤ bars) :
    (s.shifted bars).Longer n (t.shifted bars) := by
  rw [shifted_of_nonneg s hb, shifted_of_nonneg t hb]
  refine ⟨.of_take h.closes bars.toNat, fun c => ?_⟩
  simp only [take, length]
  -- the lists are as long as the closes
  have htake : ∀ {x y : Option (List Float)}, Option.Rel (Prepended n) x y →
      (∀ xs, x = some xs → xs.length = s.closes.length) →
      (∀ ys, y = some ys → ys.length = t.closes.length) →
      Option.Rel (BarScript.Longer n) (x.map (List.take (s.closes.length - bars.toNat)))
        (y.map (List.take (t.closes.length - bars.toNat))) := by
    rintro _ _ (hxs | _) hx hy
    · rw [← hx _ rfl, ← hy _ rfl]
      exact .some (.of_take hxs _)
    · exact .none
  exact htake (h.companion c) (s.aligned c) (t.aligned c)

theorem Longer.line (h : s.Longer n t) (l : Line) :
    BarScript.Longer n (s.line l) (t.line l) := by
  have hgetD : ∀ {x y : Option (List Float)}, Option.Rel (BarScript.Longer n) x y →
      BarScript.Longer n (x.getD []) (y.getD []) := by
    rintro _ _ (hxs | _)
    · exact hxs
    · exact .inl rfl
  cases l with
  | prices => exact h.closes
  | highs => exact hgetD (h.companion .highs)
  | lows => exact hgetD (h.companion .lows)
  | volumes => exact hgetD (h.companion .volumes)

end Series

/-! ### Markets -/

/-- The same market with `n` older bars. -/
structure Market.Extends (n : Nat) (m m' : Market) : Prop where
  symbol : m'.symbol = m.symbol
  quote : m'.quote = m.quote
  tolerance : m'.tolerance = m.tolerance
  series : m.series.Extends n m'.series

namespace Market

variable {n : Nat} {m m' : Market} {bars : Int}

theorem Extends.closeAt (h : m.Extends n m') (hb : 0 ≤ bars) :
    Agree Kept (m.closeAt bars) (m'.closeAt bars) := by
  obtain rfl | hpos := hb.eq_or_lt
  · simp only [Market.closeAt, if_true, h.quote]
    exact .ok (.refl _)
  · obtain ⟨older, -, hcloses⟩ := h.series.closes
    rw [closeAt_eq hpos, closeAt_eq hpos, hcloses, List.reverse_append]
    refine .ok ?_
    by_cases hlt : bars.toNat < m.series.closes.reverse.length
    · exact .inr (List.getElem?_append_left hlt).symm
    · exact .inl (List.getElem?_eq_none (Nat.le_of_not_lt hlt))

theorem Extends.changeAt (h : m.Extends n m') (hb : 0 ≤ bars) :
    Agree Kept (m.changeAt bars) (m'.changeAt bars) := by
  rw [Market.changeAt, Market.changeAt]
  split
  · rw [h.quote]
    exact .ok (.refl _)
  · refine (h.closeAt hb).bind fun now now' hnow => ?_
    refine (h.closeAt (by omega)).bind fun before before' hbefore => ?_
    rcases hnow with rfl | rfl
    · exact fun a b ha hb => by cases ha; exact .inl rfl
    rcases hbefore with rfl | rfl
    · cases now <;> exact fun a b ha hb => by cases ha; exact .inl rfl
    · exact (Agree.refl _).mono fun a b hab => .inr hab

end Market

end BarScript
