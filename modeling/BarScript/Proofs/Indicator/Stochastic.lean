import BarScript.Proofs.Indicator.Exact
import Mathlib.Algebra.Order.Field.Basic
import Mathlib.Order.Interval.Set.Basic
import Mathlib.Tactic.FieldSimp
import Mathlib.Tactic.Linarith
import Mathlib.Tactic.Ring

/-!
# Two views of the place of the close

In exact arithmetic `kdj` without smoothing and `williamsR` are one line: both look at the same
window and give the same place in it, counted from 0 up to 100 and from 0 down to -100, also where
the window is flat (`Span.fromHigh_eq`).

`kdj_williamsR` : that, and the ranges of both indicators where each close lies between the low and
the high of its bar.  The range of a running average is an invariant of its recursion
(`smooth_mem`), which rests on the close of a bar lying in the span of every window that ends in the
bar (`exists_span`).
-/

namespace BarScript

namespace Indicator

open Scalar

/-! ### Bars -/

variable {highs lows closes : List ℚ}

/-- Every close lies between the low and the high of its bar. -/
def Bracketed (highs lows closes : List ℚ) : Prop :=
  ∀ bar ∈ lows.zip (closes.zip highs), bar.1 ≤ bar.2.1 ∧ bar.2.1 ≤ bar.2.2

theorem Bracketed.of_getElem? (h : Bracketed highs lows closes) {bar : Nat} {low close high : ℚ}
    (hlow : lows[bar]? = some low) (hclose : closes[bar]? = some close)
    (hhigh : highs[bar]? = some high) : low ≤ close ∧ close ≤ high := by
  refine h (low, close, high) (List.mem_of_getElem? (i := bar) ?_)
  rw [List.getElem?_zip_eq_some, List.getElem?_zip_eq_some]
  exact ⟨hlow, hclose, hhigh⟩

section

variable [SquareRoot]

/-! ### Places -/

/-- Where the range is flat both places are in the middle. -/
theorem Span.fromHigh_eq (s : Span ℚ) : s.fromHigh = s.fromLow.map (· - 100) := by
  unfold fromHigh fromLow
  by_cases hflat : s.high = s.low
  · rw [if_pos (exact_beq.2 hflat), if_pos (exact_beq.2 hflat)]
    simp only [exact_ofNat, Except.map]
    norm_num
  · have hrange : s.high - s.low ≠ 0 := sub_ne_zero.2 hflat
    rw [if_neg (mt exact_beq.1 hflat), if_neg (mt exact_beq.1 hflat), exact_div _ hrange,
      exact_div _ hrange]
    simp only [exact_ofNat, Except.map, bind, Except.bind, pure, Except.pure, Except.ok.injEq]
    push_cast
    field_simp
    ring

/-- A close in the span has a place between 0 and 100. -/
theorem Span.exists_fromLow (s : Span ℚ) : ∃ x, s.fromLow = .ok x ∧
    (s.low ≤ s.close → s.close ≤ s.high → x ∈ Set.Icc 0 100) := by
  unfold fromLow
  by_cases hflat : s.high = s.low
  · rw [if_pos (exact_beq.2 hflat)]
    exact ⟨_, rfl, fun _ _ => by norm_num [exact_ofNat]⟩
  · rw [if_neg (mt exact_beq.1 hflat), exact_div _ (sub_ne_zero.2 hflat)]
    refine ⟨_, rfl, fun hlow hhigh => ?_⟩
    have hrange : 0 < s.high - s.low := by
      rcases lt_or_eq_of_le (hlow.trans hhigh) with h | h
      · linarith
      · exact absurd h.symm hflat
    have hnonneg : 0 ≤ (s.close - s.low) / (s.high - s.low) :=
      div_nonneg (by linarith) hrange.le
    have hle : (s.close - s.low) / (s.high - s.low) ≤ 1 :=
      (div_le_one hrange).2 (by linarith)
    simp only [exact_ofNat, Set.mem_Icc]
    push_cast
    constructor <;> linarith

/-! ### Windows -/

/-- A window has a span, and the span contains the close if the bars do. -/
theorem exists_span (hh : highs.length = closes.length) (hl : lows.length = closes.length)
    {n : Nat} (hn : 0 < n) {e : ℚ × Nat} (he : e ∈ windowEnds n closes) :
    ∃ s, span highs lows n e.2 e.1 = .ok s ∧
      (Bracketed highs lows closes → s.low ≤ s.close ∧ s.close ≤ s.high) := by
  obtain ⟨close, start⟩ := e
  have hend : start + n ≤ closes.length := add_le_of_mem_windowEnds hn he
  have hclose : closes[start + (n - 1)]? = some close := by
    have hdrop := List.mem_zipIdx_iff_getElem?.1 he
    rwa [List.getElem?_drop, Nat.add_comm] at hdrop
  obtain ⟨h, hhigh⟩ : ∃ h, highs[start + (n - 1)]? = some h :=
    ⟨_, List.getElem?_eq_getElem (by omega)⟩
  obtain ⟨l, hlow⟩ : ∃ l, lows[start + (n - 1)]? = some l :=
    ⟨_, List.getElem?_eq_getElem (by omega)⟩
  have hmemHigh := mem_window hn hhigh
  have hmemLow := mem_window hn hlow
  obtain ⟨top, htop, -, hletop⟩ := exists_maximum (List.ne_nil_of_mem hmemHigh)
  obtain ⟨bottom, hbottom, -, hbottomle⟩ := exists_minimum (List.ne_nil_of_mem hmemLow)
  refine ⟨⟨top, bottom, close⟩, ?_, fun hbars => ?_⟩
  · simp only [span, htop, hbottom]
    rfl
  · obtain ⟨hlc, hch⟩ := hbars.of_getElem? hlow hclose hhigh
    exact ⟨(hbottomle l hmemLow).trans hlc, hch.trans (hletop h hmemHigh)⟩

/-- Every window has a place. -/
theorem exists_places (hh : highs.length = closes.length) (hl : lows.length = closes.length)
    (period : Int) : ∃ xs, places Span.fromLow highs lows closes period = .ok xs ∧
      (Bracketed highs lows closes → ∀ x ∈ xs, x ∈ Set.Icc 0 100) := by
  unfold places
  split
  · rename_i hwindow
    simp only [haveWindow, Bool.and_eq_true, decide_eq_true_eq] at hwindow
    have hn : 0 < period.toNat := by omega
    have hpoint : ∀ e ∈ windowEnds period.toNat closes, ∃ x : ℚ,
        (span highs lows period.toNat e.2 e.1 >>= Span.fromLow) = .ok x ∧
          (Bracketed highs lows closes → x ∈ Set.Icc 0 100) := by
      intro e he
      obtain ⟨s, hs, hin⟩ := exists_span hh hl hn he
      obtain ⟨x, hx, hplace⟩ := s.exists_fromLow
      rw [hs]
      exact ⟨x, hx, fun hbars => hplace (hin hbars).1 (hin hbars).2⟩
    obtain ⟨xs, hxs, hall⟩ := exists_mapM hpoint
    exact ⟨xs, hxs, fun hbars x hx => hall x hx hbars⟩
  · exact ⟨[], rfl, fun _ => by simp⟩

/-- The places of the closes, counted from the other end. -/
theorem williamsR_of_places {period : Int} {xs : List ℚ}
    (h : places Span.fromLow highs lows closes period = .ok xs) :
    williamsR highs lows closes period = .ok (xs.map (· - 100)) := by
  unfold williamsR
  unfold places at h ⊢
  split at h
  · rw [if_pos ‹_›, ← mapM_map_result h (· - 100)]
    refine mapM_congr fun e _ => ?_
    simp only [Span.fromHigh_eq]
    cases span highs lows period.toNat e.2 e.1 <;> rfl
  · cases h
    rw [if_neg ‹_›]
    rfl

/-! ### Running averages -/

theorem smooth_eq {n : Int} (hn : 0 < n) (before value : ℚ) :
    smooth n before value = .ok ((value + (n - 1) * before) / n) := by
  have hne : (n : ℚ) ≠ 0 := Int.cast_ne_zero.2 hn.ne'
  change Scalar.div (value + ((n - 1 : Int) : ℚ) * before) (n : ℚ) = _
  rw [exact_div _ hne, Int.cast_sub, Int.cast_one]

/-- A running average stays in the range of its values. -/
theorem smooth_mem {n : Int} (hn : 0 < n) {before value x : ℚ} (hbefore : before ∈ Set.Icc 0 100)
    (hvalue : value ∈ Set.Icc 0 100) (h : smooth n before value = .ok x) : x ∈ Set.Icc 0 100 := by
  rw [smooth_eq hn] at h
  cases h
  have hpos : (0 : ℚ) < n := Int.cast_pos.2 hn
  have hone : (1 : ℚ) ≤ n := by exact_mod_cast hn
  obtain ⟨hb0, hb1⟩ := hbefore
  obtain ⟨hv0, hv1⟩ := hvalue
  have hlow : 0 ≤ (n - 1) * before := mul_nonneg (by linarith) hb0
  have hhigh : (n - 1) * before ≤ (n - 1) * 100 := mul_le_mul_of_nonneg_left hb1 (by linarith)
  constructor
  · exact div_nonneg (by linarith) hpos.le
  · rw [div_le_iff₀ hpos]
    linarith

/-- A point in its range. -/
structure KdjPoint.InRange (p : KdjPoint ℚ) : Prop where
  k : p.k ∈ Set.Icc 0 100
  d : p.d ∈ Set.Icc 0 100
  j : p.j ∈ Set.Icc (-200) 300

section

variable {kLength dLength : Int} {k d : ℚ} {xs : List ℚ} {points : List (KdjPoint ℚ)}

theorem exists_kdjFrom (hk : 0 < kLength) (hd : 0 < dLength) (k d : ℚ) (xs : List ℚ) :
    ∃ points, kdjFrom kLength dLength k d xs = .ok points := by
  induction xs generalizing k d with
  | nil => exact ⟨[], rfl⟩
  | cons x xs ih =>
    rw [kdjFrom, smooth_eq hk]
    simp only [smooth_eq hd, bind, Except.bind]
    obtain ⟨points, hpoints⟩ := ih ((x + (kLength - 1) * k) / kLength) _
    exact ⟨_, by rw [hpoints]; rfl⟩

/-- Without smoothing `k` is the place itself. -/
theorem map_k_kdjFrom (h : kdjFrom 1 dLength k d xs = .ok points) : points.map (·.k) = xs := by
  induction xs generalizing k d points with
  | nil => cases h; rfl
  | cons x xs ih =>
    obtain ⟨k, hk, h⟩ := bind_eq_ok_iff.1 h
    obtain ⟨d, -, h⟩ := bind_eq_ok_iff.1 h
    obtain ⟨points, hpoints, h⟩ := bind_eq_ok_iff.1 h
    cases h
    rw [smooth_eq Int.one_pos] at hk
    cases hk
    rw [List.map_cons, ih hpoints]
    simp

/-- **The range of the running averages** is kept by each step. -/
theorem inRange_kdjFrom (hkLength : 0 < kLength) (hdLength : 0 < dLength)
    (hk : k ∈ Set.Icc 0 100) (hd : d ∈ Set.Icc 0 100) (hxs : ∀ x ∈ xs, x ∈ Set.Icc 0 100)
    (h : kdjFrom kLength dLength k d xs = .ok points) : ∀ p ∈ points, p.InRange := by
  induction xs generalizing k d points with
  | nil => cases h; simp
  | cons x xs ih =>
    rw [List.forall_mem_cons] at hxs
    obtain ⟨k', hk', h⟩ := bind_eq_ok_iff.1 h
    obtain ⟨d', hd', h⟩ := bind_eq_ok_iff.1 h
    obtain ⟨points, hpoints, h⟩ := bind_eq_ok_iff.1 h
    cases h
    have hkmem := smooth_mem hkLength hk hxs.1 hk'
    have hdmem := smooth_mem hdLength hd hkmem hd'
    refine List.forall_mem_cons.2 ⟨⟨hkmem, hdmem, ?_⟩, ih hkmem hdmem hxs.2 hpoints⟩
    obtain ⟨hk0, hk1⟩ := hkmem
    obtain ⟨hd0, hd1⟩ := hdmem
    simp only [exact_ofNat, Set.mem_Icc]
    push_cast
    constructor <;> linarith

end

/-- **The two places of the close agree and stay in range.**  For aligned bars and a positive
period, `williamsR` is `k` without smoothing, less 100, at every bar.  If each close lies between
the low and the high of its bar, then `k` and `d` lie between 0 and 100 and `j` between -200 and
300, however they are smoothed, and `williamsR` between -100 and 0. -/
theorem kdj_williamsR (highs lows closes : List ℚ) (hh : highs.length = closes.length)
    (hl : lows.length = closes.length) {period : Int} (hperiod : 0 < period) :
    (∃ points, kdj highs lows closes period 1 1 = .ok points ∧
      points.length = closes.length + 1 - period.toNat ∧
      williamsR highs lows closes period = .ok (points.map fun p => p.k - 100)) ∧
    (Bracketed highs lows closes →
      (∀ kLength dLength : Int, 0 < kLength → 0 < dLength → ∃ points,
        kdj highs lows closes period kLength dLength = .ok points ∧ ∀ p ∈ points, p.InRange) ∧
      ∃ line, williamsR highs lows closes period = .ok line ∧
        ∀ x ∈ line, x ∈ Set.Icc (-100) 0) := by
  obtain ⟨xs, hxs, hrange⟩ := exists_places hh hl period
  have hwilliams := williamsR_of_places hxs
  have hkdj : ∀ kLength dLength : Int, 0 < kLength → 0 < dLength →
      kdj highs lows closes period kLength dLength = kdjFrom kLength dLength 50 50 xs := by
    intro kLength dLength hk hd
    rw [kdj, if_neg (by omega), hxs]
    rfl
  refine ⟨?_, fun hbars => ⟨fun kLength dLength hk hd => ?_, ?_⟩⟩
  · obtain ⟨points, hpoints⟩ := exists_kdjFrom Int.one_pos Int.one_pos 50 50 xs
    refine ⟨points, (hkdj 1 1 Int.one_pos Int.one_pos).trans hpoints, ?_, ?_⟩
    · rw [length_kdjFrom hpoints, length_places hh hl hxs, if_pos hperiod]
    · rw [hwilliams, ← map_k_kdjFrom hpoints, List.map_map]
      rfl
  · have hstart : (50 : ℚ) ∈ Set.Icc 0 100 := by norm_num
    obtain ⟨points, hpoints⟩ := exists_kdjFrom hk hd 50 50 xs
    exact ⟨points, (hkdj kLength dLength hk hd).trans hpoints,
      inRange_kdjFrom hk hd hstart hstart (hrange hbars) hpoints⟩
  · refine ⟨_, hwilliams, List.forall_mem_map.2 fun x hx => ?_⟩
    obtain ⟨h0, h1⟩ := hrange hbars x hx
    constructor <;> linarith

end

/-- Four bars, the last two of them flat. -/
theorem kdj_williamsR_flat :
    letI : SquareRoot := ⟨fun x => x⟩
    let highs : List ℚ := [3, 5, 4, 4]
    let lows : List ℚ := [1, 2, 4, 4]
    let closes : List ℚ := [2, 5, 4, 4]
    highs.length = closes.length ∧ lows.length = closes.length ∧ (0 : Int) < 2 ∧
      Bracketed highs lows closes ∧
      (∃ points, kdj highs lows closes 2 1 1 = .ok points ∧
        points.map (fun p => p.k - 100) = [0, -100 / 3, -50]) ∧
      ∃ points, kdj highs lows closes 2 3 3 = .ok points ∧ ∀ p ∈ points, p.InRange := by
  intro highs lows closes
  let _ : SquareRoot := ⟨fun x => x⟩
  have hbars : Bracketed highs lows closes := by unfold Bracketed; decide +kernel
  have htwo : (0 : Int) < 2 := by decide
  obtain ⟨⟨points, hpoints, -, hline⟩, hrange⟩ := kdj_williamsR highs lows closes rfl rfl htwo
  have hvalue : williamsR highs lows closes 2 = .ok [0, -100 / 3, -50] := by decide +kernel
  rw [hvalue] at hline
  exact ⟨rfl, rfl, htwo, hbars, ⟨points, hpoints, (Except.ok.inj hline).symm⟩,
    (hrange hbars).1 3 3 (by decide) (by decide)⟩

end Indicator

end BarScript
