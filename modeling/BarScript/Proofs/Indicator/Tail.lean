import BarScript.Builtin
import BarScript.Proofs.Except
import Mathlib.Data.List.Infix

/-!
# The last point of an indicator

The last point of an indicator over windows depends on the last window only: the points for a list
of prices are the last of the points for any list that ends with these prices.  So a point that is
known stays the same when older prices are added in front (`PriceFunction.kept_compute`,
`BarFunction.kept_compute_williamsR`); averages that carry something along from the first price on
are not among these functions (`PriceFunction.Windowed`).

For highs, lows and closes, the same number of older bars has to be added to each (`Longer`).
-/

namespace BarScript

/-! ### Older prices in front -/

section

variable {α β : Type}

/-- A result that is known stays. -/
def Kept (x y : Option α) : Prop := x = none ∨ x = y

theorem Kept.refl (x : Option α) : Kept x x := .inr rfl

theorem Kept.map {x y : Option α} (h : Kept x y) (f : α → β) : Kept (x.map f) (y.map f) := by
  rcases h with rfl | rfl
  · exact .inl rfl
  · exact .inr rfl

/-- The same items with `n` older ones in front. -/
def Prepended (n : Nat) (xs ys : List α) : Prop := ∃ older, older.length = n ∧ ys = older ++ xs

/-- The same items with `n` older ones in front, or no items at all. -/
def Longer (n : Nat) (xs ys : List α) : Prop := xs = [] ∨ Prepended n xs ys

namespace Longer

variable {n : Nat} {xs ys : List α}

theorem suffix (h : Longer n xs ys) : xs <:+ ys := by
  rcases h with rfl | ⟨older, -, rfl⟩
  · exact List.nil_suffix
  · exact List.suffix_append older xs

/-- Items counted from the front are the same, so many places further on. -/
theorem drop_eq (h : Longer n xs ys) (hne : xs ≠ []) (k : Nat) : ys.drop (k + n) = xs.drop k := by
  rcases h with rfl | ⟨older, rfl, rfl⟩
  · exact absurd rfl hne
  · rw [Nat.add_comm, ← List.drop_drop, List.drop_left]

theorem length_eq (h : Longer n xs ys) (hne : xs ≠ []) : ys.length = n + xs.length := by
  rcases h with rfl | ⟨older, rfl, rfl⟩
  · exact absurd rfl hne
  · exact List.length_append

/-- The items but the last few. -/
theorem of_take (h : Prepended n xs ys) (k : Nat) :
    Longer n (xs.take (xs.length - k)) (ys.take (ys.length - k)) := by
  obtain ⟨older, rfl, rfl⟩ := h
  by_cases hk : xs.length ≤ k
  · exact .inl (by rw [Nat.sub_eq_zero_of_le hk, List.take_zero])
  · refine .inr ⟨older, rfl, ?_⟩
    rw [List.length_append, Nat.add_sub_assoc (by omega), List.take_append, List.take_of_length_le
      (by omega), Nat.add_sub_cancel_left]

end Longer

theorem kept_getLast? {xs ys : List α} (h : xs <:+ ys) : Kept xs.getLast? ys.getLast? := by
  obtain ⟨older, rfl⟩ := h
  cases xs with
  | nil => exact .inl rfl
  | cons x xs => exact .inr (List.getLast?_append_of_ne_nil _ (by simp)).symm

end

namespace Indicator

section

variable {α β ε : Type}

/-! ### Lists of points -/

theorem suffix_of_cons {f : List α → List β} (h : ∀ x xs, f xs <:+ f (x :: xs)) {xs ys : List α}
    (hs : xs <:+ ys) : f xs <:+ f ys := by
  obtain ⟨older, rfl⟩ := hs
  induction older with
  | nil => exact List.suffix_rfl
  | cons x older ih => exact ih.trans (h x _)

theorem agree_mapM (f : α → Except ε β) {xs ys : List α} (h : xs <:+ ys) :
    Agree (· <:+ ·) (xs.mapM f) (ys.mapM f) := by
  obtain ⟨older, rfl⟩ := h
  intro as bs ha hb
  rw [List.mapM_append] at hb
  obtain ⟨front, -, hb⟩ := bind_eq_ok_iff.1 hb
  obtain ⟨as', ha', hb⟩ := bind_eq_ok_iff.1 hb
  cases ha.symm.trans ha'
  cases hb
  exact List.suffix_append front as

theorem windows_eq_nil {n : Nat} {xs : List α} (h : xs.length < n) : windows n xs = [] := by
  cases xs with
  | nil => rfl
  | cons x xs =>
    rw [windows, if_neg]
    rw [List.length_take]
    omega

theorem windows_suffix (n : Nat) {xs ys : List α} (h : xs <:+ ys) :
    windows n xs <:+ windows n ys := by
  refine suffix_of_cons (fun x xs => ?_) h
  rw [windows]
  split
  · exact List.suffix_cons _ _
  · rename_i hlt
    rw [windows_eq_nil (by rw [List.length_take, List.length_cons] at hlt; omega)]

theorem moves_suffix [Sub α] {xs ys : List α} (h : xs <:+ ys) : moves xs <:+ moves ys := by
  refine suffix_of_cons (fun x xs => ?_) h
  cases xs with
  | nil => exact List.nil_suffix
  | cons y xs => exact List.suffix_cons _ _

/-- The pairs of items `n + 1` places apart. -/
theorem zip_drop_suffix (n : Nat) {xs ys : List α} (h : xs <:+ ys) :
    xs.zip (xs.drop (n + 1)) <:+ ys.zip (ys.drop (n + 1)) := by
  refine suffix_of_cons (f := fun xs => xs.zip (xs.drop (n + 1))) (fun x xs => ?_) h
  simp only [List.drop_succ_cons]
  cases hd : xs.drop n with
  | nil => simp [← List.tail_drop, hd]
  | cons y rest => simp [← List.tail_drop, hd]

/-- The windows that end in the same closes are the same, so many places further on. -/
theorem windowEnds_longer {n period : Nat} (hp : 0 < period) {closes closes' : List α}
    (h : Longer n closes closes') (hlen : period ≤ closes.length) :
    ∃ older, windowEnds period closes' =
      older ++ (windowEnds period closes).map fun e => (e.1, e.2 + n) := by
  have hne : closes ≠ [] := List.ne_nil_of_length_pos (by omega)
  have hlen' := h.length_eq hne
  have hsplit : closes'.drop (period - 1) =
      (closes'.drop (period - 1)).take n ++ closes.drop (period - 1) := by
    rw [← h.drop_eq hne, ← List.drop_drop, List.take_append_drop]
  have htake : ((closes'.drop (period - 1)).take n).length = n := by
    rw [List.length_take, List.length_drop]
    omega
  rw [windowEnds, hsplit, List.zipIdx_append, htake, windowEnds]
  refine ⟨_, congrArg _ ?_⟩
  rw [Nat.add_comm]
  exact (List.map_snd_add_zipIdx_eq_zipIdx (n := n) (k := 0)).symm

theorem agree_overWindows (period : Int) (point : List α → Except Fault β) {xs ys : List α}
    (h : xs <:+ ys) :
    Agree (· <:+ ·) (overWindows period point xs) (overWindows period point ys) := by
  rw [overWindows, overWindows]
  split
  · exact .ok List.suffix_rfl
  · exact agree_mapM point (windows_suffix _ h)

end

/-! ### Indicators -/

section

variable {α β : Type} [Scalar α]

theorem agree_rsi (period : Int) {xs ys : List α} (h : xs <:+ ys) :
    Agree (· <:+ ·) (rsi xs period) (rsi ys period) :=
  agree_overWindows period _ (moves_suffix h)

theorem agree_roc (period : Int) {xs ys : List α} (h : xs <:+ ys) :
    Agree (· <:+ ·) (roc xs period) (roc ys period) := by
  rw [roc, roc]
  split
  · exact .ok List.suffix_rfl
  · obtain ⟨n, hn⟩ : ∃ n, period.toNat = n + 1 := ⟨period.toNat - 1, by omega⟩
    rw [hn]
    exact agree_mapM _ (zip_drop_suffix n h)

theorem span_longer {n period : Nat} {highs highs' lows lows' : List α} (hh : Longer n highs highs')
    (hl : Longer n lows lows') (hhne : highs ≠ []) (hlne : lows ≠ []) (start : Nat) (close : α) :
    span highs' lows' period (start + n) close = span highs lows period start close := by
  rw [span, span, hh.drop_eq hhne, hl.drop_eq hlne]

theorem agree_places (place : Span α → Except Fault α) {n : Nat} {period : Int}
    {highs highs' lows lows' closes closes' : List α} (hh : Longer n highs highs')
    (hl : Longer n lows lows') (hc : Longer n closes closes') :
    Agree (· <:+ ·) (places place highs lows closes period)
      (places place highs' lows' closes' period) := by
  rw [places]
  split
  case isFalse => exact fun as bs ha hb => by cases ha; exact List.nil_suffix
  case isTrue hwindow =>
    simp only [haveWindow, Bool.and_eq_true, decide_eq_true_eq] at hwindow
    obtain ⟨⟨⟨hp, hhl⟩, hll⟩, hcl⟩ := hwindow
    have hhne : highs ≠ [] := List.ne_nil_of_length_pos (by omega)
    have hlne : lows ≠ [] := List.ne_nil_of_length_pos (by omega)
    have hcne : closes ≠ [] := List.ne_nil_of_length_pos (by omega)
    have hwindow' : haveWindow highs' lows' closes' period = true := by
      have h₁ := hh.length_eq hhne
      have h₂ := hl.length_eq hlne
      have h₃ := hc.length_eq hcne
      simp only [haveWindow, Bool.and_eq_true, decide_eq_true_eq]
      omega
    rw [places, if_pos hwindow']
    have hpos : 0 < period.toNat := by omega
    obtain ⟨older, hends⟩ := windowEnds_longer hpos hc (by omega)
    rw [hends]
    have hplace : (fun e : α × Nat => span highs lows period.toNat e.2 e.1 >>= place) =
        fun e => span highs' lows' period.toNat (e.2 + n) e.1 >>= place := by
      simp only [span_longer hh hl hhne hlne]
    have hsuffix := agree_mapM (fun e => span highs' lows' period.toNat e.2 e.1 >>= place)
      (List.suffix_append older ((windowEnds period.toNat closes).map fun e => (e.1, e.2 + n)))
    rw [List.mapM_map] at hsuffix
    exact hplace ▸ hsuffix

end

end Indicator

/-! ### Functions -/

section

variable {β : Type}

theorem kept_latestOf (f : β → Float) {x y : Except Fault (List β)} (h : Agree (· <:+ ·) x y) :
    Agree Kept (latestOf f x) (latestOf f y) :=
  h.map fun _ _ hs => (kept_getLast? hs).map f

/-- An indicator whose points depend on a window each. -/
def PriceFunction.Windowed : PriceFunction → Prop
  | ema | macd | macdSignal | macdHistogram => False
  | _ => True

open Indicator in
/-- **The last point of an indicator over windows stays** when older prices are added. -/
theorem PriceFunction.kept_compute {f : PriceFunction} (hf : f.Windowed) {xs ys : List Float}
    (h : xs <:+ ys) (given : List Setting) :
    Agree Kept (f.compute xs given) (f.compute ys given) := by
  unfold compute
  split
  case h_1 | h_5 | h_6 => exact kept_latestOf _ (agree_overWindows _ _ h)
  case h_3 => exact kept_latestOf _ (agree_rsi _ h)
  case h_4 => exact kept_latestOf _ (agree_roc _ h)
  case h_10 | h_11 | h_12 => exact kept_latestOf _ (agree_overWindows _ _ h)
  case h_13 => exact .ok (.inl rfl)
  -- the averages that start from the first window
  all_goals exact hf.elim

open Indicator in
/-- The same for the place of the close, when equally many older bars are added to all three
lists. -/
theorem BarFunction.kept_compute_williamsR {n : Nat}
    {highs highs' lows lows' closes closes' : List Float} (hh : Longer n highs highs')
    (hl : Longer n lows lows') (hc : Longer n closes closes') (given : List Setting) :
    Agree Kept (williamsR.compute highs lows closes given)
      (williamsR.compute highs' lows' closes' given) := by
  unfold compute
  split
  case h_4 => exact kept_latestOf _ (agree_places _ hh hl hc)
  case h_5 => exact .ok (.inl rfl)
  all_goals contradiction

end

end BarScript
