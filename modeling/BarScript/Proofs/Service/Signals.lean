import BarScript.Proofs.Strategy.Pool
import BarScript.Service.Endpoint
import Mathlib.Data.List.Forall2

/-!
# Signals are neither lost nor repeated

A request for signals may name a symbol several times, and may give several snapshots of it or none.
Every naming of a symbol by a strategy is accounted for exactly once (`Endpoint.Accounts`): by a
result if the symbol has a snapshot, or else among the missing symbols
(`Endpoint.signals_accounts`).  A result depends on its strategy and on the last snapshot of its
symbol, and on nothing else; the accounts of a request determine what is answered
(`Endpoint.Accounts.unique`).

The results are those of the jobs of the request one after the other, and hence those of every run
of a pool of workers (`Pool.Gives`).
-/

namespace BarScript

/-! ### First occurrences -/

section FirstOccurrence

variable {α : Type} [BEq α] [LawfulBEq α]

/-- Leaving out other items does not change which of two items comes first. -/
theorem idxOf_lt_of_filter {p : α → Bool} {l : List α} {a b : α} (ha : p a = true)
    (hb : p b = true) (h : (l.filter p).idxOf a < (l.filter p).idxOf b) :
    l.idxOf a < l.idxOf b := by
  induction l with
  | nil => cases h
  | cons c rest ih =>
    by_cases hc : p c = true
    · rw [List.filter_cons_of_pos hc] at h
      simp only [List.idxOf_cons] at h ⊢
      cases hca : c == a <;> cases hcb : c == b <;> simp_all
    · rw [List.filter_cons_of_neg hc] at h
      have hca : c ≠ a := fun heq => hc (heq ▸ ha)
      have hcb : c ≠ b := fun heq => hc (heq ▸ hb)
      rw [List.idxOf_cons_ne _ hca, List.idxOf_cons_ne _ hcb]
      exact Nat.succ_lt_succ (ih h)

/-- What is left without repetitions is in the order of first occurrence. -/
theorem eraseDups_pairwise : ∀ l : List α, l.eraseDups.Pairwise fun a b => l.idxOf a < l.idxOf b
  | [] => by simp
  | a :: rest => by
    have hother : ∀ b ∈ (rest.filter fun b => !b == a).eraseDups, (!b == a) = true :=
      fun b hb => (List.mem_filter.1 (List.mem_eraseDups.1 hb)).2
    have hshift : ∀ b, (!b == a) = true → (a :: rest).idxOf b = rest.idxOf b + 1 := fun b hb =>
      List.idxOf_cons_ne _ (Ne.symm (by simpa using hb))
    rw [List.eraseDups_cons, List.pairwise_cons]
    constructor
    · intro b hb
      rw [List.idxOf_cons_self, hshift b (hother b hb)]
      exact Nat.succ_pos _
    · refine (eraseDups_pairwise _).imp_of_mem fun {b c} hb hc h => ?_
      rw [hshift b (hother b hb), hshift c (hother c hc)]
      exact Nat.succ_lt_succ (idxOf_lt_of_filter (hother b hb) (hother c hc) h)
termination_by l => l.length
decreasing_by exact Nat.lt_succ_of_le (List.length_filter_le _ _)

end FirstOccurrence

/-! ### Snapshots -/

namespace Endpoint

variable {snapshots : List Snapshot} {snapshot : Snapshot} {symbol : String} {body : SignalsBody}
  {tolerance : Float}

/-- There is a snapshot of a symbol. -/
def Covers (snapshots : List Snapshot) (symbol : String) : Prop :=
  ∃ s ∈ snapshots, s.symbol = symbol

instance : Decidable (Covers snapshots symbol) :=
  inferInstanceAs (Decidable (∃ s ∈ snapshots, s.symbol = symbol))

/-- A snapshot is the last one of a symbol. -/
def LastOf (snapshots : List Snapshot) (symbol : String) (snapshot : Snapshot) : Prop :=
  ∃ before after, snapshots = before ++ snapshot :: after ∧ snapshot.symbol = symbol ∧
    ∀ s ∈ after, s.symbol ≠ symbol

theorem snapshot?_eq_some_iff :
    snapshot? snapshots symbol = some snapshot ↔ LastOf snapshots symbol snapshot := by
  rw [snapshot?, List.find?_eq_some_iff_append, beq_iff_eq]
  constructor
  · rintro ⟨hsymbol, after, before, h, hafter⟩
    refine ⟨before.reverse, after.reverse, ?_, hsymbol, ?_⟩
    · rw [← List.reverse_reverse snapshots, h]
      simp
    · simpa using hafter
  · rintro ⟨before, after, rfl, hsymbol, hafter⟩
    exact ⟨hsymbol, after.reverse, before.reverse, by simp, by simpa using hafter⟩

theorem isSome_snapshot?_iff : (snapshot? snapshots symbol).isSome ↔ Covers snapshots symbol := by
  simp [snapshot?, Covers]

/-! ### Accounts -/

/-- How the results and the missing symbols account for what a request names. -/
structure Accounts (tolerance : Float) (body : SignalsBody) (results : List Signal)
    (missing : List String) : Prop where
  /-- There is one result for each naming of a symbol with a snapshot, in their order: the signal of
  the strategy on the last snapshot of the symbol. -/
  answered : List.Forall₂
    (fun o result => ∃ snapshot, LastOf body.snapshots o.2 snapshot ∧
      o.1.signal (snapshot.market tolerance) = .ok result)
    ((occurrences body.strategies).filter fun o => Covers body.snapshots o.2) results
  /-- The missing symbols are those that some strategy names and that have no snapshot. -/
  mem_missing_iff : ∀ symbol, symbol ∈ missing ↔
    (∃ s ∈ body.strategies, symbol ∈ s.symbols) ∧ ¬Covers body.snapshots symbol
  /-- None of them is repeated. -/
  nodup : missing.Nodup
  /-- They are in the order in which they are first named. -/
  ordered : missing.Pairwise fun a b =>
    (body.strategies.flatMap Strategy.symbols).idxOf a <
      (body.strategies.flatMap Strategy.symbols).idxOf b
  /-- A naming of a symbol has a result or is missing, and not both. -/
  parted : ∀ o ∈ occurrences body.strategies,
    Xor (o ∈ (occurrences body.strategies).filter fun o => Covers body.snapshots o.2)
      (o.2 ∈ missing)

theorem map_snd_occurrences (strategies : List Strategy) :
    (occurrences strategies).map (·.2) = strategies.flatMap Strategy.symbols := by
  simp [occurrences, List.map_flatMap, Function.comp_def]

theorem mem_missing_iff : symbol ∈ missing body ↔
    (∃ s ∈ body.strategies, symbol ∈ s.symbols) ∧ ¬Covers body.snapshots symbol := by
  rw [missing, List.mem_eraseDups, List.mem_filter, map_snd_occurrences, List.mem_flatMap,
    ← isSome_snapshot?_iff]
  simp

theorem missing_ordered (body : SignalsBody) : (missing body).Pairwise fun a b =>
    (body.strategies.flatMap Strategy.symbols).idxOf a <
      (body.strategies.flatMap Strategy.symbols).idxOf b := by
  have hfilter : ∀ symbol ∈ missing body,
      (snapshot? body.snapshots symbol).isNone = true := fun symbol h =>
    (List.mem_filter.1 (List.mem_eraseDups.1 h)).2
  rw [← map_snd_occurrences]
  exact (eraseDups_pairwise _).imp_of_mem fun ha hb h =>
    idxOf_lt_of_filter (hfilter _ ha) (hfilter _ hb) h

/-- The results of the jobs are those of the symbols with a snapshot. -/
theorem answered_of_mapM {os : List (Strategy × String)} {results : List Signal}
    (h : (os.filterMap fun o => (snapshot? snapshots o.2).map fun s =>
      (o.1, s.market tolerance)).mapM (fun j : Job => j.1.signal j.2) = .ok results) :
    List.Forall₂
      (fun o result => ∃ snapshot, LastOf snapshots o.2 snapshot ∧
        o.1.signal (snapshot.market tolerance) = .ok result)
      (os.filter fun o => Covers snapshots o.2) results := by
  induction os generalizing results with
  | nil =>
    cases h
    exact .nil
  | cons o rest ih =>
    cases hs : snapshot? snapshots o.2 with
    | none =>
      have hcovers : ¬Covers snapshots o.2 := by simp [← isSome_snapshot?_iff, hs]
      rw [List.filterMap_cons_none (by simp [hs])] at h
      rw [List.filter_cons_of_neg (by simpa using hcovers)]
      exact ih h
    | some snapshot =>
      have hcovers : Covers snapshots o.2 := by simp [← isSome_snapshot?_iff, hs]
      rw [List.filterMap_cons_some (by rw [hs]; rfl), List.mapM_cons] at h
      obtain ⟨result, hresult, h⟩ := bind_eq_ok_iff.1 h
      obtain ⟨others, hothers, h⟩ := bind_eq_ok_iff.1 h
      cases h
      rw [List.filter_cons_of_pos (by simpa using hcovers)]
      exact .cons ⟨snapshot, snapshot?_eq_some_iff.1 hs, hresult⟩ (ih hothers)

/-- The results of the jobs and the missing symbols account for a request. -/
theorem accounts_of_mapM {results : List Signal}
    (h : (jobs tolerance body).mapM (fun j : Job => j.1.signal j.2) = .ok results) :
    Accounts tolerance body results (missing body) where
  answered := answered_of_mapM h
  mem_missing_iff _ := mem_missing_iff
  nodup := by
    refine (missing_ordered body).imp ?_
    rintro symbol _ h rfl
    exact Nat.lt_irrefl _ h
  ordered := missing_ordered body
  parted o ho := by
    have hnamed : ∃ s ∈ body.strategies, o.2 ∈ s.symbols := by
      rw [← List.mem_flatMap, ← map_snd_occurrences]
      exact List.mem_map_of_mem ho
    rw [xor_iff_iff_not, List.mem_filter, mem_missing_iff]
    simp [ho, hnamed]

/-- There is only one way to account for a request. -/
theorem Accounts.unique {results results' : List Signal} {missing missing' : List String}
    (h : Accounts tolerance body results missing)
    (h' : Accounts tolerance body results' missing') :
    results = results' ∧ missing = missing' := by
  constructor
  · refine List.right_unique_forall₂' ?_ h.answered h'.answered
    rintro o r r' ⟨s, hs, hr⟩ ⟨s', hs', hr'⟩
    rw [← snapshot?_eq_some_iff] at hs hs'
    cases hs.symm.trans hs'
    exact Except.ok.inj (hr.symm.trans hr')
  · have hperm : missing.Perm missing' := (List.perm_ext_iff_of_nodup h.nodup h'.nodup).2
      fun symbol => (h.mem_missing_iff symbol).trans (h'.mem_missing_iff symbol).symm
    exact hperm.eq_of_pairwise (fun _ _ _ _ hab hba => absurd hab (Nat.lt_asymm hba))
      h.ordered h'.ordered

/-! ### The response -/

/-- The reply of a request for signals. -/
def signalsReply (results : List Signal) (missing : List String) : Reply :=
  .ok (.object [("results", .array (results.map Signal.document)),
    ("missing_symbols", .array (missing.map .string))])

theorem signals_of_eq_ok {c : Context} {results : List Signal}
    (h : Job.signals (jobs c.settings.equalityTolerance body) c.settings.batchMaxWorkers =
      .ok results) :
    signals c body = ⟨signalsReply results (missing body), results.filterMap fallbackWarning ++
      [entry c "Evaluated strategy signals"
        [("jobs", .int (jobs c.settings.equalityTolerance body).length),
          ("missing", .int (missing body).length)]]⟩ := by
  simp only [signals, h]
  rfl

/-- The service answers exactly if there is a worker, unless there is nothing to do, and if every
job of the request has a signal. -/
theorem signals_reply_ne_failure_iff {c : Context} : (signals c body).reply ≠ .failure ↔
    (jobs c.settings.equalityTolerance body = [] ∨ ∀ n ∈ c.settings.batchMaxWorkers, 1 ≤ n) ∧
      ∃ results, (jobs c.settings.equalityTolerance body).mapM
        (fun j : Job => j.1.signal j.2) = .ok results := by
  rw [← exists_and_left]
  simp only [← Job.signals_eq_ok_iff]
  constructor
  · intro h
    cases hsignals : Job.signals (jobs c.settings.equalityTolerance body)
        c.settings.batchMaxWorkers with
    | ok results => exact ⟨results, rfl⟩
    | error e => exact absurd (by simp only [signals, hsignals]; rfl) h
  · rintro ⟨results, h⟩
    rw [signals_of_eq_ok h]
    nofun

/-- **Signals are neither lost nor repeated.**  If the service answers a request for signals, the
results and the missing symbols account for every naming of a symbol (`Endpoint.Accounts`).  The
results are those of every run of a pool with any number of workers, and the response is the same
for every number of workers. -/
theorem signals_accounts (c : Context) (body : SignalsBody)
    (h : (signals c body).reply ≠ .failure) :
    ∃ results missing, (signals c body).reply = signalsReply results missing ∧
      Accounts c.settings.equalityTolerance body results missing ∧
      (∀ workers, 0 < workers → Pool.Gives workers (fun j : Job => j.1.signal j.2)
        (jobs c.settings.equalityTolerance body) (.ok results)) ∧
      ∀ workers : Option Int, (∀ n ∈ workers, 1 ≤ n) →
        signals { c with settings := { c.settings with batchMaxWorkers := workers } } body =
          signals c body := by
  obtain ⟨hworkers, results, hresults⟩ := signals_reply_ne_failure_iff.1 h
  have hsignals := signals_of_eq_ok (Job.signals_eq_ok_iff.2 ⟨hworkers, hresults⟩)
  refine ⟨results, missing body, by rw [hsignals], accounts_of_mapM hresults, ?_, ?_⟩
  · intro workers hpositive
    rw [← hresults]
    exact Pool.gives_mapM hpositive _ _
  · intro workers hpositive
    rw [hsignals]
    exact signals_of_eq_ok (Job.signals_eq_ok_iff.2 ⟨.inr hpositive, hresults⟩)

/-- A snapshot of one bar. -/
def bar (symbol : String) (price : Float) : Snapshot :=
  ⟨symbol, ⟨price, 0⟩, ⟨[price], fun _ => none, by simp⟩⟩

/-- Two strategies that name symbols several times, and two snapshots of one symbol. -/
def repeated : SignalsBody where
  strategies :=
    [⟨"s", "", ["B", "A", "C", "A"], .simple, none, some ⟨some ⟨some 5, none, true⟩, none⟩⟩,
      ⟨"t", "", ["C", "A"], .simple, none, none⟩]
  snapshots := [bar "A" 6, bar "A" 4]

/-- They have three results, of the later snapshot, and two missing symbols. -/
theorem signals_accounts_repeated :
    (signals ⟨.default, .null⟩ repeated).reply ≠ .failure ∧
      (signals ⟨.default, .null⟩ repeated).reply = signalsReply
        [⟨"s", "A", .simple, true, false, none, none, false⟩,
          ⟨"s", "A", .simple, true, false, none, none, false⟩,
          ⟨"t", "A", .none, false, false, none, none, false⟩] ["B", "C"] := by
  have hresults : (jobs Settings.default.equalityTolerance repeated).mapM
      (fun j : Job => j.1.signal j.2) = .ok
        [⟨"s", "A", .simple, true, false, none, none, false⟩,
          ⟨"s", "A", .simple, true, false, none, none, false⟩,
          ⟨"t", "A", .none, false, false, none, none, false⟩] := rfl
  have hanswers : (signals ⟨.default, .null⟩ repeated).reply ≠ .failure :=
    signals_reply_ne_failure_iff.2 ⟨.inr nofun, _, hresults⟩
  obtain ⟨results, missing, hreply, haccounts, -⟩ :=
    signals_accounts ⟨.default, .null⟩ repeated hanswers
  obtain ⟨rfl, rfl⟩ := haccounts.unique (accounts_of_mapM hresults)
  exact ⟨hanswers, hreply⟩

end Endpoint

end BarScript
