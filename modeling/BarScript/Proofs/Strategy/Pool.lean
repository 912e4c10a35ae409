import BarScript.Proofs.Except
import BarScript.Strategy.Signal

/-!
# Batches with several workers

The jobs of a batch wait in a queue.  A worker that is free takes the first job that still waits,
and is done with it at some later time, so that the jobs finish in any order (`Pool.Step`).  The
answer is read from the results in the order of the jobs: the first error, or else all results
(`Pool.answer?`).

Every run of a pool with at least one worker comes to the answer of doing the jobs one after the
other (`Pool.gives_mapM`).  What carries the proof is what each place of the batch will have in the
end (`Pool.Slot.outcome`), which no step changes; and every step brings a job one of two stages
further (`Pool.stages`).
-/

namespace BarScript

namespace Pool

variable {α β γ ε : Type} {workers n : Nat} {run : α → β} {jobs : List α}

/-- A job on its way through a batch. -/
inductive Slot (α β : Type) where
  | waiting (job : α)
  | running (job : α)
  | done (result : β)

/-- A batch on its way, in the order of its jobs. -/
abbrev State (α β : Type) := List (Slot α β)

/-- Whether a job is in the queue. -/
def Slot.isWaiting : Slot α β → Bool
  | waiting _ => true
  | _ => false

/-- Whether a worker is busy with a job. -/
def Slot.isRunning : Slot α β → Bool
  | running _ => true
  | _ => false

/-- Something happens in a pool of workers. -/
inductive Step (workers : Nat) (run : α → β) : State α β → State α β → Prop
  /-- A worker that is free takes the first job that waits. -/
  | start {before after : State α β} {job : α} (hfirst : ∀ j, .waiting j ∉ before)
    (hfree : (before ++ .waiting job :: after).countP Slot.isRunning < workers) :
    Step workers run (before ++ .waiting job :: after) (before ++ .running job :: after)
  /-- A worker is done with its job. -/
  | finish {before after : State α β} {job : α} :
    Step workers run (before ++ .running job :: after) (before ++ .done (run job) :: after)

/-- What a pool can come to in a number of steps. -/
inductive Run (workers : Nat) (run : α → β) (jobs : List α) : Nat → State α β → Prop
  | start : Run workers run jobs 0 (jobs.map .waiting)
  | step {n : Nat} {s t : State α β} (h : Run workers run jobs n s)
    (hstep : Step workers run s t) : Run workers run jobs (n + 1) t

/-- The answer of a batch as far as it is known: the results in the order of the jobs, up to the
first error. -/
def answer? : State α (Except ε γ) → Option (Except ε (List γ))
  | [] => some (.ok [])
  | .done (.error e) :: _ => some (.error e)
  | .done (.ok c) :: rest => (answer? rest).map fun answer => answer.map (c :: ·)
  | _ :: _ => none

/-! ### What a step keeps -/

/-- What a place of the batch will have in the end. -/
def Slot.outcome (run : α → β) : Slot α β → β
  | waiting job => run job
  | running job => run job
  | done result => result

theorem Step.outcomes {s t : State α β} (h : Step workers run s t) :
    t.map (Slot.outcome run) = s.map (Slot.outcome run) := by
  cases h with
  | start _ _ => simp [Slot.outcome]
  | finish => simp [Slot.outcome]

theorem Run.outcomes {s : State α β} (h : Run workers run jobs n s) :
    s.map (Slot.outcome run) = jobs.map run := by
  induction h with
  | start => simp [Function.comp_def, Slot.outcome]
  | step _ hstep ih => rw [hstep.outcomes, ih]

/-- The stages that the jobs of a batch still have before them. -/
def stages (s : State α β) : Nat := 2 * s.countP Slot.isWaiting + s.countP Slot.isRunning

theorem Step.stages {s t : State α β} (h : Step workers run s t) :
    Pool.stages t + 1 = Pool.stages s := by
  cases h with
  | start _ _ => simp +arith [Pool.stages, List.countP_cons, Slot.isWaiting, Slot.isRunning]
  | finish => simp +arith [Pool.stages, List.countP_cons, Slot.isWaiting, Slot.isRunning]

theorem Run.stages {s : State α β} (h : Run workers run jobs n s) :
    n + Pool.stages s = 2 * jobs.length := by
  induction h with
  | start => simp [Pool.stages, List.countP_map, Function.comp_def, Slot.isWaiting, Slot.isRunning]
  | step _ hstep ih =>
    have := hstep.stages
    omega

/-! ### The answer -/

/-- An answer that is known is that of all jobs one after the other. -/
theorem answer?_eq {run : α → Except ε γ} {s : State α (Except ε γ)} {answer : Except ε (List γ)}
    (h : answer? s = some answer) : answer = s.mapM (Slot.outcome run) := by
  induction s generalizing answer with
  | nil =>
    cases h
    rfl
  | cons slot rest ih =>
    rw [List.mapM_cons]
    cases slot with
    | waiting job => cases h
    | running job => cases h
    | done result =>
      cases result with
      | error e =>
        cases h
        rfl
      | ok c =>
        obtain ⟨answer', hrest, rfl⟩ := Option.map_eq_some_iff.1 h
        rw [← ih hrest]
        cases answer' <;> rfl

/-- While the answer is not known, some job is not done. -/
theorem exists_of_answer?_eq_none {s : State α (Except ε γ)} (h : answer? s = none) :
    ∃ job, .waiting job ∈ s ∨ .running job ∈ s := by
  induction s with
  | nil => cases h
  | cons slot rest ih =>
    cases slot with
    | waiting job => exact ⟨job, .inl List.mem_cons_self⟩
    | running job => exact ⟨job, .inr List.mem_cons_self⟩
    | done result =>
      cases result with
      | error e => cases h
      | ok c =>
        obtain ⟨job, hjob⟩ := ih (Option.map_eq_none_iff.1 h)
        exact ⟨job, hjob.imp (List.mem_cons_of_mem _) (List.mem_cons_of_mem _)⟩

theorem exists_first_waiting {s : State α β} {job : α} (h : .waiting job ∈ s) :
    ∃ before first after, s = before ++ .waiting first :: after ∧
      ∀ j, Slot.waiting j ∉ before := by
  induction s with
  | nil => cases h
  | cons slot rest ih =>
    by_cases hslot : ∃ j, slot = .waiting j
    · obtain ⟨j, rfl⟩ := hslot
      exact ⟨[], j, rest, rfl, by simp⟩
    · have hrest : .waiting job ∈ rest :=
        (List.mem_cons.1 h).resolve_left fun heq => hslot ⟨job, heq.symm⟩
      obtain ⟨before, first, after, rfl, hbefore⟩ := ih hrest
      refine ⟨slot :: before, first, after, rfl, fun j hj => ?_⟩
      rcases List.mem_cons.1 hj with heq | hj
      · exact hslot ⟨j, heq.symm⟩
      · exact hbefore j hj

/-- While some job is not done, a worker can do something. -/
theorem exists_step (hworkers : 0 < workers) {s : State α β} {job : α}
    (h : .waiting job ∈ s ∨ .running job ∈ s) : ∃ t, Step workers run s t := by
  by_cases hbusy : ∃ j, .running j ∈ s
  · obtain ⟨j, hj⟩ := hbusy
    obtain ⟨before, after, rfl⟩ := List.append_of_mem hj
    exact ⟨_, .finish⟩
  · have hwaiting := h.resolve_right fun hrunning => hbusy ⟨job, hrunning⟩
    obtain ⟨before, first, after, rfl, hfirst⟩ := exists_first_waiting hwaiting
    have hfree : (before ++ .waiting first :: after).countP Slot.isRunning = 0 := by
      refine List.countP_eq_zero.2 fun slot hslot hrunning => ?_
      cases slot with
      | running j => exact hbusy ⟨j, hslot⟩
      | waiting j => cases hrunning
      | done result => cases hrunning
    exact ⟨_, .start hfirst (hfree ▸ hworkers)⟩

/-- Every run of a pool comes to one answer, whichever worker does what and when. -/
structure Gives (workers : Nat) (run : α → Except ε γ) (jobs : List α)
    (answer : Except ε (List γ)) : Prop where
  /-- A run that knows an answer knows this one. -/
  answer_eq : ∀ n s a, Run workers run jobs n s → answer? s = some a → a = answer
  /-- A run that does not know the answer goes on. -/
  progress : ∀ n s, Run workers run jobs n s → answer? s = none → ∃ t, Step workers run s t
  /-- No run goes on for ever. -/
  bounded : ∀ n s, Run workers run jobs n s → n ≤ 2 * jobs.length

/-- **Every run of a pool comes to the answer of doing the jobs one after the other.** -/
theorem gives_mapM (hworkers : 0 < workers) (run : α → Except ε γ) (jobs : List α) :
    Gives workers run jobs (jobs.mapM run) where
  answer_eq n s a h ha := by
    have hmap : (s.map (Slot.outcome run)).mapM id = (jobs.map run).mapM id := by rw [h.outcomes]
    rw [List.mapM_map, List.mapM_map] at hmap
    exact (answer?_eq ha).trans hmap
  progress n s _ hnone :=
    have ⟨_, hjob⟩ := exists_of_answer?_eq_none hnone
    exists_step hworkers hjob
  bounded n s h := by
    have := h.stages
    omega

end Pool

/-- There are signals if there is a worker, unless there is nothing to do, and if each job has
one. -/
theorem Job.signals_eq_ok_iff {jobs : List Job} {workers : Option Int} {results : List Signal} :
    Job.signals jobs workers = .ok results ↔
      (jobs = [] ∨ ∀ n ∈ workers, 1 ≤ n) ∧
        jobs.mapM (fun j : Job => j.1.signal j.2) = .ok results := by
  have hworkers : (workers.any fun n => n ≤ 0) = false ↔ ∀ n ∈ workers, 1 ≤ n := by
    cases workers with
    | none => simp
    | some n =>
      simp only [Option.any_some, decide_eq_false_iff_not, Option.mem_some_iff, forall_eq']
      omega
  rw [Job.signals]
  cases jobs with
  | nil => simp [pure, Except.pure]
  | cons job rest =>
    rw [if_neg (by simp), ← hworkers]
    cases workers.any fun n => n ≤ 0 <;> simp

end BarScript
