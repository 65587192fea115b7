/-
Pyoneer.Blueprint.RunOnce — a job that runs once, over all restarts of
its runner.

A pass goes past a task that is COMPLETED and stops at one that is
NOT_READY, so neither is started again; and without `reset_status` only
`task_run` and the task thread write a status. A task thread ends with
its own last write, provided that the RUNNING write of `task_run` has
come before it (`runningFirst`). `OnceInv` carries this from one thread
of the runner to the next.
-/
import Pyoneer.Blueprint.RunCounters

namespace Pyoneer.Blueprint

open Pyoneer.Lib

/-- The statuses that end the runs of a task. -/
def TaskStatus.isFinal : TaskStatus → Bool
  | .completed | .notReady => true
  | _ => false

namespace JobExec

/-- The task of node `k` has a status that ends its runs. -/
def FinalAt (e : JobExec) (k : Nat) : Prop :=
  ∃ st, e.job.taskStatus k = some st ∧ st.isFinal = true

/-- The invariant of a job thread that runs its job once. -/
structure OnceInv (e : JobExec) : Prop where
  repeats : e.thread.repeats = false
  noReset : ∀ k, e.thread.pc ≠ .reset k
  run : ∀ k, e.thread.pc = .run k → ¬ e.FinalAt k
  busy : ∀ k, e.busy k → ¬ e.FinalAt k
  pending : ∀ k, e.thread.pc = .setRunning k → e.busy k
  unwind : e.job.opts.execMode = .sequential → ∀ rest,
    e.thread.pc = .unwindCancel rest ∨ e.thread.pc = .unwindJoin rest → rest.length ≤ 1

theorem OnceInv.fresh {e : JobExec} {opts : JobOpts} (hmode : opts.runMode = .runOnce)
    (h : e.thread = .start opts) : OnceInv e := by
  constructor <;> simp [h, JobThread.start, JobExec.busy, hmode]

section Steps

variable {e e' : JobExec} {k : Nat} {ok : Bool}

/-- What the job thread keeps of `repeat`, and where it goes. -/
theorem jobStep_repeats (hs : e.jobStep ok = some e') (hr : e.thread.repeats = false) :
    e'.thread.repeats = false ∧ (∀ k, e'.thread.pc = .reset k → ∃ j, e.thread.pc = .reset j) ∧
      ∀ k, e'.thread.pc = .run k → e'.job = e.job ∧ e.thread.pc = .head k ∧ ¬ e.FinalAt k := by
  cases hpc : e.thread.pc with
  | head k =>
    obtain ⟨_, rfl⟩ | ⟨st, hst, ⟨hcase, rfl⟩ | ⟨_, rfl⟩ | ⟨_, rfl⟩⟩ := jobStep_head hpc hs
    · cases hm : e.job.opts.execMode <;> simp [afterLoop, hr]
    · rcases hcase with rfl | rfl <;> simp [FinalAt, hst, hr, TaskStatus.isFinal]
    · cases hm : e.job.opts.execMode <;> simp [abort, afterLoop, hm]
    · simp [hr]
  | run k =>
    cases ok with
    | false =>
      simp only [jobStep, hpc, Bool.false_eq_true, if_false, Option.some.injEq] at hs
      subst hs
      cases hm : e.job.opts.execMode <;> simp [abort, afterLoop, hm]
    | true =>
      simp only [jobStep, hpc, if_true, Option.some.injEq] at hs
      subst hs
      simp [hr]
  | poll k seen =>
    simp only [jobStep, hpc, hr] at hs
    split at hs <;> simp only [Option.some.injEq] at hs <;> subst hs <;> simp [hr]
  | loopTest =>
    simp only [jobStep, hpc, hr, Option.some.injEq] at hs
    subst hs
    simp [hr]
  | exited => simp [jobStep, hpc] at hs
  | _ =>
    simp only [jobStep, hpc] at hs
    repeat' split at hs
    all_goals simp only [Option.some.injEq, reduceCtorEq] at hs
    all_goals subst hs
    all_goals simp [hr]

/-- Where a cancellation leads. -/
theorem cancelStep_pc (hs : e.cancelStep = some e') :
    ∃ pc, e' = e.goto pc ∧ (pc = .exited ∨ (∃ k, e.thread.pc = .wait k ∧ pc = .unwindCancel [k]) ∨
      (pc = .unwindCancel e.taskRunners)) := by
  simp only [JobExec.cancelStep] at hs
  split at hs
  · split at hs
    · split at hs <;> cases hs
      · exact ⟨_, rfl, Or.inl rfl⟩
      · exact ⟨_, rfl, Or.inr (Or.inr rfl)⟩
    · rename_i k hpc
      cases hs
      exact ⟨_, rfl, Or.inr (Or.inl ⟨k, hpc, rfl⟩)⟩
    · split at hs <;> cases hs
      exact ⟨_, rfl, Or.inr (Or.inr rfl)⟩
    · cases hs
      exact ⟨_, rfl, Or.inl rfl⟩
    · cases hs
      exact ⟨_, rfl, Or.inl rfl⟩
    · cases hs
  · cases hs

/-- The step changes the status of one node at most, and that of a node
whose task may be started or is executing. -/
theorem OnceInv.status_cases {l : Label} (hi : OnceInv e) (hs : e.step l = some e') :
    (∀ k, e'.job.taskStatus k = e.job.taskStatus k) ∨
      ∃ j st, e.busy j ∧ e'.job = e.job.setTaskStatus j st := by
  cases l with
  | job ok =>
    rcases jobStep_job hs with ⟨_, hj⟩ | ⟨j, hpc, hj⟩ | ⟨j, hpc, _⟩ | ⟨j, seen, _, _, hj⟩
    · exact Or.inl fun k => by rw [hj]
    · exact Or.inr ⟨j, .running, hi.pending j hpc, hj⟩
    · exact absurd hpc (hi.noReset j)
    · exact Or.inl fun k => by rw [hj, Job.taskStatus_putStatus]
  | cancelled =>
    obtain ⟨pc, rfl, _⟩ := cancelStep_eq hs
    exact Or.inl fun _ => rfl
  | task j a =>
    obtain ⟨hbusy, st, phase, _, rfl⟩ := taskStep_eq hs
    exact Or.inr ⟨j, st, hbusy, rfl⟩

/-- A status that ends the runs of a task stays. -/
theorem OnceInv.final_kept {l : Label} (hi : OnceInv e) (hs : e.step l = some e')
    (hk : e.FinalAt k) : e'.job.taskStatus k = e.job.taskStatus k := by
  rcases hi.status_cases hs with h | ⟨j, st, hbusy, hj⟩
  · exact h k
  · have hne : j ≠ k := fun heq => hi.busy j hbusy (heq ▸ hk)
    rw [hj, Job.taskStatus_setTaskStatus_ne _ _ hne]

theorem FinalAt.congr (h : e'.job.taskStatus k = e.job.taskStatus k) :
    e'.FinalAt k ↔ e.FinalAt k := by
  rw [FinalAt, FinalAt, h]

theorem not_finalAt_running (hk : e'.job.taskStatus k = some .running) : ¬ e'.FinalAt k := by
  rintro ⟨st, hst, hfinal⟩
  rw [hk] at hst
  cases hst
  cases hfinal

/-- Where a job thread goes that unwinds its handlers. -/
theorem jobStep_unwind {rest : List Nat} (hs : e.jobStep ok = some e')
    (hrest : e'.thread.pc = .unwindCancel rest ∨ e'.thread.pc = .unwindJoin rest) :
    e.thread.pc = .unwindCancel rest ∨ ∃ k, e.thread.pc = .unwindJoin (k :: rest) := by
  cases hpc : e.thread.pc with
  | unwindCancel r =>
    simp only [JobExec.jobStep, hpc] at hs
    split at hs <;> cases hs
    · simp at hrest
    · simpa using hrest
  | unwindJoin r =>
    simp only [JobExec.jobStep, hpc] at hs
    split at hs
    · cases hs
    · split at hs <;> cases hs
      simpa using hrest
  | _ =>
    simp only [JobExec.jobStep, hpc] at hs
    repeat' split at hs
    all_goals simp only [Option.some.injEq, reduceCtorEq] at hs
    all_goals subst hs
    all_goals simp [abort, afterLoop] at hrest
    all_goals split at hrest <;> simp at hrest

theorem OnceInv.jobStep (hi : OnceInv e) (ht : ThreadInv e) (hs : e.jobStep ok = some e') :
    OnceInv e' := by
  obtain ⟨hrepeats, hreset, hrun⟩ := jobStep_repeats hs hi.repeats
  have hframe := step_job_frame (l := .job ok) hs
  have hkept : ∀ k, ¬ e.FinalAt k → ¬ e'.FinalAt k := by
    intro k hk hfinal
    rcases jobStep_job hs with ⟨_, hj⟩ | ⟨j, hpc, hj⟩ | ⟨j, hpc, _⟩ | ⟨j, seen, _, _, hj⟩
    · exact hk ((FinalAt.congr (by rw [hj])).mp hfinal)
    · by_cases hkj : k = j
      · subst hkj
        have hlt := (ht.inRange k (by simp [owned, hpc])).1
        exact not_finalAt_running (hj ▸ Job.taskStatus_setTaskStatus_self _ _ hlt) hfinal
      · refine hk ((FinalAt.congr ?_).mp hfinal)
        rw [hj, Job.taskStatus_setTaskStatus_ne _ _ (Ne.symm hkj)]
    · exact absurd hpc (hi.noReset j)
    · exact hk ((FinalAt.congr (by rw [hj, Job.taskStatus_putStatus])).mp hfinal)
  refine ⟨hrepeats, ?_, ?_, ?_, ?_, ?_⟩
  · intro k hk
    obtain ⟨j, hj⟩ := hreset k hk
    exact hi.noReset j hj
  · intro k hk
    obtain ⟨_, _, hnot⟩ := hrun k hk
    exact hkept k hnot
  · intro k hk
    rcases jobStep_tasks hs with ⟨j, hpc, _, htasks⟩ | ⟨_, hphase⟩
    · by_cases hkj : k = j
      · subst hkj
        exact hkept k (hi.run k hpc)
      · refine hkept k (hi.busy k ?_)
        simpa [JobExec.busy, htasks, hkj] using hk
    · refine hkept k (hi.busy k ?_)
      simpa [JobExec.busy, hphase] using hk
  · intro k hk
    rcases jobStep_tasks hs with ⟨j, _, hpc', htasks⟩ | ⟨hnot, _⟩
    · rw [hpc'] at hk
      cases hk
      simp [JobExec.busy, htasks]
    · exact absurd hk (hnot k)
  · rw [hframe.2]
    intro hmode rest hrest
    rcases jobStep_unwind hs hrest with hpc | ⟨k, hpc⟩
    · exact hi.unwind hmode rest (Or.inl hpc)
    · exact Nat.le_of_succ_le (hi.unwind hmode (k :: rest) (Or.inr hpc))

theorem OnceInv.cancelStep (hi : OnceInv e) (ht : ThreadInv e) (hs : e.cancelStep = some e') :
    OnceInv e' := by
  have hbegin : e.thread.pc ≠ .begin := by
    intro hpc
    simp [JobExec.cancelStep, hpc] at hs
  obtain ⟨pc, rfl, hpc⟩ := cancelStep_pc hs
  refine ⟨hi.repeats, ?_, ?_, hi.busy, ?_, ?_⟩
  · rcases hpc with rfl | ⟨_, _, rfl⟩ | rfl <;> simp
  · rcases hpc with rfl | ⟨_, _, rfl⟩ | rfl <;> simp
  · rcases hpc with rfl | ⟨_, _, rfl⟩ | rfl <;> simp
  · intro hmode rest hrest
    have hnone := ht.sequential hbegin hmode
    rcases hpc with rfl | ⟨k, _, rfl⟩ | rfl
    · simp at hrest
    · obtain rfl : [k] = rest := by simpa using hrest
      simp
    · rw [hnone] at hrest
      obtain rfl : [] = rest := by simpa using hrest
      simp

/-- The last write of a task thread is the one it exits with. -/
theorem taskStep_exited {a : TaskAct} (hs : e.taskStep k a = some e')
    (hphase : (e'.thread.tasks k).phase = .exited) : ∃ ws, a = .finished ws := by
  cases a with
  | spawned =>
    cases hp : (e.thread.tasks k).phase <;> simp only [JobExec.taskStep, hp] at hs <;> cases hs
    simp at hphase
  | finished ws => exact ⟨ws, rfl⟩

theorem OnceInv.taskStep {a : TaskAct} (hi : OnceInv e) (ht : ThreadInv e)
    (hfirst : ∀ ws, a = .finished ws → e.thread.pc ≠ .setRunning k)
    (hs : e.taskStep k a = some e') : OnceInv e' := by
  have hexited := taskStep_exited hs
  obtain ⟨hbusy, st, phase, hphase, rfl⟩ := taskStep_eq hs
  have hlt := (ht.inRange k (ht.busyOwned k hbusy)).1
  -- the other tasks keep their status
  have hother : ∀ j, j ≠ k → ¬ e.FinalAt j → ¬ ({ e with job := e.job.setTaskStatus k st }.setTask k
      { e.thread.tasks k with phase := phase }).FinalAt j := by
    intro j hj hnot hfinal
    exact hnot ((FinalAt.congr (Job.taskStatus_setTaskStatus_ne _ _ (Ne.symm hj))).mp hfinal)
  refine ⟨hi.repeats, hi.noReset, ?_, ?_, ?_, ?_⟩
  · intro j hj
    have howned := ht.busyOwned k hbusy
    have hpc : e.thread.pc = .run j := hj
    simp only [owned, hpc] at howned
    have hbelow := (ht.listed (by simp [hpc]) k howned).1
    simp only [Below, hpc] at hbelow
    exact hother j (Nat.ne_of_gt hbelow) (hi.run j hpc)
  · intro j hj
    by_cases hjk : j = k
    · subst hjk
      rcases hphase with ⟨_, rfl⟩ | rfl
      · exact not_finalAt_running (Job.taskStatus_setTaskStatus_self _ _ hlt)
      · simp [JobExec.busy] at hj
    · refine hother j hjk (hi.busy j ?_)
      simpa [JobExec.busy, hjk] using hj
  · intro j hj
    by_cases hjk : j = k
    · subst hjk
      rcases hphase with ⟨rfl, _⟩ | rfl
      · simp [JobExec.busy]
      · obtain ⟨ws, rfl⟩ := hexited (by simp)
        exact absurd hj (hfirst ws rfl)
    · have hb := hi.pending j hj
      simpa [JobExec.busy, hjk] using hb
  · intro hmode
    exact hi.unwind hmode

/-- A request to cancel the thread. -/
theorem OnceInv.cancel (hi : OnceInv e) : OnceInv (JobRunner.cancel e) :=
  ⟨hi.repeats, hi.noReset, hi.run, hi.busy, hi.pending, hi.unwind⟩

/-- In sequential mode the job thread has one runner at most. -/
theorem OnceInv.owned_le (hi : OnceInv e) (ht : ThreadInv e)
    (hmode : e.job.opts.execMode = .sequential) : e.owned.length ≤ 1 := by
  have hnone : e.thread.pc ≠ .begin → e.taskRunners = [] := fun hb => ht.sequential hb hmode
  cases hpc : e.thread.pc with
  | unwindCancel rest =>
    simp only [owned, hpc]
    exact hi.unwind hmode rest (Or.inl hpc)
  | unwindJoin rest =>
    simp only [owned, hpc]
    exact hi.unwind hmode rest (Or.inr hpc)
  | head k | run k | setRunning k | waitAll k => simp [owned, hpc, hnone (by simp [hpc])]
  | _ => simp [owned, hpc]

theorem OnceInv.busy_unique (hi : OnceInv e) (ht : ThreadInv e)
    (hmode : e.job.opts.execMode = .sequential) {j : Nat} (hj : e.busy j) (hk : e.busy k) :
    j = k := by
  have hlen := hi.owned_le ht hmode
  have hjo := ht.busyOwned j hj
  have hko := ht.busyOwned k hk
  match hown : e.owned with
  | [] => simp [hown] at hjo
  | [i] =>
    simp only [hown, List.mem_singleton] at hjo hko
    exact hjo.trans hko.symm
  | _ :: _ :: _ => simp [hown] at hlen

/-! ## The order of the starts -/

/-- The nodes that the pass has gone past. -/
def passed (e : JobExec) : Nat :=
  match e.thread.pc with
  | .head k | .run k => k
  | .setRunning k | .wait k | .popCancel k | .popJoin k => k + 1
  | _ => 0

/-- A node that the step adds to those gone past was COMPLETED, or the
step starts its task. -/
theorem jobStep_passed {j : Nat} (hs : e.jobStep ok = some e') (hj : j < e'.passed)
    (hnot : ¬ j < e.passed) :
    e.job.taskStatus j = some .completed ∨ (e.thread.pc = .run j ∧ ok = true) := by
  cases hpc : e.thread.pc with
  | head k =>
    simp only [passed, hpc] at hnot
    obtain ⟨_, rfl⟩ | ⟨st, hst, ⟨_, rfl⟩ | ⟨_, rfl⟩ | ⟨rfl, rfl⟩⟩ := jobStep_head hpc hs
    · cases hm : e.job.opts.execMode <;> simp [passed, afterLoop, hm] at hj
    · exact absurd hj hnot
    · cases hm : e.job.opts.execMode <;> simp [passed, abort, afterLoop, hm] at hj
    · simp only [passed, goto_pc] at hj
      obtain rfl : j = k := by omega
      exact Or.inl hst
  | run k =>
    simp only [passed, hpc] at hnot
    cases ok with
    | true =>
      simp only [JobExec.jobStep, hpc, if_true, Option.some.injEq] at hs
      subst hs
      simp only [passed, goto_pc] at hj
      obtain rfl : j = k := by omega
      exact Or.inr ⟨rfl, rfl⟩
    | false =>
      simp only [JobExec.jobStep, hpc, Bool.false_eq_true, if_false, Option.some.injEq] at hs
      subst hs
      cases hm : e.job.opts.execMode <;> simp [passed, abort, afterLoop, hm] at hj
  | exited => simp [JobExec.jobStep, hpc] at hs
  | _ =>
    simp only [JobExec.jobStep, hpc] at hs
    simp only [passed, hpc] at hnot
    repeat' split at hs
    all_goals simp only [Option.some.injEq, reduceCtorEq] at hs
    all_goals subst hs
    all_goals simp only [passed, goto_pc] at hj
    all_goals omega

end Steps

end JobExec

namespace JobRunner

/-- The step is not the last write of a task thread, or `task_run`'s
RUNNING write has come before it. -/
def RunningFirst (r : JobRunner) (l : Label) : Prop :=
  match l with
  | .thread (.task k (.finished _)) => r.exec.thread.pc ≠ .setRunning k
  | _ => True

/-- `task_run`'s RUNNING write comes before the last write of the task
thread. -/
def runningFirst : History JobRunner Label → JobRunner → Label → Prop :=
  fun _ r l => RunningFirst r l

instance (h : History JobRunner Label) (r : JobRunner) (l : Label) :
    Decidable (runningFirst h r l) :=
  match l with
  | .thread (.task k (.finished _)) => inferInstanceAs (Decidable (r.exec.thread.pc ≠ .setRunning k))
  | .thread (.task _ .spawned) | .thread (.job _) | .thread .cancelled => .isTrue trivial
  | .call _ | .move _ => .isTrue trivial

/-- The step starts the task of node `k`: `pthread_create` in `task_run`
succeeds. -/
def Starts (k : Nat) (x : JobRunner × Label) : Prop :=
  x.2 = .thread (.job true) ∧ x.1.exec.thread.pc = .run k

/-- The step begins a pass. -/
def beginsPass (x : JobRunner × Label) : Bool :=
  match x.2 with
  | .thread (.job _) => x.1.exec.thread.pc == .begin
  | _ => false

/-- The steps since the last pass has begun. -/
def lastPass (h : History JobRunner Label) : History JobRunner Label :=
  h.takeWhile fun x => !beginsPass x

/-- The tasks that the pass has gone past were started in it, or they
are COMPLETED. -/
def InOrder (h : History JobRunner Label) (r : JobRunner) : Prop :=
  ∀ j < r.exec.passed, (∃ x ∈ lastPass h, Starts j x) ∨
    r.exec.job.taskStatus j = some .completed

/-- The invariant of a runner whose job runs once. -/
structure OnceRunner (job : Job) (h : History JobRunner Label) (r : JobRunner) : Prop where
  runner : RunnerInv job r
  once : r.exec.OnceInv
  order : InOrder h r

section Once

variable {job : Job} {h : History JobRunner Label} {r r' : JobRunner} {l : Label}

theorem OnceRunner.once_step (hi : OnceRunner job h r) (hmode : job.opts.runMode = .runOnce)
    (hok : runningFirst h r l) (hs : r.step l = some r') : r'.exec.OnceInv := by
  rcases step_cases hs with ⟨l', rfl, he⟩ | ⟨_, he | he | ⟨_, he⟩⟩
  · cases l' with
    | job ok => exact hi.once.jobStep hi.runner.thread he
    | cancelled => exact hi.once.cancelStep hi.runner.thread he
    | task k a =>
      refine hi.once.taskStep hi.runner.thread ?_ he
      rintro ws rfl
      exact hok
  · rw [he]
    exact hi.once
  · rw [he]
    exact hi.once.cancel
  · rw [he]
    exact .fresh (hi.runner.opts ▸ hmode) rfl

/-- A status that ends the runs of a task outlasts every step of the
runner. -/
theorem OnceRunner.final_kept {k : Nat} (hi : OnceRunner job h r) (hs : r.step l = some r')
    (hk : r.exec.FinalAt k) : r'.exec.job.taskStatus k = r.exec.job.taskStatus k := by
  rcases step_cases hs with ⟨l', rfl, he⟩ | ⟨_, he | he | ⟨_, he⟩⟩
  · exact hi.once.final_kept he hk
  · rw [he]
  · rw [he]
    rfl
  · rw [he]
    rfl

theorem completed_final {e : JobExec} {k : Nat} (hk : e.job.taskStatus k = some .completed) :
    e.FinalAt k :=
  ⟨.completed, hk, rfl⟩

/-- Where nothing is added to the nodes gone past. -/
theorem OnceRunner.order_kept (hi : OnceRunner job h r) (hs : r.step l = some r')
    (hbegin : beginsPass (r, l) = false) {j : Nat} (hj : j < r.exec.passed) :
    (∃ x ∈ lastPass ((r, l) :: h), Starts j x) ∨ r'.exec.job.taskStatus j = some .completed := by
  rcases hi.order j hj with ⟨x, hx, hstart⟩ | hdone
  · refine Or.inl ⟨x, ?_, hstart⟩
    rw [lastPass, List.takeWhile_cons, hbegin]
    exact List.mem_cons_of_mem _ hx
  · exact Or.inr ((hi.final_kept hs (completed_final hdone)).trans hdone)

theorem OnceRunner.order_step (hi : OnceRunner job h r) (hs : r.step l = some r') :
    InOrder ((r, l) :: h) r' := by
  intro j hj
  rcases step_cases hs with ⟨l', rfl, he⟩ | ⟨hl, he⟩
  · cases l' with
    | job ok =>
      by_cases hbegin : beginsPass (r, .thread (.job ok)) = true
      · -- a pass begins with no node behind it
        have hpc : r.exec.thread.pc = .begin := by simpa [beginsPass] using hbegin
        have hpassed : r'.exec.passed = 0 := by
          simp only [JobExec.step, JobExec.jobStep, hpc, Option.some.injEq] at he
          rw [← he]
          rfl
        rw [hpassed] at hj
        cases hj
      · rw [Bool.not_eq_true] at hbegin
        by_cases hpassed : j < r.exec.passed
        · exact hi.order_kept hs hbegin hpassed
        · rcases JobExec.jobStep_passed he hj hpassed with hdone | ⟨hpc, rfl⟩
          · exact Or.inr ((hi.final_kept hs (completed_final hdone)).trans hdone)
          · refine Or.inl ⟨(r, .thread (.job true)), ?_, rfl, hpc⟩
            rw [lastPass, List.takeWhile_cons, hbegin]
            exact List.mem_cons_self
    | cancelled =>
      obtain ⟨pc, heq, hpc⟩ := JobExec.cancelStep_pc he
      have hpassed : r'.exec.passed = 0 := by
        rcases hpc with rfl | ⟨_, _, rfl⟩ | rfl <;> rw [heq] <;> rfl
      rw [hpassed] at hj
      cases hj
    | task k a =>
      obtain ⟨_, st, phase, _, heq⟩ := JobExec.taskStep_eq he
      rw [heq] at hj
      exact hi.order_kept hs rfl hj
  · have hbegin : beginsPass (r, l) = false := by
      cases l with
      | thread l' => exact absurd rfl (hl l')
      | _ => rfl
    rcases he with he | he | ⟨_, he⟩
    · rw [he] at hj
      exact hi.order_kept hs hbegin hj
    · rw [he] at hj
      exact hi.order_kept hs hbegin hj
    · rw [he] at hj
      cases hj

theorem run_onceRunner {r₀ : JobRunner} (hrun : jobRun job = some r₀)
    (hmode : job.opts.runMode = .runOnce) (hr : Run step runningFirst r₀ h r) :
    OnceRunner job h r := by
  unfold jobRun at hrun
  split at hrun
  · cases hrun
  · cases hrun
    refine Run.invariant ?_ (fun h r l r' hi hok hs => ?_) hr
    · refine ⟨.start job, .fresh hmode rfl, ?_⟩
      intro j hj
      cases hj
    · exact ⟨hi.runner.step hs, hi.once_step hmode hok hs, hi.order_step hs⟩

/-- From a state in which a status ends the runs of a task: the status
stays, and the task is not started. -/
theorem OnceRunner.final_run {k : Nat} {st : TaskStatus} {h' : History JobRunner Label}
    {t : JobRunner} (hi : OnceRunner job h t) (hmode : job.opts.runMode = .runOnce)
    (hst : t.exec.job.taskStatus k = some st) (hfinal : st.isFinal = true)
    (hr : Run step runningFirst t h' r) :
    r.exec.job.taskStatus k = some st ∧ ∀ x ∈ h', ¬ Starts k x := by
  have hinv := Run.invariant (I := fun h' r => (∃ g, OnceRunner job g r) ∧
    r.exec.job.taskStatus k = some st ∧ ∀ x ∈ h', ¬ Starts k x) ?_ ?_ hr
  · exact hinv.2
  · exact ⟨⟨h, hi⟩, hst, by simp⟩
  · rintro h' r l r' ⟨⟨g, hg⟩, hr, hno⟩ hok hs
    have hk : r.exec.FinalAt k := ⟨st, hr, hfinal⟩
    refine ⟨⟨(r, l) :: g, hg.runner.step hs, hg.once_step hmode hok hs, hg.order_step hs⟩, ?_, ?_⟩
    · exact (hg.final_kept hs hk).trans hr
    · intro x hx
      rcases List.mem_cons.mp hx with rfl | hx
      · exact fun hstart => hg.once.run k hstart.2 hk
      · exact hno x hx

end Once

/-- In every run of a runner whose job runs once, with restarts and stops
and cancellation at any point: from a state on in which a task is
COMPLETED or NOT_READY its status does not change and it is not started.
In sequential mode one task thread at most is executing, and a task is
started only when every earlier one has been started in the pass or is
COMPLETED. -/
theorem run_once {job : Job} {h h' : History JobRunner Label} {r₀ t r : JobRunner}
    (hrun : jobRun job = some r₀) (hmode : job.opts.runMode = .runOnce)
    (ht : Run step runningFirst r₀ h t) (hr : Run step runningFirst t h' r) :
    (∀ k st, t.exec.job.taskStatus k = some st → st.isFinal = true →
      r.exec.job.taskStatus k = some st ∧ ∀ x ∈ h', ¬ Starts k x) ∧
    (job.opts.execMode = .sequential →
      (∀ j k, t.exec.busy j → t.exec.busy k → j = k) ∧
      ∀ k l, Starts k (t, l) → ∀ j < k,
        (∃ x ∈ lastPass h, Starts j x) ∨ t.exec.job.taskStatus j = some .completed) := by
  have hi := run_onceRunner hrun hmode ht
  refine ⟨fun k st hst hfinal => hi.final_run hmode hst hfinal hr, fun hexec => ⟨?_, ?_⟩⟩
  · intro j k hj hk
    exact hi.once.busy_unique hi.runner.thread (hi.runner.opts ▸ hexec) hj hk
  · intro k l hstart j hj
    refine hi.order j ?_
    have hpc : t.exec.thread.pc = .run k := hstart.2
    rwa [JobExec.passed, hpc]

/-- A job of two tasks. -/
def twoTasks : Job := { oneTask with tasks := oneTask.tasks ++ oneTask.tasks }

/-- The runner of `twoTasks`. -/
def twoTasksRunner : JobRunner := { exec := .start twoTasks, pc := .idle }

/-- The first task of the two exits with 0. -/
def firstCompleted : List Label :=
  List.replicate 4 (.thread (.job true)) ++
    [.thread (.task 0 .spawned), .thread (.task 0 (.finished 0))] ++
    List.replicate 4 (.thread (.job true))

/-- The second task is interrupted by a restart, and started again. -/
def secondAgain : List Label :=
  [Label.thread (.job true), .thread (.job true), .thread (.task 1 .spawned), .call .restart,
    .move true, .thread .cancelled, .thread (.task 1 (.finished 2)), .thread (.job true),
    .thread (.job true), .thread (.job true), .move true, .move true] ++
    List.replicate 5 (Label.thread (.job true))

/-- The first task of `twoTasks` is COMPLETED when the second one is
started, and it is not started after the restart. -/
theorem run_once_restarted : ∃ h t h' r, Run step runningFirst twoTasksRunner h t ∧
    Run step runningFirst t h' r ∧ t.exec.job.taskStatus 0 = some .completed ∧
    t.exec.thread.pc = .run 1 ∧ r.exec.thread.pc = .wait 1 ∧
    r.exec.job.taskStatus 0 = some .completed ∧ (∀ x ∈ h', ¬ Starts 0 x) ∧
    ((∃ x ∈ lastPass h, Starts 0 x) ∨ t.exec.job.taskStatus 0 = some .completed) := by
  obtain ⟨h, t, ht, hc⟩ := Run.of_check step runningFirst twoTasksRunner firstCompleted
    (fun t => t.exec.job.taskStatus 0 == some .completed && t.exec.thread.pc == .run 1 &&
      (replay step runningFirst [] t secondAgain).any (fun p => p.2.exec.thread.pc == .wait 1))
    (by decide +kernel)
  simp only [Bool.and_eq_true, beq_iff_eq] at hc
  obtain ⟨⟨hdone, hpc⟩, hsecond⟩ := hc
  simp only [Option.any_eq_true, beq_iff_eq] at hsecond
  obtain ⟨⟨h', r⟩, hreplay, hpc'⟩ := hsecond
  have hrun : jobRun twoTasks = some twoTasksRunner := rfl
  have hr := Run.of_replay _ hreplay
  obtain ⟨hfinal, hseq⟩ := run_once hrun rfl ht hr
  obtain ⟨hkept, hno⟩ := hfinal 0 .completed hdone rfl
  exact ⟨h, t, h', r, ht, hr, hdone, hpc, hpc', hkept, hno,
    (hseq rfl).2 1 (.thread (.job true)) ⟨rfl, hpc⟩ 0 (by decide)⟩

end JobRunner

end Pyoneer.Blueprint
