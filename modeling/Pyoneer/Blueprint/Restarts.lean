/-
Pyoneer.Blueprint.Restarts — a job that repeats, over the restarts of its
runner.

A pass begins with every task READY, because the one before it ended
with `reset_status`; so whatever the scripts do, the loop never meets a
status that makes it give up. A stop in the middle of a pass leaves the
statuses as they are, and `job_runner_restart` does not reset them: a
new thread finds a task that has failed, and gives up for good.

`RepeatInv` says which statuses the thread is still going to read
(`ahead`), and that all of those let it go on.
-/
import Pyoneer.Blueprint.RunOnce

namespace Pyoneer.Blueprint

open Pyoneer.Lib

namespace TaskStatus

/-- The loop over the nodes gives up at this status. -/
def stuck : TaskStatus → Bool
  | .notReady | .running => true
  | _ => false

end TaskStatus

/-- The thread is in `task_run`. -/
def JobPc.isRun : JobPc → Bool
  | .run _ => true
  | _ => false

namespace JobExec

/-- The status of node `k` lets the loop go on. -/
def GoesOn (e : JobExec) (k : Nat) : Prop := ∀ st, e.job.taskStatus k = some st → st.stuck = false

/-- The loop of this pass or of the next one reads the status of node `k`
as it is now. -/
def ahead (e : JobExec) (k : Nat) : Prop :=
  match e.thread.pc with
  | .begin | .loopTest => True
  | .head i | .run i => i ≤ k
  | .setRunning i | .wait i | .popCancel i | .popJoin i => i < k
  | .reset i => k < i
  | _ => False

/-- The thread is at its end, or its handlers run. -/
def ending (e : JobExec) : Prop :=
  e.thread.pc = .exited ∨ ∃ rest, e.thread.pc = .unwindCancel rest ∨ e.thread.pc = .unwindJoin rest

/-- The invariant of a thread that repeats its job. -/
structure RepeatInv (e : JobExec) : Prop where
  repeats : e.thread.repeats = true
  completion : e.thread.completion = true
  goesOn : ∀ k, e.ahead k → e.GoesOn k
  ending : e.ending → e.thread.cancelReq = true

/-- A thread that has just been created, where no task is stuck. -/
theorem RepeatInv.fresh {e : JobExec} {opts : JobOpts} (hmode : opts.runMode = .runRepeat)
    (h : e.thread = .start opts) (hgo : ∀ k, e.GoesOn k) : RepeatInv e := by
  refine ⟨?_, ?_, fun k _ => hgo k, ?_⟩
  · simp [h, JobThread.start, hmode]
  · simp [h, JobThread.start]
  · simp [h, JobThread.start, JobExec.ending]

section Steps

variable {e e' : JobExec} {k : Nat} {ok : Bool}

theorem GoesOn.congr (h : e'.job.taskStatus k = e.job.taskStatus k) (hg : e.GoesOn k) :
    e'.GoesOn k := by
  unfold GoesOn
  rw [h]
  exact hg

/-- A task thread that is at work belongs to a node behind the loop. -/
theorem not_ahead_of_busy (ht : ThreadInv e) (hb : e.busy k) : ¬ e.ahead k := by
  have howned := ht.busyOwned k hb
  intro ha
  cases hpc : e.thread.pc with
  | head i | run i =>
    simp only [owned, hpc] at howned
    have hbelow := (ht.listed (by simp [hpc]) k howned).1
    simp only [Below, ahead, hpc] at hbelow ha
    omega
  | setRunning i =>
    simp only [owned, hpc] at howned
    simp only [ahead, hpc] at ha
    rcases List.mem_cons.mp howned with rfl | howned
    · omega
    · have hbelow := (ht.listed (by simp [hpc]) k howned).1
      simp only [Below, hpc] at hbelow
      omega
  | wait i =>
    simp only [owned, hpc, List.mem_singleton] at howned
    simp only [ahead, hpc] at ha
    omega
  | _ => simp [owned, ahead, hpc] at howned ha

theorem RepeatInv.taskStep {a : TaskAct} (hi : RepeatInv e) (ht : ThreadInv e)
    (hs : e.taskStep k a = some e') : RepeatInv e' := by
  obtain ⟨hbusy, st, phase, _, rfl⟩ := taskStep_eq hs
  refine ⟨hi.repeats, hi.completion, ?_, hi.ending⟩
  intro j hj
  have hne : k ≠ j := by
    rintro rfl
    exact not_ahead_of_busy ht hbusy hj
  exact (hi.goesOn j hj).congr (Job.taskStatus_setTaskStatus_ne _ _ hne)

theorem RepeatInv.cancelStep (hi : RepeatInv e) (hs : e.cancelStep = some e') : RepeatInv e' := by
  have hreq : e.thread.cancelReq = true := by
    unfold JobExec.cancelStep at hs
    split at hs
    · assumption
    · cases hs
  obtain ⟨pc, rfl, hpc⟩ := cancelStep_pc hs
  refine ⟨hi.repeats, hi.completion, ?_, fun _ => hreq⟩
  intro j hj
  rcases hpc with rfl | ⟨_, _, rfl⟩ | rfl <;> exact absurd hj id

/-- A step of the job thread that only goes to another point. -/
theorem RepeatInv.goto {pc : JobPc} (hi : RepeatInv e)
    (hahead : ∀ j, (e.goto pc).ahead j → e.ahead j)
    (hending : (e.goto pc).ending → e.ending) : RepeatInv (e.goto pc) :=
  ⟨hi.repeats, hi.completion, fun j hj => hi.goesOn j (hahead j hj), fun h => hi.ending (hending h)⟩

/-- Beyond the last node there is nothing to read. -/
theorem goesOn_of_size_le (h : e.job.size ≤ k) : e.GoesOn k := by
  intro st hst
  rw [Job.taskStatus_none.mpr h] at hst
  cases hst

theorem RepeatInv.head (hi : RepeatInv e) (hpc : e.thread.pc = .head k)
    (hs : e.jobStep ok = some e') : RepeatInv e' := by
  have hgo := hi.goesOn k (by simp [ahead, hpc])
  obtain ⟨_, rfl⟩ | ⟨st, hst, ⟨_, rfl⟩ | ⟨hstuck, _⟩ | ⟨_, rfl⟩⟩ := jobStep_head hpc hs
  · cases hm : e.job.opts.execMode <;>
      exact hi.goto (by simp [ahead, afterLoop]) (by simp [JobExec.ending, afterLoop])
  · exact hi.goto (by simp [ahead, hpc]) (by simp [JobExec.ending])
  · -- the status that makes the loop give up is not ahead of it
    have hno := hgo st hst
    rcases hstuck with rfl | rfl <;> cases hno
  · refine hi.goto ?_ (by simp [JobExec.ending])
    intro j hj
    simp only [ahead, goto_pc, hpc] at hj ⊢
    omega

theorem RepeatInv.setRunning (hi : RepeatInv e) (hpc : e.thread.pc = .setRunning k)
    (hs : e.jobStep ok = some e') : RepeatInv e' := by
  have hkeep : ∀ j, k < j → e.GoesOn j := fun j hj => hi.goesOn j (by simpa [ahead, hpc] using hj)
  have hother : ∀ j, k < j →
      (e.job.setTaskStatus k .running).taskStatus j = e.job.taskStatus j := by
    intro j hj
    exact Job.taskStatus_setTaskStatus_ne _ _ (Nat.ne_of_lt hj)
  simp only [jobStep, hpc] at hs
  split at hs <;> cases hs
  all_goals
    refine ⟨hi.repeats, hi.completion, ?_, by simp [JobExec.ending]⟩
    intro j hj
    have hlt : k < j := by
      simp only [ahead, goto_pc] at hj
      omega
    exact (hkeep j hlt).congr (hother j hlt)

theorem RepeatInv.reset (hi : RepeatInv e) (hpc : e.thread.pc = .reset k)
    (hs : e.jobStep ok = some e') : RepeatInv e' := by
  have hbehind : ∀ j, j < k → e.GoesOn j := fun j hj => hi.goesOn j (by simpa [ahead, hpc] using hj)
  simp only [jobStep, hpc] at hs
  split at hs
  · rename_i hk
    cases hs
    refine ⟨hi.repeats, hi.completion, ?_, by simp [JobExec.ending]⟩
    intro j hj
    have hle : j < k + 1 := by simpa [ahead] using hj
    by_cases hjk : j = k
    · subst hjk
      intro st hst
      have hready : some TaskStatus.ready = some st :=
        (Job.taskStatus_setTaskStatus_self _ _ hk).symm.trans hst
      cases hready
      rfl
    · exact (hbehind j (by omega)).congr (Job.taskStatus_setTaskStatus_ne _ _ (Ne.symm hjk))
  · rename_i hk
    cases hs
    refine ⟨hi.repeats, hi.completion, ?_, by simp [JobExec.ending]⟩
    intro j _
    by_cases hj : j < k
    · exact hbehind j hj
    · exact goesOn_of_size_le (e := e.goto .loopTest) (by simp only [goto_job]; omega)

theorem RepeatInv.poll {seen : List TaskStatus} (hi : RepeatInv e) (hpc : e.thread.pc = .poll k seen)
    (hs : e.jobStep ok = some e') : RepeatInv e' := by
  simp only [jobStep, hpc, hi.repeats, if_true] at hs
  split at hs
  · cases hs
    exact hi.goto (by simp [ahead]) (by simp [JobExec.ending])
  · cases hs
    exact ⟨hi.repeats, hi.completion, by simp [ahead], by simp [JobExec.ending]⟩

/-- A step of the job thread, where `task_run` succeeds. -/
theorem RepeatInv.jobStep (hi : RepeatInv e) (hok : ∀ k, e.thread.pc = .run k → ok = true)
    (hs : e.jobStep ok = some e') : RepeatInv e' := by
  cases hpc : e.thread.pc with
  | head k => exact hi.head hpc hs
  | setRunning k => exact hi.setRunning hpc hs
  | reset k => exact hi.reset hpc hs
  | poll k seen => exact hi.poll hpc hs
  | begin =>
    simp only [JobExec.jobStep, hpc] at hs
    cases hs
    exact ⟨hi.repeats, rfl, fun j _ => hi.goesOn j (by simp [ahead, hpc]), by simp [JobExec.ending]⟩
  | run k =>
    simp only [JobExec.jobStep, hpc, hok k hpc, if_true] at hs
    cases hs
    refine ⟨hi.repeats, hi.completion, ?_, by simp [JobExec.ending]⟩
    intro j hj
    have hlt : k < j := by simpa [ahead] using hj
    exact hi.goesOn j (by simp only [ahead, hpc]; omega)
  | count =>
    simp only [JobExec.jobStep, hpc, hi.completion, if_true] at hs
    cases hs
    exact ⟨hi.repeats, hi.completion, by simp [ahead], by simp [JobExec.ending]⟩
  | loopTest =>
    simp only [JobExec.jobStep, hpc, hi.repeats, if_true] at hs
    cases hs
    exact hi.goto (by simp [ahead, hpc]) (by simp [JobExec.ending])
  | wait k | popJoin k =>
    simp only [JobExec.jobStep, hpc] at hs
    split at hs
    · cases hs
      refine ⟨hi.repeats, hi.completion, ?_, by simp [JobExec.ending]⟩
      intro j hj
      refine (hi.goesOn j ?_).congr rfl
      simp only [ahead, goto_pc, hpc] at hj ⊢
      omega
    · cases hs
  | popCancel k =>
    simp only [JobExec.jobStep, hpc] at hs
    cases hs
    exact hi.goto (by simp [ahead, hpc]) (by simp [JobExec.ending])
  | unwindCancel rest | unwindJoin rest =>
    have hreq := hi.ending (Or.inr ⟨rest, by simp [hpc]⟩)
    simp only [JobExec.jobStep, hpc] at hs
    repeat' split at hs
    all_goals cases hs
    all_goals exact ⟨hi.repeats, hi.completion, by simp [ahead], fun _ => hreq⟩
  | exited => simp [JobExec.jobStep, hpc] at hs
  | _ =>
    simp only [JobExec.jobStep, hpc] at hs
    repeat' split at hs
    all_goals cases hs
    all_goals exact ⟨hi.repeats, hi.completion, by simp [ahead], by simp [JobExec.ending]⟩

end Steps

end JobExec

namespace JobRunner

/-- `task_run` always succeeds. -/
def taskRunSucceeds (_ : History JobRunner Label) (r : JobRunner) : Label → Prop
  | .thread (.job ok) => r.exec.thread.pc.isRun = true → ok = true
  | .thread .cancelled | .thread (.task _ _) | .call _ | .move _ => True

instance : ∀ h r l, Decidable (taskRunSucceeds h r l)
  | _, r, .thread (.job ok) => inferInstanceAs (Decidable (r.exec.thread.pc.isRun = true → ok = true))
  | _, _, .thread .cancelled | _, _, .thread (.task _ _) | _, _, .call _ | _, _, .move _ =>
    inferInstanceAs (Decidable True)

/-- When a restart creates its thread, no task has failed or reads as
RUNNING. -/
def restartsClean (_ : History JobRunner Label) (r : JobRunner) : Label → Prop
  | .move _ => r.pc = .create → ∀ t ∈ r.exec.job.tasks, t.status.stuck = false
  | .thread _ | .call _ => True

instance : ∀ h r l, Decidable (restartsClean h r l)
  | _, r, .move _ =>
    inferInstanceAs (Decidable (r.pc = .create → ∀ t ∈ r.exec.job.tasks, t.status.stuck = false))
  | _, _, .thread _ | _, _, .call _ => inferInstanceAs (Decidable True)

/-- Both. -/
def survivable (h : History JobRunner Label) (r : JobRunner) (l : Label) : Prop :=
  taskRunSucceeds h r l ∧ restartsClean h r l

instance : ∀ h r l, Decidable (survivable h r l) := fun _ _ _ =>
  inferInstanceAs (Decidable (_ ∧ _))

section Repeat

variable {job : Job} {h : History JobRunner Label} {r r' : JobRunner} {l : Label}

theorem goesOn_of_tasks {e : JobExec} (hall : ∀ t ∈ e.job.tasks, t.status.stuck = false) (k : Nat) :
    e.GoesOn k := by
  intro st hst
  unfold Job.taskStatus at hst
  obtain ⟨t, ht, rfl⟩ := Option.map_eq_some_iff.mp hst
  exact hall t (List.mem_of_getElem? ht)

/-- A runner of a job that repeats. -/
structure RepeatRunner (job : Job) (r : JobRunner) : Prop where
  runner : RunnerInv job r
  repeated : r.exec.RepeatInv

theorem RepeatRunner.step (hi : RepeatRunner job r) (hmode : job.opts.runMode = .runRepeat)
    (hok : survivable h r l) (hs : r.step l = some r') : RepeatRunner job r' := by
  refine ⟨hi.runner.step hs, ?_⟩
  rcases step_cases hs with ⟨l', rfl, he⟩ | ⟨hl, he | he | ⟨hpc, he⟩⟩
  · cases l' with
    | job ok =>
      refine hi.repeated.jobStep ?_ he
      intro k hk
      exact hok.1 (by rw [hk]; rfl)
    | cancelled => exact hi.repeated.cancelStep he
    | task k a => exact hi.repeated.taskStep hi.runner.thread he
  · exact he ▸ hi.repeated
  · rw [he]
    exact ⟨hi.repeated.repeats, hi.repeated.completion, hi.repeated.goesOn, fun _ => rfl⟩
  · have hclean : ∀ t ∈ r.exec.job.tasks, t.status.stuck = false := by
      cases l with
      | move ok => exact hok.2 hpc
      | call c =>
        simp [JobRunner.step, hpc] at hs
      | thread l' => exact absurd rfl (hl l')
    rw [he]
    exact .fresh (hi.runner.opts ▸ hmode) rfl (goesOn_of_tasks hclean)

end Repeat

/-- **A job that repeats.** In every run of its runner, with stops and
restarts at any point, any outcomes of its tasks and `task_run` always
successful: as long as each restart finds no task NOT_READY or RUNNING,
no thread ever gives up; one that is not cancelled does not exit, and a
pass that has ended is followed by another. -/
theorem repeat_survives {job : Job} {h : History JobRunner Label} {r₀ r : JobRunner}
    (hrun : jobRun job = some r₀) (hmode : job.opts.runMode = .runRepeat)
    (hready : ∀ t ∈ job.tasks, t.status = .ready) (hr : Run step survivable r₀ h r) :
    r.exec.thread.repeats = true ∧ r.exec.thread.completion = true ∧
      (r.exec.thread.cancelReq = false → r.exec.thread.pc ≠ .exited) ∧
      (r.exec.thread.pc = .loopTest → ∀ ok, r.exec.jobStep ok = some (r.exec.goto .begin)) := by
  have hi : RepeatRunner job r := by
    unfold jobRun at hrun
    split at hrun
    · cases hrun
    · cases hrun
      refine Run.state_invariant (I := RepeatRunner job) ?_ ?_ hr
      · refine ⟨.start job, .fresh hmode rfl (goesOn_of_tasks ?_)⟩
        intro t ht
        have hst : t.status = .ready := hready t ht
        rw [hst]
        rfl
      · intro h r l r' hi hok hs
        exact hi.step hmode hok hs
  refine ⟨hi.repeated.repeats, hi.repeated.completion, ?_, ?_⟩
  · intro hreq hpc
    have htrue := hi.repeated.ending (Or.inl hpc)
    rw [hreq] at htrue
    cases htrue
  · intro hpc ok
    simp [JobExec.jobStep, hpc, hi.repeated.repeats]

/-- A job of one task that repeats. -/
def repeatTask : Job :=
  { oneTask with opts := { execMode := .sequential, runMode := .runRepeat } }

/-- Its runner. -/
def repeatRunner : JobRunner := { exec := .start repeatTask, pc := .idle }

/-- The first pass is stopped while it waits for its task, which ended
with `ws`; then the runner is restarted. -/
def stoppedAndRestarted (ws : WaitStatus) : List Label :=
  List.replicate 3 (Label.thread (.job true)) ++
    [Label.thread (.task 0 .spawned), .thread (.job true), .thread (.task 0 (.finished ws)),
      .call .stop, .move true, .thread .cancelled] ++
    List.replicate 3 (Label.thread (.job true)) ++
    [Label.move true, .call .restart, .move true, .move true, .move true]

/-- The task was interrupted: the new thread starts it again. -/
theorem interrupted_survives : ∃ h r, Run step survivable repeatRunner h r ∧
    r.exec.thread.pc = .run 0 ∧ r.exec.thread.cancelReq = false ∧ r.exec.thread.repeats = true ∧
    r.exec.thread.pc ≠ .exited := by
  obtain ⟨h, r, hr, hc⟩ := Run.of_check step survivable repeatRunner
    (stoppedAndRestarted 2 ++ List.replicate 2 (.thread (.job true)))
    (fun r => r.exec.thread.pc == .run 0 && !r.exec.thread.cancelReq) (by decide +kernel)
  simp only [Bool.and_eq_true, beq_iff_eq, Bool.not_eq_true'] at hc
  have hrun : jobRun repeatTask = some repeatRunner := rfl
  obtain ⟨hrep, _, hexit, _⟩ := repeat_survives hrun rfl (by decide) hr
  exact ⟨h, r, hr, hc.1, hc.2, hrep, hexit hc.2⟩

/-- **A restart that does not survive.** The script had failed when the
pass was stopped: the thread that the restart creates gives up at once
and exits, though nothing cancels it and no `task_run` fails. -/
theorem failed_restart_exits : jobRun repeatTask = some repeatRunner ∧
    repeatTask.opts.runMode = .runRepeat ∧ (∀ t ∈ repeatTask.tasks, t.status = .ready) ∧
    ∃ h r, Run step taskRunSucceeds repeatRunner h r ∧ r.exec.thread.cancelReq = false ∧
      r.exec.thread.repeats = false ∧ r.exec.thread.pc = .exited := by
  refine ⟨rfl, rfl, by decide, ?_⟩
  obtain ⟨h, r, hr, hc⟩ := Run.of_check step taskRunSucceeds repeatRunner
    (stoppedAndRestarted 256 ++ List.replicate 4 (.thread (.job true)))
    (fun r => !r.exec.thread.cancelReq && !r.exec.thread.repeats && r.exec.thread.pc == .exited)
    (by decide +kernel)
  simp only [Bool.and_eq_true, beq_iff_eq, Bool.not_eq_true'] at hc
  exact ⟨h, r, hr, hc.1.1, hc.1.2, hc.2⟩

end JobRunner

end Pyoneer.Blueprint
