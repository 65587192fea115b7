/-
Pyoneer.Blueprint.JobRunner — `job_run` and the calls on the runner that
it returns: `job_runner_restart`, `job_runner_stop` and
`job_runner_wait`.

A runner outlives its thread. A restart cancels the thread, waits for
its end and creates another one, on the same job and with the same
counters. The client makes one call after the other, and the job thread
with its task threads goes on in between. `pthread_cancel` on a thread
that has exited does nothing, and `pthread_join` returns.
-/
import Pyoneer.Blueprint.JobThreadTheorems

namespace Pyoneer.Blueprint

open Pyoneer.Lib

/-- The calls on a runner. -/
inductive RunnerCall where
  | restart | stop | wait
  deriving DecidableEq, Repr

/-- Where a call is; `again` in a restart.

* `idle` — no call;
* `cancel again`, `join again` — before `pthread_cancel` and
  `pthread_join`;
* `create` — in `job_thread_create`. -/
inductive RunnerPc where
  | idle
  | cancel (again : Bool)
  | join (again : Bool)
  | create
  deriving DecidableEq, Repr

/-- The first point of a call. -/
def RunnerCall.entry : RunnerCall → RunnerPc
  | .restart => .cancel true
  | .stop => .cancel false
  | .wait => .join false

/-- A runner with its job and the thread that it last created, and the
call on it. -/
structure JobRunner where
  exec : JobExec
  pc : RunnerPc

namespace JobRunner

/-- What can happen: the client makes a call, the call takes a step, the
job thread or one of its task threads takes a step. -/
inductive Label where
  | call (c : RunnerCall)
  | move (ok : Bool)
  | thread (l : JobExec.Label)
  deriving DecidableEq, Repr

/-- `pthread_cancel(runner->job_tid)`. -/
def cancel (e : JobExec) : JobExec := { e with thread := { e.thread with cancelReq := true } }

/-- `job_thread_create`, where `pthread_create` succeeds. -/
def create (e : JobExec) : JobExec := { e with thread := .start e.job.opts }

/-- A step of the call; `ok` is the result of `pthread_create`. -/
def moveStep (r : JobRunner) (ok : Bool) : Option JobRunner :=
  match r.pc with
  | .idle => none
  | .cancel again => some { exec := cancel r.exec, pc := .join again }
  | .join again =>
    if r.exec.thread.pc = .exited then some { r with pc := if again then .create else .idle }
    else none
  | .create => some { exec := if ok then create r.exec else r.exec, pc := .idle }

def step (r : JobRunner) : Label → Option JobRunner
  | .call c => if r.pc = .idle then some { r with pc := c.entry } else none
  | .move ok => r.moveStep ok
  | .thread l =>
    match r.exec.step l with
    | some e => some { r with exec := e }
    | none => none

end JobRunner

/-- `job_run`, once nothing has failed; it refuses an empty job. -/
def jobRun (job : Job) : Option JobRunner :=
  if job.size = 0 then none else some { exec := .start job, pc := .idle }

namespace JobRunner

/-! ## Steps -/

/-- What a step does to the thread: it takes a step of its own, or the
call does one of three things to it. -/
theorem step_cases {r r' : JobRunner} {l : Label} (hs : r.step l = some r') :
    (∃ l', l = .thread l' ∧ r.exec.step l' = some r'.exec) ∨
      ((∀ l', l ≠ .thread l') ∧ (r'.exec = r.exec ∨ r'.exec = cancel r.exec ∨
        (r.pc = .create ∧ r'.exec = create r.exec))) := by
  cases l with
  | call c =>
    simp only [step] at hs
    split at hs <;> cases hs
    exact Or.inr ⟨by simp, Or.inl rfl⟩
  | move ok =>
    refine Or.inr ⟨by simp, ?_⟩
    simp only [step, moveStep] at hs
    split at hs
    · cases hs
    · cases hs
      exact Or.inr (Or.inl rfl)
    · split at hs <;> cases hs
      exact Or.inl rfl
    · rename_i hpc
      cases hs
      cases ok with
      | false => exact Or.inl rfl
      | true => exact Or.inr (Or.inr ⟨hpc, rfl⟩)
  | thread l =>
    simp only [step] at hs
    split at hs
    · rename_i e he
      cases hs
      exact Or.inl ⟨l, rfl, he⟩
    · cases hs

/-- A thread is created only after the last one has exited. -/
def CreateAfterExit (r : JobRunner) : Prop := r.pc = .create → r.exec.thread.pc = .exited

/-- What holds of every runner: the invariant of its thread, and what a
restart relies on. -/
structure RunnerInv (job : Job) (r : JobRunner) : Prop where
  thread : r.exec.ThreadInv
  create : r.CreateAfterExit
  size : r.exec.job.size = job.size
  opts : r.exec.job.opts = job.opts

theorem RunnerInv.start (job : Job) : RunnerInv job { exec := .start job, pc := .idle } :=
  ⟨.fresh rfl, by simp [CreateAfterExit], rfl, rfl⟩

theorem RunnerInv.idle {job : Job} {r : JobRunner} (hi : RunnerInv job r)
    (hpc : r.exec.thread.pc = .exited) (k : Nat) : ¬ r.exec.busy k := by
  intro hk
  simpa [JobExec.owned, hpc] using hi.thread.busyOwned k hk

theorem RunnerInv.step {job : Job} {r r' : JobRunner} {l : Label} (hi : RunnerInv job r)
    (hs : r.step l = some r') : RunnerInv job r' := by
  have hcreate : r'.CreateAfterExit := by
    cases l with
    | call c =>
      simp only [JobRunner.step] at hs
      split at hs <;> cases hs
      cases c <;> simp [CreateAfterExit, RunnerCall.entry]
    | move ok =>
      simp only [JobRunner.step, moveStep] at hs
      split at hs
      · cases hs
      · cases hs
        simp [CreateAfterExit]
      · split at hs <;> cases hs
        rename_i hx
        exact fun _ => hx
      · cases hs
        simp [CreateAfterExit]
    | thread l =>
      simp only [JobRunner.step] at hs
      split at hs
      · rename_i e he
        cases hs
        intro hpc
        have hx := hi.create hpc
        exact absurd hx (JobExec.not_exited_of_step (hi.idle hx) he)
      · cases hs
  rcases step_cases hs with ⟨l', _, he⟩ | ⟨_, he | he | ⟨_, he⟩⟩
  · obtain ⟨hsize, hopts⟩ := JobExec.step_job_frame he
    exact ⟨hi.thread.step he, hcreate, hsize.trans hi.size, hopts.trans hi.opts⟩
  · exact ⟨he ▸ hi.thread, hcreate, he ▸ hi.size, he ▸ hi.opts⟩
  · exact ⟨he ▸ hi.thread.congr rfl rfl rfl rfl rfl, hcreate, he ▸ hi.size, he ▸ hi.opts⟩
  · exact ⟨he ▸ .fresh rfl, hcreate, he ▸ hi.size, he ▸ hi.opts⟩

end JobRunner

end Pyoneer.Blueprint
