/-
Pyoneer.Blueprint.Release — the task runners that a job thread gets from
`task_run`, and their destruction.

A runner is counted when `task_run` returns it, and counted again when
`task_runner_destroy` has joined its thread and frees it. `held` lists,
for each program point, the runners in between. The two counts differ by
what is held, as long as no cancellation request is acted upon in the
`pthread_join` of a `task_runner_destroy` that `pthread_cleanup_pop(1)`
runs: the handler has left the stack by then, and nobody comes back for
the runner.
-/
import Pyoneer.Blueprint.JobRunner

namespace Pyoneer.Blueprint

open Pyoneer.Lib

/-- The thread is in the `pthread_join` of a `task_runner_destroy` that
`pthread_cleanup_pop(1)` runs. -/
def JobPc.inPop : JobPc → Bool
  | .popJoin _ | .popAllJoin _ => true
  | _ => false

namespace JobExec

/-- The runners that `task_run` has returned and that are not
destroyed. -/
def held (e : JobExec) : List Nat :=
  match e.thread.pc with
  | .head _ | .run _ | .setRunning _ | .waitAll _ => e.taskRunners
  | .wait k | .popCancel k | .popJoin k => [k]
  | .popAllCancel i | .popAllJoin i => e.taskRunners.drop i
  | .unwindCancel rest | .unwindJoin rest => rest
  | _ => []

/-- The node whose `task_run` returns with the next step of the job
thread. -/
def returns (e : JobExec) : Option Nat :=
  match e.thread.pc with
  | .setRunning k => some k
  | _ => none

/-- The node whose runner is freed with the next step of the job
thread. -/
def frees (e : JobExec) : Option Nat :=
  match e.thread.pc with
  | .popJoin k => some k
  | .popAllJoin i => e.taskRunners[i]?
  | .unwindJoin (k :: _) => some k
  | _ => none

section Steps

variable {e e' : JobExec} {k : Nat} {ok : Bool}

/-- Leaving the loop over the nodes keeps what is held. -/
theorem held_afterLoop (ht : ThreadInv e) (hb : e.thread.pc ≠ .begin)
    (hrunners : e'.taskRunners = e.taskRunners)
    (hpc : e'.thread.pc = afterLoop e.job.opts.execMode) : e'.held = e.taskRunners := by
  cases hm : e.job.opts.execMode with
  | sequential =>
    rw [ht.sequential hb hm]
    simp [held, hpc, hm, afterLoop]
  | parallel => simp [held, hpc, hm, afterLoop, hrunners]

theorem held_head {i : Nat} (ht : ThreadInv e) (hpc : e.thread.pc = .head i)
    (hs : e.jobStep ok = some e') : e'.held = e.held := by
  have hb : e.thread.pc ≠ .begin := by simp [hpc]
  have hheld : e.held = e.taskRunners := by simp [held, hpc]
  rw [hheld]
  obtain ⟨_, rfl⟩ | ⟨st, _, ⟨_, rfl⟩ | ⟨_, rfl⟩ | ⟨_, rfl⟩⟩ := jobStep_head hpc hs
  · exact held_afterLoop ht hb rfl rfl
  · rfl
  · have habort : e.abort.held = e.taskRunners := held_afterLoop ht hb rfl rfl
    exact habort
  · rfl

/-- What a step of the job thread does to the runners that are held. -/
theorem held_jobStep (ht : ThreadInv e) (hs : e.jobStep ok = some e') (k : Nat) :
    e'.held.count k + e.frees.toList.count k = e.held.count k + e.returns.toList.count k := by
  cases hpc : e.thread.pc with
  | head i =>
    rw [held_head ht hpc hs]
    simp [frees, returns, hpc]
  | run i =>
    have hb : e.thread.pc ≠ .begin := by simp [hpc]
    have hkeep : e'.held = e.held := by
      simp only [JobExec.jobStep, hpc] at hs
      split at hs <;> cases hs
      · simp [held, hpc]
      · have habort : e.abort.held = e.taskRunners := held_afterLoop ht hb rfl rfl
        rw [habort]
        simp [held, hpc]
    rw [hkeep]
    simp [frees, returns, hpc]
  | setRunning i =>
    simp only [JobExec.jobStep, hpc] at hs
    split at hs <;> cases hs
    · rename_i hm
      simp [held, frees, returns, hpc, ht.sequential (by simp [hpc]) hm]
    · simp [held, frees, returns, hpc, List.count_append]
  | wait i | popCancel i | popJoin i =>
    have hseq : e.taskRunners = [] :=
      ht.sequential (by simp [hpc]) (ht.atWait (by simp [AtWait, hpc]))
    simp only [JobExec.jobStep, hpc] at hs
    repeat' split at hs
    all_goals cases hs
    all_goals simp [held, frees, returns, hpc, hseq]
  | waitAll i =>
    simp only [JobExec.jobStep, hpc] at hs
    repeat' split at hs
    all_goals cases hs
    all_goals simp [held, frees, returns, hpc]
  | popAllCancel i =>
    simp only [JobExec.jobStep, hpc] at hs
    split at hs <;> cases hs
    · rename_i hnone
      simp [held, frees, returns, hpc, List.drop_eq_nil_of_le (List.getElem?_eq_none_iff.mp hnone)]
    · simp [held, frees, returns, hpc]
  | popAllJoin i =>
    simp only [JobExec.jobStep, hpc] at hs
    split at hs
    · cases hs
    · rename_i j hj
      split at hs <;> cases hs
      obtain ⟨hlt, hget⟩ := List.getElem?_eq_some_iff.mp hj
      have hdrop : e.taskRunners.drop i = j :: e.taskRunners.drop (i + 1) := by
        rw [List.drop_eq_getElem_cons hlt, hget]
      simp [held, frees, returns, hpc, hj, hdrop, List.count_cons]
  | unwindCancel rest =>
    simp only [JobExec.jobStep, hpc] at hs
    split at hs <;> cases hs
    · simp [held, frees, returns, hpc]
    · simp [held, frees, returns, hpc]
  | unwindJoin rest =>
    simp only [JobExec.jobStep, hpc] at hs
    split at hs
    · cases hs
    · split at hs <;> cases hs
      simp [held, frees, returns, hpc, List.count_cons]
  | poll i seen =>
    simp only [JobExec.jobStep, hpc] at hs
    split at hs <;> cases hs
    · simp [held, frees, returns, hpc]
    · cases hrep : e.thread.repeats <;> simp [held, frees, returns, hpc]
  | loopTest =>
    simp only [JobExec.jobStep, hpc] at hs
    cases hs
    cases hrep : e.thread.repeats <;> simp [held, frees, returns, hpc]
  | exited => simp [JobExec.jobStep, hpc] at hs
  | _ =>
    simp only [JobExec.jobStep, hpc] at hs
    repeat' split at hs
    all_goals cases hs
    all_goals simp [held, frees, returns, hpc]

/-- Acting on a cancellation request keeps what is held, outside of
`pthread_cleanup_pop(1)`. -/
theorem held_cancelStep (ht : ThreadInv e) (hs : e.cancelStep = some e')
    (hpop : e.thread.pc.inPop = false) : e'.held = e.held := by
  unfold cancelStep at hs
  split at hs
  · cases hpc : e.thread.pc with
    | run i =>
      simp only [hpc] at hs
      split at hs <;> cases hs
      · rename_i hm
        simp [held, hpc, ht.sequential (by simp [hpc]) hm]
      · simp [held, hpc]
    | waitAll i =>
      simp only [hpc] at hs
      split at hs <;> cases hs
      simp [held, hpc]
    | wait i =>
      simp only [hpc] at hs
      cases hs
      simp [held, hpc]
    | popJoin i | popAllJoin i => simp [hpc, JobPc.inPop] at hpop
    | _ => simp [hpc] at hs
  · cases hs

/-- No runner is held twice. -/
theorem held_nodup (ht : ThreadInv e) : e.held.Nodup := by
  have hall : e.thread.pc ≠ .begin → e.taskRunners.Nodup := ht.nodup
  cases hpc : e.thread.pc with
  | head i | run i | setRunning i | waitAll i =>
    simp only [held, hpc]
    exact hall (by simp [hpc])
  | popAllCancel i | popAllJoin i =>
    simp only [held, hpc]
    exact (List.drop_sublist i _).nodup (hall (by simp [hpc]))
  | unwindCancel rest | unwindJoin rest =>
    have hnodup := ht.ownedNodup
    simpa [held, owned, hpc] using hnodup
  | _ => simp [held, hpc]

/-- There is room for the runner that `task_run` returns. -/
theorem taskRunners_lt (ht : ThreadInv e) (hpc : e.thread.pc = .setRunning k) :
    e.taskRunners.length < e.job.size := by
  have howned : e.owned = k :: e.taskRunners := by simp [owned, hpc]
  have hnodup : (k :: e.taskRunners).Nodup := howned ▸ ht.ownedNodup
  have hsub : k :: e.taskRunners ⊆ List.range e.job.size := by
    intro j hj
    exact List.mem_range.mpr (ht.inRange j (howned ▸ hj)).1
  have hlen := List.Nodup.length_le_of_subset hnodup hsub
  rw [List.length_cons, List.length_range] at hlen
  exact hlen

end Steps

end JobExec

namespace JobRunner

/-- The steps of the history in which `task_run` returned a runner of
node `k`. -/
def returned (k : Nat) : History JobRunner Label → Nat
  | [] => 0
  | (r, .thread (.job _)) :: h => returned k h + r.exec.returns.toList.count k
  | _ :: h => returned k h

/-- The steps in which a runner of node `k` was freed. -/
def freed (k : Nat) : History JobRunner Label → Nat
  | [] => 0
  | (r, .thread (.job _)) :: h => freed k h + r.exec.frees.toList.count k
  | _ :: h => freed k h

/-- The runners are accounted for.

* `once` — a node has one runner at most, and it is freed once;
* `ended` — when the job thread has terminated, nothing is left of
  them, neither a runner nor a task thread at work;
* `room` — there is room for the runner that is stored next. -/
structure Released (h : History JobRunner Label) (r : JobRunner) : Prop where
  once : ∀ k, freed k h ≤ returned k h ∧ returned k h ≤ freed k h + 1
  ended : r.exec.thread.pc = .exited → ∀ k, returned k h = freed k h ∧ ¬ r.exec.busy k
  room : ∀ k, r.exec.thread.pc = .setRunning k → r.exec.job.opts.execMode = .parallel →
    r.exec.taskRunners.length < r.exec.job.size

/-- No cancellation request is acted upon in the `pthread_join` of a
`pthread_cleanup_pop(1)`. -/
def popsUndisturbed (_ : History JobRunner Label) (r : JobRunner) : Label → Prop
  | .thread .cancelled => r.exec.thread.pc.inPop = false
  | .thread (.job _) | .thread (.task _ _) | .call _ | .move _ => True

instance : ∀ h r l, Decidable (popsUndisturbed h r l)
  | _, r, .thread .cancelled => inferInstanceAs (Decidable (r.exec.thread.pc.inPop = false))
  | _, _, .thread (.job _) | _, _, .thread (.task _ _) | _, _, .call _ | _, _, .move _ =>
    inferInstanceAs (Decidable True)

section Ledger

variable {job : Job} {h : History JobRunner Label} {r r' : JobRunner} {l : Label}

/-- The two counts differ by what is held. -/
structure Ledger (job : Job) (h : History JobRunner Label) (r : JobRunner) : Prop where
  runner : RunnerInv job r
  balance : ∀ k, returned k h = freed k h + r.exec.held.count k

theorem Ledger.released (hi : Ledger job h r) : Released h r := by
  refine ⟨?_, ?_, ?_⟩
  · intro k
    have hbal := hi.balance k
    have hcount := (JobExec.held_nodup hi.runner.thread).count (a := k)
    split at hcount <;> omega
  · intro hpc k
    have hbal := hi.balance k
    have hnil : r.exec.held = [] := by simp [JobExec.held, hpc]
    rw [hnil, List.count_nil] at hbal
    exact ⟨hbal, hi.runner.idle hpc k⟩
  · intro k hpc _
    exact JobExec.taskRunners_lt hi.runner.thread hpc

/-- A step that neither returns nor frees a runner. -/
theorem Ledger.keep (hi : Ledger job h r) (hs : r.step l = some r')
    (hl : ∀ ok, l ≠ .thread (.job ok)) (hheld : r'.exec.held = r.exec.held) :
    Ledger job ((r, l) :: h) r' := by
  refine ⟨hi.runner.step hs, ?_⟩
  intro k
  have hret : returned k ((r, l) :: h) = returned k h := by
    cases l with
    | thread l' =>
      cases l' with
      | job ok => exact absurd rfl (hl ok)
      | _ => rfl
    | _ => rfl
  have hfree : freed k ((r, l) :: h) = freed k h := by
    cases l with
    | thread l' =>
      cases l' with
      | job ok => exact absurd rfl (hl ok)
      | _ => rfl
    | _ => rfl
  rw [hret, hfree, hheld]
  exact hi.balance k

theorem Ledger.step (hi : Ledger job h r) (hok : popsUndisturbed h r l) (hs : r.step l = some r') :
    Ledger job ((r, l) :: h) r' := by
  rcases step_cases hs with ⟨l', rfl, he⟩ | ⟨hl, he⟩
  · cases l' with
    | job ok =>
      refine ⟨hi.runner.step hs, ?_⟩
      intro k
      have hbal := hi.balance k
      have hstep := JobExec.held_jobStep hi.runner.thread he k
      simp only [returned, freed]
      omega
    | cancelled =>
      exact hi.keep hs (by simp) (JobExec.held_cancelStep hi.runner.thread he hok)
    | task k a =>
      obtain ⟨_, st, phase, _, heq⟩ := JobExec.taskStep_eq he
      exact hi.keep hs (by simp) (by rw [heq]; rfl)
  · refine hi.keep hs (fun ok => hl _) ?_
    rcases he with he | he | ⟨hpc, he⟩
    · rw [he]
    · rw [he]
      rfl
    · -- the old thread has exited, and the new one has not begun
      have hx := hi.runner.create hpc
      rw [he]
      simp [JobExec.held, hx, create, JobThread.start]

end Ledger

/-- **Task runners.** In every run of a runner, for both execution modes
and both run modes, with restarts, and cancellation at every other
cancellation point: each `TaskRunner` is destroyed exactly once by the
time the job thread has terminated, no task thread is left, and the
array is never written behind its end. -/
theorem run_released {job : Job} {h : History JobRunner Label} {r₀ r : JobRunner}
    (hrun : jobRun job = some r₀) (hr : Run step popsUndisturbed r₀ h r) : Released h r := by
  unfold jobRun at hrun
  split at hrun
  · cases hrun
  · cases hrun
    have hledger : Ledger job h r := by
      refine Run.invariant ?_ ?_ hr
      · exact ⟨.start job, fun _ => rfl⟩
      · intro h r l r' hi hok hs
        exact hi.step hok hs
    exact hledger.released

/-- The runner of `oneTask`, which has been run to the end of its wait. -/
def waitedFor : List Label :=
  List.replicate 3 (.thread (.job true)) ++
    [.thread (.task 0 .spawned), .thread (.job true), .thread (.task 0 (.finished 0)),
      .thread (.job true), .thread (.job true)]

/-- A thread that ends by itself. -/
theorem ended_released : ∃ h r, Run step popsUndisturbed { exec := .start oneTask, pc := .idle } h r ∧
    r.exec.thread.pc = .exited ∧ Released h r := by
  obtain ⟨h, r, hr, hc⟩ := Run.of_check step popsUndisturbed { exec := .start oneTask, pc := .idle }
    (waitedFor ++ List.replicate 6 (.thread (.job true))) (fun r => r.exec.thread.pc == .exited)
    (by decide +kernel)
  have hrun : jobRun oneTask = some { exec := .start oneTask, pc := .idle } := rfl
  exact ⟨h, r, hr, by simpa using hc, run_released hrun hr⟩

/-- **A runner that nobody frees.** The request is acted upon in the
`pthread_join` of `task_runner_destroy`: the thread has terminated, and
the runner that `task_run` returned was not freed. -/
theorem popped_runner_leaks : jobRun oneTask = some { exec := .start oneTask, pc := .idle } ∧
    ∃ h r, Run step always { exec := .start oneTask, pc := .idle } h r ∧
      r.exec.thread.pc = .exited ∧ returned 0 h = 1 ∧ freed 0 h = 0 ∧ ¬ Released h r := by
  refine ⟨rfl, _, _,
    Run.of_replay (waitedFor ++ [.call .stop, .move true, .thread .cancelled]) rfl, rfl, rfl, rfl, ?_⟩
  intro hreleased
  have hended := (hreleased.ended rfl 0).1
  exact absurd hended (by decide +kernel)

end JobRunner

end Pyoneer.Blueprint
