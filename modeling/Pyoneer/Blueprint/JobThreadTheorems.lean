/-
Pyoneer.Blueprint.JobThreadTheorems — what the task threads of a job
thread can be doing at each point of its loop.

`owned` lists, for each program point, the runners that the job thread
still has to wait for or to destroy. `ThreadInv` says that a task thread
that is not finished belongs to one of them, so that in particular
nothing runs behind the job thread's back while it counts, polls or
resets, nor after it has exited. It holds along every run, with
cancellation at any cancellation point and with any outcome of the
tasks.

`Window` is the part of a task's execution in which its status is
RUNNING; `WindowInv` says so, for a job thread that has the job to
itself.
-/
import Pyoneer.Blueprint.JobThread

namespace Pyoneer.Blueprint.JobExec

open Pyoneer.Lib

/-! ## Reading the updates -/

section Projections

variable (e : JobExec) (k j : Nat) (pc : JobPc) (t : TaskThread)

@[simp] theorem goto_pc : (e.goto pc).thread.pc = pc := rfl
@[simp] theorem goto_job : (e.goto pc).job = e.job := rfl
@[simp] theorem goto_info : (e.goto pc).info = e.info := rfl
@[simp] theorem goto_taskRunners : (e.goto pc).taskRunners = e.taskRunners := rfl
@[simp] theorem goto_tasks : (e.goto pc).thread.tasks = e.thread.tasks := rfl
@[simp] theorem goto_completion : (e.goto pc).thread.completion = e.thread.completion := rfl
@[simp] theorem goto_repeats : (e.goto pc).thread.repeats = e.thread.repeats := rfl
@[simp] theorem goto_cancelReq : (e.goto pc).thread.cancelReq = e.thread.cancelReq := rfl

@[simp] theorem setTask_pc : (e.setTask k t).thread.pc = e.thread.pc := rfl
@[simp] theorem setTask_job : (e.setTask k t).job = e.job := rfl
@[simp] theorem setTask_info : (e.setTask k t).info = e.info := rfl
@[simp] theorem setTask_taskRunners : (e.setTask k t).taskRunners = e.taskRunners := rfl
@[simp] theorem setTask_completion :
    (e.setTask k t).thread.completion = e.thread.completion := rfl
@[simp] theorem setTask_repeats : (e.setTask k t).thread.repeats = e.thread.repeats := rfl
@[simp] theorem setTask_tasks :
    (e.setTask k t).thread.tasks = Function.update e.thread.tasks k t := rfl

@[simp] theorem joinTask_pc : (e.joinTask k).thread.pc = e.thread.pc := rfl
@[simp] theorem joinTask_job : (e.joinTask k).job = e.job := rfl
@[simp] theorem joinTask_info : (e.joinTask k).info = e.info := rfl
@[simp] theorem joinTask_taskRunners : (e.joinTask k).taskRunners = e.taskRunners := rfl
@[simp] theorem joinTask_completion :
    (e.joinTask k).thread.completion = e.thread.completion := rfl
@[simp] theorem joinTask_repeats : (e.joinTask k).thread.repeats = e.thread.repeats := rfl

/-- A join does not change what the task threads are doing. -/
@[simp] theorem joinTask_phase :
    ((e.joinTask k).thread.tasks j).phase = (e.thread.tasks j).phase := by
  by_cases h : j = k
  · subst h; simp [joinTask]
  · simp [joinTask, h]

end Projections

theorem taskExited_iff {e : JobExec} {k : Nat} :
    e.taskExited k = true ↔ (e.thread.tasks k).phase = .exited := by
  simp [taskExited]

/-! ## What the thread owns -/

/-- The task thread of node `k` has been created and has not exited. -/
def busy (e : JobExec) (k : Nat) : Prop :=
  (e.thread.tasks k).phase = .created ∨ (e.thread.tasks k).phase = .running

/-- The runners that the job thread has still to wait for or to
destroy. -/
def owned (e : JobExec) : List Nat :=
  match e.thread.pc with
  | .head _ | .run _ => e.taskRunners
  | .setRunning k => k :: e.taskRunners
  | .wait k => [k]
  | .waitAll i => e.taskRunners.drop i
  | .unwindCancel rest | .unwindJoin rest => rest
  | _ => []

/-- The nodes that the loop over the nodes has passed. -/
def Below (e : JobExec) (j : Nat) : Prop :=
  match e.thread.pc with
  | .head k | .run k | .setRunning k => j < k
  | _ => True

/-- The thread is at a point that only `job_thread_sequential` has. -/
def AtWait (e : JobExec) : Prop :=
  match e.thread.pc with
  | .wait _ | .popCancel _ | .popJoin _ => True
  | _ => False

/-- The invariant of a job thread. A thread that `job_runner_restart` has
created finds the array of its predecessor until it clears it. -/
structure ThreadInv (e : JobExec) : Prop where
  sequential : e.thread.pc ≠ .begin → e.job.opts.execMode = .sequential → e.taskRunners = []
  atWait : e.AtWait → e.job.opts.execMode = .sequential
  listed : e.thread.pc ≠ .begin → ∀ k ∈ e.taskRunners,
    e.Below k ∧ k < e.job.size ∧ (e.thread.tasks k).phase ≠ .none
  nodup : e.thread.pc ≠ .begin → e.taskRunners.Nodup
  inRange : ∀ k ∈ e.owned, k < e.job.size ∧ (e.thread.tasks k).phase ≠ .none
  ownedNodup : e.owned.Nodup
  busyOwned : ∀ k, e.busy k → k ∈ e.owned
  current : ∀ k, e.thread.pc = .run k → k < e.job.size

/-- A thread that has just been created. -/
theorem ThreadInv.fresh {e : JobExec} {opts : JobOpts} (h : e.thread = .start opts) :
    ThreadInv e := by
  constructor <;> simp [h, JobThread.start, owned, busy, AtWait]

/-- A move of the job thread that creates no task thread: it is enough
that what it drops from `owned` has exited. -/
theorem ThreadInv.move {e e' : JobExec} (hi : ThreadInv e) (hb : e.thread.pc ≠ .begin)
    (hsize : e'.job.size = e.job.size)
    (hopts : e'.job.opts.execMode = e.job.opts.execMode)
    (hphase : ∀ k, (e'.thread.tasks k).phase = (e.thread.tasks k).phase)
    (hrunners : e'.taskRunners = e.taskRunners)
    (hbelow : ∀ k ∈ e.taskRunners, e.Below k → e'.Below k)
    (hsub : e'.owned.Sublist e.owned)
    (hdrop : ∀ k ∈ e.owned, e.busy k → k ∈ e'.owned)
    (hwait : e'.AtWait → e.AtWait ∨ e.job.opts.execMode = .sequential)
    (hcur : ∀ k, e'.thread.pc = .run k → k < e'.job.size) : ThreadInv e' := by
  have hbusy : ∀ k, e'.busy k ↔ e.busy k := fun k => by simp [busy, hphase]
  refine ⟨?_, ?_, ?_, fun _ => hrunners ▸ hi.nodup hb, ?_, hsub.nodup hi.ownedNodup, ?_, hcur⟩
  · rw [hopts, hrunners]
    exact fun _ => hi.sequential hb
  · rw [hopts]
    exact fun hw => (hwait hw).elim hi.atWait id
  · rw [hrunners, hsize]
    intro _ k hk
    rw [hphase]
    exact ⟨hbelow k hk (hi.listed hb k hk).1, (hi.listed hb k hk).2⟩
  · intro k hk
    rw [hsize, hphase]
    exact hi.inRange k (hsub.subset hk)
  · intro k hk
    have hb := (hbusy k).mp hk
    exact hdrop k (hi.busyOwned k hb) hb

/-- Leaving the loop over the nodes: the runners go to the wait loop in
parallel mode, and there are none in sequential mode. -/
theorem ThreadInv.leaveLoop {e e' : JobExec} {k : Nat} (hi : ThreadInv e)
    (hpc : e.thread.pc = .head k ∨ e.thread.pc = .run k) (hjob : e'.job = e.job)
    (htasks : e'.thread.tasks = e.thread.tasks) (hrunners : e'.taskRunners = e.taskRunners)
    (hpc' : e'.thread.pc = afterLoop e.job.opts.execMode) : ThreadInv e' := by
  have hb : e.thread.pc ≠ .begin := by rcases hpc with h | h <;> simp [h]
  have howned : e.owned = e.taskRunners := by rcases hpc with h | h <;> simp [owned, h]
  have howned' : e'.owned = e.owned := by
    rw [howned]
    cases hm : e.job.opts.execMode with
    | sequential => simp [owned, hpc', hm, afterLoop, hi.sequential hb hm]
    | parallel => simp [owned, hpc', hm, afterLoop, hrunners]
  refine hi.move hb (by rw [hjob]) (by rw [hjob]) (by simp [htasks]) hrunners ?_ ?_ ?_ ?_ ?_
  · intro j _ _
    cases hm : e.job.opts.execMode <;> simp [Below, hpc', hm, afterLoop]
  · simp only [howned', List.Sublist.refl]
  · intro j hj _
    rw [howned']
    exact hj
  · cases hm : e.job.opts.execMode <;> simp [AtWait, hpc', hm, afterLoop]
  · intro j hj
    cases hm : e.job.opts.execMode <;> simp [hpc', hm, afterLoop] at hj

/-- What the loop over the nodes does at node `k`. -/
theorem jobStep_head {e e' : JobExec} {k : Nat} {ok : Bool} (hpc : e.thread.pc = .head k)
    (hs : e.jobStep ok = some e') :
    (e.job.taskStatus k = none ∧ e' = e.goto (afterLoop e.job.opts.execMode)) ∨
    ∃ st, e.job.taskStatus k = some st ∧
      ((st = .ready ∨ st = .incomplete) ∧ e' = e.goto (.run k) ∨
        (st = .notReady ∨ st = .running) ∧ e' = e.abort ∨
        st = .completed ∧ e' = e.goto (.head (k + 1))) := by
  simp only [jobStep, hpc] at hs
  cases hst : e.job.taskStatus k with
  | none =>
    rw [hst] at hs
    exact .inl ⟨rfl, (Option.some.inj hs).symm⟩
  | some st =>
    rw [hst] at hs
    refine .inr ⟨st, rfl, ?_⟩
    cases st <;> cases hs <;> simp

theorem ThreadInv.head {e e' : JobExec} {k : Nat} {ok : Bool} (hi : ThreadInv e)
    (hpc : e.thread.pc = .head k) (hs : e.jobStep ok = some e') : ThreadInv e' := by
  have hstep : ∀ j, (∀ i, i < k → i < j) → ThreadInv (e.goto (.head j)) := by
    intro j hj
    refine hi.move (by simp [hpc]) rfl rfl (fun _ => rfl) rfl ?_ ?_ ?_ (by simp [AtWait]) (by simp)
    · intro i _ hb
      simp only [Below, hpc, goto_pc] at hb ⊢
      exact hj i hb
    · simp [owned, hpc]
    · intro i hi' _
      simpa [owned, hpc] using hi'
  obtain ⟨_, rfl⟩ | ⟨st, hst, ⟨_, rfl⟩ | ⟨_, rfl⟩ | ⟨_, rfl⟩⟩ := jobStep_head hpc hs
  · exact hi.leaveLoop (Or.inl hpc) rfl rfl rfl rfl
  · refine hi.move (by simp [hpc]) rfl rfl (fun _ => rfl) rfl ?_ ?_ ?_ (by simp [AtWait]) ?_
    · intro i _ hb
      simpa [Below, hpc] using hb
    · simp [owned, hpc]
    · intro i hi' _
      simpa [owned, hpc] using hi'
    · intro j hj
      obtain rfl : k = j := by simpa using hj
      exact Job.lt_size_of_taskStatus hst
  · exact hi.leaveLoop (Or.inl hpc) rfl rfl rfl rfl
  · exact hstep (k + 1) fun i hik => by omega

theorem ThreadInv.run {e e' : JobExec} {k : Nat} {ok : Bool} (hi : ThreadInv e)
    (hpc : e.thread.pc = .run k) (hs : e.jobStep ok = some e') : ThreadInv e' := by
  cases ok with
  | false =>
    simp only [jobStep, hpc, Bool.false_eq_true, if_false, Option.some.injEq] at hs
    subst hs
    exact hi.leaveLoop (Or.inr hpc) rfl rfl rfl rfl
  | true =>
    simp only [jobStep, hpc, if_true, Option.some.injEq] at hs
    subst hs
    have hb : e.thread.pc ≠ .begin := by simp [hpc]
    have hk := hi.current k hpc
    have howned : e.owned = e.taskRunners := by simp [owned, hpc]
    have hlt : ∀ j ∈ e.taskRunners, j < k := by
      intro j hj
      simpa [Below, hpc] using (hi.listed hb j hj).1
    refine ⟨fun _ => hi.sequential hb, by simp [AtWait], ?_, fun _ => hi.nodup hb, ?_, ?_, ?_,
      by simp⟩
    · intro _ j hj
      have hjk : j ≠ k := Nat.ne_of_lt (hlt j hj)
      have hl := (hi.listed hb j hj).2
      exact ⟨by simpa [Below] using hlt j hj, by simpa [hjk] using hl⟩
    · intro j hj
      simp only [owned, goto_pc, List.mem_cons] at hj
      rcases hj with rfl | hj
      · exact ⟨hk, by simp⟩
      · have hjk : j ≠ k := Nat.ne_of_lt (hlt j hj)
        have := hi.inRange j (howned ▸ hj)
        simpa [hjk] using this
    · simp only [owned, goto_pc, goto_taskRunners, setTask_taskRunners, List.nodup_cons]
      exact ⟨fun hm => Nat.lt_irrefl k (hlt k hm), hi.nodup hb⟩
    · intro j hj
      simp only [owned, goto_pc, goto_taskRunners, setTask_taskRunners, List.mem_cons]
      by_cases hjk : j = k
      · exact Or.inl hjk
      · refine Or.inr (howned ▸ hi.busyOwned j ?_)
        simpa [busy, hjk] using hj

theorem ThreadInv.setRunning {e e' : JobExec} {k : Nat} {ok : Bool} (hi : ThreadInv e)
    (hpc : e.thread.pc = .setRunning k) (hs : e.jobStep ok = some e') : ThreadInv e' := by
  have howned : e.owned = k :: e.taskRunners := by simp [owned, hpc]
  have hb : e.thread.pc ≠ .begin := by simp [hpc]
  simp only [jobStep, hpc] at hs
  cases hm : e.job.opts.execMode with
  | sequential =>
    simp only [hm, Option.some.injEq] at hs
    subst hs
    have hnil := hi.sequential hb hm
    refine hi.move (by simp [hpc]) (by simp) (by simp) (fun _ => rfl) rfl (by simp [Below]) ?_ ?_
      (fun _ => Or.inr hm) (by simp)
    · simp [owned, hpc]
    · simp [owned, hpc, hnil]
  | parallel =>
    simp only [hm, Option.some.injEq] at hs
    subst hs
    have hlt : ∀ j ∈ e.taskRunners, j < k := by
      intro j hj
      simpa [Below, hpc] using (hi.listed hb j hj).1
    have hperm : (e.taskRunners ++ [k]).Perm e.owned := by
      rw [howned]
      exact List.perm_append_singleton k e.taskRunners
    refine ⟨?_, by simp [AtWait], ?_, ?_, ?_, ?_, ?_, by simp⟩
    · simp [hm]
    · intro _ j hj
      have hj' : j < k + 1 := by
        rcases List.mem_append.mp hj with hj | hj
        · exact Nat.lt_succ_of_lt (hlt j hj)
        · simp only [List.mem_singleton] at hj
          omega
      have hr := hi.inRange j (hperm.mem_iff.mp hj)
      exact ⟨by simpa [Below] using hj', by simpa using hr⟩
    · exact fun _ => hperm.nodup_iff.mpr hi.ownedNodup
    · intro j hj
      have hr := hi.inRange j (hperm.mem_iff.mp hj)
      simpa using hr
    · exact hperm.nodup_iff.mpr hi.ownedNodup
    · intro j hj
      exact hperm.mem_iff.mpr (hi.busyOwned j hj)

/-- A wait or a destruction of the first runner owned returns: that
runner has exited, the others stay. -/
theorem ThreadInv.joined {e e' : JobExec} {k : Nat} {rest : List Nat} (hi : ThreadInv e)
    (hb : e.thread.pc ≠ .begin)
    (hx : e.taskExited k = true) (hj : e'.job = e.job)
    (hphase : ∀ j, (e'.thread.tasks j).phase = (e.thread.tasks j).phase)
    (hrunners : e'.taskRunners = e.taskRunners) (hbelow : ∀ j, e.Below j → e'.Below j)
    (howned : e.owned = k :: rest) (howned' : e'.owned = rest)
    (hwait : e'.AtWait → e.AtWait) (hcur : ∀ j, e'.thread.pc ≠ .run j) : ThreadInv e' := by
  refine hi.move hb (by rw [hj]) (by rw [hj]) hphase hrunners (fun j _ => hbelow j) ?_ ?_
    (fun hw => Or.inl (hwait hw)) (fun j hj => absurd hj (hcur j))
  · rw [howned, howned']
    exact List.sublist_cons_self k rest
  · intro j hjo hb
    rw [howned, List.mem_cons] at hjo
    rw [howned']
    rcases hjo with rfl | hjo
    · rw [taskExited_iff] at hx
      simp [busy, hx] at hb
    · exact hjo

/-- A step at a point where the thread owns no runner. -/
theorem ThreadInv.free {e e' : JobExec} (hi : ThreadInv e) (hb : e.thread.pc ≠ .begin)
    (howned : e.owned = [])
    (hsize : e'.job.size = e.job.size)
    (hopts : e'.job.opts.execMode = e.job.opts.execMode)
    (hphase : ∀ k, (e'.thread.tasks k).phase = (e.thread.tasks k).phase)
    (hrunners : e'.taskRunners = e.taskRunners) (hbelow : ∀ k, e.Below k → e'.Below k)
    (howned' : e'.owned = []) (hwait : e'.AtWait → e.AtWait)
    (hcur : ∀ j, e'.thread.pc ≠ .run j) : ThreadInv e' := by
  refine hi.move hb hsize hopts hphase hrunners (fun j _ => hbelow j) ?_ ?_ (fun hw => Or.inl (hwait hw))
    (fun j hj => absurd hj (hcur j))
  · simp only [howned, howned', List.Sublist.refl]
  · simp [howned]

/-- The next step of the job thread keeps the invariant. -/
theorem ThreadInv.jobStep {e e' : JobExec} {ok : Bool} (hi : ThreadInv e)
    (hs : e.jobStep ok = some e') : ThreadInv e' := by
  cases hpc : e.thread.pc with
  | head k => exact hi.head hpc hs
  | run k => exact hi.run hpc hs
  | setRunning k => exact hi.setRunning hpc hs
  | «begin» =>
    simp only [JobExec.jobStep, hpc, Option.some.injEq] at hs
    subst hs
    have hfree : ∀ k, ¬ e.busy k := fun k hk => by simpa [owned, hpc] using hi.busyOwned k hk
    exact ⟨by simp, by simp [AtWait], by simp, by simp, by simp [owned], by simp [owned],
      fun k hk => absurd hk (hfree k), by simp⟩
  | wait k =>
    simp only [JobExec.jobStep, hpc] at hs
    split at hs
    · rename_i hx
      simp only [Option.some.injEq] at hs
      subst hs
      exact hi.joined (by simp [hpc]) hx rfl (by simp) rfl (by simp [Below]) (by simp [owned, hpc] : _ = [k])
        (by simp [owned]) (by simp [AtWait, hpc]) (by simp)
    · cases hs
  | popCancel k =>
    simp only [JobExec.jobStep, hpc, Option.some.injEq] at hs
    subst hs
    exact hi.free (by simp [hpc]) (by simp [owned, hpc]) rfl rfl (by simp) rfl (by simp [Below])
      (by simp [owned]) (by simp [AtWait, hpc]) (by simp)
  | popJoin k =>
    simp only [JobExec.jobStep, hpc] at hs
    split at hs
    · simp only [Option.some.injEq] at hs
      subst hs
      have hnil := hi.sequential (by simp [hpc]) (hi.atWait (by simp [AtWait, hpc]))
      refine hi.move (by simp [hpc]) rfl rfl (by simp) rfl ?_ ?_ ?_ (by simp [AtWait]) (by simp)
      · simp [hnil]
      · simp [owned, hpc, hnil]
      · simp [owned, hpc]
    · cases hs
  | waitAll i =>
    simp only [JobExec.jobStep, hpc] at hs
    cases hr : e.taskRunners[i]? with
    | none =>
      simp only [hr, Option.some.injEq] at hs
      subst hs
      have hle : e.taskRunners.length ≤ i := List.getElem?_eq_none_iff.mp hr
      exact hi.free (by simp [hpc]) (by simp [owned, hpc, hle]) rfl rfl (by simp) rfl (by simp [Below])
        (by simp [owned]) (by simp [AtWait, hpc]) (by simp)
    | some k =>
      simp only [hr] at hs
      split at hs
      · rename_i hx
        simp only [Option.some.injEq] at hs
        subst hs
        have hcons : e.owned = k :: e.taskRunners.drop (i + 1) := by
          obtain ⟨hlt, hget⟩ := List.getElem?_eq_some_iff.mp hr
          simp only [owned, hpc, List.drop_eq_getElem_cons hlt, hget]
        exact hi.joined (by simp [hpc]) hx rfl (by simp) rfl (by simp [Below]) hcons (by simp [owned])
          (by simp [AtWait]) (by simp)
      · cases hs
  | popAllCancel i =>
    simp only [JobExec.jobStep, hpc] at hs
    split at hs
    · simp only [Option.some.injEq] at hs
      subst hs
      exact hi.free (by simp [hpc]) (by simp [owned, hpc]) rfl rfl (by simp) rfl (by simp [Below])
        (by simp [owned]) (by simp [AtWait, hpc]) (by simp)
    · simp only [Option.some.injEq] at hs
      subst hs
      exact hi.free (by simp [hpc]) (by simp [owned, hpc]) rfl rfl (by simp) rfl (by simp [Below])
        (by simp [owned]) (by simp [AtWait, hpc]) (by simp)
  | popAllJoin i =>
    simp only [JobExec.jobStep, hpc] at hs
    split at hs
    · cases hs
    · split at hs
      · simp only [Option.some.injEq] at hs
        subst hs
        exact hi.free (by simp [hpc]) (by simp [owned, hpc]) rfl rfl (by simp) rfl (by simp [Below])
          (by simp [owned]) (by simp [AtWait, hpc]) (by simp)
      · cases hs
  | count =>
    simp only [JobExec.jobStep, hpc] at hs
    split at hs
    · simp only [Option.some.injEq] at hs
      subst hs
      exact hi.free (by simp [hpc]) (by simp [owned, hpc]) rfl rfl (by simp) rfl (by simp [Below])
        (by simp [owned]) (by simp [AtWait, hpc]) (by simp)
    · simp only [Option.some.injEq] at hs
      subst hs
      exact hi.free (by simp [hpc]) (by simp [owned, hpc]) rfl rfl (by simp) rfl (by simp [Below])
        (by simp [owned]) (by simp [AtWait, hpc]) (by simp)
  | poll k seen =>
    simp only [JobExec.jobStep, hpc] at hs
    split at hs
    · simp only [Option.some.injEq] at hs
      subst hs
      exact hi.free (by simp [hpc]) (by simp [owned, hpc]) rfl rfl (by simp) rfl (by simp [Below])
        (by simp [owned]) (by simp [AtWait, hpc]) (by simp)
    · simp only [Option.some.injEq] at hs
      subst hs
      have howned : e.owned = [] := by simp [owned, hpc]
      cases hrep : e.thread.repeats with
      | false =>
        exact hi.free (by simp [hpc]) howned (by simp) (by simp) (by simp) rfl (by simp [Below])
          (by simp [owned]) (by simp [AtWait, hpc]) (by simp)
      | true =>
        exact hi.free (by simp [hpc]) howned (by simp) (by simp) (by simp) rfl (by simp [Below])
          (by simp [owned]) (by simp [AtWait, hpc]) (by simp)
  | reset k =>
    simp only [JobExec.jobStep, hpc] at hs
    split at hs
    · simp only [Option.some.injEq] at hs
      subst hs
      exact hi.free (by simp [hpc]) (by simp [owned, hpc]) (by simp) (by simp) (by simp) rfl (by simp [Below])
        (by simp [owned]) (by simp [AtWait, hpc]) (by simp)
    · simp only [Option.some.injEq] at hs
      subst hs
      exact hi.free (by simp [hpc]) (by simp [owned, hpc]) rfl rfl (by simp) rfl (by simp [Below])
        (by simp [owned]) (by simp [AtWait, hpc]) (by simp)
  | loopTest =>
    simp only [JobExec.jobStep, hpc, Option.some.injEq] at hs
    subst hs
    have howned : e.owned = [] := by simp [owned, hpc]
    cases hrep : e.thread.repeats with
    | false =>
      exact hi.free (by simp [hpc]) howned rfl rfl (by simp) rfl (by simp [Below]) (by simp [owned]) (by simp [AtWait, hpc]) (by simp)
    | true =>
      exact hi.free (by simp [hpc]) howned rfl rfl (by simp) rfl (by simp [Below]) (by simp [owned]) (by simp [AtWait, hpc]) (by simp)
  | unwindCancel rest =>
    simp only [JobExec.jobStep, hpc] at hs
    split at hs
    · simp only [Option.some.injEq] at hs
      subst hs
      exact hi.free (by simp [hpc]) (by simp [owned, hpc]) rfl rfl (by simp) rfl (by simp [Below])
        (by simp [owned]) (by simp [AtWait, hpc]) (by simp)
    · rename_i k rest
      simp only [Option.some.injEq] at hs
      subst hs
      refine hi.move (by simp [hpc]) rfl rfl (by simp) rfl (by simp [Below]) ?_ ?_ (by simp [AtWait]) (by simp)
      · simp [owned, hpc]
      · intro j hj _
        simpa [owned, hpc] using hj
  | unwindJoin rest =>
    simp only [JobExec.jobStep, hpc] at hs
    split at hs
    · cases hs
    · rename_i k rest
      split at hs
      · rename_i hx
        simp only [Option.some.injEq] at hs
        subst hs
        exact hi.joined (by simp [hpc]) hx rfl (by simp) rfl (by simp [Below])
          (by simp [owned, hpc] : _ = k :: rest) (by simp [owned]) (by simp [AtWait, hpc]) (by simp)
      · cases hs
  | exited => simp [JobExec.jobStep, hpc] at hs

/-- Acting on a cancellation request hands all that is owned to the
handlers, or leaves nothing behind. -/
theorem ThreadInv.cancelStep {e e' : JobExec} (hi : ThreadInv e)
    (hs : e.cancelStep = some e') : ThreadInv e' := by
  have hmove : ∀ pc, (e.goto pc).owned = e.owned → ¬ (e.goto pc).AtWait →
      (∀ j, (e.goto pc).Below j) → (∀ j, pc ≠ .run j) → e.thread.pc ≠ .begin →
      ThreadInv (e.goto pc) := by
    intro pc howned hwait hbelow hrun hb
    refine hi.move hb rfl rfl (fun _ => rfl) rfl (fun j _ _ => hbelow j) ?_ ?_
      (fun hw => absurd hw hwait) (fun j hj => absurd hj (hrun j))
    · simp only [howned, List.Sublist.refl]
    · intro j hj _
      rw [howned]
      exact hj
  simp only [JobExec.cancelStep] at hs
  split at hs
  · cases hpc : e.thread.pc with
    | run k =>
      simp only [hpc] at hs
      cases hm : e.job.opts.execMode with
      | sequential =>
        simp only [hm, Option.some.injEq] at hs
        subst hs
        exact hmove _ (by simp [owned, hpc, hi.sequential (by simp [hpc]) hm]) (by simp [AtWait])
          (by simp [Below]) (by simp) (by simp [hpc])
      | parallel =>
        simp only [hm, Option.some.injEq] at hs
        subst hs
        exact hmove _ (by simp [owned, hpc]) (by simp [AtWait]) (by simp [Below]) (by simp)
          (by simp [hpc])
    | wait k =>
      simp only [hpc, Option.some.injEq] at hs
      subst hs
      exact hmove _ (by simp [owned, hpc]) (by simp [AtWait]) (by simp [Below]) (by simp)
          (by simp [hpc])
    | waitAll i =>
      simp only [hpc] at hs
      split at hs
      · simp only [Option.some.injEq] at hs
        subst hs
        have hb : e.thread.pc ≠ .begin := by simp [hpc]
        refine ⟨fun _ => hi.sequential hb, by simp [AtWait], ?_, fun _ => hi.nodup hb, ?_, ?_, ?_,
          by simp⟩
        · exact fun _ j hj => ⟨by simp [Below], (hi.listed hb j hj).2⟩
        · exact fun j hj => (hi.listed hb j hj).2
        · simpa [owned] using hi.nodup hb
        · intro j hj
          have hm := hi.busyOwned j hj
          simp only [owned, hpc] at hm
          exact List.mem_of_mem_drop hm
      · cases hs
    | popJoin k | popAllJoin k =>
      simp only [hpc, Option.some.injEq] at hs
      subst hs
      exact hmove _ (by simp [owned, hpc]) (by simp [AtWait]) (by simp [Below]) (by simp)
          (by simp [hpc])
    | _ => simp [hpc] at hs
  · cases hs

theorem ThreadInv.taskStep {e e' : JobExec} {k : Nat} {a : TaskAct} (hi : ThreadInv e)
    (hs : e.taskStep k a = some e') : ThreadInv e' := by
  obtain ⟨st, t, hphase, hbusy, rfl⟩ : ∃ st t, t.phase ≠ .none ∧ e.busy k ∧
      e' = { e with job := e.job.setTaskStatus k st }.setTask k t := by
    simp only [JobExec.taskStep] at hs
    split at hs
    · rename_i hp
      simp only [Option.some.injEq] at hs
      exact ⟨.running, _, by simp, Or.inl hp, hs.symm⟩
    · rename_i ws hp
      split at hs
      · cases hs
      · simp only [Option.some.injEq] at hs
        exact ⟨_, _, by simp, Or.inr hp, hs.symm⟩
    · cases hs
  have hsome : ∀ j, (e.thread.tasks j).phase ≠ .none →
      (Function.update e.thread.tasks k t j).phase ≠ .none := by
    intro j hj
    by_cases hjk : j = k
    · subst hjk
      simpa using hphase
    · simpa [hjk] using hj
  have hold : ∀ j, ({ e with job := e.job.setTaskStatus k st }.setTask k t).busy j → e.busy j := by
    intro j hj
    by_cases hjk : j = k
    · exact hjk ▸ hbusy
    · simpa [busy, hjk] using hj
  refine ⟨?_, hi.atWait, ?_, hi.nodup, ?_, hi.ownedNodup, fun j hj => hi.busyOwned j (hold j hj), ?_⟩
  · exact hi.sequential
  · intro hb j hj
    obtain ⟨hbelow, hlt, hne⟩ := hi.listed hb j hj
    exact ⟨hbelow, by simpa using hlt, hsome j hne⟩
  · intro j hj
    obtain ⟨hlt, hne⟩ := hi.inRange j hj
    exact ⟨by simpa using hlt, hsome j hne⟩
  · intro j hj
    simpa using hi.current j hj

/-- Every step of a job thread and its task threads keeps the invariant. -/
theorem ThreadInv.step {e e' : JobExec} {l : Label} (hi : ThreadInv e)
    (hs : e.step l = some e') : ThreadInv e' := by
  cases l with
  | job ok => exact hi.jobStep hs
  | cancelled => exact hi.cancelStep hs
  | task k a => exact hi.taskStep hs

/-- The invariant reads the job only for its size and its mode. -/
theorem ThreadInv.congr {e e' : JobExec} (hi : ThreadInv e) (hsize : e'.job.size = e.job.size)
    (hopts : e'.job.opts.execMode = e.job.opts.execMode)
    (hrunners : e'.taskRunners = e.taskRunners) (hpc : e'.thread.pc = e.thread.pc)
    (htasks : e'.thread.tasks = e.thread.tasks) : ThreadInv e' := by
  have howned : e'.owned = e.owned := by simp only [owned, hpc, hrunners]
  have hbelow : e'.Below = e.Below := by
    funext j
    simp only [Below, hpc]
  have hwait : e'.AtWait ↔ e.AtWait := by simp only [AtWait, hpc]
  have hbusy : e'.busy = e.busy := by
    funext j
    simp only [busy, htasks]
  refine ⟨?_, ?_, ?_, ?_, ?_, ?_, ?_, ?_⟩
  · rw [hpc, hopts, hrunners]
    exact hi.sequential
  · rw [hwait, hopts]
    exact hi.atWait
  · rw [hpc, hrunners, hbelow, hsize, htasks]
    exact hi.listed
  · rw [hpc, hrunners]
    exact hi.nodup
  · rw [howned, hsize, htasks]
    exact hi.inRange
  · rw [howned]
    exact hi.ownedNodup
  · rw [hbusy, howned]
    exact hi.busyOwned
  · rw [hpc, hsize]
    exact hi.current

/-! ## What a step leaves alone -/

/-- What a step of the job thread does to its job: nothing, or one status
write, or the end of a poll. -/
theorem jobStep_job {e e' : JobExec} {ok : Bool} (hs : e.jobStep ok = some e') :
    ((∀ k, e.thread.pc ≠ .setRunning k) ∧ e'.job = e.job) ∨
    (∃ k, e.thread.pc = .setRunning k ∧ e'.job = e.job.setTaskStatus k .running) ∨
    (∃ k, e.thread.pc = .reset k ∧ e'.job = e.job.setTaskStatus k .ready) ∨
    ∃ k seen, e.thread.pc = .poll k seen ∧ e.job.taskStatus k = none ∧
      e'.job = e.job.putStatus seen := by
  cases hpc : e.thread.pc with
  | setRunning k =>
    simp only [jobStep, hpc] at hs
    split at hs <;> simp only [Option.some.injEq] at hs <;> subst hs <;> simp
  | reset k =>
    simp only [jobStep, hpc] at hs
    split at hs <;> simp only [Option.some.injEq] at hs <;> subst hs <;> simp
  | poll k seen =>
    simp only [jobStep, hpc] at hs
    split at hs
    · simp only [Option.some.injEq] at hs
      subst hs
      simp
    · rename_i hnone
      simp only [Option.some.injEq] at hs
      subst hs
      exact Or.inr (Or.inr (Or.inr ⟨k, seen, rfl, hnone, by simp⟩))
  | exited => simp [jobStep, hpc] at hs
  | unwindCancel rest | unwindJoin rest =>
    simp only [jobStep, hpc] at hs
    split at hs <;> try split at hs
    all_goals simp only [Option.some.injEq, reduceCtorEq] at hs
    all_goals subst hs
    all_goals exact Or.inl ⟨by simp, rfl⟩
  | _ =>
    simp only [jobStep, hpc] at hs
    repeat' split at hs
    all_goals simp only [Option.some.injEq, reduceCtorEq] at hs
    all_goals subst hs
    all_goals exact Or.inl ⟨by simp, rfl⟩

/-- What a step of the job thread does to its task threads: it creates
one, or it only joins. -/
theorem jobStep_tasks {e e' : JobExec} {ok : Bool} (hs : e.jobStep ok = some e') :
    (∃ k, e.thread.pc = .run k ∧ e'.thread.pc = .setRunning k ∧
      e'.thread.tasks = Function.update e.thread.tasks k { phase := .created, joins := 0 }) ∨
    ((∀ k, e'.thread.pc ≠ .setRunning k) ∧
      ∀ k, (e'.thread.tasks k).phase = (e.thread.tasks k).phase) := by
  cases hpc : e.thread.pc with
  | run k =>
    cases ok with
    | true =>
      simp only [jobStep, hpc, if_true, Option.some.injEq] at hs
      subst hs
      exact Or.inl ⟨k, rfl, rfl, rfl⟩
    | false =>
      simp only [jobStep, hpc, Bool.false_eq_true, if_false, Option.some.injEq] at hs
      subst hs
      refine Or.inr ⟨fun j => ?_, fun j => rfl⟩
      cases hm : e.job.opts.execMode <;> simp [abort, afterLoop, hm]
  | head k =>
    simp only [jobStep, hpc] at hs
    split at hs <;> simp only [Option.some.injEq] at hs <;> subst hs
    all_goals refine Or.inr ⟨fun j => ?_, fun j => rfl⟩
    all_goals cases hm : e.job.opts.execMode <;> simp [abort, afterLoop, hm]
  | poll k seen =>
    simp only [jobStep, hpc] at hs
    split at hs <;> simp only [Option.some.injEq] at hs <;> subst hs
    all_goals refine Or.inr ⟨fun j => ?_, fun j => rfl⟩
    all_goals cases hm : e.thread.repeats <;> simp
  | loopTest =>
    simp only [jobStep, hpc, Option.some.injEq] at hs
    subst hs
    refine Or.inr ⟨fun j => ?_, fun j => rfl⟩
    cases hm : e.thread.repeats <;> simp
  | exited => simp [jobStep, hpc] at hs
  | _ =>
    simp only [jobStep, hpc] at hs
    repeat' split at hs
    all_goals simp only [Option.some.injEq, reduceCtorEq] at hs
    all_goals subst hs
    all_goals exact Or.inr ⟨by simp, by simp⟩

theorem cancelStep_eq {e e' : JobExec} (hs : e.cancelStep = some e') :
    ∃ pc, e' = e.goto pc ∧ (∀ k, e.thread.pc ≠ .setRunning k) ∧ (∀ k, pc ≠ .setRunning k) ∧
      e.thread.pc ≠ .exited := by
  simp only [JobExec.cancelStep] at hs
  split at hs
  · cases hpc : e.thread.pc <;> simp only [hpc] at hs
    all_goals repeat' split at hs
    all_goals simp only [Option.some.injEq, reduceCtorEq] at hs
    all_goals subst hs
    all_goals exact ⟨_, rfl, by simp, by simp, by simp⟩
  · cases hs

/-- What a step of a task thread does: it writes its own status. -/
theorem taskStep_eq {e e' : JobExec} {k : Nat} {a : TaskAct} (hs : e.taskStep k a = some e') :
    e.busy k ∧ ∃ st phase, (phase = .running ∧ st = .running ∨ phase = .exited) ∧
      e' = { e with job := e.job.setTaskStatus k st }.setTask k
        { e.thread.tasks k with phase := phase } := by
  simp only [JobExec.taskStep] at hs
  split at hs
  · rename_i hp
    simp only [Option.some.injEq] at hs
    exact ⟨Or.inl hp, .running, .running, Or.inl ⟨rfl, rfl⟩, hs.symm⟩
  · rename_i ws hp
    split at hs
    · cases hs
    · simp only [Option.some.injEq] at hs
      exact ⟨Or.inr hp, _, .exited, Or.inr rfl, hs.symm⟩
  · cases hs

/-- No step changes the nodes or the options of the job. -/
theorem step_job_frame {e e' : JobExec} {l : Label} (hs : e.step l = some e') :
    e'.job.size = e.job.size ∧ e'.job.opts = e.job.opts := by
  cases l with
  | job ok =>
    rcases jobStep_job hs with ⟨_, hj⟩ | ⟨k, _, hj⟩ | ⟨k, _, hj⟩ | ⟨k, seen, _, _, hj⟩ <;>
      simp [hj]
  | cancelled =>
    obtain ⟨pc, rfl, _⟩ := cancelStep_eq hs
    exact ⟨rfl, rfl⟩
  | task k a =>
    obtain ⟨_, st, phase, _, rfl⟩ := taskStep_eq hs
    simp

/-- A thread that has exited takes no step, and neither do its task
threads. -/
theorem not_exited_of_step {e e' : JobExec} {l : Label} (hfree : ∀ k, ¬ e.busy k)
    (hs : e.step l = some e') : e.thread.pc ≠ .exited := by
  intro hpc
  cases l with
  | job ok => simp [step, jobStep, hpc] at hs
  | cancelled => exact (cancelStep_eq hs).elim fun pc h => h.2.2.2 hpc
  | task k a => exact hfree k (taskStep_eq hs).1

/-- A thread that has exited stays so, whatever task threads it has left
behind. -/
theorem exited_of_step {e e' : JobExec} {l : Label} (hs : e.step l = some e')
    (hpc : e.thread.pc = .exited) : e'.thread.pc = .exited := by
  cases l with
  | job ok => simp [step, jobStep, hpc] at hs
  | cancelled => exact (cancelStep_eq hs).elim fun pc h => absurd hpc h.2.2.2
  | task k a =>
    obtain ⟨_, st, phase, _, rfl⟩ := taskStep_eq hs
    exact hpc

/-- No thread asks itself to be cancelled. -/
theorem step_cancelReq {e e' : JobExec} {l : Label} (hs : e.step l = some e') :
    e'.thread.cancelReq = e.thread.cancelReq := by
  cases l with
  | job ok =>
    simp only [step, jobStep] at hs
    split at hs <;> (repeat' split at hs) <;> cases hs <;> rfl
  | cancelled =>
    obtain ⟨pc, rfl, _⟩ := cancelStep_eq hs
    rfl
  | task k a =>
    obtain ⟨_, st, phase, _, rfl⟩ := taskStep_eq hs
    rfl

/-! ## The window in which a task reads as RUNNING -/

/-- The task of node `k` executes: its thread has started the script, or
`task_run` has returned, and its final status is not written. -/
def Window (e : JobExec) (k : Nat) : Prop :=
  (e.thread.tasks k).phase = .running ∨
  ((e.thread.tasks k).phase = .created ∧ e.thread.pc ≠ .setRunning k)

instance (e : JobExec) (k : Nat) : Decidable (e.Window k) := inferInstanceAs (Decidable (_ ∨ _ ∧ _))

/-- A task that executes has the status RUNNING. -/
def WindowInv (e : JobExec) : Prop := ∀ k, e.Window k → e.job.taskStatus k = some .running

theorem Window.busy {e : JobExec} {k : Nat} (h : e.Window k) : e.busy k :=
  h.elim Or.inr fun h => Or.inl h.1

theorem WindowInv.fresh {e : JobExec} {opts : JobOpts} (h : e.thread = .start opts) :
    WindowInv e := by
  intro k hk
  simp [Window, h, JobThread.start] at hk

theorem WindowInv.congr {e e' : JobExec} (hi : WindowInv e) (hpc : e'.thread.pc = e.thread.pc)
    (htasks : e'.thread.tasks = e.thread.tasks)
    (hst : ∀ k, e'.job.taskStatus k = e.job.taskStatus k) : WindowInv e' := by
  intro k hk
  rw [hst]
  refine hi k ?_
  simpa only [Window, hpc, htasks] using hk

/-- A step of the job thread opens no window but that of the task whose
`task_run` returns. -/
theorem Window.of_jobStep {e e' : JobExec} {ok : Bool} {k : Nat} (hs : e.jobStep ok = some e')
    (hk : e'.Window k) : e.Window k ∨ e.thread.pc = .setRunning k := by
  rcases jobStep_tasks hs with ⟨j, hpc, hpc', htasks⟩ | ⟨hpc', hphase⟩
  · by_cases hkj : k = j
    · subst hkj
      simp [Window, hpc', htasks] at hk
    · refine Or.inl ?_
      simpa [Window, hpc, hpc', htasks, hkj, Ne.symm hkj] using hk
  · by_cases hpc : e.thread.pc = .setRunning k
    · exact Or.inr hpc
    · refine Or.inl ?_
      simpa [Window, hpc', hphase, hpc] using hk

theorem WindowInv.step {e e' : JobExec} {l : Label} (ht : ThreadInv e) (hi : WindowInv e)
    (hs : e.step l = some e') : WindowInv e' := by
  intro k hk
  cases l with
  | job ok =>
    have hw := Window.of_jobStep hs hk
    rcases jobStep_job hs with ⟨hpc, hjob⟩ | ⟨j, hpc, hjob⟩ | ⟨j, hpc, _⟩ | ⟨j, seen, hpc, _⟩
    · rw [hjob]
      exact hi k (hw.resolve_right (hpc k))
    · rw [hjob]
      by_cases hkj : k = j
      · subst hkj
        exact Job.taskStatus_setTaskStatus_self _ _ (ht.inRange k (by simp [owned, hpc])).1
      · rw [Job.taskStatus_setTaskStatus_ne _ _ (Ne.symm hkj)]
        refine hi k (hw.resolve_right ?_)
        simp [hpc, Ne.symm hkj]
    · have hm := ht.busyOwned k (hw.resolve_right (by simp [hpc])).busy
      simp [owned, hpc] at hm
    · have hm := ht.busyOwned k (hw.resolve_right (by simp [hpc])).busy
      simp [owned, hpc] at hm
  | cancelled =>
    obtain ⟨pc, rfl, hpc, hpc', _⟩ := cancelStep_eq hs
    refine hi k ?_
    simpa [Window, hpc, hpc'] using hk
  | task j a =>
    obtain ⟨hbusy, st, phase, hphase, rfl⟩ := taskStep_eq hs
    have hj : j < e.job.size := (ht.inRange j (ht.busyOwned j hbusy)).1
    by_cases hkj : k = j
    · subst hkj
      rcases hphase with ⟨rfl, rfl⟩ | rfl
      · exact Job.taskStatus_setTaskStatus_self _ _ hj
      · simp [Window] at hk
    · have hw : e.Window k := by simpa [Window, hkj] using hk
      have hk' := hi k hw
      simpa [Job.taskStatus_setTaskStatus_ne _ st (Ne.symm hkj)] using hk'

end Pyoneer.Blueprint.JobExec
