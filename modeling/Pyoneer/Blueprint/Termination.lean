/-
Pyoneer.Blueprint.Termination — how long a job thread runs.

A job thread can always go on until it exits (`progress`): what it waits
for is a task thread that has been created and has not exited, and that
one can take a step.

A thread whose loop does not repeat, and a thread that unwinds, come to
their end whatever happens. `fuel` counts the steps that are left, of
the thread and of its task threads, and every step takes from it. So a
thread of mode ONCE over `n` tasks is done after `11 * n + 7` steps
(`run_once_ends`), where a `pthread_cancel` can come before any of them.

A thread of mode REPEAT goes on until it is cancelled. Between two
cancellation points it may have to run all of its loop once, if all the
tasks were completed before; then it has set them to READY, and the next
pass comes to a wait (`ends_of_cancelReq`).
-/
import Pyoneer.Blueprint.JobModesTheorems
import Pyoneer.Blueprint.JobRunner
import Pyoneer.Blueprint.TaskHandles

namespace Pyoneer.Blueprint.JobExec

open Pyoneer.Lib

/-! ## The measure -/

/-- The steps of the job thread from here on, with `n` nodes and `r`
runners in the array, and the ones of the task threads that it will
create. -/
def pcFuel (n r : Nat) : JobPc → Nat
  | .begin => 11 * n + 7
  | .head k => 10 * (n - k) + 3 * r + n + 6
  | .run k => 10 * (n - (k + 1)) + 3 * r + n + 13
  | .setRunning k => 10 * (n - (k + 1)) + 3 * r + n + 10
  | .wait k => 10 * (n - (k + 1)) + 3 * r + n + 9
  | .popCancel k => 10 * (n - (k + 1)) + 3 * r + n + 8
  | .popJoin k => 10 * (n - (k + 1)) + 3 * r + n + 7
  | .waitAll i => (r - i) + 2 * r + n + 5
  | .popAllCancel i => 2 * (r - i) + n + 4
  | .popAllJoin i => 2 * (r - i) + n + 3
  | .count => n + 3
  | .poll k _ | .reset k => (n - k) + 2
  | .loopTest => 1
  | .unwindCancel rest => 2 * rest.length + 1
  | .unwindJoin rest => 2 * rest.length
  | .exited => 0

def fuel (e : JobExec) : Nat :=
  pcFuel e.job.size e.taskRunners.length e.thread.pc + tasksLeft e.thread.tasks e.job.size

/-- The loop does not repeat, or is over. -/
def Ending (e : JobExec) : Prop := e.thread.repeats = false ∨ e.Unwinding

section Fuel

variable {e e' : JobExec} {k : Nat} {ok : Bool} {l : Label}

theorem pcFuel_afterLoop (n r k : Nat) (mode : ExecMode) :
    pcFuel n r (afterLoop mode) < pcFuel n r (.head k) ∧
      pcFuel n r (afterLoop mode) < pcFuel n r (.run k) := by
  cases mode <;> simp only [afterLoop, pcFuel] <;> omega

/-- The thread goes on to another point and creates nothing. -/
theorem fuel_lt (hsize : e'.job.size = e.job.size)
    (hphase : ∀ k, (e'.thread.tasks k).phase = (e.thread.tasks k).phase)
    (hpc : pcFuel e.job.size e'.taskRunners.length e'.thread.pc <
      pcFuel e.job.size e.taskRunners.length e.thread.pc) : e'.fuel < e.fuel := by
  rw [fuel, fuel, hsize, tasksLeft_congr hphase]
  omega

theorem fuel_head (hpc : e.thread.pc = .head k) (hs : e.jobStep ok = some e') :
    e'.fuel < e.fuel := by
  have hloop := pcFuel_afterLoop e.job.size e.taskRunners.length k e.job.opts.execMode
  obtain ⟨_, rfl⟩ | ⟨st, hst, ⟨_, rfl⟩ | ⟨_, rfl⟩ | ⟨_, rfl⟩⟩ := jobStep_head hpc hs
  · exact fuel_lt rfl (fun _ => rfl) (hpc ▸ hloop.1)
  · have hk := Job.lt_size_of_taskStatus hst
    refine fuel_lt rfl (fun _ => rfl) ?_
    simp only [hpc, pcFuel, goto_pc, goto_taskRunners]
    omega
  · exact fuel_lt rfl (fun _ => rfl) (hpc ▸ hloop.1)
  · have hk := Job.lt_size_of_taskStatus hst
    refine fuel_lt rfl (fun _ => rfl) ?_
    simp only [hpc, pcFuel, goto_pc, goto_taskRunners]
    omega

theorem fuel_run (hi : ThreadInv e) (hpc : e.thread.pc = .run k)
    (hs : e.jobStep ok = some e') : e'.fuel < e.fuel := by
  cases ok with
  | false =>
    have hloop := pcFuel_afterLoop e.job.size e.taskRunners.length k e.job.opts.execMode
    simp only [jobStep, hpc, Bool.false_eq_true, if_false, Option.some.injEq] at hs
    subst hs
    exact fuel_lt rfl (fun _ => rfl) (hpc ▸ hloop.2)
  | true =>
    simp only [jobStep, hpc, if_true, Option.some.injEq] at hs
    subst hs
    have htask : _ = _ + 2 :=
      tasksLeft_update (f := e.thread.tasks) (t := ⟨.created, 0⟩) (hi.current k hpc)
    simp only [fuel, goto_job, goto_pc, goto_tasks, goto_taskRunners, setTask_job, setTask_tasks,
      setTask_taskRunners, hpc, pcFuel]
    omega

/-- A step of the job thread uses fuel, unless it begins a new pass. -/
theorem fuel_jobStep (hi : ThreadInv e) (hend : Ending e) (hs : e.jobStep ok = some e') :
    e'.fuel < e.fuel := by
  have hrepeats : ¬ e.Unwinding → e.thread.repeats = false := fun h => hend.resolve_right h
  cases hpc : e.thread.pc with
  | head k => exact fuel_head hpc hs
  | run k => exact fuel_run hi hpc hs
  | «begin» =>
    simp only [jobStep, hpc, Option.some.injEq] at hs
    subst hs
    refine fuel_lt rfl (fun _ => rfl) ?_
    simp only [hpc, pcFuel, List.length_nil]
    omega
  | setRunning k =>
    simp only [jobStep, hpc] at hs
    split at hs <;> simp only [Option.some.injEq] at hs <;> subst hs <;>
      refine fuel_lt (Job.size_setTaskStatus ..) (fun _ => rfl) ?_
    · simp only [hpc, pcFuel, goto_pc, goto_taskRunners]
      omega
    · simp only [hpc, pcFuel, goto_pc, goto_taskRunners, List.length_append, List.length_singleton]
      omega
  | wait k | popJoin k =>
    simp only [jobStep, hpc] at hs
    split at hs <;> cases hs
    refine fuel_lt rfl (fun _ => joinTask_phase ..) ?_
    simp only [hpc, pcFuel, goto_pc, goto_taskRunners, joinTask_taskRunners]
    omega
  | waitAll i =>
    simp only [jobStep, hpc] at hs
    cases hr : e.taskRunners[i]? with
    | none =>
      simp only [hr, Option.some.injEq] at hs
      subst hs
      refine fuel_lt rfl (fun _ => rfl) ?_
      simp only [hpc, pcFuel, goto_pc, goto_taskRunners]
      omega
    | some k =>
      have hlt := (List.getElem?_eq_some_iff.mp hr).1
      simp only [hr] at hs
      split at hs <;> cases hs
      refine fuel_lt rfl (fun _ => joinTask_phase ..) ?_
      simp only [hpc, pcFuel, goto_pc, goto_taskRunners, joinTask_taskRunners]
      omega
  | popAllJoin i =>
    simp only [jobStep, hpc] at hs
    cases hr : e.taskRunners[i]? with
    | none => simp only [hr, reduceCtorEq] at hs
    | some k =>
      have hlt := (List.getElem?_eq_some_iff.mp hr).1
      simp only [hr] at hs
      split at hs <;> cases hs
      refine fuel_lt rfl (fun _ => joinTask_phase ..) ?_
      simp only [hpc, pcFuel, goto_pc, goto_taskRunners, joinTask_taskRunners]
      omega
  | popAllCancel i =>
    simp only [jobStep, hpc] at hs
    split at hs <;> cases hs <;> refine fuel_lt rfl (fun _ => rfl) ?_ <;>
      simp only [hpc, pcFuel, goto_pc, goto_taskRunners] <;> omega
  | poll k seen =>
    have hr := hrepeats (by simp [Unwinding, hpc])
    simp only [jobStep, hpc] at hs
    split at hs <;> simp only [Option.some.injEq] at hs <;> subst hs
    · rename_i hst
      have hk := Job.lt_size_of_taskStatus hst
      refine fuel_lt rfl (fun _ => rfl) ?_
      simp only [hpc, pcFuel, goto_pc]
      omega
    · refine fuel_lt (Job.size_putStatus ..) (fun _ => rfl) ?_
      simp only [hr, hpc, pcFuel, goto_pc, Bool.false_eq_true, if_false]
      omega
  | count =>
    simp only [jobStep, hpc] at hs
    split at hs <;> cases hs <;> refine fuel_lt rfl (fun _ => rfl) ?_ <;>
      simp only [hpc, pcFuel, goto_pc] <;> omega
  | reset k =>
    simp only [jobStep, hpc] at hs
    split at hs <;> cases hs
    · refine fuel_lt (Job.size_setTaskStatus ..) (fun _ => rfl) ?_
      simp only [hpc, pcFuel, goto_pc]
      omega
    · refine fuel_lt rfl (fun _ => rfl) ?_
      simp only [hpc, pcFuel, goto_pc]
      omega
  | loopTest =>
    have hr := hrepeats (by simp [Unwinding, hpc])
    simp only [jobStep, hpc, hr, Bool.false_eq_true, if_false, Option.some.injEq] at hs
    subst hs
    refine fuel_lt rfl (fun _ => rfl) ?_
    simp only [hpc, pcFuel, goto_pc]
    omega
  | unwindCancel rest =>
    simp only [jobStep, hpc] at hs
    split at hs <;> cases hs <;> refine fuel_lt rfl (fun _ => rfl) ?_
    · simp only [hpc, pcFuel, goto_pc]
      omega
    · simp only [hpc, pcFuel, goto_pc]
      omega
  | unwindJoin rest =>
    simp only [jobStep, hpc] at hs
    cases rest with
    | nil => cases hs
    | cons k rest =>
      simp only at hs
      split at hs <;> cases hs
      refine fuel_lt rfl (fun _ => joinTask_phase ..) ?_
      simp only [hpc, pcFuel, goto_pc, List.length_cons]
      omega
  | popCancel k =>
    simp only [jobStep, hpc, Option.some.injEq] at hs
    subst hs
    refine fuel_lt rfl (fun _ => rfl) ?_
    simp only [hpc, pcFuel, goto_pc, goto_taskRunners]
    omega
  | exited => simp only [jobStep, hpc, reduceCtorEq] at hs

theorem fuel_cancelStep (hs : e.cancelStep = some e') : e'.fuel < e.fuel := by
  simp only [cancelStep] at hs
  split at hs
  · cases hpc : e.thread.pc <;> simp only [hpc, reduceCtorEq] at hs
    case run k =>
      split at hs <;> cases hs <;> refine fuel_lt rfl (fun _ => rfl) ?_ <;>
        simp only [hpc, pcFuel, goto_pc] <;> omega
    case waitAll i =>
      split at hs <;> cases hs
      refine fuel_lt rfl (fun _ => rfl) ?_
      simp only [hpc, pcFuel, goto_pc]
      omega
    case wait k =>
      cases hs
      refine fuel_lt rfl (fun _ => rfl) ?_
      simp only [hpc, pcFuel, goto_pc, List.length_singleton]
      omega
    case popJoin k | popAllJoin i =>
      cases hs
      refine fuel_lt rfl (fun _ => rfl) ?_
      simp only [hpc, pcFuel, goto_pc]
      omega
  · cases hs

theorem fuel_taskStep {a : TaskAct} (hi : ThreadInv e) (hs : e.taskStep k a = some e') :
    e'.fuel < e.fuel := by
  have hlt := (hi.inRange k (hi.busyOwned k (taskStep_eq hs).1)).1
  have hleft : ∀ t : TaskThread, phaseLeft t.phase < phaseLeft (e.thread.tasks k).phase →
      tasksLeft (Function.update e.thread.tasks k t) e.job.size
        < tasksLeft e.thread.tasks e.job.size := by
    intro t ht
    have := tasksLeft_update (f := e.thread.tasks) (t := t) hlt
    omega
  simp only [taskStep] at hs
  split at hs
  · rename_i hph
    cases hs
    have := hleft { e.thread.tasks k with phase := .running } (by simp [hph, phaseLeft])
    simpa [fuel] using this
  · rename_i ws hph
    split at hs
    · cases hs
    · cases hs
      have := hleft { e.thread.tasks k with phase := .exited } (by simp [hph, phaseLeft])
      simpa [fuel] using this
  · cases hs

/-- Every step of a thread that is ending uses fuel. -/
theorem fuel_step (hi : ThreadInv e) (hend : Ending e) (hs : e.step l = some e') :
    e'.fuel < e.fuel := by
  cases l with
  | job ok => exact fuel_jobStep hi hend hs
  | cancelled => exact fuel_cancelStep hs
  | task k a => exact fuel_taskStep hi hs

/-- No step makes the loop repeat that does not. -/
theorem step_repeats (hr : e.thread.repeats = false) (hs : e.step l = some e') :
    e'.thread.repeats = false := by
  cases l with
  | job ok =>
    simp only [step, jobStep] at hs
    split at hs <;> (repeat' split at hs) <;> cases hs <;> first | exact hr | rfl
  | cancelled =>
    obtain ⟨pc, rfl, _⟩ := cancelStep_eq hs
    exact hr
  | task k a =>
    obtain ⟨_, st, phase, _, rfl⟩ := taskStep_eq hs
    exact hr

theorem step_unwinding (hu : e.Unwinding) (hs : e.step l = some e') : e'.Unwinding := by
  cases l with
  | job ok =>
    cases hpc : e.thread.pc <;> simp only [Unwinding, hpc] at hu
    all_goals simp only [step, jobStep, hpc] at hs
    all_goals repeat' split at hs
    all_goals cases hs
    all_goals trivial
  | cancelled =>
    cases hpc : e.thread.pc <;> simp only [Unwinding, hpc] at hu
    all_goals simp [step, cancelStep, hpc] at hs
  | task k a =>
    obtain ⟨_, st, phase, _, rfl⟩ := taskStep_eq hs
    exact hu

theorem Ending.step (hend : Ending e) (hs : e.step l = some e') : Ending e' :=
  hend.imp (step_repeats · hs) (step_unwinding · hs)

/-! ## Progress -/

/-- What a thread at the pops and in the handlers has at hand. -/
def Placed (e : JobExec) : Prop :=
  match e.thread.pc with
  | .popCancel k | .popJoin k => e.taskExited k = true
  | .popAllJoin i => i < e.taskRunners.length
  | .unwindJoin rest => rest ≠ []
  | _ => True

theorem Placed.fresh {opts : JobOpts} (h : e.thread = .start opts) : Placed e := by
  simp only [Placed, h, JobThread.start]

theorem Placed.congr (hp : Placed e) (hpc : e'.thread.pc = e.thread.pc)
    (htasks : ∀ k, e.taskExited k = true → e'.taskExited k = true)
    (hrunners : e'.taskRunners.length = e.taskRunners.length) : Placed e' := by
  unfold Placed at hp ⊢
  rw [hpc, hrunners]
  cases hpc' : e.thread.pc <;> rw [hpc'] at hp
  case popCancel k | popJoin k => exact htasks k hp
  all_goals exact hp

theorem Placed.step (hp : Placed e) (hs : e.step l = some e') : Placed e' := by
  cases l with
  | job ok =>
    simp only [JobExec.step] at hs
    cases hpc : e.thread.pc <;> simp only [jobStep, hpc] at hs
    case wait k =>
      split at hs <;> cases hs
      rename_i hx
      simpa only [Placed, goto_pc, taskExited, goto_tasks, joinTask_phase] using hx
    case popCancel k =>
      cases hs
      simp only [Placed, hpc] at hp
      exact hp
    case popAllCancel i =>
      cases hr : e.taskRunners[i]? with
      | none =>
        rw [hr] at hs
        cases hs
        trivial
      | some k =>
        rw [hr] at hs
        cases hs
        exact (List.getElem?_eq_some_iff.mp hr).1
    case unwindCancel rest =>
      split at hs <;> cases hs
      · trivial
      · exact List.cons_ne_nil _ _
    case head k =>
      repeat' split at hs
      all_goals cases hs
      all_goals cases hm : e.job.opts.execMode <;> simp [Placed, abort, afterLoop, hm]
    case run k =>
      split at hs <;> cases hs
      · trivial
      · cases hm : e.job.opts.execMode <;> simp [Placed, abort, afterLoop, hm]
    case poll k seen =>
      split at hs <;> cases hs
      · trivial
      · cases hm : e.thread.repeats <;> simp [Placed]
    case loopTest =>
      cases hs
      cases hm : e.thread.repeats <;> simp [Placed]
    all_goals repeat' split at hs
    all_goals cases hs
    all_goals trivial
  | cancelled =>
    simp only [JobExec.step, cancelStep] at hs
    split at hs
    · cases hpc : e.thread.pc <;> simp only [hpc, reduceCtorEq] at hs
      all_goals repeat' split at hs
      all_goals cases hs
      all_goals trivial
    · cases hs
  | task k a =>
    obtain ⟨hbusy, st, phase, _, rfl⟩ := taskStep_eq hs
    refine hp.congr rfl (fun j hj => ?_) rfl
    have hjk : j ≠ k := by
      rintro rfl
      rw [taskExited_iff] at hj
      simp [busy, hj] at hbusy
    simpa [taskExited, hjk] using hj

/-- A task thread that has been created and has not exited has a step. -/
theorem taskStep_possible (hlt : k < e.job.size) (hne : (e.thread.tasks k).phase ≠ .none)
    (hx : e.taskExited k ≠ true) : ∃ l e', e.step l = some e' := by
  obtain ⟨st, hst⟩ := Option.isSome_iff_exists.mp (Job.taskStatus_isSome.mpr hlt)
  cases hph : (e.thread.tasks k).phase with
  | none => exact absurd hph hne
  | created => exact ⟨.task k .spawned, _, by simp only [JobExec.step, taskStep, hph]; rfl⟩
  | running =>
    exact ⟨.task k (.finished 0), _, by simp only [JobExec.step, taskStep, hph, hst]; rfl⟩
  | exited => exact absurd (taskExited_iff.mpr hph) hx

/-- No deadlock: a thread that has not exited has a step, or the task that
it waits for has. -/
theorem progress (hi : ThreadInv e) (hp : Placed e) (hx : e.thread.pc ≠ .exited) :
    ∃ l e', e.step l = some e' := by
  have hgo : (e.jobStep true).isSome = true → ∃ l e', e.step l = some e' := fun h =>
    ⟨.job true, Option.isSome_iff_exists.mp h⟩
  -- the join of a runner that is still owned
  have hjoin : ∀ k ∈ e.owned, (e.taskExited k = true → (e.jobStep true).isSome = true) →
      ∃ l e', e.step l = some e' := by
    intro k hk h
    by_cases hexited : e.taskExited k = true
    · exact hgo (h hexited)
    · obtain ⟨hlt, hne⟩ := hi.inRange k hk
      exact taskStep_possible hlt hne hexited
  cases hpc : e.thread.pc with
  | wait k => exact hjoin k (by simp [owned, hpc]) fun h => by simp [jobStep, hpc, h]
  | waitAll i =>
    cases hr : e.taskRunners[i]? with
    | none => exact hgo (by simp [jobStep, hpc, hr])
    | some k =>
      have howned : k ∈ e.owned := by
        simp only [owned, hpc]
        exact List.mem_of_getElem? (i := 0) (by rw [List.getElem?_drop, Nat.add_zero, hr])
      exact hjoin k howned fun h => by simp [jobStep, hpc, hr, h]
  | popJoin k =>
    have hexited : e.taskExited k = true := by simpa only [Placed, hpc] using hp
    exact hgo (by simp [jobStep, hpc, hexited])
  | popAllJoin i =>
    have hlt : i < e.taskRunners.length := by simpa only [Placed, hpc] using hp
    have hr := List.getElem?_eq_getElem hlt
    have hlisted := (hi.listed (by simp [hpc]) _ (List.getElem_mem hlt)).2
    have hexited : e.taskExited e.taskRunners[i] = true := by
      have hfree : ¬ e.busy e.taskRunners[i] := fun h => by
        simpa [owned, hpc] using hi.busyOwned _ h
      rw [taskExited_iff]
      simp only [busy, not_or] at hfree
      cases hph : (e.thread.tasks e.taskRunners[i]).phase <;> simp_all
    exact hgo (by simp [jobStep, hpc, hr, hexited])
  | unwindJoin rest =>
    cases rest with
    | nil => simp [Placed, hpc] at hp
    | cons k rest => exact hjoin k (by simp [owned, hpc]) fun h => by simp [jobStep, hpc, h]
  | exited => exact absurd hpc hx
  | _ =>
    refine hgo ?_
    simp only [jobStep, hpc]
    repeat' split
    all_goals rfl

/-! ## Mode ONCE -/

/-- A thread that has exited has left nothing behind that could move. -/
theorem step_of_exited (hi : ThreadInv e) (hx : e.thread.pc = .exited) (l : Label) :
    e.step l = none := by
  by_contra hne
  obtain ⟨e', hs⟩ := Option.ne_none_iff_exists'.mp hne
  refine not_exited_of_step (fun k hk => ?_) hs hx
  simpa [owned, hx] using hi.busyOwned k hk

end Fuel

/-- What happens to a thread: a step of it or of one of its task threads,
or a `pthread_cancel` on it by a thread of its runner. -/
inductive Event where
  | step (l : Label)
  | cancel
  deriving DecidableEq, Repr

namespace Event

def isStep : Event → Bool
  | .step _ => true
  | .cancel => false

end Event

/-- A step, or a cancellation request. -/
def event (e : JobExec) : Event → Option JobExec
  | .step l => e.step l
  | .cancel => some (JobRunner.cancel e)

/-- A request alone changes nothing that the rest of the run depends
on. -/
theorem cancel_invariants {e : JobExec} (hi : ThreadInv e) (hp : Placed e) (hend : Ending e) :
    ThreadInv (JobRunner.cancel e) ∧ Placed (JobRunner.cancel e) ∧
      Ending (JobRunner.cancel e) ∧ (JobRunner.cancel e).fuel = e.fuel :=
  ⟨hi.congr rfl rfl rfl rfl rfl, hp.congr rfl (fun _ h => h) rfl, hend, rfl⟩

/-- A thread of mode ONCE, from its creation (by `job_run` or by
`job_runner_restart`, over a job in any state): whatever its tasks do,
and whenever it is asked to cancel, it takes at most `11 * n + 7` steps
with its task threads, and it stops only by exiting. -/
theorem run_once_ends {opts : JobOpts} {e₀ e : JobExec} {h : History JobExec Event}
    (hstart : e₀.thread = .start opts) (honce : opts.runMode = .runOnce)
    (hr : Run event always e₀ h e) :
    h.countP (fun x => x.2.isStep) ≤ 11 * e₀.job.size + 7 ∧
      ((∀ l, e.step l = none) ↔ e.thread.pc = .exited) := by
  have hrepeats : e₀.thread.repeats = false := by
    rw [hstart, JobThread.start, honce]
    rfl
  have hfuel : e₀.fuel = 11 * e₀.job.size + 7 := by
    have htasks : tasksLeft e₀.thread.tasks e₀.job.size = 0 :=
      tasksLeft_eq_zero (fun k => by simp [hstart, JobThread.start]) _
    rw [fuel, htasks, hstart]
    rfl
  -- the steps taken and the fuel that is left are at most the fuel at the start
  have hinv : (ThreadInv e ∧ Placed e ∧ Ending e) ∧
      h.countP (fun x => x.2.isStep) + e.fuel ≤ e₀.fuel := by
    refine Run.invariant
      (I := fun h e => (ThreadInv e ∧ Placed e ∧ Ending e) ∧
        h.countP (fun x => x.2.isStep) + e.fuel ≤ e₀.fuel)
      ⟨⟨.fresh hstart, .fresh hstart, .inl hrepeats⟩, by simp⟩ ?_ hr
    rintro h e l e' ⟨⟨hi, hp, hend⟩, hle⟩ - hs
    cases l with
    | step l =>
      have hlt := fuel_step hi hend hs
      have hcount : List.countP (fun x => x.2.isStep) ((e, Event.step l) :: h)
          = h.countP (fun x => x.2.isStep) + 1 := List.countP_cons_of_pos rfl
      refine ⟨⟨hi.step hs, hp.step hs, hend.step hs⟩, ?_⟩
      rw [hcount]
      omega
    | cancel =>
      cases hs
      obtain ⟨hi', hp', hend', hsame⟩ := cancel_invariants hi hp hend
      have hcount : List.countP (fun x => x.2.isStep) ((e, Event.cancel) :: h)
          = h.countP (fun x => x.2.isStep) := List.countP_cons_of_neg (by simp [Event.isStep])
      refine ⟨⟨hi', hp', hend'⟩, ?_⟩
      rw [hcount, hsame]
      exact hle
  obtain ⟨⟨hthread, hplaced, _⟩, hlength⟩ := hinv
  refine ⟨by omega, fun hnone => ?_, fun hx l => step_of_exited hthread hx l⟩
  by_contra hx
  obtain ⟨l, e', hs⟩ := progress hthread hplaced hx
  rw [hnone l] at hs
  cases hs

/-- The thread waits for its task when it is asked to cancel: it unwinds,
joins the task thread, which goes on to its end, and exits. -/
def cancelledInWait : List Event :=
  List.replicate 4 (.step (.job true)) ++ [.step (.task 0 .spawned), .cancel, .step .cancelled,
    .step (.job true), .step (.task 0 (.finished 2))] ++ List.replicate 2 (.step (.job true))

theorem run_once_ends_oneTask : ∃ h e, Run event always (start oneTask) h e ∧
    e.thread.pc = .exited ∧ e.thread.cancelReq = true ∧
      h.countP (fun x => x.2.isStep) ≤ 11 * 1 + 7 ∧
      ((∀ l, e.step l = none) ↔ e.thread.pc = .exited) := by
  obtain ⟨h, e, hr, hc⟩ := Run.of_check event always (start oneTask) cancelledInWait
    (fun e => e.thread.pc == .exited && e.thread.cancelReq) (by decide)
  simp only [Bool.and_eq_true, beq_iff_eq] at hc
  exact ⟨h, e, hr, hc.1, hc.2, run_once_ends rfl rfl hr⟩

/-! ## A thread that is cancelled -/

/-- The thread can come to its end. -/
def Ends (e : JobExec) : Prop := ∃ h e', Run step always e h e' ∧ e'.thread.pc = .exited

/-- Cancellation has been requested, of a thread over a job that is not
empty. -/
structure Cancelled (e : JobExec) : Prop where
  thread : ThreadInv e
  placed : Placed e
  cancelReq : e.thread.cancelReq = true
  size : e.job.size ≠ 0

section Cancelled

variable {e e' : JobExec} {k : Nat} {l : Label}

theorem Cancelled.step (hc : Cancelled e) (hs : e.step l = some e') : Cancelled e' :=
  ⟨hc.thread.step hs, hc.placed.step hs, (step_cancelReq hs).trans hc.cancelReq,
    (step_job_frame hs).1 ▸ hc.size⟩

theorem ends_of_ending (hi : ThreadInv e) (hp : Placed e) (hend : Ending e) : Ends e := by
  have hstart : Run JobExec.step always e [] e := .nil
  obtain ⟨h, e', hr, _, hx⟩ := Run.reaches (I := fun _ e => ThreadInv e ∧ Placed e ∧ Ending e)
    (G := fun e => e.thread.pc = .exited) fuel (fun h e ⟨hi, hp, hend⟩ hx => by
      obtain ⟨l, e', hs⟩ := progress hi hp hx
      exact ⟨l, e', trivial, hs, ⟨hi.step hs, hp.step hs, hend.step hs⟩, fuel_step hi hend hs⟩)
    hstart ⟨hi, hp, hend⟩
  exact ⟨h, e', hr, hx⟩

/-- One step on the way. -/
theorem Cancelled.next (hc : Cancelled e) (l : Label) (e' : JobExec) (hs : e.step l = some e')
    (h : Cancelled e' → Ends e') : Ends e := by
  obtain ⟨h, e'', hr, hx⟩ := h (hc.step hs)
  exact ⟨_, e'', Run.append (.snoc .nil trivial hs) hr, hx⟩

/-- A cancellation point. -/
theorem Cancelled.point (hc : Cancelled e) (e' : JobExec) (hs : e.cancelStep = some e')
    (hu : e'.Unwinding) : Ends e :=
  hc.next .cancelled e' hs fun hc' => ends_of_ending hc'.thread hc'.placed (.inr hu)

/-- A loop that does not repeat. -/
theorem Cancelled.abort (hc : Cancelled e) (hr : e.thread.repeats = false) : Ends e :=
  ends_of_ending hc.thread hc.placed (.inl hr)

theorem ends_wait (hc : Cancelled e) (hpc : e.thread.pc = .wait k) : Ends e :=
  hc.point (e.goto (.unwindCancel [k])) (by simp [cancelStep, hc.cancelReq, hpc]) trivial

theorem ends_popJoin (hc : Cancelled e) (hpc : e.thread.pc = .popJoin k) : Ends e :=
  hc.point (e.goto .exited) (by simp [cancelStep, hc.cancelReq, hpc]) trivial

theorem ends_popAllJoin (hc : Cancelled e) (hpc : e.thread.pc = .popAllJoin k) : Ends e :=
  hc.point (e.goto .exited) (by simp [cancelStep, hc.cancelReq, hpc]) trivial

theorem ends_waitAll (hc : Cancelled e) (hpc : e.thread.pc = .waitAll k)
    (hk : k < e.taskRunners.length) : Ends e :=
  hc.point (e.goto (.unwindCancel e.taskRunners))
    (by simp [cancelStep, hc.cancelReq, hpc, hk]) trivial

/-- In the loop over the nodes of a parallel job, after a task was
started. -/
theorem ends_started (hc : Cancelled e) (hpc : e.thread.pc = .head k)
    (hmode : e.job.opts.execMode = .parallel) (hne : e.taskRunners ≠ []) : Ends e := by
  induction hn : e.job.size - k using Nat.strongRecOn generalizing e k with
  | _ n ih =>
    cases hst : e.job.taskStatus k with
    | none =>
      have hs : e.step (.job true) = some (e.goto (.waitAll 0)) := by
        simp [JobExec.step, jobStep, hpc, hst, hmode, afterLoop]
      exact hc.next (.job true) _ hs fun hc' => ends_waitAll hc' rfl (List.length_pos_of_ne_nil hne)
    | some st =>
      have hk := Job.lt_size_of_taskStatus hst
      have hrun : ∀ e', Cancelled e' → e'.thread.pc = .run k → e'.job = e.job →
          e'.taskRunners = e.taskRunners → Ends e' := by
        intro e₁ hc₁ hpc₁ hjob₁ hrunners₁
        refine hc₁.next (.job true) ((e₁.setTask k ⟨.created, 0⟩).goto (.setRunning k))
          (by simp [JobExec.step, jobStep, hpc₁]) fun hc₂ => ?_
        refine hc₂.next (.job true) _ (by
          simp only [JobExec.step, jobStep, goto_pc, goto_job, setTask_job, hjob₁, hmode]; rfl)
          fun hc₃ => ?_
        refine ih _ ?_ (k := k + 1) hc₃ rfl ?_ ?_ rfl
        · simp
          omega
        · simpa [hjob₁] using hmode
        · simp
      have hhead : ∀ pc, e.step (.job true) = some (e.goto pc) → pc = .run k ∨ pc = .head (k + 1) →
          Ends e := by
        rintro pc hs (rfl | rfl)
        · exact hc.next (.job true) _ hs fun hc' => hrun _ hc' rfl rfl rfl
        · exact hc.next (.job true) _ hs fun hc' => ih _ (by simp; omega) hc' rfl hmode hne rfl
      cases st with
      | ready | incomplete =>
        exact hhead (.run k) (by simp [JobExec.step, jobStep, hpc, hst]) (.inl rfl)
      | notReady | running =>
        refine hc.next (.job true) (e.abort) ?_ fun hc' => hc'.abort rfl
        simp [JobExec.step, jobStep, hpc, hst]
      | completed =>
        exact hhead (.head (k + 1)) (by simp [JobExec.step, jobStep, hpc, hst]) (.inr rfl)

theorem ends_setRunning (hc : Cancelled e) (hpc : e.thread.pc = .setRunning k) : Ends e := by
  cases hmode : e.job.opts.execMode with
  | sequential =>
    refine hc.next (.job true) _ (by simp only [JobExec.step, jobStep, hpc, hmode]; rfl)
      fun hc' => ?_
    exact ends_wait hc' rfl
  | parallel =>
    refine hc.next (.job true) _ (by simp only [JobExec.step, jobStep, hpc, hmode]; rfl)
      fun hc' => ?_
    exact ends_started hc' rfl (by simpa using hmode) (by simp)

theorem ends_run (hc : Cancelled e) (hpc : e.thread.pc = .run k) : Ends e := by
  refine hc.next (.job true) ((e.setTask k ⟨.created, 0⟩).goto (.setRunning k)) ?_
    fun hc' => ends_setRunning hc' rfl
  simp [JobExec.step, jobStep, hpc]

/-- In the loop over the nodes, with one to come that is not completed. -/
theorem ends_head_open {j : Nat} {st : TaskStatus} (hc : Cancelled e)
    (hpc : e.thread.pc = .head k) (hj : k ≤ j) (hst : e.job.taskStatus j = some st)
    (hopen : st ≠ .completed) : Ends e := by
  induction hn : j - k generalizing e k with
  | zero =>
    obtain rfl : j = k := by omega
    cases st with
    | ready | incomplete =>
      refine hc.next (.job true) (e.goto (.run j)) ?_ fun hc' => ends_run hc' rfl
      simp [JobExec.step, jobStep, hpc, hst]
    | notReady | running =>
      refine hc.next (.job true) (e.abort) ?_ fun hc' => hc'.abort rfl
      simp [JobExec.step, jobStep, hpc, hst]
    | completed => exact absurd rfl hopen
  | succ n ih =>
    have hkj : k < e.job.size := Nat.lt_of_le_of_lt hj (Job.lt_size_of_taskStatus hst)
    obtain ⟨st', hst'⟩ := Option.isSome_iff_exists.mp (Job.taskStatus_isSome.mpr hkj)
    cases st' with
    | ready | incomplete =>
      refine hc.next (.job true) (e.goto (.run k)) ?_ fun hc' => ends_run hc' rfl
      simp [JobExec.step, jobStep, hpc, hst']
    | notReady | running =>
      refine hc.next (.job true) (e.abort) ?_ fun hc' => hc'.abort rfl
      simp [JobExec.step, jobStep, hpc, hst']
    | completed =>
      refine hc.next (.job true) (e.goto (.head (k + 1))) ?_ fun hc' =>
        ih hc' rfl (by omega) hst (by omega)
      simp [JobExec.step, jobStep, hpc, hst']

/-- A new pass, with a task that is not completed. -/
theorem ends_loopTest_open {j : Nat} {st : TaskStatus} (hc : Cancelled e)
    (hpc : e.thread.pc = .loopTest) (hst : e.job.taskStatus j = some st)
    (hopen : st ≠ .completed) : Ends e := by
  cases hr : e.thread.repeats with
  | false => exact hc.abort hr
  | true =>
    refine hc.next (.job true) (e.goto .begin) (by simp [JobExec.step, jobStep, hpc, hr])
      fun hc₁ => ?_
    refine hc₁.next (.job true) _ rfl fun hc₂ => ?_
    exact ends_head_open hc₂ rfl (Nat.zero_le j) hst hopen

/-- In `reset_status`, which leaves every task READY. -/
theorem ends_reset (hc : Cancelled e) (hpc : e.thread.pc = .reset k)
    (hready : ∀ j < k, e.job.taskStatus j = some .ready) : Ends e := by
  induction hn : e.job.size - k generalizing e k with
  | zero =>
    refine hc.next (.job true) (e.goto .loopTest) ?_ fun hc' => ?_
    · have hk : ¬ k < e.job.size := by omega
      simp [JobExec.step, jobStep, hpc, hk]
    · have hpos := Nat.pos_of_ne_zero hc.size
      have hk : 0 < k := by omega
      exact ends_loopTest_open hc' rfl (hready 0 hk) (by simp)
  | succ n ih =>
    have hk : k < e.job.size := by omega
    refine hc.next (.job true)
      ({ e with job := e.job.setTaskStatus k .ready }.goto (.reset (k + 1))) ?_ fun hc' => ?_
    · simp [JobExec.step, jobStep, hpc, hk]
    · refine ih hc' rfl (fun j hj => ?_) (by simp; omega)
      rw [goto_job, Job.taskStatus_setTaskStatus]
      by_cases hjk : k = j
      · subst hjk
        obtain ⟨st, hst⟩ := Option.isSome_iff_exists.mp (Job.taskStatus_isSome.mpr hk)
        simp [hst]
      · simpa [hjk] using hready j (by omega)

/-- At the end of a pass. -/
theorem ends_poll {seen : List TaskStatus} (hc : Cancelled e) (hpc : e.thread.pc = .poll k seen) :
    Ends e := by
  induction hn : e.job.size - k generalizing e k seen with
  | zero =>
    have hst : e.job.taskStatus k = none := Job.taskStatus_none.mpr (by omega)
    cases hr : e.thread.repeats with
    | false => exact hc.abort hr
    | true =>
      refine hc.next (.job true) _ (by simp only [JobExec.step, jobStep, hpc, hst, hr]; rfl)
        fun hc' => ?_
      exact ends_reset hc' rfl fun j hj => absurd hj (Nat.not_lt_zero j)
  | succ n ih =>
    have hk : k < e.job.size := by omega
    obtain ⟨st, hst⟩ := Option.isSome_iff_exists.mp (Job.taskStatus_isSome.mpr hk)
    refine hc.next (.job true) (e.goto (.poll (k + 1) (seen ++ [st]))) ?_ fun hc' => ?_
    · simp [JobExec.step, jobStep, hpc, hst]
    · exact ih hc' rfl (by simp; omega)

theorem ends_count (hc : Cancelled e) (hpc : e.thread.pc = .count)
    (hcompletion : e.thread.completion = true) : Ends e := by
  refine hc.next (.job true) _ (by simp only [JobExec.step, jobStep, hpc, hcompletion]; rfl)
    fun hc' => ?_
  exact ends_poll hc' rfl

/-- Past the loop over the nodes of a pass that is complete, where
nothing was started. -/
theorem ends_afterLoop (hc : Cancelled e) (hpc : e.thread.pc = afterLoop e.job.opts.execMode)
    (hcompletion : e.thread.completion = true) (hnil : e.taskRunners = []) : Ends e := by
  cases hmode : e.job.opts.execMode with
  | sequential =>
    rw [hmode] at hpc
    exact ends_count hc hpc hcompletion
  | parallel =>
    rw [hmode] at hpc
    refine hc.next (.job true) (e.goto (.popAllCancel 0)) ?_ fun hc₁ => ?_
    · simp [JobExec.step, jobStep, hpc, afterLoop, hnil]
    refine hc₁.next (.job true) (e.goto .count) ?_ fun hc₂ => ?_
    · simp only [JobExec.step, jobStep, goto_pc, goto_taskRunners, hnil, List.getElem?_nil]
      rfl
    exact ends_count hc₂ rfl hcompletion

/-- In the loop over the nodes, where nothing was started. -/
theorem ends_head_fresh (hc : Cancelled e) (hpc : e.thread.pc = .head k)
    (hcompletion : e.thread.completion = true) (hnil : e.taskRunners = []) : Ends e := by
  induction hn : e.job.size - k generalizing e k with
  | zero =>
    have hst : e.job.taskStatus k = none := Job.taskStatus_none.mpr (by omega)
    refine hc.next (.job true) (e.goto (afterLoop e.job.opts.execMode)) ?_ fun hc' => ?_
    · simp [JobExec.step, jobStep, hpc, hst]
    · exact ends_afterLoop hc' rfl hcompletion hnil
  | succ n ih =>
    have hk : k < e.job.size := by omega
    obtain ⟨st, hst⟩ := Option.isSome_iff_exists.mp (Job.taskStatus_isSome.mpr hk)
    by_cases hopen : st = .completed
    · refine hc.next (.job true) (e.goto (.head (k + 1))) ?_ fun hc' => ?_
      · simp [JobExec.step, jobStep, hpc, hst, hopen]
      · exact ih hc' rfl hcompletion hnil (by simp; omega)
    · exact ends_head_open hc hpc (Nat.le_refl k) hst hopen

theorem ends_begin (hc : Cancelled e) (hpc : e.thread.pc = .begin) : Ends e := by
  refine hc.next (.job true) _ (by simp only [JobExec.step, jobStep, hpc]; rfl) fun hc' => ?_
  exact ends_head_fresh hc' rfl rfl rfl

theorem ends_loopTest (hc : Cancelled e) (hpc : e.thread.pc = .loopTest) : Ends e := by
  cases hr : e.thread.repeats with
  | false => exact hc.abort hr
  | true =>
    refine hc.next (.job true) (e.goto .begin) ?_ fun hc' => ends_begin hc' rfl
    simp [JobExec.step, jobStep, hpc, hr]

/-- The rest of `reset_status`, whatever it has reset before. -/
theorem ends_reset_rest (hc : Cancelled e) (hpc : e.thread.pc = .reset k) : Ends e := by
  induction hn : e.job.size - k generalizing e k with
  | zero =>
    refine hc.next (.job true) (e.goto .loopTest) ?_ fun hc' => ends_loopTest hc' rfl
    have hk : ¬ k < e.job.size := by omega
    simp [JobExec.step, jobStep, hpc, hk]
  | succ n ih =>
    have hk : k < e.job.size := by omega
    refine hc.next (.job true)
      ({ e with job := e.job.setTaskStatus k .ready }.goto (.reset (k + 1))) ?_ fun hc' => ?_
    · simp [JobExec.step, jobStep, hpc, hk]
    · exact ih hc' rfl (by simp; omega)

theorem ends_count_any (hc : Cancelled e) (hpc : e.thread.pc = .count) : Ends e := by
  cases hcompletion : e.thread.completion with
  | true => exact ends_count hc hpc hcompletion
  | false =>
    refine hc.next (.job true) (e.goto .loopTest) ?_ fun hc' => ends_loopTest hc' rfl
    simp [JobExec.step, jobStep, hpc, hcompletion]

theorem ends_popAllCancel (hc : Cancelled e) (hpc : e.thread.pc = .popAllCancel k) : Ends e := by
  cases hr : e.taskRunners[k]? with
  | none =>
    refine hc.next (.job true) (e.goto .count) ?_ fun hc' => ends_count_any hc' rfl
    simp [JobExec.step, jobStep, hpc, hr]
  | some j =>
    refine hc.next (.job true) (e.goto (.popAllJoin k)) ?_ fun hc' =>
      ends_popAllJoin hc' rfl
    simp [JobExec.step, jobStep, hpc, hr]

theorem ends_waitAll_any (hc : Cancelled e) (hpc : e.thread.pc = .waitAll k) : Ends e := by
  by_cases hk : k < e.taskRunners.length
  · exact ends_waitAll hc hpc hk
  · refine hc.next (.job true) (e.goto (.popAllCancel 0)) ?_ fun hc' =>
      ends_popAllCancel hc' rfl
    simp [JobExec.step, jobStep, hpc, List.getElem?_eq_none (Nat.le_of_not_lt hk)]

theorem ends_afterLoop_any {mode : ExecMode} (hc : Cancelled e)
    (hpc : e.thread.pc = afterLoop mode) : Ends e := by
  cases mode with
  | sequential => exact ends_count_any hc hpc
  | parallel => exact ends_waitAll_any hc hpc

theorem ends_head (hc : Cancelled e) (hpc : e.thread.pc = .head k) : Ends e := by
  induction hn : e.job.size - k generalizing e k with
  | zero =>
    have hst : e.job.taskStatus k = none := Job.taskStatus_none.mpr (by omega)
    refine hc.next (.job true) (e.goto (afterLoop e.job.opts.execMode)) ?_ fun hc' => ?_
    · simp [JobExec.step, jobStep, hpc, hst]
    · exact ends_afterLoop_any hc' rfl
  | succ n ih =>
    have hk : k < e.job.size := by omega
    obtain ⟨st, hst⟩ := Option.isSome_iff_exists.mp (Job.taskStatus_isSome.mpr hk)
    by_cases hopen : st = .completed
    · refine hc.next (.job true) (e.goto (.head (k + 1))) ?_ fun hc' => ?_
      · simp [JobExec.step, jobStep, hpc, hst, hopen]
      · exact ih hc' rfl (by simp; omega)
    · exact ends_head_open hc hpc (Nat.le_refl k) hst hopen

/-- A thread that was asked to end can end, wherever it is. -/
theorem ends_of_cancelReq (hc : Cancelled e) : Ends e := by
  have hunwinding : e.Unwinding → Ends e := fun hu => ends_of_ending hc.thread hc.placed (.inr hu)
  cases hpc : e.thread.pc with
  | «begin» => exact ends_begin hc hpc
  | head k => exact ends_head hc hpc
  | run k => exact ends_run hc hpc
  | setRunning k => exact ends_setRunning hc hpc
  | wait k => exact ends_wait hc hpc
  | popCancel k =>
    refine hc.next (.job true) (e.goto (.popJoin k)) ?_ fun hc' => ends_popJoin hc' rfl
    simp [JobExec.step, jobStep, hpc]
  | popJoin k => exact ends_popJoin hc hpc
  | waitAll i => exact ends_waitAll_any hc hpc
  | popAllCancel i => exact ends_popAllCancel hc hpc
  | popAllJoin i => exact ends_popAllJoin hc hpc
  | count => exact ends_count_any hc hpc
  | poll k seen => exact ends_poll hc hpc
  | reset k => exact ends_reset_rest hc hpc
  | loopTest => exact ends_loopTest hc hpc
  | unwindCancel rest | unwindJoin rest | exited => exact hunwinding (by simp [Unwinding, hpc])

end Cancelled

end Pyoneer.Blueprint.JobExec
