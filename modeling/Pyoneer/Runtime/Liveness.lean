/-
Pyoneer.Runtime.Liveness — when the status of the worker agrees with
what its job threads do.

`update_status` reads the statuses of the tasks one by one, so it can
tell that the job is being executed only if it reads a task while that
task executes (`JobExec.Window`). `SeesExecution` asks this of every
`update_status` that ends while a job thread is live. Then the status is
never other than WORKING with a live thread; a `worker_stop` returns
only when no thread is left, and no command takes a new job while one is
being executed.
-/
import Pyoneer.Runtime.WorkerTheorems

namespace Pyoneer.Runtime.Solo

open Pyoneer.Lib Pyoneer.Blueprint

/-- Node `k` of job `j` executes. -/
def Executing (c : Core) (j k : Nat) : Prop :=
  ∃ t, t < c.nthreads ∧ c.jobOf t = j ∧ (c.exec t).Window k

instance (c : Core) (j k : Nat) : Decidable (Executing c j k) :=
  inferInstanceAs (Decidable (∃ t, t < c.nthreads ∧ (_ ∧ _)))

/-- The step writes `job->status`: the job thread ends its own
`job_get_status`. -/
def endsPoll (e : JobExec) : JobExec.Label → Bool
  | .job _ =>
    match e.thread.pc with
    | .poll k _ => (e.job.taskStatus k).isNone
    | _ => false
  | _ => false

/-- The last `update_status` has read a task while it executed, and no
job thread has overwritten the `job->status` that it derived. -/
def sawExecuting : History Solo Label → Bool
  | [] => false
  | (s, .move _) :: h =>
    match s.pc with
    | .update _ _ => false
    | .scan _ _ j k _ => decide (Executing s.worker.core j k) || sawExecuting h
    | _ => sawExecuting h
  | (s, .thread t l) :: h =>
    match s.pc with
    | .mapStatus _ _ j =>
      !(s.worker.core.jobOf t == j && endsPoll (s.worker.core.exec t) l) && sawExecuting h
    | _ => sawExecuting h
  | _ :: h => sawExecuting h

/-- No live thread iterates job `j`. -/
def Unused (c : Core) (j : Nat) : Prop := ∀ t < c.nthreads, c.Live t → c.jobOf t ≠ j

instance (c : Core) (j : Nat) : Decidable (Unused c j) :=
  inferInstanceAs (Decidable (∀ t < c.nthreads, _ → _))

/-- An `update_status` that ends while a thread of the job is live has
read one of its tasks while it executed. -/
def seesExecution (h : History Solo Label) (s : Solo) : Label → Bool
  | .move _ =>
    match s.pc with
    | .mapStatus _ _ j => sawExecuting h || decide (Unused s.worker.core j)
    | _ => true
  | _ => true

@[inherit_doc seesExecution]
def SeesExecution (h : History Solo Label) (s : Solo) (l : Label) : Prop :=
  seesExecution h s l = true

instance (h : History Solo Label) (s : Solo) (l : Label) : Decidable (SeesExecution h s l) :=
  inferInstanceAs (Decidable (_ = true))

/-- The status agrees with the threads: after `update_status`, a status
other than WORKING means that no live thread iterates `worker->job`; a
`worker_stop` that has returned has left no thread; a command that has
taken a new job did not find the old one being executed. -/
structure Agrees (s : Solo) : Prop where
  yields : ∀ c, s.pc = .decide c ∨ s.pc = .encode c → s.worker.status ≠ .working →
    ∀ t, s.worker.core.Live t → s.worker.job ≠ some (s.worker.core.jobOf t)
  stopped : s.pc = .returned .stop none → ∀ t, ¬ s.worker.core.Live t
  accepted : ∀ j, s.pc = .engine (.run j) (.create j) ∨ s.pc = .destroyJob (.assign j) j →
    ∀ t, s.worker.core.Live t → s.worker.job ≠ some (s.worker.core.jobOf t)

/-! ## The invariant -/

/-- Where an `engine_stop` is. -/
def StopPc : EnginePc → Prop
  | .load .stop | .cancel _ .return | .join _ .return => True
  | _ => False

/-- What is known at each point, beyond `WorkerInv`. -/
def LivePlace (h : History Solo Label) (w : Worker) : CallPc → Prop
  | .update c y => y = .report → c ≠ .stop
  | .scan c y j k seen =>
    k ≤ (w.core.jobs j).size ∧ (sawExecuting h = true → TaskStatus.running ∈ seen) ∧
      (y = .report → c ≠ .stop)
  | .mapStatus c y j =>
    (sawExecuting h = true → (w.core.jobs j).status = .running) ∧ (y = .report → c ≠ .stop)
  | .decide _ => w.status ≠ .working → Quiet w.core
  | .encode c => (w.status ≠ .working → Quiet w.core) ∧ c ≠ .stop
  | .encodeScan c _ _ _ _ | .encodeStatus c _ _ | .encodeTasks c _ _ _ _ | .unlock c _ => c ≠ .stop
  | .engine c epc => (∀ j, epc = .create j → Quiet w.core) ∧ (c = .stop → StopPc epc)
  | .returned c _ => c = .stop → Quiet w.core
  | _ => True

structure LiveInv (h : History Solo Label) (s : Solo) : Prop where
  worker : WorkerInv s.worker s.pc
  newOnly : ∀ new, s.pc.newRunner = some new →
    ∀ t, s.worker.core.Live t → (s.worker.core.threads t).runner = new
  window : ∀ t, s.worker.core.Live t → JobExec.WindowInv (s.worker.core.exec t)
  place : LivePlace h s.worker s.pc

theorem LiveInv.create : LiveInv [] create := by
  refine ⟨WorkerInv.create, ?_, ?_, trivial⟩
  · simp [Solo.create, CallPc.newRunner]
  · simp [Solo.create, Worker.create, Core.create, Core.Live]

/-- All live threads are on `worker->job` when a status was derived. -/
theorem LiveInv.agrees {h : History Solo Label} {s : Solo} (hi : LiveInv h s) : Agrees s := by
  have hplace := hi.place
  refine ⟨?_, ?_, ?_⟩
  · rintro c (hpc | hpc) hst t ht
    · simp only [hpc, LivePlace] at hplace
      exact absurd ht (hplace hst t)
    · simp only [hpc, LivePlace] at hplace
      exact absurd ht (hplace.1 hst t)
  · intro hpc
    simp only [hpc, LivePlace] at hplace
    exact hplace trivial
  · rintro j (hpc | hpc) t ht
    · simp only [hpc, LivePlace] at hplace
      exact absurd ht (hplace.1 j rfl t)
    · have hw := hi.worker.place
      simp only [hpc, WorkerPlace] at hw
      rcases hw with ⟨h, _⟩ | ⟨_, hq⟩
      · cases h
      · exact absurd ht (hq t)

variable {h : History Solo Label} {s s' : Solo} {ok : Bool}

/-- At most one thread is live. -/
theorem LiveInv.single (hi : LiveInv h s) {t t' : Nat} (ht : s.worker.core.Live t)
    (ht' : s.worker.core.Live t') : t = t' := by
  have hrunner : (s.worker.core.threads t).runner = (s.worker.core.threads t').runner := by
    cases hn : s.pc.newRunner with
    | some new => rw [hi.newOnly new hn t ht, hi.newOnly new hn t' ht']
    | none =>
      have h1 := (hi.worker.runners t ht).resolve_right (by simp [hn])
      have h2 := (hi.worker.runners t' ht').resolve_right (by simp [hn])
      exact Option.some.inj (h1.symm.trans h2)
  rw [hi.worker.core.live_tid ht, hi.worker.core.live_tid ht', hrunner]

/-- A thread that executes a task is live. -/
theorem live_of_window {c : Core} (hc : CoreInv c) {t k : Nat} (ht : t < c.nthreads)
    (hw : (c.exec t).Window k) : c.Live t :=
  ⟨ht, fun hx => hc.gone t ht hx k hw.busy⟩

/-- A read of an executing task finds RUNNING. -/
theorem LiveInv.reads_running (hi : LiveInv h s) {j k : Nat}
    (he : Executing s.worker.core j k) :
    (s.worker.core.jobs j).taskStatus k = some .running := by
  obtain ⟨t, ht, rfl, hw⟩ := he
  exact hi.window t (live_of_window hi.worker.core ht hw) k hw

/-! ## Threads -/

theorem endsPoll_of_status {e e' : JobExec} {l : JobExec.Label} (hs : e.step l = some e')
    (hne : e'.job.status ≠ e.job.status) : endsPoll e l = true := by
  cases l with
  | job ok =>
    rcases JobExec.jobStep_job hs with ⟨_, hj⟩ | ⟨k, _, hj⟩ | ⟨k, _, hj⟩ | ⟨k, seen, hpc, hnone, _⟩
    · exact absurd (by rw [hj]) hne
    · exact absurd (by rw [hj, Job.status_setTaskStatus]) hne
    · exact absurd (by rw [hj, Job.status_setTaskStatus]) hne
    · simp [endsPoll, hpc, hnone]
  | cancelled =>
    obtain ⟨pc, rfl, _⟩ := JobExec.cancelStep_eq hs
    exact absurd rfl hne
  | task k a =>
    obtain ⟨_, st, phase, _, rfl⟩ := JobExec.taskStep_eq hs
    exact absurd rfl hne

theorem LiveInv.thread {t : Nat} {l : JobExec.Label} (hi : LiveInv h s)
    (hs : s.step (.thread t l) = some s') : LiveInv ((s, .thread t l) :: h) s' := by
  simp only [step] at hs
  split at hs
  · rename_i core hstep
    simp only [Option.some.injEq] at hs
    subst hs
    have hstill := Core.Still.threadStep hi.worker.core hstep
    have hworker := hi.worker.threadStep hstep
    obtain ⟨ht, e', he, rfl⟩ := Core.threadStep_eq hstep
    have hlive := hi.worker.core.live_of_step ht he
    have hsize : ∀ j, ((s.worker.core.putExec t e').jobs j).size = (s.worker.core.jobs j).size := by
      intro j
      by_cases hj : j = s.worker.core.jobOf t
      · subst hj
        rw [Core.putExec_jobs_self]
        exact (JobExec.step_job_frame he).1
      · rw [Core.putExec_jobs_ne _ _ _ hj]
    refine ⟨hworker, ?_, ?_, ?_⟩
    · intro new hnew t' ht'
      rw [Core.putExec_runner]
      exact hi.newOnly new hnew t' (hstill.live t' ht')
    · intro t' ht'
      obtain rfl := hi.single hlive (hstill.live t' ht')
      rw [Core.putExec_exec_self]
      exact (hi.window t hlive).step (hi.worker.core.live t hlive) he
    · have hplace := hi.place
      have hquiet : Quiet s.worker.core → Quiet (s.worker.core.putExec t e') := fun hq t' ht' =>
        hq t' (hstill.live t' ht')
      cases hpc : s.pc with
      | scan c y j k seen =>
        simp only [hpc, LivePlace, sawExecuting, hsize] at hplace ⊢
        exact hplace
      | mapStatus c y j =>
        simp only [hpc, LivePlace, sawExecuting] at hplace ⊢
        refine ⟨fun hsaw => ?_, hplace.2⟩
        simp only [Bool.and_eq_true, Bool.not_eq_true', Bool.and_eq_false_iff] at hsaw
        by_cases hj : j = s.worker.core.jobOf t
        · have hpoll : endsPoll (s.worker.core.exec t) l = false := by
            refine hsaw.1.resolve_left fun h => ?_
            simp [hj] at h
          subst hj
          rw [Core.putExec_jobs_self]
          by_contra hne
          have := endsPoll_of_status he fun heq => hne (heq.trans (hplace.1 hsaw.2))
          rw [hpoll] at this
          cases this
        · rw [Core.putExec_jobs_ne _ _ _ hj]
          exact hplace.1 hsaw.2
      | decide c =>
        simp only [hpc, LivePlace] at hplace ⊢
        exact fun hst => hquiet (hplace hst)
      | encode c =>
        simp only [hpc, LivePlace] at hplace ⊢
        exact ⟨fun hst => hquiet (hplace.1 hst), hplace.2⟩
      | update c y | encodeScan c st j k seen | encodeStatus c st j | encodeTasks c st j k report
      | unlock c report =>
        simp only [hpc, LivePlace] at hplace ⊢
        exact hplace
      | engine c epc =>
        simp only [hpc, LivePlace] at hplace ⊢
        exact ⟨fun j hj => hquiet (hplace.1 j hj), hplace.2⟩
      | returned c report =>
        simp only [hpc, LivePlace] at hplace ⊢
        exact fun hc => hquiet (hplace hc)
      | _ => trivial
  · cases hs

/-! ## Calls -/

variable {w' : Worker} {pc' : CallPc}

/-- A step of the call that creates no thread and touches no task. -/
theorem LiveInv.frame (hi : LiveInv h s) {l : Label} (hworker : WorkerInv w' pc')
    (hf : Core.Frame s.worker.core w'.core)
    (htasks : ∀ j < s.worker.core.njobs, ∀ k,
      (w'.core.jobs j).taskStatus k = (s.worker.core.jobs j).taskStatus k)
    (hnew : ∀ new, pc'.newRunner = some new → s.pc.newRunner = some new)
    (hplace : LivePlace ((s, l) :: h) w' pc') : LiveInv ((s, l) :: h) ⟨w', pc'⟩ := by
  refine ⟨hworker, ?_, ?_, hplace⟩
  · intro new hn t ht
    rw [hf.runner]
    exact hi.newOnly new (hnew new hn) t (hf.live_iff.mp ht)
  · intro t ht
    have hlive := hf.live_iff.mp ht
    refine (hi.window t hlive).congr (hf.pc t) (hf.tasks t) fun k => ?_
    simp only [Core.exec, hf.jobOf]
    exact htasks _ (hi.worker.core.job_lt _ (hi.worker.core.runner_lt t hlive.1)) k

/-- A step that only moves the call. -/
theorem LiveInv.goto (hi : LiveInv h s) {l : Label} (hworker : WorkerInv w' pc')
    (hcore : w'.core = s.worker.core)
    (hnew : ∀ new, pc'.newRunner = some new → s.pc.newRunner = some new)
    (hplace : LivePlace ((s, l) :: h) w' pc') : LiveInv ((s, l) :: h) ⟨w', pc'⟩ := by
  refine hi.frame hworker ?_ (by simp [hcore]) hnew hplace
  rw [hcore]
  exact .refl _

theorem LiveInv.enter {r : Request} (hi : LiveInv h s) (hpc : s.pc = .enter r)
    (hs : s.worker.callStep (.enter r) ok = some (w', pc')) (hworker : WorkerInv w' pc') :
    LiveInv ((s, .move ok) :: h) ⟨w', pc'⟩ := by
  have hentry : ∀ w, LivePlace ((s, .move ok) :: h) w (r.place s.worker.core).2.entry := by
    intro w
    cases r <;> simp [Request.place, Cmd.entry, LivePlace]
  have hnew : (r.place s.worker.core).2.entry.newRunner = none := by
    cases r <;> rfl
  simp only [Worker.callStep] at hs
  split at hs
  · split at hs
    · simp only [Option.some.injEq, Prod.mk.injEq] at hs
      obtain ⟨rfl, rfl⟩ := hs
      exact hi.goto hworker rfl (by simp [CallPc.newRunner]) trivial
    · split at hs
      · cases hs
      · simp only [Option.some.injEq, Prod.mk.injEq] at hs
        obtain ⟨rfl, rfl⟩ := hs
        cases r with
        | run job | assign job =>
          refine hi.frame hworker (.newJob _ _) (fun j hj k => ?_) (by simp [hnew]) (hentry _)
          simp [Request.place, Core.newJob, Nat.ne_of_lt hj]
        | _ => exact hi.goto hworker rfl (by simp [hnew]) (hentry _)
  · simp only [Option.some.injEq, Prod.mk.injEq] at hs
    obtain ⟨rfl, rfl⟩ := hs
    exact hi.goto hworker rfl (by simp [hnew]) (hentry _)

/-- A status was derived, and it is WORKING unless no thread is live. -/
theorem LiveInv.updated {c : Cmd} {y : Why} {status : WorkerStatus} (hi : LiveInv h s)
    (hworker : WorkerInv { s.worker with status := status } (c.updated y))
    (hq : status ≠ .working → Quiet s.worker.core) (hc : y = .report → c ≠ .stop) :
    LiveInv ((s, .move ok) :: h) ⟨{ s.worker with status := status }, c.updated y⟩ := by
  cases y with
  | guard => exact hi.goto hworker rfl (by simp [Cmd.updated, CallPc.newRunner]) hq
  | report => exact hi.goto hworker rfl (by simp [Cmd.updated, CallPc.newRunner]) ⟨hq, hc rfl⟩

theorem LiveInv.update {c : Cmd} {y : Why} (hi : LiveInv h s) (hpc : s.pc = .update c y)
    (hs : s.worker.callStep (.update c y) ok = some (w', pc')) (hworker : WorkerInv w' pc') :
    LiveInv ((s, .move ok) :: h) ⟨w', pc'⟩ := by
  have hc := hi.place
  simp only [hpc, LivePlace] at hc
  have hfresh : s.pc.own = s.pc.fresh := by
    rw [hpc]
    cases y <;> rfl
  simp only [Worker.callStep] at hs
  split at hs <;> rename_i hj <;> simp only [Option.some.injEq, Prod.mk.injEq] at hs <;>
    obtain ⟨rfl, rfl⟩ := hs
  · refine hi.updated hworker (fun _ t ht => ?_) hc
    have := hi.worker.jobs_of_fresh hfresh ht
    rw [hj] at this
    cases this
  · refine hi.goto hworker rfl (by simp [CallPc.newRunner]) ⟨Nat.zero_le _, ?_, hc⟩
    simp [sawExecuting, hpc]

theorem LiveInv.scan {c : Cmd} {y : Why} {j k : Nat} {seen : List TaskStatus}
    (hi : LiveInv h s) (hpc : s.pc = .scan c y j k seen)
    (hs : s.worker.callStep (.scan c y j k seen) ok = some (w', pc'))
    (hworker : WorkerInv w' pc') : LiveInv ((s, .move ok) :: h) ⟨w', pc'⟩ := by
  have hplace := hi.place
  simp only [hpc, LivePlace] at hplace
  obtain ⟨hk, hsaw, hc⟩ := hplace
  have hcons : sawExecuting ((s, .move ok) :: h) = true →
      Executing s.worker.core j k ∨ sawExecuting h = true := by
    simp [sawExecuting, hpc]
  simp only [Worker.callStep] at hs
  split at hs <;> rename_i hst <;> simp only [Option.some.injEq, Prod.mk.injEq] at hs <;>
    obtain ⟨rfl, rfl⟩ := hs
  · rename_i st
    refine hi.goto hworker rfl (by simp [CallPc.newRunner])
      ⟨Job.lt_size_of_taskStatus hst, fun h' => ?_, hc⟩
    rcases hcons h' with he | hs
    · have hrun := hi.reads_running he
      rw [hst, Option.some.injEq] at hrun
      simp [hrun]
    · exact List.mem_append_left _ (hsaw hs)
  · refine hi.frame hworker (.putStatus _ _ _) (fun i _ n => ?_) (by simp [CallPc.newRunner])
      ⟨fun h' => ?_, hc⟩
    · exact update_field s.worker.core.jobs (fun job => job.taskStatus n) (by simp) i
    · rcases hcons h' with he | hs
      · rw [hi.reads_running he] at hst
        cases hst
      · have hmem := hsaw hs
        have hw := hi.worker.place
        simp only [hpc, WorkerPlace] at hw
        have hlen := hw.2.1.length
        have hpos := List.length_pos_of_mem hmem
        have hz : (s.worker.core.jobs j).size ≠ 0 := by omega
        simp only [Core.putStatus, Function.update_self, Job.putStatus, if_neg hz]
        exact jobStatusOf_running.mpr hmem

theorem LiveInv.mapStatus {c : Cmd} {y : Why} {j : Nat} (hi : LiveInv h s)
    (hpc : s.pc = .mapStatus c y j) (hok : SeesExecution h s (.move ok))
    (hs : s.worker.callStep (.mapStatus c y j) ok = some (w', pc'))
    (hworker : WorkerInv w' pc') : LiveInv ((s, .move ok) :: h) ⟨w', pc'⟩ := by
  have hplace := hi.place
  simp only [hpc, LivePlace] at hplace
  obtain ⟨hsaw, hc⟩ := hplace
  have hfresh : s.pc.own = s.pc.fresh := by
    rw [hpc]
    cases y <;> rfl
  have hw := hi.worker.place
  simp only [hpc, WorkerPlace] at hw
  simp only [SeesExecution, seesExecution, hpc, Bool.or_eq_true, decide_eq_true_eq] at hok
  simp only [Worker.callStep, Option.some.injEq, Prod.mk.injEq] at hs
  obtain ⟨rfl, rfl⟩ := hs
  refine hi.updated hworker (fun hst t ht => ?_) hc
  rcases hok with hs | hu
  · rw [hsaw hs] at hst
    exact hst rfl
  · have := hi.worker.jobs_of_fresh hfresh ht
    rw [hw.1, Option.some.injEq] at this
    exact hu t ht.1 ht this.symm

/-- What the test of `worker->status` leads to. -/
theorem livePlace_choose {w : Worker} {c : Cmd} {pc : CallPc}
    (hq : w.status ≠ .working → Quiet w.core) (hs : c.choose w.status w.job = some pc) :
    LivePlace h w pc ∧ pc.newRunner = none := by
  have hheld : c ≠ .stop → w.status ≠ .working → c.runHeld w.job = some pc →
      LivePlace h w pc ∧ pc.newRunner = none := by
    intro hc hst hrun
    unfold Cmd.runHeld at hrun
    split at hrun
    · simp only [Option.some.injEq] at hrun
      subst hrun
      exact ⟨⟨fun _ _ => hq hst, fun h => absurd h hc⟩, rfl⟩
    · cases hrun
  cases c with
  | getStatus => simp [Cmd.choose] at hs
  | run j =>
    cases hst : w.status with
    | working =>
      simp only [Cmd.choose, hst, Option.some.injEq] at hs
      subst hs
      exact ⟨by simp [LivePlace], rfl⟩
    | _ =>
      simp only [Cmd.choose, hst, Option.some.injEq] at hs
      subst hs
      exact ⟨⟨fun _ _ => hq (by simp [hst]), by simp⟩, rfl⟩
  | assign j =>
    cases hst : w.status with
    | working =>
      simp only [Cmd.choose, hst, Option.some.injEq] at hs
      subst hs
      exact ⟨by simp [LivePlace], rfl⟩
    | _ =>
      simp only [Cmd.choose, hst, Option.some.injEq] at hs
      subst hs
      exact ⟨trivial, rfl⟩
  | start | restart =>
    cases hst : w.status with
    | assigned =>
      simp only [Cmd.choose, hst] at hs
      exact hheld (by simp) (by simp [hst]) hs
    | _ =>
      simp only [Cmd.choose, hst, Option.some.injEq] at hs
      subst hs
      exact ⟨by simp [LivePlace], rfl⟩
  | stop =>
    cases hst : w.status with
    | working =>
      simp only [Cmd.choose, hst, Option.some.injEq] at hs
      subst hs
      exact ⟨⟨by simp, fun _ => trivial⟩, rfl⟩
    | _ =>
      simp only [Cmd.choose, hst, Option.some.injEq] at hs
      subst hs
      exact ⟨fun _ => hq (by simp [hst]), rfl⟩

theorem LiveInv.decide {c : Cmd} (hi : LiveInv h s) (hpc : s.pc = .decide c)
    (hs : s.worker.callStep (.decide c) ok = some (w', pc')) (hworker : WorkerInv w' pc') :
    LiveInv ((s, .move ok) :: h) ⟨w', pc'⟩ := by
  have hq := hi.place
  simp only [hpc, LivePlace] at hq
  simp only [Worker.callStep] at hs
  split at hs
  · rename_i pc heq
    simp only [Option.some.injEq, Prod.mk.injEq] at hs
    obtain ⟨rfl, rfl⟩ := hs
    obtain ⟨hplace, hnew⟩ := livePlace_choose (h := (s, .move ok) :: h) hq heq
    exact hi.goto hworker rfl (by simp [hnew]) hplace
  · cases hs

/-- When the held thread has exited and no runner is new, no thread is
live. -/
theorem LiveInv.quiet (hi : LiveInv h s) (hn : s.pc.newRunner = none)
    (hx : HeldExited s.worker.core) : Quiet s.worker.core := by
  intro t ht
  have hr := (hi.worker.runners t ht).resolve_right (by simp [hn])
  have := hx _ hr
  rw [← hi.worker.core.live_tid ht] at this
  exact ht.2 this

/-- The engine returns: a stop has left no thread. -/
theorem livePlace_engineDone {c : Cmd} {w : Worker} (hq : c = .stop → Quiet w.core) :
    LivePlace h w (c.engineDone ok) ∧ (c.engineDone ok).newRunner = none := by
  cases c with
  | run j => cases ok <;> exact ⟨by simp [Cmd.engineDone, LivePlace], rfl⟩
  | _ => exact ⟨fun hc => hq hc, rfl⟩

/-- A new thread, when no other is live. -/
theorem LiveInv.grow {t : Nat} {opts : JobOpts} {l : Label}
    (hworker : WorkerInv w' pc') (hquiet : Quiet s.worker.core)
    (hlive : ∀ t', w'.core.Live t' → s.worker.core.Live t' ∨ t' = t)
    (hstart : (w'.core.exec t).thread = .start opts)
    (hnew : ∀ new, pc'.newRunner = some new → (w'.core.threads t).runner = new)
    (hplace : LivePlace ((s, l) :: h) w' pc') : LiveInv ((s, l) :: h) ⟨w', pc'⟩ := by
  have honly : ∀ t', w'.core.Live t' → t' = t := fun t' ht' =>
    (hlive t' ht').resolve_left (hquiet t')
  refine ⟨hworker, ?_, ?_, hplace⟩
  · intro new hn t' ht'
    obtain rfl := honly t' ht'
    exact hnew new hn
  · intro t' ht'
    obtain rfl := honly t' ht'
    exact JobExec.WindowInv.fresh hstart

theorem LiveInv.engine {c : Cmd} {epc : EnginePc} (hi : LiveInv h s)
    (hpc : s.pc = .engine c epc)
    (hs : s.worker.callStep (.engine c epc) ok = some (w', pc')) (hworker : WorkerInv w' pc') :
    LiveInv ((s, .move ok) :: h) ⟨w', pc'⟩ := by
  have hplace := hi.place
  simp only [hpc, LivePlace] at hplace
  obtain ⟨hcreate, hstop⟩ := hplace
  have hw := hi.worker.place
  simp only [hpc, WorkerPlace] at hw
  have hdone : ∀ (w : Worker) (b : Bool), (c = .stop → Quiet w.core) →
      LivePlace ((s, .move ok) :: h) w (c.engineDone b) ∧ (c.engineDone b).newRunner = none :=
    fun w b hq => livePlace_engineDone hq
  simp only [Worker.callStep] at hs
  cases epc with
  | create j =>
    have hns : c ≠ .stop := fun hc => (hstop hc).elim
    simp only [engineStep] at hs
    by_cases hz : (s.worker.core.jobs j).size = 0 ∨ ok = false
    · simp only [hz, if_true, Option.some.injEq, Prod.mk.injEq] at hs
      obtain ⟨rfl, rfl⟩ := hs
      have hd := hdone s.worker false fun hc => absurd hc hns
      exact hi.goto hworker rfl (by simp [hd.2]) hd.1
    · simp only [hz, if_false, Option.some.injEq, Prod.mk.injEq] at hs
      obtain ⟨rfl, rfl⟩ := hs
      have hstart : ((s.worker.core.launch j).exec s.worker.core.nthreads).thread
          = .start (s.worker.core.jobs j).opts := by simp [Core.exec]
      refine LiveInv.grow hworker (hcreate j rfl) (fun t' => Core.live_launch) hstart ?_
        ⟨by simp, fun hc => absurd hc hns⟩
      simp [CallPc.newRunner]
  | swap new =>
    have hns : c ≠ .stop := fun hc => (hstop hc).elim
    simp only [engineStep] at hs
    cases hr : s.worker.core.jobRunner <;>
      simp only [hr, Option.some.injEq, Prod.mk.injEq] at hs <;> obtain ⟨rfl, rfl⟩ := hs
    · exact hi.goto hworker rfl (by simp [hpc, CallPc.newRunner])
        ⟨by simp, fun hc => absurd hc hns⟩
    · exact hi.goto hworker rfl (by simp [hpc, CallPc.newRunner])
        ⟨by simp, fun hc => absurd hc hns⟩
  | load call =>
    obtain ⟨⟨_, hcall⟩, _⟩ := hw
    simp only [engineStep] at hs
    cases hr : s.worker.core.jobRunner with
    | none =>
      have hq : Quiet s.worker.core := hi.quiet (by rw [hpc]; rfl) fun r h => by simp [hr] at h
      have hd := hdone s.worker true fun _ => hq
      rcases hcall with ⟨rfl, _⟩ | rfl <;>
        simp only [hr, EngineCall.loaded, Option.some.injEq, Prod.mk.injEq] at hs <;>
        obtain ⟨rfl, rfl⟩ := hs <;> exact hi.goto hworker rfl (by simp [hd.2]) hd.1
    | some r =>
      rcases hcall with ⟨rfl, _⟩ | rfl <;>
        simp only [hr, EngineCall.loaded, Option.some.injEq, Prod.mk.injEq] at hs <;>
        obtain ⟨rfl, rfl⟩ := hs
      · exact hi.goto hworker rfl (by simp [CallPc.newRunner])
          ⟨by simp, fun hc => (hstop hc).elim⟩
      · exact hi.goto hworker rfl (by simp [CallPc.newRunner]) ⟨by simp, fun _ => trivial⟩
  | cancel r k =>
    simp only [engineStep, Option.some.injEq, Prod.mk.injEq] at hs
    obtain ⟨rfl, rfl⟩ := hs
    refine hi.frame hworker (.cancel _ _) (fun _ _ _ => rfl) ?_ ⟨by simp, fun hc => ?_⟩
    · rw [hpc]
      cases k <;> simp [CallPc.newRunner]
    · have := hstop hc
      cases k <;> simp_all [StopPc]
  | join r k =>
    obtain ⟨⟨hr, _⟩, _⟩ := hw
    simp only [engineStep] at hs
    by_cases hx : (s.worker.core.threads (s.worker.core.tid r)).body.pc = .exited
    · have hf := Core.Frame.join s.worker.core (s.worker.core.tid r)
      simp only [hx, if_true] at hs
      cases k with
      | «return» =>
        simp only [After.next, Option.some.injEq, Prod.mk.injEq] at hs
        obtain ⟨rfl, rfl⟩ := hs
        have hq : Quiet s.worker.core := hi.quiet (by rw [hpc]; rfl) fun r' hr' => by
          obtain rfl : r = r' := Option.some.inj (hr.symm.trans hr')
          exact hx
        have hd := hdone { s.worker with core := s.worker.core.join (s.worker.core.tid r) } true
          fun _ t ht => hq t (hf.live_iff.mp ht)
        exact hi.frame hworker hf (fun _ _ _ => rfl) (by simp [hd.2]) hd.1
      | _ =>
        simp only [After.next, Option.some.injEq, Prod.mk.injEq] at hs
        obtain ⟨rfl, rfl⟩ := hs
        exact hi.frame hworker hf (fun _ _ _ => rfl) (by simp [hpc, CallPc.newRunner])
          ⟨by simp, fun hc => (hstop hc).elim⟩
    · simp [hx] at hs
  | free r new =>
    simp only [engineStep, Option.some.injEq, Prod.mk.injEq] at hs
    obtain ⟨rfl, rfl⟩ := hs
    exact hi.frame hworker (.freeRunner _ _) (fun _ _ _ => rfl) (by simp [hpc, CallPc.newRunner])
      ⟨by simp, fun hc => (hstop hc).elim⟩
  | store new =>
    simp only [engineStep, Option.some.injEq, Prod.mk.injEq] at hs
    obtain ⟨rfl, rfl⟩ := hs
    have hd := hdone { s.worker with core := s.worker.core.setJobRunner new } true
      fun hc => (hstop hc).elim
    exact hi.frame hworker (.setJobRunner _ _) (fun _ _ _ => rfl) (by simp [hd.2]) hd.1
  | recreate r =>
    obtain ⟨⟨_, hexited, _⟩, _⟩ := hw
    have hq : Quiet s.worker.core := hi.quiet (by rw [hpc]; rfl) hexited
    simp only [engineStep, Option.some.injEq, Prod.mk.injEq] at hs
    obtain ⟨rfl, rfl⟩ := hs
    have hd := fun w => hdone w true fun hc => (hstop hc).elim
    cases ok with
    | true =>
      have hstart : ((s.worker.core.spawn r).exec s.worker.core.nthreads).thread
          = .start (s.worker.core.jobs (s.worker.core.runners r).job).opts := by simp [Core.exec]
      exact LiveInv.grow hworker hq (fun t' => Core.live_spawn) hstart (by simp [(hd s.worker).2])
        (hd _).1
    | false => exact hi.goto hworker rfl (by simp [(hd s.worker).2]) (hd _).1
  | freeEngine | done b => exact hw.1.elim

theorem LiveInv.move (hi : LiveInv h s) (hok : SeesExecution h s (.move ok))
    (hs : s.step (.move ok) = some s') : LiveInv ((s, .move ok) :: h) s' := by
  simp only [step] at hs
  split at hs
  · rename_i w' pc' hcall
    simp only [Option.some.injEq] at hs
    subst hs
    have hplace := hi.place
    have hquiet : AssignQuiet s.worker s.pc := by
      intro j hpc hst t ht
      simp only [hpc, LivePlace] at hplace
      exact absurd ht (hplace hst t)
    have hworker := hi.worker.callStep hquiet hcall
    cases hpc : s.pc with
    | idle | returned c report => simp [hpc, Worker.callStep] at hcall
    | enter r => exact hi.enter hpc (hpc ▸ hcall) hworker
    | update c y => exact hi.update hpc (hpc ▸ hcall) hworker
    | scan c y j k seen => exact hi.scan hpc (hpc ▸ hcall) hworker
    | mapStatus c y j => exact hi.mapStatus hpc hok (hpc ▸ hcall) hworker
    | decide c => exact hi.decide hpc (hpc ▸ hcall) hworker
    | engine c epc => exact hi.engine hpc (hpc ▸ hcall) hworker
    | destroyJob c j =>
      simp only [hpc, Worker.callStep, Option.some.injEq, Prod.mk.injEq] at hcall
      obtain ⟨rfl, rfl⟩ := hcall
      refine hi.frame hworker (.destroyJob _ _) (fun i _ k => ?_) (by simp [CallPc.newRunner])
        trivial
      cases s.worker.job <;> rfl
    | setJob c j =>
      have hw := hi.worker.place
      simp only [hpc, WorkerPlace] at hw
      simp only [hpc, Worker.callStep, Option.some.injEq, Prod.mk.injEq] at hcall
      obtain ⟨rfl, rfl⟩ := hcall
      refine hi.goto hworker rfl (by simp [CallPc.newRunner]) fun _ => ?_
      rcases hw with ⟨rfl, _⟩ | ⟨rfl, _⟩ <;> simp
    | encode c =>
      simp only [hpc, LivePlace] at hplace
      rw [hpc] at hcall
      rcases Worker.callStep_encode hcall with ⟨rfl, report, rfl⟩ | ⟨rfl, j, _, rfl⟩
      · exact hi.goto hworker rfl (by simp [CallPc.newRunner]) hplace.2
      · exact hi.goto hworker rfl (by simp [CallPc.newRunner]) hplace.2
    | encodeScan c st j k seen =>
      simp only [hpc, LivePlace] at hplace
      simp only [hpc, Worker.callStep] at hcall
      split at hcall <;> simp only [Option.some.injEq, Prod.mk.injEq] at hcall <;>
        obtain ⟨rfl, rfl⟩ := hcall
      · exact hi.goto hworker rfl (by simp [CallPc.newRunner]) hplace
      · refine hi.frame hworker (.putStatus _ _ _) (fun i _ n => ?_) (by simp [CallPc.newRunner])
          hplace
        exact update_field s.worker.core.jobs (fun job => job.taskStatus n) (by simp) i
    | encodeStatus c st j =>
      simp only [hpc, LivePlace] at hplace
      simp only [hpc, Worker.callStep, Option.some.injEq, Prod.mk.injEq] at hcall
      obtain ⟨rfl, rfl⟩ := hcall
      exact hi.goto hworker rfl (by simp [CallPc.newRunner]) hplace
    | encodeTasks c st j k report =>
      simp only [hpc, LivePlace] at hplace
      rw [hpc] at hcall
      obtain ⟨rfl, ⟨report', rfl⟩ | ⟨report', rfl⟩⟩ := Worker.callStep_encodeTasks hcall
      · exact hi.goto hworker rfl (by simp [CallPc.newRunner]) hplace
      · exact hi.goto hworker rfl (by simp [CallPc.newRunner]) hplace
    | unlock c report =>
      simp only [hpc, LivePlace] at hplace
      simp only [hpc, Worker.callStep, Option.some.injEq, Prod.mk.injEq] at hcall
      obtain ⟨rfl, rfl⟩ := hcall
      exact hi.goto hworker rfl (by simp [CallPc.newRunner]) fun hc => absurd hc hplace
  · cases hs

theorem LiveInv.call {r : Request} (hi : LiveInv h s) (hs : s.step (.call r) = some s') :
    LiveInv ((s, .call r) :: h) s' := by
  simp only [step] at hs
  split at hs
  · rename_i hpc
    simp only [Option.some.injEq] at hs
    subst hs
    exact hi.goto (hi.worker.call (Or.inl hpc)) rfl (by simp [CallPc.newRunner]) trivial
  · rename_i c report hpc
    simp only [Option.some.injEq] at hs
    subst hs
    exact hi.goto (hi.worker.call (Or.inr ⟨c, report, hpc⟩)) rfl (by simp [CallPc.newRunner]) trivial
  · cases hs

/-- In every run in which the worker sees what executes, its status
agrees with its threads. -/
theorem run_agrees {h : History Solo Label} {s : Solo}
    (hr : Run step SeesExecution create h s) : Agrees s := by
  refine (Run.invariant LiveInv.create (fun h s l s' hi hok hs => ?_) hr).agrees
  cases l with
  | call r => exact hi.call hs
  | move ok => exact hi.move hok hs
  | thread t l => exact hi.thread hs

/-! ## Two runs -/

/-- `n` steps of the call. -/
def moves (n : Nat) : List Label := List.replicate n (.move true)

/-- A `worker_run` up to its report, then a `worker_stop`; the task is
executing when its status is read. -/
def stoppedInTask : List Label :=
  [Label.call (.run oneTaskJob)] ++ moves 8 ++
  [Label.thread 0 (.job true), .thread 0 (.job true), .thread 0 (.job true),
    .thread 0 (.job true)] ++
  moves 11 ++ [Label.call .stop] ++ moves 8 ++
  [Label.thread 0 .cancelled, .thread 0 (.job true), .thread 0 (.task 0 .spawned),
    .thread 0 (.task 0 (.finished 2)), .thread 0 (.job true), .thread 0 (.job true)] ++ moves 1

theorem run_agrees_stoppedInTask :
    ∃ h s, Run step SeesExecution create h s ∧ s.pc = .returned .stop none ∧
      s.worker.core.nthreads = 1 ∧ Agrees s := by
  obtain ⟨h, s, hr, hc⟩ := Run.of_check step SeesExecution create stoppedInTask
    (fun s => s.pc == .returned .stop none && s.worker.core.nthreads == 1) (by decide +kernel)
  simp only [Bool.and_eq_true, beq_iff_eq] at hc
  exact ⟨h, s, hr, hc.1, hc.2, run_agrees hr⟩

/-- A `worker_run`, then a `worker_stop`, before the job thread has
started its first task. -/
def stoppedTooEarly : List Label :=
  [.call (.run oneTaskJob)] ++ moves 19 ++ [.call .stop] ++ moves 6

/-- `worker_stop` derives ASSIGNED and returns, with the job thread
live. -/
theorem run_stop_leaves_thread :
    ∃ h s, Run step always create h s ∧ s.pc = .returned .stop none ∧ s.worker.status = .assigned ∧
      s.worker.core.Live 0 ∧ s.worker.job = some (s.worker.core.jobOf 0) ∧ ¬ Agrees s := by
  obtain ⟨h, s, hr, hc⟩ := Run.of_check step always create stoppedTooEarly
    (fun s => s.pc == .returned .stop none && s.worker.status == .assigned &&
      decide (s.worker.core.Live 0) && s.worker.job == some (s.worker.core.jobOf 0))
    (by decide +kernel)
  simp only [Bool.and_eq_true, beq_iff_eq, decide_eq_true_eq] at hc
  obtain ⟨⟨⟨hpc, hst⟩, hlive⟩, hjob⟩ := hc
  refine ⟨h, s, hr, hpc, hst, hlive, hjob, ?_⟩
  intro ha
  exact ha.stopped hpc 0 hlive

end Pyoneer.Runtime.Solo
