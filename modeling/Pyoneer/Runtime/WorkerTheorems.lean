/-
Pyoneer.Runtime.WorkerTheorems — what holds of the worker while one call
is in progress.

`WorkerInv` says which job threads can be live and on which job they
work: a live thread belongs to the runner in `engine->job_runner` or to
the one that an `engine_run` in progress has created, and it iterates
`worker->job` or the job of the `worker_run` in progress. A job that no
runner has is as it was decoded (`Virgin`), so that the worker reports
ASSIGNED for it and starts it with `engine_run`, not with
`engine_restart`.

The invariant holds whatever the job threads do, as long as calls do not
overlap and `worker_assign` does not replace a job that is being
iterated (`AssignQuiet`).
-/
import Pyoneer.Runtime.EngineTheorems
import Pyoneer.Runtime.Worker

namespace Pyoneer.Runtime

open Pyoneer.Lib Pyoneer.Blueprint

/-! ## Jobs that have not run -/

/-- No runner was ever created for job `o`, and it is as decoded. -/
structure Virgin (c : Core) (o : Nat) : Prop where
  runner : ∀ r < c.nrunners, (c.runners r).job ≠ o
  tasks : ∀ k st, (c.jobs o).taskStatus k = some st → st = .ready
  status : (c.jobs o).status = .ready

/-- The runner in `engine->job_runner` was created for job `o`. -/
def Matched (c : Core) (o : Nat) : Prop := ∃ r, c.jobRunner = some r ∧ (c.runners r).job = o

/-- The statuses read so far, on job `j`. -/
structure ScanOk (c : Core) (j k : Nat) (seen : List TaskStatus) : Prop where
  length : seen.length = k
  ready : Virgin c j → ∀ st ∈ seen, st = .ready

theorem jobStatusOf_all_ready {seen : List TaskStatus} (hne : seen ≠ [])
    (h : ∀ st ∈ seen, st = TaskStatus.ready) : jobStatusOf seen = .ready := by
  obtain ⟨st, hst⟩ := List.exists_mem_of_ne_nil seen hne
  exact jobStatusOf_ready.mpr ⟨fun st' hst' => Or.inl (h st' hst'), h st hst ▸ hst⟩

theorem virgin_newJob {c : Core} (hc : CoreInv c) (job : Decoded) :
    Virgin (c.newJob job.1) c.njobs := by
  refine ⟨fun r hr => Nat.ne_of_lt (hc.job_lt r hr), ?_, ?_⟩
  · intro k st hst
    simp only [Core.newJob, Function.update_self, Job.taskStatus, Option.map_eq_some_iff] at hst
    obtain ⟨task, htask, rfl⟩ := hst
    exact job.2.2 task (List.mem_of_getElem? htask)
  · simpa [Core.newJob] using job.2.1

theorem Virgin.newJob {c : Core} {o : Nat} (hv : Virgin c o) (ho : o < c.njobs) (job : Job) :
    Virgin (c.newJob job) o := by
  have hjob : (c.newJob job).jobs o = c.jobs o := by simp [Core.newJob, Nat.ne_of_lt ho]
  exact ⟨hv.runner, by rw [hjob]; exact hv.tasks, by rw [hjob]; exact hv.status⟩

/-- A poll of a job that has not run leaves it as it is. -/
theorem Virgin.putStatus {c : Core} {j o k : Nat} {seen : List TaskStatus} (hv : Virgin c o)
    (hs : ScanOk c j k seen) (hk : (c.jobs j).size ≤ k) : Virgin (c.putStatus j seen) o := by
  by_cases hj : o = j
  · subst hj
    refine ⟨hv.runner, ?_, ?_⟩
    · simpa [Core.putStatus] using hv.tasks
    · simp only [Core.putStatus, Function.update_self, Job.putStatus]
      split
      · exact hv.status
      · rename_i hz
        refine jobStatusOf_all_ready ?_ (hs.ready hv)
        rintro rfl
        have := hs.length
        simp only [List.length_nil] at this
        omega
  · have hjob : (c.putStatus j seen).jobs o = c.jobs o := by simp [Core.putStatus, hj]
    exact ⟨hv.runner, by rw [hjob]; exact hv.tasks, by rw [hjob]; exact hv.status⟩

theorem Core.Frame.putStatus (c : Core) (j : Nat) (seen : List TaskStatus) :
    Core.Frame c (c.putStatus j seen) where
  nthreads := rfl
  nrunners := rfl
  njobs := Nat.le_refl _
  runner := fun _ => rfl
  pc := fun _ => rfl
  tasks := fun _ => rfl
  tid := fun _ => rfl
  job := fun _ => rfl
  taskRunners := fun _ => rfl
  size := fun i _ => update_field c.jobs Job.size (by simp) i
  opts := fun i _ => update_field c.jobs Job.opts (by simp) i

theorem Core.Frame.destroyJob (c : Core) (job : Option Nat) : Core.Frame c (c.destroyJob job) := by
  cases job <;> exact ⟨rfl, rfl, Nat.le_refl _, fun _ => rfl, fun _ => rfl, fun _ => rfl,
    fun _ => rfl, fun _ => rfl, fun _ => rfl, fun _ _ => rfl, fun _ _ => rfl⟩

/-! ## The invariant -/

/-- The job that comes with the command. -/
def Cmd.job : Cmd → Option Nat
  | .run j | .assign j => some j
  | _ => none

/-- The job of a command that is not `worker->job` yet. -/
def CallPc.own : CallPc → Option Nat
  | .update c .guard | .scan c .guard _ _ _ | .mapStatus c .guard _ | .decide c
  | .engine c _ => c.job
  | .destroyJob _ j | .setJob _ j => some j
  | _ => none

/-- The job of a command that no runner was created for yet. -/
def CallPc.fresh : CallPc → Option Nat
  | .update c .guard | .scan c .guard _ _ _ | .mapStatus c .guard _ | .decide c
  | .engine c (.create _) => c.job
  | .destroyJob (.assign _) j | .setJob (.assign _) j => some j
  | _ => none

/-- The runner that an `engine_run` in progress has created. -/
def CallPc.newRunner : CallPc → Option Nat
  | .engine _ (.swap new) | .engine _ (.cancel _ (.free new)) | .engine _ (.join _ (.free new))
  | .engine _ (.free _ new) | .engine _ (.store new) => some new
  | _ => none

/-- No job thread is live. -/
def Quiet (c : Core) : Prop := ∀ t, ¬ c.Live t

/-- The thread of the held runner has exited. -/
def HeldExited (c : Core) : Prop :=
  ∀ r, c.jobRunner = some r → (c.threads (c.tid r)).body.pc = .exited

/-- The runner that `engine_run` has created, for the job of the command
or else for `worker->job`. -/
def NewOk (w : Worker) (c : Cmd) (new : Nat) : Prop :=
  new < w.core.nrunners ∧ w.core.jobRunner ≠ some new ∧
    c.job.or w.job = some (w.core.runners new).job

/-- The held runner is the one for `worker->job`. -/
def HeldMatches (w : Worker) (r : Nat) : Prop :=
  w.core.jobRunner = some r ∧ w.job = some (w.core.runners r).job

/-- What is known in a function of the engine. -/
def EnginePlace (w : Worker) (c : Cmd) : EnginePc → Prop
  | .create j => c.job.or w.job = some j
  | .swap new => NewOk w c new
  | .load call => c.job = none ∧
    ((call = .restart ∧ ∀ r, w.core.jobRunner = some r → HeldMatches w r) ∨ call = .stop)
  | .cancel r k | .join r k =>
    w.core.jobRunner = some r ∧ (∀ new, k = .free new → NewOk w c new) ∧
      (k = .recreate → HeldMatches w r ∧ c.job = none) ∧ (k = .return → c.job = none) ∧
      k ≠ .freeEngine
  | .free r new => w.core.jobRunner = some r ∧ NewOk w c new ∧ HeldExited w.core
  | .store new => NewOk w c new ∧ HeldExited w.core
  | .recreate r => HeldMatches w r ∧ HeldExited w.core ∧ c.job = none
  | .freeEngine | .done _ => False

/-- What is known at each point of a call. -/
def WorkerPlace (w : Worker) : CallPc → Prop
  | .update c y => y = .guard → c ≠ .getStatus
  | .scan c y j k seen =>
    w.job = some j ∧ ScanOk w.core j k seen ∧ (y = .guard → c ≠ .getStatus)
  | .encodeScan _ _ j k seen => w.job = some j ∧ ScanOk w.core j k seen
  | .mapStatus c y j => w.job = some j ∧ (y = .guard → c ≠ .getStatus)
  | .decide c =>
    (w.job = none → w.status = .notAssigned) ∧
    (∀ o, w.job = some o → Virgin w.core o → w.status = .assigned) ∧ c ≠ .getStatus
  | .engine c pc => EnginePlace w c pc ∧ c ≠ .getStatus ∧ ∀ j, c ≠ .assign j
  | .destroyJob c j | .setJob c j =>
    (c = .run j ∧ Matched w.core j) ∨ (c = .assign j ∧ Quiet w.core)
  | _ => True

structure WorkerInv (w : Worker) (pc : CallPc) : Prop where
  core : CoreInv w.core
  held : ∀ o, w.job = some o → o < w.core.njobs
  alive : ∀ o, w.job = some o → (∀ c j, pc ≠ .setJob c j) → w.core.jobFreed o = false
  own : ∀ j, pc.own = some j →
    j < w.core.njobs ∧ w.core.jobFreed j = false ∧ w.job ≠ some j
  fresh : ∀ j, pc.fresh = some j → Virgin w.core j
  runners : ∀ t, w.core.Live t → w.core.jobRunner = some (w.core.threads t).runner ∨
    pc.newRunner = some (w.core.threads t).runner
  jobs : ∀ t, w.core.Live t → w.job = some (w.core.jobOf t) ∨ pc.own = some (w.core.jobOf t)
  known : ∀ o, w.job = some o → (∀ c j, pc ≠ .destroyJob c j ∧ pc ≠ .setJob c j) →
    Matched w.core o ∨ Virgin w.core o ∨
      ∃ new, pc.newRunner = some new ∧ (w.core.runners new).job = o
  unused : ∀ j, w.core.njobs ≤ j → w.core.jobFreed j = false
  place : WorkerPlace w pc

/-- What is known at each point whatever `worker_assign` replaces. -/
def HoldPlace (w : Worker) : CallPc → Prop
  | .destroyJob c j | .setJob c j => (c = .run j ∧ Matched w.core j) ∨ c = .assign j
  | pc => WorkerPlace w pc

/-- The part of the invariant that does not depend on which job the
threads iterate. -/
structure HoldInv (w : Worker) (pc : CallPc) : Prop where
  core : CoreInv w.core
  held : ∀ o, w.job = some o → o < w.core.njobs
  alive : ∀ o, w.job = some o → (∀ c j, pc ≠ .setJob c j) → w.core.jobFreed o = false
  own : ∀ j, pc.own = some j →
    j < w.core.njobs ∧ w.core.jobFreed j = false ∧ w.job ≠ some j
  fresh : ∀ j, pc.fresh = some j → Virgin w.core j
  runners : ∀ t, w.core.Live t → w.core.jobRunner = some (w.core.threads t).runner ∨
    pc.newRunner = some (w.core.threads t).runner
  known : ∀ o, w.job = some o → (∀ c j, pc ≠ .destroyJob c j ∧ pc ≠ .setJob c j) →
    Matched w.core o ∨ Virgin w.core o ∨
      ∃ new, pc.newRunner = some new ∧ (w.core.runners new).job = o
  unused : ∀ j, w.core.njobs ≤ j → w.core.jobFreed j = false
  place : HoldPlace w pc

theorem HoldInv.create : HoldInv .create .idle := by
  refine ⟨CoreInv.create, ?_, ?_, ?_, ?_, ?_, ?_, ?_, trivial⟩ <;>
    simp [Worker.create, Core.create, CallPc.own, CallPc.fresh, Core.Live]

/-! ## Steps that leave the runners alone -/

/-- `c'` differs from `c` only in what the threads have done. -/
structure Core.Still (c c' : Core) : Prop where
  jobRunner : c'.jobRunner = c.jobRunner
  nrunners : c'.nrunners = c.nrunners
  njobs : c'.njobs = c.njobs
  jobFreed : c'.jobFreed = c.jobFreed
  runnerJob : ∀ r, (c'.runners r).job = (c.runners r).job
  tid : ∀ r, c'.tid r = c.tid r
  runner : ∀ t, (c'.threads t).runner = (c.threads t).runner
  live : ∀ t, c'.Live t → c.Live t
  exited : ∀ t, (c.threads t).body.pc = .exited → (c'.threads t).body.pc = .exited
  virgin : ∀ o, Virgin c' o ↔ Virgin c o

/-- No thread iterates a job that has not run. -/
theorem Virgin.jobOf_ne {c : Core} {o t : Nat} (hv : Virgin c o) (hc : CoreInv c)
    (ht : c.Live t) : c.jobOf t ≠ o :=
  hv.runner _ (hc.runner_lt t ht.1)

theorem Core.Still.threadStep {c c' : Core} {t : Nat} {l : JobExec.Label} (hc : CoreInv c)
    (hs : c.threadStep t l = some c') : Core.Still c c' := by
  obtain ⟨ht, e', he, rfl⟩ := Core.threadStep_eq hs
  have hlive := hc.live_of_step ht he
  refine ⟨rfl, rfl, rfl, rfl, c.putExec_job t e', c.putExec_tid t e', c.putExec_runner t e',
    ?_, ?_, ?_⟩
  · intro t' ht'
    by_cases h : t' = t
    · exact h ▸ hlive
    · exact ⟨ht'.1, by rw [← c.putExec_thread_ne t e' h]; exact ht'.2⟩
  · intro t' hx
    by_cases h : t' = t
    · exact absurd (h ▸ hx) hlive.2
    · rw [c.putExec_thread_ne t e' h]
      exact hx
  · intro o
    by_cases ho : o = c.jobOf t
    · have hused := hc.runner_lt t ht
      constructor <;> intro hv
      · exact absurd (by rw [c.putExec_job, ho]; rfl) (hv.runner _ hused)
      · exact absurd ho.symm (hv.runner _ hused)
    · have hjob := c.putExec_jobs_ne t e' ho
      constructor <;> intro hv
      · exact ⟨fun r hr => by simpa using hv.runner r hr, by rw [← hjob]; exact hv.tasks,
          by rw [← hjob]; exact hv.status⟩
      · exact ⟨fun r hr => by simpa using hv.runner r hr, by rw [hjob]; exact hv.tasks,
          by rw [hjob]; exact hv.status⟩

/-- A frame with the same jobs is still. -/
theorem Core.Still.of_frame {c c' : Core} (hf : Core.Frame c c')
    (hr : c'.jobRunner = c.jobRunner) (hn : c'.njobs = c.njobs)
    (hfreed : c'.jobFreed = c.jobFreed) (hjobs : c'.jobs = c.jobs) : Core.Still c c' := by
  refine ⟨hr, hf.nrunners, hn, hfreed, hf.job, hf.tid, hf.runner, fun t => hf.live_iff.mp,
    fun t hx => by rw [hf.pc, hx], fun o => ?_⟩
  constructor <;> intro hv
  · refine ⟨fun r hr => ?_, by rw [← hjobs]; exact hv.tasks, by rw [← hjobs]; exact hv.status⟩
    rw [← hf.job]
    exact hv.runner r (hf.nrunners ▸ hr)
  · refine ⟨fun r hr => ?_, by rw [hjobs]; exact hv.tasks, by rw [hjobs]; exact hv.status⟩
    rw [hf.job]
    exact hv.runner r (hf.nrunners ▸ hr)

theorem Core.Still.cancel (c : Core) (t : Nat) : Core.Still c (c.cancel t) :=
  .of_frame (.cancel c t) rfl rfl rfl rfl

theorem Core.Still.join (c : Core) (t : Nat) : Core.Still c (c.join t) :=
  .of_frame (.join c t) rfl rfl rfl rfl

section Still

variable {w : Worker} {c' : Core} (hs : Core.Still w.core c')

include hs

theorem Core.Still.jobOf (t : Nat) : c'.jobOf t = w.core.jobOf t := by
  rw [Core.jobOf, Core.jobOf, hs.runner, hs.runnerJob]

theorem Core.Still.matched {o : Nat} : Matched c' o ↔ Matched w.core o := by
  simp only [Matched, hs.jobRunner, hs.runnerJob]

theorem Core.Still.heldMatches {r : Nat} :
    HeldMatches { w with core := c' } r ↔ HeldMatches w r := by
  simp only [HeldMatches, hs.jobRunner, hs.runnerJob]

theorem Core.Still.newOk {c : Cmd} {new : Nat} :
    NewOk { w with core := c' } c new ↔ NewOk w c new := by
  simp only [NewOk, hs.jobRunner, hs.runnerJob, hs.nrunners]

theorem Core.Still.heldExited (h : HeldExited w.core) : HeldExited c' := by
  intro r hr
  rw [hs.tid]
  exact hs.exited _ (h r (hs.jobRunner ▸ hr))

theorem Core.Still.scanOk {j k : Nat} {seen : List TaskStatus} (h : ScanOk w.core j k seen) :
    ScanOk c' j k seen := ⟨h.length, fun hv => h.ready ((hs.virgin j).mp hv)⟩

theorem Core.Still.enginePlace {c : Cmd} {pc : EnginePc} (h : EnginePlace w c pc) :
    EnginePlace { w with core := c' } c pc := by
  cases pc with
  | free r new => exact ⟨hs.jobRunner.trans h.1, hs.newOk.mpr h.2.1, hs.heldExited h.2.2⟩
  | store new => exact ⟨hs.newOk.mpr h.1, hs.heldExited h.2⟩
  | recreate r => exact ⟨hs.heldMatches.mpr h.1, hs.heldExited h.2.1, h.2.2⟩
  | freeEngine | done ok => exact h
  | _ => simpa only [EnginePlace, hs.newOk, hs.heldMatches, hs.jobRunner] using h

theorem Core.Still.holdPlace {pc : CallPc} (h : HoldPlace w pc) :
    HoldPlace { w with core := c' } pc := by
  cases pc with
  | scan c y j k seen => exact ⟨h.1, hs.scanOk h.2.1, h.2.2⟩
  | encodeScan c st j k seen => exact ⟨h.1, hs.scanOk h.2⟩
  | decide c => exact ⟨h.1, fun o ho hv => h.2.1 o ho ((hs.virgin o).mp hv), h.2.2⟩
  | engine c pc => exact ⟨hs.enginePlace h.1, h.2⟩
  | destroyJob c j | setJob c j => exact h.imp_left fun h => ⟨h.1, hs.matched.mpr h.2⟩
  | _ => exact h

end Still

/-- The threads do not break the invariant. -/
theorem HoldInv.still {w : Worker} {pc : CallPc} {c' : Core} (hi : HoldInv w pc)
    (hs : Core.Still w.core c') (hc : CoreInv c') : HoldInv { w with core := c' } pc := by
  refine ⟨hc, ?_, ?_, ?_, ?_, ?_, ?_, ?_, hs.holdPlace hi.place⟩
  · intro o ho
    exact hs.njobs ▸ hi.held o ho
  · intro o ho hset
    exact hs.jobFreed ▸ hi.alive o ho hset
  · intro j hj
    rw [hs.njobs, hs.jobFreed]
    exact hi.own j hj
  · exact fun j hj => (hs.virgin j).mpr (hi.fresh j hj)
  · intro t ht
    rw [hs.jobRunner, hs.runner]
    exact hi.runners t (hs.live t ht)
  · intro o ho hset
    simp only [hs.matched, hs.virgin, hs.runnerJob]
    exact hi.known o ho hset
  · rw [hs.njobs, hs.jobFreed]
    exact hi.unused

/-- A step that only moves the call. -/
theorem HoldInv.goto {w w' : Worker} {pc pc' : CallPc} (hi : HoldInv w pc)
    (hcore : w'.core = w.core) (hjob : w'.job = w.job)
    (hset : ∀ c j, pc ≠ .destroyJob c j ∧ pc ≠ .setJob c j)
    (hown : ∀ j, pc'.own = some j → pc.own = some j)
    (hfresh : ∀ j, pc'.fresh = some j → pc.fresh = some j)
    (hnew : pc'.newRunner = pc.newRunner) (hplace : HoldPlace w' pc') : HoldInv w' pc' := by
  obtain ⟨core, status, job, locked⟩ := w'
  obtain rfl : core = w.core := hcore
  obtain rfl : job = w.job := hjob
  refine ⟨hi.core, hi.held, ?_, ?_, ?_, ?_, ?_, hi.unused, hplace⟩
  · exact fun o ho _ => hi.alive o ho fun c j => (hset c j).2
  · exact fun j hj => hi.own j (hown j hj)
  · exact fun j hj => hi.fresh j (hfresh j hj)
  · rw [hnew]
    exact hi.runners
  · rw [hnew]
    exact fun o ho _ => hi.known o ho hset

/-! ## Steps of a call -/

section CallSteps

variable {w w' : Worker} {pc pc' : CallPc} {c : Cmd} {y : Why} {ok : Bool}

/-- The end of `job_get_status` on `worker->job`. -/
theorem HoldInv.polled {j k : Nat} {seen : List TaskStatus} (hi : HoldInv w pc)
    (hs : ScanOk w.core j k seen) (hk : (w.core.jobs j).size ≤ k)
    (hset : ∀ c j, pc ≠ .destroyJob c j ∧ pc ≠ .setJob c j)
    (hown : pc'.own = pc.own) (hfresh : pc'.fresh = pc.fresh)
    (hnew : pc'.newRunner = pc.newRunner)
    (hplace : HoldPlace { w with core := w.core.putStatus j seen } pc') :
    HoldInv { w with core := w.core.putStatus j seen } pc' := by
  have hf := Core.Frame.putStatus w.core j seen
  refine ⟨hi.core.frame hf hi.core.held_lt fun _ _ hj => Or.inl hj, hi.held, ?_, ?_, ?_, ?_, ?_,
    hi.unused, hplace⟩
  · exact fun o ho _ => hi.alive o ho fun c j => (hset c j).2
  · rw [hown]
    exact hi.own
  · rw [hfresh]
    exact fun i hj => (hi.fresh i hj).putStatus hs hk
  · rw [hnew]
    exact hi.runners
  · rw [hnew]
    exact fun o ho _ => (hi.known o ho hset).imp_right
      fun h => h.imp_left fun hv => hv.putStatus hs hk

/-- A command takes the lock, and its job gets a number. -/
theorem HoldInv.placed {r : Request} (hi : HoldInv w (.enter r)) (b : Bool) :
    HoldInv { w with core := (r.place w.core).1, locked := b } (r.place w.core).2.entry := by
  have hnew : ∀ (job : Decoded) (c : Cmd), c.job = some w.core.njobs → c ≠ .getStatus →
      HoldInv { w with core := w.core.newJob job.1, locked := b } (.update c .guard) := by
    intro job c hc hne
    refine ⟨hi.core.newJob _, ?_, ?_, ?_, ?_, ?_, ?_, ?_, fun _ => hne⟩
    · exact fun o ho => Nat.lt_succ_of_lt (hi.held o ho)
    · exact fun o ho _ => hi.alive o ho (by simp)
    · intro j hj
      obtain rfl : w.core.njobs = j := by simpa [CallPc.own, hc] using hj
      refine ⟨Nat.lt_succ_self _, hi.unused _ (Nat.le_refl _), fun ho => ?_⟩
      exact Nat.lt_irrefl _ (hi.held _ ho)
    · intro j hj
      obtain rfl : w.core.njobs = j := by simpa [CallPc.fresh, hc] using hj
      exact virgin_newJob hi.core job
    · exact fun t ht => (hi.runners t ht).imp_right (by simp [CallPc.newRunner])
    · intro o ho _
      refine (hi.known o ho (by simp)).imp_right fun h => h.imp ?_ (by simp [CallPc.newRunner])
      exact fun hv => hv.newJob (hi.held o ho) _
    · exact fun j hj => hi.unused j (Nat.le_of_succ_le hj)
  cases r with
  | run job => exact hnew job _ rfl (by simp [Request.place])
  | assign job => exact hnew job _ rfl (by simp [Request.place])
  | getStatus =>
    exact hi.goto rfl rfl (by simp) (by simp [Request.place, Cmd.entry, CallPc.own])
      (by simp [Request.place, Cmd.entry, CallPc.fresh]) rfl (by
        simp [Request.place, Cmd.entry, HoldPlace, WorkerPlace])
  | start | restart | stop =>
    exact hi.goto rfl rfl (by simp) (by simp [Request.place, Cmd.entry, CallPc.own, Cmd.job])
      (by simp [Request.place, Cmd.entry, CallPc.fresh, Cmd.job]) rfl (by
        simp [Request.place, Cmd.entry, HoldPlace, WorkerPlace])

theorem HoldInv.enter {r : Request} (hi : HoldInv w (.enter r))
    (hs : w.callStep (.enter r) ok = some (w', pc')) : HoldInv w' pc' := by
  simp only [Worker.callStep] at hs
  split at hs
  · split at hs
    · simp only [Option.some.injEq, Prod.mk.injEq] at hs
      obtain ⟨rfl, rfl⟩ := hs
      exact hi.goto rfl rfl (by simp) (by simp [CallPc.own]) (by simp [CallPc.fresh])
        rfl trivial
    · split at hs
      · cases hs
      · simp only [Option.some.injEq, Prod.mk.injEq] at hs
        obtain ⟨rfl, rfl⟩ := hs
        exact hi.placed true
  · rename_i hr
    simp only [Option.some.injEq, Prod.mk.injEq] at hs
    obtain ⟨rfl, rfl⟩ := hs
    have hplaced := hi.placed w.locked
    cases r <;> simp [Request.isCommand] at hr <;> exact hplaced

/-- `update_status` is done: the call goes on. -/
theorem HoldInv.updated {status : WorkerStatus} (hi : HoldInv w pc)
    (hset : ∀ c j, pc ≠ .destroyJob c j ∧ pc ≠ .setJob c j)
    (hown : (CallPc.update c y).own = pc.own) (hfresh : (CallPc.update c y).fresh = pc.fresh)
    (hnew : pc.newRunner = none) (hc : y = .guard → c ≠ .getStatus)
    (hnone : w.job = none → status = .notAssigned)
    (hready : ∀ o, w.job = some o → Virgin w.core o → status = .assigned) :
    HoldInv { w with status := status } (c.updated y) := by
  cases y with
  | guard =>
    refine hi.goto rfl rfl hset ?_ ?_ ?_ ⟨hnone, hready, hc rfl⟩
    · exact fun j hj => hown ▸ hj
    · exact fun j hj => hfresh ▸ hj
    · rw [hnew]
      rfl
  | report =>
    refine hi.goto rfl rfl hset (by simp [Cmd.updated, CallPc.own])
      (by simp [Cmd.updated, CallPc.fresh]) ?_ trivial
    rw [hnew]
    rfl

theorem HoldInv.update (hi : HoldInv w (.update c y))
    (hs : w.callStep (.update c y) ok = some (w', pc')) : HoldInv w' pc' := by
  have hc := hi.place
  simp only [Worker.callStep] at hs
  split at hs <;> rename_i hj <;> simp only [Option.some.injEq, Prod.mk.injEq] at hs <;>
    obtain ⟨rfl, rfl⟩ := hs
  · exact hi.updated (by simp) rfl rfl rfl hc (fun _ => rfl) (by simp [hj])
  · cases y <;> exact hi.goto rfl rfl (by simp) (fun _ h => h) (fun _ h => h) rfl
      ⟨hj, ⟨rfl, by simp⟩, hc⟩

theorem HoldInv.scan {j k : Nat} {seen : List TaskStatus}
    (hi : HoldInv w (.scan c y j k seen))
    (hs : w.callStep (.scan c y j k seen) ok = some (w', pc')) : HoldInv w' pc' := by
  obtain ⟨hj, hscan, hc⟩ := hi.place
  simp only [Worker.callStep] at hs
  cases hst : (w.core.jobs j).taskStatus k with
  | some st =>
    simp only [hst, Option.some.injEq, Prod.mk.injEq] at hs
    obtain ⟨rfl, rfl⟩ := hs
    have hscan' : ScanOk w.core j (k + 1) (seen ++ [st]) := by
      refine ⟨by simp [hscan.length], fun hv x hx => ?_⟩
      rcases List.mem_append.mp hx with hx | hx
      · exact hscan.ready hv x hx
      · rw [List.mem_singleton.mp hx]
        exact hv.tasks k st hst
    cases y <;> exact hi.goto rfl rfl (by simp) (fun _ h => h) (fun _ h => h) rfl
      ⟨hj, hscan', hc⟩
  | none =>
    simp only [hst, Option.some.injEq, Prod.mk.injEq] at hs
    obtain ⟨rfl, rfl⟩ := hs
    cases y <;> exact hi.polled hscan (Job.taskStatus_none.mp hst) (by simp) rfl rfl rfl ⟨hj, hc⟩

theorem HoldInv.mapStatus {j : Nat} (hi : HoldInv w (.mapStatus c y j))
    (hs : w.callStep (.mapStatus c y j) ok = some (w', pc')) : HoldInv w' pc' := by
  obtain ⟨hj, hc⟩ := hi.place
  simp only [Worker.callStep, Option.some.injEq, Prod.mk.injEq] at hs
  obtain ⟨rfl, rfl⟩ := hs
  refine hi.updated (by simp) ?_ ?_ rfl hc (by simp [hj]) ?_
  · cases y <;> rfl
  · cases y <;> rfl
  · intro o ho hv
    obtain rfl : j = o := Option.some.inj (hj.symm.trans ho)
    rw [hv.status]
    rfl

/-- A call without a job of its own goes to the engine, or returns. -/
theorem HoldInv.chosen (hi : HoldInv w (.decide c)) (hown : pc'.own = none)
    (hfresh : pc'.fresh = none) (hnew : pc'.newRunner = none)
    (hplace : HoldPlace w pc') : HoldInv w pc' := by
  refine hi.goto rfl rfl (by simp) (by simp [hown]) (by simp [hfresh]) ?_ hplace
  rw [hnew]
  rfl

/-- `engine_run` on `worker->job`. -/
theorem HoldInv.runHeld (hi : HoldInv w (.decide c)) (hc : c.job = none)
    (hne : c ≠ .getStatus) (hs : c.runHeld w.job = some pc') : HoldInv w pc' := by
  unfold Cmd.runHeld at hs
  split at hs
  · rename_i j hj
    simp only [Option.some.injEq] at hs
    subst hs
    refine hi.chosen hc hc rfl ⟨?_, hne, fun j h => by simp [h, Cmd.job] at hc⟩
    simp [EnginePlace, hc, hj]
  · cases hs

/-- A status other than NOT_ASSIGNED and ASSIGNED is that of a job whose
runner is held. -/
theorem HoldInv.heldMatches (hi : HoldInv w (.decide c)) (h1 : w.status ≠ .notAssigned)
    (h2 : w.status ≠ .assigned) : ∀ r, w.core.jobRunner = some r → HeldMatches w r := by
  obtain ⟨hnone, hready, _⟩ := hi.place
  intro r hr
  cases hj : w.job with
  | none => exact absurd (hnone hj) h1
  | some o =>
    rcases hi.known o hj (by simp) with ⟨r', hr', hjob⟩ | hv | ⟨_, hn, _⟩
    · obtain rfl : r = r' := Option.some.inj (hr.symm.trans hr')
      exact ⟨hr, by rw [hj, hjob]⟩
    · exact absurd (hready o hj hv) h2
    · cases hn

theorem HoldInv.decide (hi : HoldInv w (.decide c))
    (hs : w.callStep (.decide c) ok = some (w', pc')) : HoldInv w' pc' := by
  have hrestart : ∀ c : Cmd, HoldInv w (.decide c) → c.job = none → c ≠ .getStatus →
      w.status ≠ .notAssigned → w.status ≠ .assigned →
      HoldInv w (.engine c (.load .restart)) := fun c hi hc hne h1 h2 =>
    hi.chosen hc rfl rfl ⟨⟨hc, Or.inl ⟨rfl, hi.heldMatches h1 h2⟩⟩, hne,
      fun j h => by simp [h, Cmd.job] at hc⟩
  simp only [Worker.callStep] at hs
  split at hs
  · rename_i pc heq
    simp only [Option.some.injEq, Prod.mk.injEq] at hs
    obtain ⟨rfl, rfl⟩ := hs
    cases c with
    | getStatus => simp [Cmd.choose] at heq
    | run j =>
      cases hst : w.status with
      | working =>
        simp only [Cmd.choose, hst, Option.some.injEq] at heq
        subst heq
        exact hi.goto rfl rfl (by simp) (by simp [CallPc.own]) (by simp [CallPc.fresh])
          rfl trivial
      | _ =>
        simp only [Cmd.choose, hst, Option.some.injEq] at heq
        subst heq
        exact hi.goto rfl rfl (by simp) (fun _ h => h) (fun _ h => h) rfl
          ⟨rfl, by simp, by simp⟩
    | assign j =>
      cases hst : w.status with
      | working =>
        simp only [Cmd.choose, hst, Option.some.injEq] at heq
        subst heq
        exact hi.goto rfl rfl (by simp) (by simp [CallPc.own]) (by simp [CallPc.fresh])
          rfl trivial
      | _ =>
        simp only [Cmd.choose, hst, Option.some.injEq] at heq
        subst heq
        exact hi.goto rfl rfl (by simp) (fun _ h => h) (fun _ h => h) rfl
          (Or.inr rfl)
    | start =>
      cases hst : w.status with
      | assigned =>
        simp only [Cmd.choose, hst] at heq
        exact hi.runHeld rfl (by simp) heq
      | notWorking =>
        simp only [Cmd.choose, hst, Option.some.injEq] at heq
        subst heq
        exact hrestart _ hi rfl (by simp) (by simp [hst]) (by simp [hst])
      | _ =>
        simp only [Cmd.choose, hst, Option.some.injEq] at heq
        subst heq
        exact hi.chosen rfl rfl rfl trivial
    | restart =>
      cases hst : w.status with
      | assigned =>
        simp only [Cmd.choose, hst] at heq
        exact hi.runHeld rfl (by simp) heq
      | notAssigned =>
        simp only [Cmd.choose, hst, Option.some.injEq] at heq
        subst heq
        exact hi.chosen rfl rfl rfl trivial
      | _ =>
        simp only [Cmd.choose, hst, Option.some.injEq] at heq
        subst heq
        exact hrestart _ hi rfl (by simp) (by simp [hst]) (by simp [hst])
    | stop =>
      cases hst : w.status with
      | working =>
        simp only [Cmd.choose, hst, Option.some.injEq] at heq
        subst heq
        exact hi.chosen rfl rfl rfl ⟨⟨rfl, Or.inr rfl⟩, by simp, by simp⟩
      | _ =>
        simp only [Cmd.choose, hst, Option.some.injEq] at heq
        subst heq
        exact hi.chosen rfl rfl rfl trivial
  · cases hs

/-! ## Steps in the engine -/

theorem Core.live_launch {c : Core} {j t : Nat} (ht : (c.launch j).Live t) :
    c.Live t ∨ t = c.nthreads := by
  obtain ⟨hlt, hx⟩ := ht
  rcases Nat.lt_succ_iff_lt_or_eq.mp hlt with hlt | rfl
  · exact Or.inl ⟨hlt, by rwa [c.launch_thread_lt j hlt] at hx⟩
  · exact Or.inr rfl

theorem Core.live_spawn {c : Core} {r t : Nat} (ht : (c.spawn r).Live t) :
    c.Live t ∨ t = c.nthreads := by
  obtain ⟨hlt, hx⟩ := ht
  rcases Nat.lt_succ_iff_lt_or_eq.mp hlt with hlt | rfl
  · exact Or.inl ⟨hlt, by rwa [c.spawn_thread_lt r hlt] at hx⟩
  · exact Or.inr rfl

/-- The engine returns to a call that has no job of its own, or to a
`worker_run` that it could not serve. -/
theorem HoldInv.engineDone {epc : EnginePc} (hi : HoldInv w (.engine c epc))
    (hc : c.job = none ∨ ok = false)
    (hnew : (CallPc.engine c epc).newRunner = none) : HoldInv w (c.engineDone ok) := by
  have hplace := hi.place.2
  have hgoto : ∀ pc' : CallPc, pc'.own = none → pc'.fresh = none → pc'.newRunner = none →
      HoldPlace w pc' → HoldInv w pc' := by
    intro pc' h1 h2 h3 h4
    refine hi.goto rfl rfl (by simp) (by simp [h1]) (by simp [h2]) ?_ h4
    rw [h3, hnew]
  cases c with
  | run j =>
    rcases hc with hc | rfl
    · cases hc
    · exact hgoto _ rfl rfl rfl trivial
  | getStatus => exact absurd rfl hplace.1
  | assign j => exact absurd rfl (hplace.2 j)
  | start | restart | stop => exact hgoto _ rfl rfl rfl trivial

/-- The job that `engine_run` is given exists. -/
theorem HoldInv.target_lt {j : Nat} (hi : HoldInv w (.engine c (.create j))) :
    j < w.core.njobs ∧ w.core.jobFreed j = false := by
  have hplace : c.job.or w.job = some j := hi.place.1
  cases hc : c.job with
  | none =>
    rw [hc, Option.none_or] at hplace
    exact ⟨hi.held j hplace, hi.alive j hplace (by simp)⟩
  | some j' =>
    rw [hc, Option.some_or, Option.some.injEq] at hplace
    subst hplace
    exact ⟨(hi.own j' hc).1, (hi.own j' hc).2.1⟩

theorem HoldInv.launch {j : Nat} (hi : HoldInv w (.engine c (.create j))) :
    HoldInv { w with core := w.core.launch j } (.engine c (.swap w.core.nrunners)) := by
  have htarget : c.job.or w.job = some j := hi.place.1
  have hrunner : ∀ t, w.core.Live t →
      ((w.core.launch j).threads t).runner = (w.core.threads t).runner := fun t ht => by
    rw [w.core.launch_thread_lt j ht.1]
  refine ⟨hi.core.launch hi.target_lt.1, hi.held, ?_, hi.own, by simp [CallPc.fresh], ?_, ?_,
    hi.unused, ⟨?_, ?_, ?_⟩, hi.place.2⟩
  · exact fun o ho _ => hi.alive o ho (by simp)
  · intro t ht
    rcases Core.live_launch ht with ht | rfl
    · rw [hrunner t ht]
      exact (hi.runners t ht).imp_right (by simp [CallPc.newRunner])
    · exact Or.inr (by simp [CallPc.newRunner])
  · intro o ho _
    rcases hi.known o ho (by simp) with ⟨r, hr, hjob⟩ | hv | ⟨_, hn, _⟩
    · refine Or.inl ⟨r, hr, ?_⟩
      rw [w.core.launch_runner_lt j (hi.core.held_lt r hr), hjob]
    · by_cases hoj : o = j
      · exact Or.inr (Or.inr ⟨_, rfl, by simp [hoj]⟩)
      · refine Or.inr (Or.inl ⟨fun r hr => ?_, hv.tasks, hv.status⟩)
        rcases Nat.lt_succ_iff_lt_or_eq.mp hr with hr | rfl
        · rw [w.core.launch_runner_lt j hr]
          exact hv.runner r hr
        · simpa using Ne.symm hoj
    · cases hn
  · exact Nat.lt_succ_self _
  · exact fun hr => Nat.lt_irrefl _ (hi.core.held_lt _ hr)
  · simpa using htarget

/-- The new runner becomes the held one. -/
theorem HoldInv.store {new : Nat} (hi : HoldInv w (.engine c (.store new))) :
    HoldInv { w with core := w.core.setJobRunner new } (c.engineDone true) := by
  obtain ⟨⟨⟨hlt, _, htarget⟩, hexited⟩, hne1, hne2⟩ := hi.place
  have hrunner : ∀ t, w.core.Live t → (w.core.threads t).runner = new := by
    intro t ht
    rcases hi.runners t ht with h | h
    · have hx := hexited _ h
      rw [← hi.core.live_tid ht] at hx
      exact absurd hx ht.2
    · exact (Option.some.inj h).symm
  have hcore := hi.core.setJobRunner hlt
  have hheld : ∀ t, w.core.Live t → some new = some (w.core.threads t).runner :=
    fun t ht => by rw [hrunner t ht]
  cases c with
  | getStatus => exact absurd rfl hne1
  | assign j => exact absurd rfl (hne2 j)
  | run j =>
    have hjob : (w.core.runners new).job = j := by simpa [Cmd.job, eq_comm] using htarget
    refine ⟨hcore, hi.held, ?_, hi.own, by simp [Cmd.engineDone, CallPc.fresh], ?_, ?_,
      hi.unused, Or.inl ⟨rfl, new, rfl, hjob⟩⟩
    · exact fun o ho _ => hi.alive o ho (by simp)
    · exact fun t ht => Or.inl (hheld t ht)
    · exact fun o ho hset => absurd rfl (hset (.run j) j).1
  | start | restart | stop =>
    have hjob : w.job = some (w.core.runners new).job := by simpa [Cmd.job] using htarget
    refine ⟨hcore, hi.held, ?_, by simp [Cmd.engineDone, CallPc.own],
      by simp [Cmd.engineDone, CallPc.fresh], ?_, ?_, hi.unused, trivial⟩
    · exact fun o ho _ => hi.alive o ho (by simp)
    · exact fun t ht => Or.inl (hheld t ht)
    · intro o ho _
      refine Or.inl ⟨new, rfl, ?_⟩
      exact Option.some.inj (hjob.symm.trans ho)

/-- `job_runner_restart` has a new thread. -/
theorem HoldInv.respawn {r : Nat} (hi : HoldInv w (.engine c (.recreate r))) :
    HoldInv { w with core := w.core.spawn r } (c.engineDone true) := by
  obtain ⟨⟨⟨hr, hjob⟩, hexited, hc⟩, hne1, hne2⟩ := hi.place
  have hlt := hi.core.held_lt r hr
  have hret : c.engineDone true = .returned c none := by
    cases c <;> simp_all [Cmd.engineDone, Cmd.job]
  rw [hret]
  refine ⟨hi.core.spawn hlt (hexited r hr), hi.held, ?_, by simp [CallPc.own],
    by simp [CallPc.fresh], ?_, ?_, hi.unused, trivial⟩
  · exact fun o ho _ => hi.alive o ho (by simp)
  · intro t ht
    rcases Core.live_spawn ht with ht | rfl
    · rw [w.core.spawn_thread_lt r ht.1]
      exact (hi.runners t ht).imp_right (by simp [CallPc.newRunner])
    · exact Or.inl (by simpa using hr)
  · intro o ho _
    refine Or.inl ⟨r, hr, ?_⟩
    rw [w.core.spawn_job]
    exact Option.some.inj (hjob.symm.trans ho)

/-- A step in the engine that leaves the runners as they are. -/
theorem HoldInv.engineGoto {epc epc' : EnginePc} {c' : Core} (hi : HoldInv w (.engine c epc))
    (hs : Core.Still w.core c') (hcore : CoreInv c')
    (hfresh : (CallPc.engine c epc').fresh = none)
    (hnew : (CallPc.engine c epc').newRunner = (CallPc.engine c epc).newRunner)
    (hplace : EnginePlace { w with core := c' } c epc') :
    HoldInv { w with core := c' } (.engine c epc') :=
  (hi.still hs hcore).goto rfl rfl (by simp) (fun _ h => h) (by simp [hfresh]) hnew
    ⟨hplace, hi.place.2⟩

theorem Core.Still.refl (c : Core) : Core.Still c c :=
  ⟨rfl, rfl, rfl, rfl, fun _ => rfl, fun _ => rfl, fun _ => rfl, fun _ => id, fun _ => id,
    fun _ => Iff.rfl⟩

/-- `pthread_join` returns. -/
theorem HoldInv.join {r : Nat} {k : After} (hi : HoldInv w (.engine c (.join r k)))
    (hx : (w.core.threads (w.core.tid r)).body.pc = .exited) :
    match k.next r with
    | .done ok => HoldInv { w with core := w.core.join (w.core.tid r) } (c.engineDone ok)
    | epc => HoldInv { w with core := w.core.join (w.core.tid r) } (.engine c epc) := by
  obtain ⟨⟨hr, hnew, hrec, hret, hfree⟩, _⟩ := hi.place
  have hs := Core.Still.join w.core (w.core.tid r)
  have hcore := hi.core.join hx
  have hexited : HeldExited (w.core.join (w.core.tid r)) := by
    intro r' hr'
    obtain rfl : r = r' := Option.some.inj (hr.symm.trans hr')
    exact hs.exited _ hx
  cases k with
  | free new =>
    exact hi.engineGoto hs hcore rfl rfl ⟨hr, hs.newOk.mpr (hnew new rfl), hexited⟩
  | recreate =>
    exact hi.engineGoto hs hcore rfl rfl
      ⟨hs.heldMatches.mpr (hrec rfl).1, hexited, (hrec rfl).2⟩
  | «return» => exact (hi.still hs hcore).engineDone (Or.inl (hret rfl)) rfl
  | freeEngine => exact absurd rfl hfree

theorem HoldInv.engine {epc : EnginePc} (hi : HoldInv w (.engine c epc))
    (hs : w.callStep (.engine c epc) ok = some (w', pc')) : HoldInv w' pc' := by
  have hplace := hi.place.1
  have hrefl := Core.Still.refl w.core
  simp only [Worker.callStep] at hs
  cases epc with
  | create j =>
    simp only [engineStep] at hs
    by_cases hz : (w.core.jobs j).size = 0 ∨ ok = false
    · simp only [hz, if_true, Option.some.injEq, Prod.mk.injEq] at hs
      obtain ⟨rfl, rfl⟩ := hs
      exact hi.engineDone (Or.inr rfl) rfl
    · simp only [hz, if_false, Option.some.injEq, Prod.mk.injEq] at hs
      obtain ⟨rfl, rfl⟩ := hs
      exact hi.launch
  | swap new =>
    cases hr : w.core.jobRunner with
    | none =>
      simp only [engineStep, hr, Option.some.injEq, Prod.mk.injEq] at hs
      obtain ⟨rfl, rfl⟩ := hs
      exact hi.engineGoto hrefl hi.core rfl rfl ⟨hplace, fun r h => by simp [hr] at h⟩
    | some r =>
      simp only [engineStep, hr, Option.some.injEq, Prod.mk.injEq] at hs
      obtain ⟨rfl, rfl⟩ := hs
      exact hi.engineGoto hrefl hi.core rfl rfl
        ⟨hr, fun n hn => by cases hn; exact hplace, by simp, by simp, by simp⟩
  | load call =>
    obtain ⟨hc, hcall⟩ := hplace
    simp only [engineStep] at hs
    cases hr : w.core.jobRunner with
    | none =>
      rcases hcall with ⟨rfl, _⟩ | rfl <;>
        simp only [hr, EngineCall.loaded, Option.some.injEq, Prod.mk.injEq] at hs <;>
        obtain ⟨rfl, rfl⟩ := hs <;> exact hi.engineDone (Or.inl hc) rfl
    | some r =>
      rcases hcall with ⟨rfl, hm⟩ | rfl <;>
        simp only [hr, EngineCall.loaded, Option.some.injEq, Prod.mk.injEq] at hs <;>
        obtain ⟨rfl, rfl⟩ := hs
      · exact hi.engineGoto hrefl hi.core rfl rfl
          ⟨hr, by simp, fun _ => ⟨hm r hr, hc⟩, by simp, by simp⟩
      · exact hi.engineGoto hrefl hi.core rfl rfl ⟨hr, by simp, by simp, fun _ => hc, by simp⟩
  | cancel r k =>
    simp only [engineStep, Option.some.injEq, Prod.mk.injEq] at hs
    obtain ⟨rfl, rfl⟩ := hs
    have hst := Core.Still.cancel w.core (w.core.tid r)
    have hjoin : EnginePlace w c (.join r k) := hplace
    exact hi.engineGoto hst (hi.core.cancel _) rfl (by cases k <;> rfl) (hst.enginePlace hjoin)
  | join r k =>
    simp only [engineStep] at hs
    by_cases hx : (w.core.threads (w.core.tid r)).body.pc = .exited
    · have hj := hi.join hx
      simp only [hx, if_true] at hs
      cases k <;> simp only [After.next, Option.some.injEq, Prod.mk.injEq] at hs <;>
        obtain ⟨rfl, rfl⟩ := hs <;> exact hj
    · simp [hx] at hs
  | free r new =>
    obtain ⟨hr, hnew, hexited⟩ := hplace
    simp only [engineStep, Option.some.injEq, Prod.mk.injEq] at hs
    obtain ⟨rfl, rfl⟩ := hs
    have hst : Core.Still w.core (w.core.freeRunner r) :=
      .of_frame (.freeRunner w.core r) rfl rfl rfl rfl
    exact hi.engineGoto hst (hi.core.freeRunner r) rfl rfl
      ⟨hst.newOk.mpr hnew, hst.heldExited hexited⟩
  | store new =>
    simp only [engineStep, Option.some.injEq, Prod.mk.injEq] at hs
    obtain ⟨rfl, rfl⟩ := hs
    exact hi.store
  | recreate r =>
    simp only [engineStep, Option.some.injEq, Prod.mk.injEq] at hs
    obtain ⟨rfl, rfl⟩ := hs
    cases ok with
    | true => exact hi.respawn
    | false => exact hi.engineDone (Or.inl hplace.2.2) rfl
  | freeEngine | done b => exact hplace.elim

/-- `job_destroy(worker->job)`. -/
theorem HoldInv.destroyJob {j : Nat} (hi : HoldInv w (.destroyJob c j)) :
    HoldInv { w with core := w.core.destroyJob w.job } (.setJob c j) := by
  have hf := Core.Frame.destroyJob w.core w.job
  have hcore : CoreInv (w.core.destroyJob w.job) := by
    refine hi.core.frame hf ?_ ?_
    · cases w.job <;> exact hi.core.held_lt
    · cases w.job <;> exact fun _ _ hj => Or.inl hj
  have hfreed : ∀ i, w.job ≠ some i → (w.core.destroyJob w.job).jobFreed i = w.core.jobFreed i := by
    intro i hne
    cases ho : w.job with
    | none => rfl
    | some o =>
      have hio : i ≠ o := fun h => hne (by rw [ho, h])
      simp [Core.destroyJob, hio]
  have hjobs : (w.core.destroyJob w.job).jobs = w.core.jobs := by cases w.job <;> rfl
  have hrun : (w.core.destroyJob w.job).jobRunner = w.core.jobRunner := by cases w.job <;> rfl
  have hn : (w.core.destroyJob w.job).njobs = w.core.njobs := by cases w.job <;> rfl
  refine ⟨hcore, ?_, ?_, ?_, ?_, ?_, ?_, ?_, ?_⟩
  · rw [hn]
    exact hi.held
  · exact fun o _ hset => absurd rfl (hset c j)
  · intro i hi'
    obtain ⟨h1, h2, h3⟩ := hi.own i hi'
    rw [hn, hfreed i h3]
    exact ⟨h1, h2, h3⟩
  · intro i hi'
    have hv := hi.fresh i (by cases c <;> exact hi')
    refine ⟨fun r hr => ?_, by rw [hjobs]; exact hv.tasks, by rw [hjobs]; exact hv.status⟩
    rw [hf.job]
    exact hv.runner r (hf.nrunners ▸ hr)
  · intro t ht
    rw [hrun, hf.runner]
    exact (hi.runners t (hf.live_iff.mp ht)).imp_right (by simp [CallPc.newRunner])
  · exact fun o _ hset => absurd rfl (hset c j).2
  · intro i hge
    rw [hn] at hge
    rw [hfreed i fun ho => Nat.not_lt.mpr hge (hi.held i ho)]
    exact hi.unused i hge
  · refine hi.place.imp_left fun h => ⟨h.1, ?_⟩
    obtain ⟨r, hr, hjob⟩ := h.2
    exact ⟨r, hrun.trans hr, (hf.job r).trans hjob⟩

/-- `worker->job = job`. -/
theorem HoldInv.setJob {j : Nat} (hi : HoldInv w (.setJob c j)) :
    HoldInv { w with job := some j } (.update c .report) := by
  obtain ⟨hlt, hfreed, _⟩ := hi.own j rfl
  have hsome : ∀ o, some j = some o → o = j := fun o h => (Option.some.inj h).symm
  refine ⟨hi.core, ?_, ?_, by simp [CallPc.own], by simp [CallPc.fresh], ?_, ?_, hi.unused,
    by simp [HoldPlace, WorkerPlace]⟩
  · exact fun o ho => hsome o ho ▸ hlt
  · exact fun o ho _ => hsome o ho ▸ hfreed
  · exact fun t ht => (hi.runners t ht).imp_right (by simp [CallPc.newRunner])
  · intro o ho _
    obtain rfl := hsome o ho
    rcases hi.place with ⟨_, hm⟩ | rfl
    · exact Or.inl hm
    · exact Or.inr (Or.inl (hi.fresh o rfl))

/-- `get_status` once the status is derived. -/
theorem Worker.callStep_encode (hs : w.callStep (.encode c) ok = some (w', pc')) :
    (w' = w ∧ ∃ report, pc' = .unlock c report) ∨
      (w' = w ∧ ∃ j, w.job = some j ∧ pc' = .encodeScan c w.status j 0 []) := by
  simp only [Worker.callStep] at hs
  split at hs
  · cases hs
    exact Or.inl ⟨rfl, _, rfl⟩
  · split at hs <;> rename_i hj <;> cases hs
    · exact Or.inl ⟨rfl, _, rfl⟩
    · exact Or.inr ⟨rfl, _, hj, rfl⟩

/-- The loop of `job_encode_status` only reads. -/
theorem Worker.callStep_encodeTasks {st : WorkerStatus} {j k : Nat} {report : JobReport}
    (hs : w.callStep (.encodeTasks c st j k report) ok = some (w', pc')) :
    w' = w ∧ ((∃ report', pc' = .encodeTasks c st j (k + 1) report') ∨
      ∃ report', pc' = .unlock c report') := by
  simp only [Worker.callStep] at hs
  split at hs <;> cases hs
  · exact ⟨rfl, Or.inl ⟨_, rfl⟩⟩
  · exact ⟨rfl, Or.inr ⟨_, rfl⟩⟩

/-- Every step of a call keeps it. -/
theorem HoldInv.callStep (hi : HoldInv w pc)
    (hs : w.callStep pc ok = some (w', pc')) : HoldInv w' pc' := by
  cases pc with
  | idle | returned c report => simp [Worker.callStep] at hs
  | enter r => exact hi.enter hs
  | update c y => exact hi.update hs
  | scan c y j k seen => exact hi.scan hs
  | mapStatus c y j => exact hi.mapStatus hs
  | decide c => exact hi.decide hs
  | engine c epc => exact hi.engine hs
  | destroyJob c j =>
    simp only [Worker.callStep, Option.some.injEq, Prod.mk.injEq] at hs
    obtain ⟨rfl, rfl⟩ := hs
    exact hi.destroyJob
  | setJob c j =>
    simp only [Worker.callStep, Option.some.injEq, Prod.mk.injEq] at hs
    obtain ⟨rfl, rfl⟩ := hs
    exact hi.setJob
  | encode c =>
    rcases Worker.callStep_encode hs with ⟨rfl, report, rfl⟩ | ⟨rfl, j, hj, rfl⟩
    · exact hi.goto rfl rfl (by simp) (by simp [CallPc.own]) (by simp [CallPc.fresh]) rfl trivial
    · exact hi.goto rfl rfl (by simp) (by simp [CallPc.own]) (by simp [CallPc.fresh]) rfl ⟨hj, rfl, by simp⟩
  | encodeScan c st j k seen =>
    obtain ⟨hj, hscan⟩ := hi.place
    simp only [Worker.callStep] at hs
    split at hs <;> rename_i hst <;> simp only [Option.some.injEq, Prod.mk.injEq] at hs <;>
      obtain ⟨rfl, rfl⟩ := hs
    · refine hi.goto rfl rfl (by simp) (by simp [CallPc.own]) (by simp [CallPc.fresh])
        rfl ⟨hj, by simp [hscan.length], fun hv x hx => ?_⟩
      rcases List.mem_append.mp hx with hx | hx
      · exact hscan.ready hv x hx
      · rw [List.mem_singleton.mp hx]
        exact hv.tasks k _ hst
    · exact hi.polled hscan (Job.taskStatus_none.mp hst) (by simp) rfl rfl rfl trivial
  | encodeStatus c st j =>
    simp only [Worker.callStep, Option.some.injEq, Prod.mk.injEq] at hs
    obtain ⟨rfl, rfl⟩ := hs
    exact hi.goto rfl rfl (by simp) (by simp [CallPc.own]) (by simp [CallPc.fresh]) rfl trivial
  | encodeTasks c st j k report =>
    obtain ⟨rfl, ⟨report', rfl⟩ | ⟨report', rfl⟩⟩ := Worker.callStep_encodeTasks hs
    · exact hi.goto rfl rfl (by simp) (by simp [CallPc.own]) (by simp [CallPc.fresh]) rfl trivial
    · exact hi.goto rfl rfl (by simp) (by simp [CallPc.own]) (by simp [CallPc.fresh]) rfl trivial
  | unlock c report =>
    simp only [Worker.callStep, Option.some.injEq, Prod.mk.injEq] at hs
    obtain ⟨rfl, rfl⟩ := hs
    exact hi.goto rfl rfl (by simp) (by simp [CallPc.own]) (by simp [CallPc.fresh]) rfl trivial

/-- A step of a thread keeps it too. -/
theorem HoldInv.threadStep {t : Nat} {l : JobExec.Label} {c' : Core} (hi : HoldInv w pc)
    (hs : w.core.threadStep t l = some c') : HoldInv { w with core := c' } pc :=
  hi.still (.threadStep hi.core hs) (hi.core.threadStep hs)

/-- A call begins. -/
theorem HoldInv.call {r : Request} (hi : HoldInv w pc)
    (hpc : pc = .idle ∨ ∃ c report, pc = .returned c report) : HoldInv w (.enter r) := by
  rcases hpc with rfl | ⟨c, report, rfl⟩
  · exact hi.goto rfl rfl (by simp) (by simp [CallPc.own]) (by simp [CallPc.fresh]) rfl trivial
  · exact hi.goto rfl rfl (by simp) (by simp [CallPc.own]) (by simp [CallPc.fresh]) rfl trivial

/-! ## The job that a thread iterates -/

/-- A live thread iterates `worker->job` or the job of the command, and
there is none when `worker_assign` replaces `worker->job`. -/
structure OnJobs (w : Worker) (pc : CallPc) : Prop where
  jobs : ∀ t, w.core.Live t → w.job = some (w.core.jobOf t) ∨ pc.own = some (w.core.jobOf t)
  quiet : ∀ i j, pc = .destroyJob (.assign i) j ∨ pc = .setJob (.assign i) j → Quiet w.core

theorem WorkerInv.hold (hi : WorkerInv w pc) : HoldInv w pc := by
  refine ⟨hi.core, hi.held, hi.alive, hi.own, hi.fresh, hi.runners, hi.known, hi.unused, ?_⟩
  have hplace := hi.place
  cases pc with
  | destroyJob c j | setJob c j => exact hplace.imp_right And.left
  | _ => exact hplace

theorem WorkerInv.onJobs (hi : WorkerInv w pc) : OnJobs w pc := by
  refine ⟨hi.jobs, ?_⟩
  have hplace := hi.place
  rintro i j (rfl | rfl) <;> exact (hplace.resolve_left (by simp)).2

theorem HoldInv.worker (hi : HoldInv w pc) (ho : OnJobs w pc) : WorkerInv w pc := by
  refine ⟨hi.core, hi.held, hi.alive, hi.own, hi.fresh, hi.runners, ho.jobs, hi.known, hi.unused, ?_⟩
  have hplace := hi.place
  have hquiet := ho.quiet
  cases pc with
  | destroyJob c j | setJob c j =>
    rcases hplace with h | rfl
    · exact Or.inl h
    · exact Or.inr ⟨rfl, hquiet j j (by simp)⟩
  | _ => exact hplace

/-- `worker_assign` passes its guard only when no thread iterates
`worker->job`. -/
def AssignQuiet (w : Worker) (pc : CallPc) : Prop :=
  ∀ j, pc = .decide (.assign j) → w.status ≠ .working →
    ∀ t, w.core.Live t → w.job ≠ some (w.core.jobOf t)

/-- Before a runner is created for its job, a command finds all live
threads on `worker->job`. -/
theorem WorkerInv.jobs_of_fresh (hi : WorkerInv w pc) (hf : pc.own = pc.fresh) {t : Nat}
    (ht : w.core.Live t) : w.job = some (w.core.jobOf t) := by
  rcases hi.jobs t ht with h | h
  · exact h
  · exact absurd rfl ((hi.fresh _ (hf ▸ h)).jobOf_ne hi.core ht)

theorem OnJobs.goto (ho : OnJobs w pc) (hi : HoldInv w pc)
    (hlive : ∀ t, w'.core.Live t → w.core.Live t ∧ w'.core.jobOf t = w.core.jobOf t)
    (hjob : w'.job = w.job) (hown : pc'.own = pc.own ∨ pc.own = pc.fresh)
    (hset : ∀ c j, pc' ≠ .destroyJob c j ∧ pc' ≠ .setJob c j) : OnJobs w' pc' := by
  refine ⟨fun t ht => ?_, fun i j hpc => ?_⟩
  · obtain ⟨hold, hof⟩ := hlive t ht
    rw [hof, hjob]
    rcases hown with heq | heq
    · rw [heq]
      exact ho.jobs t hold
    · exact Or.inl ((hi.worker ho).jobs_of_fresh heq hold)
  · rcases hpc with hpc | hpc
    · exact absurd hpc (hset _ _).1
    · exact absurd hpc (hset _ _).2

/-- Where a call is after a step of the engine. -/
def Cmd.afterEngine (c : Cmd) : EnginePc → CallPc
  | .done ok => c.engineDone ok
  | pc => .engine c pc

theorem Worker.callStep_engine {epc : EnginePc}
    (hs : w.callStep (.engine c epc) ok = some (w', pc')) :
    ∃ core' epc', engineStep w.core epc ok = some (core', epc') ∧
      w' = { w with core := core' } ∧ pc' = c.afterEngine epc' := by
  simp only [Worker.callStep] at hs
  split at hs
  · rename_i core' b he
    simp only [Option.some.injEq, Prod.mk.injEq] at hs
    exact ⟨core', .done b, he, hs.1.symm, hs.2.symm⟩
  · rename_i core' epc' hne he
    simp only [Option.some.injEq, Prod.mk.injEq] at hs
    refine ⟨core', epc', he, hs.1.symm, ?_⟩
    rw [← hs.2]
    cases epc' with
    | done b => exact absurd rfl (hne b)
    | _ => rfl
  · cases hs

/-- `engine_run` fails where `job_run` does, and nowhere else. -/
theorem engineStep_done {core core' : Core} {epc : EnginePc} {b : Bool}
    (hs : engineStep core epc ok = some (core', .done b)) :
    b = false ↔ ∃ j, epc = .create j ∧ ((core.jobs j).size = 0 ∨ ok = false) := by
  cases epc with
  | create j =>
    simp only [engineStep] at hs
    split at hs
    · rename_i h
      cases hs
      exact ⟨fun _ => ⟨j, rfl, h⟩, fun _ => rfl⟩
    · cases hs
  | swap new =>
    simp only [engineStep] at hs
    split at hs <;> cases hs
  | load call =>
    cases call <;> cases hr : core.jobRunner <;>
      simp_all [engineStep, EngineCall.loaded]
  | join r k =>
    simp only [engineStep] at hs
    split at hs
    · cases k <;> simp_all [After.next]
    · cases hs
  | _ => simp_all [engineStep]

/-- Which threads are live after a step of the engine. -/
theorem engineStep_live {core core' : Core} {epc epc' : EnginePc} {t : Nat} (hc : CoreInv core)
    (hs : engineStep core epc ok = some (core', epc')) (ht : core'.Live t) :
    (core.Live t ∧ core'.jobOf t = core.jobOf t) ∨
      (∃ j, epc = .create j ∧ epc' = .swap core.nrunners ∧ core'.jobOf t = j) ∨
      ∃ r, epc = .recreate r ∧ core'.jobOf t = (core.runners r).job := by
  have hframe : ∀ core', Core.Frame core core' → core'.Live t →
      core.Live t ∧ core'.jobOf t = core.jobOf t := fun core' hf ht => ⟨hf.live_iff.mp ht, hf.jobOf t⟩
  cases epc with
  | create j =>
    simp only [engineStep] at hs
    split at hs <;> cases hs
    · exact Or.inl ⟨ht, rfl⟩
    · rcases Core.live_launch ht with hold | rfl
      · refine Or.inl ⟨hold, ?_⟩
        rw [Core.jobOf, Core.jobOf, core.launch_thread_lt j hold.1,
          core.launch_runner_lt j (hc.runner_lt t hold.1)]
      · exact Or.inr (Or.inl ⟨j, rfl, rfl, by simp [Core.jobOf]⟩)
  | recreate r =>
    simp only [engineStep, Option.some.injEq, Prod.mk.injEq] at hs
    obtain ⟨rfl, _⟩ := hs
    cases ok with
    | false => exact Or.inl ⟨ht, rfl⟩
    | true =>
      rcases Core.live_spawn ht with hold | rfl
      · refine Or.inl ⟨hold, ?_⟩
        simp only [if_true, Core.jobOf, core.spawn_thread_lt r hold.1, core.spawn_job]
      · exact Or.inr (Or.inr ⟨r, rfl, by simp [Core.jobOf]⟩)
  | swap new =>
    simp only [engineStep] at hs
    split at hs <;> cases hs <;> exact Or.inl ⟨ht, rfl⟩
  | load call | freeEngine =>
    cases hs
    exact Or.inl ⟨ht, rfl⟩
  | cancel r k =>
    cases hs
    exact Or.inl (hframe _ (.cancel core _) ht)
  | join r k =>
    simp only [engineStep] at hs
    split at hs <;> cases hs
    exact Or.inl (hframe _ (.join core _) ht)
  | free r new =>
    cases hs
    exact Or.inl (hframe _ (.freeRunner core r) ht)
  | store new =>
    cases hs
    exact Or.inl (hframe _ (.setJobRunner core new) ht)
  | done b => cases hs

/-- A step that changes neither the threads nor `worker->job`, up to
`engine_run`. -/
theorem OnJobs.frame (ho : OnJobs w pc) (hi : HoldInv w pc) (hf : Core.Frame w.core w'.core)
    (hjob : w'.job = w.job) (hown : pc.own = pc.fresh)
    (hset : ∀ c j, pc' ≠ .destroyJob c j ∧ pc' ≠ .setJob c j) : OnJobs w' pc' :=
  ho.goto hi (fun t ht => ⟨hf.live_iff.mp ht, hf.jobOf t⟩) hjob (Or.inr hown) hset

theorem OnJobs.enter {r : Request} (ho : OnJobs w (.enter r)) (hi : HoldInv w (.enter r))
    (hs : w.callStep (.enter r) ok = some (w', pc')) : OnJobs w' pc' := by
  have hf : Core.Frame w.core (r.place w.core).1 := by
    cases r with
    | run job | assign job => exact .newJob _ _
    | _ => exact .refl _
  have hentry : ∀ c j, (r.place w.core).2.entry ≠ .destroyJob c j ∧
      (r.place w.core).2.entry ≠ .setJob c j := by
    cases r <;> simp [Request.place, Cmd.entry]
  simp only [Worker.callStep] at hs
  split at hs
  · split at hs
    · cases hs
      exact ho.frame hi (.refl _) rfl rfl (by simp)
    · split at hs <;> cases hs
      exact ho.frame hi hf rfl rfl hentry
  · cases hs
    exact ho.frame hi (.refl _) rfl rfl hentry

theorem OnJobs.decide (ho : OnJobs w (.decide c)) (hi : HoldInv w (.decide c))
    (hq : AssignQuiet w (.decide c)) (hs : w.callStep (.decide c) ok = some (w', pc')) :
    OnJobs w' pc' := by
  simp only [Worker.callStep] at hs
  split at hs <;> cases hs
  rename_i pc heq
  by_cases hassign : ∃ j, c = .assign j ∧ w.status ≠ .working
  · obtain ⟨j, rfl, hst⟩ := hassign
    have hquiet : Quiet w.core := fun t ht =>
      hq j rfl hst t ht ((hi.worker ho).jobs_of_fresh rfl ht)
    exact ⟨fun t ht => absurd ht (hquiet t), fun _ _ _ => hquiet⟩
  · refine ho.frame hi (.refl _) rfl rfl ?_
    cases c <;> cases hst : w.status <;> simp only [Cmd.choose, hst, Cmd.runHeld] at heq
    all_goals try split at heq
    all_goals simp only [Option.some.injEq, reduceCtorEq] at heq
    all_goals try subst heq
    all_goals simp [hst] at hassign ⊢

theorem OnJobs.engine {epc : EnginePc} (ho : OnJobs w (.engine c epc))
    (hi : HoldInv w (.engine c epc)) (hs : w.callStep (.engine c epc) ok = some (w', pc')) :
    OnJobs w' pc' := by
  obtain ⟨hplace, hne1, hne2⟩ := hi.place
  obtain ⟨core', epc', he, rfl, rfl⟩ := Worker.callStep_engine hs
  have hown : (c.afterEngine epc').own = c.job ∨ (c.job = (CallPc.engine c epc).fresh) := by
    cases epc' with
    | done b =>
      cases c with
      | run j =>
        cases b with
        | true => exact Or.inl rfl
        | false =>
          obtain ⟨i, rfl, _⟩ := (engineStep_done he).mp rfl
          exact Or.inr rfl
      | assign j => exact absurd rfl (hne2 j)
      | _ => exact Or.inl rfl
    | _ => exact Or.inl rfl
  have hset : ∀ i j, c.afterEngine epc' ≠ .destroyJob (.assign i) j ∧
      c.afterEngine epc' ≠ .setJob (.assign i) j := by
    intro i j
    cases epc' with
    | done b => cases c <;> cases b <;> simp [Cmd.afterEngine, Cmd.engineDone]
    | _ => simp [Cmd.afterEngine]
  refine ⟨fun t ht => ?_, fun i j hpc => (hpc.elim (hset i j).1 (hset i j).2).elim⟩
  rcases engineStep_live hi.core he ht with ⟨hold, hof⟩ | ⟨j, rfl, rfl, hof⟩ | ⟨r, rfl, hof⟩
  · rw [hof]
    rcases hown with heq | heq
    · rw [heq]
      exact ho.jobs t hold
    · exact Or.inl ((hi.worker ho).jobs_of_fresh heq hold)
  · have htarget : c.job.or w.job = some j := hplace
    rw [hof]
    cases hc : c.job with
    | none =>
      rw [hc, Option.none_or] at htarget
      exact Or.inl htarget
    | some j' =>
      rw [hc, Option.some_or] at htarget
      exact Or.inr (hc.trans htarget)
  · rw [hof]
    exact Or.inl hplace.1.2

theorem OnJobs.setJob {j : Nat} (ho : OnJobs w (.setJob c j)) (hi : HoldInv w (.setJob c j)) :
    OnJobs { w with job := some j } (.update c .report) := by
  refine ⟨fun t ht => ?_, fun _ _ hpc => by simp at hpc⟩
  rcases hi.place with ⟨_, r, hr, hjob⟩ | rfl
  · rcases hi.runners t ht with h | h
    · obtain rfl : r = (w.core.threads t).runner := Option.some.inj (hr.symm.trans h)
      rw [Core.jobOf, hjob]
      exact Or.inl rfl
    · cases h
  · exact absurd ht (ho.quiet j j (Or.inr rfl) t)

theorem OnJobs.callStep (ho : OnJobs w pc) (hi : HoldInv w pc) (hq : AssignQuiet w pc)
    (hs : w.callStep pc ok = some (w', pc')) : OnJobs w' pc' := by
  cases pc with
  | idle | returned c report => simp [Worker.callStep] at hs
  | enter r => exact ho.enter hi hs
  | update c y =>
    have hset : ∀ c' j, c.updated y ≠ .destroyJob c' j ∧ c.updated y ≠ .setJob c' j := by
      cases y <;> simp [Cmd.updated]
    simp only [Worker.callStep] at hs
    split at hs <;> cases hs
    · exact ho.frame hi (.refl _) rfl (by cases y <;> rfl) hset
    · exact ho.frame hi (.refl _) rfl (by cases y <;> rfl) (by simp)
  | scan c y j k seen =>
    simp only [Worker.callStep] at hs
    split at hs <;> cases hs
    · exact ho.frame hi (.refl _) rfl (by cases y <;> rfl) (by simp)
    · exact ho.frame hi (.putStatus _ _ _) rfl (by cases y <;> rfl) (by simp)
  | mapStatus c y j =>
    cases hs
    exact ho.frame hi (.refl _) rfl (by cases y <;> rfl) (by cases y <;> simp [Cmd.updated])
  | decide c => exact ho.decide hi hq hs
  | engine c epc => exact ho.engine hi hs
  | destroyJob c j =>
    cases hs
    have hf := Core.Frame.destroyJob w.core w.job
    refine ⟨fun t ht => ?_, fun i i' hpc t ht => ?_⟩
    · rw [hf.jobOf]
      exact ho.jobs t (hf.live_iff.mp ht)
    · obtain ⟨rfl, rfl⟩ : c = .assign i ∧ j = i' := by simpa using hpc
      exact ho.quiet i j (Or.inl rfl) t (hf.live_iff.mp ht)
  | setJob c j =>
    cases hs
    exact ho.setJob hi
  | encode c =>
    rcases Worker.callStep_encode hs with ⟨rfl, report, rfl⟩ | ⟨rfl, j, _, rfl⟩ <;>
      exact ho.frame hi (.refl _) rfl rfl (by simp)
  | encodeScan c st j k seen =>
    simp only [Worker.callStep] at hs
    split at hs <;> cases hs
    · exact ho.frame hi (.refl _) rfl rfl (by simp)
    · exact ho.frame hi (.putStatus _ _ _) rfl rfl (by simp)
  | encodeTasks c st j k report =>
    obtain ⟨rfl, ⟨report', rfl⟩ | ⟨report', rfl⟩⟩ := Worker.callStep_encodeTasks hs <;>
      exact ho.frame hi (.refl _) rfl rfl (by simp)
  | encodeStatus c st j | unlock c report =>
    cases hs
    exact ho.frame hi (.refl _) rfl rfl (by simp)

/-! ## The whole invariant -/

theorem WorkerInv.create : WorkerInv .create .idle :=
  HoldInv.create.worker ⟨by simp [Worker.create, Core.create, Core.Live], by simp⟩

/-- Every step of a call keeps the invariant. -/
theorem WorkerInv.callStep (hi : WorkerInv w pc) (hq : AssignQuiet w pc)
    (hs : w.callStep pc ok = some (w', pc')) : WorkerInv w' pc' :=
  (hi.hold.callStep hs).worker (hi.onJobs.callStep hi.hold hq hs)

/-- A step of a thread keeps it too. -/
theorem WorkerInv.threadStep {t : Nat} {l : JobExec.Label} {c' : Core} (hi : WorkerInv w pc)
    (hs : w.core.threadStep t l = some c') : WorkerInv { w with core := c' } pc := by
  have hstill := Core.Still.threadStep hi.core hs
  refine (hi.hold.threadStep hs).worker ⟨fun t' ht' => ?_, fun i j hpc t' ht' => ?_⟩
  · rw [hstill.jobOf]
    exact hi.jobs t' (hstill.live t' ht')
  · exact hi.onJobs.quiet i j hpc t' (hstill.live t' ht')

/-- A call begins. -/
theorem WorkerInv.call {r : Request} (hi : WorkerInv w pc)
    (hpc : pc = .idle ∨ ∃ c report, pc = .returned c report) : WorkerInv w (.enter r) := by
  refine (hi.hold.call hpc).worker (hi.onJobs.frame hi.hold (.refl _) rfl ?_ (by simp))
  rcases hpc with rfl | ⟨c, report, rfl⟩ <;> rfl

end CallSteps

end Pyoneer.Runtime
