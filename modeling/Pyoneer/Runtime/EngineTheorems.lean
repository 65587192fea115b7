/-
Pyoneer.Runtime.EngineTheorems — what the steps of the engine and of the
threads do to `Core`, and which handles they use.

`CoreInv` is what holds of the shared memory whatever the client does,
as long as a runner gets a new thread only when its thread has exited:
the tables refer to each other properly, only the last thread of a
runner can be live, and every live thread keeps the invariant of
`JobThreadTheorems`.
-/
import Pyoneer.Blueprint.TaskHandles
import Pyoneer.Runtime.Engine

namespace Pyoneer.Runtime

open Pyoneer.Lib Pyoneer.Blueprint

/-! ## The shared memory -/

/-- The invariant of the shared memory. A thread, a runner and a job that
anything refers to exist; a runner refers back from its last thread. A
thread that was joined, or that a runner has replaced, has exited, and
one that has exited is nowhere in the middle of a task. -/
structure CoreInv (c : Core) : Prop where
  runner_lt : ∀ t < c.nthreads, (c.threads t).runner < c.nrunners
  tid_lt : ∀ r < c.nrunners, c.tid r < c.nthreads ∧ (c.threads (c.tid r)).runner = r
  job_lt : ∀ r < c.nrunners, (c.runners r).job < c.njobs
  held_lt : ∀ r, c.jobRunner = some r → r < c.nrunners
  joined : ∀ t < c.nthreads, (c.threads t).joins ≠ 0 → (c.threads t).body.pc = .exited
  old : ∀ t < c.nthreads, t ≠ c.tid (c.threads t).runner → (c.threads t).body.pc = .exited
  live : ∀ t, c.Live t → JobExec.ThreadInv (c.exec t)
  gone : ∀ t < c.nthreads, (c.threads t).body.pc = .exited → ∀ k, ¬ (c.exec t).busy k

/-- Nothing has been created yet. -/
theorem CoreInv.create : CoreInv .create := by
  constructor <;> simp [Core.create, Core.Live]

variable {c c' : Core} {t r j : Nat}

/-- A live thread is the last one of its runner. -/
theorem CoreInv.live_tid (hi : CoreInv c) (ht : c.Live t) : t = c.tid (c.threads t).runner := by
  by_contra hne
  exact ht.2 (hi.old t ht.1 hne)

/-- Two live threads have different runners. -/
theorem CoreInv.runner_ne {t' : Nat} (hi : CoreInv c) (ht : c.Live t) (ht' : c.Live t')
    (hne : t' ≠ t) : (c.threads t').runner ≠ (c.threads t).runner := by
  intro h
  rw [hi.live_tid ht, hi.live_tid ht', h] at hne
  exact hne rfl

/-- `c'` has the threads and the runners of `c`, at the same points;
only flags, counters of joins and task statuses may differ. -/
structure Core.Frame (c c' : Core) : Prop where
  nthreads : c'.nthreads = c.nthreads
  nrunners : c'.nrunners = c.nrunners
  njobs : c.njobs ≤ c'.njobs
  runner : ∀ t, (c'.threads t).runner = (c.threads t).runner
  pc : ∀ t, (c'.threads t).body.pc = (c.threads t).body.pc
  tasks : ∀ t, (c'.threads t).body.tasks = (c.threads t).body.tasks
  tid : ∀ r, c'.tid r = c.tid r
  job : ∀ r, (c'.runners r).job = (c.runners r).job
  taskRunners : ∀ r, (c'.runners r).taskRunners = (c.runners r).taskRunners
  size : ∀ j < c.njobs, (c'.jobs j).size = (c.jobs j).size
  opts : ∀ j < c.njobs, (c'.jobs j).opts = (c.jobs j).opts

theorem Core.Frame.refl (c : Core) : Core.Frame c c :=
  ⟨rfl, rfl, Nat.le_refl _, fun _ => rfl, fun _ => rfl, fun _ => rfl, fun _ => rfl, fun _ => rfl,
    fun _ => rfl, fun _ _ => rfl, fun _ _ => rfl⟩

/-- The same threads are live. -/
theorem Core.Frame.live_iff (hf : Core.Frame c c') : c'.Live t ↔ c.Live t := by
  rw [Core.Live, Core.Live, hf.nthreads, hf.pc]

theorem Core.Frame.jobOf (hf : Core.Frame c c') (t : Nat) : c'.jobOf t = c.jobOf t := by
  rw [Core.jobOf, Core.jobOf, hf.runner, hf.job]

/-- The rule for an operation that only touches flags and counters: what
is left to show is that the engine holds a runner that exists, and that
only a thread that has exited was joined. -/
theorem CoreInv.frame (hi : CoreInv c) (hf : Core.Frame c c')
    (hheld : ∀ r, c'.jobRunner = some r → r < c.nrunners)
    (hjoins : ∀ t < c.nthreads, (c'.threads t).joins ≠ 0 →
      (c.threads t).joins ≠ 0 ∨ (c.threads t).body.pc = .exited) : CoreInv c' := by
  refine ⟨?_, ?_, ?_, ?_, ?_, ?_, ?_, ?_⟩
  · rw [hf.nthreads, hf.nrunners]
    intro t ht
    rw [hf.runner]
    exact hi.runner_lt t ht
  · rw [hf.nthreads, hf.nrunners]
    intro r hr
    rw [hf.tid, hf.runner]
    exact hi.tid_lt r hr
  · rw [hf.nrunners]
    intro r hr
    rw [hf.job]
    exact Nat.lt_of_lt_of_le (hi.job_lt r hr) hf.njobs
  · rw [hf.nrunners]
    exact hheld
  · rw [hf.nthreads]
    intro t ht hj
    rw [hf.pc]
    exact (hjoins t ht hj).elim (hi.joined t ht) id
  · rw [hf.nthreads]
    intro t ht hne
    rw [hf.runner, hf.tid] at hne
    rw [hf.pc]
    exact hi.old t ht hne
  · intro t ht
    have hlt := ht
    rw [hf.live_iff] at hlt
    have hj : c.jobOf t < c.njobs := hi.job_lt _ (hi.runner_lt t hlt.1)
    refine (hi.live t hlt).congr ?_ ?_ ?_ (hf.pc t) (hf.tasks t)
    · simp only [Core.exec, hf.jobOf]
      exact hf.size _ hj
    · simp only [Core.exec, hf.jobOf, hf.opts _ hj]
    · simp only [Core.exec, hf.runner, hf.taskRunners]
  · rw [hf.nthreads]
    intro t ht hx k
    rw [hf.pc] at hx
    have := hi.gone t ht hx k
    simpa only [JobExec.busy, Core.exec, hf.tasks] using this

/-- An update of one entry of a table keeps what each entry has. -/
theorem update_field {α β : Type} (f : Nat → α) (g : α → β) {i : Nat} {a : α}
    (h : g a = g (f i)) (k : Nat) : g (Function.update f i a k) = g (f k) := by
  by_cases hk : k = i
  · subst hk
    rw [Function.update_self, h]
  · rw [Function.update_of_ne hk]

/-- A request for cancellation is a flag of the thread. -/
theorem Core.Frame.cancel (c : Core) (t : Nat) : Core.Frame c (c.cancel t) where
  nthreads := rfl
  nrunners := rfl
  njobs := Nat.le_refl _
  runner := update_field c.threads PosixThread.runner rfl
  pc := update_field c.threads (fun x => x.body.pc) rfl
  tasks := update_field c.threads (fun x => x.body.tasks) rfl
  tid := fun _ => rfl
  job := fun _ => rfl
  taskRunners := fun _ => rfl
  size := fun _ _ => rfl
  opts := fun _ _ => rfl

/-- A join is counted at the thread. -/
theorem Core.Frame.join (c : Core) (t : Nat) : Core.Frame c (c.join t) where
  nthreads := rfl
  nrunners := rfl
  njobs := Nat.le_refl _
  runner := update_field c.threads PosixThread.runner rfl
  pc := update_field c.threads (fun x => x.body.pc) rfl
  tasks := update_field c.threads (fun x => x.body.tasks) rfl
  tid := fun _ => rfl
  job := fun _ => rfl
  taskRunners := fun _ => rfl
  size := fun _ _ => rfl
  opts := fun _ _ => rfl

/-- A runner that is freed keeps its place in the table. -/
theorem Core.Frame.freeRunner (c : Core) (r : Nat) : Core.Frame c (c.freeRunner r) where
  nthreads := rfl
  nrunners := rfl
  njobs := Nat.le_refl _
  runner := fun _ => rfl
  pc := fun _ => rfl
  tasks := fun _ => rfl
  tid := update_field c.runners JobRunner.jobTid rfl
  job := update_field c.runners JobRunner.job rfl
  taskRunners := update_field c.runners JobRunner.taskRunners rfl
  size := fun _ _ => rfl
  opts := fun _ _ => rfl

theorem Core.Frame.setJobRunner (c : Core) (r : Nat) : Core.Frame c (c.setJobRunner r) where
  nthreads := rfl
  nrunners := rfl
  njobs := Nat.le_refl _
  runner := fun _ => rfl
  pc := fun _ => rfl
  tasks := fun _ => rfl
  tid := fun _ => rfl
  job := fun _ => rfl
  taskRunners := fun _ => rfl
  size := fun _ _ => rfl
  opts := fun _ _ => rfl

/-- A new job comes after the others. -/
theorem Core.Frame.newJob (c : Core) (job : Job) : Core.Frame c (c.newJob job) where
  nthreads := rfl
  nrunners := rfl
  njobs := Nat.le_succ _
  runner := fun _ => rfl
  pc := fun _ => rfl
  tasks := fun _ => rfl
  tid := fun _ => rfl
  job := fun _ => rfl
  taskRunners := fun _ => rfl
  size := fun j hj => by simp [Core.newJob, Nat.ne_of_lt hj]
  opts := fun j hj => by simp [Core.newJob, Nat.ne_of_lt hj]

@[simp] theorem Core.cancel_joins (c : Core) (t t' : Nat) :
    ((c.cancel t).threads t').joins = (c.threads t').joins := by
  unfold Core.cancel
  exact update_field c.threads PosixThread.joins (by rfl) t'

/-- A thread can be cancelled at any point. -/
theorem CoreInv.cancel (hi : CoreInv c) (t : Nat) : CoreInv (c.cancel t) :=
  hi.frame (.cancel c t) hi.held_lt fun t' _ hj => Or.inl (by simpa using hj)

/-- `pthread_join` returns for a thread that has exited. -/
theorem CoreInv.join (hi : CoreInv c) (hx : (c.threads t).body.pc = .exited) :
    CoreInv (c.join t) := by
  refine hi.frame (.join c t) hi.held_lt fun t' _ hj => ?_
  by_cases ht : t' = t
  · exact Or.inr (ht ▸ hx)
  · exact Or.inl (by simpa [Core.join, ht] using hj)

theorem CoreInv.freeRunner (hi : CoreInv c) (r : Nat) : CoreInv (c.freeRunner r) :=
  hi.frame (.freeRunner c r) hi.held_lt fun _ _ hj => Or.inl hj

/-- The engine is given a runner that exists. -/
theorem CoreInv.setJobRunner (hi : CoreInv c) (hr : r < c.nrunners) :
    CoreInv (c.setJobRunner r) :=
  hi.frame (.setJobRunner c r) (fun r' h => by
    obtain rfl : r = r' := by simpa [Core.setJobRunner] using h
    exact hr) fun _ _ hj => Or.inl hj

theorem CoreInv.newJob (hi : CoreInv c) (job : Job) : CoreInv (c.newJob job) :=
  hi.frame (.newJob c job) hi.held_lt fun _ _ hj => Or.inl hj

/-! ## New threads -/

section Spawn

variable (c : Core) (r : Nat)

/-- `job_runner_restart` leaves the threads that exist as they are. -/
theorem Core.spawn_thread_lt (ht : t < c.nthreads) : (c.spawn r).threads t = c.threads t := by
  simp [Core.spawn, Nat.ne_of_lt ht]

@[simp] theorem Core.spawn_thread_new : (c.spawn r).threads c.nthreads
    = { runner := r, body := .start (c.jobs (c.runners r).job).opts, joins := 0 } := by
  simp [Core.spawn]

@[simp] theorem Core.spawn_job (r' : Nat) :
    ((c.spawn r).runners r').job = (c.runners r').job := by
  unfold Core.spawn
  exact update_field c.runners JobRunner.job (by rfl) r'

@[simp] theorem Core.spawn_freed (r' : Nat) :
    ((c.spawn r).runners r').freed = (c.runners r').freed := by
  unfold Core.spawn
  exact update_field c.runners JobRunner.freed (by rfl) r'

@[simp] theorem Core.spawn_tid_self : (c.spawn r).tid r = c.nthreads := by
  simp [Core.spawn, Core.tid]

theorem Core.spawn_tid_ne {r' : Nat} (h : r' ≠ r) : (c.spawn r).tid r' = c.tid r' := by
  simp [Core.spawn, Core.tid, h]

@[simp] theorem Core.spawn_nthreads : (c.spawn r).nthreads = c.nthreads + 1 := rfl
@[simp] theorem Core.spawn_nrunners : (c.spawn r).nrunners = c.nrunners := rfl
@[simp] theorem Core.spawn_njobs : (c.spawn r).njobs = c.njobs := rfl
@[simp] theorem Core.spawn_jobs : (c.spawn r).jobs = c.jobs := rfl
@[simp] theorem Core.spawn_jobFreed : (c.spawn r).jobFreed = c.jobFreed := rfl
@[simp] theorem Core.spawn_jobRunner : (c.spawn r).jobRunner = c.jobRunner := rfl

/-- The threads that exist see nothing of a new one. -/
theorem Core.spawn_exec (ht : t < c.nthreads) : (c.spawn r).exec t = c.exec t := by
  have hinfo : ∀ r', ((c.spawn r).runners r').info = (c.runners r').info := by
    unfold Core.spawn
    exact update_field c.runners JobRunner.info (by rfl)
  have hruns : ∀ r', ((c.spawn r).runners r').taskRunners = (c.runners r').taskRunners := by
    unfold Core.spawn
    exact update_field c.runners JobRunner.taskRunners (by rfl)
  simp only [Core.exec, Core.jobOf, Core.spawn_thread_lt c r ht, hinfo, hruns, Core.spawn_job,
    Core.spawn_jobs]

end Spawn

section Launch

variable (c : Core) (j : Nat)

/-- `job_run` leaves the threads that exist as they are, too. -/
theorem Core.launch_thread_lt (ht : t < c.nthreads) : (c.launch j).threads t = c.threads t :=
  Core.spawn_thread_lt (c.newRunner j) c.nrunners ht

@[simp] theorem Core.launch_thread_new : (c.launch j).threads c.nthreads
    = { runner := c.nrunners, body := .start (c.jobs j).opts, joins := 0 } := by
  simp [Core.launch, Core.spawn, Core.newRunner]

theorem Core.launch_runner_lt (hr : r < c.nrunners) :
    (c.launch j).runners r = c.runners r := by
  simp [Core.launch, Core.spawn, Core.newRunner, Nat.ne_of_lt hr]

@[simp] theorem Core.launch_runner_new : (c.launch j).runners c.nrunners
    = { job := j, jobTid := c.nthreads, info := jobRunnerInfoDefaults, taskRunners := [],
        freed := false } := by
  simp [Core.launch, Core.spawn, Core.newRunner]

@[simp] theorem Core.launch_nthreads : (c.launch j).nthreads = c.nthreads + 1 := rfl
@[simp] theorem Core.launch_nrunners : (c.launch j).nrunners = c.nrunners + 1 := rfl
@[simp] theorem Core.launch_njobs : (c.launch j).njobs = c.njobs := rfl
@[simp] theorem Core.launch_jobs : (c.launch j).jobs = c.jobs := rfl
@[simp] theorem Core.launch_jobFreed : (c.launch j).jobFreed = c.jobFreed := rfl
@[simp] theorem Core.launch_jobRunner : (c.launch j).jobRunner = c.jobRunner := rfl

/-- They see nothing of the new runner. -/
theorem Core.launch_exec (ht : t < c.nthreads) (hr : (c.threads t).runner < c.nrunners) :
    (c.launch j).exec t = c.exec t := by
  simp only [Core.exec, Core.jobOf, Core.launch_thread_lt c j ht, Core.launch_runner_lt c j hr,
    Core.launch_jobs]

end Launch

/-- A new thread, for a runner whose threads have all exited or that is
new itself. -/
theorem CoreInv.grow {opts : JobOpts} (hi : CoreInv c)
    (hnt : c'.nthreads = c.nthreads + 1) (hold : ∀ t < c.nthreads, c'.threads t = c.threads t)
    (hnew : c'.threads c.nthreads = { runner := r, body := .start opts, joins := 0 })
    (hnr : c.nrunners ≤ c'.nrunners) (hr : r < c'.nrunners)
    (hruns : ∀ r' < c'.nrunners, r' = r ∨ r' < c.nrunners)
    (htid : c'.tid r = c.nthreads) (htid' : ∀ r' < c.nrunners, r' ≠ r → c'.tid r' = c.tid r')
    (hexec : ∀ t < c.nthreads, c'.exec t = c.exec t)
    (hjob : ∀ r' < c'.nrunners, (c'.runners r').job < c'.njobs)
    (hheld : c'.jobRunner = c.jobRunner)
    (hx : ∀ t < c.nthreads, (c.threads t).runner = r → (c.threads t).body.pc = .exited) :
    CoreInv c' := by
  have hcase : ∀ t < c'.nthreads, t < c.nthreads ∨ t = c.nthreads := fun t ht =>
    Nat.lt_succ_iff_lt_or_eq.mp (by omega)
  refine ⟨?_, ?_, hjob, ?_, ?_, ?_, ?_, ?_⟩
  · intro t ht
    rcases hcase t ht with ht | rfl
    · rw [hold t ht]
      exact Nat.lt_of_lt_of_le (hi.runner_lt t ht) hnr
    · rw [hnew]
      exact hr
  · intro r' hr'
    by_cases h : r' = r
    · subst h
      rw [htid, hnt, hnew]
      exact ⟨Nat.lt_succ_self _, rfl⟩
    · have hr'' := (hruns r' hr').resolve_left h
      rw [htid' r' hr'' h, hold _ (hi.tid_lt r' hr'').1, hnt]
      exact ⟨Nat.lt_succ_of_lt (hi.tid_lt r' hr'').1, (hi.tid_lt r' hr'').2⟩
  · rw [hheld]
    exact fun r' h => Nat.lt_of_lt_of_le (hi.held_lt r' h) hnr
  · intro t ht hj
    rcases hcase t ht with ht | rfl
    · rw [hold t ht] at hj ⊢
      exact hi.joined t ht hj
    · simp [hnew] at hj
  · intro t ht hne
    rcases hcase t ht with ht | rfl
    · rw [hold t ht] at hne ⊢
      by_cases h : (c.threads t).runner = r
      · exact hx t ht h
      · rw [htid' _ (hi.runner_lt t ht) h] at hne
        exact hi.old t ht hne
    · simp [hnew, htid] at hne
  · intro t ht
    rcases hcase t ht.1 with hlt | rfl
    · rw [hexec t hlt]
      refine hi.live t ⟨hlt, ?_⟩
      rw [← hold t hlt]
      exact ht.2
    · have hstart : (c'.exec c.nthreads).thread = .start opts := by simp [Core.exec, hnew]
      exact JobExec.ThreadInv.fresh hstart
  · intro t ht hpc
    rcases hcase t ht with ht | rfl
    · rw [hexec t ht]
      rw [hold t ht] at hpc
      exact hi.gone t ht hpc
    · simp [hnew, JobThread.start] at hpc

/-- `job_runner_restart`, where the last thread of the runner has
exited. -/
theorem CoreInv.spawn (hi : CoreInv c) (hr : r < c.nrunners)
    (hx : (c.threads (c.tid r)).body.pc = .exited) : CoreInv (c.spawn r) := by
  refine hi.grow rfl (fun t => c.spawn_thread_lt r) (c.spawn_thread_new r) (Nat.le_refl _) hr
    (fun _ => Or.inr) (c.spawn_tid_self r) (fun _ _ => c.spawn_tid_ne r)
    (fun _ => c.spawn_exec r) ?_ rfl ?_
  · intro r' hr'
    rw [c.spawn_job]
    exact hi.job_lt r' hr'
  · intro t ht htr
    by_cases h : t = c.tid r
    · exact h ▸ hx
    · exact hi.old t ht (htr ▸ h)

/-- `job_run`: the runner is new, so that no thread of it is in the
way. -/
theorem CoreInv.launch (hi : CoreInv c) (hj : j < c.njobs) : CoreInv (c.launch j) := by
  refine hi.grow rfl (fun t => c.launch_thread_lt j) (c.launch_thread_new j) (Nat.le_succ _)
    (Nat.lt_succ_self _) (fun r' hr' => (Nat.lt_succ_iff_lt_or_eq.mp hr').symm) ?_ ?_
    (fun t ht => c.launch_exec j ht (hi.runner_lt t ht)) ?_ rfl ?_
  · simp [Core.tid]
  · intro r' hr' _
    rw [Core.tid, Core.tid, c.launch_runner_lt j hr']
  · intro r' hr'
    rcases Nat.lt_succ_iff_lt_or_eq.mp hr' with hr' | rfl
    · rw [c.launch_runner_lt j hr']
      exact hi.job_lt r' hr'
    · simpa using hj
  · intro t ht htr
    exact absurd htr (Nat.ne_of_lt (hi.runner_lt t ht))

/-! ## Steps of the threads -/

section PutExec

variable (c : Core) (t : Nat) (e : JobExec)

@[simp] theorem Core.putExec_runner (t' : Nat) :
    ((c.putExec t e).threads t').runner = (c.threads t').runner := by
  unfold Core.putExec
  exact update_field c.threads PosixThread.runner (by rfl) t'

@[simp] theorem Core.putExec_joins (t' : Nat) :
    ((c.putExec t e).threads t').joins = (c.threads t').joins := by
  unfold Core.putExec
  exact update_field c.threads PosixThread.joins (by rfl) t'

@[simp] theorem Core.putExec_tid (r : Nat) : (c.putExec t e).tid r = c.tid r := by
  unfold Core.putExec Core.tid
  exact update_field c.runners JobRunner.jobTid (by rfl) r

@[simp] theorem Core.putExec_job (r : Nat) :
    ((c.putExec t e).runners r).job = (c.runners r).job := by
  unfold Core.putExec
  exact update_field c.runners JobRunner.job (by rfl) r

@[simp] theorem Core.putExec_freed (r : Nat) :
    ((c.putExec t e).runners r).freed = (c.runners r).freed := by
  unfold Core.putExec
  exact update_field c.runners JobRunner.freed (by rfl) r

@[simp] theorem Core.putExec_jobOf (t' : Nat) : (c.putExec t e).jobOf t' = c.jobOf t' := by
  simp only [Core.jobOf, Core.putExec_runner, Core.putExec_job]

@[simp] theorem Core.putExec_body : ((c.putExec t e).threads t).body = e.thread := by
  simp [Core.putExec]

theorem Core.putExec_thread_ne {t' : Nat} (h : t' ≠ t) :
    (c.putExec t e).threads t' = c.threads t' := by
  simp [Core.putExec, h]

@[simp] theorem Core.putExec_jobs_self : (c.putExec t e).jobs (c.jobOf t) = e.job := by
  simp [Core.putExec]

theorem Core.putExec_jobs_ne {j : Nat} (h : j ≠ c.jobOf t) :
    (c.putExec t e).jobs j = c.jobs j := by
  simp [Core.putExec, h]

@[simp] theorem Core.putExec_nthreads : (c.putExec t e).nthreads = c.nthreads := rfl
@[simp] theorem Core.putExec_nrunners : (c.putExec t e).nrunners = c.nrunners := rfl
@[simp] theorem Core.putExec_njobs : (c.putExec t e).njobs = c.njobs := rfl
@[simp] theorem Core.putExec_jobFreed : (c.putExec t e).jobFreed = c.jobFreed := rfl
@[simp] theorem Core.putExec_jobRunner : (c.putExec t e).jobRunner = c.jobRunner := rfl

@[simp] theorem Core.putExec_exec_self : (c.putExec t e).exec t = e := by
  simp [Core.exec, Core.putExec, Core.jobOf]

end PutExec

/-- A step of a thread is a step of what the thread sees. -/
theorem Core.threadStep_eq {l : JobExec.Label} (hs : c.threadStep t l = some c') :
    t < c.nthreads ∧ ∃ e', (c.exec t).step l = some e' ∧ c' = c.putExec t e' := by
  unfold Core.threadStep at hs
  split at hs
  · rename_i ht
    obtain ⟨e', he, rfl⟩ := Option.map_eq_some_iff.mp hs
    exact ⟨ht, e', he, rfl⟩
  · cases hs

/-- Only a live thread takes a step. -/
theorem CoreInv.live_of_step {l : JobExec.Label} {e' : JobExec} (hi : CoreInv c)
    (ht : t < c.nthreads) (hs : (c.exec t).step l = some e') : c.Live t := by
  refine ⟨ht, fun hx => ?_⟩
  exact JobExec.not_exited_of_step (hi.gone t ht hx) hs hx

/-- What a live thread sees of a step of another one: at most new task
statuses in its job. -/
theorem CoreInv.exec_putExec_ne {t' : Nat} {l : JobExec.Label} {e' : JobExec} (hi : CoreInv c)
    (ht : c.Live t) (ht' : c.Live t') (hne : t' ≠ t) (hs : (c.exec t).step l = some e') :
    let e := (c.putExec t e').exec t'
    e.thread = (c.exec t').thread ∧ e.taskRunners = (c.exec t').taskRunners ∧
      e.job.size = (c.exec t').job.size ∧ e.job.opts = (c.exec t').job.opts := by
  have hr := hi.runner_ne ht ht' hne
  obtain ⟨hsize, hopts⟩ := JobExec.step_job_frame hs
  refine ⟨?_, ?_, ?_⟩
  · simp [Core.exec, Core.putExec_thread_ne c t e' hne]
  · simp [Core.exec, Core.putExec, hne, hr]
  · simp only [Core.exec, Core.putExec_jobOf]
    by_cases hj : c.jobOf t' = c.jobOf t
    · rw [hj, Core.putExec_jobs_self]
      exact ⟨hsize, hopts⟩
    · rw [Core.putExec_jobs_ne c t e' hj]
      exact ⟨rfl, rfl⟩

/-- Every step of a thread keeps the invariant. The stepping thread keeps
its own by the invariant of `JobThreadTheorems`, every other live thread
because it sees at most new task statuses. -/
theorem CoreInv.threadStep {l : JobExec.Label} (hi : CoreInv c)
    (hs : c.threadStep t l = some c') : CoreInv c' := by
  obtain ⟨ht, e', he, rfl⟩ := Core.threadStep_eq hs
  have hlive := hi.live_of_step ht he
  have hti := (hi.live t hlive).step he
  refine ⟨?_, ?_, ?_, hi.held_lt, ?_, ?_, ?_, ?_⟩
  · intro t' ht'
    simpa using hi.runner_lt t' ht'
  · intro r hr
    simpa using hi.tid_lt r hr
  · intro r hr
    simpa using hi.job_lt r hr
  · intro t' ht' hj
    rw [Core.putExec_joins] at hj
    have hx := hi.joined t' ht' hj
    by_cases h : t' = t
    · exact absurd (h ▸ hx) hlive.2
    · rwa [Core.putExec_thread_ne c t e' h]
  · intro t' ht' hne
    rw [Core.putExec_runner, Core.putExec_tid] at hne
    have hx := hi.old t' ht' hne
    by_cases h : t' = t
    · exact absurd (h ▸ hx) hlive.2
    · rwa [Core.putExec_thread_ne c t e' h]
  · intro t' ht'
    by_cases h : t' = t
    · subst h
      rw [Core.putExec_exec_self]
      exact hti
    · have hl : c.Live t' := ⟨ht'.1, by
        have := ht'.2
        rwa [Core.putExec_thread_ne c t e' h] at this⟩
      obtain ⟨h1, h2, h3, h4⟩ := hi.exec_putExec_ne hlive hl h he
      exact (hi.live t' hl).congr h3 (by rw [h4]) h2 (by rw [h1]) (by rw [h1])
  · intro t' ht' hx k
    by_cases h : t' = t
    · subst h
      rw [Core.putExec_body] at hx
      rw [Core.putExec_exec_self]
      intro hb
      have := hti.busyOwned k hb
      simp [JobExec.owned, hx] at this
    · rw [Core.putExec_thread_ne c t e' h] at hx
      have := hi.gone t' ht' hx k
      simpa [JobExec.busy, Core.exec, Core.putExec_thread_ne c t e' h] using this

end Pyoneer.Runtime
