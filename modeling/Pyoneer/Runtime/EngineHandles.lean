/-
Pyoneer.Runtime.EngineHandles — when the engine and its job threads use
thread handles properly.

Nothing in the source records that a handle has been joined. A stop, a
wait, or a restart whose `pthread_create` fails leaves a joined handle in
`job_tid`, and the next restart, stop, wait, destroy or successful
`engine_run` uses it again; a `task_runner_wait` that returns leaves one
in `task_thread`, and `task_runner_destroy` uses it. `InOrder` excludes
these steps, and `run_handlesOk` says that nothing else goes wrong.
-/
import Pyoneer.Runtime.EngineTheorems

namespace Pyoneer.Runtime.Engine

open Pyoneer.Lib Pyoneer.Blueprint

/-- Since the last thread was created for the held runner, a call has
joined it and returned, or failed to replace it. -/
def closed : History Engine Label → Bool
  | [] => false
  | (s, .move ok) :: h =>
    match s.pc with
    | .store _ => false
    | .recreate _ => !ok
    | .join _ .return | .join _ .freeEngine => true
    | _ => closed h
  | _ :: h => closed h

/-- The step is a `job_run` that succeeds. -/
def launches (s : Engine) (ok : Bool) : Bool :=
  match s.pc with
  | .create j => ok && (s.core.jobs j).size != 0
  | _ => false

/-- The order of calls that uses every handle once: after a stop, a wait
or a failed restart there is no further restart, stop, wait or destroy
and no `engine_run` succeeds; and no `task_runner_wait` returns. -/
def InOrder (h : History Engine Label) (s : Engine) : Label → Prop
  | .call (.run _) => True
  | .call _ => closed h = false
  | .move ok => s.launches ok = true → closed h = false
  | .thread t l => (s.core.exec t).waitReturns l = false
  | .newJob _ => True

instance (h : History Engine Label) (s : Engine) : ∀ l, Decidable (InOrder h s l)
  | .call (.run _) => inferInstanceAs (Decidable True)
  | .call .restart | .call .stop | .call .wait | .call .destroy =>
    inferInstanceAs (Decidable (closed h = false))
  | .move ok => inferInstanceAs (Decidable (s.launches ok = true → closed h = false))
  | .thread t l => inferInstanceAs (Decidable ((s.core.exec t).waitReturns l = false))
  | .newJob _ => inferInstanceAs (Decidable True)

/-- The job thread whose handle the call gives to `pthread_cancel` or
`pthread_join` at this point. -/
def usesJob (s : Engine) : Option Nat :=
  match s.pc with
  | .cancel r _ | .join r _ => some (s.core.tid r)
  | _ => none

/-- Handles are used properly: a handle given to `pthread_cancel` or
`pthread_join` is that of a thread that was created and not joined; the
threads of a destroyed job runner, and the thread of a destroyed task
runner, have been joined exactly once. -/
structure HandlesOk (s : Engine) : Prop where
  job : ∀ t, s.usesJob = some t → t < s.core.nthreads ∧ (s.core.threads t).joins = 0
  task : ∀ t < s.core.nthreads, ∀ k, (s.core.exec t).usesTask = some k →
    ((s.core.exec t).thread.tasks k).phase ≠ .none ∧
    ((s.core.exec t).thread.tasks k).joins = 0
  jobDone : ∀ t < s.core.nthreads, (s.core.runners (s.core.threads t).runner).freed = true →
    (s.core.threads t).joins = 1
  taskDone : ∀ t < s.core.nthreads, ∀ k, ((s.core.exec t).thread.tasks k).phase ≠ .none →
    k ∉ (s.core.exec t).owned → ((s.core.exec t).thread.tasks k).joins = 1

/-! ## The invariant -/

/-- The runner in `engine->job_runner` is not freed, and its thread has
been joined `n` times. -/
def Held (c : Core) (n : Nat) : Prop :=
  ∀ r, c.jobRunner = some r → (c.runners r).freed = false ∧ (c.threads (c.tid r)).joins = n

/-- The runner that `engine_run` has just created. -/
def New (c : Core) (new : Nat) : Prop :=
  new < c.nrunners ∧ (c.runners new).freed = false ∧ (c.threads (c.tid new)).joins = 0 ∧
    c.jobRunner ≠ some new

/-- What is known of the runners at each point of a call. -/
def Place (h : History Engine Label) (s : Engine) : Prop :=
  match s.pc with
  | .done _ | .freeEngine => Held s.core (closed h).toNat
  | .load call => Held s.core 0 ∧ closed h = false ∧ ∀ j, call ≠ .run j
  | .create j => j < s.core.njobs ∧ Held s.core (closed h).toNat
  | .swap new => Held s.core 0 ∧ New s.core new ∧ closed h = false
  | .cancel r k | .join r k =>
    s.core.jobRunner = some r ∧ Held s.core 0 ∧ ∀ new, k = .free new → New s.core new
  | .free r new => s.core.jobRunner = some r ∧ Held s.core 1 ∧ New s.core new
  | .store new => New s.core new ∧ ∀ r, s.core.jobRunner = some r → (s.core.runners r).freed = true
  | .recreate r => s.core.jobRunner = some r ∧ Held s.core 1

structure EngineInv (h : History Engine Label) (s : Engine) : Prop where
  core : CoreInv s.core
  tasks : ∀ t < s.core.nthreads, JobExec.JoinInv (s.core.exec t)
  old : ∀ t < s.core.nthreads, t ≠ s.core.tid (s.core.threads t).runner →
    (s.core.threads t).joins = 1
  freed : ∀ r < s.core.nrunners, (s.core.runners r).freed = true →
    (s.core.threads (s.core.tid r)).joins = 1
  place : Place h s

theorem EngineInv.create : EngineInv [] create := by
  refine ⟨CoreInv.create, ?_, ?_, ?_, ?_⟩ <;> simp [Engine.create, Core.create, Place, Held]

/-- The invariant gives the property. -/
theorem EngineInv.handlesOk {h : History Engine Label} {s : Engine} (hi : EngineInv h s) :
    HandlesOk s := by
  have hplace := hi.place
  refine ⟨?_, ?_, ?_, ?_⟩
  · intro t ht
    obtain ⟨r, k, hpc, rfl⟩ : ∃ r k, (s.pc = .cancel r k ∨ s.pc = .join r k) ∧
        s.core.tid r = t := by
      cases hpc : s.pc <;> simp [usesJob, hpc] at ht <;> simp [ht]
    obtain ⟨hr, hheld, _⟩ : s.core.jobRunner = some r ∧ Held s.core 0 ∧
        ∀ new, k = .free new → New s.core new := by
      rcases hpc with hpc | hpc <;> simpa [Place, hpc] using hplace
    exact ⟨(hi.core.tid_lt r (hi.core.held_lt r hr)).1, (hheld r hr).2⟩
  · intro t ht k hk
    by_cases hx : (s.core.threads t).body.pc = .exited
    · simp [JobExec.usesTask, Core.exec, hx] at hk
    · exact (hi.tasks t ht).usesTask (hi.core.live t ⟨ht, hx⟩) hk
  · intro t ht hfreed
    by_cases hcur : t = s.core.tid (s.core.threads t).runner
    · rw [hcur]
      exact hi.freed _ (hi.core.runner_lt t ht) hfreed
    · exact hi.old t ht hcur
  · intro t ht k hk hn
    rcases (hi.tasks t ht).handled k hk with ⟨hm, _⟩ | ⟨_, h1, _⟩
    · exact absurd hm hn
    · exact h1

/-! ## Steps -/

/-- `c'` has the handles of `c`, with the same numbers of joins. -/
structure SameHandles (c c' : Core) : Prop where
  jobRunner : c'.jobRunner = c.jobRunner
  nrunners : c'.nrunners = c.nrunners
  nthreads : c'.nthreads = c.nthreads
  njobs : c.njobs ≤ c'.njobs
  runner : ∀ t, (c'.threads t).runner = (c.threads t).runner
  tid : ∀ r, c'.tid r = c.tid r
  freed : ∀ r, (c'.runners r).freed = (c.runners r).freed
  joins : ∀ t, (c'.threads t).joins = (c.threads t).joins

theorem SameHandles.held {c c' : Core} {n : Nat} (hs : SameHandles c c') :
    Held c' n ↔ Held c n := by
  simp only [Held, hs.jobRunner, hs.freed, hs.joins, hs.tid]

theorem SameHandles.new {c c' : Core} {n : Nat} (hs : SameHandles c c') : New c' n ↔ New c n := by
  simp only [New, hs.jobRunner, hs.freed, hs.joins, hs.tid, hs.nrunners]

variable {h : History Engine Label} {s s' : Engine} {l : Label}

/-- A step that touches no handle. -/
theorem EngineInv.same (hi : EngineInv h s) (hs : SameHandles s.core s'.core)
    (hcore : CoreInv s'.core)
    (htasks : ∀ t < s.core.nthreads, JobExec.JoinInv (s'.core.exec t))
    (hplace : Place ((s, l) :: h) s') : EngineInv ((s, l) :: h) s' := by
  refine ⟨hcore, ?_, ?_, ?_, hplace⟩
  · rw [hs.nthreads]
    exact htasks
  · rw [hs.nthreads]
    intro t ht
    rw [hs.runner, hs.tid, hs.joins]
    exact hi.old t ht
  · rw [hs.nrunners]
    intro r hr
    rw [hs.freed, hs.tid, hs.joins]
    exact hi.freed r hr

theorem SameHandles.putExec (c : Core) (t : Nat) (e : JobExec) :
    SameHandles c (c.putExec t e) where
  jobRunner := rfl
  nrunners := rfl
  nthreads := rfl
  njobs := Nat.le_refl _
  runner := c.putExec_runner t e
  tid := c.putExec_tid t e
  freed := c.putExec_freed t e
  joins := c.putExec_joins t e

theorem SameHandles.cancel (c : Core) (t : Nat) : SameHandles c (c.cancel t) where
  jobRunner := rfl
  nrunners := rfl
  nthreads := rfl
  njobs := Nat.le_refl _
  runner := (Core.Frame.cancel c t).runner
  tid := fun _ => rfl
  freed := fun _ => rfl
  joins := c.cancel_joins t

theorem SameHandles.newJob (c : Core) (job : Job) : SameHandles c (c.newJob job) where
  jobRunner := rfl
  nrunners := rfl
  nthreads := rfl
  njobs := Nat.le_succ _
  runner := fun _ => rfl
  tid := fun _ => rfl
  freed := fun _ => rfl
  joins := fun _ => rfl

/-- What is known at a point stays known while other threads move. -/
theorem Place.same (hp : Place h s) (hs : SameHandles s.core s'.core) (hpc : s'.pc = s.pc)
    (hc : closed ((s, l) :: h) = closed h) : Place ((s, l) :: h) s' := by
  have hj : ∀ j, j < s.core.njobs → j < s'.core.njobs := fun j hj =>
    Nat.lt_of_lt_of_le hj hs.njobs
  cases hp' : s.pc <;> simp only [Place, hpc, hp', hc, hs.held, hs.new, hs.jobRunner, hs.freed]
    at hp ⊢
  case create j => exact ⟨hj j hp.1, hp.2⟩
  all_goals exact hp

theorem EngineInv.thread {t : Nat} {l : JobExec.Label} (hi : EngineInv h s)
    (hok : (s.core.exec t).waitReturns l = false)
    (hs : s.step (.thread t l) = some s') : EngineInv ((s, .thread t l) :: h) s' := by
  simp only [step] at hs
  split at hs
  · rename_i core hstep
    simp only [Option.some.injEq] at hs
    subst hs
    have hcore := hi.core.threadStep hstep
    obtain ⟨ht, e', he, rfl⟩ := Core.threadStep_eq hstep
    have hlive := hi.core.live_of_step ht he
    have hsame := SameHandles.putExec s.core t e'
    refine hi.same hsame hcore ?_ (hi.place.same hsame rfl rfl)
    intro t' ht'
    by_cases hne : t' = t
    · subst hne
      rw [Core.putExec_exec_self]
      exact (hi.tasks t' ht).step (hi.core.live t' hlive) hok he
    · have hbody := s.core.putExec_thread_ne t e' hne
      have hthread : ((s.core.putExec t e').exec t').thread = (s.core.exec t').thread := by
        simp [Core.exec, hbody]
      refine (hi.tasks t' ht').congr (by rw [hthread]) (by rw [hthread]) ?_
      by_cases hx : (s.core.threads t').body.pc = .exited
      · exact Or.inl hx
      · exact Or.inr (hi.core.exec_putExec_ne hlive ⟨ht', hx⟩ hne he).2.1
  · cases hs

theorem SameHandles.refl (c : Core) : SameHandles c c :=
  ⟨rfl, rfl, rfl, Nat.le_refl _, fun _ => rfl, fun _ => rfl, fun _ => rfl, fun _ => rfl⟩

/-- A step that only moves the call. -/
theorem EngineInv.goto {pc : EnginePc} {b : Bool} (hi : EngineInv h s)
    (hplace : Place ((s, l) :: h) { core := s.core, pc := pc, freed := b }) :
    EngineInv ((s, l) :: h) { core := s.core, pc := pc, freed := b } :=
  hi.same (.refl _) hi.core hi.tasks hplace

/-- `job_run` succeeds. -/
theorem EngineInv.launch {j : Nat} {ok b : Bool} (hi : EngineInv h s) (hpc : s.pc = .create j)
    (hc : closed h = false) :
    EngineInv ((s, .move ok) :: h)
      { core := s.core.launch j, pc := .swap s.core.nrunners, freed := b } := by
  obtain ⟨hj, hheld⟩ : j < s.core.njobs ∧ Held s.core (closed h).toNat := by
    simpa [Place, hpc] using hi.place
  have hcase : ∀ t < s.core.nthreads + 1, t < s.core.nthreads ∨ t = s.core.nthreads :=
    fun t => Nat.lt_succ_iff_lt_or_eq.mp
  have htid : ∀ r < s.core.nrunners, (s.core.launch j).tid r = s.core.tid r := fun r hr => by
    rw [Core.tid, Core.tid, s.core.launch_runner_lt j hr]
  have hnew : (s.core.launch j).tid s.core.nrunners = s.core.nthreads := by simp [Core.tid]
  refine ⟨hi.core.launch hj, ?_, ?_, ?_, ?_, ⟨?_, ?_, ?_, ?_⟩, ?_⟩
  · intro t ht
    rcases hcase t ht with ht | rfl
    · rw [s.core.launch_exec j ht (hi.core.runner_lt t ht)]
      exact hi.tasks t ht
    · have hstart : ((s.core.launch j).exec s.core.nthreads).thread = .start (s.core.jobs j).opts :=
        by simp [Core.exec]
      exact JobExec.JoinInv.fresh hstart
  · intro t ht hne
    rcases hcase t ht with ht | rfl
    · rw [s.core.launch_thread_lt j ht, htid _ (hi.core.runner_lt t ht)] at hne
      rw [s.core.launch_thread_lt j ht]
      exact hi.old t ht hne
    · simp [hnew] at hne
  · intro r hr hfreed
    rcases Nat.lt_succ_iff_lt_or_eq.mp hr with hr | rfl
    · rw [s.core.launch_runner_lt j hr] at hfreed
      rw [htid r hr, s.core.launch_thread_lt j (hi.core.tid_lt r hr).1]
      exact hi.freed r hr hfreed
    · simp at hfreed
  · intro r hr
    have hlt := hi.core.held_lt r hr
    rw [s.core.launch_runner_lt j hlt, htid r hlt,
      s.core.launch_thread_lt j (hi.core.tid_lt r hlt).1]
    simpa [hc] using hheld r hr
  · exact Nat.lt_succ_self _
  · simp
  · simp [hnew]
  · exact fun hr => Nat.lt_irrefl _ (hi.core.held_lt _ hr)
  · simp [closed, hpc, hc]

/-- `pthread_join` returns. -/
theorem EngineInv.join {r : Nat} {k : After} {ok b : Bool} (hi : EngineInv h s)
    (hpc : s.pc = .join r k) (hx : (s.core.threads (s.core.tid r)).body.pc = .exited) :
    EngineInv ((s, .move ok) :: h)
      { core := s.core.join (s.core.tid r), pc := k.next r, freed := b } := by
  obtain ⟨hr, hheld, hnew⟩ : s.core.jobRunner = some r ∧ Held s.core 0 ∧
      ∀ new, k = .free new → New s.core new := by simpa [Place, hpc] using hi.place
  have hlt := hi.core.held_lt r hr
  have hne : ∀ r' < s.core.nrunners, r' ≠ r → s.core.tid r' ≠ s.core.tid r := by
    intro r' hr' hne heq
    have h1 := (hi.core.tid_lt r' hr').2
    rw [heq, (hi.core.tid_lt r hlt).2] at h1
    exact hne h1.symm
  have hf := Core.Frame.join s.core (s.core.tid r)
  have hother : ∀ t, t ≠ s.core.tid r →
      (s.core.join (s.core.tid r)).threads t = s.core.threads t := fun t ht => by
    simp [Core.join, ht]
  have hone : Held (s.core.join (s.core.tid r)) 1 := by
    intro r' hr'
    obtain rfl : r = r' := Option.some.inj (hr.symm.trans hr')
    exact ⟨(hheld r hr).1, by simp [Core.join, Core.tid, ← (hheld r hr).2]⟩
  refine ⟨hi.core.join hx, ?_, ?_, ?_, ?_⟩
  · intro t ht
    refine (hi.tasks t ht).congr (hf.pc t) (hf.tasks t) (Or.inr ?_)
    simp only [Core.exec, hf.runner, hf.taskRunners]
  · intro t ht htid
    rw [hf.runner, hf.tid] at htid
    have hother' : t ≠ s.core.tid r := by
      rintro rfl
      rw [(hi.core.tid_lt r hlt).2] at htid
      exact htid rfl
    rw [hother t hother']
    exact hi.old t ht htid
  · intro r' hr' hfreed
    have hrr : r' ≠ r := by
      rintro rfl
      have := (hheld r' hr).1
      rw [show (s.core.runners r').freed = true from hfreed] at this
      cases this
    rw [hf.tid, hother _ (hne r' hr' hrr)]
    exact hi.freed r' hr' hfreed
  · cases k with
    | free new =>
      obtain ⟨h1, h2, h3, h4⟩ := hnew new rfl
      have hrr : new ≠ r := by
        rintro rfl
        exact h4 hr
      exact ⟨hr, hone, h1, h2, by rw [hf.tid, hother _ (hne new h1 hrr)]; exact h3, h4⟩
    | recreate => exact ⟨hr, hone⟩
    | «return» => simpa [Place, After.next, closed, hpc] using hone
    | freeEngine => simpa [Place, After.next, closed, hpc] using hone

theorem EngineInv.freeRunner {r new : Nat} {ok b : Bool} (hi : EngineInv h s)
    (hpc : s.pc = .free r new) :
    EngineInv ((s, .move ok) :: h)
      { core := s.core.freeRunner r, pc := .store new, freed := b } := by
  obtain ⟨hr, hheld, hnew⟩ : s.core.jobRunner = some r ∧ Held s.core 1 ∧ New s.core new := by
    simpa [Place, hpc] using hi.place
  have hf := Core.Frame.freeRunner s.core r
  have hrr : new ≠ r := by
    rintro rfl
    exact hnew.2.2.2 hr
  have hother : ∀ r', r' ≠ r → (s.core.freeRunner r).runners r' = s.core.runners r' :=
    fun r' h => by simp [Core.freeRunner, h]
  refine ⟨hi.core.freeRunner r, ?_, ?_, ?_, ⟨hnew.1, ?_, ?_, hnew.2.2.2⟩, ?_⟩
  · intro t ht
    refine (hi.tasks t ht).congr rfl rfl (Or.inr ?_)
    exact hf.taskRunners _
  · intro t ht hne
    rw [hf.tid] at hne
    exact hi.old t ht hne
  · intro r' hr' hfreed
    rw [hf.tid]
    by_cases h : r' = r
    · subst h
      exact (hheld r' hr).2
    · rw [hother r' h] at hfreed
      exact hi.freed r' hr' hfreed
  · rw [hother new hrr]
    exact hnew.2.1
  · rw [hf.tid]
    exact hnew.2.2.1
  · intro r' hr'
    obtain rfl : r = r' := Option.some.inj (hr.symm.trans hr')
    simp [Core.freeRunner]

theorem EngineInv.store {new : Nat} {ok b : Bool} (hi : EngineInv h s)
    (hpc : s.pc = .store new) :
    EngineInv ((s, .move ok) :: h)
      { core := s.core.setJobRunner new, pc := .done true, freed := b } := by
  obtain ⟨hnew, _⟩ : New s.core new ∧ ∀ r, s.core.jobRunner = some r →
      (s.core.runners r).freed = true := by simpa [Place, hpc] using hi.place
  refine ⟨hi.core.setJobRunner hnew.1, hi.tasks, hi.old, hi.freed, ?_⟩
  intro r hr
  obtain rfl : new = r := by simpa [Core.setJobRunner] using hr
  simp only [closed, hpc]
  exact ⟨hnew.2.1, hnew.2.2.1⟩

/-- `job_runner_restart` has a new thread. -/
theorem EngineInv.respawn {r : Nat} {b : Bool} (hi : EngineInv h s) (hpc : s.pc = .recreate r) :
    EngineInv ((s, .move true) :: h) { core := s.core.spawn r, pc := .done true, freed := b } := by
  obtain ⟨hr, hheld⟩ : s.core.jobRunner = some r ∧ Held s.core 1 := by
    simpa [Place, hpc] using hi.place
  have hlt := hi.core.held_lt r hr
  have htid := hi.core.tid_lt r hlt
  have hx := hi.core.joined _ htid.1 (by rw [(hheld r hr).2]; exact Nat.one_ne_zero)
  have hcase : ∀ t < s.core.nthreads + 1, t < s.core.nthreads ∨ t = s.core.nthreads :=
    fun t => Nat.lt_succ_iff_lt_or_eq.mp
  refine ⟨hi.core.spawn hlt hx, ?_, ?_, ?_, ?_⟩
  · intro t ht
    rcases hcase t ht with ht | rfl
    · rw [s.core.spawn_exec r ht]
      exact hi.tasks t ht
    · have hstart : ((s.core.spawn r).exec s.core.nthreads).thread
          = .start (s.core.jobs (s.core.runners r).job).opts := by simp [Core.exec]
      exact JobExec.JoinInv.fresh hstart
  · intro t ht hne
    rcases hcase t ht with ht | rfl
    · rw [s.core.spawn_thread_lt r ht] at hne ⊢
      by_cases h : (s.core.threads t).runner = r
      · by_cases hcur : t = s.core.tid r
        · rw [hcur]
          exact (hheld r hr).2
        · exact hi.old t ht (h ▸ hcur)
      · rw [s.core.spawn_tid_ne r h] at hne
        exact hi.old t ht hne
    · simp at hne
  · intro r' hr' hfreed
    rw [s.core.spawn_freed] at hfreed
    have hrr : r' ≠ r := by
      rintro rfl
      rw [(hheld r' hr).1] at hfreed
      cases hfreed
    rw [s.core.spawn_tid_ne r hrr, s.core.spawn_thread_lt r (hi.core.tid_lt r' hr').1]
    exact hi.freed r' hr' hfreed
  · intro r' hr'
    obtain rfl : r = r' := Option.some.inj (hr.symm.trans hr')
    rw [s.core.spawn_freed, s.core.spawn_tid_self, s.core.spawn_thread_new]
    simp only [closed, hpc]
    exact ⟨(hheld r hr).1, rfl⟩

theorem EngineInv.move {ok : Bool} (hi : EngineInv h s) (hok : InOrder h s (.move ok))
    (hs : s.step (.move ok) = some s') : EngineInv ((s, .move ok) :: h) s' := by
  have hplace := hi.place
  simp only [step] at hs
  cases hpc : s.pc with
  | create j =>
    simp only [hpc, engineStep] at hs
    split at hs
    · rename_i core pc heq
      simp only [Option.some.injEq] at hs
      subst hs
      split at heq
      · simp only [Option.some.injEq, Prod.mk.injEq] at heq
        obtain ⟨rfl, rfl⟩ := heq
        simp only [Place, hpc] at hplace
        exact hi.goto (by simpa [Place, closed, hpc] using hplace.2)
      · rename_i hne
        simp only [not_or, Bool.not_eq_false] at hne
        simp only [Option.some.injEq, Prod.mk.injEq] at heq
        obtain ⟨rfl, rfl⟩ := heq
        refine hi.launch hpc (hok ?_)
        simp [launches, hpc, hne.1, hne.2]
    · cases hs
  | swap new =>
    obtain ⟨hheld, hnew, hc⟩ : Held s.core 0 ∧ New s.core new ∧ closed h = false := by
      simpa [Place, hpc] using hplace
    cases hr : s.core.jobRunner with
    | none =>
      simp only [hpc, engineStep, hr, Option.some.injEq] at hs
      subst hs
      exact hi.goto ⟨hnew, by simp [hr]⟩
    | some r =>
      simp only [hpc, engineStep, hr, Option.some.injEq] at hs
      subst hs
      exact hi.goto ⟨hr, hheld, fun n hn => by cases hn; exact hnew⟩
  | load call =>
    obtain ⟨hheld, hc, hrun⟩ : Held s.core 0 ∧ closed h = false ∧ ∀ j, call ≠ .run j := by
      simpa [Place, hpc] using hplace
    simp only [hpc, engineStep, Option.some.injEq] at hs
    subst hs
    refine hi.goto ?_
    have hcl : closed ((s, .move ok) :: h) = false := by simp [closed, hpc, hc]
    cases hr : s.core.jobRunner with
    | none =>
      cases call with
      | run j => exact absurd rfl (hrun j)
      | _ => simp [EngineCall.loaded, Place, Held, hr]
    | some r =>
      cases call with
      | run j => exact absurd rfl (hrun j)
      | _ => exact ⟨hr, hheld, by simp⟩
  | cancel r k =>
    simp only [hpc, engineStep, Option.some.injEq] at hs
    subst hs
    have hsame := SameHandles.cancel s.core (s.core.tid r)
    have hf := Core.Frame.cancel s.core (s.core.tid r)
    refine hi.same hsame (hi.core.cancel _) ?_ ?_
    · intro t ht
      exact (hi.tasks t ht).congr (hf.pc t) (hf.tasks t)
        (Or.inr (by simp only [Core.exec, hf.runner, hf.taskRunners]))
    · simp only [Place, hpc, hsame.held, hsame.new, hsame.jobRunner] at hplace ⊢
      exact hplace
  | join r k =>
    simp only [hpc, engineStep] at hs
    split at hs
    · rename_i core pc heq
      simp only [Option.some.injEq] at hs
      subst hs
      split at heq
      · rename_i hx
        simp only [Option.some.injEq, Prod.mk.injEq] at heq
        obtain ⟨rfl, rfl⟩ := heq
        exact hi.join hpc hx
      · cases heq
    · cases hs
  | free r new =>
    simp only [hpc, engineStep, Option.some.injEq] at hs
    subst hs
    exact hi.freeRunner hpc
  | store new =>
    simp only [hpc, engineStep, Option.some.injEq] at hs
    subst hs
    exact hi.store hpc
  | recreate r =>
    simp only [hpc, engineStep, Option.some.injEq] at hs
    subst hs
    cases ok with
    | true => exact hi.respawn hpc
    | false =>
      simp only [Place, hpc] at hplace
      exact hi.goto (by simpa [Place, closed, hpc] using hplace.2)
  | freeEngine =>
    simp only [hpc, engineStep, Option.some.injEq] at hs
    subst hs
    simp only [Place, hpc] at hplace
    exact hi.goto (by simpa [Place, closed, hpc] using hplace)
  | done b => simp [hpc, engineStep] at hs

theorem EngineInv.call {c : EngineCall} (hi : EngineInv h s) (hok : InOrder h s (.call c))
    (hs : s.step (.call c) = some s') : EngineInv ((s, .call c) :: h) s' := by
  have hplace := hi.place
  simp only [step] at hs
  split at hs
  · rename_i b hpc
    split at hs
    · rename_i hv
      simp only [Option.some.injEq] at hs
      subst hs
      simp only [Place, hpc] at hplace
      refine hi.goto ?_
      cases c with
      | run j => exact ⟨by simpa [EngineCall.valid] using hv.2, hplace⟩
      | _ =>
        have hc : closed h = false := hok
        rw [hc] at hplace
        exact ⟨hplace, hc, by simp⟩
    · cases hs
  · cases hs

/-- Every step in order keeps the invariant. -/
theorem EngineInv.step (hi : EngineInv h s) (hok : InOrder h s l) (hs : s.step l = some s') :
    EngineInv ((s, l) :: h) s' := by
  cases l with
  | newJob job =>
    simp only [Engine.step, Option.some.injEq] at hs
    subst hs
    have hsame := SameHandles.newJob s.core job
    refine hi.same hsame (hi.core.newJob job) ?_ (hi.place.same hsame rfl rfl)
    exact fun t ht => (hi.tasks t ht).congr rfl rfl (Or.inr rfl)
  | call c => exact hi.call hok hs
  | move ok => exact hi.move hok hs
  | thread t l => exact hi.thread hok hs

/-- In every run whose steps are in order, handles are used properly. -/
theorem run_handlesOk {h : History Engine Label} {s : Engine}
    (hr : Run step InOrder create h s) : HandlesOk s :=
  (Run.invariant EngineInv.create (fun _ _ _ _ hi hok hs => hi.step hok hs) hr).handlesOk

/-- `engine_run`, with no runner before. -/
def firstRun (j : Nat) : List Label :=
  [.call (.run j), .move true, .move true, .move true]

/-- The job thread starts its task and waits for it; then it is replaced
by the thread of a second `engine_run`, whose `job_runner_destroy`
cancels and joins it. -/
def replacedRun : List Label :=
  [Label.newJob oneTask] ++ firstRun 0 ++
  [Label.thread 0 (.job true), .thread 0 (.job true), .thread 0 (.job true), .thread 0 (.job true),
    .thread 0 (.task 0 .spawned), .newJob oneTask, .call (.run 1), .move true, .move true,
    .move true, .thread 0 .cancelled, .thread 0 (.job true), .thread 0 (.task 0 (.finished 2)),
    .thread 0 (.job true), .thread 0 (.job true), .move true, .move true, .move true]

theorem run_handlesOk_replacedRun :
    ∃ h s, Run step InOrder create h s ∧ (s.core.runners 0).freed = true ∧
      ((s.core.exec 0).thread.tasks 0).joins = 1 ∧ HandlesOk s := by
  obtain ⟨h, s, hr, hc⟩ := Run.of_check step InOrder create replacedRun
    (fun s => (s.core.runners 0).freed && ((s.core.exec 0).thread.tasks 0).joins == 1)
    (by decide +kernel)
  simp only [Bool.and_eq_true, beq_iff_eq] at hc
  exact ⟨h, s, hr, hc.1, hc.2, run_handlesOk hr⟩

/-- A stop, and another one. -/
def stoppedTwice : List Label :=
  [Label.newJob oneTask] ++ firstRun 0 ++
  [Label.call .stop, .move true, .move true, .thread 0 (.job true), .thread 0 (.job true),
    .thread 0 .cancelled, .move true, .call .stop, .move true]

/-- A task that ends by itself. -/
def taskEnded : List Label :=
  [Label.newJob oneTask] ++ firstRun 0 ++
  [Label.thread 0 (.job true), .thread 0 (.job true), .thread 0 (.job true), .thread 0 (.job true),
    .thread 0 (.task 0 .spawned), .thread 0 (.task 0 (.finished 0)), .thread 0 (.job true)]

/-- Two stops in a row cancel the same job thread twice, the second time
when it has been joined; and the thread of a task that ends by itself is
cancelled after it has been joined. -/
theorem run_handles_reused :
    (∃ h s, Run step always create h s ∧ s.usesJob = some 0 ∧ (s.core.threads 0).joins = 1 ∧
      ¬ HandlesOk s) ∧
    ∃ h s, Run step always create h s ∧ (s.core.exec 0).usesTask = some 0 ∧
      ((s.core.exec 0).thread.tasks 0).joins = 1 ∧ ¬ HandlesOk s := by
  constructor
  · obtain ⟨h, s, hr, hc⟩ := Run.of_check step always create stoppedTwice
      (fun s => s.usesJob == some 0 && (s.core.threads 0).joins == 1) (by decide +kernel)
    simp only [Bool.and_eq_true, beq_iff_eq] at hc
    refine ⟨h, s, hr, hc.1, hc.2, fun hok => ?_⟩
    have h0 := (hok.job 0 hc.1).2
    rw [hc.2] at h0
    cases h0
  · obtain ⟨h, s, hr, hc⟩ := Run.of_check step always create taskEnded
      (fun s => decide (0 < s.core.nthreads) && (s.core.exec 0).usesTask == some 0 &&
        ((s.core.exec 0).thread.tasks 0).joins == 1) (by decide +kernel)
    simp only [Bool.and_eq_true, beq_iff_eq, decide_eq_true_eq] at hc
    refine ⟨h, s, hr, hc.1.2, hc.2, fun hok => ?_⟩
    have h0 := (hok.task 0 hc.1.1 0 hc.1.2).2
    rw [hc.2] at h0
    cases h0

end Pyoneer.Runtime.Engine
