/-
Pyoneer.Runtime.Stages — the stages of a command, and what they leave
alone.

`worker_run` and `worker_assign` wait for the lock, derive the status and
test it, act, and report. Until they act, and from the moment they
report, a step changes nothing but cached statuses (`Worker.Left`), and
the stage that follows is known (`Worker.callStep_waits`,
`Worker.callStep_reporting`). What the threads do meanwhile is their own
progress: it never changes which job, which runner or which thread there
is (`Worker.Same`).
-/
import Pyoneer.Runtime.Refusal

namespace Pyoneer.Runtime

open Pyoneer.Lib Pyoneer.Blueprint

/-! ## What a step leaves alone -/

namespace Worker

/-- The step changes at most cached statuses, the lock, and the number
of jobs. -/
structure Left (w w' : Worker) : Prop where
  job : w'.job = w.job
  jobRunner : w'.core.jobRunner = w.core.jobRunner
  jobFreed : w'.core.jobFreed = w.core.jobFreed
  nrunners : w'.core.nrunners = w.core.nrunners
  runners : w'.core.runners = w.core.runners
  nthreads : w'.core.nthreads = w.core.nthreads
  threads : w'.core.threads = w.core.threads
  tasks : ∀ j < w.core.njobs, (w'.core.jobs j).tasks = (w.core.jobs j).tasks

/-- What no thread changes by its own progress: the job, the runner that
the engine holds, which threads there are, and which of them were
cancelled or joined. -/
structure Same (w w' : Worker) : Prop where
  job : w'.job = w.job
  jobRunner : w'.core.jobRunner = w.core.jobRunner
  nrunners : w'.core.nrunners = w.core.nrunners
  nthreads : w'.core.nthreads = w.core.nthreads
  runnerJob : ∀ r, (w'.core.runners r).job = (w.core.runners r).job
  tid : ∀ r, w'.core.tid r = w.core.tid r
  freed : ∀ r, (w'.core.runners r).freed = (w.core.runners r).freed
  runner : ∀ t, (w'.core.threads t).runner = (w.core.threads t).runner
  joins : ∀ t, (w'.core.threads t).joins = (w.core.threads t).joins
  cancelReq : ∀ t, (w'.core.threads t).body.cancelReq = (w.core.threads t).body.cancelReq

variable {w w' w'' : Worker} {pc pc' : CallPc} {ok : Bool}

theorem Left.of_core (hcore : w'.core = w.core) (hjob : w'.job = w.job) : Left w w' := by
  refine ⟨hjob, ?_, ?_, ?_, ?_, ?_, ?_, fun _ _ => ?_⟩ <;> rw [hcore]

theorem Left.putStatus (w : Worker) (j : Nat) (seen : List TaskStatus) :
    Left w { w with core := w.core.putStatus j seen } := by
  refine ⟨rfl, rfl, rfl, rfl, rfl, rfl, rfl, fun j' _ => ?_⟩
  exact update_field w.core.jobs Job.tasks (Job.tasks_putStatus _ _) j'

theorem Left.place (w : Worker) (r : Request) (b : Bool) :
    Left w { w with core := (r.place w.core).1, locked := b } := by
  have hnew : ∀ job, Left w { w with core := w.core.newJob job, locked := b } := fun job =>
    ⟨rfl, rfl, rfl, rfl, rfl, rfl, rfl, fun j hj => by
      simp [Core.newJob, Nat.ne_of_lt hj]⟩
  cases r with
  | run job | assign job => exact hnew job.1
  | _ => exact .of_core rfl rfl

/-- A call that is not committed writes nothing but cached statuses. -/
theorem Left.of_callStep (hc : pc.committed = false) (hs : w.callStep pc ok = some (w', pc')) :
    Left w w' := by
  cases pc with
  | idle | returned c report => simp [callStep] at hs
  | enter r =>
    simp only [callStep] at hs
    split at hs
    · split at hs
      · cases hs
        exact .of_core rfl rfl
      · split at hs <;> cases hs
        exact .place w r true
    · cases hs
      exact .of_core rfl rfl
  | update c y =>
    simp only [callStep] at hs
    split at hs <;> cases hs <;> exact .of_core rfl rfl
  | scan c y j k seen | encodeScan c st j k seen =>
    simp only [callStep] at hs
    split at hs <;> cases hs
    · exact .of_core rfl rfl
    · exact .putStatus w j seen
  | decide c =>
    simp only [callStep] at hs
    split at hs <;> cases hs
    exact .of_core rfl rfl
  | engine c epc | destroyJob c j | setJob c j => cases hc
  | encode c =>
    rcases callStep_encode hs with ⟨rfl, _, _⟩ | ⟨rfl, _, _, _⟩
    · exact .of_core rfl rfl
    · exact .of_core rfl rfl
  | encodeTasks c st j k report =>
    obtain ⟨rfl, _⟩ := callStep_encodeTasks hs
    exact .of_core rfl rfl
  | mapStatus c y j | encodeStatus c st j | unlock c report =>
    cases hs
    exact .of_core rfl rfl

theorem Left.same (hl : Left w w') : Same w w' := by
  refine ⟨hl.job, hl.jobRunner, hl.nrunners, hl.nthreads, fun r => ?_, fun r => ?_, fun r => ?_,
    fun t => ?_, fun t => ?_, fun t => ?_⟩
  · rw [hl.runners]
  · rw [Core.tid, Core.tid, hl.runners]
  · rw [hl.runners]
  · rw [hl.threads]
  · rw [hl.threads]
  · rw [hl.threads]

theorem Same.refl (w : Worker) : Same w w := (Left.of_core rfl rfl).same

theorem Same.trans (h : Same w w') (h' : Same w' w'') : Same w w'' where
  job := h'.job.trans h.job
  jobRunner := h'.jobRunner.trans h.jobRunner
  nrunners := h'.nrunners.trans h.nrunners
  nthreads := h'.nthreads.trans h.nthreads
  runnerJob := fun r => (h'.runnerJob r).trans (h.runnerJob r)
  tid := fun r => (h'.tid r).trans (h.tid r)
  freed := fun r => (h'.freed r).trans (h.freed r)
  runner := fun t => (h'.runner t).trans (h.runner t)
  joins := fun t => (h'.joins t).trans (h.joins t)
  cancelReq := fun t => (h'.cancelReq t).trans (h.cancelReq t)

theorem Same.threadStep {core' : Core} {t : Nat} {l : JobExec.Label}
    (hs : w.core.threadStep t l = some core') : Same w { w with core := core' } := by
  obtain ⟨_, e, he, rfl⟩ := Core.threadStep_eq hs
  refine ⟨rfl, rfl, rfl, rfl, Core.putExec_job _ t e, Core.putExec_tid _ t e,
    Core.putExec_freed _ t e, Core.putExec_runner _ t e, Core.putExec_joins _ t e, fun t' => ?_⟩
  have hreq : e.thread.cancelReq = (w.core.threads t).body.cancelReq := JobExec.step_cancelReq he
  exact update_field w.core.threads (fun x => x.body.cancelReq) hreq t'

end Worker

/-- The runner `new` was created for the job of `c`. -/
def Launched (core : Core) (c : Cmd) (new : Nat) : Prop :=
  new < core.nrunners ∧ c.job = some (core.runners new).job

/-- The thread of runner `r` has terminated. -/
def Halted (core : Core) (r : Nat) : Prop := (core.threads (core.tid r)).body.pc = .exited

section Runners

variable {w w' : Worker} {pc pc' : CallPc} {core core' : Core} {ok : Bool}

/-- No runner that there is gets another job. -/
theorem engineStep_runnerJob {epc epc' : EnginePc}
    (hs : engineStep core epc ok = some (core', epc')) :
    core.nrunners ≤ core'.nrunners ∧
      ∀ r < core.nrunners, (core'.runners r).job = (core.runners r).job := by
  have hspawn : ∀ r r', ((core.spawn r).runners r').job = (core.runners r').job := fun r r' =>
    update_field core.runners JobRunner.job (by rfl) r'
  cases epc with
  | create j =>
    simp only [engineStep] at hs
    split at hs <;> cases hs
    · exact ⟨Nat.le_refl _, fun _ _ => rfl⟩
    · refine ⟨Nat.le_succ _, fun r hr => ?_⟩
      simp [Core.launch, Core.spawn, Core.newRunner, Nat.ne_of_lt hr]
  | swap new | join r k =>
    simp only [engineStep] at hs
    split at hs <;> cases hs <;> exact ⟨Nat.le_refl _, fun _ _ => rfl⟩
  | free r new =>
    cases hs
    exact ⟨Nat.le_refl _, fun r' _ => update_field core.runners JobRunner.job (by rfl) r'⟩
  | recreate r =>
    cases hs
    cases ok with
    | false => exact ⟨Nat.le_refl _, fun _ _ => rfl⟩
    | true => exact ⟨Nat.le_refl _, fun r' _ => hspawn r r'⟩
  | done b => cases hs
  | _ =>
    cases hs
    exact ⟨Nat.le_refl _, fun _ _ => rfl⟩

theorem Launched.mono {c : Cmd} {new : Nat} (h : Launched core c new)
    (hle : core.nrunners ≤ core'.nrunners)
    (hjob : ∀ r < core.nrunners, (core'.runners r).job = (core.runners r).job) :
    Launched core' c new :=
  ⟨Nat.lt_of_lt_of_le h.1 hle, by rw [hjob new h.1]; exact h.2⟩

/-- A new runner stays, whatever a call does. -/
theorem Launched.callStep {c : Cmd} {new : Nat} (h : Launched w.core c new)
    (hs : w.callStep pc ok = some (w', pc')) : Launched w'.core c new := by
  by_cases hc : pc.committed = false
  · have hl := Worker.Left.of_callStep hc hs
    exact h.mono (Nat.le_of_eq hl.nrunners.symm) fun r _ => by rw [hl.runners]
  · cases pc with
    | engine c epc =>
      obtain ⟨core', epc', he, rfl, _⟩ := Worker.callStep_engine hs
      obtain ⟨hle, hjob⟩ := engineStep_runnerJob he
      exact h.mono hle hjob
    | destroyJob c j =>
      cases hs
      cases hj : w.job <;> exact h
    | setJob c j =>
      cases hs
      exact h
    | _ => exact absurd rfl hc

theorem Launched.threadStep {c : Cmd} {new t : Nat} {l : JobExec.Label} (h : Launched core c new)
    (hs : core.threadStep t l = some core') : Launched core' c new := by
  obtain ⟨_, e, _, rfl⟩ := Core.threadStep_eq hs
  exact h.mono (Nat.le_refl _) fun r _ => Core.putExec_job _ t e r

theorem Halted.left {r : Nat} (h : Halted w.core r) (hl : Worker.Left w w') :
    Halted w'.core r := by
  unfold Halted at h ⊢
  rw [hl.threads, hl.same.tid]
  exact h

theorem Halted.threadStep {r t : Nat} {l : JobExec.Label} (h : Halted core r)
    (hs : core.threadStep t l = some core') : Halted core' r := by
  obtain ⟨_, e, he, rfl⟩ := Core.threadStep_eq hs
  unfold Halted at h ⊢
  rw [Core.putExec_tid]
  by_cases ht : core.tid r = t
  · subst ht
    rw [Core.putExec_body]
    exact JobExec.exited_of_step he h
  · rw [Core.putExec_thread_ne _ _ _ ht]
    exact h

theorem Matched.same {j : Nat} (hm : Matched w.core j) (hs : Worker.Same w w') :
    Matched w'.core j := by
  obtain ⟨r, hr, hj⟩ := hm
  exact ⟨r, hs.jobRunner.trans hr, (hs.runnerJob r).trans hj⟩

end Runners

/-- The call is about to allocate the object of its report. -/
def CallPc.allocates : CallPc → Bool
  | .encode _ => true
  | _ => false

/-- `worker_run` and `worker_assign`. -/
def Request.givesJob : Request → Bool
  | .run _ | .assign _ => true
  | _ => false

/-! ## The stages of a command -/

/-- The command on its way to the test of `worker->status`. -/
def CallPc.waits : CallPc → Option Cmd
  | .update c .guard | .scan c .guard _ _ _ | .mapStatus c .guard _ | .decide c => some c
  | _ => none

/-- The command on its way to its report. -/
def CallPc.reporting : CallPc → Option Cmd
  | .update c .report | .scan c .report _ _ _ | .mapStatus c .report _ | .encode c
  | .encodeScan c _ _ _ _ | .encodeStatus c _ _ | .encodeTasks c _ _ _ _ | .unlock c (some _) =>
    some c
  | _ => none

section Stages

variable {w w' : Worker} {pc pc' : CallPc} {c : Cmd} {ok : Bool}

theorem CallPc.stage_cases (pc : CallPc) :
    (∃ r, pc = .enter r) ∨ (∃ c, pc.waits = some c) ∨ pc.committed = true ∨
      (∃ c, pc.reporting = some c) ∨ pc.null = true ∨ ∃ c report, pc = .returned c (some report) := by
  cases pc with
  | idle => simp [null]
  | enter r => simp
  | update c y | scan c y j k seen | mapStatus c y j => cases y <;> simp [waits, reporting]
  | decide c => simp [waits]
  | engine c epc | destroyJob c j | setJob c j => simp [committed]
  | unlock c report | returned c report => cases report <;> simp [null, reporting]
  | _ => simp [reporting]

/-- On its way to the test a call only reads, and has the lock if it is
a command. -/
theorem CallPc.of_waits (hw : pc.waits = some c) :
    pc.committed = false ∧ pc.holdsLock = c.isCommand := by
  cases pc with
  | update c' y | scan c' y j k seen | mapStatus c' y j =>
    cases y <;> cases hw
    exact ⟨rfl, rfl⟩
  | decide c' =>
    cases hw
    exact ⟨rfl, rfl⟩
  | _ => cases hw

theorem CallPc.of_reporting (hr : pc.reporting = some c) :
    pc.committed = false ∧ pc.holdsLock = c.isCommand := by
  cases pc with
  | update c' y | scan c' y j k seen | mapStatus c' y j =>
    cases y <;> cases hr
    exact ⟨rfl, rfl⟩
  | unlock c' report =>
    cases report <;> cases hr
    exact ⟨rfl, rfl⟩
  | encode c' | encodeScan c' st j k seen | encodeStatus c' st j | encodeTasks c' st j k report =>
    cases hr
    exact ⟨rfl, rfl⟩
  | _ => cases hr

theorem CallPc.committed_of_null (hn : pc.null = true) : pc.committed = false := by
  cases pc with
  | engine c epc | destroyJob c j | setJob c j => cases hn
  | _ => rfl

/-- From the test a command goes to its unlock, to `engine_run`, or to
the line that destroys the job. -/
theorem Worker.callStep_waits (hw : pc.waits = some c) (hcmd : c.isCommand = true)
    (hs : w.callStep pc ok = some (w', pc')) :
    pc'.waits = some c ∨ pc' = .unlock c none ∨
      (∃ j, c = .run j ∧ pc' = .engine c (.create j)) ∨
      ∃ j, c = .assign j ∧ pc' = .destroyJob c j := by
  cases pc with
  | update c' y | scan c' y j k seen =>
    cases y <;> cases hw
    simp only [callStep] at hs
    split at hs <;> cases hs <;> exact Or.inl rfl
  | mapStatus c' y j =>
    cases y <;> cases hw
    cases hs
    exact Or.inl rfl
  | decide c' =>
    cases hw
    simp only [callStep] at hs
    split at hs
    · rename_i pc heq
      cases hs
      rcases Cmd.choose_cases heq with ⟨_, rfl⟩ | ⟨hc, rfl⟩ | ⟨j, rfl, _, rfl⟩ | ⟨j, rfl, _, rfl⟩ |
        ⟨j, hc, _, rfl⟩ | ⟨hc, rfl | rfl⟩
      · exact Or.inr (Or.inl rfl)
      · rw [hcmd] at hc
        cases hc
      · exact Or.inr (Or.inr (Or.inl ⟨j, rfl, rfl⟩))
      · exact Or.inr (Or.inr (Or.inr ⟨j, rfl, rfl⟩))
      all_goals
        rw [hcmd] at hc
        cases hc
    · cases hs
  | _ => cases hw

/-- A command comes to its report, unless it fails to get an object for
it. -/
theorem Worker.callStep_reporting (hr : pc.reporting = some c)
    (hs : w.callStep pc ok = some (w', pc')) :
    pc'.reporting = some c ∨ (∃ report, pc' = .returned c (some report)) ∨
      (pc.allocates = true ∧ ok = false ∧ pc' = .unlock c none) := by
  cases pc with
  | update c' y | scan c' y j k seen =>
    cases y <;> cases hr
    simp only [callStep] at hs
    split at hs <;> cases hs <;> exact Or.inl rfl
  | mapStatus c' y j =>
    cases y <;> cases hr
    cases hs
    exact Or.inl rfl
  | encode c' =>
    cases hr
    simp only [callStep] at hs
    split at hs
    · rename_i hok
      cases hs
      exact Or.inr (Or.inr ⟨rfl, hok, rfl⟩)
    · split at hs <;> cases hs <;> exact Or.inl rfl
  | encodeScan c' st j k seen | encodeTasks c' st j k report =>
    cases hr
    simp only [callStep] at hs
    split at hs <;> cases hs <;> exact Or.inl rfl
  | encodeStatus c' st j =>
    cases hr
    cases hs
    exact Or.inl rfl
  | unlock c' report =>
    cases report <;> cases hr
    cases hs
    exact Or.inr (Or.inl ⟨_, rfl⟩)
  | _ => cases hr

/-- A call that is refused stays so. -/
theorem Worker.callStep_of_null (hn : pc.null = true) (hs : w.callStep pc ok = some (w', pc')) :
    pc'.null = true := by
  cases pc with
  | unlock c report =>
    cases report <;> cases hn
    cases hs
    rfl
  | idle | returned c report => cases hs
  | _ => cases hn

end Stages

end Pyoneer.Runtime
