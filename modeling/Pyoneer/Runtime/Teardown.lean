/-
Pyoneer.Runtime.Teardown — `worker_destroy`.

The `switch` of `worker_destroy` is over the status that the last
`update_status` has left, and it falls through: WORKING stops the engine
first, NOT_WORKING begins with `job_destroy`, NOT_ASSIGNED with
`engine_destroy`. There is no case for ASSIGNED. The job threads go on
in between; `engine_stop` waits for the one that the runner has.

`engine_destroy` stops its runner and frees the engine, but not the
runner, so that a worker that has been given a job leaves something
behind in every case (`not_tearsDown`), and one that has not leaves
nothing (`tearsDown_of_bare`).
-/
import Pyoneer.Runtime.Exclusion

namespace Pyoneer.Runtime

open Pyoneer.Lib Pyoneer.Blueprint

/-- Where `worker_destroy` is.

* `dispatch` — at the `switch`;
* `stop pc` — in `engine_stop`;
* `destroyJob` — before `job_destroy(worker->job)`;
* `destroyEngine pc` — in `engine_destroy`;
* `free` — after the `switch`;
* `done` — returned. -/
inductive DestroyPc where
  | dispatch
  | stop (pc : EnginePc)
  | destroyJob
  | destroyEngine (pc : EnginePc)
  | free
  | done
  deriving DecidableEq, Repr

/-- The `switch (worker->status)`. -/
def destroyCase : WorkerStatus → DestroyPc
  | .working => .stop (.load .stop)
  | .notWorking => .destroyJob
  | .notAssigned => .destroyEngine (.load .destroy)
  | .assigned => .free

/-- A worker that is being destroyed. -/
structure Teardown where
  worker : Worker
  pc : DestroyPc

namespace Teardown

/-- What can happen: `worker_destroy` takes a step, a thread takes a
step. -/
inductive Label where
  | move
  | thread (t : Nat) (l : JobExec.Label)

/-- A step in a function of the engine, with what follows it. -/
def inEngine (d : Teardown) (pc : EnginePc) (stay : EnginePc → DestroyPc) (next : DestroyPc) :
    Option Teardown :=
  match engineStep d.worker.core pc true with
  | some (core, .done _) => some { worker := { d.worker with core := core }, pc := next }
  | some (core, pc) => some { worker := { d.worker with core := core }, pc := stay pc }
  | none => none

def moveStep (d : Teardown) : Option Teardown :=
  match d.pc with
  | .dispatch => some { d with pc := destroyCase d.worker.status }
  | .stop pc => d.inEngine pc .stop .destroyJob
  | .destroyJob =>
    some { worker := { d.worker with core := d.worker.core.destroyJob d.worker.job }
           pc := .destroyEngine (.load .destroy) }
  | .destroyEngine pc => d.inEngine pc .destroyEngine .free
  | .free => some { d with pc := .done }
  | .done => none

def step (d : Teardown) : Label → Option Teardown
  | .move => d.moveStep
  | .thread t l =>
    match d.worker.core.threadStep t l with
    | some core => some { d with worker := { d.worker with core := core } }
    | none => none

/-- `worker_destroy` is called. -/
def start (w : Worker) : Teardown := { worker := w, pc := .dispatch }

/-! ## What has been released -/

/-- The step is `job_destroy` on job `o`. -/
def releasesJob (o : Nat) (x : Teardown × Label) : Bool :=
  match x.2 with
  | .move => x.1.pc == .destroyJob && x.1.worker.job == some o
  | _ => false

/-- The step is `free(engine)`. -/
def releasesEngine (x : Teardown × Label) : Bool :=
  match x.2 with
  | .move => x.1.pc == .destroyEngine .freeEngine
  | _ => false

/-- The step is `free(runner)`, in `job_runner_destroy`. -/
def releasesRunner (r : Nat) (x : Teardown × Label) : Bool :=
  match x.2, x.1.pc with
  | .move, .stop (.free r' _) | .move, .destroyEngine (.free r' _) => r' == r
  | _, _ => false

/-- What `worker_destroy` owes the worker `w`, at its end: no job thread
is live; the job, the engine and its runner were released once; and the
job was released when no thread iterated it. -/
structure Clean (w : Worker) (h : History Teardown Label) (d : Teardown) : Prop where
  threads : ∀ t, ¬ d.worker.core.Live t
  job : ∀ o, w.job = some o → h.countP (releasesJob o) = 1
  engine : h.countP releasesEngine = 1
  runner : ∀ r, w.core.jobRunner = some r → h.countP (releasesRunner r) = 1
  after : ∀ o, ∀ x ∈ h, releasesJob o x = true →
    ∀ t, x.1.worker.core.Live t → x.1.worker.core.jobOf t ≠ o

end Teardown

/-- `worker_destroy` returns, and whenever it does it has left nothing
behind. -/
def TearsDown (w : Worker) : Prop :=
  (∃ h d, Run Teardown.step always (.start w) h d ∧ d.pc = .done) ∧
    ∀ h d, Run Teardown.step always (.start w) h d → d.pc = .done → Teardown.Clean w h d

namespace Teardown

/-! ## Runs of `worker_destroy` -/

/-- The points of the engine that `engine_stop` and `engine_destroy` go
through. -/
def StopPoint : EnginePc → Prop
  | .load call => call = .stop ∨ call = .destroy
  | .cancel _ k | .join _ k => k = .return ∨ k = .freeEngine
  | .freeEngine => True
  | _ => False

theorem StopPoint.step {core core' : Core} {epc epc' : EnginePc} {ok : Bool} (hp : StopPoint epc)
    (hs : engineStep core epc ok = some (core', epc')) : StopPoint epc' ∨ epc' = .done true := by
  cases epc with
  | load call =>
    cases hs
    rcases hp with rfl | rfl <;> cases core.jobRunner <;> simp [EngineCall.loaded, StopPoint]
  | cancel r k =>
    cases hs
    exact Or.inl hp
  | join r k =>
    simp only [engineStep] at hs
    split at hs <;> cases hs
    rcases hp with rfl | rfl <;> simp [After.next, StopPoint]
  | freeEngine =>
    cases hs
    exact Or.inr rfl
  | _ => exact hp.elim

/-- `worker_destroy` is in `engine_stop` or `engine_destroy` only. -/
def Stops (pc : DestroyPc) : Prop :=
  ∀ epc, pc = .stop epc ∨ pc = .destroyEngine epc → StopPoint epc

section Steps

variable {w : Worker} {d d' : Teardown} {l : Label}

/-- What a step of the engine leads to. -/
theorem inEngine_cases {epc : EnginePc} {stay : EnginePc → DestroyPc} {next : DestroyPc}
    (hs : d.inEngine epc stay next = some d') :
    ∃ core' epc', engineStep d.worker.core epc true = some (core', epc') ∧
      d'.worker = { d.worker with core := core' } ∧
      ((∃ b, epc' = .done b ∧ d'.pc = next) ∨ ((∀ b, epc' ≠ .done b) ∧ d'.pc = stay epc')) := by
  simp only [inEngine] at hs
  split at hs
  · rename_i core' b he
    cases hs
    exact ⟨core', .done b, he, rfl, Or.inl ⟨b, rfl, rfl⟩⟩
  · rename_i core' epc' hne he
    cases hs
    exact ⟨core', epc', he, rfl, Or.inr ⟨hne, rfl⟩⟩
  · cases hs

theorem Stops.step (hp : Stops d.pc) (hs : d.step l = some d') : Stops d'.pc := by
  cases l with
  | thread t l =>
    simp only [Teardown.step] at hs
    split at hs <;> cases hs
    exact hp
  | move =>
    simp only [Teardown.step, moveStep] at hs
    split at hs
    · cases hs
      cases d.worker.status <;> simp [destroyCase, Stops, StopPoint]
    · rename_i epc hpc
      obtain ⟨core', epc', he, _, ⟨b, _, hpc'⟩ | ⟨hne, hpc'⟩⟩ := inEngine_cases hs
      · simp [hpc', Stops]
      · have hpoint := ((hp epc (Or.inl hpc)).step he).resolve_right (hne true)
        simpa [hpc', Stops] using hpoint
    · cases hs
      simp [Stops, StopPoint]
    · rename_i epc hpc
      obtain ⟨core', epc', he, _, ⟨b, _, hpc'⟩ | ⟨hne, hpc'⟩⟩ := inEngine_cases hs
      · simp [hpc', Stops]
      · have hpoint := ((hp epc (Or.inr hpc)).step he).resolve_right (hne true)
        simpa [hpc', Stops] using hpoint
    · cases hs
      simp [Stops]
    · cases hs

/-- No step of `worker_destroy` frees a runner. -/
theorem Stops.not_releasesRunner (hp : Stops d.pc) (r : Nat) : releasesRunner r (d, l) = false := by
  cases l with
  | thread t l => rfl
  | move =>
    simp only [releasesRunner]
    split
    · rename_i hpc
      exact (hp _ (Or.inl hpc)).elim
    · rename_i hpc
      exact (hp _ (Or.inr hpc)).elim
    · rfl

/-- What a step leaves of the worker, and where it leads from the
`switch`. -/
theorem step_frame (hs : d.step l = some d') : d'.worker.status = d.worker.status ∧
    d'.worker.job = d.worker.job := by
  cases l with
  | thread t l =>
    simp only [Teardown.step] at hs
    split at hs <;> cases hs
    exact ⟨rfl, rfl⟩
  | move =>
    simp only [Teardown.step, moveStep] at hs
    split at hs
    · cases hs
      exact ⟨rfl, rfl⟩
    · obtain ⟨core', epc', _, hw, _⟩ := inEngine_cases hs
      rw [hw]
      exact ⟨rfl, rfl⟩
    · cases hs
      exact ⟨rfl, rfl⟩
    · obtain ⟨core', epc', _, hw, _⟩ := inEngine_cases hs
      rw [hw]
      exact ⟨rfl, rfl⟩
    · cases hs
      exact ⟨rfl, rfl⟩
    · cases hs

end Steps

section Runs

variable {w : Worker} {h : History Teardown Label} {d : Teardown}

/-- `worker_destroy` never frees the runner of the engine. -/
theorem run_runner_kept (hr : Run step always (start w) h d) (r : Nat) :
    h.countP (releasesRunner r) = 0 := by
  have hi := Run.invariant
    (I := fun h d => Stops d.pc ∧ h.countP (releasesRunner r) = 0) ?_ ?_ hr
  · exact hi.2
  · exact ⟨by simp [start, Stops], rfl⟩
  · rintro h d l d' ⟨hp, hcount⟩ _ hs
    refine ⟨hp.step hs, ?_⟩
    rw [List.countP_cons, hp.not_releasesRunner r, hcount]
    rfl

/-- From ASSIGNED `worker_destroy` goes past the engine. -/
theorem run_assigned (hst : w.status = .assigned) (hr : Run step always (start w) h d) :
    h.countP releasesEngine = 0 := by
  have hi := Run.invariant (I := fun h d => d.worker.status = .assigned ∧
    (d.pc = .dispatch ∨ d.pc = .free ∨ d.pc = .done) ∧ h.countP releasesEngine = 0) ?_ ?_ hr
  · exact hi.2.2
  · exact ⟨hst, Or.inl rfl, rfl⟩
  · rintro h d l d' ⟨hst, hpc, hcount⟩ _ hs
    refine ⟨(step_frame hs).1.trans hst, ?_, ?_⟩
    · cases l with
      | thread t l =>
        simp only [step] at hs
        split at hs <;> cases hs
        exact hpc
      | move =>
        rcases hpc with hpc | hpc | hpc <;> simp only [step, moveStep, hpc] at hs <;> cases hs
        · rw [hst]
          exact Or.inr (Or.inl rfl)
        · exact Or.inr (Or.inr rfl)
    · have hno : releasesEngine (d, l) = false := by
        rcases hpc with hpc | hpc | hpc <;> cases l <;> simp [releasesEngine, hpc]
      rw [List.countP_cons, hno, hcount]
      rfl

/-- From NOT_ASSIGNED it goes past the job. -/
theorem run_notAssigned (hst : w.status = .notAssigned) (hr : Run step always (start w) h d)
    (o : Nat) : h.countP (releasesJob o) = 0 := by
  have hi := Run.invariant (I := fun h d => d.worker.status = .notAssigned ∧
    ((∀ epc, d.pc ≠ .stop epc) ∧ d.pc ≠ .destroyJob) ∧ h.countP (releasesJob o) = 0) ?_ ?_ hr
  · exact hi.2.2
  · exact ⟨hst, by simp [start], rfl⟩
  · rintro h d l d' ⟨hst, hpc, hcount⟩ _ hs
    refine ⟨(step_frame hs).1.trans hst, ?_, ?_⟩
    · cases l with
      | thread t l =>
        simp only [step] at hs
        split at hs <;> cases hs
        exact hpc
      | move =>
        simp only [step, moveStep] at hs
        split at hs
        · cases hs
          simp [hst, destroyCase]
        · rename_i epc hstop
          exact absurd hstop (hpc.1 epc)
        · rename_i hjob
          exact absurd hjob hpc.2
        · obtain ⟨core', epc', _, _, ⟨b, _, hpc'⟩ | ⟨_, hpc'⟩⟩ := inEngine_cases hs <;> simp [hpc']
        · cases hs
          simp
        · cases hs
    · have hno : releasesJob o (d, l) = false := by
        cases l <;> simp [releasesJob, hpc.2]
      rw [List.countP_cons, hno, hcount]
      rfl

end Runs

end Teardown

/-- A worker that was given a job is not torn down: its runner is not
freed, or nothing is released from ASSIGNED. -/
theorem not_tearsDown {w : Worker} (hjob : w.job ≠ none)
    (hrunner : w.status = .working ∨ w.status = .notWorking → w.core.jobRunner ≠ none) :
    ¬ TearsDown w := by
  rintro ⟨⟨h, d, hr, hdone⟩, hclean⟩
  have hc := hclean h d hr hdone
  have hkept : w.core.jobRunner ≠ none → False := by
    intro hne
    obtain ⟨r, hr'⟩ := Option.ne_none_iff_exists'.mp hne
    have hone := hc.runner r hr'
    rw [Teardown.run_runner_kept hr] at hone
    cases hone
  cases hst : w.status with
  | assigned =>
    have hone := hc.engine
    rw [Teardown.run_assigned hst hr] at hone
    cases hone
  | notAssigned =>
    obtain ⟨o, ho⟩ := Option.ne_none_iff_exists'.mp hjob
    have hone := hc.job o ho
    rw [Teardown.run_notAssigned hst hr] at hone
    cases hone
  | working => exact hkept (hrunner (Or.inl hst))
  | notWorking => exact hkept (hrunner (Or.inr hst))

namespace Teardown

/-- How far a worker without a job is: the engine is freed at the end. -/
def BareAt (h : History Teardown Label) (pc : DestroyPc) : Prop :=
  (h.countP releasesEngine = 0 ∧ (pc = .dispatch ∨ pc = .destroyEngine (.load .destroy) ∨
    pc = .destroyEngine .freeEngine)) ∨
  (h.countP releasesEngine = 1 ∧ (pc = .free ∨ pc = .done))

section Bare

variable {w : Worker} (hst : w.status = .notAssigned) (hjob : w.job = none)
  (hrunner : w.core.jobRunner = none) (hthreads : w.core.nthreads = 0)

include hst hrunner

/-- The steps of `worker_destroy` on such a worker. -/
theorem step_bare :
    step ⟨w, .dispatch⟩ .move = some ⟨w, .destroyEngine (.load .destroy)⟩ ∧
    step ⟨w, .destroyEngine (.load .destroy)⟩ .move = some ⟨w, .destroyEngine .freeEngine⟩ ∧
    step ⟨w, .destroyEngine .freeEngine⟩ .move = some ⟨w, .free⟩ ∧
    step ⟨w, .free⟩ .move = some ⟨w, .done⟩ := by
  refine ⟨?_, ?_, rfl, rfl⟩
  · simp [step, moveStep, hst, destroyCase]
  · simp [step, moveStep, inEngine, engineStep, hrunner, EngineCall.loaded]

theorem run_bare_done : ∃ h d, Run step always (start w) h d ∧ d.pc = .done := by
  obtain ⟨h1, h2, h3, h4⟩ := step_bare hst hrunner
  have hr : Run step always (start w) [] ⟨w, .dispatch⟩ := .nil
  exact ⟨_, _, (((hr.snoc trivial h1).snoc trivial h2).snoc trivial h3).snoc trivial h4, rfl⟩

include hjob hthreads

theorem run_bare {h : History Teardown Label} {d : Teardown}
    (hr : Run step always (start w) h d) :
    d.worker = w ∧ BareAt h d.pc ∧ ∀ x ∈ h, ∀ o, releasesJob o x = false := by
  obtain ⟨h1, h2, h3, h4⟩ := step_bare hst hrunner
  refine Run.invariant (I := fun h d => d.worker = w ∧ BareAt h d.pc ∧
    ∀ x ∈ h, ∀ o, releasesJob o x = false) ⟨rfl, Or.inl ⟨rfl, Or.inl rfl⟩, by simp⟩ ?_ hr
  rintro h ⟨w', pc⟩ l d' ⟨hw, hpc, hjobs⟩ _ hs
  obtain rfl : w' = w := hw
  have hjobs' : ∀ x ∈ (⟨w', pc⟩, l) :: h, ∀ o, releasesJob o x = false := by
    rintro x hx o
    rcases List.mem_cons.mp hx with rfl | hx
    · cases l <;> simp [releasesJob, hjob]
    · exact hjobs x hx o
  cases l with
  | thread t l =>
    simp only [step] at hs
    split at hs
    · rename_i core hthread
      have hlt := (Core.threadStep_eq hthread).1
      rw [hthreads] at hlt
      cases hlt
    · cases hs
  | move =>
    rcases hpc with ⟨hcount, rfl | rfl | rfl⟩ | ⟨hcount, rfl | rfl⟩
    · rw [h1] at hs
      cases hs
      exact ⟨rfl, Or.inl ⟨by simpa [releasesEngine] using hcount, Or.inr (Or.inl rfl)⟩, hjobs'⟩
    · rw [h2] at hs
      cases hs
      exact ⟨rfl, Or.inl ⟨by simpa [releasesEngine] using hcount, Or.inr (Or.inr rfl)⟩, hjobs'⟩
    · rw [h3] at hs
      cases hs
      exact ⟨rfl, Or.inr ⟨by simp [releasesEngine, hcount], Or.inl rfl⟩, hjobs'⟩
    · rw [h4] at hs
      cases hs
      exact ⟨rfl, Or.inr ⟨by simpa [releasesEngine] using hcount, Or.inr rfl⟩, hjobs'⟩
    · cases hs

end Bare

end Teardown

/-- A worker without a job has nothing but its engine. -/
theorem tearsDown_of_bare {w : Worker} (hst : w.status = .notAssigned) (hjob : w.job = none)
    (hrunner : w.core.jobRunner = none) (hthreads : w.core.nthreads = 0) : TearsDown w := by
  refine ⟨Teardown.run_bare_done hst hrunner, fun h d hr hdone => ?_⟩
  obtain ⟨hw, hpc, hjobs⟩ := Teardown.run_bare hst hjob hrunner hthreads hr
  have hfreed : h.countP Teardown.releasesEngine = 1 := by
    rcases hpc with ⟨_, hpc | hpc | hpc⟩ | ⟨hone, _⟩
    · simp [hdone] at hpc
    · simp [hdone] at hpc
    · simp [hdone] at hpc
    · exact hone
  refine ⟨fun t ht => ?_, by simp [hjob], hfreed, by simp [hrunner], fun o x hx hrel => ?_⟩
  · rw [hw] at ht
    have hlt := ht.1
    rw [hthreads] at hlt
    cases hlt
  · rw [hjobs x hx o] at hrel
    cases hrel

/-! ## Reachable workers -/

/-- No runner was ever created. -/
structure Unstarted (c : Core) : Prop where
  threads : c.nthreads = 0
  runner : c.jobRunner = none
  tasks : ∀ j k st, (c.jobs j).taskStatus k = some st → st = .ready
  status : ∀ j, (c.jobs j).status = .ready

/-- Past the creation of a runner, or past the read of one. -/
def EnginePc.hasRunner : EnginePc → Bool
  | .create _ | .load _ | .freeEngine | .done _ => false
  | _ => true

/-- What a call knows of the runners. -/
def CallPc.Knows (w : Worker) : CallPc → Prop
  | .scan _ _ _ k seen | .encodeScan _ _ _ k seen => w.job ≠ none ∧ seen.length = k ∧
    (w.core.nrunners = 0 → ∀ st ∈ seen, st = .ready)
  | .mapStatus _ _ _ => w.job ≠ none
  | .engine c epc => (c ≠ .getStatus ∧ ∀ j, c ≠ .assign j) ∧ (c.job = none → w.job ≠ none) ∧
    (epc.hasRunner = true → w.core.nrunners ≠ 0)
  | _ => True

/-- The call replaces `worker->job`. -/
def CallPc.replaces : CallPc → Bool
  | .destroyJob _ _ | .setJob _ _ => true
  | _ => false

/-- There is no call. -/
def CallPc.rests : CallPc → Bool
  | .idle | .returned _ _ => true
  | _ => false

/-- What holds of the worker, whatever its calls do. -/
structure Worker.Provided (w : Worker) : Prop where
  unstarted : w.core.nrunners = 0 → Unstarted w.core
  bare : w.job = none → w.status = .notAssigned
  status : w.status = .working ∨ w.status = .notWorking → w.core.nrunners ≠ 0

/-- A step of a call adds runners and a job, and takes none away. -/
structure Worker.Gains (w : Worker) (pc : CallPc) (w' : Worker) (pc' : CallPc) : Prop where
  nrunners : w.core.nrunners ≤ w'.core.nrunners
  runner : w.core.jobRunner ≠ none → w'.core.jobRunner ≠ none
  job : w.job ≠ none → w'.job ≠ none
  launched : w'.core.nrunners ≠ 0 → w.core.nrunners ≠ 0 ∨ pc'.newRunner ≠ none
  kept : pc.newRunner ≠ none → pc'.newRunner ≠ none ∨ w'.core.jobRunner ≠ none
  stored : w'.core.jobRunner ≠ none →
    w.core.jobRunner ≠ none ∨ w'.job ≠ none ∨ pc'.replaces = true
  replaced : pc.replaces = true → pc'.replaces = true ∨ w'.job ≠ none

section CallSteps

variable {w w' : Worker} {pc pc' : CallPc} {c : Cmd} {ok : Bool}

/-- A step that leaves the runners alone. -/
theorem Worker.Gains.same (hn : w'.core.nrunners = w.core.nrunners)
    (hr : w'.core.jobRunner = w.core.jobRunner) (hj : w'.job = w.job)
    (hnew : pc.newRunner ≠ none → pc'.newRunner ≠ none)
    (hrep : pc.replaces = true → pc'.replaces = true) : Worker.Gains w pc w' pc' :=
  ⟨Nat.le_of_eq hn.symm, fun h => hr ▸ h, fun h => hj ▸ h, fun h => Or.inl (hn ▸ h),
    fun h => Or.inl (hnew h), fun h => Or.inl (hr ▸ h), fun h => Or.inl (hrep h)⟩

/-- Such a step of a call that has no new runner and replaces no job. -/
theorem Worker.Gains.plain (hn : w'.core.nrunners = w.core.nrunners)
    (hr : w'.core.jobRunner = w.core.jobRunner) (hj : w'.job = w.job)
    (hnew : pc.newRunner = none) (hrep : pc.replaces = false) : Worker.Gains w pc w' pc' := by
  refine .same hn hr hj (fun h => absurd hnew h) ?_
  intro h
  rw [hrep] at h
  cases h

/-- What a call knows stays true while others take their steps. -/
theorem CallPc.Knows.mono (hk : pc.Knows w) (hn : w.core.nrunners ≤ w'.core.nrunners)
    (hj : w.job ≠ none → w'.job ≠ none) : pc.Knows w' := by
  cases pc with
  | scan c y j k seen | encodeScan c st j k seen =>
    exact ⟨hj hk.1, hk.2.1, fun h => hk.2.2 (Nat.le_zero.mp (h ▸ hn))⟩
  | mapStatus c y j => exact hj hk
  | engine c epc =>
    exact ⟨hk.1, fun h => hj (hk.2.1 h), fun h hz => hk.2.2 h (Nat.le_zero.mp (hz ▸ hn))⟩
  | _ => exact trivial

/-- What a step of a call keeps, and what it gains. -/
def Worker.Goes (w : Worker) (pc : CallPc) (w' : Worker) (pc' : CallPc) : Prop :=
  w'.Provided ∧ pc'.Knows w' ∧ Worker.Gains w pc w' pc'

/-- A step that only moves the call. -/
theorem Worker.Provided.reads (hp : w.Provided) (hk : pc'.Knows w)
    (hnew : pc.newRunner = none) (hrep : pc.replaces = false) : Worker.Goes w pc w pc' :=
  ⟨hp, hk, .plain rfl rfl rfl hnew hrep⟩

theorem Unstarted.newJob {core : Core} (hu : Unstarted core) (job : Decoded) :
    Unstarted (core.newJob job.1) := by
  refine ⟨hu.threads, hu.runner, fun j k st hst => ?_, fun j => ?_⟩
  · by_cases hj : j = core.njobs
    · subst hj
      simp only [Core.newJob, Function.update_self, Job.taskStatus, Option.map_eq_some_iff] at hst
      obtain ⟨task, htask, rfl⟩ := hst
      exact job.2.2 task (List.mem_of_getElem? htask)
    · simp only [Core.newJob, Function.update_of_ne hj] at hst
      exact hu.tasks j k st hst
  · by_cases hj : j = core.njobs
    · subst hj
      simpa [Core.newJob] using job.2.1
    · simpa [Core.newJob, hj] using hu.status j

/-- A poll of a job that has not run finds READY. -/
theorem Unstarted.putStatus {core : Core} {seen : List TaskStatus} {j : Nat} (hu : Unstarted core)
    (hseen : ∀ st ∈ seen, st = .ready) (hlen : (core.jobs j).size ≤ seen.length) :
    Unstarted (core.putStatus j seen) := by
  have htasks : ∀ i k, ((core.putStatus j seen).jobs i).taskStatus k =
      (core.jobs i).taskStatus k := fun i k =>
    update_field core.jobs (fun job => job.taskStatus k) (by simp) i
  refine ⟨hu.threads, hu.runner, fun i k st hst => ?_, fun i => ?_⟩
  · rw [htasks] at hst
    exact hu.tasks i k st hst
  · by_cases hi : i = j
    · subst hi
      simp only [Core.putStatus, Function.update_self, Job.putStatus]
      split
      · exact hu.status i
      · rename_i hsize
        refine jobStatusOf_all_ready ?_ hseen
        rintro rfl
        simp only [List.length_nil] at hlen
        omega
    · simpa [Core.putStatus, hi] using hu.status i

theorem Worker.Provided.enter {r : Request} (hp : w.Provided)
    (hs : w.callStep (.enter r) ok = some (w', pc')) : Worker.Goes w (.enter r) w' pc' := by
  have hentry : ∀ w, (r.place w.core).2.entry.Knows w := by
    intro w
    cases r <;> exact trivial
  have hplaced : ∀ b, Worker.Goes w (.enter r) { w with core := (r.place w.core).1, locked := b }
      (r.place w.core).2.entry := by
    intro b
    cases r with
    | run job | assign job =>
      exact ⟨⟨fun hz => (hp.unstarted hz).newJob job, hp.bare, hp.status⟩, trivial,
        .plain rfl rfl rfl rfl rfl⟩
    | _ =>
      exact ⟨⟨hp.unstarted, hp.bare, hp.status⟩, trivial,
        .plain rfl rfl rfl rfl rfl⟩
  simp only [Worker.callStep] at hs
  split at hs
  · split at hs
    · cases hs
      exact hp.reads trivial rfl rfl
    · split at hs <;> cases hs
      exact hplaced true
  · cases hs
    exact hp.reads (hentry w) rfl rfl

theorem Worker.Provided.scanned {j k : Nat} {seen : List TaskStatus} (hp : w.Provided)
    (hseen : w.core.nrunners = 0 → ∀ st ∈ seen, st = .ready) (hlen : seen.length = k)
    (hnone : (w.core.jobs j).taskStatus k = none) :
    Worker.Provided { w with core := w.core.putStatus j seen } := by
  refine ⟨fun hz => (hp.unstarted hz).putStatus (hseen hz) ?_, hp.bare, hp.status⟩
  rw [hlen]
  exact Job.taskStatus_none.mp hnone

theorem Worker.Provided.mapStatus {y : Why} {j : Nat} (hp : w.Provided) (hjob : w.job ≠ none) :
    Worker.Goes w (.mapStatus c y j) { w with status := workerStatusOf (w.core.jobs j).status }
      (c.updated y) := by
  refine ⟨⟨hp.unstarted, fun h => absurd h hjob, fun hst hz => ?_⟩, by cases y <;> exact trivial,
    .plain rfl rfl rfl rfl rfl⟩
  simp only [(hp.unstarted hz).status j] at hst
  rcases hst with hst | hst <;> cases hst

theorem Worker.Provided.decide (hp : w.Provided)
    (hs : w.callStep (.decide c) ok = some (w', pc')) : Worker.Goes w (.decide c) w' pc' := by
  simp only [Worker.callStep] at hs
  split at hs <;> cases hs
  rename_i heq
  refine hp.reads ?_ rfl rfl
  rcases Cmd.choose_cases heq with ⟨_, rfl⟩ | ⟨_, rfl⟩ | ⟨j, rfl, _, rfl⟩ | ⟨j, _, _, rfl⟩ |
    ⟨j, hc, hj, rfl⟩ | ⟨hc, hload⟩
  · exact trivial
  · exact trivial
  · exact ⟨by simp, by simp [Cmd.job], fun h => absurd h Bool.false_ne_true⟩
  · exact trivial
  · exact ⟨Cmd.signal_shape hc, by simp [hj], fun h => absurd h Bool.false_ne_true⟩
  · have hjob : w.job ≠ none := by
      intro hnone
      rw [hp.bare hnone] at heq
      rcases hload with rfl | rfl <;> cases c <;> simp [Cmd.choose] at heq
    rcases hload with rfl | rfl <;>
      exact ⟨Cmd.signal_shape hc, fun _ => hjob, fun h => absurd h Bool.false_ne_true⟩

/-- Once there is a runner, nothing more is asked of the shared memory. -/
theorem Worker.Provided.used {core' : Core} (hp : w.Provided) (hz : w.core.nrunners ≠ 0)
    (hn : w.core.nrunners ≤ core'.nrunners) : Worker.Provided { w with core := core' } := by
  have hne : core'.nrunners ≠ 0 := fun h => hz (Nat.le_zero.mp (h ▸ hn))
  exact ⟨fun h => absurd h hne, hp.bare, fun _ => hne⟩

theorem Cmd.engineDone_knows (c : Cmd) (b : Bool) (w : Worker) : (c.engineDone b).Knows w := by
  cases c <;> cases b <;> exact trivial

/-- A step of the engine with a runner at hand that leaves the held
runner alone. -/
theorem Worker.Provided.engineGoto {epc epc' : EnginePc} {core' : Core} (hp : w.Provided)
    (hk : (CallPc.engine c epc).Knows w) (hrun : epc.hasRunner = true)
    (hn : core'.nrunners = w.core.nrunners) (hr : core'.jobRunner = w.core.jobRunner)
    (hnew : (CallPc.engine c epc).newRunner ≠ none → (c.afterEngine epc').newRunner ≠ none) :
    Worker.Goes w (.engine c epc) { w with core := core' } (c.afterEngine epc') := by
  have hz := hk.2.2 hrun
  refine ⟨hp.used hz (Nat.le_of_eq hn.symm), ?_,
    .same hn hr rfl hnew (fun h => absurd h Bool.false_ne_true)⟩
  cases epc' with
  | done b => exact c.engineDone_knows b _
  | _ => exact ⟨hk.1, hk.2.1, fun _ => hn ▸ hz⟩

theorem Worker.Provided.launch {j : Nat} (hp : w.Provided)
    (hk : (CallPc.engine c (.create j)).Knows w) :
    Worker.Goes w (.engine c (.create j)) { w with core := w.core.launch j }
      (.engine c (.swap w.core.nrunners)) := by
  have hne : (w.core.launch j).nrunners ≠ 0 := Nat.succ_ne_zero _
  exact ⟨⟨fun h => absurd h hne, hp.bare, fun _ => hne⟩, ⟨hk.1, hk.2.1, fun _ => hne⟩,
    Nat.le_succ _, id, id, fun _ => Or.inr (by simp [CallPc.newRunner]),
    fun h => absurd rfl h, Or.inl, fun h => absurd h Bool.false_ne_true⟩

theorem Worker.Provided.store {new : Nat} (hp : w.Provided)
    (hk : (CallPc.engine c (.store new)).Knows w) :
    Worker.Goes w (.engine c (.store new)) { w with core := w.core.setJobRunner new }
      (c.engineDone true) := by
  have hz := hk.2.2 rfl
  refine ⟨hp.used hz (Nat.le_refl _), c.engineDone_knows true _, Nat.le_refl _, ?_, id,
    fun _ => Or.inl hz, ?_, ?_, fun h => absurd h Bool.false_ne_true⟩
  · exact fun _ => by simp [Core.setJobRunner]
  · exact fun _ => Or.inr (by simp [Core.setJobRunner])
  · intro _
    refine Or.inr ?_
    cases c with
    | getStatus => exact absurd rfl hk.1.1
    | assign j => exact absurd rfl (hk.1.2 j)
    | run j => exact Or.inr rfl
    | start | restart | stop => exact Or.inl (hk.2.1 rfl)

theorem Worker.Provided.engine {epc : EnginePc} (hp : w.Provided)
    (hk : (CallPc.engine c epc).Knows w) (hs : w.callStep (.engine c epc) ok = some (w', pc')) :
    Worker.Goes w (.engine c epc) w' pc' := by
  obtain ⟨core', epc', he, rfl, rfl⟩ := Worker.callStep_engine hs
  cases epc with
  | create j =>
    simp only [engineStep] at he
    split at he <;> cases he
    · exact hp.reads (c.engineDone_knows false w) rfl rfl
    · exact hp.launch hk
  | load call =>
    cases he
    have hknows : ∀ epc', (epc'.hasRunner = true → w.core.jobRunner ≠ none) →
        (c.afterEngine epc').Knows w := by
      intro epc' hr
      cases epc' with
      | done b => exact c.engineDone_knows b w
      | _ => exact ⟨hk.1, hk.2.1, fun h hz => hr h (hp.unstarted hz).runner⟩
    refine hp.reads (hknows _ ?_) rfl rfl
    cases w.core.jobRunner <;> cases call <;> simp [EngineCall.loaded, EnginePc.hasRunner]
  | swap new =>
    simp only [engineStep] at he
    split at he <;> cases he <;>
      exact hp.engineGoto hk rfl rfl rfl (by simp [Cmd.afterEngine, CallPc.newRunner])
  | cancel r k =>
    cases he
    exact hp.engineGoto hk rfl rfl rfl (by cases k <;> simp [Cmd.afterEngine, CallPc.newRunner])
  | join r k =>
    simp only [engineStep] at he
    split at he <;> cases he
    exact hp.engineGoto hk rfl rfl rfl
      (by cases k <;> simp [Cmd.afterEngine, After.next, CallPc.newRunner])
  | free r new =>
    cases he
    exact hp.engineGoto hk rfl rfl rfl (by simp [Cmd.afterEngine, CallPc.newRunner])
  | store new =>
    cases he
    exact hp.store hk
  | recreate r =>
    simp only [engineStep, Option.some.injEq, Prod.mk.injEq] at he
    obtain ⟨rfl, rfl⟩ := he
    cases ok <;> exact hp.engineGoto hk rfl rfl rfl (fun h => absurd rfl h)
  | freeEngine =>
    cases he
    exact hp.reads (c.engineDone_knows true w) rfl rfl
  | done b => cases he

/-- Every step of a call. -/
theorem Worker.Provided.callStep (hp : w.Provided) (hk : pc.Knows w)
    (hs : w.callStep pc ok = some (w', pc')) : Worker.Goes w pc w' pc' := by
  cases pc with
  | idle | returned c report => simp [Worker.callStep] at hs
  | enter r => exact hp.enter hs
  | update c y =>
    simp only [Worker.callStep] at hs
    split at hs <;> rename_i hj <;> cases hs
    · exact ⟨⟨hp.unstarted, fun _ => rfl, by simp⟩, by cases y <;> exact trivial,
        .plain rfl rfl rfl rfl rfl⟩
    · exact hp.reads ⟨by simp [hj], rfl, by simp⟩ rfl rfl
  | scan c y j k seen | encodeScan c st j k seen =>
    obtain ⟨hjob, hlen, hseen⟩ := hk
    simp only [Worker.callStep] at hs
    split at hs <;> rename_i hst <;> cases hs
    · refine hp.reads ⟨hjob, by simp [hlen], fun hz x hx => ?_⟩ rfl rfl
      rcases List.mem_append.mp hx with hx | hx
      · exact hseen hz x hx
      · rw [List.mem_singleton.mp hx]
        exact (hp.unstarted hz).tasks j k _ hst
    · first
        | exact ⟨hp.scanned hseen hlen hst, hjob, .plain rfl rfl rfl rfl rfl⟩
        | exact ⟨hp.scanned hseen hlen hst, trivial, .plain rfl rfl rfl rfl rfl⟩
  | mapStatus c y j =>
    cases hs
    exact hp.mapStatus hk
  | decide c => exact hp.decide hs
  | engine c epc => exact hp.engine hk hs
  | destroyJob c j =>
    cases hs
    have hn : (w.core.destroyJob w.job).nrunners = w.core.nrunners := by cases w.job <;> rfl
    have hr : (w.core.destroyJob w.job).jobRunner = w.core.jobRunner := by cases w.job <;> rfl
    have hu : Unstarted w.core → Unstarted (w.core.destroyJob w.job) := by
      cases w.job <;> exact fun hu => ⟨hu.threads, hu.runner, hu.tasks, hu.status⟩
    exact ⟨⟨fun hz => hu (hp.unstarted (hn ▸ hz)), hp.bare, fun h => hn ▸ hp.status h⟩, trivial,
      .same hn hr rfl (fun h => absurd rfl h) (fun _ => rfl)⟩
  | setJob c j =>
    cases hs
    exact ⟨⟨hp.unstarted, fun h => by simp at h, hp.status⟩, trivial, Nat.le_refl _, id,
      fun _ => by simp, Or.inl, fun h => absurd rfl h, Or.inl, fun _ => Or.inr (by simp)⟩
  | encode c =>
    rcases Worker.callStep_encode hs with ⟨rfl, report, rfl⟩ | ⟨rfl, j, hj, rfl⟩
    · exact hp.reads trivial rfl rfl
    · exact hp.reads ⟨by simp [hj], rfl, by simp⟩ rfl rfl
  | encodeTasks c st j k report =>
    obtain ⟨rfl, ⟨report', rfl⟩ | ⟨report', rfl⟩⟩ := Worker.callStep_encodeTasks hs <;>
      exact hp.reads trivial rfl rfl
  | encodeStatus c st j =>
    cases hs
    exact hp.reads trivial rfl rfl
  | unlock c report =>
    cases hs
    exact ⟨⟨hp.unstarted, hp.bare, hp.status⟩, trivial,
      .plain rfl rfl rfl rfl rfl⟩

end CallSteps

namespace Clients

/-- What holds of the worker and its calls: a runner that was created is
held or about to be, and a held runner has its job in `worker->job`, or
about to be. -/
structure Provided (s : Clients) : Prop where
  worker : s.worker.Provided
  calls : ∀ i, (s.pcs i).Knows s.worker
  outside : ∀ i, s.count ≤ i → s.pcs i = .idle
  runner : s.worker.core.nrunners ≠ 0 →
    s.worker.core.jobRunner ≠ none ∨ ∃ i, (s.pcs i).newRunner ≠ none
  job : s.worker.core.jobRunner ≠ none → s.worker.job ≠ none ∨ ∃ i, (s.pcs i).replaces = true

theorem Provided.create (n : Nat) : Provided (create n) := by
  refine ⟨⟨fun _ => ⟨rfl, rfl, ?_, fun _ => rfl⟩, fun _ => rfl, ?_⟩, fun _ => trivial,
    fun _ _ => rfl, ?_, ?_⟩
  · simp [Clients.create, Worker.create, Core.create, Job.taskStatus]
  · simp [Clients.create, Worker.create]
  · simp [Clients.create, Worker.create, Core.create]
  · simp [Clients.create, Worker.create, Core.create]

section Steps

variable {s s' : Clients} {i : Nat}

/-- What one client is doing is done by it or by another after the
step, unless it was the one that moved. -/
theorem exists_update {P : CallPc → Prop} {pc' : CallPc} (h : ∃ i', P (s.pcs i')) :
    P (s.pcs i) ∨ ∃ i', P (Function.update s.pcs i pc' i') := by
  obtain ⟨i', hp⟩ := h
  by_cases hii : i' = i
  · exact Or.inl (hii ▸ hp)
  · exact Or.inr ⟨i', by rwa [Function.update_of_ne hii]⟩

/-- Client `i` takes a step. -/
theorem Provided.goes {w' : Worker} {pc' : CallPc} (hi : Provided s) (hlt : i < s.count)
    (hg : Worker.Goes s.worker (s.pcs i) w' pc') :
    Provided { s with worker := w', pcs := Function.update s.pcs i pc' } := by
  obtain ⟨hworker, hknows, hg⟩ := hg
  have hself : ∀ (P : CallPc → Prop), P pc' → ∃ i', P (Function.update s.pcs i pc' i') :=
    fun P hp => ⟨i, by rwa [Function.update_self]⟩
  refine ⟨hworker, ?_, fun i' hi' => ?_, fun hz => ?_, fun hr => ?_⟩
  · exact forall_update (P := fun _ pc => pc.Knows w') hknows
      fun i' _ => (hi.calls i').mono hg.nrunners hg.job
  · have hii : i' ≠ i := Nat.ne_of_gt (Nat.lt_of_lt_of_le hlt hi')
    simp only [Function.update_of_ne hii]
    exact hi.outside i' hi'
  · have hmoved := hself fun pc => pc.newRunner ≠ none
    rcases hg.launched hz with hz | hn
    · rcases hi.runner hz with hr | hn
      · exact Or.inl (hg.runner hr)
      · rcases exists_update (P := fun pc => pc.newRunner ≠ none) hn with hn | hn
        · exact (hg.kept hn).symm.imp_right hmoved
        · exact Or.inr hn
    · exact Or.inr (hmoved hn)
  · have hmoved := hself fun pc => pc.replaces = true
    rcases hg.stored hr with hr | hj | hn
    · rcases hi.job hr with hj | hn
      · exact Or.inl (hg.job hj)
      · rcases exists_update (P := fun pc => pc.replaces = true) hn with hn | hn
        · exact (hg.replaced hn).symm.imp_right hmoved
        · exact Or.inr hn
    · exact Or.inl hj
    · exact Or.inr (hmoved hn)

theorem Provided.call {r : Request} (hi : Provided s) (hs : s.step (.call i r) = some s') :
    Provided s' := by
  obtain ⟨rfl, hlt, hcmd⟩ := step_call hs
  have hout : (s.pcs i).newRunner = none ∧ (s.pcs i).replaces = false := by
    cases hpc : s.pcs i with
    | idle | returned c report | enter r => exact ⟨rfl, rfl⟩
    | _ =>
      rw [hpc] at hcmd
      cases hcmd
  exact hi.goes hlt (hi.worker.reads trivial hout.1 hout.2)

theorem Provided.move {ok : Bool} (hi : Provided s) (hs : s.step (.move i ok) = some s') :
    Provided s' := by
  obtain ⟨w', pc', hcall, rfl⟩ := step_move hs
  have hlt : i < s.count := by
    by_contra hge
    rw [hi.outside i (Nat.le_of_not_lt hge)] at hcall
    cases hcall
  exact hi.goes hlt (hi.worker.callStep (hi.calls i) hcall)

theorem Provided.thread {t : Nat} {l : JobExec.Label} (hi : Provided s)
    (hs : s.step (.thread t l) = some s') : Provided s' := by
  obtain ⟨core', hthread, rfl⟩ := step_thread hs
  obtain ⟨hlt, e, _, rfl⟩ := Core.threadStep_eq hthread
  -- there is a thread, so there is a runner
  have hz : s.worker.core.nrunners ≠ 0 := by
    intro hz
    rw [(hi.worker.unstarted hz).threads] at hlt
    cases hlt
  exact ⟨hi.worker.used hz (Nat.le_refl _), fun i => (hi.calls i).mono (Nat.le_refl _) id,
    hi.outside, hi.runner, hi.job⟩

end Steps

/-- No call is in progress. -/
def Resting (s : Clients) : Prop := ∀ i < s.count, (s.pcs i).rests = true

instance (s : Clients) : Decidable s.Resting := inferInstanceAs (Decidable (∀ i < _, _))

theorem run_provided {n : Nat} {h : History Clients Label} {s : Clients}
    (hr : Run step always (create n) h s) : Provided s := by
  refine Run.state_invariant (Provided.create n) (fun _ s l s' hi _ hs => ?_) hr
  cases l with
  | call i r => exact hi.call hs
  | move i ok => exact hi.move hs
  | thread t l => exact hi.thread hs

/-- Between calls no client has a new runner, and none replaces the
job. -/
theorem Provided.rests {s : Clients} (hi : Provided s) (hrest : s.Resting) (i : Nat) :
    (s.pcs i).newRunner = none ∧ (s.pcs i).replaces = false := by
  have hr : (s.pcs i).rests = true := by
    by_cases hlt : i < s.count
    · exact hrest i hlt
    · rw [hi.outside i (Nat.le_of_not_lt hlt)]
      rfl
  cases hpc : s.pcs i <;> simp_all [CallPc.rests, CallPc.newRunner, CallPc.replaces]

/-- Between calls, a worker without a job has no runner and was never
anything but NOT_ASSIGNED. -/
theorem Provided.bare {s : Clients} (hi : Provided s) (hrest : s.Resting)
    (hjob : s.worker.job = none) : s.worker.status = .notAssigned ∧
      s.worker.core.jobRunner = none ∧ s.worker.core.nthreads = 0 := by
  have hrunner : s.worker.core.jobRunner = none := by
    by_contra hne
    rcases hi.job hne with hj | ⟨i, hrep⟩
    · exact hj hjob
    · rw [(hi.rests hrest i).2] at hrep
      cases hrep
  have hzero : s.worker.core.nrunners = 0 := by
    by_contra hne
    rcases hi.runner hne with hr | ⟨i, hnew⟩
    · exact hr hrunner
    · exact hnew (hi.rests hrest i).1
  exact ⟨hi.worker.bare hjob, hrunner, (hi.worker.unstarted hzero).threads⟩

/-- Between calls, WORKING and NOT_WORKING come with a runner. -/
theorem Provided.held {s : Clients} (hi : Provided s) (hrest : s.Resting)
    (hst : s.worker.status = .working ∨ s.worker.status = .notWorking) :
    s.worker.core.jobRunner ≠ none := by
  rcases hi.runner (hi.worker.status hst) with hr | ⟨i, hnew⟩
  · exact hr
  · exact absurd (hi.rests hrest i).1 hnew

/-- After any history of calls, with the job threads anywhere in their
runs: `worker_destroy` leaves nothing behind exactly if the worker has no
job. -/
theorem tearsDown_iff {n : Nat} {h : History Clients Label} {s : Clients}
    (hr : Run step always (create n) h s) (hrest : s.Resting) :
    TearsDown s.worker ↔ s.worker.job = none := by
  have hi := run_provided hr
  constructor
  · intro htears
    by_contra hjob
    exact not_tearsDown hjob (hi.held hrest) htears
  · intro hjob
    obtain ⟨hst, hrunner, hthreads⟩ := hi.bare hrest hjob
    exact tearsDown_of_bare hst hjob hrunner hthreads

/-- A `worker_get_status` before there is a job. -/
def askedOnly : List Label := [.call 0 .getStatus] ++ moves 0 4

theorem tearsDown_askedOnly : ∃ h s, Run step always (create 1) h s ∧ s.Resting ∧
    s.worker.job = none ∧ TearsDown s.worker := by
  obtain ⟨h, s, hr, hc⟩ := Run.of_check step always (create 1) askedOnly
    (fun s => decide s.Resting && s.worker.job == none) (by decide +kernel)
  simp only [Bool.and_eq_true, decide_eq_true_eq, beq_iff_eq] at hc
  exact ⟨h, s, hr, hc.1, hc.2, (tearsDown_iff hr hc.1).mpr hc.2⟩

/-- `worker_run` and its report, before the job thread has started its
first task. -/
def ranOnly : List Label := [.call 0 (.run oneTaskJob)] ++ moves 0 19

/-- The worker reports ASSIGNED then, and `worker_destroy` leaves the job
thread live, and the job, the engine and the runner as they are. -/
theorem run_destroy_leaves_all : ∃ h s h' d, Run step always (create 1) h s ∧ s.Resting ∧
    s.worker.job = some 0 ∧ s.worker.status = .assigned ∧
    Run Teardown.step always (.start s.worker) h' d ∧ d.pc = .done ∧ d.worker.core.Live 0 ∧
    d.worker.core.jobOf 0 = 0 ∧ h'.countP (Teardown.releasesJob 0) = 0 ∧
    h'.countP Teardown.releasesEngine = 0 ∧ h'.countP (Teardown.releasesRunner 0) = 0 ∧
    ¬ TearsDown s.worker := by
  obtain ⟨h, s, hr, hc⟩ := Run.of_check step always (create 1) ranOnly
    (fun s => decide s.Resting && s.worker.job == some 0 && s.worker.status == .assigned &&
      (replay Teardown.step always [] (.start s.worker) [.move, .move]).any
        (fun p : History Teardown Teardown.Label × Teardown =>
          p.2.pc == .done && decide (p.2.worker.core.Live 0) && p.2.worker.core.jobOf 0 == 0 &&
            p.1.countP (Teardown.releasesJob 0) == 0))
    (by decide +kernel)
  simp only [Bool.and_eq_true, decide_eq_true_eq, beq_iff_eq] at hc
  obtain ⟨⟨⟨hrest, hjob⟩, hst⟩, hdestroy⟩ := hc
  simp only [Option.any_eq_true, Bool.and_eq_true, decide_eq_true_eq, beq_iff_eq] at hdestroy
  obtain ⟨⟨h', d⟩, hreplay, ⟨⟨hdone, hlive⟩, hof⟩, hkept⟩ := hdestroy
  have hd := Run.of_replay _ hreplay
  refine ⟨h, s, h', d, hr, hrest, hjob, hst, hd, hdone, hlive, hof, hkept,
    Teardown.run_assigned hst hd, Teardown.run_runner_kept hd 0, ?_⟩
  exact not_tearsDown (by simp [hjob]) (by simp [hst])

end Clients

end Pyoneer.Runtime
