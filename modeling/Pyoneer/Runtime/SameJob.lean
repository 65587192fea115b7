/-
Pyoneer.Runtime.SameJob — the engine and the worker point at the same
job.

`worker_assign` replaces `worker->job` and leaves the engine's runner
alone, so the runner may be that of a job that no longer exists. It is
not used then: the new job has not run, so the worker reports ASSIGNED
for it until `engine_run` has given it a runner of its own. `SameInv`
says so for the status that the worker keeps (`cached`) and for the
runner that a signal acts on (`signal`); it holds whatever the job
threads do, as long as calls do not overlap.
-/
import Pyoneer.Runtime.Liveness

namespace Pyoneer.Runtime

open Pyoneer.Lib Pyoneer.Blueprint

/-- `worker->status` was derived from the job that the worker has now. -/
def CallPc.settled : CallPc → Bool
  | .update _ _ | .scan _ _ _ _ _ | .mapStatus _ _ _ | .destroyJob _ _ | .setJob _ _ => false
  | _ => true

/-- The runner that `engine_restart` or `engine_stop` acts on is the one
for `worker->job`. -/
def SignalPlace (w : Worker) : CallPc → Prop
  | .engine _ (.load _) => ∃ r, HeldMatches w r
  | .engine _ (.cancel r k) | .engine _ (.join r k) =>
    k = .recreate ∨ k = .return → HeldMatches w r
  | .engine _ (.recreate r) => HeldMatches w r
  | _ => True

structure SameInv (w : Worker) (pc : CallPc) : Prop where
  hold : HoldInv w pc
  bare : w.job = none → (∀ c j, pc ≠ .destroyJob c j ∧ pc ≠ .setJob c j) →
    w.core.jobRunner = none ∧ (pc.settled = true → w.status = .notAssigned)
  cached : pc.settled = true → ∀ o, w.job = some o → Matched w.core o ∨ w.status = .assigned
  signal : SignalPlace w pc

theorem SameInv.create : SameInv .create .idle :=
  ⟨.create, fun _ _ => ⟨rfl, fun _ => rfl⟩, by simp [Worker.create], trivial⟩

section Steps

variable {w w' : Worker} {pc pc' : CallPc} {c : Cmd} {y : Why} {ok : Bool}

/-- A status other than NOT_ASSIGNED and ASSIGNED is that of a job whose
runner is held. -/
theorem SameInv.heldMatches (hi : SameInv w pc) (hset : pc.settled = true)
    (h1 : w.status ≠ .notAssigned) (h2 : w.status ≠ .assigned) : ∃ r, HeldMatches w r := by
  cases hj : w.job with
  | none =>
    refine absurd ((hi.bare hj ?_).2 hset) h1
    rintro c j
    constructor <;> rintro rfl <;> cases hset
  | some o =>
    obtain ⟨r, hr, hjob⟩ := (hi.cached hset o hj).resolve_right h2
    exact ⟨r, hr, by rw [hj, hjob]⟩

/-- A step that leaves the status, the job and the held runner as they
are. -/
theorem SameInv.goto (hi : SameInv w pc) (hhold : HoldInv w' pc') (hjob : w'.job = w.job)
    (hstatus : w'.status = w.status) (hrunner : w'.core.jobRunner = w.core.jobRunner)
    (hmatched : ∀ o, Matched w.core o → Matched w'.core o)
    (hset : ∀ c j, pc ≠ .destroyJob c j ∧ pc ≠ .setJob c j)
    (hsettled : pc'.settled = true → pc.settled = true) (hsignal : SignalPlace w' pc') :
    SameInv w' pc' := by
  refine ⟨hhold, fun hj _ => ?_, fun hs o ho => ?_, hsignal⟩
  · rw [hjob] at hj
    obtain ⟨hr, hst⟩ := hi.bare hj hset
    exact ⟨hrunner.trans hr, fun hs => hstatus.trans (hst (hsettled hs))⟩
  · rw [hjob] at ho
    rw [hstatus]
    exact (hi.cached (hsettled hs) o ho).imp_left (hmatched o)

/-- A step that only moves the call. -/
theorem SameInv.move (hi : SameInv w pc) (hhold : HoldInv w pc')
    (hset : ∀ c j, pc ≠ .destroyJob c j ∧ pc ≠ .setJob c j)
    (hsettled : pc'.settled = true → pc.settled = true) (hsignal : SignalPlace w pc') :
    SameInv w pc' :=
  hi.goto hhold rfl rfl rfl (fun _ hm => hm) hset hsettled hsignal

theorem SignalPlace.still {c' : Core} (hs : Core.Still w.core c') (h : SignalPlace w pc) :
    SignalPlace { w with core := c' } pc := by
  cases pc with
  | engine c epc =>
    cases epc with
    | load call => exact h.imp fun r hm => hs.heldMatches.mpr hm
    | cancel r k | join r k => exact fun hk => hs.heldMatches.mpr (h hk)
    | recreate r => exact hs.heldMatches.mpr h
    | _ => exact h
  | _ => exact h

/-- The threads change neither the status nor the runners. -/
theorem SameInv.threadStep {t : Nat} {l : JobExec.Label} {c' : Core} (hi : SameInv w pc)
    (hs : w.core.threadStep t l = some c') : SameInv { w with core := c' } pc := by
  have hstill := Core.Still.threadStep hi.hold.core hs
  refine ⟨hi.hold.threadStep hs, fun hj hset => ?_, fun hset o ho => ?_, hi.signal.still hstill⟩
  · rw [hstill.jobRunner]
    exact hi.bare hj hset
  · exact (hi.cached hset o ho).imp_left hstill.matched.mpr

theorem SameInv.call {r : Request} (hi : SameInv w pc)
    (hpc : pc = .idle ∨ ∃ c report, pc = .returned c report) : SameInv w (.enter r) := by
  refine hi.move (hi.hold.call hpc) ?_ ?_ trivial
  · rcases hpc with rfl | ⟨c, report, rfl⟩ <;> simp
  · rcases hpc with rfl | ⟨c, report, rfl⟩ <;> exact fun _ => rfl

theorem SameInv.enter {r : Request} (hi : SameInv w (.enter r)) (hhold : HoldInv w' pc')
    (hs : w.callStep (.enter r) ok = some (w', pc')) : SameInv w' pc' := by
  have hmatched : ∀ o, Matched w.core o → Matched (r.place w.core).1 o := by
    cases r <;> exact fun _ hm => hm
  have hrunner : (r.place w.core).1.jobRunner = w.core.jobRunner := by cases r <;> rfl
  have hsignal : ∀ w, SignalPlace w (r.place w.core).2.entry := by
    intro w
    cases r <;> exact trivial
  simp only [Worker.callStep] at hs
  split at hs
  · split at hs
    · cases hs
      exact hi.move hhold (by simp) (fun _ => rfl) trivial
    · split at hs <;> cases hs
      exact hi.goto hhold rfl rfl hrunner hmatched (by simp) (fun _ => rfl) (by
        cases r <;> exact trivial)
  · cases hs
    exact hi.move hhold (by simp) (fun _ => rfl) (hsignal w)

/-- `update_status` is done. -/
theorem SameInv.updated {status : WorkerStatus} (hi : SameInv w pc)
    (hhold : HoldInv { w with status := status } (c.updated y))
    (hset : ∀ c j, pc ≠ .destroyJob c j ∧ pc ≠ .setJob c j) (hnew : pc.newRunner = none)
    (hnone : w.job = none → status = .notAssigned)
    (hready : ∀ o, w.job = some o → Virgin w.core o → status = .assigned) :
    SameInv { w with status := status } (c.updated y) := by
  refine ⟨hhold, fun hj _ => ⟨(hi.bare hj hset).1, fun _ => hnone hj⟩, fun _ o ho => ?_, ?_⟩
  · rcases hi.hold.known o ho hset with hm | hv | ⟨new, hn, _⟩
    · exact Or.inl hm
    · exact Or.inr (hready o ho hv)
    · rw [hnew] at hn
      cases hn
  · cases y <;> exact trivial

/-- What a step of the engine does to the held runner and to the jobs of
the runners. -/
theorem engineStep_held {core core' : Core} {epc epc' : EnginePc}
    (hs : engineStep core epc ok = some (core', epc')) :
    (∃ new, epc = .store new ∧ core' = core.setJobRunner new ∧ epc' = .done true) ∨
      ((∀ new, epc ≠ .store new) ∧ core'.jobRunner = core.jobRunner ∧
        ∀ r < core.nrunners, (core'.runners r).job = (core.runners r).job) := by
  cases epc with
  | store new =>
    cases hs
    exact Or.inl ⟨new, rfl, rfl, rfl⟩
  | create j =>
    simp only [engineStep] at hs
    split at hs <;> cases hs
    · exact Or.inr ⟨by simp, rfl, fun _ _ => rfl⟩
    · exact Or.inr ⟨by simp, rfl, fun r hr => by rw [core.launch_runner_lt j hr]⟩
  | swap new =>
    simp only [engineStep] at hs
    split at hs <;> cases hs <;> exact Or.inr ⟨by simp, rfl, fun _ _ => rfl⟩
  | join r k =>
    simp only [engineStep] at hs
    split at hs <;> cases hs
    exact Or.inr ⟨by simp, rfl, fun _ _ => rfl⟩
  | free r new =>
    cases hs
    exact Or.inr ⟨by simp, rfl, fun i _ => (Core.Frame.freeRunner core r).job i⟩
  | recreate r =>
    simp only [engineStep, Option.some.injEq, Prod.mk.injEq] at hs
    obtain ⟨rfl, _⟩ := hs
    cases ok with
    | false => exact Or.inr ⟨by simp, rfl, fun _ _ => rfl⟩
    | true => exact Or.inr ⟨by simp, rfl, fun i _ => core.spawn_job r i⟩
  | done b => cases hs
  | _ =>
    cases hs
    exact Or.inr ⟨by simp, rfl, fun _ _ => rfl⟩

/-- A runner that is held keeps its job. -/
theorem engineStep_heldMatches {core' : Core} {epc epc' : EnginePc} {r : Nat}
    (hc : CoreInv w.core) (hne : ∀ new, epc ≠ .store new)
    (hs : engineStep w.core epc ok = some (core', epc')) (hm : HeldMatches w r) :
    HeldMatches { w with core := core' } r := by
  obtain ⟨new, rfl, _⟩ | ⟨_, hr, hjob⟩ := engineStep_held hs
  · exact absurd rfl (hne new)
  · refine ⟨hr.trans hm.1, ?_⟩
    rw [hjob r (hc.held_lt r hm.1)]
    exact hm.2

/-- A signal acts on the runner that it has read. -/
theorem SignalPlace.engine {core' : Core} {epc epc' : EnginePc} (hi : HoldInv w (.engine c epc))
    (hm : SignalPlace w (.engine c epc)) (hs : engineStep w.core epc ok = some (core', epc')) :
    SignalPlace { w with core := core' } (c.afterEngine epc') := by
  have hkeep : ∀ r, (∀ new, epc ≠ .store new) → HeldMatches w r →
      HeldMatches { w with core := core' } r :=
    fun r hne hr => engineStep_heldMatches hi.core hne hs hr
  have hdone : ∀ w b, SignalPlace w (c.engineDone b) := by
    intro w b
    cases c <;> cases b <;> exact trivial
  cases epc with
  | load call =>
    obtain ⟨⟨_, hcall⟩, _⟩ := hi.place
    obtain ⟨r, hr⟩ := hm
    cases hs
    rcases hcall with ⟨rfl, _⟩ | rfl <;> simp only [hr.1, EngineCall.loaded] <;> exact fun _ => hr
  | cancel r k =>
    have hmatch := hkeep r (by simp)
    cases hs
    exact fun hk => hmatch (hm hk)
  | join r k =>
    have hmatch := hkeep r (by simp)
    simp only [engineStep] at hs
    split at hs <;> cases hs
    cases k with
    | recreate => exact hmatch (hm (Or.inl rfl))
    | «return» => exact hdone _ _
    | _ => exact trivial
  | create j | swap new =>
    simp only [engineStep] at hs
    split at hs <;> cases hs
    · first | exact hdone _ _ | exact trivial
    · first | exact trivial | exact fun hk => by simp at hk
  | free r new | recreate r | store new | freeEngine =>
    cases hs
    first | exact hdone _ _ | exact trivial
  | done b => cases hs

theorem SameInv.engine {epc : EnginePc} (hi : SameInv w (.engine c epc)) (hhold : HoldInv w' pc')
    (hs : w.callStep (.engine c epc) ok = some (w', pc')) : SameInv w' pc' := by
  obtain ⟨core', epc', he, rfl, rfl⟩ := Worker.callStep_engine hs
  have hsignal := SignalPlace.engine hi.hold hi.signal he
  rcases engineStep_held he with ⟨new, rfl, rfl, rfl⟩ | ⟨_, hrunner, hjobs⟩
  · obtain ⟨⟨⟨_, _, htarget⟩, _⟩, hne1, hne2⟩ := hi.hold.place
    cases c with
    | getStatus => exact absurd rfl hne1
    | assign j => exact absurd rfl (hne2 j)
    | run j =>
      refine ⟨hhold, ?_, fun hset => absurd hset Bool.false_ne_true, hsignal⟩
      intro _ hset
      exact absurd rfl (hset (.run j) j).1
    | start | restart | stop =>
      have hjob : w.job = some (w.core.runners new).job := by simpa [Cmd.job] using htarget
      refine ⟨hhold, fun hj => ?_, fun _ o ho => Or.inl ⟨new, rfl, ?_⟩, hsignal⟩
      · rw [hjob] at hj
        cases hj
      · exact Option.some.inj (hjob.symm.trans ho)
  · refine hi.goto hhold rfl rfl hrunner ?_ (by simp) (fun _ => rfl) hsignal
    rintro o ⟨r, hr, hjob⟩
    exact ⟨r, hrunner.trans hr, by rw [hjobs r (hi.hold.core.held_lt r hr), hjob]⟩

theorem SameInv.decide (hi : SameInv w (.decide c)) (hhold : HoldInv w' pc')
    (hs : w.callStep (.decide c) ok = some (w', pc')) : SameInv w' pc' := by
  simp only [Worker.callStep] at hs
  split at hs <;> cases hs
  rename_i heq
  refine hi.move hhold (by simp) (fun _ => rfl) ?_
  cases c <;> cases hst : w.status <;> simp only [Cmd.choose, hst, Cmd.runHeld] at heq
  all_goals try split at heq
  all_goals simp only [Option.some.injEq, reduceCtorEq] at heq
  all_goals subst heq
  all_goals first
    | exact trivial
    | exact hi.heldMatches rfl (by simp [hst]) (by simp [hst])

/-- Every step of a call keeps the invariant. -/
theorem SameInv.callStep (hi : SameInv w pc) (hs : w.callStep pc ok = some (w', pc')) :
    SameInv w' pc' := by
  have hhold := hi.hold.callStep hs
  cases pc with
  | idle | returned c report => simp [Worker.callStep] at hs
  | enter r => exact hi.enter hhold hs
  | update c y =>
    simp only [Worker.callStep] at hs
    split at hs <;> rename_i hj <;> cases hs
    · exact hi.updated hhold (by simp) rfl (fun _ => rfl) (by simp [hj])
    · exact hi.move hhold (by simp) (fun h => absurd h Bool.false_ne_true) trivial
  | scan c y j k seen =>
    simp only [Worker.callStep] at hs
    split at hs <;> cases hs
    · exact hi.move hhold (by simp) (fun h => absurd h Bool.false_ne_true) trivial
    · exact hi.goto hhold rfl rfl rfl (fun _ hm => hm) (by simp)
        (fun h => absurd h Bool.false_ne_true) trivial
  | mapStatus c y j =>
    obtain ⟨hj, _⟩ := hi.hold.place
    cases hs
    refine hi.updated hhold (by simp) rfl (by simp [hj]) fun o ho hv => ?_
    obtain rfl : j = o := Option.some.inj (hj.symm.trans ho)
    rw [hv.status]
    rfl
  | decide c => exact hi.decide hhold hs
  | engine c epc => exact hi.engine hhold hs
  | destroyJob c j =>
    cases hs
    refine ⟨hhold, ?_, fun hset => absurd hset Bool.false_ne_true, trivial⟩
    intro _ hset
    exact absurd rfl (hset c j).2
  | setJob c j =>
    cases hs
    exact ⟨hhold, fun hj => by simp at hj, fun hset => absurd hset Bool.false_ne_true, trivial⟩
  | encode c =>
    rcases Worker.callStep_encode hs with ⟨rfl, report, rfl⟩ | ⟨rfl, j, _, rfl⟩ <;>
      exact hi.move hhold (by simp) (fun _ => rfl) trivial
  | encodeScan c st j k seen =>
    simp only [Worker.callStep] at hs
    split at hs <;> cases hs
    · exact hi.move hhold (by simp) (fun _ => rfl) trivial
    · exact hi.goto hhold rfl rfl rfl (fun _ hm => hm) (by simp) (fun _ => rfl) trivial
  | encodeTasks c st j k report =>
    obtain ⟨rfl, ⟨report', rfl⟩ | ⟨report', rfl⟩⟩ := Worker.callStep_encodeTasks hs <;>
      exact hi.move hhold (by simp) (fun _ => rfl) trivial
  | encodeStatus c st j =>
    cases hs
    exact hi.move hhold (by simp) (fun _ => rfl) trivial
  | unlock c report =>
    cases hs
    exact hi.goto hhold rfl rfl rfl (fun _ hm => hm) (by simp) (fun _ => rfl) trivial

end Steps

namespace Solo

theorem run_sameInv {h : History Solo Label} {s : Solo} (hr : Run step always create h s) :
    SameInv s.worker s.pc := by
  refine Run.state_invariant (I := fun s => SameInv s.worker s.pc) SameInv.create
    (fun _ s l s' hi _ hs => ?_) hr
  cases l with
  | call r =>
    simp only [step] at hs
    split at hs <;> cases hs
    · rename_i hpc
      exact hi.call (Or.inl hpc)
    · rename_i c report hpc
      exact hi.call (Or.inr ⟨c, report, hpc⟩)
  | move ok =>
    simp only [step] at hs
    split at hs <;> cases hs
    rename_i hcall
    exact hi.callStep hcall
  | thread t l =>
    simp only [step] at hs
    split at hs <;> cases hs
    rename_i hthread
    exact hi.threadStep hthread

/-- The runner of the engine is there, and it is the one for
`worker->job`. -/
def SameJob (w : Worker) : Prop :=
  ∃ r, w.core.jobRunner = some r ∧ w.job = some (w.core.runners r).job

/-- In every run of the worker, with any job threads and any failures:
an `update_status` that yields WORKING or NOT_WORKING finds the engine
with a runner of `worker->job`; and from the point where `engine_restart`
or `engine_stop` reads the runner until it is done with it, the runner is
held and its job is `worker->job`. -/
theorem run_same_job {h : History Solo Label} {s : Solo} (hr : Run step always create h s) :
    (∀ c, s.pc = .decide c ∨ s.pc = .encode c →
      s.worker.status = .working ∨ s.worker.status = .notWorking → SameJob s.worker) ∧
    (∀ c call, s.pc = .engine c (.load call) → SameJob s.worker) ∧
    ∀ c r, (∃ k, (k = .recreate ∨ k = .return) ∧
        (s.pc = .engine c (.cancel r k) ∨ s.pc = .engine c (.join r k))) ∨
        s.pc = .engine c (.recreate r) →
      s.worker.core.jobRunner = some r ∧ s.worker.job = some (s.worker.core.runners r).job := by
  have hi := run_sameInv hr
  have hsignal := hi.signal
  refine ⟨?_, ?_, ?_⟩
  · intro c hpc hst
    have hset : s.pc.settled = true := by rcases hpc with hpc | hpc <;> rw [hpc] <;> rfl
    refine hi.heldMatches hset ?_ ?_
    · rcases hst with hst | hst <;> simp [hst]
    · rcases hst with hst | hst <;> simp [hst]
  · intro c call hpc
    rw [hpc] at hsignal
    exact hsignal
  · rintro c r (⟨k, hk, hpc | hpc⟩ | hpc)
    · rw [hpc] at hsignal
      exact hsignal hk
    · rw [hpc] at hsignal
      exact hsignal hk
    · rw [hpc] at hsignal
      exact hsignal

/-- A job runs to its end, another one is assigned and started, and a
`worker_stop` finds its task executing. -/
def stoppedAfterAssign : List Label :=
  [Label.call (.run oneTaskJob)] ++ moves 19 ++
  List.replicate 4 (Label.thread 0 (.job true)) ++
  [Label.thread 0 (.task 0 .spawned), .thread 0 (.task 0 (.finished 0))] ++
  List.replicate 8 (Label.thread 0 (.job true)) ++
  [Label.call (.assign oneTaskJob)] ++ moves 19 ++ [Label.call .start] ++ moves 12 ++
  List.replicate 4 (Label.thread 1 (.job true)) ++ [Label.call .stop] ++ moves 5

/-- The second job has replaced the first one by then, and the runner is
that of the second. -/
theorem run_same_job_assigned : ∃ h s, Run step always create h s ∧ s.pc = .decide .stop ∧
    s.worker.status = .working ∧ s.worker.job = some 1 ∧ s.worker.core.jobFreed 0 = true ∧
    SameJob s.worker := by
  obtain ⟨h, s, hr, hc⟩ := Run.of_check step always create stoppedAfterAssign
    (fun s => s.pc == .decide .stop && s.worker.status == .working && s.worker.job == some 1 &&
      s.worker.core.jobFreed 0) (by decide +kernel)
  simp only [Bool.and_eq_true, beq_iff_eq] at hc
  obtain ⟨⟨⟨hpc, hst⟩, hjob⟩, hfreed⟩ := hc
  exact ⟨h, s, hr, hpc, hst, hjob, hfreed, (run_same_job hr).1 .stop (Or.inl hpc) (Or.inl hst)⟩

end Solo

end Pyoneer.Runtime
