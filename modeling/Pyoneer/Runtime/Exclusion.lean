/-
Pyoneer.Runtime.Exclusion — any number of clients on one worker.

A call tests `worker->status` and then acts on what it has read: it
enters the engine, or it replaces `worker->job`. Commands hold
`worker->lock` from before the test to the end, signals do not, so that
a signal can act between the test and the act of another call. A call
is COMMITTED from the test that it passes to the end of what it does
then.

`ClientsInv` is what holds as long as no call passes its test while
another one is committed: a live thread belongs to the runner in
`engine->job_runner` or to the one that the committed call has just
created, and `worker->job` has not been destroyed. It does not depend on
what the status was when the test was passed. Two results follow from
it, each with its own condition on the tests: no job is destroyed while
a thread iterates it, and no second job thread is created while one is
live.
-/
import Pyoneer.Runtime.WorkerTheorems

namespace Pyoneer.Runtime

open Pyoneer.Lib Pyoneer.Blueprint

/-- The call that is in progress. -/
def CallPc.cmd : CallPc → Option Cmd
  | .idle | .returned _ _ | .enter _ => none
  | .update c _ | .scan c _ _ _ _ | .mapStatus c _ _ | .decide c | .engine c _
  | .destroyJob c _ | .setJob c _ | .encode c | .encodeScan c _ _ _ _ | .encodeStatus c _ _
  | .encodeTasks c _ _ _ _ | .unlock c _ => some c

/-- The call takes the lock. -/
def Cmd.isCommand : Cmd → Bool
  | .getStatus | .run _ | .assign _ => true
  | .start | .restart | .stop => false

/-- The call has `worker->lock`. -/
def CallPc.holdsLock (pc : CallPc) : Bool := pc.cmd.any Cmd.isCommand

/-- The call has passed its test of `worker->status` and acts on it. -/
def CallPc.committed : CallPc → Bool
  | .engine _ _ | .destroyJob _ _ | .setJob _ _ => true
  | _ => false

/-- No live thread iterates `worker->job`. -/
def Worker.JobUnused (w : Worker) : Prop :=
  ∀ t < w.core.nthreads, w.core.Live t → w.job ≠ some (w.core.jobOf t)

instance (w : Worker) : Decidable w.JobUnused :=
  inferInstanceAs (Decidable (∀ t < _, _ → _))

/-- No job thread is live; as `Quiet`, over the threads there are. -/
def Worker.NoThread (w : Worker) : Prop := ∀ t < w.core.nthreads, ¬ w.core.Live t

instance (w : Worker) : Decidable w.NoThread :=
  inferInstanceAs (Decidable (∀ t < _, ¬ _))

theorem Worker.NoThread.quiet {w : Worker} (h : w.NoThread) : Quiet w.core :=
  fun t ht => h t ht.1 ht

namespace Clients

/-- Where the next step of client `i` leads, if it is the test of
`worker->status` and the call is then committed. -/
def passes (s : Clients) (i : Nat) : Option CallPc :=
  match s.pcs i with
  | .decide c => (c.choose s.worker.status s.worker.job).filter CallPc.committed
  | _ => none

/-- No other call is committed. -/
def Alone (s : Clients) (i : Nat) : Prop :=
  ∀ i' < s.count, i' ≠ i → (s.pcs i').committed = false

instance (s : Clients) (i : Nat) : Decidable (s.Alone i) :=
  inferInstanceAs (Decidable (∀ i' < _, _ → _))

/-- No call passes its test while another one is committed. -/
def Exclusive (_ : History Clients Label) (s : Clients) : Label → Prop
  | .move i _ => (s.passes i).isSome → s.Alone i
  | _ => True

instance (h : History Clients Label) (s : Clients) (l : Label) : Decidable (Exclusive h s l) :=
  match l with
  | .move _ _ => inferInstanceAs (Decidable (_ → _))
  | .call _ _ => inferInstanceAs (Decidable True)
  | .thread _ _ => inferInstanceAs (Decidable True)

end Clients

/-! ## Steps of a call -/

/-- Which calls come to which points. -/
def CallPc.Shape : CallPc → Prop
  | .engine c _ => c ≠ .getStatus ∧ ∀ j, c ≠ .assign j
  | .destroyJob c j | .setJob c j => c.job = some j
  | .update c .report | .scan c .report _ _ _ | .mapStatus c .report _ | .encode c
  | .encodeScan c _ _ _ _ | .encodeStatus c _ _ | .encodeTasks c _ _ _ _ | .unlock c _ =>
    c.isCommand = true
  | _ => True

theorem Cmd.isCommand_of_job {c : Cmd} {j : Nat} (h : c.job = some j) : c.isCommand = true := by
  cases c <;> simp_all [Cmd.job, Cmd.isCommand]

/-- A signal may enter the engine. -/
theorem Cmd.signal_shape {c : Cmd} (h : c.isCommand = false) :
    c ≠ .getStatus ∧ ∀ j, c ≠ .assign j := by
  cases c <;> simp_all [Cmd.isCommand]

section CallSteps

variable {w w' : Worker} {pc pc' : CallPc} {c : Cmd} {ok : Bool}

/-- What follows the test of `worker->status`. -/
theorem Cmd.choose_cases {status : WorkerStatus} {job : Option Nat}
    (hs : c.choose status job = some pc') :
    (c.job ≠ none ∧ pc' = .unlock c none) ∨ (c.isCommand = false ∧ pc' = .returned c none) ∨
      (∃ j, c = .run j ∧ status ≠ .working ∧ pc' = .engine c (.create j)) ∨
      (∃ j, c = .assign j ∧ status ≠ .working ∧ pc' = .destroyJob c j) ∨
      (∃ j, c.isCommand = false ∧ job = some j ∧ pc' = .engine c (.create j)) ∨
      (c.isCommand = false ∧ (pc' = .engine c (.load .restart) ∨ pc' = .engine c (.load .stop))) := by
  have hheld : ∀ c : Cmd, c.runHeld job = some pc' → ∃ j, job = some j ∧
      pc' = .engine c (.create j) := by
    intro c h
    cases job with
    | none => cases h
    | some j => exact ⟨j, rfl, (Option.some.inj h).symm⟩
  cases c with
  | getStatus => simp [Cmd.choose] at hs
  | run j | assign j => cases status <;> simp_all [Cmd.choose, Cmd.job]
  | start | restart | stop =>
    cases status <;> simp_all [Cmd.choose, Cmd.isCommand, Cmd.job]

/-- `c'` has the runners of `c` and no thread that `c` does not have. -/
structure Core.Kept (c c' : Core) : Prop where
  inv : CoreInv c → CoreInv c'
  jobRunner : c'.jobRunner = c.jobRunner
  nrunners : c'.nrunners = c.nrunners
  njobs : c.njobs ≤ c'.njobs
  jobFreed : c'.jobFreed = c.jobFreed
  runnerJob : ∀ r, (c'.runners r).job = (c.runners r).job
  tid : ∀ r, c'.tid r = c.tid r
  runner : ∀ t, (c'.threads t).runner = (c.threads t).runner
  live : ∀ t, c'.Live t → c.Live t
  exited : ∀ t, (c.threads t).body.pc = .exited → (c'.threads t).body.pc = .exited

theorem Core.Kept.refl (c : Core) : Core.Kept c c :=
  ⟨id, rfl, rfl, Nat.le_refl _, rfl, fun _ => rfl, fun _ => rfl, fun _ => rfl, fun _ => id,
    fun _ => id⟩

theorem Core.Kept.of_frame {c c' : Core} (hf : Core.Frame c c') (hr : c'.jobRunner = c.jobRunner)
    (hj : c'.jobFreed = c.jobFreed) (hi : CoreInv c → CoreInv c') : Core.Kept c c' :=
  ⟨hi, hr, hf.nrunners, hf.njobs, hj, hf.job, hf.tid, hf.runner, fun _ => hf.live_iff.mp,
    fun t hx => (hf.pc t).trans hx⟩

theorem Core.Kept.putStatus (c : Core) (j : Nat) (seen : List TaskStatus) :
    Core.Kept c (c.putStatus j seen) :=
  .of_frame (.putStatus c j seen) rfl rfl fun hi =>
    hi.frame (.putStatus c j seen) hi.held_lt fun _ _ hj => Or.inl hj

theorem Core.Kept.threadStep {c c' : Core} {t : Nat} {l : JobExec.Label} (hi : CoreInv c)
    (hs : c.threadStep t l = some c') : Core.Kept c c' := by
  have hst := Core.Still.threadStep hi hs
  exact ⟨fun hi => hi.threadStep hs, hst.jobRunner, hst.nrunners, Nat.le_of_eq hst.njobs.symm,
    hst.jobFreed, hst.runnerJob, hst.tid, hst.runner, hst.live, hst.exited⟩

theorem Core.Kept.jobOf {c c' : Core} (hk : Core.Kept c c') (t : Nat) :
    c'.jobOf t = c.jobOf t := by
  rw [Core.jobOf, Core.jobOf, hk.runner, hk.runnerJob]

/-- A step of a call that is not committed: it has at most a new job and
new statuses. -/
structure Worker.Calm (w : Worker) (pc : CallPc) (w' : Worker) (pc' : CallPc) : Prop where
  kept : Core.Kept w.core w'.core
  job : w'.job = w.job
  shape : pc'.Shape
  own : ∀ j, pc'.own = some j → pc.own = some j ∨ (w.core.njobs ≤ j ∧ j < w'.core.njobs)
  lock : (w'.locked = w.locked ∧ pc'.holdsLock = pc.holdsLock) ∨
    (w.locked = false ∧ w'.locked = true ∧ pc.holdsLock = false) ∨
    (pc.holdsLock = true ∧ pc'.holdsLock = false)
  passes : pc'.committed = true → ∃ c, pc = .decide c ∧ c.choose w.status w.job = some pc'

theorem Worker.Calm.enter {r : Request} (hs : w.callStep (.enter r) ok = some (w', pc')) :
    Worker.Calm w (.enter r) w' pc' := by
  simp only [Worker.callStep] at hs
  split at hs
  · split at hs
    · simp only [Option.some.injEq, Prod.mk.injEq] at hs
      obtain ⟨rfl, rfl⟩ := hs
      exact ⟨.refl _, rfl, trivial, by simp [CallPc.own], Or.inl ⟨rfl, rfl⟩, by
        simp [CallPc.committed]⟩
    · split at hs
      · cases hs
      · rename_i hlock
        simp only [Option.some.injEq, Prod.mk.injEq] at hs
        obtain ⟨rfl, rfl⟩ := hs
        have hfree : w.locked = false := by simpa using hlock
        cases r with
        | run job | assign job =>
          refine ⟨.of_frame (.newJob _ _) rfl rfl fun hi => hi.newJob _, rfl, trivial, ?_,
            Or.inr (Or.inl ⟨hfree, rfl, rfl⟩), by simp [Request.place, Cmd.entry, CallPc.committed]⟩
          intro j hj
          obtain rfl : w.core.njobs = j := by
            simpa [Request.place, Cmd.entry, CallPc.own, Cmd.job] using hj
          exact Or.inr ⟨Nat.le_refl _, Nat.lt_succ_self _⟩
        | _ =>
          refine ⟨.refl _, rfl, ?_, ?_, Or.inr (Or.inl ⟨hfree, rfl, rfl⟩), ?_⟩ <;>
            simp_all [Request.place, Cmd.entry, CallPc.own, CallPc.committed, CallPc.Shape,
              Cmd.isCommand, Request.isCommand]
  · simp only [Option.some.injEq, Prod.mk.injEq] at hs
    obtain ⟨rfl, rfl⟩ := hs
    cases r <;> simp_all [Request.isCommand] <;>
      exact ⟨.refl _, rfl, trivial, by simp [Request.place, Cmd.entry, CallPc.own, Cmd.job],
        Or.inl ⟨rfl, rfl⟩, by simp [Request.place, Cmd.entry, CallPc.committed]⟩

/-- A step that stays in the same call and only reads, or writes
statuses. -/
theorem Worker.Calm.reads (hkept : Core.Kept w.core w'.core) (hjob : w'.job = w.job)
    (hlock : w'.locked = w.locked) (hshape : pc'.Shape) (hcmd : pc'.cmd = pc.cmd)
    (hown : ∀ j, pc'.own = some j → pc.own = some j) (hc : pc'.committed = false) :
    Worker.Calm w pc w' pc' := by
  refine ⟨hkept, hjob, hshape, fun j hj => Or.inl (hown j hj), Or.inl ⟨hlock, ?_⟩, ?_⟩
  · rw [CallPc.holdsLock, CallPc.holdsLock, hcmd]
  · rw [hc]
    intro h
    cases h

theorem Worker.Calm.decide (hs : w.callStep (.decide c) ok = some (w', pc')) :
    Worker.Calm w (.decide c) w' pc' := by
  simp only [Worker.callStep] at hs
  split at hs
  · rename_i pc heq
    simp only [Option.some.injEq, Prod.mk.injEq] at hs
    obtain ⟨rfl, rfl⟩ := hs
    have hcalm : pc.Shape → (∀ j, pc.own = some j → c.job = some j) →
        pc.holdsLock = c.isCommand → Worker.Calm w (.decide c) w pc := fun hshape hown hlock =>
      ⟨.refl _, rfl, hshape, fun j hj => Or.inl (hown j hj), Or.inl ⟨rfl, hlock⟩,
        fun _ => ⟨c, rfl, heq⟩⟩
    rcases Cmd.choose_cases heq with ⟨hc, rfl⟩ | ⟨hc, rfl⟩ | ⟨j, rfl, _, rfl⟩ | ⟨j, rfl, _, rfl⟩ |
      ⟨j, hc, _, rfl⟩ | ⟨hc, rfl | rfl⟩
    · obtain ⟨j, hj⟩ := Option.ne_none_iff_exists'.mp hc
      exact hcalm (Cmd.isCommand_of_job hj) (by simp [CallPc.own]) rfl
    · exact hcalm trivial (by simp [CallPc.own]) hc.symm
    · exact hcalm ⟨by simp, by simp⟩ (fun _ h => h) rfl
    · exact hcalm rfl (fun _ h => h) rfl
    · exact hcalm (Cmd.signal_shape hc) (fun _ h => h) rfl
    · exact hcalm (Cmd.signal_shape hc) (fun _ h => h) rfl
    · exact hcalm (Cmd.signal_shape hc) (fun _ h => h) rfl
  · cases hs

/-- Every step of a call that is not committed is calm. -/
theorem Worker.Calm.of_callStep (hp : pc.Shape) (hc : pc.committed = false)
    (hs : w.callStep pc ok = some (w', pc')) : Worker.Calm w pc w' pc' := by
  cases pc with
  | idle | returned c report => simp [Worker.callStep] at hs
  | enter r => exact .enter hs
  | update c y =>
    simp only [Worker.callStep] at hs
    split at hs <;> simp only [Option.some.injEq, Prod.mk.injEq] at hs <;> obtain ⟨rfl, rfl⟩ := hs
    · cases y <;> exact .reads (.refl _) rfl rfl hp rfl (by simp [Cmd.updated, CallPc.own]) rfl
    · cases y <;> exact .reads (.refl _) rfl rfl hp rfl (fun _ h => h) rfl
  | scan c y j k seen =>
    simp only [Worker.callStep] at hs
    split at hs <;> simp only [Option.some.injEq, Prod.mk.injEq] at hs <;> obtain ⟨rfl, rfl⟩ := hs
    · cases y <;> exact .reads (.refl _) rfl rfl hp rfl (fun _ h => h) rfl
    · cases y <;> exact .reads (.putStatus _ _ _) rfl rfl hp rfl (fun _ h => h) rfl
  | mapStatus c y j =>
    simp only [Worker.callStep, Option.some.injEq, Prod.mk.injEq] at hs
    obtain ⟨rfl, rfl⟩ := hs
    cases y <;> exact .reads (.refl _) rfl rfl hp rfl (fun _ h => h) rfl
  | decide c => exact .decide hs
  | engine c epc | destroyJob c j | setJob c j => cases hc
  | encode c =>
    rcases Worker.callStep_encode hs with ⟨rfl, report, rfl⟩ | ⟨rfl, j, _, rfl⟩
    · exact .reads (.refl _) rfl rfl hp rfl (fun _ h => h) rfl
    · exact .reads (.refl _) rfl rfl hp rfl (fun _ h => h) rfl
  | encodeScan c st j k seen =>
    simp only [Worker.callStep] at hs
    split at hs <;> simp only [Option.some.injEq, Prod.mk.injEq] at hs <;> obtain ⟨rfl, rfl⟩ := hs
    · exact .reads (.refl _) rfl rfl hp rfl (fun _ h => h) rfl
    · exact .reads (.putStatus _ _ _) rfl rfl hp rfl (fun _ h => h) rfl
  | encodeStatus c st j =>
    simp only [Worker.callStep, Option.some.injEq, Prod.mk.injEq] at hs
    obtain ⟨rfl, rfl⟩ := hs
    exact .reads (.refl _) rfl rfl hp rfl (fun _ h => h) rfl
  | encodeTasks c st j k report =>
    obtain ⟨rfl, ⟨report', rfl⟩ | ⟨report', rfl⟩⟩ := Worker.callStep_encodeTasks hs
    · exact .reads (.refl _) rfl rfl hp rfl (fun _ h => h) rfl
    · exact .reads (.refl _) rfl rfl hp rfl (fun _ h => h) rfl
  | unlock c report =>
    simp only [Worker.callStep, Option.some.injEq, Prod.mk.injEq] at hs
    obtain ⟨rfl, rfl⟩ := hs
    exact ⟨.refl _, rfl, trivial, by simp [CallPc.own], Or.inr (Or.inr ⟨hp, rfl⟩), by
      simp [CallPc.committed]⟩

/-- Only a committed call has created a runner. -/
theorem CallPc.newRunner_none (hc : pc.committed = false) : pc.newRunner = none := by
  cases pc <;> simp_all [CallPc.committed, CallPc.newRunner]

/-- Only a call that has the lock has a job of its own. -/
theorem CallPc.holdsLock_of_own {j : Nat} (hp : pc.Shape) (h : pc.own = some j) :
    pc.holdsLock = true := by
  cases pc with
  | update c y | scan c y j k seen | mapStatus c y j =>
    cases y with
    | guard => exact Cmd.isCommand_of_job h
    | report => cases h
  | decide c | engine c epc => exact Cmd.isCommand_of_job h
  | destroyJob c j | setJob c j => exact Cmd.isCommand_of_job hp
  | _ => cases h

/-- Where the call goes from the engine. -/
theorem Cmd.afterEngine_shape (hc : c ≠ .getStatus ∧ ∀ j, c ≠ .assign j) (epc : EnginePc) :
    (c.afterEngine epc).Shape ∧ (c.afterEngine epc).holdsLock = c.isCommand ∧
      (∀ j, (c.afterEngine epc).own = some j → c.job = some j) ∧
      ∀ c' j, c.afterEngine epc ≠ .setJob c' j := by
  cases epc with
  | done ok =>
    cases c with
    | getStatus => exact absurd rfl hc.1
    | assign j => exact absurd rfl (hc.2 j)
    | run j => cases ok <;> exact ⟨rfl, rfl, by simp [afterEngine, engineDone, CallPc.own, Cmd.job],
        by simp [afterEngine, engineDone]⟩
    | start | restart | stop =>
      exact ⟨trivial, rfl, by simp [afterEngine, engineDone, CallPc.own],
        by simp [afterEngine, engineDone]⟩
  | _ => exact ⟨hc, rfl, fun _ h => h, by simp [afterEngine]⟩

end CallSteps

/-! ## The invariant -/

/-- What a committed call knows in the engine. -/
def EngineAct (w : Worker) (c : Cmd) : EnginePc → Prop
  | .create j => c.job.or w.job = some j
  | .swap new => NewOk w c new
  | .load call => c.isCommand = false ∧ (call = .restart ∨ call = .stop)
  | .cancel r k | .join r k =>
    w.core.jobRunner = some r ∧ (∀ new, k = .free new → NewOk w c new) ∧
      (k = .recreate ∨ k = .return → c.isCommand = false) ∧ k ≠ .freeEngine
  | .free _ new | .store new => NewOk w c new ∧ HeldExited w.core
  | .recreate r => w.core.jobRunner = some r ∧ HeldExited w.core ∧ c.isCommand = false
  | .freeEngine | .done _ => False

/-- What a committed call knows. -/
def Act (w : Worker) : CallPc → Prop
  | .engine c epc => EngineAct w c epc
  | .destroyJob (.run j) _ => Matched w.core j
  | _ => True

theorem act_of_calm {w : Worker} {pc : CallPc} (hc : pc.committed = false) : Act w pc := by
  cases pc <;> simp_all [CallPc.committed, Act]

theorem Core.Kept.act {w w' : Worker} {pc : CallPc} (hk : Core.Kept w.core w'.core)
    (hjob : w'.job = w.job) (h : Act w pc) : Act w' pc := by
  have hnew : ∀ c new, NewOk w' c new ↔ NewOk w c new := by
    intro c new
    simp only [NewOk, hk.jobRunner, hk.runnerJob, hk.nrunners, hjob]
  have hexited : HeldExited w.core → HeldExited w'.core := by
    intro h r hr
    rw [hk.tid]
    exact hk.exited _ (h r (hk.jobRunner ▸ hr))
  cases pc with
  | engine c epc =>
    cases epc with
    | free r new | store new => exact ⟨(hnew c new).mpr h.1, hexited h.2⟩
    | recreate r => exact ⟨hk.jobRunner.trans h.1, hexited h.2.1, h.2.2⟩
    | freeEngine | done ok => exact h
    | _ => simpa only [Act, EngineAct, hnew, hk.jobRunner, hjob] using h
  | destroyJob c j =>
    cases c with
    | run j =>
      obtain ⟨r, hr, hj⟩ := h
      exact ⟨r, hk.jobRunner.trans hr, (hk.runnerJob r).trans hj⟩
    | _ => trivial
  | _ => trivial

namespace Clients

structure ClientsInv (s : Clients) : Prop where
  core : CoreInv s.worker.core
  idle : ∀ i, s.count ≤ i → s.pcs i = .idle
  shape : ∀ i, (s.pcs i).Shape
  locked : ∀ i, (s.pcs i).holdsLock = true → s.worker.locked = true
  unique : ∀ i i', (s.pcs i).holdsLock = true → (s.pcs i').holdsLock = true → i = i'
  single : ∀ i i', (s.pcs i).committed = true → (s.pcs i').committed = true → i = i'
  held : ∀ o, s.worker.job = some o → o < s.worker.core.njobs
  alive : ∀ o, s.worker.job = some o → (∀ i c j, s.pcs i ≠ .setJob c j) →
    s.worker.core.jobFreed o = false
  own : ∀ i j, (s.pcs i).own = some j →
    j < s.worker.core.njobs ∧ s.worker.core.jobFreed j = false ∧ s.worker.job ≠ some j
  unused : ∀ j, s.worker.core.njobs ≤ j → s.worker.core.jobFreed j = false
  runners : ∀ t, s.worker.core.Live t →
    s.worker.core.jobRunner = some (s.worker.core.threads t).runner ∨
      ∃ i, (s.pcs i).newRunner = some (s.worker.core.threads t).runner
  act : ∀ i, Act s.worker (s.pcs i)

theorem ClientsInv.create (n : Nat) : ClientsInv (create n) := by
  refine ⟨CoreInv.create, fun _ _ => rfl, fun _ => trivial, ?_, ?_, ?_, ?_, ?_, ?_, fun _ _ => rfl,
    ?_, fun _ => trivial⟩ <;>
    simp [Clients.create, Worker.create, Core.create, CallPc.holdsLock, CallPc.cmd,
      CallPc.committed, CallPc.own, Core.Live]

variable {s s' : Clients} {i : Nat} {w' : Worker} {pc' : CallPc} {ok : Bool}

/-- A property of the calls, after a step of client `i`. -/
theorem forall_update {P : Nat → CallPc → Prop} (hi : P i pc')
    (h : ∀ i', i' ≠ i → P i' (s.pcs i')) (i' : Nat) : P i' (Function.update s.pcs i pc' i') := by
  by_cases he : i' = i
  · subst he
    rwa [Function.update_self]
  · rw [Function.update_of_ne he]
    exact h i' he

/-- While a call is committed, the others are not. -/
theorem ClientsInv.others (hi : ClientsInv s) (hc : (s.pcs i).committed = true) {i' : Nat}
    (hne : i' ≠ i) : (s.pcs i').committed = false := by
  by_contra h
  exact hne (hi.single i' i (by simpa using h) hc)

/-- While a call is committed, a live thread belongs to the held runner
or to the new one of that call. -/
theorem ClientsInv.runners_of_committed (hi : ClientsInv s) (hc : (s.pcs i).committed = true)
    {t : Nat} (ht : s.worker.core.Live t) :
    s.worker.core.jobRunner = some (s.worker.core.threads t).runner ∨
      (s.pcs i).newRunner = some (s.worker.core.threads t).runner := by
  rcases hi.runners t ht with h | ⟨i', h⟩
  · exact Or.inl h
  · by_cases he : i' = i
    · exact Or.inr (he ▸ h)
    · rw [CallPc.newRunner_none (hi.others hc he)] at h
      cases h

/-- What a step of client `i` does to the lock: nothing, or it takes it
when it is free, or it gives it back. -/
theorem lock_update (hlocked : ∀ k, (s.pcs k).holdsLock = true → s.worker.locked = true)
    (hunique : ∀ k k', (s.pcs k).holdsLock = true → (s.pcs k').holdsLock = true → k = k')
    (hs : (w'.locked = s.worker.locked ∧ pc'.holdsLock = (s.pcs i).holdsLock) ∨
      (s.worker.locked = false ∧ w'.locked = true ∧ (s.pcs i).holdsLock = false) ∨
      ((s.pcs i).holdsLock = true ∧ pc'.holdsLock = false)) :
    (∀ k, (Function.update s.pcs i pc' k).holdsLock = true → w'.locked = true) ∧
      ∀ k k', (Function.update s.pcs i pc' k).holdsLock = true →
        (Function.update s.pcs i pc' k').holdsLock = true → k = k' := by
  rcases hs with ⟨hlock, hh⟩ | ⟨hfree, hlock, hh⟩ | ⟨hh, hout⟩
  · have heq : ∀ k, (Function.update s.pcs i pc' k).holdsLock = (s.pcs k).holdsLock :=
      update_field s.pcs CallPc.holdsLock hh
    simp only [heq, hlock]
    exact ⟨hlocked, hunique⟩
  · -- the lock was free, so nobody had it
    have hnone : ∀ k, (s.pcs k).holdsLock ≠ true := fun k hk => by
      rw [hlocked k hk] at hfree
      cases hfree
    have hself : ∀ k, (Function.update s.pcs i pc' k).holdsLock = true → k = i := by
      intro k hk
      by_contra hne
      rw [Function.update_of_ne hne] at hk
      exact hnone k hk
    exact ⟨fun _ _ => hlock, fun k k' hk hk' => (hself k hk).trans (hself k' hk').symm⟩
  · have hnone : ∀ k, (Function.update s.pcs i pc' k).holdsLock ≠ true := by
      refine forall_update (P := fun _ pc => pc.holdsLock ≠ true) (by simp [hout]) ?_
      exact fun k hne hk => hne (hunique k i hk hh)
    exact ⟨fun k hk => absurd hk (hnone k), fun k _ hk => absurd hk (hnone k)⟩

/-- A call that passes its test has not created a runner yet, and knows
which job it acts on. -/
theorem act_of_choose {w : Worker} {c : Cmd} (hs : c.choose w.status w.job = some pc') :
    Act w pc' ∧ pc'.newRunner = none ∧ ∀ c j, pc' ≠ .setJob c j := by
  rcases Cmd.choose_cases hs with ⟨_, rfl⟩ | ⟨_, rfl⟩ | ⟨j, rfl, _, rfl⟩ | ⟨j, rfl, _, rfl⟩ |
    ⟨j, hc, hj, rfl⟩ | ⟨hc, rfl | rfl⟩
  · exact ⟨trivial, rfl, by simp⟩
  · exact ⟨trivial, rfl, by simp⟩
  · exact ⟨rfl, rfl, by simp⟩
  · exact ⟨trivial, rfl, by simp⟩
  · have hnone : c.job = none := by
      cases c <;> simp_all [Cmd.isCommand, Cmd.job]
    refine ⟨?_, rfl, by simp⟩
    simp only [Act, EngineAct, hnone, Option.none_or, hj]
  · exact ⟨⟨hc, Or.inl rfl⟩, rfl, by simp⟩
  · exact ⟨⟨hc, Or.inr rfl⟩, rfl, by simp⟩

theorem ClientsInv.calm (hi : ClientsInv s) (hc : (s.pcs i).committed = false) (hlt : i < s.count)
    (hex : pc'.committed = true → s.Alone i) (hs : Worker.Calm s.worker (s.pcs i) w' pc') :
    ClientsInv { s with worker := w', pcs := Function.update s.pcs i pc' } := by
  have hk := hs.kept
  have hact : Act w' pc' ∧ pc'.newRunner = none ∧ ∀ c j, pc' ≠ .setJob c j := by
    cases hpc : pc'.committed with
    | false =>
      refine ⟨act_of_calm hpc, CallPc.newRunner_none hpc, ?_⟩
      rintro c j rfl
      cases hpc
    | true =>
      obtain ⟨c, _, hchoose⟩ := hs.passes hpc
      obtain ⟨h1, h2⟩ := act_of_choose hchoose
      exact ⟨hk.act hs.job h1, h2⟩
  obtain ⟨hlocked, hunique⟩ := lock_update hi.locked hi.unique hs.lock
  refine ⟨hk.inv hi.core, ?_, ?_, hlocked, hunique, ?_, ?_, ?_, ?_, ?_, ?_, ?_⟩
  · intro k hle
    have hne : k ≠ i := fun h => Nat.not_lt.mpr hle (h ▸ hlt)
    simp only [Function.update_of_ne hne]
    exact hi.idle k hle
  · exact forall_update (P := fun _ pc => pc.Shape) hs.shape fun k _ => hi.shape k
  · cases hpc : pc'.committed with
    | false =>
      have heq : ∀ k, (Function.update s.pcs i pc' k).committed = (s.pcs k).committed :=
        update_field s.pcs CallPc.committed (hpc.trans hc.symm)
      simp only [heq]
      exact hi.single
    | true =>
      have hself : ∀ k, (Function.update s.pcs i pc' k).committed = true → k = i := by
        intro k hk
        by_contra hne
        rw [Function.update_of_ne hne] at hk
        by_cases hk' : k < s.count
        · rw [hex hpc k hk' hne] at hk
          cases hk
        · rw [hi.idle k (Nat.not_lt.mp hk')] at hk
          cases hk
      exact fun k k' h h' => (hself k h).trans (hself k' h').symm
  · rw [hs.job]
    exact fun o ho => Nat.lt_of_lt_of_le (hi.held o ho) hk.njobs
  · intro o ho hset
    simp only [hs.job] at ho
    simp only [hk.jobFreed]
    refine hi.alive o ho fun k c j hkset => ?_
    by_cases hki : k = i
    · rw [hki] at hkset
      rw [hkset] at hc
      cases hc
    · exact hset k c j (by simpa only [Function.update_of_ne hki] using hkset)
  · simp only [hk.jobFreed, hs.job]
    refine forall_update (P := fun _ pc => ∀ j, pc.own = some j →
      j < w'.core.njobs ∧ s.worker.core.jobFreed j = false ∧ s.worker.job ≠ some j) ?_ ?_
    · intro j hj
      rcases hs.own j hj with h | ⟨hge, hlt⟩
      · obtain ⟨h1, h2, h3⟩ := hi.own i j h
        exact ⟨Nat.lt_of_lt_of_le h1 hk.njobs, h2, h3⟩
      · exact ⟨hlt, hi.unused j hge, fun ho => Nat.not_lt.mpr hge (hi.held j ho)⟩
    · intro k _ j hj
      obtain ⟨h1, h2, h3⟩ := hi.own k j hj
      exact ⟨Nat.lt_of_lt_of_le h1 hk.njobs, h2, h3⟩
  · intro j hj
    simp only [hk.jobFreed]
    exact hi.unused j (Nat.le_trans hk.njobs hj)
  · intro t ht
    simp only [hk.jobRunner, hk.runner]
    refine (hi.runners t (hk.live t ht)).imp_right ?_
    rintro ⟨k, hnew⟩
    refine ⟨k, ?_⟩
    have heq := update_field s.pcs CallPc.newRunner
      (hact.2.1.trans (CallPc.newRunner_none hc).symm) k
    rwa [heq]
  · exact forall_update (P := fun _ pc => Act w' pc) hact.1 fun k _ => hk.act hs.job (hi.act k)

/-- A step of the committed call. -/
theorem ClientsInv.acts (hi : ClientsInv s) (hc : (s.pcs i).committed = true)
    (hcore : CoreInv w'.core) (hshape : pc'.Shape) (hlock : w'.locked = s.worker.locked)
    (hholds : pc'.holdsLock = (s.pcs i).holdsLock)
    (hheld : ∀ o, w'.job = some o → o < w'.core.njobs)
    (halive : ∀ o, w'.job = some o → (∀ c j, pc' ≠ .setJob c j) → w'.core.jobFreed o = false)
    (hown : ∀ k j, (Function.update s.pcs i pc' k).own = some j →
      j < w'.core.njobs ∧ w'.core.jobFreed j = false ∧ w'.job ≠ some j)
    (hunused : ∀ j, w'.core.njobs ≤ j → w'.core.jobFreed j = false)
    (hrunners : ∀ t, w'.core.Live t → w'.core.jobRunner = some (w'.core.threads t).runner ∨
      pc'.newRunner = some (w'.core.threads t).runner)
    (hact : Act w' pc') :
    ClientsInv { s with worker := w', pcs := Function.update s.pcs i pc' } := by
  have hlt : i < s.count := by
    by_contra h
    rw [hi.idle i (Nat.not_lt.mp h)] at hc
    cases hc
  obtain ⟨hlocked, hunique⟩ := lock_update hi.locked hi.unique (Or.inl ⟨hlock, hholds⟩)
  have hself : ∀ k, (Function.update s.pcs i pc' k).committed = true → k = i := by
    intro k hk
    by_contra hne
    rw [Function.update_of_ne hne, hi.others hc hne] at hk
    cases hk
  refine ⟨hcore, ?_, ?_, hlocked, hunique, ?_, hheld, ?_, hown, hunused, ?_, ?_⟩
  · intro k hle
    have hne : k ≠ i := fun h => Nat.not_lt.mpr hle (h ▸ hlt)
    simp only [Function.update_of_ne hne]
    exact hi.idle k hle
  · exact forall_update (P := fun _ pc => pc.Shape) hshape fun k _ => hi.shape k
  · exact fun k k' h h' => (hself k h).trans (hself k' h').symm
  · exact fun o ho hset => halive o ho fun c j => by simpa using hset i c j
  · exact fun t ht => (hrunners t ht).imp_right fun h => ⟨i, by simpa using h⟩
  · exact forall_update (P := fun _ pc => Act w' pc) hact fun k hne =>
      act_of_calm (hi.others hc hne)

/-! ## Steps of the committed call -/

section Acts

variable {c : Cmd} {epc e : EnginePc} {core' : Core}

/-- A step in the engine. -/
theorem ClientsInv.engineActs (hi : ClientsInv s) (hpc : s.pcs i = .engine c epc)
    (hcore : CoreInv core') (hn : core'.njobs = s.worker.core.njobs)
    (hf : core'.jobFreed = s.worker.core.jobFreed)
    (hrunners : ∀ t, core'.Live t → core'.jobRunner = some (core'.threads t).runner ∨
      (c.afterEngine e).newRunner = some (core'.threads t).runner)
    (hact : Act { s.worker with core := core' } (c.afterEngine e)) :
    ClientsInv { s with
      worker := { s.worker with core := core' }
      pcs := Function.update s.pcs i (c.afterEngine e) } := by
  have hc : (s.pcs i).committed = true := by rw [hpc]; rfl
  have hshape := hi.shape i
  rw [hpc] at hshape
  obtain ⟨h1, h2, h3, _⟩ := Cmd.afterEngine_shape hshape e
  refine hi.acts hc hcore h1 rfl (h2.trans (by rw [hpc]; rfl)) ?_ ?_ ?_ ?_ hrunners hact
  · rw [hn]
    exact hi.held
  · intro o ho _
    rw [hf]
    refine hi.alive o ho fun k c' j hset => ?_
    by_cases hk : k = i
    · rw [hk, hpc] at hset
      cases hset
    · have hcalm := hi.others hc hk
      rw [hset] at hcalm
      cases hcalm
  · rw [hn, hf]
    refine forall_update (P := fun _ pc => ∀ j, pc.own = some j →
      j < s.worker.core.njobs ∧ s.worker.core.jobFreed j = false ∧ s.worker.job ≠ some j) ?_ ?_
    · exact fun j hj => hi.own i j (by rw [hpc]; exact h3 j hj)
    · exact fun k _ => hi.own k
  · rw [hn, hf]
    exact hi.unused

/-- A step in the engine that leaves the runners and the threads as they
are. -/
theorem ClientsInv.engineKept (hi : ClientsInv s) (hpc : s.pcs i = .engine c epc)
    (hk : Core.Kept s.worker.core core') (hn : core'.njobs = s.worker.core.njobs)
    (hnew : (s.pcs i).newRunner = none ∨
      (c.afterEngine e).newRunner = (CallPc.engine c epc).newRunner)
    (hact : Act s.worker (c.afterEngine e)) :
    ClientsInv { s with
      worker := { s.worker with core := core' }
      pcs := Function.update s.pcs i (c.afterEngine e) } := by
  have hc : (s.pcs i).committed = true := by rw [hpc]; rfl
  have hact' : Act { s.worker with core := core' } (c.afterEngine e) :=
    Core.Kept.act (w := s.worker) hk rfl hact
  refine hi.engineActs hpc (hk.inv hi.core) hn hk.jobFreed ?_ hact'
  intro t ht
  rw [hk.jobRunner, hk.runner]
  refine (hi.runners_of_committed hc (hk.live t ht)).imp_right fun h => ?_
  rcases hnew with hnone | heq
  · rw [hnone] at h
    cases h
  · rw [heq, ← hpc]
    exact h

/-- The call returns from the engine without having created a runner. -/
theorem act_done {w : Worker} {b : Bool} (h : b = true → c.isCommand = false) :
    Act w (c.afterEngine (.done b)) := by
  cases c with
  | run j =>
    cases b with
    | false => trivial
    | true => cases h rfl
  | _ => trivial

/-- `job_run` succeeds. -/
theorem ClientsInv.launch {j : Nat} (hi : ClientsInv s) (hpc : s.pcs i = .engine c (.create j)) :
    ClientsInv { s with
      worker := { s.worker with core := s.worker.core.launch j }
      pcs := Function.update s.pcs i (.engine c (.swap s.worker.core.nrunners)) } := by
  have hc : (s.pcs i).committed = true := by rw [hpc]; rfl
  have htarget := hi.act i
  rw [hpc] at htarget
  have hlt : j < s.worker.core.njobs := by
    cases hjob : c.job with
    | none =>
      simp only [Act, EngineAct, hjob, Option.none_or] at htarget
      exact hi.held j htarget
    | some j' =>
      simp only [Act, EngineAct, hjob, Option.some_or] at htarget
      exact (hi.own i j (by rw [hpc]; exact hjob.trans htarget)).1
  refine hi.engineActs (e := .swap s.worker.core.nrunners) hpc (hi.core.launch hlt) rfl rfl
    ?_ ⟨Nat.lt_succ_self _, ?_, ?_⟩
  · rintro t ⟨ht, hx⟩
    rcases Nat.lt_succ_iff_lt_or_eq.mp ht with ht | (rfl : t = s.worker.core.nthreads)
    · rw [s.worker.core.launch_thread_lt j ht] at hx ⊢
      refine Or.inl ((hi.runners_of_committed hc ⟨ht, hx⟩).resolve_right ?_)
      rw [hpc]
      simp [CallPc.newRunner]
    · exact Or.inr (by simp [Cmd.afterEngine, CallPc.newRunner])
  · exact fun hr => Nat.lt_irrefl _ (hi.core.held_lt _ hr)
  · simpa [Act, EngineAct] using htarget

/-- The new runner becomes the held one. -/
theorem ClientsInv.store {new : Nat} (hi : ClientsInv s)
    (hpc : s.pcs i = .engine c (.store new)) :
    ClientsInv { s with
      worker := { s.worker with core := s.worker.core.setJobRunner new }
      pcs := Function.update s.pcs i (c.engineDone true) } := by
  have hc : (s.pcs i).committed = true := by rw [hpc]; rfl
  have hact := hi.act i
  rw [hpc] at hact
  obtain ⟨⟨hlt, _, htarget⟩, hexited⟩ := hact
  have hshape := hi.shape i
  rw [hpc] at hshape
  refine hi.engineActs (e := .done true) hpc (hi.core.setJobRunner hlt) rfl rfl ?_ ?_
  · intro t ht
    rcases hi.runners_of_committed hc ht with h | h
    · have hx := hexited _ h
      rw [← hi.core.live_tid ht] at hx
      exact absurd hx ht.2
    · rw [hpc] at h
      exact Or.inl h
  · cases c with
    | run j =>
      have hjob : j = (s.worker.core.runners new).job := by simpa [Cmd.job] using htarget
      exact ⟨new, rfl, hjob.symm⟩
    | _ => trivial

/-- `job_runner_restart` has a new thread. -/
theorem ClientsInv.respawn {r : Nat} (hi : ClientsInv s)
    (hpc : s.pcs i = .engine c (.recreate r)) :
    ClientsInv { s with
      worker := { s.worker with core := s.worker.core.spawn r }
      pcs := Function.update s.pcs i (c.engineDone true) } := by
  have hc : (s.pcs i).committed = true := by rw [hpc]; rfl
  have hact := hi.act i
  rw [hpc] at hact
  obtain ⟨hr, hexited, hsignal⟩ := hact
  have hlt := hi.core.held_lt r hr
  refine hi.engineActs (e := .done true) hpc (hi.core.spawn hlt (hexited r hr)) rfl rfl ?_
    (act_done fun _ => hsignal)
  rintro t ⟨ht, hx⟩
  rcases Nat.lt_succ_iff_lt_or_eq.mp ht with ht | rfl
  · rw [s.worker.core.spawn_thread_lt r ht] at hx ⊢
    refine Or.inl ((hi.runners_of_committed hc ⟨ht, hx⟩).resolve_right ?_)
    rw [hpc]
    simp [CallPc.newRunner]
  · exact Or.inl (by simpa using hr)

theorem ClientsInv.join {r : Nat} {k : After} (hi : ClientsInv s)
    (hpc : s.pcs i = .engine c (.join r k))
    (hx : (s.worker.core.threads (s.worker.core.tid r)).body.pc = .exited) :
    ClientsInv { s with
      worker := { s.worker with core := s.worker.core.join (s.worker.core.tid r) }
      pcs := Function.update s.pcs i (c.afterEngine (k.next r)) } := by
  have hact := hi.act i
  rw [hpc] at hact
  obtain ⟨hr, hnew, hsignal, hne⟩ := hact
  have hexited : HeldExited s.worker.core := by
    intro r' hr'
    obtain rfl : r = r' := Option.some.inj (hr.symm.trans hr')
    exact hx
  have hk : Core.Kept s.worker.core (s.worker.core.join (s.worker.core.tid r)) :=
    .of_frame (.join _ _) rfl rfl fun hi => hi.join hx
  cases k with
  | free new =>
    exact hi.engineKept (e := .free r new) hpc hk rfl (Or.inr rfl) ⟨hnew new rfl, hexited⟩
  | recreate =>
    exact hi.engineKept (e := .recreate r) hpc hk rfl (Or.inr rfl)
      ⟨hr, hexited, hsignal (Or.inl rfl)⟩
  | «return» =>
    exact hi.engineKept (e := .done true) hpc hk rfl (Or.inl (by rw [hpc]; rfl))
      (act_done fun _ => hsignal (Or.inr rfl))
  | freeEngine => exact absurd rfl hne

/-- Every step in the engine keeps the invariant. -/
theorem ClientsInv.engine (hi : ClientsInv s) (hpc : s.pcs i = .engine c epc)
    (hs : engineStep s.worker.core epc ok = some (core', e)) :
    ClientsInv { s with
      worker := { s.worker with core := core' }
      pcs := Function.update s.pcs i (c.afterEngine e) } := by
  have hact := hi.act i
  rw [hpc] at hact
  have hrefl := Core.Kept.refl s.worker.core
  cases epc with
  | create j =>
    simp only [engineStep] at hs
    split at hs <;> simp only [Option.some.injEq, Prod.mk.injEq] at hs <;> obtain ⟨rfl, rfl⟩ := hs
    · exact hi.engineKept hpc hrefl rfl (Or.inl (by rw [hpc]; rfl)) (act_done (by simp))
    · exact hi.launch hpc
  | swap new =>
    cases hr : s.worker.core.jobRunner with
    | none =>
      simp only [engineStep, hr, Option.some.injEq, Prod.mk.injEq] at hs
      obtain ⟨rfl, rfl⟩ := hs
      exact hi.engineKept hpc hrefl rfl (Or.inr rfl) ⟨hact, fun r h => by simp [hr] at h⟩
    | some r =>
      simp only [engineStep, hr, Option.some.injEq, Prod.mk.injEq] at hs
      obtain ⟨rfl, rfl⟩ := hs
      exact hi.engineKept hpc hrefl rfl (Or.inr rfl)
        ⟨hr, fun n hn => by cases hn; exact hact, by simp, by simp⟩
  | load call =>
    obtain ⟨hsignal, hcall⟩ := hact
    have hnone : (s.pcs i).newRunner = none := by rw [hpc]; rfl
    simp only [engineStep, Option.some.injEq, Prod.mk.injEq] at hs
    obtain ⟨rfl, rfl⟩ := hs
    refine hi.engineKept hpc hrefl rfl (Or.inl hnone) ?_
    cases hr : s.worker.core.jobRunner with
    | none =>
      rcases hcall with rfl | rfl <;> exact act_done fun _ => hsignal
    | some r =>
      rcases hcall with rfl | rfl <;> exact ⟨hr, by simp, fun _ => hsignal, by simp⟩
  | cancel r k =>
    simp only [engineStep, Option.some.injEq, Prod.mk.injEq] at hs
    obtain ⟨rfl, rfl⟩ := hs
    refine hi.engineKept hpc ?_ rfl (Or.inr (by cases k <;> rfl)) hact
    exact .of_frame (.cancel _ _) rfl rfl fun hi => hi.cancel _
  | join r k =>
    simp only [engineStep] at hs
    split at hs
    · rename_i hx
      simp only [Option.some.injEq, Prod.mk.injEq] at hs
      obtain ⟨rfl, rfl⟩ := hs
      exact hi.join hpc hx
    · cases hs
  | free r new =>
    simp only [engineStep, Option.some.injEq, Prod.mk.injEq] at hs
    obtain ⟨rfl, rfl⟩ := hs
    refine hi.engineKept hpc ?_ rfl (Or.inr rfl) hact
    exact .of_frame (.freeRunner _ _) rfl rfl fun hi => hi.freeRunner _
  | store new =>
    simp only [engineStep, Option.some.injEq, Prod.mk.injEq] at hs
    obtain ⟨rfl, rfl⟩ := hs
    exact hi.store hpc
  | recreate r =>
    simp only [engineStep, Option.some.injEq, Prod.mk.injEq] at hs
    obtain ⟨rfl, rfl⟩ := hs
    cases ok with
    | true => exact hi.respawn hpc
    | false =>
      exact hi.engineKept hpc hrefl rfl (Or.inl (by rw [hpc]; rfl)) (act_done fun _ => hact.2.2)
  | freeEngine | done b => exact hact.elim

/-- `job_destroy(worker->job)`. -/
theorem ClientsInv.destroyJob {j : Nat} (hi : ClientsInv s) (hpc : s.pcs i = .destroyJob c j) :
    ClientsInv { s with
      worker := { s.worker with core := s.worker.core.destroyJob s.worker.job }
      pcs := Function.update s.pcs i (.setJob c j) } := by
  have hc : (s.pcs i).committed = true := by rw [hpc]; rfl
  have hshape := hi.shape i
  rw [hpc] at hshape
  have hf := Core.Frame.destroyJob s.worker.core s.worker.job
  have hrun : (s.worker.core.destroyJob s.worker.job).jobRunner = s.worker.core.jobRunner := by
    cases s.worker.job <;> rfl
  have hn : (s.worker.core.destroyJob s.worker.job).njobs = s.worker.core.njobs := by
    cases s.worker.job <;> rfl
  have hfreed : ∀ k, s.worker.job ≠ some k →
      (s.worker.core.destroyJob s.worker.job).jobFreed k = s.worker.core.jobFreed k := by
    intro k hne
    cases ho : s.worker.job with
    | none => rfl
    | some o =>
      have hko : k ≠ o := fun h => hne (by rw [ho, h])
      simp [Core.destroyJob, hko]
  refine hi.acts hc ?_ hshape rfl (by rw [hpc]; rfl) ?_ ?_ ?_ ?_ ?_ trivial
  · refine hi.core.frame hf ?_ ?_
    · cases s.worker.job <;> exact hi.core.held_lt
    · cases s.worker.job <;> exact fun _ _ hj => Or.inl hj
  · rw [hn]
    exact hi.held
  · exact fun o _ hset => absurd rfl (hset c j)
  · rw [hn]
    refine forall_update (P := fun _ pc => ∀ j, pc.own = some j → j < s.worker.core.njobs ∧
      (s.worker.core.destroyJob s.worker.job).jobFreed j = false ∧ s.worker.job ≠ some j) ?_ ?_
    · intro j' hj
      obtain ⟨h1, h2, h3⟩ := hi.own i j' (by rw [hpc]; exact hj)
      exact ⟨h1, (hfreed j' h3).trans h2, h3⟩
    · intro k _ j' hj
      obtain ⟨h1, h2, h3⟩ := hi.own k j' hj
      exact ⟨h1, (hfreed j' h3).trans h2, h3⟩
  · rw [hn]
    intro k hge
    rw [hfreed k fun ho => Nat.not_lt.mpr hge (hi.held k ho)]
    exact hi.unused k hge
  · intro t ht
    rw [hrun, hf.runner]
    refine Or.inl ((hi.runners_of_committed hc (hf.live_iff.mp ht)).resolve_right ?_)
    rw [hpc]
    simp [CallPc.newRunner]

/-- `worker->job = job`. -/
theorem ClientsInv.setJob {j : Nat} (hi : ClientsInv s) (hpc : s.pcs i = .setJob c j) :
    ClientsInv { s with
      worker := { s.worker with job := some j }
      pcs := Function.update s.pcs i (.update c .report) } := by
  have hc : (s.pcs i).committed = true := by rw [hpc]; rfl
  have hshape := hi.shape i
  rw [hpc] at hshape
  obtain ⟨hlt, hfreed, _⟩ := hi.own i j (by rw [hpc]; rfl)
  have hsome : ∀ o, some j = some o → o = j := fun o h => (Option.some.inj h).symm
  refine hi.acts hc hi.core (Cmd.isCommand_of_job hshape) rfl (by rw [hpc]; rfl)
    (fun o ho => hsome o ho ▸ hlt) (fun o ho _ => hsome o ho ▸ hfreed) ?_ hi.unused ?_ trivial
  · refine forall_update (P := fun _ pc => ∀ j', pc.own = some j' → j' < s.worker.core.njobs ∧
      s.worker.core.jobFreed j' = false ∧ some j ≠ some j') (by simp [CallPc.own]) ?_
    -- a job of one's own comes with the lock, which client `i` has
    intro k hne j' hj
    have hk := CallPc.holdsLock_of_own (hi.shape k) hj
    refine absurd (hi.unique k i hk ?_) hne
    rw [hpc]
    exact Cmd.isCommand_of_job hshape
  · intro t ht
    refine Or.inl ((hi.runners_of_committed hc ht).resolve_right ?_)
    rw [hpc]
    simp [CallPc.newRunner]

end Acts

/-! ## Every step -/

/-- A call that starts. -/
theorem step_call {r : Request} (hs : s.step (.call i r) = some s') :
    s' = { s with pcs := Function.update s.pcs i (.enter r) } ∧ i < s.count ∧
      (s.pcs i).cmd = none := by
  simp only [Clients.step] at hs
  split at hs
  · rename_i hpc
    split at hs <;> cases hs
    rename_i hlt
    exact ⟨rfl, hlt, by rw [hpc]; rfl⟩
  · rename_i hpc
    split at hs <;> cases hs
    rename_i hlt
    exact ⟨rfl, hlt, by rw [hpc]; rfl⟩
  · cases hs

/-- A step of a call. -/
theorem step_move {ok : Bool} (hs : s.step (.move i ok) = some s') :
    ∃ w' pc', s.worker.callStep (s.pcs i) ok = some (w', pc') ∧
      s' = { s with worker := w', pcs := Function.update s.pcs i pc' } := by
  simp only [Clients.step] at hs
  split at hs
  · rename_i w' pc' hcall
    cases hs
    exact ⟨w', pc', hcall, rfl⟩
  · cases hs

/-- A step of a thread. -/
theorem step_thread {t : Nat} {l : JobExec.Label} (hs : s.step (.thread t l) = some s') :
    ∃ core', s.worker.core.threadStep t l = some core' ∧
      s' = { s with worker := { s.worker with core := core' } } := by
  simp only [Clients.step] at hs
  split at hs
  · rename_i core' hthread
    cases hs
    exact ⟨core', hthread, rfl⟩
  · cases hs

theorem ClientsInv.call {r : Request} (hi : ClientsInv s) (hs : s.step (.call i r) = some s') :
    ClientsInv s' := by
  obtain ⟨rfl, hlt, hcmd⟩ := step_call hs
  have hc : (s.pcs i).committed = false := by
    cases hpc : s.pcs i <;> simp_all [CallPc.cmd, CallPc.committed]
  exact hi.calm hc hlt (by simp [CallPc.committed])
    (.reads (.refl _) rfl rfl trivial hcmd.symm (by simp [CallPc.own]) rfl)

theorem ClientsInv.thread {t : Nat} {l : JobExec.Label} (hi : ClientsInv s)
    (hs : s.step (.thread t l) = some s') : ClientsInv s' := by
  obtain ⟨core', hstep, rfl⟩ := step_thread hs
  have hk := Core.Kept.threadStep hi.core hstep
  have hst := Core.Still.threadStep hi.core hstep
  refine ⟨hk.inv hi.core, hi.idle, hi.shape, hi.locked, hi.unique, hi.single, ?_, ?_, ?_, ?_, ?_,
    fun k => ?_⟩
  · rw [hst.njobs]
    exact hi.held
  · rw [hst.jobFreed]
    exact hi.alive
  · rw [hst.njobs, hst.jobFreed]
    exact hi.own
  · rw [hst.njobs, hst.jobFreed]
    exact hi.unused
  · intro t' ht'
    rw [hk.jobRunner, hk.runner]
    exact hi.runners t' (hk.live t' ht')
  · exact Core.Kept.act (w := s.worker) hk rfl (hi.act k)

theorem ClientsInv.move (hi : ClientsInv s) {h : History Clients Label}
    (hok : Exclusive h s (.move i ok)) (hs : s.step (.move i ok) = some s') : ClientsInv s' := by
  obtain ⟨w', pc', hcall, rfl⟩ := step_move hs
  cases hc : (s.pcs i).committed with
  | false =>
    have hcalm := Worker.Calm.of_callStep (hi.shape i) hc hcall
    refine hi.calm hc ?_ ?_ hcalm
    · by_contra h
      rw [hi.idle i (Nat.not_lt.mp h)] at hcall
      simp [Worker.callStep] at hcall
    · intro hpc
      obtain ⟨c, heq, hchoose⟩ := hcalm.passes hpc
      refine hok ?_
      simp [passes, heq, hchoose, hpc]
  | true =>
    cases hpc : s.pcs i with
    | engine c epc =>
      rw [hpc] at hcall
      obtain ⟨core', epc', he, rfl, rfl⟩ := Worker.callStep_engine hcall
      exact hi.engine hpc he
    | destroyJob c j =>
      simp only [hpc, Worker.callStep, Option.some.injEq, Prod.mk.injEq] at hcall
      obtain ⟨rfl, rfl⟩ := hcall
      exact hi.destroyJob hpc
    | setJob c j =>
      simp only [hpc, Worker.callStep, Option.some.injEq, Prod.mk.injEq] at hcall
      obtain ⟨rfl, rfl⟩ := hcall
      exact hi.setJob hpc
    | _ =>
      rw [hpc] at hc
      cases hc

theorem ClientsInv.step {h : History Clients Label} {l : Label} (hi : ClientsInv s)
    (hok : Exclusive h s l) (hs : s.step l = some s') : ClientsInv s' := by
  cases l with
  | call i r => exact hi.call hs
  | move i ok => exact hi.move hok hs
  | thread t l => exact hi.thread hs

/-- What the calls that are not committed and the threads do: no new
thread, and `worker->job` stays. -/
theorem ClientsInv.step_kept {l : Label} (hi : ClientsInv s) (hs : s.step l = some s')
    (hl : ∀ i ok, l = .move i ok → (s.pcs i).committed = false) :
    Core.Kept s.worker.core s'.worker.core ∧ s'.worker.job = s.worker.job := by
  cases l with
  | call i r =>
    obtain ⟨rfl, _⟩ := step_call hs
    exact ⟨.refl _, rfl⟩
  | move i ok =>
    obtain ⟨w', pc', hcall, rfl⟩ := step_move hs
    have hcalm := Worker.Calm.of_callStep (hi.shape i) (hl i ok rfl) hcall
    exact ⟨hcalm.kept, hcalm.job⟩
  | thread t l =>
    obtain ⟨core', hstep, rfl⟩ := step_thread hs
    exact ⟨.threadStep hi.core hstep, rfl⟩

/-- A step of another client, or of a thread, leaves call `i` where it
is. -/
theorem step_pcs {l : Label} (hs : s.step l = some s')
    (hl : (∀ ok, l ≠ .move i ok) ∧ ∀ r, l ≠ .call i r) : s'.pcs i = s.pcs i := by
  cases l with
  | call k r =>
    have hne : i ≠ k := fun h => hl.2 r (by rw [h])
    obtain ⟨rfl, _⟩ := step_call hs
    exact Function.update_of_ne hne _ _
  | move k ok =>
    have hne : i ≠ k := fun h => hl.1 ok (by rw [h])
    obtain ⟨w', pc', _, rfl⟩ := step_move hs
    exact Function.update_of_ne hne _ _
  | thread t l =>
    obtain ⟨core', _, rfl⟩ := step_thread hs
    rfl

/-- The call of a client that is committed has taken a step, and was
committed before or has just passed its test. -/
theorem ClientsInv.step_committed {l : Label} (hi : ClientsInv s) (hs : s.step l = some s')
    (hc : (s'.pcs i).committed = true) :
    (∃ ok, l = .move i ok ∧ (s.pcs i).committed = true) ∨
    (∃ ok c, l = .move i ok ∧ s.pcs i = .decide c ∧ s.passes i = some (s'.pcs i) ∧
      Core.Kept s.worker.core s'.worker.core ∧ s'.worker.job = s.worker.job) ∨
    (s'.pcs i = s.pcs i ∧ Core.Kept s.worker.core s'.worker.core ∧
      s'.worker.job = s.worker.job) := by
  by_cases hl : (∀ ok, l ≠ .move i ok) ∧ ∀ r, l ≠ .call i r
  · have hpcs := step_pcs hs hl
    rw [hpcs] at hc
    refine Or.inr (Or.inr ⟨hpcs, hi.step_kept hs fun k ok hk => ?_⟩)
    exact hi.others hc fun h => hl.1 ok (by rw [hk, h])
  · rw [not_and_or, not_forall, not_forall] at hl
    simp only [not_not] at hl
    obtain ⟨ok, rfl⟩ | ⟨r, rfl⟩ := hl
    · by_cases hold : (s.pcs i).committed = true
      · exact Or.inl ⟨ok, rfl, hold⟩
      · have hold' : (s.pcs i).committed = false := by simpa using hold
        obtain ⟨w', pc', hcall, rfl⟩ := step_move hs
        simp only [Function.update_self] at hc ⊢
        have hcalm := Worker.Calm.of_callStep (hi.shape i) hold' hcall
        obtain ⟨c, hpc, hchoose⟩ := hcalm.passes hc
        refine Or.inr (Or.inl ⟨ok, c, rfl, hpc, ?_, hcalm.kept, hcalm.job⟩)
        simp [passes, hpc, hchoose, hc]
    · obtain ⟨rfl, _⟩ := step_call hs
      simp [CallPc.committed] at hc

/-! ## Jobs that are in use -/

/-- `worker_assign` passes its test only when no live thread iterates
`worker->job`. -/
def assignsUnused (s : Clients) : Label → Bool
  | .move i _ =>
    match s.passes i with
    | some (.destroyJob _ _) => decide s.worker.JobUnused
    | _ => true
  | _ => true

@[inherit_doc assignsUnused]
def AssignsUnused (h : History Clients Label) (s : Clients) (l : Label) : Prop :=
  Exclusive h s l ∧ assignsUnused s l = true

instance (h : History Clients Label) (s : Clients) (l : Label) :
    Decidable (AssignsUnused h s l) := inferInstanceAs (Decidable (_ ∧ _))

/-- The step that is about to be taken does no harm: `job_destroy` is
not applied to a job that a live thread iterates, and `job_run` is not
started on a job that was destroyed. -/
structure JobsSafe (s : Clients) : Prop where
  destroy : ∀ i c j, s.pcs i = .destroyJob c j → ∀ t, s.worker.core.Live t →
    s.worker.job ≠ some (s.worker.core.jobOf t)
  run : ∀ i c j, s.pcs i = .engine c (.create j) → s.worker.core.jobFreed j = false

structure UnusedInv (s : Clients) : Prop where
  clients : ClientsInv s
  unused : ∀ i a j, s.pcs i = .destroyJob (.assign a) j → ∀ t, s.worker.core.Live t →
    s.worker.job ≠ some (s.worker.core.jobOf t)

theorem UnusedInv.create (n : Nat) : UnusedInv (create n) :=
  ⟨ClientsInv.create n, by simp [Clients.create]⟩

/-- A committed `worker_assign` comes to `job_destroy` from its test. -/
theorem ClientsInv.not_assign_of_committed {a j : Nat} (hi : ClientsInv s)
    (hc : (s.pcs i).committed = true) (hs : s.step (.move i ok) = some s') :
    s'.pcs i ≠ .destroyJob (.assign a) j := by
  obtain ⟨w', pc', hcall, rfl⟩ := step_move hs
  simp only [Function.update_self]
  rintro rfl
  have hshape := hi.shape i
  cases hpc : s.pcs i with
  | engine c epc =>
    rw [hpc] at hcall hshape
    obtain ⟨core', epc', _, _, hafter⟩ := Worker.callStep_engine hcall
    cases epc' with
    | done b => cases c <;> cases b <;> simp [Cmd.afterEngine, Cmd.engineDone] at hafter
    | _ => simp [Cmd.afterEngine] at hafter
  | destroyJob c j | setJob c j => simp [hpc, Worker.callStep] at hcall
  | _ => simp [hpc, CallPc.committed] at hc

theorem UnusedInv.step {h : History Clients Label} {l : Label} (hi : UnusedInv s)
    (hok : AssignsUnused h s l) (hs : s.step l = some s') : UnusedInv s' := by
  refine ⟨hi.clients.step hok.1 hs, ?_⟩
  intro i a j hpc t ht
  have hc : (s'.pcs i).committed = true := by rw [hpc]; rfl
  rcases hi.clients.step_committed hs hc with ⟨ok, rfl, hold⟩ | ⟨ok, c, rfl, _, hpass, hk, hjob⟩ |
    ⟨heq, hk, hjob⟩
  · exact absurd hpc (hi.clients.not_assign_of_committed hold hs)
  · have hunused := hok.2
    simp only [assignsUnused, hpass, hpc, decide_eq_true_eq] at hunused
    rw [hjob, hk.jobOf]
    exact hunused t (hk.live t ht).1 (hk.live t ht)
  · rw [hjob, hk.jobOf]
    exact hi.unused i a j (heq.symm.trans hpc) t (hk.live t ht)

/-- When a `worker_run` destroys the old job, all live threads are on the
new one. -/
theorem UnusedInv.jobsSafe (hi : UnusedInv s) : JobsSafe s := by
  refine ⟨?_, ?_⟩
  · intro i c j hpc t ht
    have hshape := hi.clients.shape i
    have hact := hi.clients.act i
    rw [hpc] at hshape hact
    cases c with
    | run j' =>
      obtain ⟨r, hr, hjob⟩ := hact
      obtain rfl : j' = j := Option.some.inj hshape
      have hc : (s.pcs i).committed = true := by rw [hpc]; rfl
      have hheld := (hi.clients.runners_of_committed hc ht).resolve_right (by
        rw [hpc]
        simp [CallPc.newRunner])
      obtain rfl : r = (s.worker.core.threads t).runner := Option.some.inj (hr.symm.trans hheld)
      rw [Core.jobOf, hjob]
      exact (hi.clients.own i j' (by rw [hpc]; rfl)).2.2
    | assign a => exact hi.unused i a j hpc t ht
    | _ => cases hshape
  · intro i c j hpc
    have hact := hi.clients.act i
    rw [hpc] at hact
    cases hjob : c.job with
    | none =>
      simp only [Act, EngineAct, hjob, Option.none_or] at hact
      refine hi.clients.alive j hact fun k c' j' hset => ?_
      have hk : k = i := hi.clients.single k i (by rw [hset]; rfl) (by rw [hpc]; rfl)
      rw [hk, hpc] at hset
      cases hset
    | some j' =>
      simp only [Act, EngineAct, hjob, Option.some_or] at hact
      exact (hi.clients.own i j (by rw [hpc]; exact hjob.trans hact)).2.1

/-- In every run of any number of clients in which the tests are
exclusive and `worker_assign` replaces a job only when it is not in use,
no job is destroyed while it is in use. -/
theorem run_jobsSafe {n : Nat} {h : History Clients Label} {s : Clients}
    (hr : Run step AssignsUnused (create n) h s) : JobsSafe s := by
  refine (Run.state_invariant (UnusedInv.create n) (fun h s l s' hi hok hs => ?_) hr).jobsSafe
  exact hi.step hok hs

/-- `n` steps of the call of client `i`. -/
def moves (i n : Nat) : List Label := List.replicate n (.move i true)

/-- `n` steps of thread 0. -/
def works (n : Nat) : List Label := List.replicate n (.thread 0 (.job true))

/-- A `worker_run`; its job runs to the end; then a `worker_start`, and
a `worker_assign` during its `update_status`. -/
def assignedAfterRun : List Label :=
  [Label.call 0 (.run oneTaskJob)] ++ moves 0 19 ++ works 4 ++
  [Label.thread 0 (.task 0 .spawned), .thread 0 (.task 0 (.finished 0))] ++ works 8 ++
  [Label.call 1 .start] ++ moves 1 2 ++ [Label.call 0 (.assign oneTaskJob)] ++ moves 0 6

theorem run_jobsSafe_assignedAfterRun :
    ∃ h s, Run step AssignsUnused (create 2) h s ∧ s.pcs 0 = .destroyJob (.assign 1) 1 ∧
      s.worker.job = some 0 ∧ s.worker.core.nthreads = 1 ∧ JobsSafe s := by
  obtain ⟨h, s, hr, hc⟩ := Run.of_check step AssignsUnused (create 2) assignedAfterRun
    (fun s => s.pcs 0 == .destroyJob (.assign 1) 1 && s.worker.job == some 0 &&
      s.worker.core.nthreads == 1) (by decide +kernel)
  simp only [Bool.and_eq_true, beq_iff_eq] at hc
  obtain ⟨⟨hpc, hjob⟩, hn⟩ := hc
  exact ⟨h, s, hr, hpc, hjob, hn, run_jobsSafe hr⟩

/-- A `worker_run`, then a `worker_assign` before the job thread has
started its first task. -/
def assignedTooEarly : List Label :=
  [.call 0 (.run oneTaskJob)] ++ moves 0 19 ++ [.call 1 (.assign oneTaskJob)] ++ moves 1 6

/-- A `worker_assign`; a `worker_start` passes its test; another
`worker_assign` destroys the job. -/
def startedTooLate : List Label :=
  [.call 0 (.assign oneTaskJob)] ++ moves 0 16 ++ [.call 1 .start] ++ moves 1 6 ++
  [.call 0 (.assign oneTaskJob)] ++ moves 0 7

/-- `worker_assign` destroys a job that a live thread iterates, and
`worker_start` runs a job that was destroyed. -/
theorem run_job_destroyed_in_use :
    (∃ h s, Run step always (create 2) h s ∧ s.pcs 1 = .destroyJob (.assign 1) 1 ∧
      s.worker.core.Live 0 ∧ s.worker.job = some (s.worker.core.jobOf 0) ∧ ¬ JobsSafe s) ∧
    ∃ h s, Run step always (create 2) h s ∧ s.pcs 1 = .engine .start (.create 0) ∧
      s.worker.core.jobFreed 0 = true ∧ ¬ JobsSafe s := by
  obtain ⟨h, s, hr, hc⟩ := Run.of_check step always (create 2) assignedTooEarly
    (fun s => s.pcs 1 == .destroyJob (.assign 1) 1 && decide (s.worker.core.Live 0) &&
      s.worker.job == some (s.worker.core.jobOf 0)) (by decide +kernel)
  obtain ⟨h', s', hr', hc'⟩ := Run.of_check step always (create 2) startedTooLate
    (fun s => s.pcs 1 == .engine .start (.create 0) && s.worker.core.jobFreed 0)
    (by decide +kernel)
  simp only [Bool.and_eq_true, beq_iff_eq, decide_eq_true_eq] at hc hc'
  obtain ⟨⟨hpc, hlive⟩, hjob⟩ := hc
  obtain ⟨hpc', hfreed⟩ := hc'
  refine ⟨⟨h, s, hr, hpc, hlive, hjob, ?_⟩, h', s', hr', hpc', hfreed, ?_⟩
  · intro hsafe
    exact hsafe.destroy 1 _ _ hpc 0 hlive hjob
  · intro hsafe
    rw [hsafe.run 1 _ _ hpc'] at hfreed
    cases hfreed

/-! ## One job thread at a time -/

/-- A test that leads to `engine_run` is passed only when no job thread
is live. -/
def startsQuiet (s : Clients) : Label → Bool
  | .move i _ =>
    match s.passes i with
    | some (.engine _ (.create _)) => decide s.worker.NoThread
    | _ => true
  | _ => true

@[inherit_doc startsQuiet]
def StartsQuiet (h : History Clients Label) (s : Clients) (l : Label) : Prop :=
  Exclusive h s l ∧ startsQuiet s l = true

instance (h : History Clients Label) (s : Clients) (l : Label) :
    Decidable (StartsQuiet h s l) := inferInstanceAs (Decidable (_ ∧ _))

/-- At most one job thread is live; only that one takes steps; it is the
thread of the runner in `engine->job_runner`, or of the runner that an
`engine_run` in progress has created. -/
structure OneThread (s : Clients) : Prop where
  single : ∀ t t', s.worker.core.Live t → s.worker.core.Live t' → t = t'
  steps : ∀ t t' l, s.worker.core.Live t → (s.worker.core.threadStep t' l).isSome → t' = t
  held : ∀ t, s.worker.core.Live t → ∃ r, s.worker.core.tid r = t ∧
    (s.worker.core.jobRunner = some r ∨ ∃ i, (s.pcs i).newRunner = some r)

structure OneInv (s : Clients) : Prop where
  clients : ClientsInv s
  quiet : ∀ i c j, s.pcs i = .engine c (.create j) → Quiet s.worker.core
  newOnly : ∀ i new, (s.pcs i).newRunner = some new →
    ∀ t, s.worker.core.Live t → (s.worker.core.threads t).runner = new

theorem OneInv.create (n : Nat) : OneInv (create n) :=
  ⟨ClientsInv.create n, by simp [Clients.create], by simp [Clients.create, CallPc.newRunner]⟩

theorem OneInv.oneThread (hi : OneInv s) : OneThread s := by
  have hsingle : ∀ t t', s.worker.core.Live t → s.worker.core.Live t' → t = t' := by
    intro t t' ht ht'
    have hrunner : (s.worker.core.threads t).runner = (s.worker.core.threads t').runner := by
      rcases hi.clients.runners t ht with h | ⟨i, h⟩
      · rcases hi.clients.runners t' ht' with h' | ⟨i, h'⟩
        · exact Option.some.inj (h.symm.trans h')
        · exact hi.newOnly i _ h' t ht
      · exact (hi.newOnly i _ h t' ht').symm
    rw [hi.clients.core.live_tid ht, hi.clients.core.live_tid ht', hrunner]
  refine ⟨hsingle, ?_, ?_⟩
  · intro t t' l ht hstep
    obtain ⟨c', hc'⟩ := Option.isSome_iff_exists.mp hstep
    obtain ⟨hlt, e', he, _⟩ := Core.threadStep_eq hc'
    exact hsingle t' t (hi.clients.core.live_of_step hlt he) ht
  · exact fun t ht => ⟨_, (hi.clients.core.live_tid ht).symm, hi.clients.runners t ht⟩

/-- A runner that is new after a step in the engine was new before, or
`job_run` has just created it. -/
theorem engineStep_newRunner {c : Cmd} {epc e : EnginePc} {core core' : Core} {new : Nat}
    (hs : engineStep core epc ok = some (core', e))
    (hnew : (c.afterEngine e).newRunner = some new) :
    (∃ j, epc = .create j ∧ new = core.nrunners ∧ core' = core.launch j) ∨
      ((CallPc.engine c epc).newRunner = some new ∧ Core.Frame core core') := by
  have hdone : ∀ b, (c.afterEngine (.done b)).newRunner = none := by
    intro b
    cases c <;> cases b <;> rfl
  cases epc with
  | create j =>
    simp only [engineStep] at hs
    split at hs <;> cases hs
    · simp [hdone] at hnew
    · exact Or.inl ⟨j, rfl, (Option.some.inj hnew).symm, rfl⟩
  | swap r =>
    simp only [engineStep] at hs
    split at hs <;> cases hs
    · exact Or.inr ⟨hnew, .refl _⟩
    · exact Or.inr ⟨hnew, .refl _⟩
  | load call =>
    simp only [engineStep, Option.some.injEq, Prod.mk.injEq] at hs
    obtain ⟨rfl, rfl⟩ := hs
    cases call <;> cases hr : core.jobRunner <;> simp [hr, EngineCall.loaded, hdone] at hnew <;>
      simp [Cmd.afterEngine, CallPc.newRunner] at hnew
  | cancel r k =>
    cases hs
    exact Or.inr ⟨by cases k <;> exact hnew, .cancel _ _⟩
  | join r k =>
    simp only [engineStep] at hs
    split at hs <;> cases hs
    refine Or.inr ⟨?_, .join _ _⟩
    cases k with
    | free n => exact hnew
    | «return» => simp [After.next, hdone] at hnew
    | _ => simp [After.next, Cmd.afterEngine, CallPc.newRunner] at hnew
  | free r n =>
    cases hs
    exact Or.inr ⟨hnew, .freeRunner _ _⟩
  | store n =>
    cases hs
    simp [hdone] at hnew
  | recreate r =>
    cases hs
    simp [hdone] at hnew
  | freeEngine =>
    cases hs
    simp [hdone] at hnew
  | done b => cases hs

/-- The committed call does not come back to `job_run`. -/
theorem engineStep_ne_create {c c' : Cmd} {epc e : EnginePc} {w : Worker} {core' : Core} {j : Nat}
    (hact : EngineAct w c epc) (hs : engineStep w.core epc ok = some (core', e)) :
    c.afterEngine e ≠ .engine c' (.create j) := by
  intro hafter
  obtain rfl : e = .create j := by
    cases e with
    | done b => cases c <;> cases b <;> simp [Cmd.afterEngine, Cmd.engineDone] at hafter
    | _ => exact (CallPc.engine.inj hafter).2
  cases epc with
  | load call =>
    obtain ⟨_, rfl | rfl⟩ := hact <;>
      cases hr : w.core.jobRunner <;> simp [engineStep, EngineCall.loaded, hr] at hs
  | create k | swap k =>
    simp only [engineStep] at hs
    split at hs <;> simp at hs
  | join r k =>
    simp only [engineStep] at hs
    split at hs <;> cases k <;> simp [After.next] at hs
  | _ => simp [engineStep] at hs

theorem OneInv.step {h : History Clients Label} {l : Label} (hi : OneInv s)
    (hok : StartsQuiet h s l) (hs : s.step l = some s') : OneInv s' := by
  have hone := hi.oneThread
  refine ⟨hi.clients.step hok.1 hs, ?_, ?_⟩
  · intro i c j hpc t ht
    have hc : (s'.pcs i).committed = true := by rw [hpc]; rfl
    rcases hi.clients.step_committed hs hc with ⟨ok, rfl, hold⟩ |
      ⟨ok, c', rfl, _, hpass, hk, _⟩ | ⟨heq, hk, _⟩
    · obtain ⟨w', pc', hcall, rfl⟩ := step_move hs
      simp only [Function.update_self] at hpc
      subst hpc
      have hact := hi.clients.act i
      cases hpc : s.pcs i with
      | engine c₀ epc =>
        rw [hpc] at hcall hact
        obtain ⟨core', e, he, _, hafter⟩ := Worker.callStep_engine hcall
        exact engineStep_ne_create hact he hafter.symm
      | destroyJob c₀ j₀ | setJob c₀ j₀ => simp [hpc, Worker.callStep] at hcall
      | _ => simp [hpc, CallPc.committed] at hold
    · have hquiet := hok.2
      simp only [startsQuiet, hpass, hpc, decide_eq_true_eq] at hquiet
      exact hquiet.quiet t (hk.live t ht)
    · exact hi.quiet i c j (heq.symm.trans hpc) t (hk.live t ht)
  · intro i new hnew t ht
    have hc : (s'.pcs i).committed = true := by
      by_contra h
      rw [CallPc.newRunner_none (by simpa using h)] at hnew
      cases hnew
    rcases hi.clients.step_committed hs hc with ⟨ok, rfl, hold⟩ |
      ⟨ok, c', rfl, hdec, hpass, _, _⟩ | ⟨heq, hk, _⟩
    · obtain ⟨w', pc', hcall, rfl⟩ := step_move hs
      simp only [Function.update_self] at hnew ht ⊢
      cases hpc : s.pcs i with
      | engine c epc =>
        rw [hpc] at hcall
        obtain ⟨core', e, he, rfl, rfl⟩ := Worker.callStep_engine hcall
        rcases engineStep_newRunner he hnew with ⟨j, rfl, rfl, rfl⟩ | ⟨hnew', hf⟩
        · have hq := hi.quiet i c j hpc
          obtain ⟨hlt, hx⟩ := ht
          rcases Nat.lt_succ_iff_lt_or_eq.mp hlt with hlt | (rfl : t = s.worker.core.nthreads)
          · rw [s.worker.core.launch_thread_lt j hlt] at hx
            exact absurd ⟨hlt, hx⟩ (hq t)
          · simp
        · rw [hf.runner]
          exact hi.newOnly i new (by rw [hpc]; exact hnew') t (hf.live_iff.mp ht)
      | destroyJob c j | setJob c j =>
        simp only [hpc, Worker.callStep, Option.some.injEq, Prod.mk.injEq] at hcall
        obtain ⟨_, rfl⟩ := hcall
        cases hnew
      | _ => simp [hpc, CallPc.committed] at hold
    · simp only [passes, hdec, Option.filter_eq_some_iff] at hpass
      rw [(act_of_choose hpass.1).2.1] at hnew
      cases hnew
    · rw [heq] at hnew
      rw [hk.runner]
      exact hi.newOnly i new hnew t (hk.live t ht)

/-- A `worker_run`, then two `worker_stop`s, the second during the first
one's `update_status`. -/
def stoppedTwice : List Label :=
  [.call 0 (.run oneTaskJob)] ++ moves 0 19 ++ works 4 ++
  [.call 0 .stop, .call 1 .stop] ++ moves 0 2 ++ moves 1 5 ++ moves 0 3

end Clients

end Pyoneer.Runtime
