/-
Pyoneer.Runtime.Progress — the calls of any number of clients can always
be completed.

A call can wait at two points: for `worker->lock`, and for a job thread
in `pthread_join`. The thread that it joins has been cancelled before,
and a job thread that has been cancelled can come to its end
(`JobExec.ends_of_cancelReq`), as long as the one that is joined is the
one that was cancelled: no other call may have restarted the runner in
between. That is what `Exclusive` says, and it is the only assumption
(`run_settles`). What holds the lock does not wait for it again, so that
the calls can be completed one after the other, a committed one first.
-/
import Mathlib.Data.Finset.Card
import Mathlib.Data.Finset.Range
import Pyoneer.Blueprint.Termination
import Pyoneer.Runtime.Teardown

namespace Pyoneer.Runtime

open Pyoneer.Lib Pyoneer.Blueprint

/-! ## The threads -/

/-- Every thread is where its next step is possible, and every runner has
a job that is not empty. -/
structure Core.Going (c : Core) : Prop where
  placed : ∀ t < c.nthreads, JobExec.Placed (c.exec t)
  sized : ∀ r < c.nrunners, (c.jobs (c.runners r).job).size ≠ 0

theorem Core.Going.create : Core.Going .create := by
  constructor <;> simp [Core.create]

section Core

variable {c c' : Core} {t r j : Nat}

theorem Core.Going.frame (hg : c.Going) (hi : CoreInv c) (hf : Core.Frame c c') : c'.Going := by
  refine ⟨fun t ht => ?_, fun r hr => ?_⟩
  · rw [hf.nthreads] at ht
    refine (hg.placed t ht).congr (hf.pc t) (fun k hk => ?_) ?_
    · simpa only [JobExec.taskExited, Core.exec, hf.tasks] using hk
    · simp only [Core.exec, hf.runner, hf.taskRunners]
  · rw [hf.nrunners] at hr
    rw [hf.job, hf.size _ (hi.job_lt r hr)]
    exact hg.sized r hr

theorem Core.Going.spawn (hg : c.Going) (r : Nat) : (c.spawn r).Going := by
  refine ⟨fun t ht => ?_, fun r' hr' => ?_⟩
  · rcases Nat.lt_succ_iff_lt_or_eq.mp ht with ht | rfl
    · rw [Core.spawn_exec c r ht]
      exact hg.placed t ht
    · exact .fresh (by rw [Core.exec, Core.spawn_thread_new])
  · rw [Core.spawn_job, Core.spawn_jobs]
    exact hg.sized r' hr'

theorem Core.Going.launch (hg : c.Going) (hi : CoreInv c) (hj : (c.jobs j).size ≠ 0) :
    (c.launch j).Going := by
  refine ⟨fun t ht => ?_, fun r hr => ?_⟩
  · rcases Nat.lt_succ_iff_lt_or_eq.mp ht with ht | rfl
    · rw [Core.launch_exec c j ht (hi.runner_lt t ht)]
      exact hg.placed t ht
    · have hnew := Core.launch_thread_new c j
      exact @JobExec.Placed.fresh _ (c.jobs j).opts (congrArg PosixThread.body hnew)
  · rw [Core.launch_jobs]
    rcases Nat.lt_succ_iff_lt_or_eq.mp hr with hr | rfl
    · rw [Core.launch_runner_lt c j hr]
      exact hg.sized r hr
    · rw [Core.launch_runner_new]
      exact hj

theorem Core.Going.threadStep {l : JobExec.Label} (hg : c.Going) (hi : CoreInv c)
    (hs : c.threadStep t l = some c') : c'.Going := by
  obtain ⟨ht, e', he, rfl⟩ := Core.threadStep_eq hs
  refine ⟨fun t' ht' => ?_, fun r hr => ?_⟩
  · by_cases htt : t' = t
    · rw [htt, Core.putExec_exec_self]
      exact (hg.placed t ht).step he
    · by_cases hlive : c.Live t'
      · obtain ⟨hthread, hrunners, _⟩ :=
          hi.exec_putExec_ne (hi.live_of_step ht he) hlive htt he
        refine (hg.placed t' ht').congr (by rw [hthread]) (fun k hk => ?_) (by rw [hrunners])
        rwa [JobExec.taskExited, hthread]
      · have hx : (c.threads t').body.pc = .exited := by
          by_contra hx
          exact hlive ⟨ht', hx⟩
        simp only [JobExec.Placed, Core.exec, Core.putExec_thread_ne c t e' htt, hx]
  · rw [Core.putExec_job]
    by_cases hj : (c.runners r).job = c.jobOf t
    · rw [hj, Core.putExec_jobs_self, (JobExec.step_job_frame he).1]
      have hsize := hg.sized r hr
      rwa [hj] at hsize
    · rw [Core.putExec_jobs_ne c t e' hj]
      exact hg.sized r hr

end Core

/-! ## The calls -/

section CallSteps

variable {w w' : Worker} {pc pc' : CallPc} {ok : Bool}

/-- No thread is asked less often to end. -/
def Core.Asks (c c' : Core) : Prop :=
  ∀ t, (c.threads t).body.cancelReq = true → (c'.threads t).body.cancelReq = true

theorem Core.Asks.cancel (c : Core) (t : Nat) : Core.Asks c (c.cancel t) := by
  intro t' ht'
  by_cases htt : t' = t
  · simp [Core.cancel, htt]
  · simpa [Core.cancel, htt] using ht'

theorem Core.Asks.join (c : Core) (t : Nat) : Core.Asks c (c.join t) := by
  intro t' ht'
  have hsame : ((c.join t).threads t').body.cancelReq = (c.threads t').body.cancelReq :=
    update_field c.threads (fun x => x.body.cancelReq) (by rfl) t'
  rwa [hsame]

/-- What a step of a call does to the threads: it creates one, or leaves
all of them where they are. -/
theorem Worker.callStep_core (hs : w.callStep pc ok = some (w', pc')) :
    (Core.Frame w.core w'.core ∧ Core.Asks w.core w'.core) ∨
    (∃ c j, pc = .engine c (.create j) ∧ (w.core.jobs j).size ≠ 0 ∧ w'.core = w.core.launch j) ∨
    ∃ c r, pc = .engine c (.recreate r) ∧ w'.core = w.core.spawn r := by
  have hsame : w'.core = w.core → Core.Frame w.core w'.core ∧ Core.Asks w.core w'.core := by
    intro h
    rw [h]
    exact ⟨.refl _, fun _ => id⟩
  have hplace : ∀ r : Request, w'.core = (r.place w.core).1 →
      Core.Frame w.core w'.core ∧ Core.Asks w.core w'.core := by
    intro r h
    rw [h]
    cases r with
    | run job | assign job => exact ⟨.newJob _ _, fun _ => id⟩
    | _ => exact ⟨.refl _, fun _ => id⟩
  have hput : ∀ j seen, w'.core = w.core.putStatus j seen →
      Core.Frame w.core w'.core ∧ Core.Asks w.core w'.core := by
    intro j seen h
    rw [h]
    exact ⟨.putStatus _ _ _, fun _ => id⟩
  cases pc with
  | engine c epc =>
    obtain ⟨core', epc', he, rfl, _⟩ := Worker.callStep_engine hs
    cases epc with
    | create j =>
      simp only [engineStep] at he
      split at he <;> cases he
      · exact .inl (hsame rfl)
      · rename_i hne _
        exact .inr (.inl ⟨c, j, rfl, (not_or.mp hne).1, rfl⟩)
    | swap new =>
      simp only [engineStep] at he
      split at he <;> cases he <;> exact .inl (hsame rfl)
    | load call =>
      cases he
      exact .inl (hsame rfl)
    | cancel r k =>
      cases he
      exact .inl ⟨.cancel _ _, .cancel _ _⟩
    | join r k =>
      simp only [engineStep] at he
      split at he <;> cases he
      exact .inl ⟨.join _ _, .join _ _⟩
    | free r new =>
      cases he
      exact .inl ⟨.freeRunner _ _, fun _ => id⟩
    | store new =>
      cases he
      exact .inl ⟨.setJobRunner _ _, fun _ => id⟩
    | recreate r =>
      cases ok with
      | false =>
        cases he
        exact .inl (hsame rfl)
      | true =>
        cases he
        exact .inr (.inr ⟨c, r, rfl, rfl⟩)
    | freeEngine =>
      cases he
      exact .inl (hsame rfl)
    | done ok => cases he
  | enter r =>
    simp only [Worker.callStep] at hs
    repeat' split at hs
    all_goals cases hs
    · exact .inl (hsame rfl)
    · exact .inl (hplace r rfl)
    · exact .inl (hsame rfl)
  | scan c y j k seen | encodeScan c st j k seen =>
    simp only [Worker.callStep] at hs
    split at hs <;> cases hs
    · exact .inl (hsame rfl)
    · exact .inl (hput _ _ rfl)
  | destroyJob c j =>
    cases hs
    refine .inl ⟨.destroyJob _ _, ?_⟩
    cases w.job <;> exact fun _ => id
  | idle | returned c report => cases hs
  | _ =>
    simp only [Worker.callStep] at hs
    repeat' split at hs
    all_goals cases hs
    all_goals exact .inl (hsame rfl)

/-- The lock goes from call to call. -/
theorem Worker.callStep_holder (hshape : pc.Shape) (hs : w.callStep pc ok = some (w', pc')) :
    pc'.holdsLock = true ∨ w'.locked = false ∨
      (pc.holdsLock = false ∧ w'.locked = w.locked) := by
  have hsame : w'.locked = w.locked → pc'.cmd = pc.cmd → pc'.holdsLock = true ∨
      w'.locked = false ∨ (pc.holdsLock = false ∧ w'.locked = w.locked) := by
    intro hlocked hcmd
    cases hlock : pc.holdsLock with
    | false => exact .inr (.inr ⟨rfl, hlocked⟩)
    | true => exact .inl (by rw [CallPc.holdsLock, hcmd]; exact hlock)
  have hsignal : ∀ c, pc.cmd = some c → c.isCommand = false → w'.locked = w.locked →
      pc'.holdsLock = true ∨ w'.locked = false ∨
        (pc.holdsLock = false ∧ w'.locked = w.locked) := by
    intro c hcmd hc hlocked
    exact .inr (.inr ⟨by rw [CallPc.holdsLock, hcmd]; exact hc, hlocked⟩)
  cases pc with
  | engine c epc =>
    obtain ⟨core', epc', he, rfl, rfl⟩ := Worker.callStep_engine hs
    cases epc' with
    | done ok =>
      cases c with
      | run j => cases ok <;> exact hsame rfl rfl
      | getStatus => exact absurd rfl hshape.1
      | assign j => exact absurd rfl (hshape.2 j)
      | _ => exact hsignal _ rfl rfl rfl
    | _ => exact hsame rfl rfl
  | enter r =>
    simp only [Worker.callStep] at hs
    repeat' split at hs
    all_goals cases hs
    · exact .inr (.inr ⟨rfl, rfl⟩)
    · refine .inl ?_
      cases r <;> first | rfl | contradiction
    · exact .inr (.inr ⟨rfl, rfl⟩)
  | decide c =>
    simp only [Worker.callStep] at hs
    split at hs <;> cases hs
    rename_i hchoose
    rcases Cmd.choose_cases hchoose with ⟨_, rfl⟩ | ⟨hc, rfl⟩ | ⟨j, rfl, _, rfl⟩ |
      ⟨j, rfl, _, rfl⟩ | ⟨j, _, _, rfl⟩ | ⟨_, rfl | rfl⟩
    · exact hsame rfl rfl
    · exact hsignal c rfl hc rfl
    all_goals exact hsame rfl rfl
  | update c y =>
    simp only [Worker.callStep] at hs
    split at hs <;> cases hs
    · refine hsame rfl ?_
      cases y <;> rfl
    · exact hsame rfl rfl
  | mapStatus c y j =>
    cases hs
    refine hsame rfl ?_
    cases y <;> rfl
  | unlock c report =>
    cases hs
    exact .inr (.inl rfl)
  | idle | returned c report => cases hs
  | _ =>
    simp only [Worker.callStep] at hs
    repeat' split at hs
    all_goals cases hs
    all_goals exact hsame rfl rfl

/-- A call that comes to a join has cancelled the thread. -/
theorem Worker.callStep_join {c : Cmd} {r : Nat} {k : After} (hshape : pc.Shape) (hact : Act w pc)
    (hs : w.callStep pc ok = some (w', .engine c (.join r k))) :
    (w'.core.threads (w'.core.tid r)).body.cancelReq = true := by
  cases hc : pc.committed with
  | false =>
    -- no call goes from its test to a join
    obtain ⟨c', _, hchoose⟩ := (Worker.Calm.of_callStep hshape hc hs).passes rfl
    rcases Cmd.choose_cases hchoose with ⟨_, h⟩ | ⟨_, h⟩ | ⟨j, _, _, h⟩ | ⟨j, _, _, h⟩ |
      ⟨j, _, _, h⟩ | ⟨_, h | h⟩ <;> cases h
  | true =>
    cases pc with
    | engine c' epc =>
      obtain ⟨core', epc', he, rfl, hpc⟩ := Worker.callStep_engine hs
      obtain rfl : epc' = .join r k := by
        cases epc' with
        | done b => cases c' <;> cases b <;> cases hpc
        | _ => cases hpc <;> rfl
      cases epc with
      | cancel r' k' =>
        cases he
        simp [Core.cancel, Core.tid]
      | create j | swap new =>
        simp only [engineStep] at he
        split at he <;> cases he
      | load call =>
        obtain ⟨_, hcall⟩ := hact
        simp only [engineStep, Option.some.injEq, Prod.mk.injEq] at he
        rcases hcall with rfl | rfl <;> cases hr : w.core.jobRunner <;>
          simp [EngineCall.loaded, hr] at he
      | join r' k' =>
        simp only [engineStep] at he
        split at he <;> simp only [Option.some.injEq, Prod.mk.injEq, reduceCtorEq] at he
        cases k' <;> cases he.2
      | _ => cases he
    | destroyJob c' j | setJob c' j => cases hs
    | _ => cases hc

/-- The status is tested for a call that has something to decide. -/
def CallPc.Tests : CallPc → Prop
  | .update c .guard | .scan c .guard _ _ _ | .mapStatus c .guard _ | .decide c => c ≠ .getStatus
  | _ => True

theorem Worker.callStep_tests (ht : pc.Tests) (hs : w.callStep pc ok = some (w', pc')) :
    pc'.Tests := by
  cases pc with
  | engine c epc =>
    obtain ⟨core', epc', _, _, rfl⟩ := Worker.callStep_engine hs
    cases epc' with
    | done b => cases c <;> cases b <;> trivial
    | _ => trivial
  | enter r =>
    have hentry : (r.place w.core).2.entry.Tests := by
      cases r <;> first | trivial | exact fun h => by cases h
    simp only [Worker.callStep] at hs
    repeat' split at hs
    all_goals cases hs
    · trivial
    · exact hentry
    · exact hentry
  | decide c =>
    simp only [Worker.callStep] at hs
    split at hs <;> cases hs
    rename_i hchoose
    rcases Cmd.choose_cases hchoose with ⟨_, rfl⟩ | ⟨_, rfl⟩ | ⟨j, _, _, rfl⟩ |
      ⟨j, _, _, rfl⟩ | ⟨j, _, _, rfl⟩ | ⟨_, rfl | rfl⟩ <;> trivial
  | update c y | scan c y j k seen =>
    simp only [Worker.callStep] at hs
    split at hs <;> cases hs <;> cases y <;> trivial
  | mapStatus c y j =>
    cases hs
    cases y <;> trivial
  | idle | returned c report => cases hs
  | setJob c j =>
    cases hs
    trivial
  | _ =>
    simp only [Worker.callStep] at hs
    repeat' split at hs
    all_goals cases hs
    all_goals trivial

end CallSteps

namespace Clients

/-- What the calls need in order to go on: what keeps them apart, what
their threads need, somebody who has the lock if it is taken, and that a
thread was cancelled before it is joined. -/
structure GoingInv (s : Clients) : Prop where
  clients : ClientsInv s
  provided : Provided s
  going : s.worker.core.Going
  lock : s.worker.locked = true → ∃ i, (s.pcs i).holdsLock = true
  tests : ∀ i, (s.pcs i).Tests
  cancelled : ∀ i c r k, s.pcs i = .engine c (.join r k) →
    (s.worker.core.threads (s.worker.core.tid r)).body.cancelReq = true

theorem GoingInv.create (n : Nat) : GoingInv (create n) :=
  ⟨.create n, .create n, .create, nofun, fun _ => trivial, nofun⟩

section Steps

variable {s s' : Clients} {i : Nat} {ok : Bool}

theorem GoingInv.call {r : Request} (hi : GoingInv s) (hs : s.step (.call i r) = some s') :
    GoingInv s' := by
  have hclients := hi.clients.call hs
  have hprovided := hi.provided.call hs
  obtain ⟨rfl, hlt, hcmd⟩ := step_call hs
  refine ⟨hclients, hprovided, hi.going, fun hlocked => ?_,
    forall_update (P := fun _ pc => pc.Tests) trivial fun i' _ => hi.tests i',
    fun i' c r k hpc => ?_⟩
  · obtain ⟨i', hi'⟩ := hi.lock hlocked
    refine ⟨i', ?_⟩
    have hii : i' ≠ i := by
      rintro rfl
      rw [CallPc.holdsLock, hcmd] at hi'
      cases hi'
    simpa only [Function.update_of_ne hii] using hi'
  · by_cases hii : i' = i
    · simp [hii] at hpc
    · simp only [Function.update_of_ne hii] at hpc
      exact hi.cancelled i' c r k hpc

theorem GoingInv.thread {t : Nat} {l : JobExec.Label} (hi : GoingInv s)
    (hs : s.step (.thread t l) = some s') : GoingInv s' := by
  have hclients := hi.clients.thread hs
  have hprovided := hi.provided.thread hs
  obtain ⟨core', hstep, rfl⟩ := step_thread hs
  refine ⟨hclients, hprovided, hi.going.threadStep hi.clients.core hstep, hi.lock, hi.tests,
    fun i' c r k hpc => ?_⟩
  have hasked := hi.cancelled i' c r k hpc
  obtain ⟨_, e', he, rfl⟩ := Core.threadStep_eq hstep
  rw [Core.putExec_tid]
  by_cases htt : s.worker.core.tid r = t
  · subst htt
    rw [Core.putExec_body, JobExec.step_cancelReq he]
    exact hasked
  · rwa [Core.putExec_thread_ne _ _ _ htt]

theorem GoingInv.move {h : History Clients Label} (hi : GoingInv s)
    (hok : Exclusive h s (.move i ok)) (hs : s.step (.move i ok) = some s') : GoingInv s' := by
  have hclients := hi.clients.move hok hs
  have hprovided := hi.provided.move hs
  obtain ⟨w', pc', hcall, rfl⟩ := step_move hs
  have hcore := Worker.callStep_core hcall
  refine ⟨hclients, hprovided, ?_, fun hlocked => ?_,
    forall_update (P := fun _ pc => pc.Tests) (Worker.callStep_tests (hi.tests i) hcall)
      fun i' _ => hi.tests i', fun i' c r k hpc => ?_⟩
  · rcases hcore with ⟨hframe, _⟩ | ⟨c, j, _, hne, h⟩ | ⟨c, r, _, h⟩
    · exact hi.going.frame hi.clients.core hframe
    · exact h ▸ hi.going.launch hi.clients.core hne
    · exact h ▸ hi.going.spawn r
  · rcases Worker.callStep_holder (hi.clients.shape i) hcall with hlock | hfree | ⟨hlock, hsame⟩
    · exact ⟨i, by simpa using hlock⟩
    · rw [hfree] at hlocked
      cases hlocked
    · obtain ⟨i', hi'⟩ := hi.lock (hsame ▸ hlocked)
      have hii : i' ≠ i := by
        rintro rfl
        rw [hlock] at hi'
        cases hi'
      exact ⟨i', by simpa only [Function.update_of_ne hii] using hi'⟩
  · by_cases hii : i' = i
    · -- the call has just asked the thread to end
      subst hii
      simp only [Function.update_self] at hpc
      subst hpc
      exact Worker.callStep_join (hi.clients.shape i') (hi.clients.act i') hcall
    · simp only [Function.update_of_ne hii] at hpc
      have hcom : (s.pcs i').committed = true := by rw [hpc]; rfl
      have hcalm : (s.pcs i).committed = false := hi.clients.others hcom (Ne.symm hii)
      rcases hcore with ⟨hframe, hasks⟩ | ⟨c', j, h, _⟩ | ⟨c', r', h, _⟩
      · rw [hframe.tid]
        exact hasks _ (hi.cancelled i' c r k hpc)
      · rw [h] at hcalm
        cases hcalm
      · rw [h] at hcalm
        cases hcalm

theorem GoingInv.step {h : History Clients Label} {l : Label} (hi : GoingInv s)
    (hok : Exclusive h s l) (hs : s.step l = some s') : GoingInv s' := by
  cases l with
  | call i r => exact hi.call hs
  | move i ok => exact hi.move hok hs
  | thread t l => exact hi.thread hs

end Steps

/-! ## Completing one call -/

/-- A step that is no new call. -/
def Settling (h : History Clients Label) (s : Clients) (l : Label) : Prop :=
  Exclusive h s l ∧ ∀ i r, l ≠ .call i r

theorem Settling.any {h h' : History Clients Label} {s : Clients} {l : Label}
    (hok : Settling h s l) : Settling h' s l := by
  cases l <;> exact hok

/-- No other call is committed. -/
structure Turn (s : Clients) (i : Nat) : Prop where
  inv : GoingInv s
  alone : ∀ i', i' ≠ i → (s.pcs i').committed = false

/-- The call of client `i` can be completed while the others stay where
they are. -/
def Completes (s : Clients) (i : Nat) : Prop :=
  ∃ h s', Run step Settling s h s' ∧ GoingInv s' ∧ s'.count = s.count ∧
    (s'.pcs i).rests = true ∧ ∀ i', i' ≠ i → s'.pcs i' = s.pcs i'

section Completion

variable {s : Clients} {i : Nat} {c : Cmd}

theorem completes_rests (ht : Turn s i) (hrest : (s.pcs i).rests = true) : Completes s i :=
  ⟨[], s, .nil, ht.inv, rfl, hrest, fun _ _ => rfl⟩

/-- One step of the call. -/
theorem Turn.next {w' : Worker} {pc pc' : CallPc} (ht : Turn s i) (ok : Bool)
    (hpc : s.pcs i = pc) (hs : s.worker.callStep pc ok = some (w', pc'))
    (h : ∀ s', Turn s' i → s'.worker = w' → s'.pcs i = pc' → Completes s' i) :
    Completes s i := by
  have hok : Settling [] s (.move i ok) :=
    ⟨fun _ i' _ hii => ht.alone i' hii, nofun⟩
  have hstep : s.step (.move i ok) =
      some { s with worker := w', pcs := Function.update s.pcs i pc' } := by
    simp only [Clients.step, hpc, hs]
  have hother : ∀ i', i' ≠ i → Function.update s.pcs i pc' i' = s.pcs i' :=
    fun i' hii => Function.update_of_ne hii ..
  have ht' : Turn { s with worker := w', pcs := Function.update s.pcs i pc' } i :=
    ⟨ht.inv.step hok.1 hstep, fun i' hii => by
      show (Function.update s.pcs i pc' i').committed = false
      rw [hother i' hii]
      exact ht.alone i' hii⟩
  obtain ⟨h', s', hr, hi, hcount, hrest, hsame⟩ := h _ ht' rfl (Function.update_self ..)
  exact ⟨_, s', Run.trans (fun _ _ _ _ => .any) (.snoc .nil hok hstep) hr, hi, hcount, hrest,
    fun i' hii => (hsame i' hii).trans (hother i' hii)⟩

theorem completes_unlock {report : Option Report} (ht : Turn s i)
    (hpc : s.pcs i = .unlock c report) : Completes s i :=
  ht.next true hpc rfl fun _ ht' _ hpc' => completes_rests ht' (by rw [hpc']; rfl)

theorem completes_encodeTasks {st : WorkerStatus} {j k : Nat} {report : JobReport}
    (ht : Turn s i) (hpc : s.pcs i = .encodeTasks c st j k report) : Completes s i := by
  induction hn : (s.worker.core.jobs j).tasks.length - k generalizing s k report with
  | zero =>
    have hnone : (s.worker.core.jobs j).tasks[k]? = none :=
      List.getElem?_eq_none (by omega)
    exact ht.next true hpc (by simp only [Worker.callStep, hnone]; rfl)
      fun _ ht' _ hpc' => completes_unlock ht' hpc'
  | succ n ih =>
    have hk : k < (s.worker.core.jobs j).tasks.length := by omega
    have hsome := List.getElem?_eq_getElem hk
    refine ht.next true hpc (by simp only [Worker.callStep, hsome]; rfl)
      fun s' ht' hw hpc' => ih ht' hpc' ?_
    rw [hw]
    omega

theorem completes_encodeScan {st : WorkerStatus} {j k : Nat} {seen : List TaskStatus}
    (ht : Turn s i) (hpc : s.pcs i = .encodeScan c st j k seen) : Completes s i := by
  induction hn : (s.worker.core.jobs j).size - k generalizing s k seen with
  | zero =>
    have hnone : (s.worker.core.jobs j).taskStatus k = none := Job.taskStatus_none.mpr (by omega)
    refine ht.next true hpc (by simp only [Worker.callStep, hnone]; rfl)
      fun s' ht' _ hpc' => ?_
    exact ht'.next true hpc' rfl fun _ ht'' _ hpc'' => completes_encodeTasks ht'' hpc''
  | succ n ih =>
    have hk : k < (s.worker.core.jobs j).size := by omega
    obtain ⟨x, hx⟩ := Option.isSome_iff_exists.mp (Job.taskStatus_isSome.mpr hk)
    refine ht.next true hpc (by simp only [Worker.callStep, hx]; rfl)
      fun s' ht' hw hpc' => ih ht' hpc' ?_
    rw [hw]
    omega

theorem completes_encode (ht : Turn s i) (hpc : s.pcs i = .encode c) : Completes s i := by
  cases hjob : s.worker.job with
  | none =>
    exact ht.next true hpc (by simp only [Worker.callStep, hjob]; rfl) fun _ ht' _ hpc' =>
      completes_unlock ht' hpc'
  | some j =>
    exact ht.next true hpc (by simp only [Worker.callStep, hjob]; rfl) fun _ ht' _ hpc' =>
      completes_encodeScan ht' hpc'

/-- `job_get_status` and the `switch`, if the call can be completed after
them. -/
theorem completes_scan {y : Why} {j k : Nat} {seen : List TaskStatus} (ht : Turn s i)
    (hpc : s.pcs i = .scan c y j k seen)
    (hnext : ∀ s', Turn s' i → s'.pcs i = c.updated y → Completes s' i) : Completes s i := by
  induction hn : (s.worker.core.jobs j).size - k generalizing s k seen with
  | zero =>
    have hnone : (s.worker.core.jobs j).taskStatus k = none := Job.taskStatus_none.mpr (by omega)
    refine ht.next true hpc (by simp only [Worker.callStep, hnone]; rfl)
      fun s' ht' _ hpc' => ?_
    exact ht'.next true hpc' rfl fun s'' ht'' _ hpc'' => hnext s'' ht'' hpc''
  | succ n ih =>
    have hk : k < (s.worker.core.jobs j).size := by omega
    obtain ⟨x, hx⟩ := Option.isSome_iff_exists.mp (Job.taskStatus_isSome.mpr hk)
    refine ht.next true hpc (by simp only [Worker.callStep, hx]; rfl)
      fun s' ht' hw hpc' => ih ht' hpc' ?_
    rw [hw]
    omega

/-- `update_status`, if the call can be completed after it. -/
theorem completes_update {y : Why} (ht : Turn s i) (hpc : s.pcs i = .update c y)
    (hnext : ∀ s', Turn s' i → s'.pcs i = c.updated y → Completes s' i) : Completes s i := by
  cases hjob : s.worker.job with
  | none =>
    exact ht.next true hpc (by simp only [Worker.callStep, hjob]; rfl)
      fun s' ht' _ hpc' => hnext s' ht' hpc'
  | some j =>
    exact ht.next true hpc (by simp only [Worker.callStep, hjob]; rfl)
      fun _ ht' _ hpc' => completes_scan ht' hpc' hnext

theorem completes_report (ht : Turn s i) (hpc : s.pcs i = .update c .report) : Completes s i :=
  completes_update ht hpc fun _ ht' hpc' => completes_encode ht' hpc'

theorem completes_setJob {j : Nat} (ht : Turn s i) (hpc : s.pcs i = .setJob c j) :
    Completes s i :=
  ht.next true hpc rfl fun _ ht' _ hpc' => completes_report ht' hpc'

theorem completes_destroyJob {j : Nat} (ht : Turn s i) (hpc : s.pcs i = .destroyJob c j) :
    Completes s i :=
  ht.next true hpc rfl fun _ ht' _ hpc' => completes_setJob ht' hpc'

theorem completes_engineDone {b : Bool} (ht : Turn s i) (hpc : s.pcs i = c.engineDone b) :
    Completes s i := by
  cases c with
  | run j =>
    cases b with
    | false => exact completes_unlock ht hpc
    | true => exact completes_destroyJob ht hpc
  | _ => exact completes_rests ht (by rw [hpc]; rfl)

/-! ## In the engine -/

/-- One step of the call in the engine. -/
theorem Turn.engine {core' : Core} {epc epc' : EnginePc} (ht : Turn s i) (ok : Bool)
    (hpc : s.pcs i = .engine c epc) (he : engineStep s.worker.core epc ok = some (core', epc'))
    (h : ∀ s', Turn s' i → s'.pcs i = c.afterEngine epc' → Completes s' i) : Completes s i := by
  have hs : s.worker.callStep (.engine c epc) ok =
      some ({ s.worker with core := core' }, c.afterEngine epc') := by
    simp only [Worker.callStep, he]
    cases epc' <;> rfl
  exact ht.next ok hpc hs fun s' ht' _ hpc' => h s' ht' hpc'

theorem completes_store {new : Nat} (ht : Turn s i) (hpc : s.pcs i = .engine c (.store new)) :
    Completes s i :=
  ht.engine true hpc rfl fun _ ht' hpc' => completes_engineDone ht' hpc'

theorem completes_recreate {r : Nat} (ht : Turn s i) (hpc : s.pcs i = .engine c (.recreate r)) :
    Completes s i :=
  ht.engine true hpc rfl fun _ ht' hpc' => completes_engineDone ht' hpc'

theorem completes_free {r new : Nat} (ht : Turn s i) (hpc : s.pcs i = .engine c (.free r new)) :
    Completes s i :=
  ht.engine true hpc rfl fun _ ht' hpc' => completes_store ht' hpc'

/-- What the threads do while the calls stay where they are. -/
theorem Turn.thread {t : Nat} {h : History JobExec JobExec.Label} {e : JobExec} (ht : Turn s i)
    (hlt : t < s.worker.core.nthreads)
    (hr : Run JobExec.step always (s.worker.core.exec t) h e) :
    ∃ h' s', Run step Settling s h' s' ∧ Turn s' i ∧ s'.count = s.count ∧ s'.pcs = s.pcs ∧
      s'.worker.core.exec t = e ∧ s'.worker.core.nthreads = s.worker.core.nthreads ∧
      s'.worker.core.tid = s.worker.core.tid := by
  induction hr with
  | nil => exact ⟨[], s, .nil, ht, rfl, rfl, rfl, rfl, rfl⟩
  | @snoc h e e' l _ _ hs ih =>
    obtain ⟨h', s₁, hr₁, ht₁, hcount, hpcs, hexec, hn, htid⟩ := ih
    have hthread : s₁.worker.core.threadStep t l = some (s₁.worker.core.putExec t e') := by
      rw [Core.threadStep, hexec, hs, hn, if_pos hlt]
      rfl
    have hstep : s₁.step (.thread t l) =
        some { s₁ with worker := { s₁.worker with core := s₁.worker.core.putExec t e' } } := by
      simp only [Clients.step, hthread]
    have hok : Settling h' s₁ (.thread t l) := ⟨trivial, fun _ _ hcall => by cases hcall⟩
    refine ⟨_, _, .snoc hr₁ hok hstep, ⟨ht₁.inv.thread hstep, ht₁.alone⟩, hcount, hpcs,
      Core.putExec_exec_self .., hn, ?_⟩
    funext r
    rw [← htid]
    exact Core.putExec_tid ..

/-- A thread that was asked to end exits. -/
theorem Turn.exits {t : Nat} (ht : Turn s i) (hlt : t < s.worker.core.nthreads)
    (hasked : (s.worker.core.threads t).body.cancelReq = true) :
    ∃ h s', Run step Settling s h s' ∧ Turn s' i ∧ s'.count = s.count ∧ s'.pcs = s.pcs ∧
      (s'.worker.core.threads t).body.pc = .exited ∧
      s'.worker.core.tid = s.worker.core.tid := by
  by_cases hx : (s.worker.core.threads t).body.pc = .exited
  · exact ⟨[], s, .nil, ht, rfl, rfl, hx, rfl⟩
  · have hcancelled : JobExec.Cancelled (s.worker.core.exec t) := by
      refine ⟨ht.inv.clients.core.live t ⟨hlt, hx⟩, ht.inv.going.placed t hlt, hasked, ?_⟩
      exact ht.inv.going.sized _ (ht.inv.clients.core.runner_lt t hlt)
    obtain ⟨h, e, hr, hexited⟩ := JobExec.ends_of_cancelReq hcancelled
    obtain ⟨h', s', hr', ht', hcount, hpcs, rfl, _, htid⟩ := ht.thread hlt hr
    exact ⟨h', s', hr', ht', hcount, hpcs, hexited, htid⟩

/-- `pthread_join`, if the call can be completed after it. -/
theorem completes_join {r : Nat} {k : After} (ht : Turn s i)
    (hpc : s.pcs i = .engine c (.join r k))
    (hnext : ∀ s', Turn s' i → s'.pcs i = c.afterEngine (k.next r) → Completes s' i) :
    Completes s i := by
  have hact : EngineAct s.worker c (.join r k) := by
    have := ht.inv.clients.act i
    rwa [hpc] at this
  have hlt := (ht.inv.clients.core.tid_lt r (ht.inv.clients.core.held_lt r hact.1)).1
  obtain ⟨h, s₁, hr, ht₁, hcount, hpcs, hx, htid⟩ :=
    ht.exits hlt (ht.inv.cancelled i c r k hpc)
  have hpc₁ : s₁.pcs i = .engine c (.join r k) := by rw [hpcs, hpc]
  have hx₁ : (s₁.worker.core.threads (s₁.worker.core.tid r)).body.pc = .exited := by
    rw [htid]
    exact hx
  obtain ⟨h', s', hr', hrest⟩ : Completes s₁ i :=
    ht₁.engine true hpc₁ (by rw [engineStep, if_pos hx₁]) hnext
  rw [hcount, hpcs] at hrest
  exact ⟨_, s', Run.trans (fun _ _ _ _ => .any) hr hr', hrest⟩

theorem completes_stopped {r : Nat} {k : After} (ht : Turn s i)
    (hpc : s.pcs i = .engine c (.join r k)) : Completes s i := by
  have hact := ht.inv.clients.act i
  rw [hpc] at hact
  refine completes_join ht hpc fun s' ht' hpc' => ?_
  cases k with
  | free new => exact completes_free ht' hpc'
  | recreate => exact completes_recreate ht' hpc'
  | «return» => exact completes_engineDone ht' hpc'
  | freeEngine => exact absurd rfl hact.2.2.2

theorem completes_cancel {r : Nat} {k : After} (ht : Turn s i)
    (hpc : s.pcs i = .engine c (.cancel r k)) : Completes s i :=
  ht.engine true hpc rfl fun _ ht' hpc' => completes_stopped ht' hpc'

theorem completes_swap {new : Nat} (ht : Turn s i) (hpc : s.pcs i = .engine c (.swap new)) :
    Completes s i := by
  cases hr : s.worker.core.jobRunner with
  | none =>
    have he : engineStep s.worker.core (.swap new) true = some (s.worker.core, .store new) := by
      rw [engineStep, hr]
    exact ht.engine true hpc he fun _ ht' hpc' => completes_store ht' hpc'
  | some r =>
    have he : engineStep s.worker.core (.swap new) true =
        some (s.worker.core, .cancel r (.free new)) := by
      rw [engineStep, hr]
    exact ht.engine true hpc he fun _ ht' hpc' => completes_cancel ht' hpc'

theorem completes_engine {epc : EnginePc} (ht : Turn s i) (hpc : s.pcs i = .engine c epc) :
    Completes s i := by
  have hact := ht.inv.clients.act i
  rw [hpc] at hact
  cases epc with
  | create j =>
    by_cases hempty : (s.worker.core.jobs j).size = 0
    · have he : engineStep s.worker.core (.create j) true =
          some (s.worker.core, .done false) := by
        rw [engineStep, if_pos (.inl hempty)]
      exact ht.engine true hpc he fun _ ht' hpc' => completes_engineDone ht' hpc'
    · have he : engineStep s.worker.core (.create j) true =
          some (s.worker.core.launch j, .swap s.worker.core.nrunners) := by
        rw [engineStep, if_neg (by simp [hempty])]
      exact ht.engine true hpc he fun _ ht' hpc' => completes_swap ht' hpc'
  | swap new => exact completes_swap ht hpc
  | load call =>
    refine ht.engine true hpc rfl fun s' ht' hpc' => ?_
    rcases hact.2 with rfl | rfl <;> cases hr : s.worker.core.jobRunner with
    | none =>
      rw [hr] at hpc'
      exact completes_engineDone ht' hpc'
    | some r =>
      rw [hr] at hpc'
      exact completes_cancel ht' hpc'
  | cancel r k => exact completes_cancel ht hpc
  | join r k => exact completes_stopped ht hpc
  | free r new => exact completes_free ht hpc
  | store new => exact completes_store ht hpc
  | recreate r => exact completes_recreate ht hpc
  | freeEngine | done b => exact absurd hact id

/-! ## The test -/

theorem completes_decide (ht : Turn s i) (hpc : s.pcs i = .decide c) : Completes s i := by
  have hc : c ≠ .getStatus := by
    have := ht.inv.tests i
    rwa [hpc] at this
  -- a status other than NOT_ASSIGNED comes with a job
  have hheld : s.worker.status = .assigned → ∃ j, s.worker.job = some j := by
    intro hst
    refine Option.ne_none_iff_exists'.mp fun hnone => ?_
    rw [ht.inv.provided.worker.bare hnone] at hst
    cases hst
  obtain ⟨pc', hchoose⟩ : ∃ pc', c.choose s.worker.status s.worker.job = some pc' := by
    cases hst : s.worker.status with
    | assigned =>
      obtain ⟨j, hj⟩ := hheld hst
      rw [hj]
      cases c <;> first | exact absurd rfl hc | exact ⟨_, rfl⟩
    | _ => cases c <;> first | exact absurd rfl hc | exact ⟨_, rfl⟩
  refine ht.next true hpc (by simp only [Worker.callStep, hchoose]; rfl) fun s' ht' _ hpc' => ?_
  rcases Cmd.choose_cases hchoose with ⟨_, rfl⟩ | ⟨_, rfl⟩ | ⟨j, _, _, rfl⟩ |
    ⟨j, _, _, rfl⟩ | ⟨j, _, _, rfl⟩ | ⟨_, rfl | rfl⟩
  · exact completes_unlock ht' hpc'
  · exact completes_rests ht' (by rw [hpc']; rfl)
  · exact completes_engine ht' hpc'
  · exact completes_destroyJob ht' hpc'
  · exact completes_engine ht' hpc'
  · exact completes_engine ht' hpc'
  · exact completes_engine ht' hpc'

theorem completes_updated {y : Why} (ht : Turn s i) (hpc : s.pcs i = c.updated y) :
    Completes s i := by
  cases y with
  | guard => exact completes_decide ht hpc
  | report => exact completes_encode ht hpc

theorem completes_entry (ht : Turn s i) (hpc : s.pcs i = c.entry) : Completes s i := by
  cases c <;> exact completes_update ht hpc fun _ ht' hpc' => completes_updated ht' hpc'

/-- A call can be completed when no other call is committed, if the lock
is free where it takes it. -/
theorem Turn.completes (ht : Turn s i)
    (hfree : ∀ r, s.pcs i = .enter r → s.worker.locked = false) : Completes s i := by
  cases hpc : s.pcs i with
  | idle | returned c report => exact completes_rests ht (by rw [hpc]; rfl)
  | enter r =>
    cases hr : r.isCommand with
    | true =>
      refine ht.next true hpc (by simp only [Worker.callStep, hr, hfree r hpc]; rfl)
        fun _ ht' _ hpc' => completes_entry ht' hpc'
    | false =>
      exact ht.next true hpc (by simp only [Worker.callStep, hr]; rfl) fun _ ht' _ hpc' =>
        completes_entry ht' hpc'
  | update c y => exact completes_update ht hpc fun _ ht' hpc' => completes_updated ht' hpc'
  | scan c y j k seen =>
    exact completes_scan ht hpc fun _ ht' hpc' => completes_updated ht' hpc'
  | mapStatus c y j =>
    exact ht.next true hpc rfl fun _ ht' _ hpc' => completes_updated ht' hpc'
  | decide c => exact completes_decide ht hpc
  | engine c epc => exact completes_engine ht hpc
  | destroyJob c j => exact completes_destroyJob ht hpc
  | setJob c j => exact completes_setJob ht hpc
  | encode c => exact completes_encode ht hpc
  | encodeScan c st j k seen => exact completes_encodeScan ht hpc
  | encodeStatus c st j =>
    exact ht.next true hpc rfl fun _ ht' _ hpc' => completes_encodeTasks ht' hpc'
  | encodeTasks c st j k report => exact completes_encodeTasks ht hpc
  | unlock c report => exact completes_unlock ht hpc

end Completion

/-! ## Completing all of them -/

/-- The clients with a call in progress. -/
def unfinished (s : Clients) : Finset Nat :=
  (Finset.range s.count).filter fun i => (s.pcs i).rests = false

theorem unfinished_lt {s s' : Clients} {i : Nat} (hcount : s'.count = s.count)
    (hlt : i < s.count) (hopen : (s.pcs i).rests = false) (hrest : (s'.pcs i).rests = true)
    (hsame : ∀ i', i' ≠ i → s'.pcs i' = s.pcs i') : s'.unfinished.card < s.unfinished.card := by
  refine Finset.card_lt_card (Finset.ssubset_iff_of_subset (fun i' hi' => ?_) |>.mpr ⟨i, ?_, ?_⟩)
  · simp only [unfinished, Finset.mem_filter, Finset.mem_range, hcount] at hi' ⊢
    have hii : i' ≠ i := by
      rintro rfl
      rw [hrest] at hi'
      cases hi'.2
    rwa [hsame i' hii] at hi'
  · simp [unfinished, hlt, hopen]
  · simp [unfinished, hrest]

/-- There is a client whose call can be completed next: the one that is
committed, or else the one that has the lock, or else any. -/
theorem GoingInv.next {s : Clients} (hi : GoingInv s) (hne : ¬ s.Resting) :
    ∃ i, i < s.count ∧ (s.pcs i).rests = false ∧ Completes s i := by
  have hlt : ∀ i, (s.pcs i).rests = false → i < s.count := by
    intro i hopen
    by_contra hge
    rw [hi.clients.idle i (Nat.le_of_not_lt hge)] at hopen
    cases hopen
  by_cases hcom : ∃ i, (s.pcs i).committed = true
  · obtain ⟨i, hc⟩ := hcom
    have hopen : (s.pcs i).rests = false := by
      cases hpc : s.pcs i <;> rw [hpc] at hc <;> first | rfl | cases hc
    refine ⟨i, hlt i hopen, hopen, Turn.completes ⟨hi, fun i' hii => hi.clients.others hc hii⟩ ?_⟩
    intro r hpc
    rw [hpc] at hc
    cases hc
  · have hturn : ∀ i, Turn s i := fun i =>
      ⟨hi, fun i' _ => by simpa using not_exists.mp hcom i'⟩
    cases hlocked : s.worker.locked with
    | true =>
      obtain ⟨i, hholds⟩ := hi.lock hlocked
      have hopen : (s.pcs i).rests = false := by
        cases hpc : s.pcs i <;> rw [hpc] at hholds <;> first | rfl | cases hholds
      refine ⟨i, hlt i hopen, hopen, (hturn i).completes fun r hpc => ?_⟩
      rw [hpc] at hholds
      cases hholds
    | false =>
      obtain ⟨i, hi'⟩ := not_forall.mp hne
      obtain ⟨hlt, hopen⟩ := Classical.not_imp.mp hi'
      exact ⟨i, hlt, by simpa using hopen, (hturn i).completes fun _ _ => hlocked⟩

theorem GoingInv.settles {s : Clients} (hi : GoingInv s) :
    ∃ h s', Run Clients.step Settling s h s' ∧ s'.Resting := by
  induction hn : s.unfinished.card using Nat.strongRecOn generalizing s with
  | _ n ih =>
    by_cases hrest : s.Resting
    · exact ⟨[], s, .nil, hrest⟩
    · obtain ⟨i, hlt, hopen, h, s₁, hr, hi₁, hcount, hdone, hsame⟩ := hi.next hrest
      have hless := unfinished_lt hcount hlt hopen hdone hsame
      obtain ⟨h', s', hr', hrest'⟩ := ih _ (hn ▸ hless) hi₁ rfl
      exact ⟨_, s', Run.trans (fun _ _ _ _ => .any) hr hr', hrest'⟩

/-- No deadlock: any number of clients make any calls, in any
interleaving with the job threads in which no call passes its test while
another one is committed. Wherever they are then, all of the calls can be
completed, without a new call. -/
theorem run_settles {n : Nat} {h : History Clients Label} {s : Clients}
    (hr : Run step Exclusive (create n) h s) :
    ∃ h' s', Run step Settling s h' s' ∧ s'.Resting := by
  have hkept : ∀ h s l s', GoingInv s → Exclusive h s l → s.step l = some s' → GoingInv s' :=
    fun _ _ _ _ hi hok hs => hi.step hok hs
  exact (Run.state_invariant (GoingInv.create n) hkept hr).settles

/-- The second client waits for the thread that the first one has
started; the thread waits for its task. -/
def stopInProgress : List Label :=
  [.call 0 (.run oneTaskJob)] ++ moves 0 19 ++ works 4 ++ [.call 1 .stop] ++ moves 1 8

theorem run_settles_stopInProgress : ∃ h s, Run step Exclusive (create 2) h s ∧
    s.pcs 1 = .engine .stop (.join 0 .return) ∧
    ∃ h' s', Run step Settling s h' s' ∧ s'.Resting := by
  obtain ⟨h, s, hr, hpc⟩ := Run.of_check step Exclusive (create 2) stopInProgress
    (fun s => s.pcs 1 == .engine .stop (.join 0 .return)) (by decide)
  exact ⟨h, s, hr, by simpa using hpc, run_settles hr⟩

end Clients

end Pyoneer.Runtime
