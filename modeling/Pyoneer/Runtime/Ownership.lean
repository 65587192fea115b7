/-
Pyoneer.Runtime.Ownership — who owns a job, with any number of clients.

`worker_run` and `worker_assign` take a job over from their caller and
destroy the one that they replace. Both hold `worker->lock` while they
do, so that the calls which take no lock cannot come between: whatever
the other calls and the threads do, `worker->job` has not been destroyed,
but for the one line between `job_destroy` and the assignment, and a job
that a call has taken over is in no other hands (`Owned`). Hence no job
is destroyed twice: in every run the destructions of a job that the
history holds are counted by `jobFreed` (`run_destroyed_once`).
-/
import Pyoneer.Runtime.Reporting

namespace Pyoneer.Runtime

open Pyoneer.Lib Pyoneer.Blueprint

section CallSteps

variable {w w' : Worker} {pc pc' : CallPc} {ok : Bool}

/-- What a step of a call does to the jobs: nothing, or it is one of the
two lines that replace `worker->job`. -/
theorem Worker.callStep_replaces (hp : pc.Shape) (hs : w.callStep pc ok = some (w', pc')) :
    (w'.job = w.job ∧ w'.core.jobFreed = w.core.jobFreed ∧ (∀ c j, pc ≠ .destroyJob c j) ∧
      (∀ c j, pc ≠ .setJob c j) ∧ ∀ c j, pc' ≠ .setJob c j) ∨
    (∃ c j, pc = .destroyJob c j ∧ pc' = .setJob c j ∧
      w' = { w with core := w.core.destroyJob w.job }) ∨
    (∃ c j, pc = .setJob c j ∧ pc' = .update c .report ∧ w' = { w with job := some j }) := by
  by_cases hc : pc.committed = false
  · have hcalm := Worker.Calm.of_callStep hp hc hs
    refine Or.inl ⟨hcalm.job, hcalm.kept.jobFreed, ?_, ?_, ?_⟩
    · rintro c j rfl
      cases hc
    · rintro c j rfl
      cases hc
    · intro c j hset
      obtain ⟨_, _, hchoose⟩ := hcalm.passes (by rw [hset]; rfl)
      exact (Clients.act_of_choose hchoose).2.2 c j hset
  · cases pc with
    | engine c epc =>
      obtain ⟨core', epc', he, rfl, rfl⟩ := Worker.callStep_engine hs
      refine Or.inl ⟨rfl, (engineStep_jobs he).2, by simp, by simp, ?_⟩
      exact (Cmd.afterEngine_shape hp epc').2.2.2
    | destroyJob c j =>
      cases hs
      exact Or.inr (Or.inl ⟨c, j, rfl, rfl, rfl⟩)
    | setJob c j =>
      cases hs
      exact Or.inr (Or.inr ⟨c, j, rfl, rfl, rfl⟩)
    | _ => exact absurd rfl hc

/-- What a step of a call does to the lock. -/
theorem Worker.callStep_lock (hp : pc.Shape) (hs : w.callStep pc ok = some (w', pc')) :
    (w'.locked = w.locked ∧ pc'.holdsLock = pc.holdsLock) ∨
      (w.locked = false ∧ w'.locked = true ∧ pc.holdsLock = false) ∨
      (pc.holdsLock = true ∧ pc'.holdsLock = false) := by
  by_cases hc : pc.committed = false
  · exact (Worker.Calm.of_callStep hp hc hs).lock
  · cases pc with
    | engine c epc =>
      obtain ⟨core', epc', _, rfl, rfl⟩ := Worker.callStep_engine hs
      exact Or.inl ⟨rfl, (Cmd.afterEngine_shape hp epc').2.1⟩
    | destroyJob c j | setJob c j =>
      cases hs
      exact Or.inl ⟨rfl, rfl⟩
    | _ => exact absurd rfl hc

end CallSteps

namespace Clients

/-- The lock has one holder, and the jobs that the worker and its calls
have are not destroyed. -/
structure Owned (s : Clients) : Prop where
  fresh : Fresh s
  locked : ∀ i, (s.pcs i).holdsLock = true → s.worker.locked = true
  unique : ∀ i i', (s.pcs i).holdsLock = true → (s.pcs i').holdsLock = true → i = i'
  alive : ∀ o, s.worker.job = some o → (∀ i c j, s.pcs i ≠ .setJob c j) →
    s.worker.core.jobFreed o = false
  own : ∀ i j, (s.pcs i).own = some j → s.worker.core.jobFreed j = false
  unused : ∀ j, s.worker.core.njobs ≤ j → s.worker.core.jobFreed j = false

theorem Owned.create (n : Nat) : Owned (create n) := by
  refine ⟨.create n, ?_, ?_, ?_, fun _ _ _ => rfl, fun _ _ => rfl⟩ <;>
    simp [Clients.create, Worker.create, CallPc.holdsLock, CallPc.cmd]

variable {s s' : Clients} {i : Nat}

/-- A client that is in no call starts one, or stays out of it. -/
theorem Owned.put {pc' : CallPc} (hi : Owned s) (hout : (s.pcs i).cmd = none)
    (hout' : pc'.cmd = none) : Owned { s with pcs := Function.update s.pcs i pc' } := by
  have hfresh : pc'.Shape ∧ pc'.own = none := by
    cases pc' with
    | idle | enter r | returned c report => exact ⟨trivial, rfl⟩
    | _ => cases hout'
  have hholds : pc'.holdsLock = (s.pcs i).holdsLock := by
    rw [CallPc.holdsLock, CallPc.holdsLock, hout, hout']
  obtain ⟨hlocked, hunique⟩ := lock_update hi.locked hi.unique
    (Or.inl ⟨(rfl : s.worker.locked = s.worker.locked), hholds⟩)
  refine ⟨hi.fresh.put hfresh.1 hfresh.2, hlocked, hunique,
    fun o ho hset => hi.alive o ho fun k c j hk => ?_, ?_, hi.unused⟩
  · by_cases hki : k = i
    · rw [← hki, hk] at hout
      cases hout
    · exact hset k c j (by simpa only [Function.update_of_ne hki] using hk)
  · refine forall_update (P := fun _ pc => ∀ j, pc.own = some j →
      s.worker.core.jobFreed j = false) (fun j hj => ?_) fun k _ => hi.own k
    rw [hfresh.2] at hj
    cases hj

theorem Owned.call {r : Request} (hi : Owned s) (hs : s.step (.call i r) = some s') :
    Owned s' := by
  obtain ⟨rfl, _, hout⟩ := step_call hs
  exact hi.put hout rfl

theorem Owned.thread {t : Nat} {l : JobExec.Label} (hi : Owned s)
    (hs : s.step (.thread t l) = some s') : Owned s' := by
  have hfresh := hi.fresh.thread hs
  obtain ⟨core', hthread, rfl⟩ := step_thread hs
  obtain ⟨_, e, _, rfl⟩ := Core.threadStep_eq hthread
  exact ⟨hfresh, hi.locked, hi.unique, hi.alive, hi.own, hi.unused⟩

/-- Only the holder of the lock is at the lines that replace the job. -/
theorem Owned.not_setJob (hi : Owned s) (hlock : (s.pcs i).holdsLock = true)
    (hpc : ∀ c j, s.pcs i ≠ .setJob c j) (k : Nat) (c : Cmd) (j : Nat) :
    s.pcs k ≠ .setJob c j := by
  intro hk
  have hown : (s.pcs k).own = some j := by rw [hk]; rfl
  obtain rfl : k = i :=
    hi.unique k i (CallPc.holdsLock_of_own (hi.fresh.shape k) hown) hlock
  exact hpc c j hk

theorem Owned.move {ok : Bool} (hi : Owned s) (hs : s.step (.move i ok) = some s') :
    Owned s' := by
  have hfresh := hi.fresh.move hs
  obtain ⟨w', pc', hcall, rfl⟩ := step_move hs
  have hshape := hi.fresh.shape i
  obtain ⟨hlocked, hunique⟩ :=
    lock_update hi.locked hi.unique (Worker.callStep_lock hshape hcall)
  obtain ⟨hle, hown, _⟩ := Worker.callStep_own hshape hcall
  -- a job of the call is its old one, or one that nobody had
  have hmine : ∀ j, pc'.own = some j → s.worker.core.jobFreed j = false := fun j hj =>
    (hown j hj).elim (hi.own i j) fun h => hi.unused j h.1
  rcases Worker.callStep_replaces hshape hcall with ⟨hjob, hfreed, _, hnot, hnot'⟩ |
    ⟨c, j, hpc, rfl, rfl⟩ | ⟨c, j, hpc, rfl, rfl⟩
  · refine ⟨hfresh, hlocked, hunique, ?_, ?_, ?_⟩
    · intro o ho hset
      simp only [hjob] at ho
      simp only [hfreed]
      refine hi.alive o ho fun k c j hk => ?_
      by_cases hki : k = i
      · exact hnot c j (hki ▸ hk)
      · exact hset k c j (by simpa only [Function.update_of_ne hki] using hk)
    · simp only [hfreed]
      exact forall_update (P := fun _ pc => ∀ j, pc.own = some j →
        s.worker.core.jobFreed j = false) hmine fun k _ => hi.own k
    · intro j hj
      simp only [hfreed]
      exact hi.unused j (Nat.le_trans hle hj)
  · -- the job that is destroyed is not one of a call
    have hother : ∀ k x, (Function.update s.pcs i (.setJob c j) k).own = some x →
        s.worker.job ≠ some x ∧ s.worker.core.jobFreed x = false := by
      refine forall_update (P := fun _ pc => ∀ x, pc.own = some x →
        s.worker.job ≠ some x ∧ s.worker.core.jobFreed x = false) ?_ ?_
      · intro x hx
        have hx : (s.pcs i).own = some x := by rw [hpc]; exact hx
        exact ⟨(hi.fresh.own i x hx).2, hi.own i x hx⟩
      · exact fun k _ x hx => ⟨(hi.fresh.own k x hx).2, hi.own k x hx⟩
    refine ⟨hfresh, hlocked, hunique, fun o _ hset => ?_, fun k x hx => ?_, fun x hx => ?_⟩
    · exact absurd (Function.update_self i (.setJob c j) s.pcs) (hset i c j)
    · obtain ⟨hne, hx⟩ := hother k x hx
      cases hjob : s.worker.job with
      | none => exact hx
      | some o =>
        have hox : x ≠ o := fun h => hne (by rw [hjob, h])
        simpa [Core.destroyJob, hox] using hx
    · cases hjob : s.worker.job with
      | none =>
        rw [hjob] at hx
        exact hi.unused x hx
      | some o =>
        rw [hjob] at hx
        have hox : x ≠ o := Nat.ne_of_gt (Nat.lt_of_lt_of_le (hi.fresh.job o hjob) hx)
        simpa [Core.destroyJob, hox] using hi.unused x hx
  · refine ⟨hfresh, hlocked, hunique, fun o ho _ => ?_, ?_, hi.unused⟩
    · obtain rfl : j = o := Option.some.inj ho
      exact hi.own i j (by rw [hpc]; rfl)
    · exact forall_update (P := fun _ pc => ∀ j, pc.own = some j →
        s.worker.core.jobFreed j = false) hmine fun k _ => hi.own k

theorem Owned.step {l : Label} (hi : Owned s) (hs : s.step l = some s') : Owned s' := by
  cases l with
  | call i r => exact hi.call hs
  | move i ok => exact hi.move hs
  | thread t l => exact hi.thread hs

theorem run_owned {n : Nat} {ok : History Clients Label → Clients → Label → Prop}
    {h : History Clients Label} (hr : Run step ok (create n) h s) : Owned s :=
  Run.state_invariant (Owned.create n) (fun _ _ _ _ hi _ hs => hi.step hs) hr

/-! ## Every job is destroyed at most once -/

/-- The step destroys job `o`. -/
def destroys (o : Nat) : Clients × Label → Bool
  | (s, .move i _) =>
    match s.pcs i with
    | .destroyJob _ _ => s.worker.job == some o
    | _ => false
  | _ => false

theorem destroys_of_ne {ok : Bool} (h : ∀ c j, s.pcs i ≠ .destroyJob c j) (o : Nat) :
    destroys o (s, .move i ok) = false := by
  simp only [destroys]

/-- The history has one destruction of each job that is destroyed, and
no other. -/
def Counted (h : History Clients Label) (s : Clients) : Prop :=
  ∀ o, h.countP (destroys o) = (s.worker.core.jobFreed o).toNat

theorem Counted.step {h : History Clients Label} {l : Label} (hi : Owned s) (hc : Counted h s)
    (hs : s.step l = some s') : Counted ((s, l) :: h) s' := by
  intro o
  rw [List.countP_cons, hc o]
  cases l with
  | call i r =>
    obtain ⟨rfl, _⟩ := step_call hs
    rfl
  | thread t l =>
    obtain ⟨core', hthread, rfl⟩ := step_thread hs
    obtain ⟨_, e, _, rfl⟩ := Core.threadStep_eq hthread
    rfl
  | move i ok =>
    obtain ⟨w', pc', hcall, rfl⟩ := step_move hs
    rcases Worker.callStep_replaces (hi.fresh.shape i) hcall with ⟨_, hfreed, hne, _⟩ |
      ⟨c, j, hpc, _, rfl⟩ | ⟨c, j, hpc, _, rfl⟩
    · simp [destroys_of_ne hne, hfreed]
    · have hown : (s.pcs i).own = some j := by rw [hpc]; rfl
      have hlock := CallPc.holdsLock_of_own (hi.fresh.shape i) hown
      have halive := fun x hx => hi.alive x hx (hi.not_setJob hlock (by simp [hpc]))
      cases hjob : s.worker.job with
      | none => simp [destroys, hpc, hjob, Core.destroyJob]
      | some x =>
        by_cases hox : o = x
        · subst hox
          simp [destroys, hpc, hjob, Core.destroyJob, halive o hjob]
        · have hxo : ¬ x = o := fun h => hox h.symm
          simp [destroys, hpc, hjob, Core.destroyJob, hox, hxo]
    · simp [destroys, hpc]

theorem run_destroyed_once {n : Nat} {ok : History Clients Label → Clients → Label → Prop}
    {h : History Clients Label} (hr : Run step ok (create n) h s) : Owned s ∧ Counted h s :=
  Run.invariant (I := fun h s => Owned s ∧ Counted h s) ⟨.create n, fun _ => rfl⟩
    (fun _ _ _ _ hi _ hs => ⟨hi.1.step hs, Counted.step hi.1 hi.2 hs⟩) hr

end Clients

end Pyoneer.Runtime
