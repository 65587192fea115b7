/-
Pyoneer.Runtime.Reporting — what a command has done when it reports.

`worker_run` and `worker_assign` end in `get_status`, after they have
replaced `worker->job`. From there on a call changes nothing but cached
statuses (`Untouched.of_reports`), and it gets there only by way of the
line that sets the job (`Worker.callStep_reports`). The job that it sets
there was a new one (`Fresh`), so `worker->job` has changed.
-/
import Pyoneer.Runtime.Stages

namespace Pyoneer.Runtime

open Pyoneer.Lib Pyoneer.Blueprint

/-- `worker->job`, `engine->job_runner` and the task statuses are the
same. A job that the worker does not know yet does not count. -/
structure Untouched (w w' : Worker) : Prop where
  job : w'.job = w.job
  jobRunner : w'.core.jobRunner = w.core.jobRunner
  statuses : ∀ j < w.core.njobs, ∀ k,
    (w'.core.jobs j).taskStatus k = (w.core.jobs j).taskStatus k

theorem Untouched.refl (w : Worker) : Untouched w w := ⟨rfl, rfl, fun _ _ _ => rfl⟩

theorem Untouched.of_left {w w' : Worker} (hl : Worker.Left w w') : Untouched w w' :=
  ⟨hl.job, hl.jobRunner, fun j hj k => by rw [Job.taskStatus, Job.taskStatus, hl.tasks j hj]⟩

/-- The call is past the line that sets the job, if it has one, and on
its way to a report. -/
def CallPc.reports : CallPc → Bool
  | .update _ .report | .scan _ .report _ _ _ | .mapStatus _ .report _ | .encode _
  | .encodeScan _ _ _ _ _ | .encodeStatus _ _ _ | .encodeTasks _ _ _ _ _ | .unlock _ (some _)
  | .returned _ (some _) => true
  | _ => false

section CallSteps

variable {w w' : Worker} {pc pc' : CallPc} {c : Cmd} {ok : Bool}

theorem CallPc.reports_iff {pc : CallPc} : pc.reports = true ↔
    (∃ c, pc.reporting = some c) ∨ ∃ c report, pc = .returned c (some report) := by
  cases pc with
  | update c y | scan c y j k seen | mapStatus c y j => cases y <;> simp [reports, reporting]
  | unlock c report | returned c report => cases report <;> simp [reports, reporting]
  | _ => simp [reports, reporting]

/-- A step on the way to a report, or to NULL. -/
theorem Untouched.of_reports (hp : pc.reports = true ∨ pc.null = true)
    (hs : w.callStep pc ok = some (w', pc')) :
    Untouched w w' ∧ (pc'.reports = true ∨ pc'.null = true) := by
  rcases hp with hp | hn
  · rcases CallPc.reports_iff.mp hp with ⟨c, hrep⟩ | ⟨c, report, rfl⟩
    · refine ⟨.of_left (.of_callStep (CallPc.of_reporting hrep).1 hs), ?_⟩
      rcases Worker.callStep_reporting hrep hs with hrep' | ⟨report, rfl⟩ | ⟨_, _, rfl⟩
      · exact Or.inl (CallPc.reports_iff.mpr (Or.inl ⟨c, hrep'⟩))
      · exact Or.inl rfl
      · exact Or.inr rfl
    · cases hs
  · exact ⟨.of_left (.of_callStep (CallPc.committed_of_null hn) hs),
      Or.inr (Worker.callStep_of_null hn hs)⟩

/-- A request for the status starts with its report. -/
theorem Untouched.enter (hs : w.callStep (.enter .getStatus) ok = some (w', pc')) :
    Untouched w w' ∧ (pc'.reports = true ∨ pc'.null = true) := by
  refine ⟨.of_left (.of_callStep rfl hs), ?_⟩
  simp only [Worker.callStep, Request.isCommand, if_true] at hs
  split at hs
  · cases hs
    exact Or.inr rfl
  · split at hs <;> cases hs
    exact Or.inl rfl

/-- The ways to a report. -/
theorem Worker.callStep_reports (hs : w.callStep pc ok = some (w', pc'))
    (hp : pc'.reports = true) :
    pc.reports = true ∨ pc = .enter .getStatus ∨ ∃ c j, pc = .setJob c j := by
  cases pc with
  | idle | returned c report => simp [Worker.callStep] at hs
  | enter r =>
    simp only [Worker.callStep] at hs
    split at hs
    · split at hs
      · cases hs
        cases hp
      · split at hs <;> cases hs
        cases r with
        | getStatus => exact Or.inr (Or.inl rfl)
        | _ => cases hp
    · cases hs
      cases r with
      | getStatus => exact Or.inr (Or.inl rfl)
      | _ => cases hp
  | update c y | scan c y j k seen =>
    cases y with
    | report => exact Or.inl rfl
    | guard =>
      simp only [Worker.callStep] at hs
      split at hs <;> cases hs <;> cases hp
  | mapStatus c y j =>
    cases y with
    | report => exact Or.inl rfl
    | guard =>
      cases hs
      cases hp
  | decide c =>
    simp only [Worker.callStep] at hs
    split at hs
    · rename_i pc heq
      cases hs
      rcases Cmd.choose_cases heq with ⟨_, rfl⟩ | ⟨_, rfl⟩ | ⟨j, _, _, rfl⟩ | ⟨j, _, _, rfl⟩ |
        ⟨j, _, _, rfl⟩ | ⟨_, rfl | rfl⟩ <;> cases hp
    · cases hs
  | engine c epc =>
    obtain ⟨core', epc', _, _, rfl⟩ := Worker.callStep_engine hs
    cases epc' with
    | done b => cases c <;> cases b <;> cases hp
    | _ => cases hp
  | destroyJob c j =>
    cases hs
    cases hp
  | setJob c j => exact Or.inr (Or.inr ⟨c, j, rfl⟩)
  | unlock c report =>
    cases hs
    cases report with
    | none => cases hp
    | some report => exact Or.inl rfl
  | _ => exact Or.inl rfl

/-- No step leads back to the start of a call, and a report is returned
only by the step after `pthread_mutex_unlock`. -/
theorem Worker.callStep_ends (hs : w.callStep pc ok = some (w', pc')) :
    (∀ r, pc' ≠ .enter r) ∧ ∀ c report, pc' = .returned c (some report) →
      pc = .unlock c (some report) ∧ w' = { w with locked := false } := by
  cases pc with
  | idle | returned c report => cases hs
  | enter r =>
    simp only [Worker.callStep] at hs
    split_ifs at hs <;> cases r <;> cases hs <;>
      simp [Request.place, Cmd.entry]
  | update c y =>
    simp only [Worker.callStep] at hs
    split at hs <;> cases y <;> cases hs <;> simp [Cmd.updated]
  | mapStatus c y j => cases y <;> cases hs <;> simp [Cmd.updated]
  | decide c =>
    simp only [Worker.callStep] at hs
    split at hs
    · rename_i pc heq
      cases hs
      rcases Cmd.choose_cases heq with ⟨_, rfl⟩ | ⟨_, rfl⟩ | ⟨j, _, _, rfl⟩ | ⟨j, _, _, rfl⟩ |
        ⟨j, _, _, rfl⟩ | ⟨_, rfl | rfl⟩ <;> simp
    · cases hs
  | engine c epc =>
    obtain ⟨core', epc', _, _, rfl⟩ := Worker.callStep_engine hs
    cases epc' with
    | done b => cases c <;> cases b <;> simp [Cmd.afterEngine, Cmd.engineDone]
    | _ => simp [Cmd.afterEngine]
  | encode c =>
    rcases Worker.callStep_encode hs with ⟨_, report, rfl⟩ | ⟨_, j, _, rfl⟩ <;> simp
  | scan c y j k seen | encodeScan c st j k seen | encodeTasks c st j k report =>
    simp only [Worker.callStep] at hs
    split at hs <;> cases hs <;> simp
  | destroyJob c j | setJob c j | encodeStatus c st j =>
    cases hs
    simp
  | unlock c report =>
    cases hs
    refine ⟨by simp, fun c' report' h => ?_⟩
    cases h
    exact ⟨rfl, rfl⟩

/-- The engine neither builds nor destroys a job. -/
theorem engineStep_jobs {core core' : Core} {epc epc' : EnginePc}
    (hs : engineStep core epc ok = some (core', epc')) :
    core'.njobs = core.njobs ∧ core'.jobFreed = core.jobFreed := by
  cases epc with
  | create j | join r k | swap new =>
    simp only [engineStep] at hs
    split at hs <;> cases hs <;> exact ⟨rfl, rfl⟩
  | recreate r =>
    cases hs
    cases ok <;> exact ⟨rfl, rfl⟩
  | done b => cases hs
  | _ =>
    cases hs
    exact ⟨rfl, rfl⟩

/-- The jobs of a call and of the worker after a step: a job that a call
has of its own is new when it gets it. -/
theorem Worker.callStep_own (hp : pc.Shape) (hs : w.callStep pc ok = some (w', pc')) :
    w.core.njobs ≤ w'.core.njobs ∧
      (∀ j, pc'.own = some j → pc.own = some j ∨ (w.core.njobs ≤ j ∧ j < w'.core.njobs)) ∧
      (w'.job = w.job ∨ ∃ j, pc.own = some j ∧ w'.job = some j ∧ pc'.own = none) := by
  by_cases hc : pc.committed = false
  · have hcalm := Worker.Calm.of_callStep hp hc hs
    exact ⟨hcalm.kept.njobs, hcalm.own, Or.inl hcalm.job⟩
  · cases pc with
    | engine c epc =>
      obtain ⟨core', epc', he, rfl, rfl⟩ := Worker.callStep_engine hs
      obtain ⟨_, _, hown, _⟩ := Cmd.afterEngine_shape hp epc'
      exact ⟨Nat.le_of_eq (engineStep_jobs he).1.symm, fun j hj => Or.inl (hown j hj), Or.inl rfl⟩
    | destroyJob c j =>
      cases hs
      refine ⟨?_, fun _ h => Or.inl h, Or.inl rfl⟩
      cases w.job <;> exact Nat.le_refl _
    | setJob c j =>
      cases hs
      exact ⟨Nat.le_refl _, by simp [CallPc.own], Or.inr ⟨j, rfl, rfl, rfl⟩⟩
    | _ => exact absurd rfl hc

end CallSteps

namespace Clients

/-- The jobs that the calls have of their own are different ones, and
none of them is `worker->job`. -/
structure Fresh (s : Clients) : Prop where
  shape : ∀ i, (s.pcs i).Shape
  job : ∀ j, s.worker.job = some j → j < s.worker.core.njobs
  own : ∀ i j, (s.pcs i).own = some j → j < s.worker.core.njobs ∧ s.worker.job ≠ some j
  distinct : ∀ i i' j, (s.pcs i).own = some j → (s.pcs i').own = some j → i = i'

theorem Fresh.create (n : Nat) : Fresh (create n) := by
  refine ⟨fun _ => trivial, ?_, ?_, ?_⟩ <;> simp [Clients.create, Worker.create, CallPc.own]

section Steps

variable {s s' : Clients}

/-- A call is replaced by one that has no job of its own. -/
theorem Fresh.put {i : Nat} {pc' : CallPc} (hi : Fresh s) (hshape : pc'.Shape)
    (hnone : pc'.own = none) : Fresh { s with pcs := Function.update s.pcs i pc' } := by
  have hown : ∀ i' j, (Function.update s.pcs i pc' i').own = some j →
      (s.pcs i').own = some j := by
    intro i' j hj
    by_cases h : i' = i
    · rw [h, Function.update_self, hnone] at hj
      cases hj
    · rwa [Function.update_of_ne h] at hj
  refine ⟨?_, hi.job, fun i' j hj => hi.own i' j (hown i' j hj),
    fun i₁ i₂ j h₁ h₂ => hi.distinct i₁ i₂ j (hown i₁ j h₁) (hown i₂ j h₂)⟩
  exact forall_update (P := fun _ pc => pc.Shape) hshape fun i' _ => hi.shape i'

theorem Fresh.call {i : Nat} {r : Request} (hi : Fresh s) (hs : s.step (.call i r) = some s') :
    Fresh s' := by
  obtain ⟨rfl, _⟩ := step_call hs
  exact hi.put trivial rfl

theorem Fresh.thread {t : Nat} {l : JobExec.Label} (hi : Fresh s)
    (hs : s.step (.thread t l) = some s') : Fresh s' := by
  obtain ⟨core', hstep, rfl⟩ := step_thread hs
  obtain ⟨_, e, _, rfl⟩ := Core.threadStep_eq hstep
  exact ⟨hi.shape, hi.job, hi.own, hi.distinct⟩

theorem Fresh.move {i : Nat} {ok : Bool} (hi : Fresh s) (hs : s.step (.move i ok) = some s') :
    Fresh s' := by
  obtain ⟨w', pc', hcall, heq⟩ := step_move hs
  have hpcs : s'.pcs = Function.update s.pcs i pc' := by rw [heq]
  obtain rfl : s'.worker = w' := by rw [heq]
  obtain ⟨hle, hown, hjob⟩ := Worker.callStep_own (hi.shape i) hcall
  -- a job of the call is its old one, or one that nobody had
  have hmine : ∀ j, pc'.own = some j → j < s'.worker.core.njobs ∧ s.worker.job ≠ some j ∧
      ∀ i', (s.pcs i').own = some j → i' = i := by
    intro j hj
    rcases hown j hj with h | ⟨hge, hlt⟩
    · obtain ⟨hlt, hne⟩ := hi.own i j h
      exact ⟨Nat.lt_of_lt_of_le hlt hle, hne, fun i' hi' => hi.distinct i' i j hi' h⟩
    · refine ⟨hlt, fun hj => absurd (hi.job j hj) (by omega), fun i' hi' => ?_⟩
      exact absurd (hi.own i' j hi').1 (by omega)
  have hcases : ∀ i', (i' = i ∧ s'.pcs i' = pc') ∨ (i' ≠ i ∧ s'.pcs i' = s.pcs i') := by
    intro i'
    rw [hpcs]
    by_cases h : i' = i
    · exact Or.inl ⟨h, by rw [h, Function.update_self]⟩
    · exact Or.inr ⟨h, Function.update_of_ne h _ _⟩
  refine ⟨fun i' => ?_, fun j hj => ?_, fun i' j hj => ?_, fun i₁ i₂ j h₁ h₂ => ?_⟩
  · rcases hcases i' with ⟨_, h⟩ | ⟨_, h⟩
    · rw [h]
      exact (hi.shape i).callStep hcall
    · rw [h]
      exact hi.shape i'
  · rcases hjob with hjob | ⟨j', hj', hset, _⟩
    · exact Nat.lt_of_lt_of_le (hi.job j (hjob ▸ hj)) hle
    · obtain rfl : j' = j := Option.some.inj (hset.symm.trans hj)
      exact Nat.lt_of_lt_of_le (hi.own i j' hj').1 hle
  · rcases hcases i' with ⟨_, h⟩ | ⟨hne, h⟩
    · rw [h] at hj
      refine ⟨(hmine j hj).1, ?_⟩
      rcases hjob with hjob | ⟨_, _, _, hnone⟩
      · rw [hjob]
        exact (hmine j hj).2.1
      · rw [hnone] at hj
        cases hj
    · rw [h] at hj
      obtain ⟨hlt, hnot⟩ := hi.own i' j hj
      refine ⟨Nat.lt_of_lt_of_le hlt hle, ?_⟩
      rcases hjob with hjob | ⟨j', hj', hset, _⟩
      · rw [hjob]
        exact hnot
      · rw [hset]
        intro heq
        cases heq
        exact hne (hi.distinct i' i j hj hj')
  · rcases hcases i₁ with ⟨e₁, h⟩ | ⟨_, h⟩
    · rw [h] at h₁
      rcases hcases i₂ with ⟨e₂, _⟩ | ⟨_, h'⟩
      · exact e₁.trans e₂.symm
      · rw [h'] at h₂
        exact e₁.trans ((hmine j h₁).2.2 i₂ h₂).symm
    · rw [h] at h₁
      rcases hcases i₂ with ⟨e₂, h'⟩ | ⟨_, h'⟩
      · rw [h'] at h₂
        exact ((hmine j h₂).2.2 i₁ h₁).trans e₂.symm
      · rw [h'] at h₂
        exact hi.distinct i₁ i₂ j h₁ h₂

theorem Fresh.step {l : Label} (hi : Fresh s) (hs : s.step l = some s') : Fresh s' := by
  cases l with
  | call i r => exact hi.call hs
  | move i ok => exact hi.move hs
  | thread t l => exact hi.thread hs

/-- Setting the job changes it. -/
theorem Fresh.setJob {i j : Nat} {c : Cmd} {ok : Bool} (hi : Fresh s)
    (hpc : s.pcs i = .setJob c j) (hs : s.step (.move i ok) = some s') :
    s'.worker.job ≠ s.worker.job := by
  have hne := (hi.own i j (by rw [hpc]; rfl)).2
  simp only [Clients.step, hpc, Worker.callStep] at hs
  cases hs
  exact fun h => hne h.symm

end Steps

end Clients

end Pyoneer.Runtime
