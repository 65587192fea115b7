/-
Pyoneer.Blueprint.JobModesTheorems — `job_thread_parallel` and
`job_thread_sequential` do the same.

Both are compared with `iteration`, which does not know the mode.
`PassAt` follows a thread through the loop over the nodes and the waits:
`m` is the number of nodes that the loop has passed, and the status of a
node is what `iteration` says, corrected for the tasks that are still
executing. `TailAt` follows it through the counters, `job_get_status`
and `reset_status`, when no task executes. `ModeInv` puts them together
and holds along every run that follows the oracle, in either mode.

That a thread does get to the end of every iteration is shown with a
measure that every step lowers (`work`), and a step that is always there
(`progress`).
-/
import Mathlib.Data.List.Perm.Subperm
import Pyoneer.Blueprint.JobThreadTheorems
import Pyoneer.Blueprint.JobModes

namespace Pyoneer.Blueprint

open Pyoneer.Lib

/-! ## The oracle -/

namespace Oracle

variable {O : Oracle} {n m k : Nat} {sts : Nat → Option TaskStatus}

theorem Clear.succ (hc : O.Clear n sts m) (h : O.goesPast n sts m = true) :
    O.Clear n sts (m + 1) := by
  intro j hj
  rcases Nat.lt_succ_iff_lt_or_eq.mp hj with hj | rfl
  · exact hc j hj
  · exact h

theorem goesPast_startable (h : startable (sts k) = true) : O.goesPast n sts k = (O n k).1 := by
  unfold startable at h
  unfold goesPast
  split at h <;> simp_all

/-- Where the loop ended at `m`, the nodes it has started are those below
`m` that were startable. -/
theorem starts_iff_of_stop (hc : O.Clear n sts m)
    (hstop : O.goesPast n sts m = false ∨ ∀ j, m ≤ j → sts j = none) :
    O.Starts n sts k ↔ k < m ∧ startable (sts k) = true := by
  constructor
  · rintro ⟨hk, hst, hok⟩
    refine ⟨?_, hst⟩
    by_contra hmk
    rcases hstop with hstop | hstop
    · rcases Nat.lt_or_eq_of_le (Nat.le_of_not_lt hmk) with hlt | rfl
      · rw [hk m hlt] at hstop
        cases hstop
      · rw [goesPast_startable hst, hok] at hstop
        cases hstop
    · rw [hstop k (Nat.le_of_not_lt hmk)] at hst
      cases hst
  · rintro ⟨hk, hst⟩
    refine ⟨fun j hj => hc j (Nat.lt_trans hj hk), hst, ?_⟩
    rw [← goesPast_startable (n := n) hst]
    exact hc k hk

end Oracle

theorem iteration_attempts {O : Oracle} {job : Job} : ∀ {n : Nat} {it : Iteration},
    iteration O job n = some it → it.info.attempts = n
  | 0, it, h => by
      simp only [iteration, Option.some.injEq] at h
      subst h
      rfl
  | n + 1, it, h => by
      rw [iteration] at h
      cases hn : iteration O job n with
      | none => simp [hn] at h
      | some it' =>
        have ih := iteration_attempts hn
        simp only [hn] at h
        split at h
        · simp only [Option.some.injEq] at h
          subst h
          simp [Iteration.next, Iteration.number, ih]
        · cases h

theorem iteration_succ {O : Oracle} {job : Job} {n : Nat} {it : Iteration}
    (h : iteration O job n = some it) (ha : it.again = true) :
    iteration O job (n + 1) = some (it.next O job) := by
  simp [iteration, h, ha]

namespace JobExec

/-! ## The loop over the nodes -/

/-- Node `k` is below `m` and was startable when the iteration began. -/
def Launched (it : Iteration) (m k : Nat) : Prop :=
  k < m ∧ Oracle.startable (it.statuses k) = true

instance (it : Iteration) (m k : Nat) : Decidable (Launched it m k) :=
  inferInstanceAs (Decidable (_ ∧ _))

/-- The status of node `k` in the course of an iteration. -/
def midStatus (O : Oracle) (it : Iteration) (m : Nat) (e : JobExec) (k : Nat) :
    Option TaskStatus :=
  if Launched it m k then
    if (e.thread.tasks k).phase = .exited then some (O.outcome it.number k)
    else if (e.thread.tasks k).phase = .created ∧ e.thread.pc = .setRunning k then it.statuses k
    else some .running
  else it.statuses k

/-- Neither abort branch was taken. -/
def InLoop (job : Job) (e : JobExec) : Prop :=
  e.thread.completion = true ∧ e.thread.repeats = (job.opts.runMode == .runRepeat)

/-- The loop has gone past every node, or an abort branch was taken at
node `m`. -/
def Halted (O : Oracle) (job : Job) (it : Iteration) (m : Nat) (e : JobExec) : Prop :=
  (m = job.size ∧ InLoop job e) ∨
  (m < job.size ∧ O.goesPast it.number it.statuses m = false ∧
    e.thread.completion = false ∧ e.thread.repeats = false)

/-- Where the thread can be when the loop has passed `m` nodes. -/
def Place (O : Oracle) (job : Job) (it : Iteration) (m : Nat) (e : JobExec) : Prop :=
  match e.thread.pc with
  | .head k => k = m ∧ InLoop job e
  | .run k => k = m ∧ k < job.size ∧ Oracle.startable (it.statuses k) = true ∧ InLoop job e
  | .setRunning k | .wait k | .popCancel k | .popJoin k =>
    k + 1 = m ∧ Oracle.startable (it.statuses k) = true ∧ InLoop job e
  | .waitAll _ | .popAllCancel _ | .popAllJoin _ | .count => Halted O job it m e
  | _ => False

/-- What the steps never change. -/
structure Frame (job : Job) (e : JobExec) : Prop where
  size : e.job.size = job.size
  status : job.size = 0 → e.job.status = job.status

/-- The thread is in the iteration that follows `it`, and the loop has
passed `m` nodes. -/
structure PassAt (O : Oracle) (job : Job) (it : Iteration) (m : Nat)
    (h : History JobExec Label) (e : JobExec) : Prop where
  info : e.info = { it.info with attempts := it.number }
  clear : O.Clear it.number it.statuses m
  bound : m ≤ job.size
  started : ∀ k, StartedIn h it.number k ↔ Launched it m k
  created : ∀ k, Launched it m k → (e.thread.tasks k).phase ≠ .none
  busy : ∀ k, e.busy k → Launched it m k
  status : ∀ k, e.job.taskStatus k = midStatus O it m e k
  early : ∀ k, e.thread.pc = .setRunning k → (e.thread.tasks k).phase ≠ .exited
  place : Place O job it m e

theorem startedIn_cons {h : History JobExec Label} {e : JobExec} {l : Label} {n k : Nat} :
    StartedIn ((e, l) :: h) n k ↔
      StartedIn h n k ∨ (l = .job true ∧ e.thread.pc = .run k ∧ e.info.attempts = n) := by
  constructor
  · rintro ⟨e₁, hm, hpc, hn⟩
    rcases List.mem_cons.mp hm with heq | hm
    · obtain ⟨rfl, rfl⟩ := Prod.mk.injEq .. ▸ heq
      exact Or.inr ⟨rfl, hpc, hn⟩
    · exact Or.inl ⟨e₁, hm, hpc, hn⟩
  · rintro (⟨e₁, hm, hpc, hn⟩ | ⟨rfl, hpc, hn⟩)
    · exact ⟨e₁, List.mem_cons_of_mem _ hm, hpc, hn⟩
    · exact ⟨e, List.mem_cons_self, hpc, hn⟩

theorem startedIn_cons_of_ne {h : History JobExec Label} {e : JobExec} {l : Label} {n k : Nat}
    (hl : l = .job true → ∀ k, e.thread.pc ≠ .run k) :
    StartedIn ((e, l) :: h) n k ↔ StartedIn h n k := by
  rw [startedIn_cons]
  refine or_iff_left ?_
  rintro ⟨h1, h2, _⟩
  exact hl h1 k h2

variable {O : Oracle} {job : Job} {it : Iteration} {m : Nat} {h : History JobExec Label}
  {e e' : JobExec} {l : Label} {ok : Bool}

/-- A step that moves the thread and does nothing else. -/
theorem PassAt.stay (hp : PassAt O job it m h e) (hjob : e'.job = e.job)
    (hinfo : e'.info = e.info)
    (hphase : ∀ k, (e'.thread.tasks k).phase = (e.thread.tasks k).phase)
    (hpc : ∀ k, e.thread.pc ≠ .setRunning k) (hpc' : ∀ k, e'.thread.pc ≠ .setRunning k)
    (hl : l = .job true → ∀ k, e.thread.pc ≠ .run k) (hplace : Place O job it m e') :
    PassAt O job it m ((e, l) :: h) e' := by
  refine ⟨by rw [hinfo, hp.info], hp.clear, hp.bound, ?_, ?_, ?_, ?_,
    fun k hk => absurd hk (hpc' k), hplace⟩
  · intro k
    rw [startedIn_cons_of_ne hl, hp.started]
  · intro k hk
    rw [hphase]
    exact hp.created k hk
  · intro k hk
    refine hp.busy k ?_
    simpa [JobExec.busy, hphase] using hk
  · intro k
    rw [hjob, hp.status]
    simp [midStatus, hphase, hpc, hpc']

/-- The loop has not touched node `m` yet. -/
theorem PassAt.status_current (hp : PassAt O job it m h e) :
    e.job.taskStatus m = it.statuses m := by
  rw [hp.status, midStatus, if_neg fun hl => Nat.lt_irrefl m hl.1]

theorem PassAt.statuses_none (hf : Frame job e) (hp : PassAt O job it m h e) {k : Nat}
    (hk : job.size ≤ k) : it.statuses k = none := by
  have hnone : e.job.taskStatus k = none := Job.taskStatus_none.mpr (hf.size ▸ hk)
  have hlt : ¬ k < m := Nat.not_lt.mpr (Nat.le_trans hp.bound hk)
  rwa [hp.status, midStatus, if_neg fun hl => hlt hl.1] at hnone

/-- Leaving the loop over the nodes. -/
theorem PassAt.leave (hp : PassAt O job it m h e)
    (hjob : e'.job = e.job) (hinfo : e'.info = e.info) (htasks : e'.thread.tasks = e.thread.tasks)
    (hpc : e.thread.pc = .head m ∨ e.thread.pc = .run m ∧ l ≠ .job true)
    (hpc' : e'.thread.pc = afterLoop e.job.opts.execMode) (hhalt : Halted O job it m e') :
    PassAt O job it m ((e, l) :: h) e' := by
  refine hp.stay hjob hinfo (by simp [htasks]) ?_ ?_ ?_ ?_
  · rcases hpc with hpc | ⟨hpc, _⟩ <;> simp [hpc]
  · cases hm : e.job.opts.execMode <;> simp [hpc', hm, afterLoop]
  · rcases hpc with hpc | ⟨_, hl⟩
    · simp [hpc]
    · exact fun h => absurd h hl
  · cases hm : e.job.opts.execMode <;> simpa [Place, hpc', hm, afterLoop] using hhalt

theorem PassAt.head {k : Nat} (hf : Frame job e) (hp : PassAt O job it m h e)
    (hpc : e.thread.pc = .head k) (hs : e.jobStep ok = some e') :
    ∃ m', PassAt O job it m' ((e, .job ok) :: h) e' := by
  obtain ⟨rfl, hin⟩ : k = m ∧ InLoop job e := by simpa [Place, hpc] using hp.place
  have hcur := hp.status_current
  obtain ⟨hst, rfl⟩ | ⟨st, hst, ⟨hcase, rfl⟩ | ⟨hcase, rfl⟩ | ⟨rfl, rfl⟩⟩ := jobStep_head hpc hs
  · have hk : k = job.size :=
      Nat.le_antisymm hp.bound (hf.size ▸ Job.taskStatus_none.mp hst)
    exact ⟨k, hp.leave rfl rfl rfl (Or.inl hpc) rfl (Or.inl ⟨hk, hin⟩)⟩
  · have hlt : k < job.size := hf.size ▸ Job.lt_size_of_taskStatus hst
    refine ⟨k, hp.stay rfl rfl (fun _ => rfl) (by simp [hpc]) (by simp) (by simp [hpc]) ?_⟩
    have hstart : Oracle.startable (it.statuses k) = true := by
      rw [← hcur, hst]
      rcases hcase with rfl | rfl <;> rfl
    exact ⟨rfl, hlt, hstart, hin⟩
  · have hlt : k < job.size := hf.size ▸ Job.lt_size_of_taskStatus hst
    have hstop : O.goesPast it.number it.statuses k = false := by
      rcases hcase with rfl | rfl <;> simp [Oracle.goesPast, ← hcur, hst]
    exact ⟨k, hp.leave rfl rfl rfl (Or.inl hpc) rfl (Or.inr ⟨hlt, hstop, rfl, rfl⟩)⟩
  · have hlt : k < job.size := hf.size ▸ Job.lt_size_of_taskStatus hst
    have hnot : Oracle.startable (it.statuses k) = false := by
      rw [← hcur, hst]
      rfl
    have hlaunch : ∀ j, Launched it (k + 1) j ↔ Launched it k j := by
      intro j
      refine and_congr_left ?_
      intro hstart
      refine ⟨?_, Nat.lt_succ_of_lt⟩
      intro hj
      rcases Nat.lt_succ_iff_lt_or_eq.mp hj with hj | rfl
      · exact hj
      · rw [hnot] at hstart
        cases hstart
    refine ⟨k + 1, hp.info, hp.clear.succ ?_, hlt, ?_, ?_, ?_, ?_, by simp, ?_⟩
    · simp [Oracle.goesPast, ← hcur, hst]
    · intro j
      rw [startedIn_cons_of_ne (by simp [hpc]), hp.started, hlaunch]
    · exact fun j hj => hp.created j ((hlaunch j).mp hj)
    · exact fun j hj => (hlaunch j).mpr (hp.busy j hj)
    · intro j
      rw [goto_job, hp.status]
      simp [midStatus, hlaunch, hpc]
    · exact ⟨rfl, hin⟩

theorem PassAt.run {k : Nat} (hp : PassAt O job it m h e)
    (hpc : e.thread.pc = .run k) (hok : follows O h e (.job ok))
    (hs : e.jobStep ok = some e') : ∃ m', PassAt O job it m' ((e, .job ok) :: h) e' := by
  obtain ⟨rfl, hlt, hstart, hin⟩ : k = m ∧ k < job.size ∧
      Oracle.startable (it.statuses k) = true ∧ InLoop job e := by
    simpa [Place, hpc] using hp.place
  have hatt : e.info.attempts = it.number := by rw [hp.info]
  have hgo : O.goesPast it.number it.statuses k = ok := by
    rw [Oracle.goesPast_startable hstart, hok k hpc, hatt]
  cases ok with
  | false =>
    simp only [jobStep, hpc, Bool.false_eq_true, if_false, Option.some.injEq] at hs
    subst hs
    exact ⟨k, hp.leave rfl rfl rfl (Or.inr ⟨hpc, by simp⟩) rfl (Or.inr ⟨hlt, hgo, rfl, rfl⟩)⟩
  | true =>
    simp only [jobStep, hpc, if_true, Option.some.injEq] at hs
    subst hs
    have hlaunch : ∀ j, Launched it (k + 1) j ↔ Launched it k j ∨ j = k := by
      intro j
      constructor
      · rintro ⟨hj, hs⟩
        exact (Nat.lt_succ_iff_lt_or_eq.mp hj).imp_left fun hj => ⟨hj, hs⟩
      · rintro (⟨hj, hs⟩ | rfl)
        · exact ⟨Nat.lt_succ_of_lt hj, hs⟩
        · exact ⟨Nat.lt_succ_self j, hstart⟩
    refine ⟨k + 1, hp.info, hp.clear.succ hgo, hlt, ?_, ?_, ?_, ?_, by simp, ?_⟩
    · intro j
      rw [startedIn_cons, hp.started, hlaunch, hpc, hatt]
      simp [eq_comm]
    · intro j hj
      by_cases hjk : j = k
      · simp [hjk]
      · simpa [hjk] using hp.created j (((hlaunch j).mp hj).resolve_right hjk)
    · intro j hj
      by_cases hjk : j = k
      · exact (hlaunch j).mpr (Or.inr hjk)
      · refine (hlaunch j).mpr (Or.inl (hp.busy j ?_))
        simpa [JobExec.busy, hjk] using hj
    · intro j
      rw [goto_job, setTask_job, hp.status]
      by_cases hjk : j = k
      · subst hjk
        simp [midStatus, Launched]
      · simp [midStatus, hlaunch, hjk, Ne.symm hjk, hpc]
    · exact ⟨rfl, hstart, hin⟩

/-- `task_run` returns. -/
theorem PassAt.setRunning {k : Nat} (hf : Frame job e) (hp : PassAt O job it m h e)
    (hpc : e.thread.pc = .setRunning k)
    (hs : e.jobStep ok = some e') : ∃ m', PassAt O job it m' ((e, .job ok) :: h) e' := by
  obtain ⟨hm, hstart, hin⟩ : k + 1 = m ∧ Oracle.startable (it.statuses k) = true ∧
      InLoop job e := by simpa [Place, hpc] using hp.place
  have hx := hp.early k hpc
  have hk : Launched it m k := ⟨by omega, hstart⟩
  have hlt : k < e.job.size := by
    have := hp.bound
    rw [hf.size]
    omega
  obtain ⟨pc, runners, hpc', hplace, rfl⟩ : ∃ pc runners, (∀ j, pc ≠ .setRunning j) ∧
      Place O job it m (e.goto pc) ∧
      e' = { e with job := e.job.setTaskStatus k .running, taskRunners := runners }.goto pc := by
    simp only [jobStep, hpc] at hs
    split at hs
    · simp only [Option.some.injEq] at hs
      exact ⟨.wait k, _, by simp, ⟨hm, hstart, hin⟩, hs.symm⟩
    · simp only [Option.some.injEq] at hs
      exact ⟨.head (k + 1), _, by simp, ⟨hm, hin⟩, hs.symm⟩
  refine ⟨m, hp.info, hp.clear, hp.bound, ?_, hp.created, hp.busy, ?_,
    fun j hj => absurd hj (hpc' j), ?_⟩
  · intro j
    rw [startedIn_cons_of_ne (by simp [hpc]), hp.started]
  · intro j
    rw [goto_job]
    by_cases hjk : j = k
    · subst hjk
      rw [Job.taskStatus_setTaskStatus_self _ _ hlt]
      simp [midStatus, hk, hx, hpc']
    · rw [Job.taskStatus_setTaskStatus_ne _ _ (Ne.symm hjk), hp.status]
      simp [midStatus, hpc, hpc', Ne.symm hjk]
  · exact hplace

/-- A join, and the waits that follow the loop. -/
theorem PassAt.waits (hp : PassAt O job it m h e) (hjob : e'.job = e.job)
    (hinfo : e'.info = e.info)
    (hphase : ∀ k, (e'.thread.tasks k).phase = (e.thread.tasks k).phase)
    (hin : e'.thread.completion = e.thread.completion ∧ e'.thread.repeats = e.thread.repeats)
    (hpc : (∃ i, e.thread.pc = .waitAll i) ∨ (∃ i, e.thread.pc = .popAllCancel i) ∨
      ∃ i, e.thread.pc = .popAllJoin i)
    (hpc' : (∃ i, e'.thread.pc = .waitAll i) ∨ (∃ i, e'.thread.pc = .popAllCancel i) ∨
      (∃ i, e'.thread.pc = .popAllJoin i) ∨ e'.thread.pc = .count) :
    PassAt O job it m ((e, l) :: h) e' := by
  have hhalt : Halted O job it m e := by
    have hplace := hp.place
    rcases hpc with ⟨i, hpc⟩ | ⟨i, hpc⟩ | ⟨i, hpc⟩ <;> simpa [Place, hpc] using hplace
  have hhalt' : Halted O job it m e' := by simpa [Halted, InLoop, hin] using hhalt
  refine hp.stay hjob hinfo hphase ?_ ?_ ?_ ?_
  · rcases hpc with ⟨i, hpc⟩ | ⟨i, hpc⟩ | ⟨i, hpc⟩ <;> simp [hpc]
  · rcases hpc' with ⟨i, hpc⟩ | ⟨i, hpc⟩ | ⟨i, hpc⟩ | hpc <;> simp [hpc]
  · rcases hpc with ⟨i, hpc⟩ | ⟨i, hpc⟩ | ⟨i, hpc⟩ <;> simp [hpc]
  · rcases hpc' with ⟨i, hpc⟩ | ⟨i, hpc⟩ | ⟨i, hpc⟩ | hpc <;> simpa [Place, hpc] using hhalt'

/-- The loop and the waits, up to the counters. -/
theorem PassAt.jobStep (hf : Frame job e) (hp : PassAt O job it m h e)
    (hok : follows O h e (.job ok)) (hcount : e.thread.pc ≠ .count)
    (hs : e.jobStep ok = some e') : ∃ m', PassAt O job it m' ((e, .job ok) :: h) e' := by
  have hplace := hp.place
  cases hpc : e.thread.pc with
  | head k => exact hp.head hf hpc hs
  | run k => exact hp.run hpc hok hs
  | setRunning k => exact hp.setRunning hf hpc hs
  | wait k =>
    simp only [JobExec.jobStep, hpc] at hs
    split at hs
    · simp only [Option.some.injEq] at hs
      subst hs
      simp only [Place, hpc] at hplace
      exact ⟨m, hp.stay rfl rfl (by simp) (by simp [hpc]) (by simp) (by simp [hpc]) hplace⟩
    · cases hs
  | popCancel k =>
    simp only [JobExec.jobStep, hpc, Option.some.injEq] at hs
    subst hs
    simp only [Place, hpc] at hplace
    exact ⟨m, hp.stay rfl rfl (by simp) (by simp [hpc]) (by simp) (by simp [hpc]) hplace⟩
  | popJoin k =>
    simp only [JobExec.jobStep, hpc] at hs
    split at hs
    · simp only [Option.some.injEq] at hs
      subst hs
      simp only [Place, hpc] at hplace
      exact ⟨m, hp.stay rfl rfl (by simp) (by simp [hpc]) (by simp) (by simp [hpc])
        ⟨hplace.1, hplace.2.2⟩⟩
    · cases hs
  | waitAll i =>
    simp only [JobExec.jobStep, hpc] at hs
    split at hs
    · simp only [Option.some.injEq] at hs
      subst hs
      exact ⟨m, hp.waits rfl rfl (by simp) (by simp) (by simp [hpc]) (by simp)⟩
    · split at hs
      · simp only [Option.some.injEq] at hs
        subst hs
        exact ⟨m, hp.waits rfl rfl (by simp) (by simp) (by simp [hpc]) (by simp)⟩
      · cases hs
  | popAllCancel i =>
    simp only [JobExec.jobStep, hpc] at hs
    split at hs <;> simp only [Option.some.injEq] at hs <;> subst hs
    · exact ⟨m, hp.waits rfl rfl (by simp) (by simp) (by simp [hpc]) (by simp)⟩
    · exact ⟨m, hp.waits rfl rfl (by simp) (by simp) (by simp [hpc]) (by simp)⟩
  | popAllJoin i =>
    simp only [JobExec.jobStep, hpc] at hs
    split at hs
    · cases hs
    · split at hs
      · simp only [Option.some.injEq] at hs
        subst hs
        exact ⟨m, hp.waits rfl rfl (by simp) (by simp) (by simp [hpc]) (by simp)⟩
      · cases hs
  | count => exact absurd hpc hcount
  | _ => simp [Place, hpc] at hplace

/-- The task thread of a launched node moves on and writes its status. -/
theorem PassAt.taskWrites {k : Nat} {st : TaskStatus} {t : TaskThread} {a : TaskAct}
    (hp : PassAt O job it m h e) (hk : Launched it m k) (hlt : k < e.job.size)
    (ht : t.phase = .running ∧ st = .running ∨
      t.phase = .exited ∧ e.thread.pc ≠ .setRunning k ∧ st = O.outcome it.number k) :
    PassAt O job it m ((e, .task k a) :: h)
      ({ e with job := e.job.setTaskStatus k st }.setTask k t) := by
  refine ⟨hp.info, hp.clear, hp.bound, ?_, ?_, ?_, ?_, ?_, hp.place⟩
  · intro j
    rw [startedIn_cons_of_ne (by simp), hp.started]
  · intro j hj
    by_cases hjk : j = k
    · subst hjk
      rcases ht with ⟨hph, _⟩ | ⟨hph, _⟩ <;> simp [hph]
    · simpa [hjk] using hp.created j hj
  · intro j hj
    by_cases hjk : j = k
    · exact hjk ▸ hk
    · refine hp.busy j ?_
      simpa [JobExec.busy, hjk] using hj
  · intro j
    rw [setTask_job]
    by_cases hjk : j = k
    · subst hjk
      rw [Job.taskStatus_setTaskStatus_self _ _ hlt]
      rcases ht with ⟨hph, rfl⟩ | ⟨hph, hpc, rfl⟩ <;> simp [midStatus, hk, hph]
    · rw [Job.taskStatus_setTaskStatus_ne _ _ (Ne.symm hjk), hp.status]
      simp [midStatus, hjk]
  · intro j hj
    by_cases hjk : j = k
    · subst hjk
      rcases ht with ⟨hph, _⟩ | ⟨_, hpc, _⟩
      · simp [hph]
      · exact absurd hj hpc
    · simpa [hjk] using hp.early j hj

theorem PassAt.taskStep {k : Nat} {a : TaskAct} (hp : PassAt O job it m h e)
    (ht : ThreadInv e) (hok : follows O h e (.task k a)) (hs : e.taskStep k a = some e') :
    PassAt O job it m ((e, .task k a) :: h) e' := by
  have hbusy := (taskStep_eq hs).1
  have hk := hp.busy k hbusy
  have hlt := (ht.inRange k (ht.busyOwned k hbusy)).1
  simp only [JobExec.taskStep] at hs
  split at hs
  · simp only [Option.some.injEq] at hs
    subst hs
    exact hp.taskWrites hk hlt (Or.inl ⟨rfl, rfl⟩)
  · rename_i ws hph
    obtain ⟨hws, hpc⟩ := hok
    have hrunning : e.job.taskStatus k = some .running := by
      rw [hp.status]
      simp [midStatus, hk, hph]
    have hatt : e.info.attempts = it.number := by rw [hp.info]
    simp only [hrunning, Option.some.injEq] at hs
    subst hs
    exact hp.taskWrites hk hlt (Or.inr ⟨rfl, hpc, by rw [hws, hatt, Oracle.outcome]⟩)
  · cases hs

/-- When no task executes any more, the loop has left what the iteration
says. -/
theorem PassAt.afterTasks (hf : Frame job e) (hp : PassAt O job it m h e)
    (hhalt : Halted O job it m e) (hfree : ∀ k, ¬ e.busy k) :
    (∀ k, StartedIn h it.number k ↔ O.Starts it.number it.statuses k) ∧
    ∀ k, e.job.taskStatus k = it.afterTasks O k := by
  have hstop : O.goesPast it.number it.statuses m = false ∨ ∀ j, m ≤ j → it.statuses j = none := by
    rcases hhalt with ⟨hm, _⟩ | ⟨_, hstop, _⟩
    · exact Or.inr fun j hj => hp.statuses_none hf (hm ▸ hj)
    · exact Or.inl hstop
  have hiff : ∀ k, O.Starts it.number it.statuses k ↔ Launched it m k :=
    fun k => Oracle.starts_iff_of_stop hp.clear hstop
  refine ⟨fun k => by rw [hp.started, hiff], fun k => ?_⟩
  rw [hp.status, midStatus, Iteration.afterTasks, Oracle.after]
  by_cases hk : Launched it m k
  · have hx : (e.thread.tasks k).phase = .exited := by
      have hne := hp.created k hk
      have hnb := hfree k
      simp only [JobExec.busy, not_or] at hnb
      cases hph : (e.thread.tasks k).phase <;> simp_all
    rw [if_pos hk, if_pos hx, if_pos ((hiff k).mpr hk)]
  · rw [if_neg hk, if_neg fun hs => hk ((hiff k).mp hs)]

/-! ## After the tasks -/

/-- In `job_get_status`, with the statuses read so far. -/
structure PollAt (O : Oracle) (job : Job) (it : Iteration) (k : Nat) (seen : List TaskStatus)
    (e : JobExec) : Prop where
  completes : it.Completes O job
  inLoop : InLoop job e
  info : e.info =
    { attempts := it.number
      completions := it.info.completions + 1
      successes := it.info.successes }
  status : ∀ j, e.job.taskStatus j = it.afterTasks O j
  length : seen.length = k
  seen : ∀ j < k, seen[j]? = it.afterTasks O j
  bound : k ≤ job.size

/-- In `reset_status`. -/
structure ResetAt (O : Oracle) (job : Job) (it : Iteration) (k : Nat) (e : JobExec) : Prop where
  repeats : it.Repeats O job
  flag : e.thread.repeats = true
  info : e.info = (it.next O job).info
  status : ∀ j, e.job.taskStatus j = if j < k then some .ready else it.afterTasks O j
  bound : k ≤ job.size

/-- At the end of the iteration. -/
structure EndAt (O : Oracle) (job : Job) (it : Iteration) (e : JobExec) : Prop where
  status : ∀ j, e.job.taskStatus j = (it.next O job).statuses j
  info : e.info = (it.next O job).info
  flag : e.thread.repeats = (it.next O job).again

/-- The thread is in the iteration that follows `it`, past the waits. -/
structure TailAt (O : Oracle) (job : Job) (it : Iteration) (h : History JobExec Label)
    (e : JobExec) : Prop where
  started : ∀ k, StartedIn h it.number k ↔ O.Starts it.number it.statuses k
  place : match e.thread.pc with
    | .poll k seen => PollAt O job it k seen e
    | .reset k => ResetAt O job it k e
    | .loopTest => EndAt O job it e
    | _ => False

/-- `if (completion) runner->info.completions++`. -/
theorem TailAt.of_count (hf : Frame job e) (hp : PassAt O job it m h e) (ht : ThreadInv e)
    (hpc : e.thread.pc = .count) (hs : e.jobStep ok = some e') :
    TailAt O job it ((e, .job ok) :: h) e' := by
  have hhalt : Halted O job it m e := by simpa [Place, hpc] using hp.place
  have hfree : ∀ k, ¬ e.busy k := fun k hk => by simpa [owned, hpc] using ht.busyOwned k hk
  obtain ⟨hstarted, hstatus⟩ := hp.afterTasks hf hhalt hfree
  have hinfo := hp.info
  simp only [JobExec.jobStep, hpc] at hs
  rcases hhalt with ⟨hm, hin⟩ | ⟨hm, hstop, hcompl, hrep⟩
  · have hcompletes : it.Completes O job := by
      have := hp.clear
      rwa [hm] at this
    simp only [hin.1, if_true, Option.some.injEq] at hs
    subst hs
    refine ⟨fun k => ?_, ⟨hcompletes, hin, ?_, hstatus, rfl, by simp, Nat.zero_le _⟩⟩
    · rw [startedIn_cons_of_ne (by simp [hpc]), hstarted]
    · simp [hinfo]
  · have hcompletes : ¬ it.Completes O job := fun hc => by
      rw [hc m hm] at hstop
      cases hstop
    have hrepeats : ¬ it.Repeats O job := fun hr => hcompletes hr.1
    simp only [hcompl, Bool.false_eq_true, if_false, Option.some.injEq] at hs
    subst hs
    refine ⟨fun k => ?_, ⟨?_, ?_, ?_⟩⟩
    · rw [startedIn_cons_of_ne (by simp [hpc]), hstarted]
    · intro j
      simp [Iteration.next, hrepeats, hstatus]
    · simp [Iteration.next, hcompletes, hinfo]
    · simp [Iteration.next, hrepeats, hrep]

/-- `job_get_status` finds COMPLETED exactly when the iteration says so. -/
theorem PollAt.succeeds {k : Nat} {seen : List TaskStatus} (hf : Frame job e)
    (hp : PollAt O job it k seen e) (hk : k = job.size) :
    (e.job.putStatus seen).status = .completed ↔ it.Succeeds O job := by
  subst hk
  unfold Job.putStatus Iteration.Succeeds
  rw [hf.size]
  by_cases hz : job.size = 0
  · simp [hz, hf.status hz]
  · rw [if_neg hz, if_neg hz]
    simp only [jobStatusOf_completed]
    constructor
    · intro hall j hj
      have hlt : j < seen.length := hp.length ▸ hj
      have hget := hp.seen j hj
      rw [List.getElem?_eq_getElem hlt] at hget
      rw [← hget, hall _ (List.getElem_mem hlt)]
    · intro hall st hst
      obtain ⟨j, hj, rfl⟩ := List.getElem_of_mem hst
      have hj' : j < job.size := hp.length ▸ hj
      have hget := hp.seen j hj'
      rw [List.getElem?_eq_getElem hj, hall j hj'] at hget
      exact Option.some.inj hget

theorem TailAt.poll {k : Nat} {seen : List TaskStatus} (hf : Frame job e)
    (hp : TailAt O job it h e) (hpc : e.thread.pc = .poll k seen)
    (hs : e.jobStep ok = some e') : TailAt O job it ((e, .job ok) :: h) e' := by
  have hpoll : PollAt O job it k seen e := by simpa [hpc] using hp.place
  have hstarted : ∀ j, StartedIn ((e, .job ok) :: h) it.number j ↔
      O.Starts it.number it.statuses j := fun j => by
    rw [startedIn_cons_of_ne (by simp [hpc]), hp.started]
  simp only [JobExec.jobStep, hpc] at hs
  cases hst : e.job.taskStatus k with
  | some st =>
    simp only [hst, Option.some.injEq] at hs
    subst hs
    have hlt : k < job.size := hf.size ▸ Job.lt_size_of_taskStatus hst
    refine ⟨hstarted, ⟨hpoll.completes, hpoll.inLoop, hpoll.info, hpoll.status, ?_, ?_, hlt⟩⟩
    · simp [hpoll.length]
    · intro j hj
      rcases Nat.lt_succ_iff_lt_or_eq.mp hj with hj | rfl
      · rw [List.getElem?_append_left (hpoll.length ▸ hj)]
        exact hpoll.seen j hj
      · have hl := hpoll.length
        rw [← hpoll.status, hst]
        simp [← hl]
  | none =>
    simp only [hst, Option.some.injEq] at hs
    subst hs
    have hk : k = job.size :=
      Nat.le_antisymm hpoll.bound (hf.size ▸ Job.taskStatus_none.mp hst)
    have hsucc := hpoll.succeeds hf hk
    have hinfo : (if (e.job.putStatus seen).status = .completed
        then { e.info with successes := e.info.successes + 1 } else e.info)
        = (it.next O job).info := by
      by_cases hc : it.Succeeds O job
      · rw [if_pos (hsucc.mpr hc), hpoll.info]
        simp [Iteration.next, hpoll.completes, hc]
      · rw [if_neg fun h => hc (hsucc.mp h), hpoll.info]
        simp [Iteration.next, hpoll.completes, hc]
    have hrep := hpoll.inLoop.2
    refine ⟨hstarted, ?_⟩
    cases hmode : job.opts.runMode with
    | runRepeat =>
      have hr : e.thread.repeats = true := by rw [hrep, hmode]; rfl
      have hrepeats : it.Repeats O job := ⟨hpoll.completes, hmode⟩
      simp only [hr, if_true, goto_pc]
      exact ⟨hrepeats, hr, hinfo, by simpa using hpoll.status, Nat.zero_le _⟩
    | runOnce =>
      have hr : e.thread.repeats = false := by rw [hrep, hmode]; rfl
      have hrepeats : ¬ it.Repeats O job := fun h => by simp [Iteration.Repeats, hmode] at h
      simp only [hr, Bool.false_eq_true, if_false, goto_pc]
      exact ⟨by simpa [Iteration.next, hrepeats] using hpoll.status, hinfo,
        by simpa [Iteration.next, hrepeats] using hr⟩

theorem TailAt.reset {k : Nat} (hf : Frame job e) (hp : TailAt O job it h e)
    (hpc : e.thread.pc = .reset k) (hs : e.jobStep ok = some e') :
    TailAt O job it ((e, .job ok) :: h) e' := by
  have hreset : ResetAt O job it k e := by simpa [hpc] using hp.place
  refine ⟨fun j => by rw [startedIn_cons_of_ne (by simp [hpc]), hp.started], ?_⟩
  simp only [JobExec.jobStep, hpc] at hs
  split at hs
  · rename_i hlt
    simp only [Option.some.injEq] at hs
    subst hs
    refine ⟨hreset.repeats, hreset.flag, hreset.info, ?_, hf.size ▸ hlt⟩
    intro j
    rw [goto_job]
    by_cases hjk : j = k
    · subst hjk
      rw [Job.taskStatus_setTaskStatus_self _ _ hlt, if_pos (Nat.lt_succ_self j)]
    · rw [Job.taskStatus_setTaskStatus_ne _ _ (Ne.symm hjk), hreset.status]
      have : j < k ↔ j < k + 1 := by omega
      simp [this]
  · rename_i hle
    simp only [Option.some.injEq] at hs
    subst hs
    have hk : k = job.size := by
      have := hreset.bound
      have := hf.size
      omega
    refine ⟨?_, hreset.info, by simp [Iteration.next, hreset.repeats, hreset.flag]⟩
    intro j
    rw [goto_job, hreset.status]
    simp only [Iteration.next, hreset.repeats, if_true, hk]
    by_cases hj : j < job.size
    · simp [hj]
    · have hnone : e.job.taskStatus j = none :=
        Job.taskStatus_none.mpr (hf.size ▸ Nat.le_of_not_lt hj)
      rw [hreset.status, hk, if_neg hj] at hnone
      simp [hj, hnone]

/-! ## Whole runs -/

/-- What a job thread that follows the oracle has done so far. -/
inductive ModeInv (O : Oracle) (job : Job) (h : History JobExec Label) (e : JobExec) : Prop
  | between {n : Nat} {it : Iteration} (hit : iteration O job n = some it)
      (hagain : it.again = true) (hpc : e.thread.pc = .begin)
      (hstatus : ∀ j, e.job.taskStatus j = it.statuses j) (hinfo : e.info = it.info)
      (hflag : e.thread.repeats = (job.opts.runMode == .runRepeat))
  | pass {n m : Nat} {it : Iteration} (hit : iteration O job n = some it)
      (hagain : it.again = true) (hp : PassAt O job it m h e)
  | tail {n : Nat} {it : Iteration} (hit : iteration O job n = some it)
      (hagain : it.again = true) (hp : TailAt O job it h e)
  | ended (hpc : e.thread.pc = .exited)

theorem jobStep_attempts (hs : e.jobStep ok = some e') :
    e'.info.attempts = if e.thread.pc = .begin then e.info.attempts + 1 else e.info.attempts := by
  cases hpc : e.thread.pc with
  | poll k seen =>
    simp only [JobExec.jobStep, hpc] at hs
    split at hs
    · simp only [Option.some.injEq] at hs
      subst hs
      simp
    · simp only [Option.some.injEq] at hs
      subst hs
      simp only [goto_info]
      split <;> simp
  | _ =>
    simp only [JobExec.jobStep, hpc] at hs
    repeat' split at hs
    all_goals simp only [Option.some.injEq, reduceCtorEq] at hs
    all_goals subst hs
    all_goals simp [abort]

/-- `job_runner_handler` destroys a runner that is in the array. -/
theorem jobStep_popAllJoin {i : Nat} (hs : e.jobStep ok = some e')
    (hpc' : e'.thread.pc = .popAllJoin i) : i < e'.taskRunners.length := by
  cases hpc : e.thread.pc with
  | popAllCancel i =>
    simp only [JobExec.jobStep, hpc] at hs
    split at hs <;> simp only [Option.some.injEq] at hs <;> subst hs
    · simp at hpc'
    · rename_i hr
      obtain rfl := by simpa using hpc'
      exact (List.getElem?_eq_some_iff.mp hr).1
  | _ =>
    simp only [JobExec.jobStep, hpc] at hs
    repeat' split at hs
    all_goals simp only [Option.some.injEq, reduceCtorEq] at hs
    all_goals subst hs
    all_goals first
      | (simp at hpc'; done)
      | (cases hm : e.job.opts.execMode <;> simp [abort, afterLoop, hm] at hpc')

theorem Frame.step (hf : Frame job e) (hs : e.step l = some e') : Frame job e' := by
  have hput : ∀ seen, Frame job { e with job := e.job.putStatus seen } := fun seen =>
    ⟨by simpa using hf.size, fun hz => by simp [Job.putStatus, hf.size, hz, hf.status hz]⟩
  cases l with
  | job ok =>
    rcases jobStep_job hs with ⟨_, hj⟩ | ⟨k, _, hj⟩ | ⟨k, _, hj⟩ | ⟨k, seen, _, _, hj⟩
    · exact ⟨hj ▸ hf.size, fun hz => by rw [hj, hf.status hz]⟩
    · exact ⟨by simpa [hj] using hf.size, fun hz => by simp [hj, hf.status hz]⟩
    · exact ⟨by simpa [hj] using hf.size, fun hz => by simp [hj, hf.status hz]⟩
    · exact ⟨hj ▸ (hput seen).size, fun hz => hj ▸ (hput seen).status hz⟩
  | cancelled =>
    obtain ⟨pc, rfl, _⟩ := cancelStep_eq hs
    exact ⟨hf.size, hf.status⟩
  | task k a =>
    obtain ⟨_, st, phase, _, rfl⟩ := taskStep_eq hs
    exact ⟨by simpa using hf.size, fun hz => by simp [hf.status hz]⟩

/-- The next iteration begins. -/
theorem PassAt.of_begin
    (hfuture : ∀ n k, e.info.attempts < n → ¬ StartedIn h n k) (ht : ThreadInv e)
    (hpc : e.thread.pc = .begin) (hstatus : ∀ j, e.job.taskStatus j = it.statuses j)
    (hinfo : e.info = it.info) (hflag : e.thread.repeats = (job.opts.runMode == .runRepeat))
    (hs : e.jobStep ok = some e') : PassAt O job it 0 ((e, .job ok) :: h) e' := by
  have hfree : ∀ k, ¬ e.busy k := fun k hk => by simpa [owned, hpc] using ht.busyOwned k hk
  simp only [JobExec.jobStep, hpc, Option.some.injEq] at hs
  subst hs
  refine ⟨?_, fun j hj => by omega, Nat.zero_le _, ?_, fun k hk => absurd hk.1 (Nat.not_lt_zero k),
    fun k hk => absurd hk (hfree k), ?_, by simp, ⟨rfl, rfl, hflag⟩⟩
  · simp [hinfo, Iteration.number]
  · intro k
    rw [startedIn_cons_of_ne (by simp [hpc])]
    refine ⟨fun hk => absurd hk (hfuture _ k ?_), fun hk => absurd hk.1 (Nat.not_lt_zero k)⟩
    simp [hinfo, Iteration.number]
  · intro k
    simp [midStatus, Launched, hstatus]

theorem ModeInv.loopTest {n : Nat} (hit : iteration O job n = some it)
    (hagain : it.again = true) (hp : TailAt O job it h e) (hpc : e.thread.pc = .loopTest)
    (hs : e.jobStep ok = some e') : ModeInv O job ((e, .job ok) :: h) e' := by
  have hend : EndAt O job it e := by simpa [hpc] using hp.place
  simp only [JobExec.jobStep, hpc, Option.some.injEq] at hs
  subst hs
  by_cases hr : it.Repeats O job
  · have hnext : (it.next O job).again = true := by simpa [Iteration.next] using hr
    have hflag : e.thread.repeats = true := by rw [hend.flag, hnext]
    exact .between (iteration_succ hit hagain) hnext (by simp [hflag]) hend.status hend.info
      (by simp [hflag, hr.2])
  · have hflag : e.thread.repeats = false := by
      rw [hend.flag]
      simpa [Iteration.next] using hr
    exact .ended (by simp [hflag])

theorem ModeInv.jobStep (hi : ModeInv O job h e) (hf : Frame job e) (ht : ThreadInv e)
    (hfuture : ∀ n k, e.info.attempts < n → ¬ StartedIn h n k)
    (hok : follows O h e (.job ok)) (hs : e.jobStep ok = some e') :
    ModeInv O job ((e, .job ok) :: h) e' := by
  cases hi with
  | between hit hagain hpc hstatus hinfo hflag =>
    exact .pass hit hagain (PassAt.of_begin hfuture ht hpc hstatus hinfo hflag hs)
  | pass hit hagain hp =>
    by_cases hpc : e.thread.pc = .count
    · exact .tail hit hagain (TailAt.of_count hf hp ht hpc hs)
    · obtain ⟨m', hp'⟩ := hp.jobStep hf hok hpc hs
      exact .pass hit hagain hp'
  | tail hit hagain hp =>
    have hplace := hp.place
    cases hpc : e.thread.pc with
    | poll k seen => exact .tail hit hagain (hp.poll hf hpc hs)
    | reset k => exact .tail hit hagain (hp.reset hf hpc hs)
    | loopTest => exact ModeInv.loopTest hit hagain hp hpc hs
    | _ => simp [hpc] at hplace
  | ended hpc => simp [JobExec.jobStep, hpc] at hs

/-- Task threads execute only during the loop and the waits. -/
theorem ModeInv.taskStep {k : Nat} {a : TaskAct} (hi : ModeInv O job h e) (ht : ThreadInv e)
    (hok : follows O h e (.task k a)) (hs : e.taskStep k a = some e') :
    ModeInv O job ((e, .task k a) :: h) e' := by
  have howned := ht.busyOwned k (taskStep_eq hs).1
  cases hi with
  | between hit hagain hpc hstatus hinfo hflag => simp [owned, hpc] at howned
  | pass hit hagain hp => exact .pass hit hagain (hp.taskStep ht hok hs)
  | tail hit hagain hp =>
    have hplace := hp.place
    cases hpc : e.thread.pc <;> simp [hpc] at hplace <;> simp [owned, hpc] at howned
  | ended hpc => simp [owned, hpc] at howned

/-- The invariants of a run that follows the oracle. -/
structure RunInv (O : Oracle) (job : Job) (h : History JobExec Label) (e : JobExec) : Prop where
  frame : Frame job e
  thread : ThreadInv e
  future : ∀ n k, e.info.attempts < n → ¬ StartedIn h n k
  popping : ∀ i, e.thread.pc = .popAllJoin i → i < e.taskRunners.length
  mode : ModeInv O job h e

theorem RunInv.startIn (O : Oracle) (mode : ExecMode) (job : Job) :
    RunInv O job [] (startIn mode job) := by
  refine ⟨⟨rfl, fun _ => rfl⟩, ThreadInv.fresh rfl, ?_, ?_, ?_⟩
  · rintro n k _ ⟨e, hm, _⟩
    cases hm
  · intro i hpc
    cases hpc
  · exact .between (n := 0) rfl rfl rfl (fun _ => rfl) rfl rfl

theorem RunInv.step (hi : RunInv O job h e) (hok : follows O h e l) (hs : e.step l = some e') :
    RunInv O job ((e, l) :: h) e' := by
  have hatt : e.info.attempts ≤ e'.info.attempts := by
    cases l with
    | job ok =>
      rw [jobStep_attempts hs]
      split <;> omega
    | cancelled => exact hok.elim
    | task k a =>
      obtain ⟨_, st, phase, _, rfl⟩ := taskStep_eq hs
      exact Nat.le_refl _
  refine ⟨hi.frame.step hs, hi.thread.step hs, ?_, ?_, ?_⟩
  · intro n k hn hst
    rcases startedIn_cons.mp hst with hst | ⟨_, _, hn'⟩
    · exact hi.future n k (by omega) hst
    · omega
  · cases l with
    | job ok => exact fun i hpc => jobStep_popAllJoin hs hpc
    | cancelled => exact hok.elim
    | task k a =>
      obtain ⟨_, st, phase, _, rfl⟩ := taskStep_eq hs
      exact hi.popping
  · cases l with
    | job ok => exact hi.mode.jobStep hi.frame hi.thread hi.future hok hs
    | cancelled => exact hok.elim
    | task k a => exact hi.mode.taskStep hi.thread hok hs

theorem run_runInv {mode : ExecMode} (hr : Run step (follows O) (startIn mode job) h e) :
    RunInv O job h e :=
  Run.invariant (RunInv.startIn O mode job) (fun _ _ _ _ hi hok hs => hi.step hok hs) hr

/-- At the end of an iteration a thread is where `iteration` says. -/
theorem RunInv.endOf {n : Nat} (hi : RunInv O job h e) (hend : EndOf n e) :
    ∃ n' it, n = n' + 1 ∧ iteration O job n' = some it ∧ it.again = true ∧ EndAt O job it e ∧
      ∀ k, StartedIn h n k ↔ O.Starts n it.statuses k := by
  obtain ⟨hpc, hn⟩ := hend
  cases hi.mode with
  | between hit hagain hpc' => simp [hpc] at hpc'
  | pass hit hagain hp => simpa [Place, hpc] using hp.place
  | ended hpc' => simp [hpc] at hpc'
  | @tail n' it hit hagain hp =>
    have hend : EndAt O job it e := by simpa [hpc] using hp.place
    have hnum : n = it.number := by
      rw [← hn, hend.info]
      rfl
    have hit' := iteration_attempts hit
    exact ⟨n', it, by rw [hnum, Iteration.number, hit'], hit, hagain, hend, hnum ▸ hp.started⟩

/-! ## Progress -/

/-- What is left for a task thread to do. -/
def phaseLeft : TaskPhase → Nat
  | .created => 2
  | .running => 1
  | .none | .exited => 0

/-- What is left for the task threads of the first `n` nodes to do. -/
def tasksLeft (tasks : Nat → TaskThread) : Nat → Nat
  | 0 => 0
  | n + 1 => tasksLeft tasks n + phaseLeft (tasks n).phase

/-- What is left for the job thread to do in this iteration, in a job of
`n` nodes. -/
def rank (n : Nat) : JobPc → Nat
  | .exited => 0
  | .loopTest => 1
  | .reset k => 2 + (n - k)
  | .poll k _ => n + 3 + (n - k)
  | .count => 2 * n + 4
  | .popAllJoin i => 2 * n + 5 + 2 * (n - i)
  | .popAllCancel i => 2 * n + 6 + 2 * (n - i)
  | .waitAll i => 4 * n + 7 + (n - i)
  | .popJoin k => 5 * n + 10 + 10 * (n - k)
  | .popCancel k => 5 * n + 11 + 10 * (n - k)
  | .wait k => 5 * n + 12 + 10 * (n - k)
  | .setRunning k => 5 * n + 13 + 10 * (n - k)
  | .run k => 5 * n + 16 + 10 * (n - k)
  | .head k => 5 * n + 17 + 10 * (n - k)
  | .begin => 15 * n + 18
  | .unwindCancel _ | .unwindJoin _ => 0

/-- The number of steps that are left in this iteration, at most. -/
def work (e : JobExec) : Nat := rank e.job.size e.thread.pc + tasksLeft e.thread.tasks e.job.size

theorem tasksLeft_congr {f g : Nat → TaskThread} (hfg : ∀ k, (f k).phase = (g k).phase) :
    ∀ n, tasksLeft f n = tasksLeft g n
  | 0 => rfl
  | n + 1 => by rw [tasksLeft, tasksLeft, tasksLeft_congr hfg n, hfg]

theorem tasksLeft_update_of_le {f : Nat → TaskThread} {k : Nat} {t : TaskThread} :
    ∀ {n : Nat}, n ≤ k → tasksLeft (Function.update f k t) n = tasksLeft f n
  | 0, _ => rfl
  | n + 1, hn => by
      have hne : n ≠ k := by omega
      rw [tasksLeft, tasksLeft, tasksLeft_update_of_le (by omega), Function.update_of_ne hne]

theorem tasksLeft_update {f : Nat → TaskThread} {k : Nat} {t : TaskThread} :
    ∀ {n : Nat}, k < n →
      tasksLeft (Function.update f k t) n + phaseLeft (f k).phase
        = tasksLeft f n + phaseLeft t.phase
  | 0, hk => absurd hk (Nat.not_lt_zero k)
  | n + 1, hk => by
      rw [tasksLeft, tasksLeft]
      rcases Nat.lt_succ_iff_lt_or_eq.mp hk with hlt | rfl
      · have ih := tasksLeft_update (f := f) (t := t) hlt
        rw [Function.update_of_ne (Nat.ne_of_gt hlt)]
        omega
      · rw [tasksLeft_update_of_le (Nat.le_refl k), Function.update_self]
        omega

theorem tasksLeft_eq_zero {f : Nat → TaskThread}
    (hf : ∀ k, (f k).phase ≠ .created ∧ (f k).phase ≠ .running) : ∀ n, tasksLeft f n = 0
  | 0 => rfl
  | n + 1 => by
      rw [tasksLeft, tasksLeft_eq_zero hf n]
      obtain ⟨h1, h2⟩ := hf n
      cases hp : (f n).phase <;> simp_all [phaseLeft]

theorem taskRunners_length_le (ht : ThreadInv e) (hb : e.thread.pc ≠ .begin) :
    e.taskRunners.length ≤ e.job.size := by
  have hsub : e.taskRunners ⊆ List.range e.job.size := fun k hk =>
    List.mem_range.mpr (ht.listed hb k hk).2.1
  simpa using (List.subperm_of_subset (ht.nodup hb) hsub).length_le

/-- The node that the loop is at is a node of the job. -/
theorem RunInv.current_lt {k : Nat} (hi : RunInv O job h e)
    (hpc : e.thread.pc = .setRunning k ∨ e.thread.pc = .wait k ∨ e.thread.pc = .popCancel k ∨
      e.thread.pc = .popJoin k) : k < e.job.size := by
  have hsize := hi.frame.size
  cases hi.mode with
  | between _ _ hpc' => simp [hpc'] at hpc
  | ended hpc' => simp [hpc'] at hpc
  | tail _ _ hp =>
    have hplace := hp.place
    rcases hpc with hpc | hpc | hpc | hpc <;> simp [hpc] at hplace
  | pass _ _ hp =>
    have hplace := hp.place
    have hbound := hp.bound
    rcases hpc with hpc | hpc | hpc | hpc <;>
      simp only [Place, hpc] at hplace <;> omega

theorem RunInv.current_created {k : Nat} (hi : RunInv O job h e)
    (hpc : e.thread.pc = .popJoin k) : (e.thread.tasks k).phase ≠ .none := by
  cases hi.mode with
  | between _ _ hpc' => simp [hpc'] at hpc
  | ended hpc' => simp [hpc'] at hpc
  | tail _ _ hp =>
    have hplace := hp.place
    simp [hpc] at hplace
  | pass _ _ hp =>
    have hplace := hp.place
    simp only [Place, hpc] at hplace
    exact hp.created k ⟨by omega, hplace.2.1⟩

/-- A thread that is not cancelled does not unwind. -/
theorem RunInv.not_unwinding (hi : RunInv O job h e) (rest : List Nat) :
    e.thread.pc ≠ .unwindCancel rest ∧ e.thread.pc ≠ .unwindJoin rest := by
  cases hi.mode with
  | between _ _ hpc => simp [hpc]
  | ended hpc => simp [hpc]
  | tail _ _ hp =>
    have hplace := hp.place
    constructor <;> intro hpc <;> simp [hpc] at hplace
  | pass _ _ hp =>
    have hplace := hp.place
    constructor <;> intro hpc <;> simp [Place, hpc] at hplace

/-- A step of the job thread that creates no task lowers the work, if it
lowers the rank. -/
theorem work_lt_of_rank (hsize : e'.job.size = e.job.size)
    (hphase : ∀ k, (e'.thread.tasks k).phase = (e.thread.tasks k).phase)
    (hrank : rank e.job.size e'.thread.pc < rank e.job.size e.thread.pc) : e'.work < e.work := by
  rw [work, work, hsize, tasksLeft_congr hphase]
  omega

theorem RunInv.work_jobStep (hi : RunInv O job h e) (hpc : e.thread.pc ≠ .loopTest)
    (hs : e.jobStep ok = some e') : e'.work < e.work := by
  have hlen := taskRunners_length_le hi.thread
  have hloop : ∀ k, rank e.job.size (afterLoop e.job.opts.execMode) < rank e.job.size (.run k) := by
    intro k
    cases e.job.opts.execMode <;> simp only [afterLoop, rank] <;> omega
  have hnode := fun k hk => hi.current_lt (k := k) hk
  cases hp : e.thread.pc with
  | «begin» =>
    simp only [JobExec.jobStep, hp, Option.some.injEq] at hs
    subst hs
    refine work_lt_of_rank rfl (fun _ => rfl) ?_
    simp only [hp, rank]
    omega
  | head k =>
    simp only [JobExec.jobStep, hp] at hs
    have hrun : rank e.job.size (.run k) < rank e.job.size (.head k) := by
      simp only [rank]
      omega
    split at hs <;> simp only [Option.some.injEq] at hs <;> subst hs <;>
      refine work_lt_of_rank rfl (fun _ => rfl) ?_ <;> rw [hp]
    · exact Nat.lt_trans (hloop k) hrun
    · exact hrun
    · exact hrun
    · exact Nat.lt_trans (hloop k) hrun
    · exact Nat.lt_trans (hloop k) hrun
    · rename_i hst
      have hk := Job.lt_size_of_taskStatus hst
      simp only [goto_pc, rank]
      omega
  | run k =>
    have hk := hi.thread.current k hp
    cases ok with
    | false =>
      simp only [JobExec.jobStep, hp, Bool.false_eq_true, if_false, Option.some.injEq] at hs
      subst hs
      refine work_lt_of_rank rfl (fun _ => rfl) ?_
      rw [hp]
      exact hloop k
    | true =>
      simp only [JobExec.jobStep, hp, if_true, Option.some.injEq] at hs
      subst hs
      have hup : _ = _ + 2 := tasksLeft_update (f := e.thread.tasks) (t := ⟨.created, 0⟩) hk
      simp only [work, goto_job, goto_pc, goto_tasks, setTask_job, setTask_tasks, hp, rank]
      omega
  | setRunning k =>
    have hk := hnode k (by simp [hp])
    simp only [JobExec.jobStep, hp] at hs
    split at hs <;> simp only [Option.some.injEq] at hs <;> subst hs <;>
      refine work_lt_of_rank (by simp) (fun _ => rfl) ?_ <;>
      simp only [goto_pc, hp, rank] <;> omega
  | wait k =>
    simp only [JobExec.jobStep, hp] at hs
    split at hs
    · simp only [Option.some.injEq] at hs
      subst hs
      refine work_lt_of_rank rfl (by simp) ?_
      simp only [goto_pc, hp, rank]
      omega
    · cases hs
  | popCancel k =>
    simp only [JobExec.jobStep, hp, Option.some.injEq] at hs
    subst hs
    refine work_lt_of_rank rfl (fun _ => rfl) ?_
    simp only [goto_pc, hp, rank]
    omega
  | popJoin k =>
    have hk := hnode k (by simp [hp])
    simp only [JobExec.jobStep, hp] at hs
    split at hs
    · simp only [Option.some.injEq] at hs
      subst hs
      refine work_lt_of_rank rfl (by simp) ?_
      simp only [goto_pc, hp, rank]
      omega
    · cases hs
  | waitAll i =>
    simp only [JobExec.jobStep, hp] at hs
    cases hr : e.taskRunners[i]? with
    | none =>
      simp only [hr, Option.some.injEq] at hs
      subst hs
      refine work_lt_of_rank rfl (fun _ => rfl) ?_
      simp only [goto_pc, hp, rank]
      omega
    | some k =>
      have hi' := (List.getElem?_eq_some_iff.mp hr).1
      have hlen := hlen (by simp [hp])
      simp only [hr] at hs
      split at hs
      · simp only [Option.some.injEq] at hs
        subst hs
        refine work_lt_of_rank rfl (by simp) ?_
        simp only [goto_pc, hp, rank]
        omega
      · cases hs
  | popAllCancel i =>
    simp only [JobExec.jobStep, hp] at hs
    split at hs <;> simp only [Option.some.injEq] at hs <;> subst hs <;>
      refine work_lt_of_rank rfl (fun _ => rfl) ?_ <;>
      simp only [goto_pc, hp, rank] <;> omega
  | popAllJoin i =>
    simp only [JobExec.jobStep, hp] at hs
    cases hr : e.taskRunners[i]? with
    | none => simp [hr] at hs
    | some k =>
      have hi' := (List.getElem?_eq_some_iff.mp hr).1
      have hlen := hlen (by simp [hp])
      simp only [hr] at hs
      split at hs
      · simp only [Option.some.injEq] at hs
        subst hs
        refine work_lt_of_rank rfl (by simp) ?_
        simp only [goto_pc, hp, rank]
        omega
      · cases hs
  | count =>
    simp only [JobExec.jobStep, hp] at hs
    split at hs <;> simp only [Option.some.injEq] at hs <;> subst hs <;>
      refine work_lt_of_rank rfl (fun _ => rfl) ?_ <;>
      simp only [goto_pc, hp, rank] <;> omega
  | poll k seen =>
    simp only [JobExec.jobStep, hp] at hs
    split at hs <;> simp only [Option.some.injEq] at hs <;> subst hs
    · rename_i hst
      have hk := Job.lt_size_of_taskStatus hst
      refine work_lt_of_rank rfl (fun _ => rfl) ?_
      simp only [goto_pc, hp, rank]
      omega
    · refine work_lt_of_rank (by simp) (fun _ => rfl) ?_
      cases e.thread.repeats <;> simp only [goto_pc, hp, rank, if_true, Bool.false_eq_true,
        if_false] <;> omega
  | reset k =>
    simp only [JobExec.jobStep, hp] at hs
    split at hs <;> simp only [Option.some.injEq] at hs <;> subst hs
    · refine work_lt_of_rank (by simp) (fun _ => rfl) ?_
      simp only [goto_pc, hp, rank]
      omega
    · refine work_lt_of_rank rfl (fun _ => rfl) ?_
      simp only [goto_pc, hp, rank]
      omega
  | loopTest => exact absurd hp hpc
  | unwindCancel rest => exact absurd hp (hi.not_unwinding rest).1
  | unwindJoin rest => exact absurd hp (hi.not_unwinding rest).2
  | exited => simp [JobExec.jobStep, hp] at hs

theorem RunInv.work_taskStep {k : Nat} {a : TaskAct} (hi : RunInv O job h e)
    (hs : e.taskStep k a = some e') : e'.work < e.work := by
  have hbusy := (taskStep_eq hs).1
  have hlt := (hi.thread.inRange k (hi.thread.busyOwned k hbusy)).1
  have hleft : ∀ t : TaskThread, phaseLeft t.phase < phaseLeft (e.thread.tasks k).phase →
      tasksLeft (Function.update e.thread.tasks k t) e.job.size
        < tasksLeft e.thread.tasks e.job.size := by
    intro t ht
    have := tasksLeft_update (f := e.thread.tasks) (t := t) hlt
    omega
  simp only [JobExec.taskStep] at hs
  split at hs
  · rename_i hph
    simp only [Option.some.injEq] at hs
    subst hs
    have := hleft { e.thread.tasks k with phase := .running } (by simp [hph, phaseLeft])
    simpa [work] using this
  · rename_i ws hph
    split at hs
    · cases hs
    · simp only [Option.some.injEq] at hs
      subst hs
      have := hleft { e.thread.tasks k with phase := .exited } (by simp [hph, phaseLeft])
      simpa [work] using this
  · cases hs

/-- A task thread that has not exited has a step that follows the
oracle. -/
theorem taskStep_exists {k : Nat} (hlt : k < e.job.size)
    (hne : (e.thread.tasks k).phase ≠ .none) (hx : e.taskExited k ≠ true)
    (hpc : e.thread.pc ≠ .setRunning k) :
    ∃ l, follows O h e l ∧ (e.step l).isSome = true := by
  rw [ne_eq, taskExited_iff] at hx
  obtain ⟨st, hst⟩ := Option.isSome_iff_exists.mp (Job.taskStatus_isSome.mpr hlt)
  cases hph : (e.thread.tasks k).phase with
  | none => exact absurd hph hne
  | created => exact ⟨.task k .spawned, trivial, by simp [step, taskStep, hph]⟩
  | running =>
    exact ⟨.task k (.finished (O e.info.attempts k).2), ⟨rfl, hpc⟩,
      by simp [step, taskStep, hph, hst]⟩
  | exited => exact absurd hph hx

/-- The job thread has a step that follows the oracle, unless it waits
for a task. -/
theorem jobStep_exists (hs : ∀ ok, (e.jobStep ok).isSome = true) :
    ∃ l, follows O h e l ∧ (e.step l).isSome = true := by
  by_cases hrun : ∃ k, e.thread.pc = .run k
  · obtain ⟨k, hk⟩ := hrun
    refine ⟨.job (O e.info.attempts k).1, ?_, hs _⟩
    intro j hj
    obtain rfl : k = j := by simpa [hk] using hj
    rfl
  · exact ⟨.job true, fun k hk => absurd ⟨k, hk⟩ hrun, hs true⟩

/-- No deadlock: a thread that has not exited, or a task that it waits
for, has a step that follows the oracle. -/
theorem RunInv.progress (hi : RunInv O job h e) (hpc : e.thread.pc ≠ .exited) :
    ∃ l, follows O h e l ∧ (e.step l).isSome = true := by
  have ht := hi.thread
  have hjoin : ∀ k, k ∈ e.taskRunners → e.thread.pc ≠ .begin → e.thread.pc ≠ .setRunning k →
      e.taskExited k ≠ true → ∃ l, follows O h e l ∧ (e.step l).isSome = true :=
    fun k hk hb hs hx => taskStep_exists (ht.listed hb k hk).2.1 (ht.listed hb k hk).2.2 hx hs
  cases hp : e.thread.pc with
  | wait k =>
    by_cases hx : e.taskExited k = true
    · exact jobStep_exists fun ok => by simp [jobStep, hp, hx]
    · have hk := ht.inRange k (by simp [owned, hp])
      exact taskStep_exists hk.1 hk.2 hx (by simp [hp])
  | popJoin k =>
    refine jobStep_exists fun ok => ?_
    have hx : e.taskExited k = true := by
      have hnb : ¬ e.busy k := fun hk => by simpa [owned, hp] using ht.busyOwned k hk
      have hne := hi.current_created hp
      simp only [JobExec.busy, not_or] at hnb
      rw [taskExited_iff]
      cases hph : (e.thread.tasks k).phase <;> simp_all
    simp [jobStep, hp, hx]
  | waitAll i =>
    cases hr : e.taskRunners[i]? with
    | none => exact jobStep_exists fun ok => by simp [jobStep, hp, hr]
    | some k =>
      by_cases hx : e.taskExited k = true
      · exact jobStep_exists fun ok => by simp [jobStep, hp, hr, hx]
      · exact hjoin k (List.mem_of_getElem? hr) (by simp [hp]) (by simp [hp]) hx
  | popAllJoin i =>
    obtain ⟨k, hr⟩ : ∃ k, e.taskRunners[i]? = some k :=
      ⟨_, List.getElem?_eq_getElem (hi.popping i hp)⟩
    by_cases hx : e.taskExited k = true
    · exact jobStep_exists fun ok => by simp [jobStep, hp, hr, hx]
    · exact hjoin k (List.mem_of_getElem? hr) (by simp [hp]) (by simp [hp]) hx
  | head k =>
    refine jobStep_exists fun ok => ?_
    simp only [jobStep, hp]
    split <;> rfl
  | run k => exact jobStep_exists fun ok => by cases ok <;> simp [jobStep, hp]
  | unwindCancel rest => exact absurd hp (hi.not_unwinding rest).1
  | unwindJoin rest => exact absurd hp (hi.not_unwinding rest).2
  | exited => exact absurd hp hpc
  | _ =>
    refine jobStep_exists fun ok => ?_
    simp only [jobStep, hp]
    repeat' split
    all_goals rfl

/-- Only the test of the `do` loop leads to another iteration or to the
exit. -/
theorem jobStep_pc (hs : e.jobStep ok = some e') (hpc : e.thread.pc ≠ .loopTest)
    (hun : ∀ rest, e.thread.pc ≠ .unwindCancel rest) :
    e'.thread.pc ≠ .begin ∧ e'.thread.pc ≠ .exited := by
  cases hp : e.thread.pc with
  | loopTest => exact absurd hp hpc
  | unwindCancel rest => exact absurd hp (hun rest)
  | poll k seen =>
    simp only [JobExec.jobStep, hp] at hs
    split at hs <;> simp only [Option.some.injEq] at hs <;> subst hs
    · simp
    · cases hm : e.thread.repeats <;> simp
  | _ =>
    simp only [JobExec.jobStep, hp] at hs
    repeat' split at hs
    all_goals simp only [Option.some.injEq, reduceCtorEq] at hs
    all_goals subst hs
    all_goals first
      | (simp; done)
      | (cases hm : e.job.opts.execMode <;> simp [abort, afterLoop, hm])

theorem RunInv.work_step (hi : RunInv O job h e) (hpc : e.thread.pc ≠ .loopTest)
    (hok : follows O h e l) (hs : e.step l = some e') : e'.work < e.work := by
  cases l with
  | job ok => exact hi.work_jobStep hpc hs
  | cancelled => exact hok.elim
  | task k a => exact hi.work_taskStep hs

/-- Where the thread is on its way through iteration `n + 1`. -/
def Through (n : Nat) (e : JobExec) : Prop :=
  (e.thread.pc = .begin ∧ e.info.attempts = n) ∨
  (e.thread.pc ≠ .begin ∧ e.thread.pc ≠ .exited ∧ e.info.attempts = n + 1)

theorem Through.step {n : Nat} (hi : RunInv O job h e) (ht : Through n e)
    (hend : ¬ EndOf (n + 1) e) (hok : follows O h e l) (hs : e.step l = some e') :
    e.thread.pc ≠ .loopTest ∧ Through n e' := by
  have hpc : e.thread.pc ≠ .loopTest := by
    rcases ht with ⟨hpc, _⟩ | ⟨_, _, hatt⟩
    · simp [hpc]
    · exact fun hpc => hend ⟨hpc, hatt⟩
  refine ⟨hpc, ?_⟩
  cases l with
  | job ok =>
    have hpc' := jobStep_pc hs hpc fun rest => (hi.not_unwinding rest).1
    have hatt := jobStep_attempts hs
    rcases ht with ⟨hb, hn⟩ | ⟨hb, _, hn⟩
    · exact Or.inr ⟨hpc'.1, hpc'.2, by rw [hatt, if_pos hb, hn]⟩
    · exact Or.inr ⟨hpc'.1, hpc'.2, by rw [hatt, if_neg hb, hn]⟩
  | cancelled => exact hok.elim
  | task k a =>
    obtain ⟨_, st, phase, _, rfl⟩ := taskStep_eq hs
    exact ht

/-- An iteration that has begun can be completed. -/
theorem reaches_endOf_of_begin {mode : ExecMode} {n : Nat}
    (hr : Run step (follows O) (startIn mode job) h e) (hpc : e.thread.pc = .begin)
    (hn : e.info.attempts = n) : Reaches O job mode (EndOf (n + 1)) := by
  obtain ⟨h', e', hr', _, hend⟩ := Run.reaches (I := fun h e => RunInv O job h e ∧ Through n e)
    (G := EndOf (n + 1)) work
    (fun h e ⟨hi, ht⟩ hgoal => by
      have hx : e.thread.pc ≠ .exited := by
        rcases ht with ⟨hb, _⟩ | ⟨_, hx, _⟩
        · simp [hb]
        · exact hx
      obtain ⟨l, hok, hsome⟩ := hi.progress hx
      obtain ⟨e', hs⟩ := Option.isSome_iff_exists.mp hsome
      obtain ⟨hpc, ht'⟩ := ht.step hi hgoal hok hs
      exact ⟨l, e', hok, hs, ⟨hi.step hok hs, ht'⟩, hi.work_step hpc hok hs⟩)
    hr ⟨run_runInv hr, Or.inl ⟨hpc, hn⟩⟩
  exact ⟨h', e', hr', hend⟩

/-- Every iteration that `iteration` has is reached, in either mode. -/
theorem reaches_endOf (mode : ExecMode) : ∀ {n : Nat} {it : Iteration},
    iteration O job n = some it → it.again = true → Reaches O job mode (EndOf (n + 1))
  | 0, _, _, _ => reaches_endOf_of_begin .nil rfl rfl
  | n + 1, it, hit, hagain => by
      cases hn : iteration O job n with
      | none => simp [iteration, hn] at hit
      | some it₀ =>
        cases ha : it₀.again with
        | false => simp [iteration, hn, ha] at hit
        | true =>
          obtain ⟨h, e, hr, hend⟩ := reaches_endOf mode hn ha
          obtain ⟨n', it', hn', hit', _, hat, _⟩ := (run_runInv hr).endOf hend
          obtain rfl : n = n' := by omega
          rw [hn, Option.some.injEq] at hit'
          subst hit'
          rw [iteration_succ hn ha, Option.some.injEq] at hit
          subst hit
          have hflag : e.thread.repeats = true := by rw [hat.flag, hagain]
          have hok : follows O h e (.job true) := fun k hk => by simp [hend.1] at hk
          have hs : e.step (.job true) = some (e.goto .begin) := by
            simp [step, jobStep, hend.1, hflag]
          exact reaches_endOf_of_begin (.snoc hr hok hs) rfl hend.2

/-- A thread that has exited was at the end of its last iteration. -/
theorem exitedAfter_iff {mode : ExecMode} {n : Nat} :
    Reaches O job mode (ExitedAfter n) ↔
      Reaches O job mode fun e => EndOf n e ∧ e.thread.repeats = false := by
  constructor
  · rintro ⟨h, e', hr, hpc', hn⟩
    cases hr with
    | nil => simp [JobExec.startIn, start, JobThread.start] at hpc'
    | @snoc h e _ l hr hok hs =>
      have hi := run_runInv hr
      cases l with
      | job ok =>
        have hpc : e.thread.pc = .loopTest := by
          by_contra hpc
          exact (jobStep_pc hs hpc fun rest => (hi.not_unwinding rest).1).2 hpc'
        have hatt := jobStep_attempts hs
        refine ⟨h, e, hr, ⟨hpc, by simpa [hpc, hn] using hatt.symm⟩, ?_⟩
        simp only [step, JobExec.jobStep, hpc, Option.some.injEq] at hs
        subst hs
        cases hrep : e.thread.repeats with
        | false => rfl
        | true => simp [hrep] at hpc'
      | cancelled => exact hok.elim
      | task k a =>
        obtain ⟨hbusy, st, phase, _, rfl⟩ := taskStep_eq hs
        have howned := hi.thread.busyOwned k hbusy
        have hpc : e.thread.pc = .exited := hpc'
        simp [owned, hpc] at howned
  · rintro ⟨h, e, hr, ⟨hpc, hn⟩, hrep⟩
    have hok : follows O h e (.job true) := fun k hk => by simp [hpc] at hk
    have hs : e.step (.job true) = some (e.goto .exited) := by
      simp [step, JobExec.jobStep, hpc, hrep]
    exact ⟨_, _, .snoc hr hok hs, rfl, hn⟩

/-- The number of steps of a run is bounded by its iterations. -/
theorem run_length_le {mode : ExecMode} (hr : Run step (follows O) (startIn mode job) h e) :
    h.length + e.work
      ≤ (e.info.attempts + if e.thread.pc = .begin then 1 else 0) * (15 * job.size + 19) := by
  induction hr with
  | nil =>
    have hleft : tasksLeft (startIn mode job).thread.tasks job.size = 0 :=
      tasksLeft_eq_zero (by simp [JobExec.startIn, start, JobThread.start]) _
    have hwork : (startIn mode job).work = rank job.size .begin + 0 := by
      rw [← hleft]
      rfl
    have hatt : (startIn mode job).info.attempts = 0 := rfl
    have hpc : (startIn mode job).thread.pc = .begin := rfl
    rw [hwork, hatt, if_pos hpc, List.length_nil, rank]
    omega
  | @snoc h e e' l hr hok hs ih =>
    have hi := run_runInv hr
    rw [List.length_cons]
    by_cases hpc : e.thread.pc = .loopTest
    · have howned : e.owned = [] := by simp [owned, hpc]
      have hleft := tasksLeft_eq_zero (fun k => not_or.mp fun hk => by
        simpa [howned] using hi.thread.busyOwned k hk) e.job.size
      cases l with
      | job ok =>
        simp only [step, JobExec.jobStep, hpc, Option.some.injEq] at hs
        subst hs
        simp only [work, hpc, rank, hleft, reduceCtorEq, if_false, Nat.add_zero] at ih
        have hsize := hi.frame.size
        rw [hsize] at hleft
        cases hrep : e.thread.repeats with
        | true =>
          simp only [work, goto_pc, goto_job, goto_tasks, goto_info, if_true, rank, hleft, hsize,
            Nat.add_mul, Nat.one_mul]
          omega
        | false =>
          simp only [work, goto_pc, goto_job, goto_tasks, goto_info, if_false, rank, hleft, hsize,
            Bool.false_eq_true, reduceCtorEq, Nat.add_zero]
          omega
      | cancelled => exact hok.elim
      | task k a =>
        have hk := hi.thread.busyOwned k (taskStep_eq hs).1
        simp [howned] at hk
    · have hlt := hi.work_step hpc hok hs
      have hle : e.info.attempts + (if e.thread.pc = .begin then 1 else 0)
          = e'.info.attempts + (if e'.thread.pc = .begin then 1 else 0) := by
        cases l with
        | job ok =>
          have hb := (jobStep_pc hs hpc fun rest => (hi.not_unwinding rest).1).1
          rw [jobStep_attempts hs, if_neg hb]
          split <;> rfl
        | cancelled => exact hok.elim
        | task k a =>
          obtain ⟨_, st, phase, _, rfl⟩ := taskStep_eq hs
          rfl
      rw [← hle]
      omega

/-- The two threads agree. They start the same tasks in every iteration,
make the same number of iterations, and leave the same statuses and
counters after each; and neither stops short of the end of an iteration
or stays in one for ever. -/
theorem modes_agree (O : Oracle) (job : Job) :
    (∀ n, Reaches O job .parallel (EndOf n) ↔ Reaches O job .sequential (EndOf n)) ∧
    (∀ n, Reaches O job .parallel (ExitedAfter n) ↔ Reaches O job .sequential (ExitedAfter n)) ∧
    (∀ n h e h' e',
      Run step (follows O) (startIn .parallel job) h e → EndOf n e →
      Run step (follows O) (startIn .sequential job) h' e' → EndOf n e' →
      (∀ k, StartedIn h n k ↔ StartedIn h' n k) ∧
      (∀ k, e.job.taskStatus k = e'.job.taskStatus k) ∧
      e.info = e'.info ∧ e.thread.repeats = e'.thread.repeats) ∧
    (∀ mode h e, Run step (follows O) (startIn mode job) h e →
      (e.thread.pc ≠ .exited → ∃ l, follows O h e l ∧ (e.step l).isSome = true) ∧
      h.length ≤ (e.info.attempts + 1) * (15 * job.size + 19)) := by
  have hsame : ∀ n m m' h e h' e',
      Run step (follows O) (startIn m job) h e → EndOf n e →
      Run step (follows O) (startIn m' job) h' e' → EndOf n e' →
      (∀ k, StartedIn h n k ↔ StartedIn h' n k) ∧
      (∀ k, e.job.taskStatus k = e'.job.taskStatus k) ∧
      e.info = e'.info ∧ e.thread.repeats = e'.thread.repeats := by
    intro n m m' h e h' e' hr hend hr' hend'
    obtain ⟨n₁, it₁, hn₁, hit₁, _, hat₁, hst₁⟩ := (run_runInv hr).endOf hend
    obtain ⟨n₂, it₂, hn₂, hit₂, _, hat₂, hst₂⟩ := (run_runInv hr').endOf hend'
    obtain rfl : n₁ = n₂ := by omega
    rw [hit₁, Option.some.injEq] at hit₂
    subst hit₂
    refine ⟨fun k => by rw [hst₁, hst₂], fun k => by rw [hat₁.status, hat₂.status], ?_, ?_⟩
    · rw [hat₁.info, hat₂.info]
    · rw [hat₁.flag, hat₂.flag]
  have hreach : ∀ n m m', Reaches O job m (EndOf n) → Reaches O job m' (EndOf n) := by
    rintro n m m' ⟨h, e, hr, hend⟩
    obtain ⟨n', it, rfl, hit, hagain, _⟩ := (run_runInv hr).endOf hend
    exact reaches_endOf m' hit hagain
  have hexit : ∀ n m m', Reaches O job m (ExitedAfter n) → Reaches O job m' (ExitedAfter n) := by
    intro n m m' hx
    obtain ⟨h, e, hr, hend, hrep⟩ := exitedAfter_iff.mp hx
    obtain ⟨h', e', hr', hend'⟩ := hreach n m m' ⟨h, e, hr, hend⟩
    have hflag := (hsame n m m' h e h' e' hr hend hr' hend').2.2.2
    exact exitedAfter_iff.mpr ⟨h', e', hr', hend', hflag ▸ hrep⟩
  refine ⟨fun n => ⟨hreach n _ _, hreach n _ _⟩, fun n => ⟨hexit n _ _, hexit n _ _⟩,
    fun n => hsame n _ _, fun mode h e hr => ⟨fun hpc => (run_runInv hr).progress hpc, ?_⟩⟩
  have hlen := run_length_le hr
  refine Nat.le_trans (Nat.le_trans (Nat.le_add_right _ _) hlen) (Nat.mul_le_mul_right _ ?_)
  split <;> omega

end JobExec

end Pyoneer.Blueprint
