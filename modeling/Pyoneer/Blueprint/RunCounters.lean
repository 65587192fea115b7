/-
Pyoneer.Blueprint.RunCounters — what the counters of a runner count.

`tally` reads off the history of a runner which passes over the job have
begun, how far the last one has got and whether something has broken it:
a task that it found NOT_READY or RUNNING, a `task_run` that failed, a
cancellation. A pass that has visited every task unbroken is completed,
and it has succeeded if all tasks are COMPLETED when it is over. The
three counters are updated at three different points of the loop;
`Counted` says for each point how they stand to the tally.
-/
import Pyoneer.Blueprint.JobRunner

namespace Pyoneer.Blueprint

open Pyoneer.Lib

/-- Every task is COMPLETED. -/
def Job.allCompleted (job : Job) : Bool := job.tasks.all fun t => t.status == .completed

/-- The passes of a runner, and the last one of them. -/
structure Tally where
  begun : Nat
  visited : Nat
  broken : Bool
  completed : Nat
  succeeded : Nat
  deriving DecidableEq, Repr

namespace Tally

/-- Before the first pass. -/
def zero : Tally := { begun := 0, visited := 0, broken := false, completed := 0, succeeded := 0 }

/-- After a step of the job thread or of one of its task threads. -/
def after (t : Tally) (e : JobExec) : JobExec.Label → Tally
  | .job ok =>
    match e.thread.pc with
    | .begin => { t with begun := t.begun + 1, visited := 0, broken := false }
    | .head k =>
      match e.job.taskStatus k with
      | none => t
      | some .notReady | some .running => { t with broken := true }
      | some _ => { t with visited := t.visited + 1 }
    | .run _ => if ok then t else { t with broken := true }
    | .count =>
      if t.broken = false ∧ t.visited = e.job.size then
        { t with
          completed := t.completed + 1
          succeeded := t.succeeded + if e.job.allCompleted then 1 else 0 }
      else t
    | _ => t
  | .cancelled => { t with broken := true }
  | .task _ _ => t

end Tally

namespace JobRunner

/-- The passes in a history. -/
def tally : History JobRunner Label → Tally
  | [] => .zero
  | (r, .thread l) :: h => (tally h).after r.exec l
  | (_, _) :: h => tally h

/-- The pass is over, at its regular end or because the thread is. -/
def PassEnded (r : JobRunner) : Prop :=
  r.exec.thread.pc = .loopTest ∨ r.exec.thread.pc = .exited

end JobRunner

/-! ## The invariant -/

namespace JobExec

/-- The counters agree with the tally. -/
structure Settled (t : Tally) (e : JobExec) : Prop where
  completions : e.info.completions = t.completed
  successes : e.info.successes = t.succeeded
  ordered : e.info.successes ≤ e.info.completions

/-- In the loop over the nodes, past `n` of them. -/
structure InPass (t : Tally) (e : JobExec) (n : Nat) : Prop extends Settled t e where
  unbroken : t.broken = false
  visited : t.visited = n
  inRange : n ≤ e.job.size
  completion : e.thread.completion = true
  counted : e.info.completions < e.info.attempts

/-- Past the loop over the nodes, and not counted yet. -/
structure PassOver (t : Tally) (e : JobExec) : Prop extends Settled t e where
  completion : e.thread.completion = true ↔ t.broken = false ∧ t.visited = e.job.size
  counted : e.info.completions < e.info.attempts

/-- In `job_get_status`, with `info.completions` counted. -/
structure Polling (t : Tally) (e : JobExec) (k : Nat) (seen : List TaskStatus) : Prop where
  completions : e.info.completions = t.completed
  successes : e.info.successes + (if e.job.allCompleted then 1 else 0) = t.succeeded
  ordered : e.info.successes < e.info.completions
  counted : e.info.completions ≤ e.info.attempts
  seen : seen = (e.job.tasks.map Task.status).take k

/-- How the counters stand to the tally. -/
def CountedAt (t : Tally) (e : JobExec) : JobPc → Prop
  | .head k => InPass t e k
  | .run k | .setRunning k | .wait k | .popCancel k | .popJoin k => InPass t e (k + 1)
  | .waitAll _ | .popAllCancel _ | .popAllJoin _ | .count => PassOver t e
  | .poll k seen => Polling t e k seen
  | .begin | .reset _ | .loopTest | .unwindCancel _ | .unwindJoin _ | .exited =>
    Settled t e ∧ e.info.completions ≤ e.info.attempts

structure Counted (t : Tally) (e : JobExec) : Prop where
  attempts : e.info.attempts = t.begun
  place : CountedAt t e e.thread.pc

theorem Counted.ordered {t : Tally} {e : JobExec} (hi : Counted t e) :
    e.info.successes ≤ e.info.completions ∧ e.info.completions ≤ e.info.attempts := by
  have hp := hi.place
  cases hpc : e.thread.pc with
  | poll k seen =>
    rw [hpc] at hp
    exact ⟨Nat.le_of_lt hp.ordered, hp.counted⟩
  | head k | run k | setRunning k | wait k | popCancel k | popJoin k =>
    rw [hpc] at hp
    exact ⟨hp.ordered, Nat.le_of_lt hp.counted⟩
  | waitAll i | popAllCancel i | popAllJoin i | count =>
    rw [hpc] at hp
    exact ⟨hp.ordered, Nat.le_of_lt hp.counted⟩
  | _ =>
    rw [hpc] at hp
    exact ⟨hp.1.ordered, hp.2⟩

/-! ## Steps -/

section Steps

variable {t : Tally} {e e' : JobExec} {k : Nat} {ok : Bool}

/-- A step that changes neither the counters nor what they are compared
with. -/
theorem InPass.move {n : Nat} (hp : InPass t e n) (hinfo : e'.info = e.info)
    (hsize : e'.job.size = e.job.size) (hc : e'.thread.completion = e.thread.completion) :
    InPass t e' n :=
  ⟨⟨hinfo ▸ hp.completions, hinfo ▸ hp.successes, hinfo ▸ hp.ordered⟩, hp.unbroken, hp.visited,
    hsize ▸ hp.inRange, hc ▸ hp.completion, hinfo ▸ hp.counted⟩

theorem PassOver.move (hp : PassOver t e) (hinfo : e'.info = e.info)
    (hsize : e'.job.size = e.job.size) (hc : e'.thread.completion = e.thread.completion) :
    PassOver t e' :=
  ⟨⟨hinfo ▸ hp.completions, hinfo ▸ hp.successes, hinfo ▸ hp.ordered⟩, by
    rw [hc, hsize]
    exact hp.completion, hinfo ▸ hp.counted⟩

/-- The end of the loop over the nodes. -/
theorem InPass.leave (hp : InPass t e k) (hk : e.job.size ≤ k) (hinfo : e'.info = e.info)
    (hsize : e'.job.size = e.job.size) (hc : e'.thread.completion = e.thread.completion) :
    PassOver t e' := by
  have heq : k = e.job.size := Nat.le_antisymm hp.inRange hk
  refine ⟨⟨hinfo ▸ hp.completions, hinfo ▸ hp.successes, hinfo ▸ hp.ordered⟩, ?_,
    hinfo ▸ hp.counted⟩
  rw [hc, hsize]
  exact iff_of_true hp.completion ⟨hp.unbroken, hp.visited.trans heq⟩

/-- The two abort branches. -/
theorem InPass.abort {n : Nat} (hp : InPass t e n) :
    PassOver { t with broken := true } e.abort :=
  ⟨⟨hp.completions, hp.successes, hp.ordered⟩, by simp [JobExec.abort], hp.counted⟩

theorem countedAt_afterLoop (hp : PassOver t e) (mode : ExecMode) :
    CountedAt t e (afterLoop mode) := by
  cases mode <;> exact hp

theorem Counted.begin (hi : Counted t e) (hpc : e.thread.pc = .begin)
    (hs : e.jobStep ok = some e') : Counted (t.after e (.job ok)) e' := by
  have hp := hi.place
  rw [hpc] at hp
  simp only [jobStep, hpc, Option.some.injEq] at hs
  subst hs
  simp only [Tally.after, hpc]
  refine ⟨congrArg (· + 1) hi.attempts, ?_⟩
  exact ⟨⟨hp.1.completions, hp.1.successes, hp.1.ordered⟩, rfl, rfl, Nat.zero_le _, rfl,
    Nat.lt_succ_of_le hp.2⟩

theorem Counted.head (hi : Counted t e) (hpc : e.thread.pc = .head k)
    (hs : e.jobStep ok = some e') : Counted (t.after e (.job ok)) e' := by
  have hp := hi.place
  rw [hpc] at hp
  simp only [Tally.after, hpc]
  -- one more node is visited
  have hvisit : ∀ e' : JobExec, e'.info = e.info → e'.job = e.job →
      e'.thread.completion = e.thread.completion → k < e.job.size →
      InPass { t with visited := t.visited + 1 } e' (k + 1) := by
    intro e' hinfo hjob hc hk
    exact ⟨⟨hinfo ▸ hp.completions, hinfo ▸ hp.successes, hinfo ▸ hp.ordered⟩, hp.unbroken,
      congrArg (· + 1) hp.visited, hjob ▸ hk, hc ▸ hp.completion, hinfo ▸ hp.counted⟩
  obtain ⟨hst, rfl⟩ | ⟨st, hst, ⟨hcase, rfl⟩ | ⟨hcase, rfl⟩ | ⟨rfl, rfl⟩⟩ := jobStep_head hpc hs
  · rw [hst]
    have hover : PassOver t (e.goto (afterLoop e.job.opts.execMode)) :=
      hp.leave (Job.taskStatus_none.mp hst) rfl rfl rfl
    exact ⟨hi.attempts, countedAt_afterLoop hover _⟩
  · have hin := hvisit (e.goto (.run k)) rfl rfl rfl (Job.lt_size_of_taskStatus hst)
    rw [hst]
    rcases hcase with rfl | rfl <;> exact ⟨hi.attempts, hin⟩
  · rw [hst]
    rcases hcase with rfl | rfl <;> exact ⟨hi.attempts, countedAt_afterLoop hp.abort _⟩
  · rw [hst]
    exact ⟨hi.attempts, hvisit _ rfl rfl rfl (Job.lt_size_of_taskStatus hst)⟩

theorem Counted.run (hi : Counted t e) (hpc : e.thread.pc = .run k)
    (hs : e.jobStep ok = some e') : Counted (t.after e (.job ok)) e' := by
  have hp := hi.place
  rw [hpc] at hp
  simp only [jobStep, hpc] at hs
  simp only [Tally.after, hpc]
  cases ok with
  | false =>
    simp only [Bool.false_eq_true, if_false, Option.some.injEq] at hs ⊢
    subst hs
    exact ⟨hi.attempts, countedAt_afterLoop hp.abort _⟩
  | true =>
    simp only [if_true, Option.some.injEq] at hs ⊢
    subst hs
    exact ⟨hi.attempts, hp.move rfl rfl rfl⟩

theorem Counted.count (hi : Counted t e) (hpc : e.thread.pc = .count)
    (hs : e.jobStep ok = some e') : Counted (t.after e (.job ok)) e' := by
  have hp := hi.place
  rw [hpc] at hp
  simp only [jobStep, hpc] at hs
  simp only [Tally.after, hpc]
  split at hs
  · rename_i hc
    rw [if_pos (hp.completion.mp hc)]
    simp only [Option.some.injEq] at hs
    subst hs
    refine ⟨hi.attempts, congrArg (· + 1) hp.completions, ?_, ?_, hp.counted, rfl⟩
    · exact congrArg (· + _) hp.successes
    · exact Nat.lt_succ_of_le hp.ordered
  · rename_i hc
    rw [if_neg (fun h => hc (hp.completion.mpr h))]
    simp only [Option.some.injEq] at hs
    subst hs
    exact ⟨hi.attempts, ⟨hp.completions, hp.successes, hp.ordered⟩, Nat.le_of_lt hp.counted⟩

/-- The poll has read the statuses that the tasks have. -/
theorem status_completed_iff {job : Job} {seen : List TaskStatus} (hsize : job.size ≠ 0)
    (hseen : seen = job.tasks.map Task.status) :
    (job.putStatus seen).status = .completed ↔ job.allCompleted = true := by
  rw [Job.putStatus, if_neg hsize, jobStatusOf_completed, hseen, Job.allCompleted,
    List.all_eq_true]
  simp

theorem Counted.poll {seen : List TaskStatus} (hi : Counted t e) (hsize : e.job.size ≠ 0)
    (hpc : e.thread.pc = .poll k seen) (hs : e.jobStep ok = some e') :
    Counted (t.after e (.job ok)) e' := by
  have hp := hi.place
  rw [hpc] at hp
  simp only [jobStep, hpc] at hs
  simp only [Tally.after, hpc]
  split at hs
  · rename_i st hst
    simp only [Option.some.injEq] at hs
    subst hs
    refine ⟨hi.attempts, hp.completions, hp.successes, hp.ordered, hp.counted, ?_⟩
    have hget : (e.job.tasks.map Task.status)[k]? = some st := by
      rw [List.getElem?_map]
      exact hst
    rw [hp.seen]
    simp only [goto_job]
    rw [List.take_add_one, hget]
    rfl
  · rename_i hst
    simp only [Option.some.injEq] at hs
    subst hs
    have hall : seen = e.job.tasks.map Task.status := by
      rw [hp.seen, List.take_of_length_le]
      rw [List.length_map]
      exact Job.taskStatus_none.mp hst
    have hiff := status_completed_iff hsize hall
    have hsucc := hp.successes
    have hord := hp.ordered
    have hsettled : ∀ info pc, info = (if (e.job.putStatus seen).status = .completed
        then { e.info with successes := e.info.successes + 1 } else e.info) →
        info.attempts = t.begun ∧ Settled t (JobExec.goto { e with
          job := e.job.putStatus seen, info := info } pc) ∧ info.completions ≤ info.attempts := by
      rintro info pc rfl
      by_cases hc : (e.job.putStatus seen).status = .completed
      · rw [if_pos (hiff.mp hc)] at hsucc
        simp only [if_pos hc]
        exact ⟨hi.attempts, ⟨hp.completions, hsucc, hord⟩, hp.counted⟩
      · rw [if_neg (fun h => hc (hiff.mpr h))] at hsucc
        simp only [if_neg hc]
        exact ⟨hi.attempts, ⟨hp.completions, hsucc, Nat.le_of_lt hord⟩, hp.counted⟩
    obtain ⟨hattempts, hplace⟩ := hsettled _ (if e.thread.repeats then .reset 0 else .loopTest) rfl
    refine ⟨hattempts, ?_⟩
    cases hr : e.thread.repeats <;> simp only [hr] at hplace ⊢ <;> exact hplace

/-- A step of the job thread. -/
theorem Counted.jobStep (hi : Counted t e) (hsize : e.job.size ≠ 0)
    (hs : e.jobStep ok = some e') : Counted (t.after e (.job ok)) e' := by
  cases hpc : e.thread.pc with
  | «begin» => exact hi.begin hpc hs
  | head k => exact hi.head hpc hs
  | run k => exact hi.run hpc hs
  | count => exact hi.count hpc hs
  | poll k seen => exact hi.poll hsize hpc hs
  | setRunning k =>
    have hp := hi.place
    rw [hpc] at hp
    simp only [JobExec.jobStep, hpc] at hs
    simp only [Tally.after, hpc]
    split at hs <;> simp only [Option.some.injEq] at hs <;> subst hs
    · exact ⟨hi.attempts, hp.move rfl (by simp) rfl⟩
    · exact ⟨hi.attempts, hp.move rfl (by simp) rfl⟩
  | wait k | popJoin k =>
    have hp := hi.place
    rw [hpc] at hp
    simp only [JobExec.jobStep, hpc] at hs
    simp only [Tally.after, hpc]
    split at hs <;> cases hs
    exact ⟨hi.attempts, hp.move rfl rfl rfl⟩
  | popCancel k =>
    have hp := hi.place
    rw [hpc] at hp
    simp only [JobExec.jobStep, hpc, Option.some.injEq] at hs
    subst hs
    simp only [Tally.after, hpc]
    exact ⟨hi.attempts, hp.move rfl rfl rfl⟩
  | waitAll i | popAllCancel i | popAllJoin i =>
    have hp := hi.place
    rw [hpc] at hp
    simp only [JobExec.jobStep, hpc] at hs
    simp only [Tally.after, hpc]
    repeat' split at hs
    all_goals cases hs
    all_goals exact ⟨hi.attempts, hp.move rfl rfl rfl⟩
  | reset k =>
    have hp := hi.place
    rw [hpc] at hp
    simp only [JobExec.jobStep, hpc] at hs
    simp only [Tally.after, hpc]
    split at hs <;> cases hs <;>
      exact ⟨hi.attempts, ⟨hp.1.completions, hp.1.successes, hp.1.ordered⟩, hp.2⟩
  | loopTest =>
    have hp := hi.place
    rw [hpc] at hp
    simp only [JobExec.jobStep, hpc, Option.some.injEq] at hs
    subst hs
    simp only [Tally.after, hpc]
    refine ⟨hi.attempts, ?_⟩
    cases e.thread.repeats <;>
      exact ⟨⟨hp.1.completions, hp.1.successes, hp.1.ordered⟩, hp.2⟩
  | unwindCancel rest | unwindJoin rest =>
    have hp := hi.place
    rw [hpc] at hp
    simp only [JobExec.jobStep, hpc] at hs
    simp only [Tally.after, hpc]
    repeat' split at hs
    all_goals cases hs
    all_goals exact ⟨hi.attempts, ⟨hp.1.completions, hp.1.successes, hp.1.ordered⟩, hp.2⟩
  | exited => simp [JobExec.jobStep, hpc] at hs

/-- A cancellation breaks the pass. -/
theorem Counted.cancelStep (hi : Counted t e) (hs : e.cancelStep = some e') :
    Counted { t with broken := true } e' := by
  have hp := hi.place
  have hpass : ∀ n pc, InPass t e n → (pc = .exited ∨ ∃ rest, pc = .unwindCancel rest) →
      Counted { t with broken := true } (e.goto pc) := by
    rintro n pc hp (rfl | ⟨rest, rfl⟩) <;>
      exact ⟨hi.attempts, ⟨hp.completions, hp.successes, hp.ordered⟩, Nat.le_of_lt hp.counted⟩
  have hover : ∀ pc, PassOver t e → (pc = .exited ∨ ∃ rest, pc = .unwindCancel rest) →
      Counted { t with broken := true } (e.goto pc) := by
    rintro pc hp (rfl | ⟨rest, rfl⟩) <;>
      exact ⟨hi.attempts, ⟨hp.completions, hp.successes, hp.ordered⟩, Nat.le_of_lt hp.counted⟩
  simp only [JobExec.cancelStep] at hs
  split at hs
  · cases hpc : e.thread.pc with
    | run k =>
      rw [hpc] at hp
      simp only [hpc] at hs
      split at hs <;> cases hs
      · exact hpass _ _ hp (Or.inl rfl)
      · exact hpass _ _ hp (Or.inr ⟨_, rfl⟩)
    | wait k =>
      rw [hpc] at hp
      simp only [hpc, Option.some.injEq] at hs
      subst hs
      exact hpass _ _ hp (Or.inr ⟨_, rfl⟩)
    | popJoin k =>
      rw [hpc] at hp
      simp only [hpc, Option.some.injEq] at hs
      subst hs
      exact hpass _ _ hp (Or.inl rfl)
    | waitAll i =>
      rw [hpc] at hp
      simp only [hpc] at hs
      split at hs <;> cases hs
      exact hover _ hp (Or.inr ⟨_, rfl⟩)
    | popAllJoin i =>
      rw [hpc] at hp
      simp only [hpc, Option.some.injEq] at hs
      subst hs
      exact hover _ hp (Or.inl rfl)
    | _ => simp [hpc] at hs
  · cases hs

/-- A step of a task thread: the job thread is not polling then. -/
theorem Counted.taskStep {a : TaskAct} (hi : Counted t e) (ht : ThreadInv e)
    (hs : e.taskStep k a = some e') : Counted t e' := by
  have hp := hi.place
  obtain ⟨hbusy, st, phase, _, rfl⟩ := taskStep_eq hs
  refine ⟨hi.attempts, ?_⟩
  simp only [setTask_pc]
  cases hpc : e.thread.pc with
  | poll j seen =>
    have howned := ht.busyOwned k hbusy
    simp [owned, hpc] at howned
  | head j | run j | setRunning j | wait j | popCancel j | popJoin j =>
    rw [hpc] at hp
    exact hp.move rfl (by simp) rfl
  | waitAll i | popAllCancel i | popAllJoin i | count =>
    rw [hpc] at hp
    exact hp.move rfl (by simp) rfl
  | _ =>
    rw [hpc] at hp
    exact ⟨⟨hp.1.completions, hp.1.successes, hp.1.ordered⟩, hp.2⟩

theorem Counted.step {l : Label} (hi : Counted t e) (ht : ThreadInv e) (hsize : e.job.size ≠ 0)
    (hs : e.step l = some e') : Counted (t.after e l) e' := by
  cases l with
  | job ok => exact hi.jobStep hsize hs
  | cancelled => exact hi.cancelStep hs
  | task k a => exact hi.taskStep ht hs

/-- A request to cancel the thread. -/
theorem Counted.cancel (hi : Counted t e) : Counted t (JobRunner.cancel e) := by
  have hp := hi.place
  refine ⟨hi.attempts, ?_⟩
  simp only [JobRunner.cancel]
  cases hpc : e.thread.pc with
  | poll k seen =>
    rw [hpc] at hp
    exact ⟨hp.completions, hp.successes, hp.ordered, hp.counted, hp.seen⟩
  | head j | run j | setRunning j | wait j | popCancel j | popJoin j =>
    rw [hpc] at hp
    exact hp.move rfl rfl rfl
  | waitAll i | popAllCancel i | popAllJoin i | count =>
    rw [hpc] at hp
    exact hp.move rfl rfl rfl
  | _ =>
    rw [hpc] at hp
    exact ⟨⟨hp.1.completions, hp.1.successes, hp.1.ordered⟩, hp.2⟩

/-- Another thread takes the counters over. -/
theorem Counted.create (hi : Counted t e) (hpc : e.thread.pc = .exited) :
    Counted t (JobRunner.create e) := by
  have hp := hi.place
  rw [hpc] at hp
  exact ⟨hi.attempts, ⟨hp.1.completions, hp.1.successes, hp.1.ordered⟩, hp.2⟩

end Steps

end JobExec

namespace JobRunner

theorem run_counted {job : Job} {h : History JobRunner Label} {r₀ r : JobRunner}
    (hrun : jobRun job = some r₀) (hr : Run step always r₀ h r) :
    r.exec.Counted (tally h) := by
  unfold jobRun at hrun
  split at hrun
  · cases hrun
  · rename_i hsize
    cases hrun
    have hi := Run.invariant (I := fun h r => RunnerInv job r ∧ r.exec.Counted (tally h)) ?_
      (fun h r l r' hi _ hs => ?_) hr
    · exact hi.2
    · exact ⟨.start job, rfl, ⟨rfl, rfl, Nat.le_refl _⟩, Nat.le_refl _⟩
    · obtain ⟨hinv, hc⟩ := hi
      refine ⟨hinv.step hs, ?_⟩
      rcases step_cases hs with ⟨l', rfl, he⟩ | ⟨hl, he⟩
      · exact hc.step hinv.thread (hinv.size ▸ hsize) he
      · have htally : tally ((r, l) :: h) = tally h := by
          cases l with
          | thread l' => exact absurd rfl (hl l')
          | _ => rfl
        rw [htally]
        rcases he with he | he | ⟨hpc, he⟩
        · rw [he]
          exact hc
        · rw [he]
          exact hc.cancel
        · rw [he]
          exact hc.create (hinv.create hpc)

/-- In every run of a runner, with restarts and stops and cancellation at
any point: the counters are ordered after every step, and whenever a
pass is over they are the numbers of passes that have begun, that have
visited every task unbroken, and that left every task COMPLETED. -/
theorem run_counters {job : Job} {h : History JobRunner Label} {r₀ r : JobRunner}
    (hrun : jobRun job = some r₀) (hr : Run step always r₀ h r) :
    (r.exec.info.successes ≤ r.exec.info.completions ∧
      r.exec.info.completions ≤ r.exec.info.attempts) ∧
    (PassEnded r → r.exec.info.attempts = (tally h).begun ∧
      r.exec.info.completions = (tally h).completed ∧
      r.exec.info.successes = (tally h).succeeded) := by
  have hi := run_counted hrun hr
  refine ⟨hi.ordered, fun hend => ?_⟩
  have hp := hi.place
  rcases hend with hpc | hpc <;> rw [hpc] at hp <;>
    exact ⟨hi.attempts, hp.1.completions, hp.1.successes⟩

/-- The runner of `oneTask`. -/
def oneTaskRunner : JobRunner := { exec := .start oneTask, pc := .idle }

/-- The labels of one pass over a task that is started and exits with
0. -/
def passLabels : List Label :=
  List.replicate 4 (.thread (.job true)) ++
    [.thread (.task 0 .spawned), .thread (.task 0 (.finished 0))] ++
    List.replicate 7 (.thread (.job true))

/-- A restart during the wait for the task, and a pass after it. -/
def restartedInWait : List Label :=
  List.replicate 4 (Label.thread (.job true)) ++
    [Label.call .restart, .move true, .thread .cancelled, .thread (.task 0 .spawned),
      .thread (.task 0 (.finished 2))] ++
    List.replicate 3 (Label.thread (.job true)) ++ [Label.move true, .move true] ++ passLabels

theorem run_counters_restarted : ∃ h r, Run step always oneTaskRunner h r ∧ PassEnded r ∧
    r.exec.info = ⟨2, 1, 1⟩ ∧ (tally h).begun = 2 ∧ (tally h).completed = 1 ∧
      (tally h).succeeded = 1 := by
  obtain ⟨h, r, hr, hc⟩ := Run.of_check step always oneTaskRunner restartedInWait
    (fun r => r.exec.thread.pc == .loopTest && r.exec.info == ⟨2, 1, 1⟩) (by decide +kernel)
  simp only [Bool.and_eq_true, beq_iff_eq] at hc
  have hrun : jobRun oneTask = some oneTaskRunner := rfl
  obtain ⟨hbegun, hcompleted, hsucceeded⟩ := (run_counters hrun hr).2 (Or.inl hc.1)
  rw [hc.2] at hbegun hcompleted hsucceeded
  exact ⟨h, r, hr, Or.inl hc.1, hc.2, hbegun.symm, hcompleted.symm, hsucceeded.symm⟩

end JobRunner

end Pyoneer.Blueprint
