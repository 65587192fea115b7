/-
Pyoneer.Blueprint.TaskHandles — how often a job thread joins the task
threads that it creates.

The handlers of a cancelled job thread cancel and join each of its task
threads once. A `task_runner_wait` that returns has joined the thread
too, and `task_runner_destroy` joins it again; `JoinInv` is about the
runs in which none returns.
-/
import Pyoneer.Blueprint.JobThreadTheorems

namespace Pyoneer.Blueprint.JobExec

/-- The handlers run, or have run. -/
def Unwinding (e : JobExec) : Prop :=
  match e.thread.pc with
  | .unwindCancel _ | .unwindJoin _ | .exited => True
  | _ => False

/-- The points that a thread can be at when no wait has returned. -/
def NoneReturned (e : JobExec) : Prop :=
  match e.thread.pc with
  | .popCancel _ | .popJoin _ | .popAllJoin _ => False
  | .waitAll i => i = 0
  | .popAllCancel _ => e.taskRunners = []
  | _ => True

/-- Every task thread that was created is either owned and not joined, or
was joined once by a handler. -/
structure JoinInv (e : JobExec) : Prop where
  handled : ∀ k, (e.thread.tasks k).phase ≠ .none →
    (k ∈ e.owned ∧ (e.thread.tasks k).joins = 0) ∨
    (k ∉ e.owned ∧ (e.thread.tasks k).joins = 1 ∧ e.Unwinding)
  place : e.NoneReturned

theorem JoinInv.fresh {e : JobExec} {opts : JobOpts} (h : e.thread = .start opts) :
    JoinInv e := by
  constructor <;> simp [NoneReturned, h, JobThread.start]

variable {e e' : JobExec} {k : Nat} {ok : Bool} {l : Label}

/-- A step that neither creates nor joins. -/
theorem JoinInv.move (hi : JoinInv e)
    (hphase : ∀ k, (e'.thread.tasks k).phase = .none ↔ (e.thread.tasks k).phase = .none)
    (hjoins : ∀ k, (e'.thread.tasks k).joins = (e.thread.tasks k).joins)
    (howned : ∀ k, k ∈ e'.owned ↔ k ∈ e.owned) (hun : e.Unwinding → e'.Unwinding)
    (hplace : e'.NoneReturned) : JoinInv e' := by
  refine ⟨fun k hk => ?_, hplace⟩
  rw [howned, hjoins]
  refine (hi.handled k fun h => hk ((hphase k).mpr h)).imp_right ?_
  rintro ⟨h1, h2, h3⟩
  exact ⟨h1, h2, hun h3⟩

theorem JoinInv.leaveLoop (hi : JoinInv e) (ht : ThreadInv e)
    (hpc : e.thread.pc = .head k ∨ e.thread.pc = .run k)
    (htasks : e'.thread.tasks = e.thread.tasks) (hrunners : e'.taskRunners = e.taskRunners)
    (hpc' : e'.thread.pc = afterLoop e.job.opts.execMode) : JoinInv e' := by
  have hb : e.thread.pc ≠ .begin := by rcases hpc with h | h <;> simp [h]
  have howned : e.owned = e.taskRunners := by rcases hpc with h | h <;> simp [owned, h]
  refine hi.move (by simp [htasks]) (by simp [htasks]) ?_ ?_ ?_
  · intro j
    rw [howned]
    cases hm : e.job.opts.execMode with
    | sequential => simp [owned, hpc', hm, afterLoop, ht.sequential hb hm]
    | parallel => simp [owned, hpc', hm, afterLoop, hrunners]
  · rcases hpc with h | h <;> simp [Unwinding, h]
  · cases hm : e.job.opts.execMode <;> simp [NoneReturned, hpc', hm, afterLoop]

/-- A step at a point where nothing is owned and no handler runs. -/
theorem JoinInv.idle (hi : JoinInv e) (howned : e.owned = []) (hun : ¬ e.Unwinding)
    (hphase : ∀ k, (e'.thread.tasks k).phase = .none ↔ (e.thread.tasks k).phase = .none)
    (hplace : e'.NoneReturned) : JoinInv e' := by
  refine ⟨fun k hk => ?_, hplace⟩
  rcases hi.handled k fun h => hk ((hphase k).mpr h) with ⟨hm, _⟩ | ⟨_, _, hu⟩
  · simp [howned] at hm
  · exact absurd hu hun

theorem JoinInv.run (hi : JoinInv e) (ht : ThreadInv e) (hpc : e.thread.pc = .run k)
    (hs : e.jobStep ok = some e') : JoinInv e' := by
  cases ok with
  | false =>
    simp only [JobExec.jobStep, hpc, Bool.false_eq_true, if_false, Option.some.injEq] at hs
    subst hs
    exact hi.leaveLoop ht (Or.inr hpc) rfl rfl rfl
  | true =>
    simp only [JobExec.jobStep, hpc, if_true, Option.some.injEq] at hs
    subst hs
    refine ⟨fun j hj => Or.inl ?_, trivial⟩
    simp only [owned, goto_pc, goto_taskRunners, setTask_taskRunners, List.mem_cons]
    by_cases hjk : j = k
    · simp [hjk]
    · have hold := hi.handled j (by simpa [hjk] using hj)
      simpa [owned, hpc, Unwinding, hjk] using hold

/-- The next handler joins its task thread. -/
theorem JoinInv.unwindJoin {rest : List Nat} (hi : JoinInv e) (ht : ThreadInv e)
    (hpc : e.thread.pc = .unwindJoin (k :: rest)) :
    JoinInv ((e.joinTask k).goto (.unwindCancel rest)) := by
  have hnodup : k ∉ rest := by
    have := ht.ownedNodup
    simp only [owned, hpc, List.nodup_cons] at this
    exact this.1
  refine ⟨fun j hj => ?_, trivial⟩
  have hold := hi.handled j (by simpa using hj)
  simp only [owned, hpc, List.mem_cons] at hold
  simp only [owned, goto_pc, goto_tasks, joinTask, setTask_tasks]
  by_cases hjk : j = k
  · subst hjk
    have hzero : (e.thread.tasks j).joins = 0 := by
      rcases hold with ⟨_, hz⟩ | ⟨hn, _⟩
      · exact hz
      · exact absurd (Or.inl rfl) hn
    exact Or.inr ⟨hnodup, by simp [hzero], trivial⟩
  · simpa [hjk, Unwinding, hpc] using hold

theorem JoinInv.jobStep (hi : JoinInv e) (ht : ThreadInv e)
    (hok : e.waitReturns (.job ok) = false) (hs : e.jobStep ok = some e') : JoinInv e' := by
  have hplace := hi.place
  cases hpc : e.thread.pc with
  | run k => exact hi.run ht hpc hs
  | head k =>
    simp only [JobExec.jobStep, hpc] at hs
    split at hs <;> simp only [Option.some.injEq] at hs <;> subst hs
    · exact hi.leaveLoop ht (Or.inl hpc) rfl rfl rfl
    · exact hi.move (by simp) (by simp) (by simp [owned, hpc]) (by simp [Unwinding, hpc]) trivial
    · exact hi.move (by simp) (by simp) (by simp [owned, hpc]) (by simp [Unwinding, hpc]) trivial
    · exact hi.leaveLoop ht (Or.inl hpc) rfl rfl rfl
    · exact hi.leaveLoop ht (Or.inl hpc) rfl rfl rfl
    · exact hi.move (by simp) (by simp) (by simp [owned, hpc]) (by simp [Unwinding, hpc]) trivial
  | setRunning k =>
    have hb : e.thread.pc ≠ .begin := by simp [hpc]
    simp only [JobExec.jobStep, hpc] at hs
    cases hm : e.job.opts.execMode with
    | sequential =>
      simp only [hm, Option.some.injEq] at hs
      subst hs
      exact hi.move (by simp) (by simp) (by simp [owned, hpc, ht.sequential hb hm])
        (by simp [Unwinding, hpc]) trivial
    | parallel =>
      simp only [hm, Option.some.injEq] at hs
      subst hs
      exact hi.move (by simp) (by simp) (by simp [owned, hpc, or_comm])
        (by simp [Unwinding, hpc]) trivial
  | wait k => simp [waitReturns, hpc] at hok
  | popCancel k | popJoin k | popAllJoin k => simp [NoneReturned, hpc] at hplace
  | waitAll i =>
    obtain rfl : i = 0 := by simpa [NoneReturned, hpc] using hplace
    have hnil : e.taskRunners = [] := by simpa [waitReturns, hpc] using hok
    simp only [JobExec.jobStep, hpc, hnil, List.getElem?_nil, Option.some.injEq] at hs
    subst hs
    exact hi.idle (by simp [owned, hpc, hnil]) (by simp [Unwinding, hpc]) (by simp) hnil
  | popAllCancel i =>
    have hnil : e.taskRunners = [] := by simpa [NoneReturned, hpc] using hplace
    simp only [JobExec.jobStep, hpc, hnil, List.getElem?_nil, Option.some.injEq] at hs
    subst hs
    exact hi.idle (by simp [owned, hpc]) (by simp [Unwinding, hpc]) (by simp) trivial
  | unwindCancel rest =>
    simp only [JobExec.jobStep, hpc] at hs
    split at hs <;> simp only [Option.some.injEq] at hs <;> subst hs
    · exact hi.move (by simp) (by simp) (by simp [owned, hpc]) (by simp [Unwinding]) trivial
    · exact hi.move (by simp) (by simp) (by simp [owned, hpc]) (by simp [Unwinding]) trivial
  | unwindJoin rest =>
    simp only [JobExec.jobStep, hpc] at hs
    split at hs
    · cases hs
    · split at hs
      · simp only [Option.some.injEq] at hs
        subst hs
        exact hi.unwindJoin ht hpc
      · cases hs
  | exited => simp [JobExec.jobStep, hpc] at hs
  | poll k seen =>
    have howned : e.owned = [] := by simp [owned, hpc]
    simp only [JobExec.jobStep, hpc] at hs
    split at hs <;> simp only [Option.some.injEq] at hs <;> subst hs
    · exact hi.idle howned (by simp [Unwinding, hpc]) (by simp) trivial
    · refine hi.idle howned (by simp [Unwinding, hpc]) (by simp) ?_
      cases e.thread.repeats <;> exact trivial
  | loopTest =>
    simp only [JobExec.jobStep, hpc, Option.some.injEq] at hs
    subst hs
    refine hi.idle (by simp [owned, hpc]) (by simp [Unwinding, hpc]) (by simp) ?_
    cases e.thread.repeats <;> exact trivial
  | _ =>
    have howned : e.owned = [] := by simp [owned, hpc]
    simp only [JobExec.jobStep, hpc] at hs
    repeat' split at hs
    all_goals simp only [Option.some.injEq] at hs
    all_goals subst hs
    all_goals exact hi.idle howned (by simp [Unwinding, hpc]) (by simp) trivial

theorem JoinInv.cancelStep (hi : JoinInv e) (ht : ThreadInv e) (hs : e.cancelStep = some e') :
    JoinInv e' := by
  have hplace := hi.place
  simp only [JobExec.cancelStep] at hs
  split at hs
  · cases hpc : e.thread.pc with
    | run k =>
      simp only [hpc] at hs
      cases hm : e.job.opts.execMode with
      | sequential =>
        simp only [hm, Option.some.injEq] at hs
        subst hs
        exact hi.move (by simp) (by simp)
          (by simp [owned, hpc, ht.sequential (by simp [hpc]) hm]) (by simp [Unwinding]) trivial
      | parallel =>
        simp only [hm, Option.some.injEq] at hs
        subst hs
        exact hi.move (by simp) (by simp) (by simp [owned, hpc]) (by simp [Unwinding]) trivial
    | wait k =>
      simp only [hpc, Option.some.injEq] at hs
      subst hs
      exact hi.move (by simp) (by simp) (by simp [owned, hpc]) (by simp [Unwinding]) trivial
    | waitAll i =>
      obtain rfl : i = 0 := by simpa [NoneReturned, hpc] using hplace
      simp only [hpc] at hs
      split at hs
      · simp only [Option.some.injEq] at hs
        subst hs
        exact hi.move (by simp) (by simp) (by simp [owned, hpc]) (by simp [Unwinding]) trivial
      · cases hs
    | popJoin k | popAllJoin k => simp [NoneReturned, hpc] at hplace
    | _ => simp [hpc] at hs
  · cases hs

theorem JoinInv.taskStep {a : TaskAct} (hi : JoinInv e) (hs : e.taskStep k a = some e') :
    JoinInv e' := by
  obtain ⟨hbusy, st, phase, hphase, rfl⟩ := taskStep_eq hs
  refine hi.move (fun j => ?_) (fun j => ?_) (fun j => Iff.rfl) id hi.place
  · by_cases hjk : j = k
    · subst hjk
      rcases hphase with ⟨rfl, _⟩ | rfl <;> rcases hbusy with hb | hb <;> simp [hb]
    · simp [hjk]
  · by_cases hjk : j = k
    · subst hjk
      simp
    · simp [hjk]

/-- As long as no `task_runner_wait` returns, the invariant holds. -/
theorem JoinInv.step (hi : JoinInv e) (ht : ThreadInv e) (hok : e.waitReturns l = false)
    (hs : e.step l = some e') : JoinInv e' := by
  cases l with
  | job ok => exact hi.jobStep ht hok hs
  | cancelled => exact hi.cancelStep ht hs
  | task k a => exact hi.taskStep hs

/-- A thread that has exited no longer looks at the array. -/
theorem JoinInv.congr (hi : JoinInv e) (hpc : e'.thread.pc = e.thread.pc)
    (htasks : e'.thread.tasks = e.thread.tasks)
    (hruns : e.thread.pc = .exited ∨ e'.taskRunners = e.taskRunners) : JoinInv e' := by
  rcases hruns with hx | hruns
  · refine hi.move (by simp [htasks]) (by simp [htasks]) (by simp [owned, hpc, hx]) ?_ ?_
    · simp [Unwinding, hpc, hx]
    · simp [NoneReturned, hpc, hx]
  · refine hi.move (by simp [htasks]) (by simp [htasks]) (by simp [owned, hpc, hruns]) ?_ ?_
    · simp [Unwinding, hpc]
    · simpa [NoneReturned, hpc, hruns] using hi.place

/-- A handle that the thread uses is that of a task thread not joined
yet. -/
theorem JoinInv.usesTask (hi : JoinInv e) (ht : ThreadInv e) (hk : e.usesTask = some k) :
    (e.thread.tasks k).phase ≠ .none ∧ (e.thread.tasks k).joins = 0 := by
  have hplace := hi.place
  have howned : k ∈ e.owned := by
    cases hpc : e.thread.pc with
    | waitAll i =>
      obtain rfl : i = 0 := by simpa [NoneReturned, hpc] using hplace
      simp only [JobExec.usesTask, hpc] at hk
      simpa [owned, hpc] using List.mem_of_getElem? hk
    | popAllCancel i =>
      have hnil : e.taskRunners = [] := by simpa [NoneReturned, hpc] using hplace
      simp [JobExec.usesTask, hpc, hnil] at hk
    | popCancel k | popJoin k | popAllJoin k => simp [NoneReturned, hpc] at hplace
    | unwindCancel rest | unwindJoin rest =>
      cases rest with
      | nil => simp [JobExec.usesTask, hpc] at hk
      | cons j rest =>
        obtain rfl : j = k := by simpa [JobExec.usesTask, hpc] using hk
        simp [owned, hpc]
    | wait j =>
      obtain rfl : j = k := by simpa [JobExec.usesTask, hpc] using hk
      simp [owned, hpc]
    | _ => simp [JobExec.usesTask, hpc] at hk
  have hne := (ht.inRange k howned).2
  refine ⟨hne, ?_⟩
  rcases hi.handled k hne with ⟨_, hz⟩ | ⟨hn, _⟩
  · exact hz
  · exact absurd howned hn

end Pyoneer.Blueprint.JobExec
