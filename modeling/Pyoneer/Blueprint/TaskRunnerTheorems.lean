/-
Pyoneer.Blueprint.TaskRunnerTheorems — what one execution of a task
leaves in `task->status`.

`ExecInv` follows one execution: it says which wait status the thread
holds at each point, and, once the thread has exited, that the task has
the outcome of that wait status unless `task_run`'s own `TASK_RUNNING`
write came later. `run_status_iff` reads the result off it: the final
status is the one the wait status determines exactly when the write of
`task_run` came before `update_status`.
-/
import Pyoneer.Blueprint.TaskRunner

namespace Pyoneer.Blueprint.TaskRunner

open Pyoneer.Lib

@[simp] theorem lastReap_reap (s : State) (ws : WaitStatus) (h : History State Label) :
    lastReap ((s, .reap ws) :: h) = some ws := rfl

theorem lastReap_cons {s : State} {l : Label} {h : History State Label}
    (hl : ∀ ws, l ≠ .reap ws) : lastReap ((s, l) :: h) = lastReap h := by
  cases l with
  | reap ws => exact absurd rfl (hl ws)
  | _ => rfl

/-- A step other than the caller's `TASK_RUNNING` write does not matter
to the order of the two writes. -/
theorem runningWriteFirst_cons {s : State} {l : Label} {h : History State Label}
    (hl : l = .caller → s.caller = .setRunning → s.thread ≠ some .exited) :
    RunningWriteFirst ((s, l) :: h) ↔ RunningWriteFirst h := by
  constructor
  · intro hw t ht
    exact hw t (List.mem_cons_of_mem _ ht)
  · intro hw t ht hc
    rcases List.mem_cons.mp ht with heq | ht
    · obtain ⟨rfl, rfl⟩ := Prod.mk.injEq .. ▸ heq
      exact hl rfl hc
    · exact hw t ht hc

/-- The invariant of one execution.

* `fresh` — there is no thread before `pthread_create`;
* `child` — the pid in `task_tid` is the unreaped child's while the
  thread works with it;
* `early` — before the thread exits, no `TASK_RUNNING` write was late;
* `inHand` — the wait status in hand is the one `waitpid` gave;
* `done` — the thread has exited: it had a wait status, and the task has
  its outcome unless `task_run` wrote later. -/
structure ExecInv (h : History State Label) (s : State) : Prop where
  fresh : s.caller = .create true ∨ s.caller = .failed → s.thread = none ∧ s.joined = false
  noRestart : s.caller ≠ .create false ∧ s.caller ≠ .cancel true ∧ s.caller ≠ .join true
  child : s.thread = some .setRunning ∨ s.thread = some .waitpid ∨
    s.thread = some .handlerKill ∨ s.thread = some .handlerWait → s.child = some s.taskTid
  early : s.thread ≠ some .exited → RunningWriteFirst h
  inHand : ∀ ws, s.thread = some (.update ws) → lastReap h = some ws ∧ Terminated ws
  done : s.thread = some .exited → ∃ ws, lastReap h = some ws ∧
    (s.caller = .setRunning → RunningWriteFirst h) ∧
    (RunningWriteFirst h → s.status = waitOutcome ws) ∧
    (¬ RunningWriteFirst h → s.status = .running)
  joined : s.joined = true → s.thread = some .exited ∧ s.caller ≠ .setRunning

theorem ExecInv.initial (st : TaskStatus) (tid : Nat) :
    ExecInv [] (initial st tid) := by
  constructor <;> simp [TaskRunner.initial, RunningWriteFirst]

/-- A step that neither moves the thread nor writes the status: only the
conditions on the caller are left to show. -/
theorem ExecInv.frame {h : History State Label} {s s' : State} {l : Label}
    (hi : ExecInv h s) (hl : ∀ ws, l ≠ .reap ws)
    (hlc : l = .caller → s.caller ≠ .setRunning)
    (hthread : s'.thread = s.thread) (hstatus : s'.status = s.status)
    (hchild : s'.child = s.child) (htid : s'.taskTid = s.taskTid)
    (hfresh : s'.caller = .create true ∨ s'.caller = .failed →
      s'.thread = none ∧ s'.joined = false)
    (hcaller : s'.caller ≠ .create false ∧ s'.caller ≠ .cancel true ∧ s'.caller ≠ .join true)
    (hset : s'.caller ≠ .setRunning)
    (hjoined : s'.joined = true → s'.thread = some .exited) :
    ExecInv ((s, l) :: h) s' := by
  have hw := runningWriteFirst_cons (h := h) fun hc hp => absurd hp (hlc hc)
  have hr := lastReap_cons (s := s) (h := h) hl
  refine ⟨hfresh, hcaller, ?_, ?_, ?_, ?_, fun hj => ⟨hjoined hj, hset⟩⟩
  · rw [hthread, hchild, htid]
    exact hi.child
  · rw [hthread]
    exact fun hx => hw.mpr (hi.early hx)
  · intro ws hws
    rw [hr]
    exact hi.inHand ws (hthread ▸ hws)
  · intro hx
    obtain ⟨ws, h1, _, h2, h3⟩ := hi.done (hthread ▸ hx)
    rw [hr, hstatus]
    exact ⟨ws, h1, fun hc => absurd hc hset, fun h' => h2 (hw.mp h'),
      fun h' => h3 fun hh => h' (hw.mpr hh)⟩

/-- `task_run`'s `TASK_RUNNING` write: the one step that can be late. -/
theorem ExecInv.setRunning {h : History State Label} {s : State} (hi : ExecInv h s)
    (hp : s.caller = .setRunning) :
    ExecInv ((s, .caller) :: h) { s with status := .running, caller := .idle } := by
  have hr := lastReap_cons (s := s) (l := .caller) (h := h) (by simp)
  by_cases hx : s.thread = some .exited
  · obtain ⟨ws, hl, _, _, _⟩ := hi.done hx
    have hlate : ¬ RunningWriteFirst ((s, .caller) :: h) :=
      fun hw => hw s List.mem_cons_self hp hx
    refine ⟨by simp, by simp, hi.child, fun hne => absurd hx hne, by simp [hx], fun _ => ?_,
      fun _ => ⟨hx, by simp⟩⟩
    exact ⟨ws, hr ▸ hl, by simp, fun hw => absurd hw hlate, fun _ => rfl⟩
  · have hw : RunningWriteFirst ((s, .caller) :: h) :=
      (runningWriteFirst_cons fun _ _ => hx).mpr (hi.early hx)
    refine ⟨by simp, by simp, hi.child, fun _ => hw, ?_, fun hx' => absurd hx' hx, ?_⟩
    · intro ws hws
      rw [hr]
      exact hi.inHand ws hws
    · intro hj
      exact absurd (hi.joined hj).1 hx

theorem ExecInv.caller_step {h : History State Label} {s s' : State} (hi : ExecInv h s)
    (hs : step s .caller = some s') : ExecInv ((s, .caller) :: h) s' := by
  cases hp : s.caller with
  | setRunning =>
    simp only [step, hp, Option.some.injEq] at hs
    subst hs
    exact hi.setRunning hp
  | cancel b =>
    simp only [step, hp, Option.some.injEq] at hs
    subst hs
    have hb : b ≠ true := fun hb => hi.noRestart.2.1 (hb ▸ hp)
    exact hi.frame (by simp) (by simp [hp]) rfl rfl rfl rfl (by simp) (by simpa using hb)
      (by simp) fun hj => (hi.joined hj).1
  | join b =>
    have hb : b = false := eq_false_of_ne_true fun hb => hi.noRestart.2.2 (hb ▸ hp)
    subst hb
    simp only [step, hp] at hs
    split at hs
    · rename_i hx
      simp only [Option.some.injEq] at hs
      subst hs
      exact hi.frame (by simp) (by simp [hp]) rfl rfl rfl rfl (by simp) (by simp) (by simp)
        fun _ => hx
    · cases hs
  | create b => simp [step, hp] at hs
  | failed => simp [step, hp] at hs
  | idle => simp [step, hp] at hs

/-- `pthread_create` in `task_run`. -/
theorem ExecInv.create_step {h : History State Label} {s s' : State} {ok : Bool}
    (hi : ExecInv h s) (hs : step s (.create ok) = some s') :
    ExecInv ((s, .create ok) :: h) s' := by
  cases hp : s.caller with
  | create fresh =>
    have hfresh : fresh = true := eq_true_of_ne_false fun hb => hi.noRestart.1 (hb ▸ hp)
    subst hfresh
    obtain ⟨hnone, hnj⟩ := hi.fresh (Or.inl hp)
    cases ok with
    | true =>
      simp only [step, hp, Option.some.injEq] at hs
      subst hs
      have hw := hi.early (by simp [hnone])
      refine ⟨by simp, by simp, by simp, fun _ => ?_, by simp, by simp, by simp⟩
      exact (runningWriteFirst_cons (by simp)).mpr hw
    | false =>
      simp only [step, hp, Option.some.injEq] at hs
      subst hs
      exact hi.frame (by simp) (by simp) rfl rfl rfl rfl (fun _ => ⟨hnone, hnj⟩) (by simp)
        (by simp) (by simp [hnj])
  | setRunning => simp [step, hp] at hs
  | cancel b => simp [step, hp] at hs
  | join b => simp [step, hp] at hs
  | failed => simp [step, hp] at hs
  | idle => simp [step, hp] at hs

/-- A step of the task thread that leaves it before its exit: the
thread has a child to work with, and nothing was late. -/
theorem ExecInv.advance {h : History State Label} {s s' : State} {l : Label}
    (hi : ExecInv h s) (hl : l ≠ .caller) (hx : s.thread ≠ some .exited)
    (hsome : s.thread ≠ none) (hcaller : s'.caller = s.caller) (hjoined : s'.joined = s.joined)
    (hx' : s'.thread ≠ some .exited)
    (hchild : s'.thread = some .setRunning ∨ s'.thread = some .waitpid ∨
      s'.thread = some .handlerKill ∨ s'.thread = some .handlerWait →
      s'.child = some s'.taskTid)
    (hhand : ∀ ws, s'.thread = some (.update ws) →
      lastReap ((s, l) :: h) = some ws ∧ Terminated ws) :
    ExecInv ((s, l) :: h) s' := by
  refine ⟨?_, hcaller ▸ hi.noRestart, hchild, fun _ => ?_, hhand, fun h' => absurd h' hx', ?_⟩
  · rw [hcaller]
    exact fun hf => absurd (hi.fresh hf).1 hsome
  · exact (runningWriteFirst_cons fun hc => absurd hc hl).mpr (hi.early hx)
  · rw [hjoined]
    exact fun hj => absurd (hi.joined hj).1 hx

theorem ExecInv.thread_step {h : History State Label} {s s' : State} (hi : ExecInv h s)
    (hs : step s .thread = some s') : ExecInv ((s, .thread) :: h) s' := by
  have hr := lastReap_cons (s := s) (l := .thread) (h := h) (by simp)
  match hp : s.thread with
  | some .setRunning =>
    simp only [step, hp, Option.some.injEq] at hs
    subst hs
    exact hi.advance (by simp) (by simp [hp]) (by simp [hp]) rfl rfl (by simp)
      (fun _ => hi.child (Or.inl hp)) (by simp)
  | some .handlerKill =>
    simp only [step, hp, Option.some.injEq] at hs
    subst hs
    exact hi.advance (by simp) (by simp [hp]) (by simp [hp]) rfl rfl (by simp)
      (fun _ => hi.child (by simp [hp])) (by simp)
  | some (.update ws) =>
    simp only [step, hp, Option.some.injEq] at hs
    subst hs
    obtain ⟨hl, ht⟩ := hi.inHand ws hp
    have hw : RunningWriteFirst ((s, .thread) :: h) :=
      (runningWriteFirst_cons (by simp)).mpr (hi.early (by simp [hp]))
    have hout : (updateStatus s.info s.status ws).2 = waitOutcome ws := by
      rw [updateStatus_snd, if_pos ht]
    refine ⟨?_, hi.noRestart, by simp, by simp, by simp, fun _ => ?_, ?_⟩
    · intro hf
      exact absurd (hi.fresh hf).1 (by simp [hp])
    · exact ⟨ws, hr ▸ hl, fun _ => hw, fun _ => hout, fun hn => absurd hw hn⟩
    · intro hj
      exact absurd (hi.joined hj).1 (by simp [hp])
  | none | some .spawn | some .waitpid | some .handlerWait | some .exited =>
    simp [step, hp] at hs

/-- `waitpid` returns: with the child unreaped, the status is final. -/
theorem ExecInv.reap_step {h : History State Label} {s s' : State} {ws : WaitStatus}
    (hi : ExecInv h s) (hs : step s (.reap ws) = some s') :
    ExecInv ((s, .reap ws) :: h) s' := by
  simp only [step] at hs
  split at hs
  · rename_i hp
    have hc : s.child = some s.taskTid := hi.child (by
      rcases hp with hp | hp <;> simp [hp])
    rw [waitChild, if_pos hc] at hs
    split at hs
    · rename_i ht
      simp only [Option.some.injEq] at hs
      subst hs
      refine hi.advance (by simp) ?_ ?_ rfl rfl (by simp) (by simp) ?_
      · rcases hp with hp | hp <;> simp [hp]
      · rcases hp with hp | hp <;> simp [hp]
      · intro w hw
        obtain rfl : ws = w := by simpa using hw
        exact ⟨rfl, ht⟩
    · cases hs
  · cases hs

/-- Every step of one execution keeps the invariant. -/
theorem ExecInv.step {h : History State Label} {s s' : State} {l : Label} (hi : ExecInv h s)
    (hok : oneExecution h s l) (hs : step s l = some s') : ExecInv ((s, l) :: h) s' := by
  cases l with
  | create ok => exact hi.create_step hs
  | caller => exact hi.caller_step hs
  | thread => exact hi.thread_step hs
  | reap ws => exact hi.reap_step hs
  | restart => exact absurd hok id
  | wait =>
    simp only [TaskRunner.step] at hs
    split at hs
    · simp only [Option.some.injEq] at hs
      subst hs
      exact hi.frame (by simp) (by simp) rfl rfl rfl rfl (by simp) (by simp) (by simp)
        fun hj => (hi.joined hj).1
    · cases hs
  | stop =>
    simp only [TaskRunner.step] at hs
    split at hs
    · simp only [Option.some.injEq] at hs
      subst hs
      exact hi.frame (by simp) (by simp) rfl rfl rfl rfl (by simp) (by simp) (by simp)
        fun hj => (hi.joined hj).1
    · cases hs
  | spawn rc pid =>
    have hrc : rc = 0 := hok
    subst hrc
    simp only [TaskRunner.step] at hs
    split at hs
    · rename_i hp
      simp only [show ¬ (0 : Int) = -1 by decide, if_false, if_true, Option.some.injEq] at hs
      subst hs
      exact hi.advance (by simp) (by simp [hp]) (by simp [hp]) rfl rfl (by simp) (by simp)
        (by simp)
    · cases hs
  | cancelled =>
    simp only [TaskRunner.step] at hs
    split at hs
    · rename_i hp
      simp only [Option.some.injEq] at hs
      subst hs
      exact hi.advance (by simp) (by simp [hp.1]) (by simp [hp.1]) rfl rfl (by simp)
        (fun _ => hi.child (by simp [hp.1])) (by simp)
    · cases hs

/-- The invariant along every run of one execution. -/
theorem run_execInv {st : TaskStatus} {tid : Nat} {h : History State Label} {s : State}
    (hr : Run step oneExecution (initial st tid) h s) : ExecInv h s :=
  Run.invariant (ExecInv.initial st tid) (fun _ _ _ _ hi hok hs => hi.step hok hs) hr

/-! ## The final status -/

/-- **The status after the join.** In every interleaving of one
execution of a task, with or without a `task_runner_stop`, once the task
thread is joined the task has the status that its last wait status
determines, and not `TASK_RUNNING`, exactly when `task_run` wrote
`TASK_RUNNING` before the thread executed its `update_status`. -/
theorem run_status_iff {st : TaskStatus} {tid : Nat} {h : History State Label} {s : State}
    (hr : Run step oneExecution (initial st tid) h s) (hj : s.joined = true) :
    (∃ ws, lastReap h = some ws ∧ s.status = waitOutcome ws ∧ s.status ≠ .running) ↔
      RunningWriteFirst h := by
  have hi := run_execInv hr
  obtain ⟨hx, _⟩ := hi.joined hj
  obtain ⟨ws, hl, _, hfirst, hlate⟩ := hi.done hx
  constructor
  · rintro ⟨_, _, _, hne⟩
    by_contra hw
    exact hne (hlate hw)
  · intro hw
    refine ⟨ws, hl, hfirst hw, ?_⟩
    rw [hfirst hw]
    exact waitOutcome_ne_running ws

/-- A run of `task_run` and `task_runner_stop` in the good order: the
child is interrupted and the task ends INCOMPLETE. -/
def stoppedRun : List Label :=
  [.create true, .caller, .spawn 0 7, .thread, .stop, .caller, .cancelled, .thread,
    .reap 2, .thread, .caller]

theorem run_status_iff_stoppedRun : ∃ h s,
    Run step oneExecution (initial .ready 0) h s ∧ s.joined = true ∧
      ((∃ ws, lastReap h = some ws ∧ s.status = waitOutcome ws ∧ s.status ≠ .running) ↔
        RunningWriteFirst h) :=
  ⟨_, _, Run.of_replay stoppedRun rfl, rfl,
    run_status_iff (Run.of_replay stoppedRun rfl) rfl⟩

/-- The script exits with code 0 before `task_run` gets to its
`TASK_RUNNING` write. -/
def lostUpdateRun : List Label :=
  [.create true, .spawn 0 7, .thread, .reap 0, .thread, .caller, .wait, .caller]

/-- **A lost update.** A task whose child exited with code 0 stays
RUNNING after the join. -/
theorem run_status_lost_update : ∃ h s,
    Run step oneExecution (initial .ready 0) h s ∧ s.joined = true ∧ lastReap h = some 0 ∧
      waitOutcome 0 = .completed ∧ s.status = .running :=
  ⟨_, _, Run.of_replay lostUpdateRun rfl, rfl, rfl, rfl, rfl⟩

end Pyoneer.Blueprint.TaskRunner
