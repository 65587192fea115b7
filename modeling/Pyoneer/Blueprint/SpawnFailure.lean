/-
Pyoneer.Blueprint.SpawnFailure — a task whose process cannot be created.

`posix_spawn` returns an error NUMBER, and `task_runner_thread` compares
its result with -1, so no failure is ever noticed. The thread goes on
with whatever `task_tid` holds: it waits for that pid, its handler kills
it, and `update_status` reads a wait status that nothing wrote.

The functions of the history below say which child there really is:
`unreaped` is the child that the last `posix_spawn` created, as long as
no `waitpid` has returned for it, and `reaped` the status that came back
for it. `SpawnSafe` is what a handled failure would give. All of it
holds in an execution whose spawn succeeded, over any sequence of
restarts, stops and waits; a failed spawn can break each part.
-/
import Pyoneer.Blueprint.TaskRunner

namespace Pyoneer.Blueprint.TaskRunner

open Pyoneer.Lib

/-! ## What the history says -/

/-- The result of the last `posix_spawn`. -/
def lastSpawn : History State Label → Option Int
  | [] => none
  | (_, .spawn rc _) :: _ => some rc
  | _ :: h => lastSpawn h

/-- The child that the last `posix_spawn` created and that was not waited
for. -/
def unreaped : History State Label → Option Nat
  | [] => none
  | (_, .spawn rc pid) :: _ => if rc = 0 then some pid else none
  | (t, .reap _) :: h => if unreaped h = some t.taskTid then none else unreaped h
  | _ :: h => unreaped h

/-- The status that `waitpid` returned last, if it was for the child of
the last `posix_spawn`. -/
def reaped : History State Label → Option WaitStatus
  | [] => none
  | (_, .spawn _ _) :: _ => none
  | (t, .reap ws) :: h => if unreaped h = some t.taskTid then some ws else none
  | _ :: h => reaped h

/-- The task thread, or its handler, is about to call `kill` or
`waitpid`. -/
def callsOnPid (s : State) : Prop :=
  s.thread = some .waitpid ∨ s.thread = some .handlerKill ∨ s.thread = some .handlerWait

/-- A failed spawn is handled.

* `calls` — `kill` and `waitpid` are called with the pid of a child of
  this execution;
* `completed` — a task becomes COMPLETED when such a child has exited
  with code 0;
* `joined` — after a failed spawn the joined task is not RUNNING. -/
structure SpawnSafe (h : History State Label) (s : State) : Prop where
  calls : callsOnPid s → unreaped h = some s.taskTid
  completed : ∀ l s', step s l = some s' → s.status ≠ .completed → s'.status = .completed →
    ∃ ws, reaped h = some ws ∧ wifexited ws = true ∧ wexitstatus ws = 0
  joined : ∀ rc, lastSpawn h = some rc → rc ≠ 0 → s.joined = true → s.status ≠ .running

/-- What POSIX says of `posix_spawn`: 0, or an error number. -/
def posixSpawn : History State Label → State → Label → Prop
  | _, _, .spawn rc _ => 0 ≤ rc
  | _, _, _ => True

instance : ∀ h s l, Decidable (posixSpawn h s l)
  | _, _, .spawn rc _ => inferInstanceAs (Decidable (0 ≤ rc))
  | _, _, .create _ | _, _, .caller | _, _, .wait | _, _, .stop | _, _, .restart
  | _, _, .thread | _, _, .cancelled | _, _, .reap _ => inferInstanceAs (Decidable True)

/-! ## Steps -/

variable {h : History State Label} {s s' : State} {l : Label}

/-- A step that is neither a `posix_spawn` nor the return of a
`waitpid`. -/
def Label.Quiet : Label → Prop
  | .spawn _ _ | .reap _ => False
  | _ => True

theorem lastSpawn_quiet (hl : l.Quiet) : lastSpawn ((s, l) :: h) = lastSpawn h := by
  cases l with
  | spawn _ _ | reap _ => exact absurd hl id
  | _ => rfl

theorem unreaped_quiet (hl : l.Quiet) : unreaped ((s, l) :: h) = unreaped h := by
  cases l with
  | spawn _ _ | reap _ => exact absurd hl id
  | _ => rfl

theorem reaped_quiet (hl : l.Quiet) : reaped ((s, l) :: h) = reaped h := by
  cases l with
  | spawn _ _ | reap _ => exact absurd hl id
  | _ => rfl

/-- What a step does to the thread, the child and the status. -/
inductive Moves (s : State) : Label → State → Prop where
  | caller {l : Label} {s' : State} (hl : l.Quiet) (hchild : s'.child = s.child)
      (htid : s'.taskTid = s.taskTid) (hthread : s'.thread = s.thread ∨ s'.thread = some .spawn)
      (hst : s'.status = s.status ∨ s'.status = .running) : Moves s l s'
  | spawned {rc : Int} {pid : Nat} (hrc : rc ≠ -1) :
      Moves s (.spawn rc pid)
        { s with
          taskTid := pid
          child := if rc = 0 then some pid else none
          thread := some .setRunning }
  | noSpawn {pid : Nat} : Moves s (.spawn (-1) pid) { s with thread := some .exited }
  | setRunning (hp : s.thread = some .setRunning) :
      Moves s .thread { s with status := .running, thread := some .waitpid }
  | kill (hp : s.thread = some .handlerKill) :
      Moves s .thread { s with thread := some .handlerWait }
  | update {ws : WaitStatus} (hp : s.thread = some (.update ws)) :
      Moves s .thread
        { s with
          info := (updateStatus s.info s.status ws).1
          status := (updateStatus s.info s.status ws).2
          thread := some .exited }
  | cancelled (hp : s.thread = some .waitpid) :
      Moves s .cancelled { s with thread := some .handlerKill }
  | reap {ws : WaitStatus} {s' : State} (hp : s.thread = some .waitpid ∨ s.thread = some .handlerWait)
      (hs : waitChild s ws = some s') : Moves s (.reap ws) s'

theorem create_moves {ok : Bool} (hs : step s (.create ok) = some s') :
    Moves s (.create ok) s' := by
  simp only [step] at hs
  split at hs
  · cases hs
    exact .caller trivial rfl rfl (Or.inr rfl) (Or.inl rfl)
  · cases hs
    exact .caller trivial rfl rfl (Or.inl rfl) (Or.inl rfl)
  · cases hs
    exact .caller trivial rfl rfl (Or.inl rfl) (Or.inl rfl)
  · cases hs

theorem caller_moves (hs : step s .caller = some s') : Moves s .caller s' := by
  simp only [step] at hs
  split at hs
  · cases hs
    exact .caller trivial rfl rfl (Or.inl rfl) (Or.inr rfl)
  · cases hs
    exact .caller trivial rfl rfl (Or.inl rfl) (Or.inl rfl)
  · split at hs
    · cases hs
      exact .caller trivial rfl rfl (Or.inl rfl) (Or.inl rfl)
    · cases hs
  · cases hs

theorem thread_moves (hs : step s .thread = some s') : Moves s .thread s' := by
  simp only [step] at hs
  split at hs
  · rename_i hp
    cases hs
    exact .setRunning hp
  · rename_i hp
    cases hs
    exact .kill hp
  · rename_i hp
    cases hs
    exact .update hp
  · cases hs

/-- Every step is one of these. -/
theorem step_moves (hs : step s l = some s') : Moves s l s' := by
  cases l with
  | create ok => exact create_moves hs
  | caller => exact caller_moves hs
  | thread => exact thread_moves hs
  | wait | stop | restart =>
    simp only [step] at hs
    split at hs
    · cases hs
      exact .caller trivial rfl rfl (Or.inl rfl) (Or.inl rfl)
    · cases hs
  | spawn rc pid =>
    simp only [step] at hs
    split at hs
    · split at hs
      · rename_i hrc
        subst hrc
        cases hs
        exact .noSpawn
      · rename_i hrc
        cases hs
        exact .spawned hrc
    · cases hs
  | cancelled =>
    simp only [step] at hs
    split at hs
    · rename_i hp
      cases hs
      exact .cancelled hp.1
    · cases hs
  | reap ws =>
    simp only [step] at hs
    split at hs
    · rename_i hp
      exact .reap hp hs
    · cases hs

theorem waitOutcome_completed {ws : WaitStatus} (h : waitOutcome ws = .completed) :
    wifexited ws = true ∧ wexitstatus ws = 0 := by
  unfold waitOutcome at h
  split at h
  · rename_i hx
    split at h
    · rename_i hc
      exact ⟨hx, hc⟩
    · cases h
  · split at h <;> cases h

/-- `waitpid` only reaps the child and stores the status. -/
theorem waitChild_some {ws : WaitStatus} (hs : waitChild s ws = some s') :
    s' = { s with
      child := if s.child = some s.taskTid then none else s.child
      thread := some (.update ws) } := by
  unfold waitChild at hs
  split at hs
  · rename_i hc
    split at hs
    · cases hs
      simp [hc]
    · cases hs
  · rename_i hc
    cases hs
    simp [hc]

/-- Only the outcome of an exit with code 0 makes a task COMPLETED. -/
theorem Moves.completed (hm : Moves s l s') (hne : s.status ≠ .completed)
    (hc : s'.status = .completed) :
    ∃ ws, s.thread = some (.update ws) ∧ wifexited ws = true ∧ wexitstatus ws = 0 := by
  cases hm with
  | caller _ _ _ _ hst =>
    rcases hst with hst | hst
    · exact absurd (hst.symm.trans hc) hne
    · rw [hst] at hc
      cases hc
  | setRunning _ => cases hc
  | @update ws hp =>
    have hst : (updateStatus s.info s.status ws).2 = .completed := hc
    rw [updateStatus_snd] at hst
    split at hst
    · exact ⟨ws, hp, waitOutcome_completed hst⟩
    · exact absurd hst hne
  | reap hp hs =>
    rw [waitChild_some hs] at hc
    exact absurd hc hne
  | _ => exact absurd hc hne

/-! ## The invariant -/

/-- The thread is past `posix_spawn` and has not exited. -/
def pastSpawn (s : State) : Prop :=
  s.thread = some .setRunning ∨ callsOnPid s ∨ ∃ ws, s.thread = some (.update ws)

/-- The model's child is the one of the history. If the last spawn
succeeded, the thread has its pid until it is reaped and the status in
hand is the child's; if it failed, there is no child. -/
structure SpawnInv (h : History State Label) (s : State) : Prop where
  child : s.child = unreaped h
  spawned : pastSpawn s → lastSpawn h ≠ none
  pid : lastSpawn h = some 0 → s.thread = some .setRunning ∨ callsOnPid s →
    unreaped h = some s.taskTid
  inHand : lastSpawn h = some 0 → ∀ ws, s.thread = some (.update ws) → reaped h = some ws
  lost : ∀ rc, lastSpawn h = some rc → rc ≠ 0 → unreaped h = none

theorem SpawnInv.initial (st : TaskStatus) (tid : Nat) : SpawnInv [] (initial st tid) := by
  constructor <;> simp [TaskRunner.initial, pastSpawn, callsOnPid, unreaped, lastSpawn]

/-- A step that neither spawns nor waits keeps the invariant if it keeps
the child and its pid, and does not move the thread to where it needs
one. -/
theorem SpawnInv.quiet (hi : SpawnInv h s) (hl : l.Quiet) (hchild : s'.child = s.child)
    (htid : s'.taskTid = s.taskTid)
    (hpid : s'.thread = some .setRunning ∨ callsOnPid s' →
      s.thread = some .setRunning ∨ callsOnPid s)
    (hhand : ∀ ws, s'.thread = some (.update ws) → s.thread = some (.update ws)) :
    SpawnInv ((s, l) :: h) s' := by
  have hpast : pastSpawn s' → pastSpawn s := by
    rintro (hp | hp | ⟨ws, hp⟩)
    · rcases hpid (Or.inl hp) with hp | hp
      · exact Or.inl hp
      · exact Or.inr (Or.inl hp)
    · rcases hpid (Or.inr hp) with hp | hp
      · exact Or.inl hp
      · exact Or.inr (Or.inl hp)
    · exact Or.inr (Or.inr ⟨ws, hhand ws hp⟩)
  constructor
  · rw [unreaped_quiet hl, hchild]
    exact hi.child
  · intro hp
    rw [lastSpawn_quiet hl]
    exact hi.spawned (hpast hp)
  · intro hok hp
    rw [lastSpawn_quiet hl] at hok
    rw [unreaped_quiet hl, htid]
    exact hi.pid hok (hpid hp)
  · intro hok ws hp
    rw [lastSpawn_quiet hl] at hok
    rw [reaped_quiet hl]
    exact hi.inHand hok ws (hhand ws hp)
  · rw [lastSpawn_quiet hl, unreaped_quiet hl]
    exact hi.lost

/-- `posix_spawn`, whatever it returned. -/
theorem SpawnInv.spawn {rc : Int} {pid : Nat} :
    SpawnInv ((s, .spawn rc pid) :: h)
      { s with
        taskTid := pid
        child := if rc = 0 then some pid else none
        thread := some .setRunning } := by
  constructor
  · rfl
  · intro _
    simp [lastSpawn]
  · intro hok _
    obtain rfl : rc = 0 := by simpa [lastSpawn] using hok
    rfl
  · simp
  · intro rc' hrc hne
    obtain rfl : rc = rc' := by simpa [lastSpawn] using hrc
    simp [unreaped, hne]

/-- `waitpid` returns. -/
theorem SpawnInv.reap {ws : WaitStatus} (hi : SpawnInv h s)
    (hp : s.thread = some .waitpid ∨ s.thread = some .handlerWait)
    (hw : waitChild s ws = some s') : SpawnInv ((s, .reap ws) :: h) s' := by
  have hcalls : callsOnPid s := by
    rcases hp with hp | hp <;> simp [callsOnPid, hp]
  have hlast : lastSpawn ((s, .reap ws) :: h) = lastSpawn h := rfl
  rw [waitChild_some hw]
  constructor
  · simp only [unreaped, hi.child]
  · intro _
    exact hi.spawned (Or.inr (Or.inl hcalls))
  · simp [callsOnPid]
  · intro hok ws' hws
    obtain rfl : ws = ws' := by simpa using hws
    have hun := hi.pid (hlast ▸ hok) (Or.inr hcalls)
    simp [reaped, hun]
  · intro rc hrc hne
    have hun := hi.lost rc (hlast ▸ hrc) hne
    simp [unreaped, hun]

theorem SpawnInv.step (hi : SpawnInv h s) (hok : posixSpawn h s l)
    (hs : step s l = some s') : SpawnInv ((s, l) :: h) s' := by
  cases step_moves hs with
  | caller hl hchild htid hthread _ =>
    refine hi.quiet hl hchild htid ?_ ?_
    · rcases hthread with hth | hth <;> simp [callsOnPid, hth]
    · rcases hthread with hth | hth <;> simp [hth]
  | spawned _ => exact SpawnInv.spawn
  | noSpawn => exact absurd (show (0 : Int) ≤ -1 from hok) (by decide)
  | setRunning hp => exact hi.quiet trivial rfl rfl (fun _ => Or.inl hp) (by simp)
  | kill hp => exact hi.quiet trivial rfl rfl (fun _ => Or.inr (Or.inr (Or.inl hp))) (by simp)
  | update hp => exact hi.quiet trivial rfl rfl (by simp [callsOnPid]) (by simp)
  | cancelled hp => exact hi.quiet trivial rfl rfl (fun _ => Or.inr (Or.inl hp)) (by simp)
  | reap hp hw => exact hi.reap hp hw

theorem run_spawnInv {st : TaskStatus} {tid : Nat}
    (hr : Run step posixSpawn (initial st tid) h s) : SpawnInv h s :=
  Run.invariant (SpawnInv.initial st tid) (fun _ _ _ _ hi hok hs => hi.step hok hs) hr

/-! ## The result -/

theorem SpawnInv.safe (hi : SpawnInv h s) (hok : ∀ rc, lastSpawn h = some rc → rc = 0) :
    SpawnSafe h s := by
  have hzero : pastSpawn s → lastSpawn h = some 0 := by
    intro hp
    obtain ⟨rc, hrc⟩ := Option.ne_none_iff_exists'.mp (hi.spawned hp)
    rw [hrc, hok rc hrc]
  refine ⟨?_, ?_, ?_⟩
  · intro hc
    exact hi.pid (hzero (Or.inr (Or.inl hc))) (Or.inr hc)
  · intro l s' hs hne hc
    obtain ⟨ws, hp, hexit⟩ := (step_moves hs).completed hne hc
    exact ⟨ws, hi.inHand (hzero (Or.inr (Or.inr ⟨ws, hp⟩))) ws hp, hexit⟩
  · intro rc hrc hne
    exact absurd (hok rc hrc) hne

/-- **Failed spawns.** In every run, over restarts, stops and waits and
whatever `task_tid` held at first: all is well as long as the last
`posix_spawn` did not fail, and a failed one breaks it as soon as the
thread or its handler calls `kill` or `waitpid`. -/
theorem run_spawnSafe_iff {st : TaskStatus} {tid : Nat}
    (hr : Run step posixSpawn (initial st tid) h s) :
    ((∀ rc, lastSpawn h = some rc → rc = 0) → SpawnSafe h s) ∧
      (callsOnPid s → SpawnSafe h s → ∀ rc, lastSpawn h = some rc → rc = 0) := by
  have hi := run_spawnInv hr
  refine ⟨hi.safe, ?_⟩
  intro hc hsafe rc hrc
  by_contra hne
  have hun := hsafe.calls hc
  rw [hi.lost rc hrc hne] at hun
  cases hun

/-- Run, stop, restart, and the script succeeds. -/
def restartedRun : List Label :=
  [.create true, .caller, .spawn 0 7, .thread, .stop, .caller, .cancelled, .thread, .reap 2,
    .thread, .caller, .restart, .caller, .caller, .create true, .spawn 0 8, .thread]

theorem restartedRun_spawnSafe : ∃ h s,
    Run step posixSpawn (initial .ready 0) h s ∧ callsOnPid s ∧ SpawnSafe h s :=
  ⟨_, _, Run.of_replay restartedRun rfl, Or.inl rfl,
    (run_spawnSafe_iff (Run.of_replay restartedRun rfl)).1
      (fun rc hrc => by simpa [lastSpawn, eq_comm] using hrc)⟩

/-- `task_run` on a site whose interpreter is missing (`ENOENT`), up to
the `waitpid` of the thread: `task_tid` still holds 4242. -/
def failedSpawn : List Label := [.create true, .caller, .spawn 2 4242, .thread]

/-- **A spawn that failed.** The thread waits for a process that it did
not create; if the variable holds 0 the task becomes COMPLETED with no
child at all, and if it holds 127 the joined task stays RUNNING. -/
theorem spawn_failure_unhandled :
    (∃ h s, Run step posixSpawn (initial .ready 4242) h s ∧ callsOnPid s ∧ s.taskTid = 4242 ∧
      unreaped h = none ∧ ¬ SpawnSafe h s) ∧
    (∃ h s s', Run step posixSpawn (initial .ready 4242) h s ∧ step s .thread = some s' ∧
      s.status ≠ .completed ∧ s'.status = .completed ∧ reaped h = none ∧ ¬ SpawnSafe h s) ∧
    ∃ h s, Run step posixSpawn (initial .ready 4242) h s ∧ lastSpawn h = some 2 ∧
      s.joined = true ∧ s.status = .running ∧ ¬ SpawnSafe h s := by
  refine ⟨⟨_, _, Run.of_replay failedSpawn rfl, Or.inl rfl, rfl, rfl, ?_⟩,
    ⟨_, _, _, Run.of_replay (failedSpawn ++ [.reap 0]) rfl, rfl, by decide, rfl, rfl, ?_⟩,
    ⟨_, _, Run.of_replay (failedSpawn ++ [.reap 127, .thread, .wait, .caller]) rfl, rfl, rfl,
      rfl, ?_⟩⟩
  · intro hsafe
    have hun := hsafe.calls (Or.inl rfl)
    cases hun
  · intro hsafe
    obtain ⟨ws, hws, _⟩ := hsafe.completed .thread _ rfl (by decide) rfl
    cases hws
  · intro hsafe
    exact hsafe.joined 2 rfl (by decide) rfl rfl

end Pyoneer.Blueprint.TaskRunner
