/-
Pyoneer.Blueprint.RunnerInfo — what `task_runner_get_info` says after a
join.

`task_run` starts `info` with the two sentinels, `EXIT_SENTINAL` and
`SIGSENT`, and `update_status` then writes one of the two fields: the
exit code of a child that exited, the signal of one that was killed.
`task_runner_restart` starts the next execution without the sentinels,
so the other field keeps what an earlier execution left there.

`recorded` is `info` as a function of the wait statuses of all
executions so far, and `run_info_iff` says when it describes the last
one.
-/
import Pyoneer.Blueprint.SpawnFailure

namespace Pyoneer.Blueprint.TaskRunner

open Pyoneer.Lib

/-! ## What the executions leave in `info` -/

/-- `info` after executions that ended with these wait statuses, the most
recent first. -/
def recorded : List WaitStatus → TaskRunnerInfo
  | [] => taskRunnerInfoDefaults
  | ws :: earlier => (updateStatus (recorded earlier) .ready ws).1

/-- `info` describes the execution that ended with `ws`: the field for
the way it ended has the value, the other one its sentinel. -/
def Describes (ws : WaitStatus) (info : TaskRunnerInfo) : Prop :=
  (wifexited ws = true → info.exitCode = wexitstatus ws ∧ info.signo = sigSent) ∧
    (wifsignaled ws = true → info.signo = wtermsig ws ∧ info.exitCode = exitSentinal)

/-- The executions before left the sentinel in the field that the last
one does not write: if it exited, no earlier child was killed, or the
last one killed was by the signal with the sentinel's number; if it was
killed, no earlier child exited. -/
def NothingLeft (ws : WaitStatus) (earlier : List WaitStatus) : Prop :=
  (wifexited ws = true → ∀ e, earlier.find? wifsignaled = some e → wtermsig e = sigSent) ∧
    (wifsignaled ws = true → ∀ e ∈ earlier, wifexited e = false)

/-- A child that exited was not killed. -/
theorem wifsignaled_eq_false {ws : WaitStatus} (h : wifexited ws = true) :
    wifsignaled ws = false := by
  have hzero : wtermsig ws = 0 := by simpa [wifexited] using h
  simp [wifsignaled, hzero]

/-- An exit code is one byte, and the sentinel is not. -/
theorem wexitstatus_ne_exitSentinal (ws : WaitStatus) : wexitstatus ws ≠ exitSentinal :=
  Nat.ne_of_lt (Nat.mod_lt _ (by decide))

/-- `update_status` writes the field for the way the child ended. -/
theorem updateStatus_fst (info : TaskRunnerInfo) (task : TaskStatus) (ws : WaitStatus) :
    (updateStatus info task ws).1 =
      { exitCode := if wifexited ws then wexitstatus ws else info.exitCode
        signo := if wifsignaled ws then wtermsig ws else info.signo } := by
  cases hx : wifexited ws with
  | true =>
    have hs := wifsignaled_eq_false hx
    by_cases hc : wexitstatus ws = 0 <;> simp [updateStatus, hx, hs, hc]
  | false =>
    cases hs : wifsignaled ws with
    | true => by_cases hc : wtermsig ws = sigint <;> simp [updateStatus, hx, hs, hc]
    | false => simp [updateStatus, hx, hs]

/-- The exit code is that of the last child that exited. -/
theorem recorded_exitCode (l : List WaitStatus) :
    (recorded l).exitCode = ((l.find? wifexited).map wexitstatus).getD exitSentinal := by
  induction l with
  | nil => rfl
  | cons ws earlier ih =>
    cases hx : wifexited ws with
    | true => simp [recorded, updateStatus_fst, hx]
    | false => simp [recorded, updateStatus_fst, hx, ih]

/-- The signal is that of the last child that was killed. -/
theorem recorded_signo (l : List WaitStatus) :
    (recorded l).signo = ((l.find? wifsignaled).map wtermsig).getD sigSent := by
  induction l with
  | nil => rfl
  | cons ws earlier ih =>
    cases hs : wifsignaled ws with
    | true => simp [recorded, updateStatus_fst, hs]
    | false => simp [recorded, updateStatus_fst, hs, ih]

/-- The signal field is the sentinel exactly when nothing overwrote it
with another number. -/
theorem signo_eq_sigSent_iff (l : List WaitStatus) :
    (recorded l).signo = sigSent ↔
      ∀ e, l.find? wifsignaled = some e → wtermsig e = sigSent := by
  rw [recorded_signo]
  cases l.find? wifsignaled with
  | none => simp
  | some e => simp

/-- The exit code is the sentinel exactly when no child exited. -/
theorem exitCode_eq_exitSentinal_iff (l : List WaitStatus) :
    (recorded l).exitCode = exitSentinal ↔ ∀ e ∈ l, wifexited e = false := by
  rw [recorded_exitCode]
  cases hf : l.find? wifexited with
  | none => simpa using List.find?_eq_none.mp hf
  | some e =>
    have hne := wexitstatus_ne_exitSentinal e
    have hx := List.find?_some hf
    have hmem := List.mem_of_find?_eq_some hf
    constructor
    · intro h
      exact absurd h hne
    · intro h
      rw [h e hmem] at hx
      cases hx

/-- `info` describes the last execution exactly when the earlier ones
left the sentinel in the other field. -/
theorem describes_recorded_iff (ws : WaitStatus) (earlier : List WaitStatus) :
    Describes ws (recorded (ws :: earlier)) ↔ NothingLeft ws earlier := by
  cases hx : wifexited ws with
  | true =>
    have hs := wifsignaled_eq_false hx
    simp only [Describes, NothingLeft, recorded, updateStatus_fst, hx, hs, if_true,
      ← signo_eq_sigSent_iff]
    simp
  | false =>
    cases hs : wifsignaled ws with
    | true =>
      simp only [Describes, NothingLeft, recorded, updateStatus_fst, hx, hs, if_true,
        ← exitCode_eq_exitSentinal_iff]
      simp
    | false => simp [Describes, NothingLeft, hx, hs]

/-! ## Runs -/

/-- Every `posix_spawn` succeeds. -/
def spawnsSucceed : History State Label → State → Label → Prop
  | _, _, .spawn rc _ => rc = 0
  | _, _, _ => True

instance : ∀ h s l, Decidable (spawnsSucceed h s l)
  | _, _, .spawn rc _ => inferInstanceAs (Decidable (rc = 0))
  | _, _, .create _ | _, _, .caller | _, _, .wait | _, _, .stop | _, _, .restart
  | _, _, .thread | _, _, .cancelled | _, _, .reap _ => inferInstanceAs (Decidable True)

/-- The wait statuses of the children so far, the most recent first. -/
def reaps : History State Label → List WaitStatus
  | [] => []
  | (_, .reap ws) :: h => ws :: reaps h
  | _ :: h => reaps h

variable {h : History State Label} {s s' : State} {l : Label}

theorem reaps_cons (hl : ∀ ws, l ≠ .reap ws) : reaps ((s, l) :: h) = reaps h := by
  cases l with
  | reap ws => exact absurd rfl (hl ws)
  | _ => rfl

/-- The invariant of a runner over all its executions.

* `waited` — the status that came back for the last child is the last
  one, and that of a finished process;
* `inHand` — before `update_status`, `info` has all but the status in
  hand;
* `settled` — elsewhere `info` has every status;
* `exited` — a thread that has exited waited for its child;
* `create` — no thread is at work when one is about to be created;
* `joined` — a thread that was joined has exited. -/
structure InfoInv (h : History State Label) (s : State) : Prop where
  spawn : SpawnInv h s
  succeeded : ∀ rc, lastSpawn h = some rc → rc = 0
  waited : ∀ ws, reaped h = some ws → Terminated ws ∧ ∃ earlier, reaps h = ws :: earlier
  inHand : ∀ ws, s.thread = some (.update ws) →
    ∃ earlier, reaps h = ws :: earlier ∧ s.info = recorded earlier
  settled : (∀ ws, s.thread ≠ some (.update ws)) → s.info = recorded (reaps h)
  exited : s.thread = some .exited → ∃ ws, reaped h = some ws
  create : ∀ fresh, s.caller = .create fresh → s.thread = none ∨ s.thread = some .exited
  joined : s.joined = true → s.thread = some .exited

theorem InfoInv.initial (st : TaskStatus) (tid : Nat) : InfoInv [] (initial st tid) := by
  refine ⟨.initial st tid, ?_, ?_, ?_, ?_, ?_, ?_, ?_⟩ <;>
    simp [TaskRunner.initial, lastSpawn, reaped, reaps, recorded]

namespace InfoInv

variable (hi : InfoInv h s) (hspawn : SpawnInv ((s, l) :: h) s')

include hi hspawn

/-- A step that keeps the wait status in hand and `info`. -/
theorem quiet (hl : l.Quiet) (hinfo : s'.info = s.info)
    (hhand : ∀ ws, s'.thread = some (.update ws) ↔ s.thread = some (.update ws))
    (hx : s'.thread = some .exited → s.thread = some .exited)
    (hc : ∀ fresh, s'.caller = .create fresh → s'.thread = none ∨ s'.thread = some .exited)
    (hj : s'.joined = true → s'.thread = some .exited) : InfoInv ((s, l) :: h) s' := by
  have hreaps : reaps ((s, l) :: h) = reaps h := reaps_cons (by rintro ws rfl; exact hl)
  constructor
  · exact hspawn
  · rw [lastSpawn_quiet hl]
    exact hi.succeeded
  · rw [reaped_quiet hl, hreaps]
    exact hi.waited
  · intro ws hp
    rw [hreaps, hinfo]
    exact hi.inHand ws ((hhand ws).mp hp)
  · intro hp
    rw [hreaps, hinfo]
    exact hi.settled fun ws hw => hp ws ((hhand ws).mpr hw)
  · intro hp
    rw [reaped_quiet hl]
    exact hi.exited (hx hp)
  · exact hc
  · exact hj

/-- A step of the caller that leaves the thread alone. -/
theorem frame (hl : l.Quiet) (hinfo : s'.info = s.info) (hthread : s'.thread = s.thread)
    (hc : ∀ fresh, s'.caller = .create fresh → s.thread = none ∨ s.thread = some .exited)
    (hj : s'.joined = true → s.thread = some .exited) : InfoInv ((s, l) :: h) s' :=
  hi.quiet hspawn hl hinfo (fun ws => by rw [hthread]) (fun hx => hthread ▸ hx)
    (by rw [hthread]; exact hc) (by rw [hthread]; exact hj)

/-- A step of the thread that ends neither in its `update_status` nor
behind it. -/
theorem advance (hl : l.Quiet) (hinfo : s'.info = s.info)
    (hfrom : s.thread ≠ none ∧ s.thread ≠ some .exited ∧ ∀ ws, s.thread ≠ some (.update ws))
    (hto : s'.thread ≠ some .exited ∧ ∀ ws, s'.thread ≠ some (.update ws))
    (hcaller : s'.caller = s.caller) (hjoined : s'.joined = s.joined) :
    InfoInv ((s, l) :: h) s' := by
  obtain ⟨hne, hnx, hnu⟩ := hfrom
  refine hi.quiet hspawn hl hinfo ?_ (fun hx => absurd hx hto.1) ?_ ?_
  · intro ws
    exact ⟨fun hp => absurd hp (hto.2 ws), fun hp => absurd hp (hnu ws)⟩
  · intro fresh hc
    rcases hi.create fresh (hcaller ▸ hc) with hp | hp
    · exact absurd hp hne
    · exact absurd hp hnx
  · intro hj
    exact absurd (hi.joined (hjoined ▸ hj)) hnx

end InfoInv

/-- `pthread_create`. -/
theorem InfoInv.create_step {ok : Bool} (hi : InfoInv h s)
    (hspawn : SpawnInv ((s, .create ok) :: h) s') (hs : step s (.create ok) = some s') :
    InfoInv ((s, .create ok) :: h) s' := by
  cases hc : s.caller with
  | create fresh =>
    have hpc := hi.create fresh hc
    cases ok with
    | true =>
      simp only [TaskRunner.step, hc, Option.some.injEq] at hs
      subst hs
      refine hi.quiet hspawn trivial rfl ?_ (by simp) ?_ (by simp)
      · intro ws
        rcases hpc with hp | hp <;> simp [hp]
      · cases fresh <;> simp
    | false =>
      cases fresh with
      | true | false =>
        simp only [TaskRunner.step, hc, Option.some.injEq] at hs
        subst hs
        exact hi.frame hspawn trivial rfl rfl (by simp) hi.joined
  | setRunning | failed | idle => simp [TaskRunner.step, hc] at hs
  | cancel _ | join _ => simp [TaskRunner.step, hc] at hs

/-- The steps of the caller that are not calls. -/
theorem InfoInv.caller_step (hi : InfoInv h s) (hspawn : SpawnInv ((s, .caller) :: h) s')
    (hs : step s .caller = some s') : InfoInv ((s, .caller) :: h) s' := by
  cases hc : s.caller with
  | setRunning | cancel restart =>
    simp only [TaskRunner.step, hc, Option.some.injEq] at hs
    subst hs
    exact hi.frame hspawn trivial rfl rfl (by simp) hi.joined
  | join restart =>
    simp only [TaskRunner.step, hc] at hs
    split at hs
    · rename_i hx
      cases hs
      exact hi.frame hspawn trivial rfl rfl (fun _ _ => Or.inr hx) fun _ => hx
    · cases hs
  | create _ | failed | idle => simp [TaskRunner.step, hc] at hs

/-- The steps of the thread that have no choice; the last of them is
`update_status`. -/
theorem InfoInv.thread_step (hi : InfoInv h s) (hspawn : SpawnInv ((s, .thread) :: h) s')
    (hs : step s .thread = some s') : InfoInv ((s, .thread) :: h) s' := by
  cases hp : s.thread with
  | none => simp [TaskRunner.step, hp] at hs
  | some pc =>
    cases pc with
    | setRunning | handlerKill =>
      simp only [TaskRunner.step, hp, Option.some.injEq] at hs
      subst hs
      exact hi.advance hspawn trivial rfl (by simp [hp]) (by simp) rfl rfl
    | update ws =>
      simp only [TaskRunner.step, hp, Option.some.injEq] at hs
      subst hs
      obtain ⟨earlier, hreaps, hinfo⟩ := hi.inHand ws hp
      have hzero : lastSpawn h = some 0 := by
        obtain ⟨rc, hrc⟩ :=
          Option.ne_none_iff_exists'.mp (hi.spawn.spawned (Or.inr (Or.inr ⟨ws, hp⟩)))
        rw [hrc, hi.succeeded rc hrc]
      refine ⟨hspawn, hi.succeeded, hi.waited, by simp, ?_, ?_, by simp, by simp⟩
      · intro _
        simp only [reaps_cons (s := s) (l := .thread) (h := h) (by simp), hreaps, recorded,
          hinfo, updateStatus_fst]
      · intro _
        exact ⟨ws, hi.spawn.inHand hzero ws hp⟩
    | spawn | waitpid | handlerWait | exited => simp [TaskRunner.step, hp] at hs

/-- `waitpid` returns. -/
theorem InfoInv.reap_step {ws : WaitStatus} (hi : InfoInv h s)
    (hspawn : SpawnInv ((s, .reap ws) :: h) s') (hs : step s (.reap ws) = some s') :
    InfoInv ((s, .reap ws) :: h) s' := by
  simp only [TaskRunner.step] at hs
  split at hs
  · rename_i hp
    have hinfo : s.info = recorded (reaps h) :=
      hi.settled (by rcases hp with hp | hp <;> simp [hp])
    have hnx : s.thread ≠ none ∧ s.thread ≠ some .exited := by
      rcases hp with hp | hp <;> simp [hp]
    have hsome := waitChild_some hs
    refine ⟨hspawn, hi.succeeded, ?_, ?_, ?_, ?_, ?_, ?_⟩
    · intro w hw
      simp only [reaped] at hw
      split at hw
      · rename_i hun
        obtain rfl := Option.some.inj hw
        refine ⟨?_, _, rfl⟩
        rw [waitChild, hi.spawn.child, if_pos hun] at hs
        split at hs
        · assumption
        · cases hs
      · cases hw
    · intro w hw
      rw [hsome] at hw ⊢
      obtain rfl : ws = w := by simpa using hw
      exact ⟨_, rfl, hinfo⟩
    · intro hn
      rw [hsome] at hn
      exact absurd rfl (hn ws)
    · rw [hsome]
      simp
    · rw [hsome]
      intro fresh hc
      rcases hi.create fresh hc with hp | hp
      · exact absurd hp hnx.1
      · exact absurd hp hnx.2
    · rw [hsome]
      intro hj
      exact absurd (hi.joined hj) hnx.2
  · cases hs

theorem InfoInv.step (hi : InfoInv h s) (hok : spawnsSucceed h s l)
    (hs : step s l = some s') : InfoInv ((s, l) :: h) s' := by
  have hposix : posixSpawn h s l := by
    cases l with
    | spawn rc pid => exact Int.le_of_eq (Eq.symm hok)
    | _ => trivial
  have hspawn := hi.spawn.step hposix hs
  cases l with
  | create ok => exact hi.create_step hspawn hs
  | caller => exact hi.caller_step hspawn hs
  | thread => exact hi.thread_step hspawn hs
  | reap ws => exact hi.reap_step hspawn hs
  | wait | stop | restart =>
    simp only [TaskRunner.step] at hs
    split at hs
    · cases hs
      exact hi.frame hspawn trivial rfl rfl (by simp) hi.joined
    · cases hs
  | cancelled =>
    simp only [TaskRunner.step] at hs
    split at hs
    · rename_i hp
      cases hs
      exact hi.advance hspawn trivial rfl (by simp [hp.1]) (by simp) rfl rfl
    · cases hs
  | spawn rc pid =>
    obtain rfl : rc = 0 := hok
    simp only [TaskRunner.step] at hs
    split at hs
    · rename_i hp
      simp only [show ¬ (0 : Int) = -1 by decide, if_false, if_true, Option.some.injEq] at hs
      subst hs
      refine ⟨hspawn, by simp [lastSpawn], by simp [reaped], by simp, ?_, by simp, ?_, ?_⟩
      · intro _
        exact hi.settled (by simp [hp])
      · intro fresh hc
        rcases hi.create fresh hc with hp' | hp' <;> simp [hp] at hp'
      · intro hj
        have hx := hi.joined hj
        simp [hp] at hx
    · cases hs

theorem run_infoInv {st : TaskStatus} {tid : Nat}
    (hr : Run step spawnsSucceed (initial st tid) h s) : InfoInv h s :=
  Run.invariant (InfoInv.initial st tid) (fun _ _ _ _ hi hok hs => hi.step hok hs) hr

/-! ## The result -/

/-- **`info` after the join.** In every run of `task_run`, restarts,
stops and waits, and for every wait status of every child: once the task
thread is joined there is the wait status of the last child, and `info`
describes it exactly when the executions before it left the sentinel in
the field that it does not write. -/
theorem run_info_iff {st : TaskStatus} {tid : Nat}
    (hr : Run step spawnsSucceed (initial st tid) h s) (hj : s.joined = true) :
    ∃ ws earlier, reaped h = some ws ∧ Terminated ws ∧ reaps h = ws :: earlier ∧
      (Describes ws s.info ↔ NothingLeft ws earlier) := by
  have hi := run_infoInv hr
  have hx := hi.joined hj
  obtain ⟨ws, hws⟩ := hi.exited hx
  obtain ⟨hterm, earlier, hreaps⟩ := hi.waited ws hws
  have hinfo := hi.settled (by simp [hx])
  rw [hreaps] at hinfo
  refine ⟨ws, earlier, hws, hterm, hreaps, ?_⟩
  rw [hinfo]
  exact describes_recorded_iff ws earlier

/-- Two executions that both exit, the first one with code 1. -/
def exitTwice : List Label :=
  [.create true, .caller, .spawn 0 7, .thread, .reap 256, .thread, .restart, .caller, .caller,
    .create true, .spawn 0 8, .thread, .reap 0, .thread, .wait, .caller]

theorem run_info_iff_exitTwice : ∃ h s,
    Run step spawnsSucceed (initial .ready 0) h s ∧ s.joined = true ∧ reaps h = [0, 256] ∧
      Describes 0 s.info ∧
      ∃ ws earlier, reaped h = some ws ∧ Terminated ws ∧ reaps h = ws :: earlier ∧
        (Describes ws s.info ↔ NothingLeft ws earlier) :=
  ⟨_, _, Run.of_replay exitTwice rfl, rfl, rfl, ⟨fun _ => ⟨rfl, rfl⟩, by decide⟩,
    run_info_iff (Run.of_replay exitTwice rfl) rfl⟩

/-- The script exits with code 0, the runner is restarted, and
`task_runner_stop` interrupts the second execution. -/
def exitThenKilled : List Label :=
  [.create true, .caller, .spawn 0 7, .thread, .reap 0, .thread, .restart, .caller, .caller,
    .create true, .spawn 0 8, .thread, .stop, .caller, .cancelled, .thread, .reap 2, .thread,
    .caller]

/-- **A stale exit code.** After a second execution that was killed by
`SIGINT`, `info` still has the exit code of the first. -/
theorem stale_exit_code : ∃ h s,
    Run step spawnsSucceed (initial .ready 0) h s ∧ s.joined = true ∧ reaped h = some 2 ∧
      wifsignaled 2 = true ∧ s.info = { exitCode := 0, signo := 2 } ∧ ¬ Describes 2 s.info := by
  refine ⟨_, _, Run.of_replay exitThenKilled rfl, rfl, rfl, rfl, rfl, ?_⟩
  intro hd
  have hcode := (hd.2 rfl).2
  cases hcode

end Pyoneer.Blueprint.TaskRunner
