/-
Pyoneer.Blueprint.Task — `blueprint/task.c`: tasks, their status codes,
and what a wait status does to them.

A wait status is the `int` that `waitpid` stores, as the natural number
of its bits: the macros below read the low sixteen of them only. A
status that is neither "exited" nor "signaled" (a stopped child, or the
garbage of a variable that `waitpid` never wrote) falls through both
branches of `update_status` and changes nothing.
-/
import Pyoneer.Shared.Json

namespace Pyoneer.Blueprint

open Pyoneer.Shared

/-- Task status codes (`TASK_NOT_READY` … `TASK_INCOMPLETE`). -/
inductive TaskStatus where
  | notReady | ready | running | completed | incomplete
  deriving DecidableEq, Repr

/-- `struct Task`. -/
structure Task where
  status : TaskStatus
  name : Bytes
  deriving DecidableEq, Repr

/-- `task_create`: a name that is the empty C string is refused; the
name kept is the `strdup` copy. -/
def taskCreate (name : Bytes) : Option Task :=
  if strlen name = 0 then none
  else some { status := .ready, name := cstr name }

/-- `task_decode`. -/
def taskDecode (obj : JsonValue) : Option Task :=
  match obj with
  | .object _ =>
    match jsonObjectGetValue obj (ascii "name") with
    | some (.string name) => taskCreate name
    | _ => none
  | _ => none

/-- `task_status_map`. -/
def taskStatusMap : TaskStatus → JsonValue
  | .notReady => .string (ascii "not_ready")
  | .ready => .string (ascii "ready")
  | .running => .string (ascii "running")
  | .completed => .string (ascii "completed")
  | .incomplete => .string (ascii "incomplete")

/-- `task_encode_status`. -/
def taskEncodeStatus (status : TaskStatus) : JsonValue :=
  jsonObjectPush (.object []) (ascii "status") (taskStatusMap status)

/-! ## Wait statuses -/

abbrev WaitStatus := Nat

/-- `SIGINT`. -/
def sigint : Nat := 2

/-- `EXIT_SENTINAL` and `SIGSENT`, the "nothing recorded yet" values. -/
def exitSentinal : Nat := 256

@[inherit_doc exitSentinal]
def sigSent : Nat := 64

/-- `WTERMSIG(status)`: the low seven bits. -/
def wtermsig (status : WaitStatus) : Nat := status % 128

/-- `WIFEXITED(status)`. -/
def wifexited (status : WaitStatus) : Bool := wtermsig status == 0

/-- `WEXITSTATUS(status)`: bits eight to fifteen. -/
def wexitstatus (status : WaitStatus) : Nat := status / 256 % 256

/-- `WIFSIGNALED(status)`: `0x7f` in the low bits means stopped. -/
def wifsignaled (status : WaitStatus) : Bool := wtermsig status != 0 && wtermsig status != 127

/-- What `waitpid` with no options can return for a child: it has
exited or was killed. -/
def Terminated (status : WaitStatus) : Prop :=
  wifexited status = true ∨ wifsignaled status = true

instance (status : WaitStatus) : Decidable (Terminated status) :=
  inferInstanceAs (Decidable (_ ∨ _))

/-- `task_runner_info_t`. -/
structure TaskRunnerInfo where
  exitCode : Nat
  signo : Nat
  deriving DecidableEq, Repr

/-- The `info` that `task_run` starts with. -/
def taskRunnerInfoDefaults : TaskRunnerInfo :=
  { exitCode := exitSentinal, signo := sigSent }

/-- `update_status` of `task.c`, on the runner's `info` and the task's
status. -/
def updateStatus (info : TaskRunnerInfo) (task : TaskStatus) (status : WaitStatus) :
    TaskRunnerInfo × TaskStatus :=
  if wifexited status then
    let info := { info with exitCode := wexitstatus status }
    if info.exitCode = 0 then (info, .completed) else (info, .notReady)
  else if wifsignaled status then
    let info := { info with signo := wtermsig status }
    if info.signo = sigint then (info, .incomplete) else (info, .ready)
  else (info, task)

/-- The status that the wait status of a finished child stands for. -/
def waitOutcome (status : WaitStatus) : TaskStatus :=
  if wifexited status then
    if wexitstatus status = 0 then .completed else .notReady
  else if wtermsig status = sigint then .incomplete
  else .ready

theorem waitOutcome_ne_running (status : WaitStatus) : waitOutcome status ≠ .running := by
  unfold waitOutcome
  split
  · split <;> simp
  · split <;> simp

/-- What `update_status` does to the task: it writes the outcome of a
finished child, whatever the status was, and leaves the status alone
otherwise. -/
theorem updateStatus_snd (info : TaskRunnerInfo) (task : TaskStatus) (status : WaitStatus) :
    (updateStatus info task status).2
      = if Terminated status then waitOutcome status else task := by
  cases hx : wifexited status with
  | true =>
    have ht : Terminated status := Or.inl hx
    by_cases hc : wexitstatus status = 0 <;> simp [updateStatus, waitOutcome, hx, hc, ht]
  | false =>
    cases hs : wifsignaled status with
    | true =>
      have ht : Terminated status := Or.inr hs
      by_cases hc : wtermsig status = sigint <;>
        simp [updateStatus, waitOutcome, hx, hs, hc, ht]
    | false =>
      have ht : ¬ Terminated status := by simp [Terminated, hx, hs]
      simp [updateStatus, hx, hs, ht]

end Pyoneer.Blueprint
