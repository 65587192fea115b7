/-
Pyoneer.Blueprint.TaskRunner — one `TaskRunner` of `blueprint/task.c`:
the thread that calls `task_run` and the control functions, and the task
thread that it creates, step by step.

The CALLER runs `task_run` (`pthread_create`, then
`task_set_status(task, TASK_RUNNING)`) and afterwards any sequence of
`task_runner_wait`, `task_runner_stop` and `task_runner_restart`. The
TASK THREAD runs `task_runner_thread`: `posix_spawn`, `task->status =
TASK_RUNNING`, `waitpid`, `update_status`. The two threads write the
same `task->status` with no synchronisation, so every interleaving of
their steps is a run of this system.

Cancellation is deferred: `pthread_cancel` only records a request, and
the thread acts on it when it is in `waitpid`, the one cancellation
point it reaches with the handler pushed. The handler then kills the
child, waits for it, and calls `update_status` as well.

`posix_spawn` returns its error number; the source compares the result
with -1. A spawn that failed leaves no child, so the `waitpid` that
follows reaps nothing and `update_status` reads whatever the variable
held: the label of that step is then an arbitrary number.
-/
import Pyoneer.Lib.Run
import Pyoneer.Blueprint.Task

namespace Pyoneer.Blueprint.TaskRunner

open Pyoneer.Lib

/-- Where the task thread is: before `posix_spawn`; before `task->status =
TASK_RUNNING`; in `waitpid` with the handler pushed; in the handler,
before `kill` and in its `waitpid`; before `update_status`. -/
inductive ThreadPc where
  | spawn
  | setRunning
  | waitpid
  | handlerKill
  | handlerWait
  | update (status : WaitStatus)
  | exited
  deriving DecidableEq, Repr

/-- Where the caller is: before `pthread_create` (`fresh` in `task_run`);
in `task_run` before `task_set_status(task, TASK_RUNNING)`; after a
`task_run` that returned NULL; between two calls; before
`pthread_cancel`; in `pthread_join`. `restart` tells
`task_runner_restart`, which goes on to create a thread, from the
functions that end with the join. -/
inductive CallerPc where
  | create (fresh : Bool)
  | setRunning
  | failed
  | idle
  | cancel (restart : Bool)
  | join (restart : Bool)
  deriving DecidableEq, Repr

/-- The runner, its task's status, the child process and both threads.
`child` is the child that the current execution spawned and has not
reaped. -/
structure State where
  status : TaskStatus
  info : TaskRunnerInfo
  taskTid : Nat
  child : Option Nat
  thread : Option ThreadPc
  cancelReq : Bool
  joined : Bool
  caller : CallerPc
  deriving DecidableEq, Repr

/-- The state in which `task_run` is about to create the thread. The
task's status and the bits of `task_tid` are whatever they were. -/
def initial (status : TaskStatus) (taskTid : Nat) : State where
  status := status
  info := taskRunnerInfoDefaults
  taskTid := taskTid
  child := none
  thread := none
  cancelReq := false
  joined := false
  caller := .create true

/-- The choices that a run makes: the result of `pthread_create`, which
function is called next, the result of `posix_spawn` and the pid that it
stored, when the thread acts on a cancellation request, and the status
in the variable when `waitpid` returns. `caller` and `thread` are the
next step of either side where it has no choice. -/
inductive Label where
  | create (ok : Bool)
  | caller
  | wait
  | stop
  | restart
  | spawn (rc : Int) (pid : Nat)
  | thread
  | cancelled
  | reap (status : WaitStatus)
  deriving DecidableEq, Repr

/-- `waitpid(runner->task_tid, &status, 0)`: it reaps the child if the
pid is the child's, and then the status is one of a finished process. -/
def waitChild (s : State) (status : WaitStatus) : Option State :=
  if s.child = some s.taskTid then
    if Terminated status then some { s with child := none, thread := some (.update status) }
    else none
  else some { s with thread := some (.update status) }

/-- One step of the caller or of the task thread. -/
def step (s : State) : Label → Option State
  | .create ok =>
    match s.caller, ok with
    | .create fresh, true =>
      some { s with
        thread := some .spawn, cancelReq := false, joined := false
        caller := if fresh then .setRunning else .idle }
    | .create true, false => some { s with caller := .failed }
    | .create false, false => some { s with caller := .idle }
    | _, _ => none
  | .caller =>
    match s.caller with
    | .setRunning => some { s with status := .running, caller := .idle }
    | .cancel restart => some { s with cancelReq := true, caller := .join restart }
    | .join restart =>
      if s.thread = some .exited then
        some { s with
          joined := true
          caller := if restart then .create false else .idle }
      else none
    | _ => none
  | .wait => if s.caller = .idle then some { s with caller := .join false } else none
  | .stop => if s.caller = .idle then some { s with caller := .cancel false } else none
  | .restart => if s.caller = .idle then some { s with caller := .cancel true } else none
  | .spawn rc pid =>
    if s.thread = some .spawn then
      if rc = -1 then some { s with thread := some .exited }
      else some { s with
        taskTid := pid
        child := if rc = 0 then some pid else none
        thread := some .setRunning }
    else none
  | .thread =>
    match s.thread with
    | some .setRunning => some { s with status := .running, thread := some .waitpid }
    | some .handlerKill => some { s with thread := some .handlerWait }
    | some (.update status) =>
      some { s with
        info := (updateStatus s.info s.status status).1
        status := (updateStatus s.info s.status status).2
        thread := some .exited }
    | _ => none
  | .cancelled =>
    if s.thread = some .waitpid ∧ s.cancelReq = true then
      some { s with thread := some .handlerKill }
    else none
  | .reap status =>
    if s.thread = some .waitpid ∨ s.thread = some .handlerWait then waitChild s status
    else none

/-! ## One execution -/

/-- The steps of ONE execution: the spawn succeeds and the runner is not
restarted. -/
def oneExecution : History State Label → State → Label → Prop
  | _, _, .spawn rc _ => rc = 0
  | _, _, .restart => False
  | _, _, _ => True

instance : ∀ h s l, Decidable (oneExecution h s l)
  | _, _, .spawn rc _ => inferInstanceAs (Decidable (rc = 0))
  | _, _, .restart => inferInstanceAs (Decidable False)
  | _, _, .create _ | _, _, .caller | _, _, .wait | _, _, .stop | _, _, .thread
  | _, _, .cancelled | _, _, .reap _ => inferInstanceAs (Decidable True)

/-- The last wait status that the task thread got. -/
def lastReap : History State Label → Option WaitStatus
  | [] => none
  | (_, .reap status) :: _ => some status
  | _ :: h => lastReap h

/-- `task_run` wrote `TASK_RUNNING` before the task thread executed its
`update_status`: no step of the run is that write in a state where the
thread has already exited. -/
def RunningWriteFirst (h : History State Label) : Prop :=
  ∀ t, (t, Label.caller) ∈ h → t.caller = .setRunning → t.thread ≠ some .exited

end Pyoneer.Blueprint.TaskRunner
