/-
Pyoneer.Blueprint.JobThread — the job thread of `blueprint/job.c`
(`job_thread_parallel`, `job_thread_sequential`) and the task threads
that it starts, step by step.

A `JobExec` is one job thread at work: the job it iterates, the parts of
its `JobRunner` that it writes, its own program counter and locals, and
the task thread it last created for each node. Both loops are one
machine; they differ in what follows a successful `task_run` and in what
follows the loop over the nodes.

`status` writes come from three places, as in the source: `task_run`
after `pthread_create` (`setRunning`), the task thread (`TASK_RUNNING`
after the spawn, then `update_status` with its wait status), and
`reset_status`. The task thread is the machine of
`Pyoneer.Blueprint.TaskRunner` seen from outside: created, running,
exited. Its last write takes an arbitrary wait status, which also covers
a spawn that failed (`update_status` then reads garbage).

A cancellation request takes effect at the cancellation points of the
thread: `pthread_join` in `task_runner_wait` and in the
`task_runner_destroy` that `pthread_cleanup_pop(1)` runs, and the error
message of a `task_run` that failed. The handlers that are on the stack
at that point then run to their end (`unwindCancel`, `unwindJoin`).
-/
import Mathlib.Logic.Function.Basic
import Pyoneer.Lib.Run
import Pyoneer.Blueprint.Job

namespace Pyoneer.Blueprint

open Pyoneer.Lib

/-- A task thread, as the job thread sees it: not created for this node;
created, but it has not written `TASK_RUNNING` yet; it has written
`TASK_RUNNING`; it has executed `update_status` and exited. -/
inductive TaskPhase where
  | none | created | running | exited
  deriving DecidableEq, Repr

/-- The thread behind a `TaskRunner`, with the number of times that it
was joined. -/
structure TaskThread where
  phase : TaskPhase
  joins : Nat
  deriving DecidableEq, Repr

/-- Where the job thread is. Nodes are named by their position `k`; `i`
counts in `task_runners[]`.

* `begin`, `loopTest` — top and test of the `do` loop;
* `head k` — test of the `for` loop, `curr` at node `k`;
* `run k`, `setRunning k` — in `task_run` on node `k`, before its
  `pthread_create` and before its `task_set_status`;
* `wait k`, then `popCancel k` and `popJoin k` — sequential:
  `task_runner_wait`, then `pthread_cleanup_pop(1)` with the cancel and
  the join of `task_runner_destroy`;
* `waitAll i`, then `popAllCancel i` and `popAllJoin i` — parallel: the
  same, over `task_runners[]`;
* `count` — before `info.completions++`;
* `poll k seen` — in `job_get_status`, with the statuses read so far;
* `reset k` — in `reset_status`;
* `unwindCancel rest`, `unwindJoin rest` — cancelled: the handlers
  destroy the remaining runners. -/
inductive JobPc where
  | begin
  | head (k : Nat)
  | run (k : Nat)
  | setRunning (k : Nat)
  | wait (k : Nat)
  | popCancel (k : Nat)
  | popJoin (k : Nat)
  | waitAll (i : Nat)
  | popAllCancel (i : Nat)
  | popAllJoin (i : Nat)
  | count
  | poll (k : Nat) (seen : List TaskStatus)
  | reset (k : Nat)
  | loopTest
  | unwindCancel (rest : List Nat)
  | unwindJoin (rest : List Nat)
  | exited
  deriving DecidableEq, Repr

/-- `job_runner_info_t`. -/
structure JobRunnerInfo where
  attempts : Nat
  completions : Nat
  successes : Nat
  deriving DecidableEq, Repr

/-- `job_runner_info_defaults`. -/
def jobRunnerInfoDefaults : JobRunnerInfo := { attempts := 0, completions := 0, successes := 0 }

/-- The locals of a job thread. -/
structure JobThread where
  pc : JobPc
  completion : Bool
  repeats : Bool
  cancelReq : Bool
  tasks : Nat → TaskThread

/-- A job thread at work. `taskRunners` is `task_runners[0 … task_count)`,
each runner named by its node. -/
structure JobExec where
  job : Job
  info : JobRunnerInfo
  taskRunners : List Nat
  thread : JobThread

/-- A thread that `job_thread_create` has just created. -/
def JobThread.start (opts : JobOpts) : JobThread where
  pc := .begin
  completion := true
  repeats := opts.runMode == .runRepeat
  cancelReq := false
  tasks := fun _ => { phase := .none, joins := 0 }

namespace JobExec

def goto (e : JobExec) (pc : JobPc) : JobExec :=
  { e with thread := { e.thread with pc := pc } }

def setTask (e : JobExec) (k : Nat) (t : TaskThread) : JobExec :=
  { e with thread := { e.thread with tasks := Function.update e.thread.tasks k t } }

/-- `pthread_join` on the task thread of node `k` returns. -/
def joinTask (e : JobExec) (k : Nat) : JobExec :=
  e.setTask k { e.thread.tasks k with joins := (e.thread.tasks k).joins + 1 }

/-- The task thread of node `k` has exited, so that a join returns. -/
def taskExited (e : JobExec) (k : Nat) : Bool := (e.thread.tasks k).phase == .exited

/-- What follows the loop over the nodes. -/
def afterLoop (mode : ExecMode) : JobPc :=
  match mode with
  | .parallel => .waitAll 0
  | .sequential => .count

/-- The two abort branches: `completion = false; repeat = false; break;`. -/
def abort (e : JobExec) : JobExec :=
  { e with thread := { e.thread with
      completion := false, repeats := false, pc := afterLoop e.job.opts.execMode } }

/-- The next step of the job thread; `ok` is the result of the
`pthread_create` in `task_run`. `none` where the thread blocks. -/
def jobStep (e : JobExec) (ok : Bool) : Option JobExec :=
  match e.thread.pc with
  | .begin =>
    some { e with
      info := { e.info with attempts := e.info.attempts + 1 }
      taskRunners := []
      thread := { e.thread with completion := true, pc := .head 0 } }
  | .head k =>
    match e.job.taskStatus k with
    | none => some (e.goto (afterLoop e.job.opts.execMode))
    | some .ready | some .incomplete => some (e.goto (.run k))
    | some .notReady | some .running => some e.abort
    | some .completed => some (e.goto (.head (k + 1)))
  | .run k =>
    if ok then some ((e.setTask k { phase := .created, joins := 0 }).goto (.setRunning k))
    else some e.abort
  | .setRunning k =>
    match e.job.opts.execMode with
    | .sequential => some ({ e with job := e.job.setTaskStatus k .running }.goto (.wait k))
    | .parallel =>
      some ({ e with
        job := e.job.setTaskStatus k .running
        taskRunners := e.taskRunners ++ [k] }.goto (.head (k + 1)))
  | .wait k => if e.taskExited k then some ((e.joinTask k).goto (.popCancel k)) else none
  | .popCancel k => some (e.goto (.popJoin k))
  | .popJoin k => if e.taskExited k then some ((e.joinTask k).goto (.head (k + 1))) else none
  | .waitAll i =>
    match e.taskRunners[i]? with
    | none => some (e.goto (.popAllCancel 0))
    | some k => if e.taskExited k then some ((e.joinTask k).goto (.waitAll (i + 1))) else none
  | .popAllCancel i =>
    match e.taskRunners[i]? with
    | none => some (e.goto .count)
    | some _ => some (e.goto (.popAllJoin i))
  | .popAllJoin i =>
    match e.taskRunners[i]? with
    | none => none
    | some k =>
      if e.taskExited k then some ((e.joinTask k).goto (.popAllCancel (i + 1))) else none
  | .count =>
    if e.thread.completion then
      some ({ e with info := { e.info with completions := e.info.completions + 1 } }.goto
        (.poll 0 []))
    else some (e.goto .loopTest)
  | .poll k seen =>
    match e.job.taskStatus k with
    | some st => some (e.goto (.poll (k + 1) (seen ++ [st])))
    | none =>
      let job := e.job.putStatus seen
      let info := if job.status = .completed
        then { e.info with successes := e.info.successes + 1 } else e.info
      some ({ e with job := job, info := info }.goto
        (if e.thread.repeats then .reset 0 else .loopTest))
  | .reset k =>
    if k < e.job.size then
      some ({ e with job := e.job.setTaskStatus k .ready }.goto (.reset (k + 1)))
    else some (e.goto .loopTest)
  | .loopTest => some (e.goto (if e.thread.repeats then .begin else .exited))
  | .unwindCancel rest =>
    match rest with
    | [] => some (e.goto .exited)
    | _ :: _ => some (e.goto (.unwindJoin rest))
  | .unwindJoin rest =>
    match rest with
    | [] => none
    | k :: rest =>
      if e.taskExited k then some ((e.joinTask k).goto (.unwindCancel rest)) else none
  | .exited => none

/-- The thread acts on a cancellation request, at the cancellation point
that it is in. -/
def cancelStep (e : JobExec) : Option JobExec :=
  if e.thread.cancelReq then
    match e.thread.pc with
    | .run _ =>
      match e.job.opts.execMode with
      | .sequential => some (e.goto .exited)
      | .parallel => some (e.goto (.unwindCancel e.taskRunners))
    | .wait k => some (e.goto (.unwindCancel [k]))
    | .waitAll i =>
      if i < e.taskRunners.length then some (e.goto (.unwindCancel e.taskRunners)) else none
    | .popJoin _ | .popAllJoin _ => some (e.goto .exited)
    | _ => none
  else none

/-- What a task thread does: the spawn and `task->status =
TASK_RUNNING`; then `waitpid`, `update_status` and the exit. -/
inductive TaskAct where
  | spawned
  | finished (status : WaitStatus)
  deriving DecidableEq, Repr

/-- A step of the task thread of node `k`. -/
def taskStep (e : JobExec) (k : Nat) (a : TaskAct) : Option JobExec :=
  match a, (e.thread.tasks k).phase with
  | .spawned, .created =>
    some ({ e with job := e.job.setTaskStatus k .running }.setTask k
      { e.thread.tasks k with phase := .running })
  | .finished status, .running =>
    match e.job.taskStatus k with
    | none => none
    | some st =>
      some ({ e with
        job := e.job.setTaskStatus k (updateStatus taskRunnerInfoDefaults st status).2 }.setTask k
          { e.thread.tasks k with phase := .exited })
  | _, _ => none

/-- The choices in a run of one job thread. -/
inductive Label where
  | job (ok : Bool)
  | cancelled
  | task (k : Nat) (a : TaskAct)
  deriving DecidableEq, Repr

def step (e : JobExec) : Label → Option JobExec
  | .job ok => e.jobStep ok
  | .cancelled => e.cancelStep
  | .task k a => e.taskStep k a

/-- The thread that `job_run` creates for a job. -/
def start (job : Job) : JobExec where
  job := job
  info := jobRunnerInfoDefaults
  taskRunners := []
  thread := .start job.opts

/-! ## Handles -/

/-- The task thread, named by its node, whose handle the job thread has
given or is about to give to `pthread_cancel` or `pthread_join`. -/
def usesTask (e : JobExec) : Option Nat :=
  match e.thread.pc with
  | .wait k | .popCancel k | .popJoin k => some k
  | .waitAll i | .popAllCancel i | .popAllJoin i => e.taskRunners[i]?
  | .unwindCancel (k :: _) | .unwindJoin (k :: _) => some k
  | _ => none

/-- The step is the return of a `task_runner_wait`. -/
def waitReturns (e : JobExec) : Label → Bool
  | .job _ =>
    match e.thread.pc with
    | .wait _ => true
    | .waitAll i => decide (i < e.taskRunners.length)
    | _ => false
  | _ => false

end JobExec

end Pyoneer.Blueprint
