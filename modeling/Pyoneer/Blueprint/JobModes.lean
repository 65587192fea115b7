/-
Pyoneer.Blueprint.JobModes — what one iteration of a job is for, without
saying in which order its tasks execute.

An oracle fixes, for every iteration and every node, whether `task_run`
succeeds and the wait status the task ends with. The iteration is then
determined by the statuses it begins with: the loop goes past a node
that is COMPLETED, or that it can start; every other node ends it. A
node is started when the loop reaches it, its status is READY or
INCOMPLETE, and `task_run` succeeds. `iteration` chains iterations, with
`reset_status` between two of them.

`follows` picks the runs of a job thread that behave as the oracle says,
are not cancelled, and in which the RUNNING write of `task_run` comes
before the last write of the task thread.
-/
import Pyoneer.Blueprint.JobThread

namespace Pyoneer.Blueprint

open Pyoneer.Lib

/-- For each iteration and node: does `task_run` succeed, and the wait
status that the task ends with. -/
abbrev Oracle := Nat → Nat → Bool × WaitStatus

namespace Oracle

/-- The statuses with which a task is run. -/
def startable : Option TaskStatus → Bool
  | some .ready | some .incomplete => true
  | _ => false

variable (O : Oracle) (n : Nat) (sts : Nat → Option TaskStatus)

/-- The loop goes past node `k` in iteration `n`. -/
def goesPast (k : Nat) : Bool :=
  match sts k with
  | some .ready | some .incomplete => (O n k).1
  | some .completed => true
  | _ => false

/-- The loop of iteration `n` reaches node `k`. -/
def Clear (k : Nat) : Prop := ∀ j < k, O.goesPast n sts j = true

instance (k : Nat) : Decidable (O.Clear n sts k) := inferInstanceAs (Decidable (∀ j < k, _))

/-- Iteration `n` starts the task of node `k`. -/
def Starts (k : Nat) : Prop := O.Clear n sts k ∧ startable (sts k) = true ∧ (O n k).1 = true

instance (k : Nat) : Decidable (O.Starts n sts k) := inferInstanceAs (Decidable (_ ∧ _))

/-- The status that the task of node `k` ends with once started. -/
def outcome (k : Nat) : TaskStatus := (updateStatus taskRunnerInfoDefaults .running (O n k).2).2

/-- The status of node `k` after the tasks of iteration `n`. -/
def after (k : Nat) : Option TaskStatus :=
  if O.Starts n sts k then some (O.outcome n k) else sts k

end Oracle

/-- Between two iterations: the statuses and the counters that one left
behind, and whether another follows. -/
structure Iteration where
  statuses : Nat → Option TaskStatus
  info : JobRunnerInfo
  again : Bool

namespace Iteration

/-- Before the first iteration; a `do` loop has one. -/
def first (job : Job) : Iteration where
  statuses := job.taskStatus
  info := jobRunnerInfoDefaults
  again := true

variable (O : Oracle) (job : Job) (it : Iteration)

/-- The number of the iteration that follows. -/
def number : Nat := it.info.attempts + 1

/-- The next iteration goes past every node. -/
def Completes : Prop := O.Clear it.number it.statuses job.size

instance : Decidable (it.Completes O job) := inferInstanceAs (Decidable (O.Clear _ _ _))

/-- The statuses that the tasks of the next iteration leave. -/
def afterTasks (k : Nat) : Option TaskStatus := O.after it.number it.statuses k

/-- The next iteration finds the job COMPLETED. An empty job keeps the
status it has. -/
def Succeeds : Prop :=
  if job.size = 0 then job.status = .completed
  else ∀ k < job.size, it.afterTasks O k = some .completed

instance : Decidable (it.Succeeds O job) :=
  inferInstanceAs (Decidable (if job.size = 0 then _ else _))

/-- The iteration is followed by `reset_status` and another one. -/
def Repeats : Prop := it.Completes O job ∧ job.opts.runMode = .runRepeat

instance : Decidable (it.Repeats O job) := inferInstanceAs (Decidable (_ ∧ _))

/-- The next iteration. -/
def next : Iteration where
  statuses := fun k =>
    if it.Repeats O job then if k < job.size then some .ready else none
    else it.afterTasks O k
  info :=
    { attempts := it.number
      completions := it.info.completions + if it.Completes O job then 1 else 0
      successes :=
        it.info.successes + if it.Completes O job ∧ it.Succeeds O job then 1 else 0 }
  again := decide (it.Repeats O job)

end Iteration

/-- After `n` iterations, if there are so many. -/
def iteration (O : Oracle) (job : Job) : Nat → Option Iteration
  | 0 => some (.first job)
  | n + 1 =>
    match iteration O job n with
    | some it => if it.again then some (it.next O job) else none
    | none => none

namespace JobExec

/-- The runs in which the outcomes are the oracle's, the thread is not
cancelled, and `task_run` writes RUNNING before the task thread writes
its last status. -/
def follows (O : Oracle) (_ : History JobExec Label) (e : JobExec) : Label → Prop
  | .job ok => ∀ k, e.thread.pc = .run k → ok = (O e.info.attempts k).1
  | .cancelled => False
  | .task _ .spawned => True
  | .task k (.finished ws) => ws = (O e.info.attempts k).2 ∧ e.thread.pc ≠ .setRunning k

/-- The thread has ended the body of its `n`-th iteration. -/
def EndOf (n : Nat) (e : JobExec) : Prop := e.thread.pc = .loopTest ∧ e.info.attempts = n

/-- The thread has exited after `n` iterations. -/
def ExitedAfter (n : Nat) (e : JobExec) : Prop :=
  e.thread.pc = .exited ∧ e.info.attempts = n

/-- In the history, `task_run` created the task thread of node `k` in
iteration `n`. -/
def StartedIn (h : History JobExec Label) (n k : Nat) : Prop :=
  ∃ e, (e, Label.job true) ∈ h ∧ e.thread.pc = .run k ∧ e.info.attempts = n

/-- The job with another execution mode. -/
def startIn (mode : ExecMode) (job : Job) : JobExec :=
  start { job with opts := { job.opts with execMode := mode } }

/-- Some run of the job in this mode gets to such a state. -/
def Reaches (O : Oracle) (job : Job) (mode : ExecMode) (goal : JobExec → Prop) : Prop :=
  ∃ h e, Run step (follows O) (startIn mode job) h e ∧ goal e

end JobExec

end Pyoneer.Blueprint
