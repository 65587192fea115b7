/-
Pyoneer.Runtime.Engine — `pyoneer/engine.c` and the job runners of
`blueprint/job.c` under it, step by step, with the job threads that they
create.

`Core` is the memory that the calls and the threads share: the jobs, the
job runners, the threads, and `engine->job_runner`. Objects are named by
numbers in the order of their allocation and keep their number after
they are freed. A thread that has exited stays in `threads`, with the
number of times that it was joined.

A call of the engine is an `EnginePc`. `job_runner_stop` is called from
four places; `After` says what follows it there. `engineStep` is one
step of a call, `Core.threadStep` one step of a job thread or of one of
its task threads. `Engine` puts them together, for a client that makes
one call after the other.
-/
import Pyoneer.Blueprint.JobThread

namespace Pyoneer.Runtime

open Pyoneer.Lib Pyoneer.Blueprint

/-- `struct JobRunner`, with the number of its job and the handle in
`job_tid`. -/
structure JobRunner where
  job : Nat
  jobTid : Nat
  info : JobRunnerInfo
  taskRunners : List Nat
  freed : Bool

/-- A job thread: the runner that it was created for, its locals, and
how often it was joined. -/
structure PosixThread where
  runner : Nat
  body : JobThread
  joins : Nat

/-- What the calls and the threads share. -/
structure Core where
  jobs : Nat → Job
  jobFreed : Nat → Bool
  njobs : Nat
  runners : Nat → JobRunner
  nrunners : Nat
  threads : Nat → PosixThread
  nthreads : Nat
  jobRunner : Option Nat

namespace Core

/-- `engine_create`, before any allocation of a job. -/
def create : Core where
  jobs := fun _ => { id := 0, status := .ready, opts := jobOptsDefault, tasks := [] }
  jobFreed := fun _ => false
  njobs := 0
  runners := fun _ =>
    { job := 0, jobTid := 0, info := jobRunnerInfoDefaults, taskRunners := [], freed := false }
  nrunners := 0
  threads := fun _ => { runner := 0, body := .start jobOptsDefault, joins := 0 }
  nthreads := 0
  jobRunner := none

/-- A job that a caller has built. -/
def newJob (c : Core) (job : Job) : Core :=
  { c with jobs := Function.update c.jobs c.njobs job, njobs := c.njobs + 1 }

/-- The thread `t` has been created and has not terminated. -/
def Live (c : Core) (t : Nat) : Prop := t < c.nthreads ∧ (c.threads t).body.pc ≠ .exited

instance (c : Core) (t : Nat) : Decidable (c.Live t) := inferInstanceAs (Decidable (_ ∧ _))

/-- The number of the job that thread `t` iterates. -/
def jobOf (c : Core) (t : Nat) : Nat := (c.runners (c.threads t).runner).job

/-- What thread `t` works on. -/
def exec (c : Core) (t : Nat) : JobExec where
  job := c.jobs (c.jobOf t)
  info := (c.runners (c.threads t).runner).info
  taskRunners := (c.runners (c.threads t).runner).taskRunners
  thread := (c.threads t).body

/-- What thread `t` leaves behind after a step. -/
def putExec (c : Core) (t : Nat) (e : JobExec) : Core :=
  { c with
    jobs := Function.update c.jobs (c.jobOf t) e.job
    runners := Function.update c.runners (c.threads t).runner
      { c.runners (c.threads t).runner with info := e.info, taskRunners := e.taskRunners }
    threads := Function.update c.threads t { c.threads t with body := e.thread } }

/-- A step of job thread `t` or of one of its task threads. -/
def threadStep (c : Core) (t : Nat) (l : JobExec.Label) : Option Core :=
  if t < c.nthreads then ((c.exec t).step l).map (c.putExec t) else none

/-- A new thread for runner `r`, with the handle in `job_tid`. -/
def spawn (c : Core) (r : Nat) : Core :=
  { c with
    runners := Function.update c.runners r { c.runners r with jobTid := c.nthreads }
    threads := Function.update c.threads c.nthreads
      { runner := r, body := .start (c.jobs (c.runners r).job).opts, joins := 0 }
    nthreads := c.nthreads + 1 }

/-- The runner that `job_run` fills in before it creates the thread. -/
def newRunner (c : Core) (j : Nat) : Core :=
  { c with
    runners := Function.update c.runners c.nrunners
      { job := j, jobTid := 0, info := jobRunnerInfoDefaults, taskRunners := [], freed := false }
    nrunners := c.nrunners + 1 }

/-- `job_run`, once nothing has failed. -/
def launch (c : Core) (j : Nat) : Core := (c.newRunner j).spawn c.nrunners

/-- `pthread_cancel(t)`. -/
def cancel (c : Core) (t : Nat) : Core :=
  { c with
    threads := Function.update c.threads t
      { c.threads t with body := { (c.threads t).body with cancelReq := true } } }

/-- `pthread_join(t)` returns. -/
def join (c : Core) (t : Nat) : Core :=
  { c with
    threads := Function.update c.threads t
      { c.threads t with joins := (c.threads t).joins + 1 } }

/-- `free(runner)`. -/
def freeRunner (c : Core) (r : Nat) : Core :=
  { c with runners := Function.update c.runners r { c.runners r with freed := true } }

/-- `engine->job_runner = runner`. -/
def setJobRunner (c : Core) (r : Nat) : Core := { c with jobRunner := some r }

/-- The handle in `job_tid` of runner `r`. -/
def tid (c : Core) (r : Nat) : Nat := (c.runners r).jobTid

end Core

/-! ## Calls -/

/-- The functions of the engine. -/
inductive EngineCall where
  | run (job : Nat)
  | restart
  | stop
  | wait
  | destroy
  deriving DecidableEq, Repr

/-- What follows `job_runner_stop`: `free` of the old runner in
`engine_run`, with the new runner at hand; `job_thread_create` in
`job_runner_restart`; the return of `engine_stop` and of `engine_wait`;
`free(engine)`. -/
inductive After where
  | free (new : Nat)
  | recreate
  | return
  | freeEngine
  deriving DecidableEq, Repr

/-- Where a call is.

* `create j` — in `job_run`;
* `swap new` — `job_runner_destroy(engine->job_runner)` reads the field;
* `load call` — the other functions read it;
* `cancel r k`, `join r k` — in `job_runner_stop` (`job_runner_wait` has
  only the join);
* `free r new`, `store new` — the end of `engine_run`;
* `recreate r` — the end of `job_runner_restart`;
* `freeEngine` — the end of `engine_destroy`;
* `done ok` — returned, `ok` unless `engine_run` returned `-1`. -/
inductive EnginePc where
  | create (job : Nat)
  | swap (new : Nat)
  | load (call : EngineCall)
  | cancel (r : Nat) (k : After)
  | join (r : Nat) (k : After)
  | free (r new : Nat)
  | store (new : Nat)
  | recreate (r : Nat)
  | freeEngine
  | done (ok : Bool)
  deriving DecidableEq, Repr

/-- The first point of a call. -/
def EngineCall.entry : EngineCall → EnginePc
  | .run j => .create j
  | c => .load c

/-- The job given to `engine_run` exists. -/
def EngineCall.valid (c : Core) : EngineCall → Bool
  | .run j => j < c.njobs
  | _ => true

def After.next (r : Nat) : After → EnginePc
  | .free new => .free r new
  | .recreate => .recreate r
  | .return => .done true
  | .freeEngine => .freeEngine

/-- `restart`, `stop`, `wait` and `destroy` once `engine->job_runner` is
read. -/
def EngineCall.loaded : EngineCall → Option Nat → EnginePc
  | .run j, _ => .create j
  | .destroy, none => .freeEngine
  | _, none => .done true
  | .restart, some r => .cancel r .recreate
  | .stop, some r => .cancel r .return
  | .wait, some r => .join r .return
  | .destroy, some r => .cancel r .freeEngine

/-- One step of a call. `ok` is the result of `pthread_create`; in
`job_run` it also stands for the site and the `malloc`. -/
def engineStep (c : Core) (pc : EnginePc) (ok : Bool) : Option (Core × EnginePc) :=
  match pc with
  | .create j =>
    if (c.jobs j).size = 0 ∨ ok = false then some (c, .done false)
    else some (c.launch j, .swap c.nrunners)
  | .swap new =>
    match c.jobRunner with
    | none => some (c, .store new)
    | some r => some (c, .cancel r (.free new))
  | .load call => some (c, call.loaded c.jobRunner)
  | .cancel r k => some (c.cancel (c.tid r), .join r k)
  | .join r k =>
    if (c.threads (c.tid r)).body.pc = .exited then some (c.join (c.tid r), k.next r) else none
  | .free r new => some (c.freeRunner r, .store new)
  | .store new => some (c.setJobRunner new, .done true)
  | .recreate r => some (if ok then c.spawn r else c, .done true)
  | .freeEngine => some (c, .done true)
  | .done _ => none

/-! ## One client -/

/-- The engine with one client. -/
structure Engine where
  core : Core
  pc : EnginePc
  freed : Bool

namespace Engine

/-- What can happen: the client builds a job, makes a call, the call
takes a step, a thread takes a step. -/
inductive Label where
  | newJob (job : Job)
  | call (c : EngineCall)
  | move (ok : Bool)
  | thread (t : Nat) (l : JobExec.Label)

def step (s : Engine) : Label → Option Engine
  | .newJob job => some { s with core := s.core.newJob job }
  | .call c =>
    match s.pc with
    | .done _ => if s.freed = false ∧ c.valid s.core then some { s with pc := c.entry } else none
    | _ => none
  | .move ok =>
    match engineStep s.core s.pc ok with
    | some (core, pc) => some { core := core, pc := pc, freed := s.freed || s.pc == .freeEngine }
    | none => none
  | .thread t l =>
    match s.core.threadStep t l with
    | some core => some { s with core := core }
    | none => none

/-- `engine_create`. -/
def create : Engine := { core := .create, pc := .done true, freed := false }

end Engine

end Pyoneer.Runtime
