/-
Pyoneer.Runtime.Worker — `pyoneer/worker.c`, step by step.

A call of the worker is a `CallPc`. The status of the worker is derived
in steps of their own, as the source does it without synchronisation
with the job threads: one read per task, the write of `job->status`, its
read back, the write of `worker->status`, and only then the `switch`.

Commands (`worker_get_status`, `worker_run`, `worker_assign`) hold
`worker->lock`; signals (`worker_start`, `worker_restart`,
`worker_stop`) do not. A job that comes with a command is the client's
own until the command has the lock; it gets its number then. A NULL job
is refused before anything happens and has no call here.
-/
import Pyoneer.Runtime.Engine

namespace Pyoneer.Runtime

open Pyoneer.Lib Pyoneer.Shared Pyoneer.Blueprint

/-- Worker status codes (`WORKER_NOT_ASSIGNED` … `WORKER_WORKING`). -/
inductive WorkerStatus where
  | notAssigned | assigned | notWorking | working
  deriving DecidableEq, Repr

/-- The `switch` of `update_status`. -/
def workerStatusOf : JobStatus → WorkerStatus
  | .ready => .assigned
  | .running => .working
  | .notReady | .completed | .incomplete => .notWorking

/-- A job as `job_decode` builds it: nothing has run yet. -/
def Decoded : Type :=
  { job : Job // job.status = .ready ∧ ∀ task ∈ job.tasks, task.status = .ready }

instance : DecidableEq Decoded :=
  inferInstanceAs (DecidableEq
    { job : Job // job.status = .ready ∧ ∀ task ∈ job.tasks, task.status = .ready })

/-- A job of one task. -/
def oneTaskJob : Decoded := ⟨oneTask, by simp [oneTask]⟩

/-- `struct Worker`, with its engine. -/
structure Worker where
  core : Core
  status : WorkerStatus
  job : Option Nat
  locked : Bool

/-- A call, as the client makes it. -/
inductive Request where
  | getStatus
  | run (job : Decoded)
  | assign (job : Decoded)
  | start
  | restart
  | stop
  deriving DecidableEq

/-- What `job_encode_status` has read of a job, with its id. -/
structure JobReport where
  id : Int
  status : JobStatus
  tasks : List (TaskStatus × Bytes)
  deriving DecidableEq, Repr

/-- What `get_status` has read for its object; without a job, `"job"` is
null. -/
structure Report where
  status : WorkerStatus
  job : Option JobReport
  deriving DecidableEq, Repr

/-- `worker_status_map`. -/
def workerStatusMap : WorkerStatus → JsonValue
  | .notAssigned => .string (ascii "not_assigned")
  | .assigned => .string (ascii "assigned")
  | .notWorking => .string (ascii "not_working")
  | .working => .string (ascii "working")

/-- The object that `get_status` builds from what it has read. -/
def encodeReport (report : Report) : JsonValue :=
  let obj := jsonObjectPush (.object []) (ascii "status") (workerStatusMap report.status)
  match report.job with
  | none => jsonObjectPush obj (ascii "job") .null
  | some job =>
    let jobStatus := encodeJobStatus job.status job.tasks
    jsonObjectPush obj (ascii "job") (jsonObjectPush jobStatus (ascii "id") (.integer job.id))

/-- A call in progress; a job has its number now. -/
inductive Cmd where
  | getStatus
  | run (job : Nat)
  | assign (job : Nat)
  | start
  | restart
  | stop
  deriving DecidableEq, Repr

/-- `update_status` is called to decide what to do, and again by
`get_status` for the report. -/
inductive Why where
  | guard | report
  deriving DecidableEq, Repr

/-- Where a call is.

* `idle`, `returned c report` — no call, or none since `c`; the report
  is what a command returned, none for NULL and for a signal;
* `enter r` — before the lock, if the call takes it;
* `update c y` — in `update_status`, before it reads `worker->job`;
* `scan c y j k seen` — in `job_get_status` on job `j`, before the read
  of node `k`;
* `mapStatus c y j` — at `return job->status` and the `switch`;
* `decide c` — at the test of `worker->status`;
* `engine c pc` — in a function of the engine;
* `destroyJob c j`, `setJob c j` — the two lines that replace
  `worker->job`;
* `encode c` — in `get_status`, after its `update_status`;
* `encodeScan c st j k seen`, `encodeStatus c st j` — in the
  `job_get_status` of `job_encode_status`, before the read of node `k`
  and at its `return job->status`;
* `encodeTasks c st j k report` — in the loop of `job_encode_status`,
  before node `k`;
* `unlock c report` — before `pthread_mutex_unlock`. -/
inductive CallPc where
  | idle
  | returned (c : Cmd) (report : Option Report)
  | enter (r : Request)
  | update (c : Cmd) (y : Why)
  | scan (c : Cmd) (y : Why) (j k : Nat) (seen : List TaskStatus)
  | mapStatus (c : Cmd) (y : Why) (j : Nat)
  | decide (c : Cmd)
  | engine (c : Cmd) (pc : EnginePc)
  | destroyJob (c : Cmd) (j : Nat)
  | setJob (c : Cmd) (j : Nat)
  | encode (c : Cmd)
  | encodeScan (c : Cmd) (st : WorkerStatus) (j k : Nat) (seen : List TaskStatus)
  | encodeStatus (c : Cmd) (st : WorkerStatus) (j : Nat)
  | encodeTasks (c : Cmd) (st : WorkerStatus) (j k : Nat) (report : JobReport)
  | unlock (c : Cmd) (report : Option Report)
  deriving DecidableEq

namespace Request

/-- The call takes the lock. -/
def isCommand : Request → Bool
  | .getStatus | .run _ | .assign _ => true
  | .start | .restart | .stop => false

/-- The call in progress, with its job among the others. -/
def place (core : Core) : Request → Core × Cmd
  | .getStatus => (core, .getStatus)
  | .run job => (core.newJob job.1, .run core.njobs)
  | .assign job => (core.newJob job.1, .assign core.njobs)
  | .start => (core, .start)
  | .restart => (core, .restart)
  | .stop => (core, .stop)

end Request

namespace Cmd

/-- Where the call starts. -/
def entry : Cmd → CallPc
  | .getStatus => .update .getStatus .report
  | c => .update c .guard

/-- After `update_status`. -/
def updated (c : Cmd) : Why → CallPc
  | .guard => .decide c
  | .report => .encode c

/-- After a function of the engine; `ok` unless `engine_run` failed. -/
def engineDone (c : Cmd) (ok : Bool) : CallPc :=
  match c with
  | .run j => if ok then .destroyJob c j else .unlock c none
  | _ => .returned c none

/-- `engine_run(worker->engine, worker->job, SITE)`. -/
def runHeld (c : Cmd) (job : Option Nat) : Option CallPc :=
  match job with
  | some j => some (.engine c (.create j))
  | none => none

/-- The test of `worker->status`. -/
def choose (c : Cmd) (status : WorkerStatus) (job : Option Nat) : Option CallPc :=
  match c, status with
  | .getStatus, _ => none
  | .run _, .working | .assign _, .working => some (.unlock c none)
  | .run j, _ => some (.engine c (.create j))
  | .assign j, _ => some (.destroyJob c j)
  | .start, .notAssigned | .start, .working => some (.returned c none)
  | .start, .assigned => c.runHeld job
  | .start, .notWorking => some (.engine c (.load .restart))
  | .restart, .notAssigned => some (.returned c none)
  | .restart, .assigned => c.runHeld job
  | .restart, .working | .restart, .notWorking => some (.engine c (.load .restart))
  | .stop, .working => some (.engine c (.load .stop))
  | .stop, _ => some (.returned c none)

end Cmd

namespace Core

/-- The write that ends `update_status` of `job.c`, on job `j`. -/
def putStatus (c : Core) (j : Nat) (seen : List TaskStatus) : Core :=
  { c with jobs := Function.update c.jobs j ((c.jobs j).putStatus seen) }

/-- `job_destroy`. -/
def destroyJob (c : Core) (job : Option Nat) : Core :=
  match job with
  | none => c
  | some j => { c with jobFreed := Function.update c.jobFreed j true }

end Core

namespace Worker

/-- `worker_create`. -/
def create : Worker := { core := .create, status := .notAssigned, job := none, locked := false }

/-- One step of a call. `ok` is the result of `pthread_mutex_lock` where
the call takes the lock, of `pthread_create` in the engine, and of
`json_object_new` in `get_status`. `none` where the call has to wait. -/
def callStep (w : Worker) (pc : CallPc) (ok : Bool) : Option (Worker × CallPc) :=
  match pc with
  | .idle | .returned _ _ => none
  | .enter r =>
    if r.isCommand then
      if ok = false then some (w, .idle)
      else if w.locked then none
      else some ({ w with core := (r.place w.core).1, locked := true }, (r.place w.core).2.entry)
    else some (w, (r.place w.core).2.entry)
  | .update c y =>
    match w.job with
    | none => some ({ w with status := .notAssigned }, c.updated y)
    | some j => some (w, .scan c y j 0 [])
  | .scan c y j k seen =>
    match (w.core.jobs j).taskStatus k with
    | some st => some (w, .scan c y j (k + 1) (seen ++ [st]))
    | none => some ({ w with core := w.core.putStatus j seen }, .mapStatus c y j)
  | .mapStatus c y j =>
    some ({ w with status := workerStatusOf (w.core.jobs j).status }, c.updated y)
  | .decide c =>
    match c.choose w.status w.job with
    | some pc => some (w, pc)
    | none => none
  | .engine c pc =>
    match engineStep w.core pc ok with
    | some (core, .done ok) => some ({ w with core := core }, c.engineDone ok)
    | some (core, pc) => some ({ w with core := core }, .engine c pc)
    | none => none
  | .destroyJob c j => some ({ w with core := w.core.destroyJob w.job }, .setJob c j)
  | .setJob c j => some ({ w with job := some j }, .update c .report)
  | .encode c =>
    if ok = false then some (w, .unlock c none)
    else
      match w.job with
      | none => some (w, .unlock c (some { status := w.status, job := none }))
      | some j => some (w, .encodeScan c w.status j 0 [])
  | .encodeScan c st j k seen =>
    match (w.core.jobs j).taskStatus k with
    | some x => some (w, .encodeScan c st j (k + 1) (seen ++ [x]))
    | none => some ({ w with core := w.core.putStatus j seen }, .encodeStatus c st j)
  | .encodeStatus c st j =>
    let job := w.core.jobs j
    some (w, .encodeTasks c st j 0 { id := job.id, status := job.status, tasks := [] })
  | .encodeTasks c st j k report =>
    match (w.core.jobs j).tasks[k]? with
    | some t =>
      some (w, .encodeTasks c st j (k + 1)
        { report with tasks := report.tasks ++ [(t.status, t.name)] })
    | none => some (w, .unlock c (some { status := st, job := some report }))
  | .unlock c report => some ({ w with locked := false }, .returned c report)

end Worker

/-! ## One client -/

/-- The worker with one client. -/
structure Solo where
  worker : Worker
  pc : CallPc

namespace Solo

/-- What can happen: the client makes a call, the call takes a step, a
thread takes a step. -/
inductive Label where
  | call (r : Request)
  | move (ok : Bool)
  | thread (t : Nat) (l : JobExec.Label)

def step (s : Solo) : Label → Option Solo
  | .call r =>
    match s.pc with
    | .idle | .returned _ _ => some { s with pc := .enter r }
    | _ => none
  | .move ok =>
    match s.worker.callStep s.pc ok with
    | some (worker, pc) => some { worker := worker, pc := pc }
    | none => none
  | .thread t l =>
    match s.worker.core.threadStep t l with
    | some core => some { s with worker := { s.worker with core := core } }
    | none => none

/-- `worker_create`. -/
def create : Solo := { worker := .create, pc := .idle }

end Solo

/-! ## Any number of clients -/

/-- The worker with its `count` clients, one call each at a time. -/
structure Clients where
  worker : Worker
  count : Nat
  pcs : Nat → CallPc

namespace Clients

/-- What can happen: client `i` makes a call, the call of client `i`
takes a step, a thread takes a step. -/
inductive Label where
  | call (i : Nat) (r : Request)
  | move (i : Nat) (ok : Bool)
  | thread (t : Nat) (l : JobExec.Label)

def step (s : Clients) : Label → Option Clients
  | .call i r =>
    match s.pcs i with
    | .idle | .returned _ _ =>
      if i < s.count then some { s with pcs := Function.update s.pcs i (.enter r) } else none
    | _ => none
  | .move i ok =>
    match s.worker.callStep (s.pcs i) ok with
    | some (worker, pc) => some { s with worker := worker, pcs := Function.update s.pcs i pc }
    | none => none
  | .thread t l =>
    match s.worker.core.threadStep t l with
    | some core => some { s with worker := { s.worker with core := core } }
    | none => none

/-- `worker_create`, before any call of its `n` clients. -/
def create (n : Nat) : Clients := { worker := .create, count := n, pcs := fun _ => .idle }

end Clients

end Pyoneer.Runtime
