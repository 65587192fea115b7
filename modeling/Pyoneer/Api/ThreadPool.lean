/-
Pyoneer.Api.ThreadPool — `api/thread_pool.c`: the bounded queue, the
worker threads and the calls that submit to it.

Every critical section of `pool->lock` is one step. A thread that comes
to `pthread_cond_wait` releases the lock and parks in that step; a woken
thread takes the lock again in a step of its own, in which it goes on
from the test of the loop. The label of a step names the thread that a
`pthread_cond_signal` wakes.

`size_t` is a number below `2 ^ 64`, and the arithmetic on it wraps.
-/
import Pyoneer.Lib.CondVar
import Pyoneer.Lib.Ring
import Pyoneer.Lib.Run

namespace Pyoneer.Api

open Pyoneer.Lib

/-- The number of values of `size_t`. -/
def sizeMod : Nat := 2 ^ 64

/-- `size_t`. -/
abbrev SizeT := Fin sizeMod

/-- Where a worker thread is, at work on jobs `α`.

* `ready` — before `pthread_mutex_lock`;
* `parked`, `notified` — in `pthread_cond_wait(&pool->not_empty, …)`,
  and woken there;
* `handling j` — in `client_handle_fd`;
* `exited`. -/
inductive WorkerPc (α : Type) where
  | ready
  | parked
  | notified
  | handling (j : α)
  | exited
  deriving DecidableEq, Repr

/-- Where a thread that submits is.

* `idle` — no call yet;
* `calling j` — in `thread_pool_submit`, before `pthread_mutex_lock`;
* `parked j`, `notified j` — in
  `pthread_cond_wait(&pool->not_full, …)`, and woken there;
* `returned j ok` — `thread_pool_submit` has returned, `0` if `ok`. -/
inductive SubmitPc (α : Type) where
  | idle
  | calling (j : α)
  | parked (j : α)
  | notified (j : α)
  | returned (j : α) (ok : Bool)
  deriving DecidableEq, Repr

namespace WorkerPc

variable {α : Type}

/-- Where a worker is when it is woken. -/
def wake : WorkerPc α → Option (WorkerPc α)
  | .parked => some .notified
  | _ => none

def woken : WorkerPc α → Bool
  | .notified => true
  | _ => false

end WorkerPc

namespace SubmitPc

variable {α : Type}

/-- Where a thread that submits is when it is woken. -/
def wake : SubmitPc α → Option (SubmitPc α)
  | .parked j => some (.notified j)
  | _ => none

def woken : SubmitPc α → Bool
  | .notified _ => true
  | _ => false

end SubmitPc

/-- `pool->not_empty`. -/
def notEmpty (α : Type) : CondVar (WorkerPc α) where
  wake := WorkerPc.wake
  woken := WorkerPc.woken
  wake_woken := by
    intro b b' h
    cases b <;> cases h
    rfl
  woken_wake := by
    intro b h
    cases b <;> first | rfl | cases h

/-- `pool->not_full`. -/
def notFull (α : Type) : CondVar (SubmitPc α) where
  wake := SubmitPc.wake
  woken := SubmitPc.woken
  wake_woken := by
    intro b b' h
    cases b <;> cases h
    rfl
  woken_wake := by
    intro b h
    cases b <;> first | rfl | cases h

/-- `struct ThreadPool`, with its threads and those that submit to it. -/
structure Pool (α : Type) where
  queue : Nat → α
  qcap : Nat
  qhead : Nat
  qtail : Nat
  qlen : Nat
  shuttingDown : Bool
  workers : List (WorkerPc α)
  submitters : List (SubmitPc α)

namespace Pool

variable {α : Type}

/-- `thread_pool_create`, for `m` threads that are going to submit;
`zero` is what `calloc` fills the array with. -/
def create (nworkers qcap : SizeT) (m : Nat) (zero : α) : Option (Pool α) :=
  if nworkers.val = 0 ∨ qcap.val = 0 then none
  else some
    { queue := fun _ => zero
      qcap := qcap.val
      qhead := 0
      qtail := 0
      qlen := 0
      shuttingDown := false
      workers := List.replicate nworkers.val .ready
      submitters := List.replicate m .idle }

/-- `queue_push`. -/
def queuePush (p : Pool α) (j : α) : Pool α :=
  { p with
    queue := Function.update p.queue p.qtail j
    qtail := (p.qtail + 1) % sizeMod % p.qcap
    qlen := (p.qlen + 1) % sizeMod }

/-- `queue_pop`. -/
def queuePop (p : Pool α) : α × Pool α :=
  (p.queue p.qhead,
    { p with
      qhead := (p.qhead + 1) % sizeMod % p.qcap
      qlen := (p.qlen + (sizeMod - 1)) % sizeMod })

/-- The jobs in the queue, in order. -/
def jobs (p : Pool α) : List α := window p.queue p.qcap p.qhead p.qlen

/-- `thread_pool_shutdown`. -/
def shutdown (p : Pool α) : Pool α :=
  { p with
    shuttingDown := true
    workers := (notEmpty α).broadcast p.workers
    submitters := (notFull α).broadcast p.submitters }

/-- Worker `i` has the lock: it parks, leaves, or pops a job and signals
`not_full`. -/
def workerStep (p : Pool α) (i : Nat) (pick : Option Nat) : Option (Pool α) :=
  if p.qlen = 0 ∧ p.shuttingDown = false then
    some { p with workers := p.workers.set i .parked }
  else if p.qlen = 0 then some { p with workers := p.workers.set i .exited }
  else
    match (notFull α).signal p.submitters pick with
    | some submitters =>
      some { p.queuePop.2 with
        workers := p.workers.set i (.handling p.queuePop.1)
        submitters := submitters }
    | none => none

/-- Thread `k` has the lock in `thread_pool_submit`: it is refused, parks,
or pushes its job and signals `not_empty`. -/
def submitStep (p : Pool α) (k : Nat) (j : α) (pick : Option Nat) : Option (Pool α) :=
  if p.shuttingDown then some { p with submitters := p.submitters.set k (.returned j false) }
  else if p.qlen = p.qcap then some { p with submitters := p.submitters.set k (.parked j) }
  else
    match (notEmpty α).signal p.workers pick with
    | some workers =>
      some { p.queuePush j with
        workers := workers
        submitters := p.submitters.set k (.returned j true) }
    | none => none

/-- What can happen: a worker takes the lock; its `client_handle_fd`
returns; a thread calls `thread_pool_submit`; it takes the lock; a
parked thread wakes for no reason; `thread_pool_shutdown`. -/
inductive Label (α : Type) where
  | worker (i : Nat) (pick : Option Nat)
  | handled (i : Nat)
  | call (k : Nat) (j : α)
  | submit (k : Nat) (pick : Option Nat)
  | wakeWorker (i : Nat)
  | wakeSubmitter (k : Nat)
  | shutdown

def step (p : Pool α) : Label α → Option (Pool α)
  | .worker i pick =>
    match p.workers[i]? with
    | some .ready | some .notified => p.workerStep i pick
    | _ => none
  | .handled i =>
    match p.workers[i]? with
    | some (.handling _) => some { p with workers := p.workers.set i .ready }
    | _ => none
  | .call k j =>
    match p.submitters[k]? with
    | some .idle | some (.returned _ _) =>
      some { p with submitters := p.submitters.set k (.calling j) }
    | _ => none
  | .submit k pick =>
    match p.submitters[k]? with
    | some (.calling j) | some (.notified j) => p.submitStep k j pick
    | _ => none
  | .wakeWorker i =>
    match (notEmpty α).wakeAt p.workers i with
    | some workers => some { p with workers := workers }
    | none => none
  | .wakeSubmitter k =>
    match (notFull α).wakeAt p.submitters k with
    | some submitters => some { p with submitters := submitters }
    | none => none
  | .shutdown => some p.shutdown

end Pool

end Pyoneer.Api
