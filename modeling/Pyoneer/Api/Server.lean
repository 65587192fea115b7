/-
Pyoneer.Api.Server — the accept loop of `api/server.c` over the thread
pool, with `server_stop` and `server_destroy`.

A file descriptor can be used again once it is closed, so a connection
is named by the number of its `accept` (`serial`), which the program
does not have. The server also keeps two records that the program does
not have: what `thread_pool_submit` returned for each connection, and
who closed it. `client_handle_fd` is a step that ends with its `close`.
-/
import Pyoneer.Api.ThreadPool

namespace Pyoneer.Api

open Pyoneer.Lib

/-- `job` of `thread_pool.c`, with the number of the `accept`. -/
structure Conn where
  fd : Nat
  listenerIndex : Nat
  serial : Nat
  deriving DecidableEq, Repr

/-- Who closes a connection. -/
inductive Closer where
  | worker (i : Nat)
  | server
  deriving DecidableEq, Repr

/-- Where `server_run` is.

* `start` — not called yet;
* `test` — at the test of `stop_flag`;
* `poll` — in `poll`;
* `each i revents` — in the loop over the listeners, before listener
  `i`; `revents` are the events of the listeners from `i` on;
* `submit i revents` — in `thread_pool_submit`, for a connection of
  listener `i`; `revents` are those of the listeners behind it;
* `close i revents c` — before `close(client_fd)`;
* `returned`. -/
inductive ServerPc where
  | start
  | test
  | poll
  | each (i : Nat) (revents : List Bool)
  | submit (i : Nat) (revents : List Bool)
  | close (i : Nat) (revents : List Bool) (c : Conn)
  | returned
  deriving DecidableEq, Repr

/-- Where `server_destroy` is: not called, in the loop of
`thread_pool_destroy` before the join of worker `k`, done. -/
inductive Teardown where
  | none
  | joining (k : Nat)
  | destroyed
  deriving DecidableEq, Repr

/-- What `poll` returns: `-1` with `EINTR` or another error, `0`, or
events, `true` for `POLLIN`. -/
inductive PollResult where
  | interrupted
  | failed
  | timeout
  | ready (revents : List Bool)
  deriving DecidableEq, Repr

/-- `struct Server` with its pool; `stops` counts the calls of
`server_stop` that have set the flag and not shut the pool down yet. -/
structure Server where
  pool : Pool Conn
  nlisteners : Nat
  stopFlag : Bool
  stops : Nat
  pc : ServerPc
  teardown : Teardown
  accepted : Nat
  results : List (Nat × Bool)
  closes : List (Nat × Closer)

namespace Server

/-- `server_create`, once the listeners are there: the thread that calls
`server_run` is the only one that submits. -/
def create (nworkers qcap : SizeT) (nlisteners : Nat) : Option Server :=
  match Pool.create nworkers qcap 1 { fd := 0, listenerIndex := 0, serial := 0 } with
  | some pool => some
      { pool := pool
        nlisteners := nlisteners
        stopFlag := false
        stops := 0
        pc := .start
        teardown := .none
        accepted := 0
        results := []
        closes := [] }
  | none => none

/-- What can happen: `server_run` is called, with the result of its
`calloc`; the test of `stop_flag`; `poll` returns; the next listener,
with what `accept` returns if it is called; `thread_pool_submit` takes
the lock; `close`; a worker takes the lock; `client_handle_fd` of a
worker closes its connection and returns; a parked thread wakes for no
reason; the two halves of `server_stop`; `server_destroy` is called; it
joins the next worker, or is done. -/
inductive Label where
  | run (ok : Bool)
  | test
  | poll (r : PollResult)
  | listener (fd : Option Nat)
  | submit (pick : Option Nat)
  | close
  | worker (i : Nat) (pick : Option Nat)
  | handled (i : Nat)
  | wakeWorker (i : Nat)
  | wakeSubmitter
  | stop
  | stopShutdown
  | destroy
  | join

/-- The pool takes a step. -/
def poolStep (s : Server) (l : Pool.Label Conn) : Option Server :=
  match s.pool.step l with
  | some pool => some { s with pool := pool }
  | none => none

/-- The connection that the next `accept` returns. -/
def nextConn (s : Server) (i fd : Nat) : Conn :=
  { fd := fd, listenerIndex := i, serial := s.accepted }

/-- What follows `thread_pool_submit`, once it has returned. -/
def submitted (s : Server) (i : Nat) (revents : List Bool) : Server :=
  match s.pool.submitters with
  | [.returned c true] =>
    { s with pc := .each (i + 1) revents, results := s.results ++ [(c.serial, true)] }
  | [.returned c false] =>
    { s with pc := .close i revents c, results := s.results ++ [(c.serial, false)] }
  | _ => s

def step (s : Server) : Label → Option Server
  | .run ok =>
    match s.pc with
    | .start => some { s with pc := if ok then .test else .returned }
    | _ => none
  | .test =>
    match s.pc with
    | .test => some { s with pc := if s.stopFlag then .returned else .poll }
    | _ => none
  | .poll r =>
    match s.pc, r with
    | .poll, .interrupted | .poll, .timeout => some { s with pc := .test }
    | .poll, .failed => some { s with pc := .returned }
    | .poll, .ready revents =>
      if revents.length = s.nlisteners then some { s with pc := .each 0 revents } else none
    | _, _ => none
  | .listener fd =>
    match s.pc, fd with
    | .each _ [], none => some { s with pc := .test }
    | .each i (false :: revents), none => some { s with pc := .each (i + 1) revents }
    | .each i (true :: revents), none => some { s with pc := .each (i + 1) revents }
    | .each i (true :: revents), some fd =>
      { s with pc := .submit i revents, accepted := s.accepted + 1 }.poolStep
        (.call 0 (s.nextConn i fd))
    | _, _ => none
  | .submit pick =>
    match s.pc with
    | .submit i revents => (s.poolStep (.submit 0 pick)).map fun s => s.submitted i revents
    | _ => none
  | .close =>
    match s.pc with
    | .close i revents c =>
      some { s with pc := .each (i + 1) revents, closes := s.closes ++ [(c.serial, .server)] }
    | _ => none
  | .worker i pick => s.poolStep (.worker i pick)
  | .handled i =>
    match s.pool.workers[i]? with
    | some (.handling c) =>
      { s with closes := s.closes ++ [(c.serial, Closer.worker i)] }.poolStep (.handled i)
    | _ => none
  | .wakeWorker i => s.poolStep (.wakeWorker i)
  | .wakeSubmitter => s.poolStep (.wakeSubmitter 0)
  | .stop =>
    match s.teardown with
    | .none => some { s with stopFlag := true, stops := s.stops + 1 }
    | _ => none
  | .stopShutdown =>
    if s.stops = 0 then none
    else some { s with pool := s.pool.shutdown, stops := s.stops - 1 }
  | .destroy =>
    match s.pc, s.teardown with
    | .returned, .none =>
      if s.stops = 0 then some { s with pool := s.pool.shutdown, teardown := .joining 0 }
      else none
    | _, _ => none
  | .join =>
    match s.teardown with
    | .joining k =>
      if k = s.pool.workers.length then some { s with teardown := .destroyed }
      else if s.pool.workers[k]? = some .exited then some { s with teardown := .joining (k + 1) }
      else none
    | _ => none

end Server

end Pyoneer.Api
