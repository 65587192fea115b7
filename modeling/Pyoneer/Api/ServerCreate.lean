/-
Pyoneer.Api.ServerCreate — `server_create` of `api/server.c`, and what
its error path undoes.

The calls of the system are events. What the system answers is an
argument: for each endpoint the results of `socket`, `bind` and `listen`
(for TCP one attempt for each address of `getaddrinfo`), and what
`malloc` left in `s->pool`. The text of the labels is not modelled.

The error path is `server_destroy` on an object that is not complete.
`s->pool` was never written when the listeners fail; the listeners
behind the one that failed are zero, so that their descriptor is 0; and
the path of the one that failed is removed even if it was never bound.
-/
import Mathlib.Logic.Function.Iterate
import Pyoneer.Shared.CString

namespace Pyoneer.Api.ServerCreate

open Pyoneer.Shared

/-- `endpoint_t`. -/
inductive EndpointType where
  | unix | tcp
  deriving DecidableEq, Repr

/-- `server_endpoint`; the host and the backlog only go to the system. -/
structure Endpoint where
  type : EndpointType
  port : Option Bytes
  path : Option Bytes
  deriving DecidableEq, Repr

/-- What the system answers to `socket`, `bind` and `listen`. -/
inductive Attempt where
  | noSocket
  | noBind (fd : Nat)
  | noListen (fd : Nat)
  | listening (fd : Nat)
  deriving DecidableEq, Repr

/-- What the system answers for one endpoint; `tcp` is none if
`getaddrinfo` fails, else an attempt for each address. -/
structure Answer where
  unix : Attempt
  tcp : Option (List Attempt)
  deriving DecidableEq, Repr

/-- What the allocator gives: whether `malloc` of the server and `calloc`
of the listeners succeed, and the bits of `s->pool` in the new memory. -/
structure Memory where
  server : Bool
  listeners : Bool
  pool : Nat
  deriving DecidableEq, Repr

/-- What the program does: `socket` has returned a descriptor; a unix
socket was bound to a path; `close`; `unlink`; `thread_pool_destroy`. -/
inductive Event where
  | socket (fd : Nat)
  | bound (path : Bytes)
  | close (fd : Nat)
  | unlink (path : Bytes)
  | poolDestroy (pool : Nat)
  deriving DecidableEq, Repr

/-- What `strncpy` puts into `sun_path`. -/
def sunPath (path : Bytes) : Bytes := (cstr path).take 107

/-- `make_unix_listener`. -/
def makeUnixListener (path : Bytes) : Attempt → Option Nat × List Event
  | .noSocket => (none, [])
  | .noBind fd => (none, [.socket fd, .close fd])
  | .noListen fd => (none, [.socket fd, .bound (sunPath path), .close fd])
  | .listening fd => (some fd, [.socket fd, .bound (sunPath path)])

/-- The loop of `make_tcp_listener` over the addresses. -/
def tryAddresses : List Attempt → Option Nat × List Event
  | [] => (none, [])
  | .noSocket :: attempts => tryAddresses attempts
  | .noBind fd :: attempts | .noListen fd :: attempts =>
    ((tryAddresses attempts).1, .socket fd :: .close fd :: (tryAddresses attempts).2)
  | .listening fd :: _ => (some fd, [.socket fd])

/-- `make_tcp_listener`. -/
def makeTcpListener : Option (List Attempt) → Option Nat × List Event
  | none => (none, [])
  | some attempts => tryAddresses attempts

/-- `listener`. -/
structure Listener where
  cfg : Endpoint
  fd : Int
  deriving DecidableEq, Repr

/-- A listener as `calloc` leaves it: `EP_UNIX` and no path, and the
descriptor 0. -/
def Listener.zero : Listener where
  cfg := { type := .unix, port := none, path := none }
  fd := 0

/-- The body of the loop of `server_listeners_init`: the descriptor, none
for a failure. -/
def listenerInit (e : Endpoint) (a : Answer) : Option Nat × List Event :=
  match e.type with
  | .unix =>
    match e.path with
    | none => (none, [])
    | some path => makeUnixListener path a.unix
  | .tcp =>
    match e.port with
    | none => (none, [])
    | some _ => makeTcpListener a.tcp

/-- The loop of `server_listeners_init`: whether it succeeds, the array,
and what was done. -/
def listenersInit : List (Endpoint × Answer) → Bool × List Listener × List Event
  | [] => (true, [], [])
  | (e, a) :: rest =>
    match (listenerInit e a).1 with
    | none =>
      (false, { cfg := e, fd := -1 } :: rest.map fun _ => .zero, (listenerInit e a).2)
    | some fd =>
      ((listenersInit rest).1, { cfg := e, fd := fd } :: (listenersInit rest).2.1,
        (listenerInit e a).2 ++ (listenersInit rest).2.2)

/-- `unlink(s->listeners[i].cfg.path)`, for a unix endpoint that has a
path. -/
def unlinkPath (cfg : Endpoint) : List Event :=
  match cfg.type, cfg.path with
  | .unix, some path => [.unlink (cstr path)]
  | _, _ => []

/-- The body of the loop of `server_listeners_destroy`. -/
def listenerDestroy (l : Listener) : List Event :=
  (if 0 ≤ l.fd then [.close l.fd.toNat] else []) ++ unlinkPath l.cfg

/-- `server_destroy`; a NULL `listeners` is the empty list. -/
def serverDestroy (pool : Nat) (listeners : List Listener) : List Event :=
  (if pool ≠ 0 then [.poolDestroy pool] else []) ++ listeners.flatMap listenerDestroy

/-- `server_create`: whether it returns a server, and what was done.
`poolOk` is the result of `thread_pool_create`. -/
def serverCreate (mem : Memory) (cfg : List (Endpoint × Answer)) (poolOk : Bool) :
    Bool × List Event :=
  if cfg = [] ∨ mem.server = false then (false, [])
  else if mem.listeners = false then (false, serverDestroy mem.pool [])
  else
    let listeners := (listenersInit cfg).2.1
    let evs := (listenersInit cfg).2.2
    if (listenersInit cfg).1 = false then (false, evs ++ serverDestroy mem.pool listeners)
    else if poolOk = false then (false, evs ++ serverDestroy 0 listeners)
    else (true, evs)

/-! ## What a failed call should leave -/

/-- A descriptor, as far as this call goes: never opened, open, closed,
or treated in a way that no order of one `socket` and one `close` each
explains. -/
inductive Life where
  | never | opened | closed | twice
  deriving DecidableEq, Repr

/-- `close` on the descriptor. One that this call never opened is not
its concern. -/
def Life.close : Life → Life
  | .never => .never
  | .opened => .closed
  | .closed => .twice
  | .twice => .twice

/-- An event, for the descriptor `fd`. -/
def Life.step (fd : Nat) (x : Life) : Event → Life
  | .socket fd' =>
    if fd' = fd then
      match x with
      | .never | .closed => .opened
      | .opened | .twice => .twice
    else x
  | .close fd' => if fd' = fd then x.close else x
  | _ => x

def Life.run (fd : Nat) (x : Life) (evs : List Event) : Life := evs.foldl (Life.step fd) x

/-- `socket` never returns a descriptor that is still open. -/
def FreshFor (fd : Nat) (x : Life) : List Event → Prop
  | [] => True
  | e :: evs => (e = .socket fd → x ≠ .opened) ∧ FreshFor fd (x.step fd e) evs

/-- What `server_create` did is undone.

* `closed` — each socket that it opened was closed once;
* `unlinked` — each path that it removed was bound by it;
* `pool` — there is no pool, and none was used. -/
structure Undone (evs : List Event) : Prop where
  closed : ∀ fd, Life.run fd .never evs = .never ∨ Life.run fd .never evs = .closed
  unlinked : ∀ path, .unlink path ∈ evs → .bound path ∈ evs
  pool : ∀ pool, .poolDestroy pool ∉ evs

/-! ## The endpoints that were reached -/

/-- The endpoints up to the first one that fails. -/
def reached : List (Endpoint × Answer) → List (Endpoint × Answer)
  | [] => []
  | (e, a) :: rest =>
    match (listenerInit e a).1 with
    | none => [(e, a)]
    | some _ => (e, a) :: reached rest

/-- The endpoints behind it. -/
def unreached : List (Endpoint × Answer) → List (Endpoint × Answer)
  | [] => []
  | (e, a) :: rest =>
    match (listenerInit e a).1 with
    | none => rest
    | some _ => unreached rest

/-- Some listener cannot be set up. -/
def SetupFails (cfg : List (Endpoint × Answer)) : Prop :=
  ∃ e a, (e, a) ∈ cfg ∧ (listenerInit e a).1 = none

theorem listenersInit_fst {cfg : List (Endpoint × Answer)} :
    (listenersInit cfg).1 = false ↔ SetupFails cfg := by
  induction cfg with
  | nil => simp [listenersInit, SetupFails]
  | cons ea rest ih =>
    obtain ⟨e, a⟩ := ea
    rw [listenersInit]
    cases hr : (listenerInit e a).1 with
    | none => simpa using ⟨e, a, List.mem_cons_self, hr⟩
    | some fd =>
      simp only [ih]
      constructor
      · rintro ⟨e', a', hm, hf⟩
        exact ⟨e', a', List.mem_cons_of_mem _ hm, hf⟩
      · rintro ⟨e', a', hm, hf⟩
        rcases List.mem_cons.mp hm with heq | hm
        · cases heq
          rw [hr] at hf
          cases hf
        · exact ⟨e', a', hm, hf⟩

/-! ## Descriptors -/

/-- One if the descriptor is open. -/
def Life.opens : Life → Nat
  | .opened => 1
  | _ => 0

/-- What events that set up listeners do to the descriptor `fd`: it is
open afterwards if it was, or as often as `n` says, and it was touched
only if it was opened. -/
structure Handled (fd : Nat) (x : Life) (n : Nat) (evs : List Event) : Prop where
  once : Life.run fd x evs ≠ .twice
  count : (Life.run fd x evs).opens = x.opens + n
  never : Life.run fd x evs = .never ↔ x = .never ∧ .socket fd ∉ evs

section Descriptors

variable {fd : Nat} {x : Life} {evs evs' : List Event}

theorem Life.run_append : Life.run fd x (evs ++ evs') = Life.run fd (Life.run fd x evs) evs' :=
  List.foldl_append

theorem freshFor_append :
    FreshFor fd x (evs ++ evs') ↔ FreshFor fd x evs ∧ FreshFor fd (Life.run fd x evs) evs' := by
  induction evs generalizing x with
  | nil => simp [FreshFor, Life.run]
  | cons e evs ih => simp only [List.cons_append, FreshFor, ih, Life.run, List.foldl_cons, and_assoc]

theorem Handled.nil (hx : x ≠ .twice) : Handled fd x 0 [] :=
  ⟨hx, rfl, by simp [Life.run]⟩

theorem Handled.append {m n : Nat} (h : Handled fd x m evs)
    (h' : Handled fd (Life.run fd x evs) n evs') : Handled fd x (m + n) (evs ++ evs') := by
  constructor
  · rw [Life.run_append]
    exact h'.once
  · rw [Life.run_append, h'.count, h.count]
    omega
  · rw [Life.run_append, h'.never, h.never, List.mem_append, not_or, and_assoc]

theorem Handled.untouched (hx : x ≠ .twice) (hsock : .socket fd ∉ evs)
    (hsame : Life.run fd x evs = x) : Handled fd x 0 evs := by
  refine ⟨?_, ?_, ?_⟩
  · rw [hsame]
    exact hx
  · rw [hsame]
    rfl
  · rw [hsame]
    exact ⟨fun h => ⟨h, hsock⟩, fun h => h.1⟩

theorem Handled.touched {y : Life} (hx : x ≠ .opened) (hsock : .socket fd ∈ evs)
    (hy : y = .opened ∨ y = .closed) (hrun : Life.run fd x evs = y) :
    Handled fd x y.opens evs := by
  have hopens : x.opens = 0 := by
    cases x with
    | opened => exact absurd rfl hx
    | _ => rfl
  refine ⟨?_, ?_, ?_⟩
  · rw [hrun]
    rcases hy with rfl | rfl <;> simp
  · rw [hrun, hopens, Nat.zero_add]
  · rw [hrun]
    constructor
    · intro h
      rcases hy with rfl | rfl <;> cases h
    · intro h
      exact absurd hsock h.2

/-- A socket that is closed again at once, bound or not. -/
theorem Handled.retry {fd' : Nat} {mid : List Event} (hmid : mid = [] ∨ ∃ p, mid = [.bound p])
    (hx : x ≠ .twice) (hf : FreshFor fd x (.socket fd' :: mid ++ [.close fd'])) :
    Handled fd x 0 (.socket fd' :: mid ++ [.close fd']) := by
  by_cases hfd : fd' = fd
  · subst hfd
    have hopen : x ≠ .opened := hf.1 rfl
    refine Handled.touched (y := .closed) hopen (by simp) (Or.inr rfl) ?_
    rcases hmid with rfl | ⟨p, rfl⟩ <;> cases x <;> simp_all [Life.run, Life.step, Life.close]
  · refine .untouched hx ?_ ?_
    · rcases hmid with rfl | ⟨p, rfl⟩ <;> simp [Ne.symm hfd]
    · rcases hmid with rfl | ⟨p, rfl⟩ <;> simp [Life.run, Life.step, hfd]

/-- A socket that stays open. -/
theorem Handled.listening {fd' : Nat} {mid : List Event} (hmid : mid = [] ∨ ∃ p, mid = [.bound p])
    (hx : x ≠ .twice) (hf : FreshFor fd x (.socket fd' :: mid)) :
    Handled fd x (if fd' = fd then 1 else 0) (.socket fd' :: mid) := by
  by_cases hfd : fd' = fd
  · subst hfd
    have hopen : x ≠ .opened := hf.1 rfl
    rw [if_pos rfl]
    refine Handled.touched (y := .opened) hopen (by simp) (Or.inl rfl) ?_
    rcases hmid with rfl | ⟨p, rfl⟩ <;> cases x <;> simp_all [Life.run, Life.step]
  · rw [if_neg hfd]
    refine .untouched hx ?_ ?_
    · rcases hmid with rfl | ⟨p, rfl⟩ <;> simp [Ne.symm hfd]
    · rcases hmid with rfl | ⟨p, rfl⟩ <;> simp [Life.run, Life.step, hfd]

/-- How often the result of `listenerInit` is the descriptor `fd`. -/
def hits (fd : Nat) (r : Option Nat) : Nat := if r = some fd then 1 else 0

theorem makeUnixListener_handled {path : Bytes} {a : Attempt} (hx : x ≠ .twice)
    (hf : FreshFor fd x (makeUnixListener path a).2) :
    Handled fd x (hits fd (makeUnixListener path a).1) (makeUnixListener path a).2 := by
  cases a with
  | noSocket => exact .nil hx
  | noBind fd' => exact Handled.retry (Or.inl rfl) hx hf
  | noListen fd' => exact Handled.retry (Or.inr ⟨_, rfl⟩) hx hf
  | listening fd' =>
    have hlisten := Handled.listening (Or.inr ⟨_, rfl⟩) hx hf
    simpa [makeUnixListener, hits] using hlisten

theorem tryAddresses_handled {as : List Attempt} (hx : x ≠ .twice)
    (hf : FreshFor fd x (tryAddresses as).2) :
    Handled fd x (hits fd (tryAddresses as).1) (tryAddresses as).2 := by
  induction as generalizing x with
  | nil => exact .nil hx
  | cons a as ih =>
    cases a with
    | noSocket => exact ih hx hf
    | noBind fd' | noListen fd' =>
      -- this address, then the others
      have hf : FreshFor fd x ([.socket fd', .close fd'] ++ (tryAddresses as).2) := hf
      obtain ⟨hhere, hrest⟩ := freshFor_append.mp hf
      have hretry := Handled.retry (Or.inl (rfl : ([] : List Event) = [])) hx hhere
      have hall := hretry.append (ih hretry.once hrest)
      rw [Nat.zero_add] at hall
      exact hall
    | listening fd' =>
      have hlisten := Handled.listening (Or.inl (rfl : ([] : List Event) = [])) hx hf
      simpa [tryAddresses, hits] using hlisten

/-- One endpoint. -/
theorem listenerInit_handled {e : Endpoint} {a : Answer} (hx : x ≠ .twice)
    (hf : FreshFor fd x (listenerInit e a).2) :
    Handled fd x (hits fd (listenerInit e a).1) (listenerInit e a).2 := by
  unfold listenerInit at hf ⊢
  split at hf
  · split at hf
    · exact .nil hx
    · exact makeUnixListener_handled hx hf
  · split at hf
    · exact .nil hx
    · unfold makeTcpListener at hf ⊢
      split at hf
      · exact .nil hx
      · exact tryAddresses_handled hx hf

/-- The listeners with this descriptor. -/
def fdCount (fd : Nat) (ls : List Listener) : Nat := ls.countP fun l => l.fd = (fd : Int)

theorem fdCount_cons (l : Listener) (ls : List Listener) :
    fdCount fd (l :: ls) = fdCount fd ls + if l.fd = (fd : Int) then 1 else 0 := by
  simp [fdCount, List.countP_cons]

/-- How often `server_listeners_destroy` closes 0 for listeners that were
never set up. -/
def strays (fd : Nat) (cfg : List (Endpoint × Answer)) : Nat :=
  if fd = 0 then (unreached cfg).length else 0

theorem fdCount_zeros (rest : List (Endpoint × Answer)) :
    fdCount fd (rest.map fun _ => Listener.zero) = if fd = 0 then rest.length else 0 := by
  induction rest with
  | nil => simp [fdCount]
  | cons _ rest ih =>
    rw [List.map_cons, fdCount_cons, ih]
    by_cases hfd : fd = 0
    · simp [hfd, Listener.zero]
    · have hne : ¬ (0 : Int) = (fd : Int) := by omega
      simp [hfd, hne, Listener.zero]

/-- All endpoints: the array has each open descriptor once, and 0 for
each listener that was not reached. -/
theorem listenersInit_handled {cfg : List (Endpoint × Answer)} (hx : x ≠ .twice)
    (hf : FreshFor fd x (listenersInit cfg).2.2) :
    ∃ n, Handled fd x n (listenersInit cfg).2.2 ∧
      fdCount fd (listenersInit cfg).2.1 = n + strays fd cfg := by
  induction cfg generalizing x with
  | nil => exact ⟨0, .nil hx, by simp [listenersInit, fdCount, strays, unreached]⟩
  | cons ea rest ih =>
    obtain ⟨e, a⟩ := ea
    cases hr : (listenerInit e a).1 with
    | none =>
      simp only [listenersInit, hr] at hf ⊢
      have hhead := listenerInit_handled hx hf
      rw [hr] at hhead
      refine ⟨0, hhead, ?_⟩
      have hzeros : fdCount fd (rest.map fun _ => Listener.zero) =
          if fd = 0 then rest.length else 0 := fdCount_zeros rest
      have hneg : ¬ (-1 : Int) = (fd : Int) := by omega
      rw [fdCount_cons, hzeros, if_neg hneg, strays, unreached, hr, Nat.add_zero, Nat.zero_add]
    | some fd' =>
      simp only [listenersInit, hr] at hf ⊢
      obtain ⟨hhere, hrest⟩ := freshFor_append.mp hf
      have hhead := listenerInit_handled hx hhere
      obtain ⟨n, hn, hcount⟩ := ih hhead.once hrest
      rw [hr] at hhead
      refine ⟨_, hhead.append hn, ?_⟩
      have hstrays : strays fd ((e, a) :: rest) = strays fd rest := by
        simp only [strays, unreached, hr]
      have hhit : hits fd (some fd') = if (fd' : Int) = (fd : Int) then 1 else 0 := by
        simp only [hits, Option.some_inj, Int.natCast_inj]
      rw [hstrays, hhit, Nat.add_assoc, ← hcount, fdCount_cons, Nat.add_comm]

/-- `server_listeners_destroy` closes each descriptor as often as it is
in the array. -/
theorem run_destroy (ls : List Listener) :
    Life.run fd x (ls.flatMap listenerDestroy) = Life.close^[fdCount fd ls] x := by
  induction ls generalizing x with
  | nil => rfl
  | cons l ls ih =>
    have hone : Life.run fd x (listenerDestroy l) = if l.fd = (fd : Int) then x.close else x := by
      unfold listenerDestroy
      rw [Life.run_append]
      have hpath : ∀ y, Life.run fd y (unlinkPath l.cfg) = y := by
        intro y
        unfold unlinkPath
        split <;> rfl
      rw [hpath]
      by_cases hneg : 0 ≤ l.fd
      · have hiff : l.fd.toNat = fd ↔ l.fd = (fd : Int) := by omega
        simp [hneg, Life.run, Life.step, hiff]
      · have hne : l.fd ≠ (fd : Int) := by omega
        simp [hneg, Life.run, hne]
    rw [List.flatMap_cons, Life.run_append, hone, ih, fdCount_cons]
    by_cases hfd : l.fd = (fd : Int)
    · rw [if_pos hfd, if_pos hfd, Function.iterate_succ_apply]
    · rw [if_neg hfd, if_neg hfd, Nat.add_zero]

theorem iterate_close {y : Life} {z : Nat} (hy : y ≠ .twice) :
    (Life.close^[y.opens + z] y = .never ∨ Life.close^[y.opens + z] y = .closed) ↔
      y = .never ∨ z = 0 := by
  have hnever : ∀ k, Life.close^[k] .never = .never := fun k => Function.iterate_fixed rfl k
  have htwice : ∀ k, Life.close^[k] .twice = .twice := fun k => Function.iterate_fixed rfl k
  have hclosed : (Life.close^[z] .closed = .never ∨ Life.close^[z] .closed = .closed) ↔ z = 0 := by
    cases z with
    | zero => simp
    | succ z => simp [Function.iterate_succ_apply, Life.close, htwice]
  cases y with
  | never => simp [hnever]
  | opened =>
    rw [show Life.opened.opens + z = z + 1 from Nat.add_comm 1 z, Function.iterate_succ_apply]
    simpa [Life.close] using hclosed
  | closed =>
    rw [show Life.closed.opens + z = z from Nat.zero_add z]
    simpa using hclosed
  | twice => exact absurd rfl hy

end Descriptors

/-- What a call does that fails once it has its listeners: the set-up, as
far as it got, and `server_destroy`. -/
def failTrace (pool : Nat) (cfg : List (Endpoint × Answer)) : List Event :=
  (listenersInit cfg).2.2 ++ serverDestroy pool (listenersInit cfg).2.1

/-- The sockets are closed once, unless listeners were left behind and a
socket had the descriptor 0. -/
theorem closed_iff {cfg : List (Endpoint × Answer)} {pool : Nat}
    (hf : ∀ fd, FreshFor fd .never (listenersInit cfg).2.2) :
    (∀ fd, Life.run fd .never (failTrace pool cfg) = .never ∨
        Life.run fd .never (failTrace pool cfg) = .closed) ↔
      (unreached cfg ≠ [] → .socket 0 ∉ (listenersInit cfg).2.2) := by
  have hone : ∀ fd, (Life.run fd .never (failTrace pool cfg) = .never ∨
      Life.run fd .never (failTrace pool cfg) = .closed) ↔
      (.socket fd ∉ (listenersInit cfg).2.2 ∨ strays fd cfg = 0) := by
    intro fd
    obtain ⟨n, hn, hcount⟩ := listenersInit_handled (by simp) (hf fd)
    have hpool : ∀ y, Life.run fd y (if pool ≠ 0 then [.poolDestroy pool] else []) = y := by
      intro y
      split <;> rfl
    have hopens : n = (Life.run fd .never (listenersInit cfg).2.2).opens := by
      rw [hn.count]
      exact (Nat.zero_add n).symm
    rw [failTrace, serverDestroy, Life.run_append, Life.run_append, hpool, run_destroy, hcount,
      hopens, iterate_close hn.once, hn.never]
    simp
  simp only [hone]
  constructor
  · intro h hne
    rcases h 0 with h | h
    · exact h
    · simp only [strays, if_true, List.length_eq_zero_iff] at h
      exact absurd h hne
  · intro h fd
    by_cases hfd : fd = 0
    · subst hfd
      by_cases hne : unreached cfg = []
      · exact Or.inr (by simp [strays, hne])
      · exact Or.inl (h hne)
    · exact Or.inr (by simp [strays, hfd])

/-! ## Paths -/

/-- The endpoint binds this path. -/
def Binds (e : Endpoint) (a : Answer) (p : Bytes) : Prop :=
  e.type = .unix ∧ (∃ path, e.path = some path ∧ sunPath path = p) ∧
    ∃ fd, a.unix = .noListen fd ∨ a.unix = .listening fd

theorem tryAddresses_events {as : List Attempt} {ev : Event} (h : ev ∈ (tryAddresses as).2) :
    ∃ fd, ev = .socket fd ∨ ev = .close fd := by
  induction as with
  | nil => cases h
  | cons a as ih =>
    cases a with
    | noSocket => exact ih h
    | noBind fd | noListen fd =>
      rcases List.mem_cons.mp h with h | h
      · exact ⟨fd, Or.inl h⟩
      · rcases List.mem_cons.mp h with h | h
        · exact ⟨fd, Or.inr h⟩
        · exact ih h
    | listening fd => exact ⟨fd, Or.inl (List.mem_singleton.mp h)⟩

/-- What an endpoint binds. -/
theorem bound_listenerInit {e : Endpoint} {a : Answer} {p : Bytes} :
    .bound p ∈ (listenerInit e a).2 ↔ Binds e a p := by
  unfold listenerInit Binds
  cases e.type with
  | unix =>
    cases e.path with
    | none => simp
    | some path => cases h : a.unix <;> simp [makeUnixListener, eq_comm]
  | tcp =>
    have htcp : .bound p ∉ (makeTcpListener a.tcp).2 := by
      cases a.tcp with
      | none => simp [makeTcpListener]
      | some as =>
        intro h
        obtain ⟨fd, h | h⟩ := tryAddresses_events h <;> cases h
    cases e.port with
    | none => simp
    | some port => simp [htcp]

/-- The set-up of an endpoint removes nothing and has no pool. -/
theorem listenerInit_events {e : Endpoint} {a : Answer} {ev : Event}
    (h : ev ∈ (listenerInit e a).2) :
    (∃ fd, ev = .socket fd ∨ ev = .close fd) ∨ ∃ p, ev = .bound p := by
  unfold listenerInit at h
  split at h
  · split at h
    · cases h
    · rename_i path _
      cases ha : a.unix <;> simp only [ha, makeUnixListener, List.mem_cons, List.not_mem_nil,
        or_false] at h
      · exact Or.inl ⟨_, h⟩
      · rcases h with h | h | h
        · exact Or.inl ⟨_, Or.inl h⟩
        · exact Or.inr ⟨_, h⟩
        · exact Or.inl ⟨_, Or.inr h⟩
      · rcases h with h | h
        · exact Or.inl ⟨_, Or.inl h⟩
        · exact Or.inr ⟨_, h⟩
  · split at h
    · cases h
    · unfold makeTcpListener at h
      split at h
      · cases h
      · exact Or.inl (tryAddresses_events h)

/-- What was done, and for which endpoints the array was filled. -/
theorem listenersInit_eq (cfg : List (Endpoint × Answer)) :
    (listenersInit cfg).2.2 = (reached cfg).flatMap (fun ea => (listenerInit ea.1 ea.2).2) ∧
      (listenersInit cfg).2.1.map Listener.cfg
        = (reached cfg).map Prod.fst ++ (unreached cfg).map fun _ => Listener.zero.cfg := by
  induction cfg with
  | nil => simp [listenersInit, reached, unreached]
  | cons ea rest ih =>
    obtain ⟨e, a⟩ := ea
    cases hr : (listenerInit e a).1 with
    | none => simp [listenersInit, reached, unreached, hr]
    | some fd => simp [listenersInit, reached, unreached, hr, ih.1, ih.2]

theorem mem_listenersInit {cfg : List (Endpoint × Answer)} {ev : Event} :
    ev ∈ (listenersInit cfg).2.2 ↔ ∃ e a, (e, a) ∈ reached cfg ∧ ev ∈ (listenerInit e a).2 := by
  simp [(listenersInit_eq cfg).1, List.mem_flatMap]

theorem unlink_unlinkPath {cfg : Endpoint} {p : Bytes} :
    .unlink p ∈ unlinkPath cfg ↔ cfg.type = .unix ∧ ∃ path, cfg.path = some path ∧ cstr path = p := by
  unfold unlinkPath
  cases cfg.type <;> cases cfg.path <;> simp [eq_comm]

/-- What the destructor removes: the paths of all endpoints that were
reached. -/
theorem unlink_destroy {cfg : List (Endpoint × Answer)} {p : Bytes} {pool : Nat} :
    .unlink p ∈ serverDestroy pool (listenersInit cfg).2.1 ↔
      ∃ e a, (e, a) ∈ reached cfg ∧ .unlink p ∈ unlinkPath e := by
  have hdestroy : .unlink p ∈ serverDestroy pool (listenersInit cfg).2.1 ↔
      ∃ c ∈ (listenersInit cfg).2.1.map Listener.cfg, .unlink p ∈ unlinkPath c := by
    have hone : ∀ l, .unlink p ∈ listenerDestroy l ↔ .unlink p ∈ unlinkPath l.cfg := by
      intro l
      unfold listenerDestroy
      split <;> simp
    unfold serverDestroy
    split <;> simp [List.mem_flatMap, hone]
  have hzero : .unlink p ∉ unlinkPath Listener.zero.cfg := by simp [unlinkPath, Listener.zero]
  rw [hdestroy, (listenersInit_eq cfg).2]
  constructor
  · rintro ⟨c, hc, hp⟩
    rcases List.mem_append.mp hc with hc | hc
    · obtain ⟨⟨e, a⟩, hm, rfl⟩ := List.mem_map.mp hc
      exact ⟨e, a, hm, hp⟩
    · obtain ⟨_, _, rfl⟩ := List.mem_map.mp hc
      exact absurd hp hzero
  · rintro ⟨e, a, hm, hp⟩
    exact ⟨e, List.mem_append_left _ (List.mem_map.mpr ⟨(e, a), hm, rfl⟩), hp⟩

theorem mem_destroy_iff {ls : List Listener} {pool : Nat} {ev : Event}
    (hclose : ∀ fd, ev ≠ .close fd) (hunlink : ∀ p, ev ≠ .unlink p) :
    ev ∈ serverDestroy pool ls ↔ pool ≠ 0 ∧ ev = .poolDestroy pool := by
  have hlisteners : ev ∉ ls.flatMap listenerDestroy := by
    intro h
    obtain ⟨l, _, hl⟩ := List.mem_flatMap.mp h
    unfold listenerDestroy unlinkPath at hl
    split at hl <;> split at hl <;> simp_all
  unfold serverDestroy
  split <;> simp_all

/-- Paths that were removed were bound, exactly if each endpoint that was
reached had its path bound. -/
theorem unlinked_iff {cfg : List (Endpoint × Answer)} {pool : Nat} :
    (∀ p, .unlink p ∈ failTrace pool cfg → .bound p ∈ failTrace pool cfg) ↔
      ∀ e a path, (e, a) ∈ reached cfg → e.type = .unix → e.path = some path →
        ∃ e' a', (e', a') ∈ reached cfg ∧ Binds e' a' (cstr path) := by
  have hunlink : ∀ p, .unlink p ∈ failTrace pool cfg ↔
      ∃ e a, (e, a) ∈ reached cfg ∧ .unlink p ∈ unlinkPath e := by
    intro p
    rw [failTrace, List.mem_append, unlink_destroy, mem_listenersInit]
    constructor
    · rintro (⟨e, a, _, h⟩ | h)
      · rcases listenerInit_events h with ⟨fd, h | h⟩ | ⟨q, h⟩ <;> cases h
      · exact h
    · exact Or.inr
  have hbound : ∀ p, .bound p ∈ failTrace pool cfg ↔
      ∃ e a, (e, a) ∈ reached cfg ∧ Binds e a p := by
    intro p
    rw [failTrace, List.mem_append, mem_destroy_iff (by simp) (by simp), mem_listenersInit]
    simp [bound_listenerInit]
  simp only [hunlink, hbound, unlink_unlinkPath]
  constructor
  · intro h e a path hm htype hpath
    exact h (cstr path) ⟨e, a, hm, htype, path, hpath, rfl⟩
  · rintro h p ⟨e, a, hm, htype, path, hpath, rfl⟩
    exact h e a path hm htype hpath

theorem pool_iff {cfg : List (Endpoint × Answer)} {pool : Nat} :
    (∀ q, .poolDestroy q ∉ failTrace pool cfg) ↔ pool = 0 := by
  have hevs : ∀ q, .poolDestroy q ∉ (listenersInit cfg).2.2 := by
    intro q h
    obtain ⟨e, a, _, h⟩ := mem_listenersInit.mp h
    rcases listenerInit_events h with ⟨fd, h | h⟩ | ⟨p, h⟩ <;> cases h
  constructor
  · intro h
    by_contra hne
    refine h pool (List.mem_append_right _ ?_)
    exact (mem_destroy_iff (by simp) (by simp)).mpr ⟨hne, rfl⟩
  · intro hz q hq
    rcases List.mem_append.mp hq with hq | hq
    · exact hevs q hq
    · exact ((mem_destroy_iff (by simp) (by simp)).mp hq).1 hz

/-! ## The error path -/

/-- When the error path is right.

* `pool` — if no pool was asked for, the new memory held NULL there;
* `paths` — each unix endpoint that was reached has its path, the whole
  of it, bound in this call;
* `zero` — if endpoints were left behind, no socket had the descriptor
  0. -/
structure Undoable (mem : Memory) (cfg : List (Endpoint × Answer)) : Prop where
  pool : mem.listeners = false ∨ SetupFails cfg → mem.pool = 0
  paths : mem.listeners = true → ∀ e a path, (e, a) ∈ reached cfg → e.type = .unix →
    e.path = some path → ∃ e' a', (e', a') ∈ reached cfg ∧ Binds e' a' (cstr path)
  zero : mem.listeners = true → unreached cfg ≠ [] → ∀ e a, (e, a) ∈ reached cfg →
    .socket 0 ∉ (listenerInit e a).2

theorem undone_failTrace {cfg : List (Endpoint × Answer)} {pool : Nat}
    (hf : ∀ fd, FreshFor fd .never (listenersInit cfg).2.2) :
    Undone (failTrace pool cfg) ↔ pool = 0 ∧
      (∀ e a path, (e, a) ∈ reached cfg → e.type = .unix → e.path = some path →
        ∃ e' a', (e', a') ∈ reached cfg ∧ Binds e' a' (cstr path)) ∧
      (unreached cfg ≠ [] → ∀ e a, (e, a) ∈ reached cfg → .socket 0 ∉ (listenerInit e a).2) := by
  have hzero : .socket 0 ∉ (listenersInit cfg).2.2 ↔
      ∀ e a, (e, a) ∈ reached cfg → .socket 0 ∉ (listenerInit e a).2 := by
    rw [mem_listenersInit]
    simp
  constructor
  · intro h
    exact ⟨pool_iff.mp h.pool, unlinked_iff.mp h.unlinked,
      fun hne => hzero.mp ((closed_iff hf).mp h.closed hne)⟩
  · rintro ⟨hpool, hpaths, hfds⟩
    exact ⟨(closed_iff hf).mpr fun hne => hzero.mpr (hfds hne), unlinked_iff.mpr hpaths,
      pool_iff.mpr hpool⟩

theorem undone_nil : Undone [] := ⟨fun _ => Or.inl rfl, by simp, by simp⟩

theorem undone_poolDestroy {pool : Nat} : Undone (serverDestroy pool []) ↔ pool = 0 := by
  have hnil : Undone (failTrace pool []) ↔ _ := undone_failTrace fun _ => trivial
  simpa [failTrace, listenersInit, reached] using hnil

/-- What `server_create` does when it fails. -/
theorem serverCreate_fails {mem : Memory} {cfg : List (Endpoint × Answer)} {poolOk : Bool}
    (hfail : SetupFails cfg ∨ poolOk = false) (hne : cfg ≠ []) (hserver : mem.server = true)
    (hlisteners : mem.listeners = true) :
    ∃ pool, serverCreate mem cfg poolOk = (false, failTrace pool cfg) ∧
      (pool = 0 ↔ (SetupFails cfg → mem.pool = 0)) := by
  have hearly : ¬ (cfg = [] ∨ mem.server = false) := by simp [hne, hserver]
  have hcalloc : ¬ mem.listeners = false := by simp [hlisteners]
  unfold serverCreate
  rw [if_neg hearly, if_neg hcalloc]
  by_cases hset : (listenersInit cfg).1 = false
  · have hsetup := listenersInit_fst.mp hset
    refine ⟨mem.pool, ?_, by simp [hsetup]⟩
    rw [if_pos hset]
    rfl
  · have hsetup : ¬ SetupFails cfg := fun h => hset (listenersInit_fst.mpr h)
    refine ⟨0, ?_, by simp [hsetup]⟩
    rw [if_neg hset, if_pos (hfail.resolve_left hsetup)]
    rfl

/-- **The error path of `server_create`.** For all endpoints and all
answers of the system: a failed set-up of a listener or of the pool
gives NULL, and what was done is undone exactly under `Undoable`. -/
theorem serverCreate_undone_iff {mem : Memory} {cfg : List (Endpoint × Answer)} {poolOk : Bool}
    (hfail : SetupFails cfg ∨ poolOk = false)
    (hf : ∀ fd, FreshFor fd .never (listenersInit cfg).2.2) :
    (serverCreate mem cfg poolOk).1 = false ∧
      (Undone (serverCreate mem cfg poolOk).2 ↔
        (cfg ≠ [] → mem.server = true → Undoable mem cfg)) := by
  by_cases hearly : cfg = [] ∨ mem.server = false
  · rw [serverCreate, if_pos hearly]
    refine ⟨rfl, fun _ hne hserver => ?_, fun _ => undone_nil⟩
    rcases hearly with h | h
    · exact absurd h hne
    · rw [h] at hserver
      cases hserver
  · obtain ⟨hne, hserver⟩ := not_or.mp hearly
    have hserver : mem.server = true := by simpa using hserver
    cases hlisteners : mem.listeners with
    | false =>
      rw [serverCreate, if_neg hearly, if_pos hlisteners]
      refine ⟨rfl, ?_⟩
      rw [undone_poolDestroy]
      constructor
      · intro hpool _ _
        exact ⟨fun _ => hpool, by simp [hlisteners], by simp [hlisteners]⟩
      · intro h
        exact (h hne hserver).pool (Or.inl hlisteners)
    | true =>
      obtain ⟨pool, heq, hpool⟩ := serverCreate_fails hfail hne hserver hlisteners
      rw [heq, undone_failTrace hf, hpool]
      refine ⟨rfl, ?_⟩
      constructor
      · rintro ⟨hp, hpaths, hfds⟩ _ _
        exact ⟨fun h => hp (h.resolve_left (by simp [hlisteners])), fun _ => hpaths, fun _ => hfds⟩
      · intro h
        have hu := h hne hserver
        exact ⟨fun hs => hu.pool (Or.inr hs), hu.paths hlisteners, hu.zero hlisteners⟩

/-- A unix endpoint, and what the system answers for it. -/
def unixEndpoint (path : Bytes) (a : Attempt) : Endpoint × Answer :=
  ({ type := .unix, port := none, path := some path }, { unix := a, tcp := none })

/-- The first listener is set up, `listen` fails for the second, and the
third is not reached. -/
def threeEndpoints : List (Endpoint × Answer) :=
  [unixEndpoint (ascii "/run/a") (.listening 5), unixEndpoint (ascii "/run/b") (.noListen 6),
    unixEndpoint (ascii "/run/c") .noSocket]

/-- The destructor closes the first listener and removes its path. -/
theorem threeEndpoints_undone :
    SetupFails threeEndpoints ∧
      .close 5 ∈ (serverCreate { server := true, listeners := true, pool := 0 }
        threeEndpoints true).2 ∧
      Undone (serverCreate { server := true, listeners := true, pool := 0 }
        threeEndpoints true).2 := by
  have hset : SetupFails threeEndpoints :=
    ⟨_, _, List.mem_cons_of_mem _ (List.mem_cons_self ..), rfl⟩
  have hf : ∀ fd, FreshFor fd .never (listenersInit threeEndpoints).2.2 := by
    intro fd
    have hevs : (listenersInit threeEndpoints).2.2 = [.socket 5, .bound (ascii "/run/a"),
        .socket 6, .bound (ascii "/run/b"), .close 6] := rfl
    rw [hevs]
    by_cases h5 : 5 = fd
    · subst h5
      simp [FreshFor, Life.step]
    · by_cases h6 : 6 = fd
      · subst h6
        simp [FreshFor, Life.step]
      · simp [FreshFor, Life.step, h5, h6]
  have hreached : reached threeEndpoints =
      [unixEndpoint (ascii "/run/a") (.listening 5), unixEndpoint (ascii "/run/b") (.noListen 6)] :=
    rfl
  refine ⟨hset, by decide, (serverCreate_undone_iff (Or.inl hset) hf).2.mpr fun _ _ =>
    ⟨fun _ => rfl, ?_, ?_⟩⟩
  · intro _ e a path hm _ hpath
    refine ⟨e, a, hm, ?_⟩
    rw [hreached] at hm
    simp only [List.mem_cons, List.not_mem_nil, or_false] at hm
    rcases hm with heq | heq
    · cases heq
      cases hpath
      exact ⟨rfl, ⟨_, rfl, rfl⟩, 5, Or.inr rfl⟩
    · cases heq
      cases hpath
      exact ⟨rfl, ⟨_, rfl, rfl⟩, 6, Or.inl rfl⟩
  · intro _ _ e a hm
    rw [hreached] at hm
    simp only [List.mem_cons, List.not_mem_nil, or_false] at hm
    rcases hm with heq | heq
    · cases heq
      decide
    · cases heq
      decide

/-- **What the error path undoes that it did not do.** The socket of
another server is in the way: `bind` fails, and the path of the other
server is removed. With 4096 in the new memory, `thread_pool_destroy`
runs on that. And with a second endpoint behind the one that failed,
the descriptor 0 is closed again. -/
theorem serverCreate_undoes_too_much :
    (serverCreate { server := true, listeners := true, pool := 0 }
        [unixEndpoint (ascii "/run/a") (.noBind 5)] true
      = (false, [.socket 5, .close 5, .unlink (ascii "/run/a")]) ∧
      ¬ Undone [.socket 5, .close 5, .unlink (ascii "/run/a")]) ∧
    (serverCreate { server := true, listeners := true, pool := 4096 }
        [unixEndpoint (ascii "/run/a") (.noListen 5)] true
      = (false, [.socket 5, .bound (ascii "/run/a"), .close 5, .poolDestroy 4096,
          .unlink (ascii "/run/a")]) ∧
      ¬ Undone [.socket 5, .bound (ascii "/run/a"), .close 5, .poolDestroy 4096,
          .unlink (ascii "/run/a")]) ∧
    serverCreate { server := true, listeners := true, pool := 0 }
        [unixEndpoint (ascii "/run/a") (.noListen 0), unixEndpoint (ascii "/run/b") .noSocket] true
      = (false, [.socket 0, .bound (ascii "/run/a"), .close 0, .unlink (ascii "/run/a"),
          .close 0]) ∧
      ¬ Undone [.socket 0, .bound (ascii "/run/a"), .close 0, .unlink (ascii "/run/a"),
          .close 0] := by
  refine ⟨⟨rfl, ?_⟩, ⟨rfl, ?_⟩, rfl, ?_⟩
  · intro h
    have hb := h.unlinked (ascii "/run/a") (by decide)
    exact absurd hb (by decide)
  · intro h
    exact h.pool 4096 (by decide)
  · intro h
    have hc := h.closed 0
    exact absurd hc (by decide)

end Pyoneer.Api.ServerCreate
