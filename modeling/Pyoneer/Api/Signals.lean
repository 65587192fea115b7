/-
Pyoneer.Api.Signals — the handler of SIGINT and SIGTERM (`on_term` of
`main.c`) on the threads of the server.

The handler calls `server_stop`, which sets `stop_flag` and then takes
`pool->lock` in `thread_pool_shutdown`. It runs on top of whatever the
thread was doing, which goes on when the handler has returned. The signal
that is being handled is blocked on its thread, the other one is not, so
that handlers nest. A critical section of the pool is two steps here: the
lock is taken, and then the section is executed and the lock released.

`server_destroy` joins the workers and releases the pool and then the
server; the global `SERVER` keeps its value. `Harmless` is what a signal
and the schedule have to meet for the handler to be safe: no handler on
top of a thread that has the lock, and none left over when an object that
it is going to touch is released.
-/
import Pyoneer.Api.ServerTheorems

namespace Pyoneer.Api

open Pyoneer.Lib

/-- The signals with the handler `on_term`. -/
inductive Signo where
  | sigint | sigterm
  deriving DecidableEq, Repr

/-- The threads of the process: the one of `main`, the workers of the
pool, and the others (job threads, task threads), which do not use the
pool. -/
inductive Tid where
  | main
  | worker (i : Nat)
  | other (k : Nat)
  deriving DecidableEq, Repr

/-- Where a handler is.

* `test` — at `if (SERVER)`;
* `store` — before `atomic_store(&s->stop_flag, 1)`;
* `readPool` — at `if (s->pool)`;
* `lock` — at `pthread_mutex_lock(&pool->lock)`;
* `critical` — after it. -/
inductive OnTermPc where
  | test
  | store
  | readPool
  | lock
  | critical
  deriving DecidableEq, Repr

/-- The next step uses the server. -/
def OnTermPc.usesServer : OnTermPc → Bool
  | .store | .readPool => true
  | _ => false

/-- The next step uses the pool. -/
def OnTermPc.usesPool : OnTermPc → Bool
  | .lock | .critical => true
  | _ => false

/-- A handler in progress. -/
structure Frame where
  tid : Tid
  signo : Signo
  pc : OnTermPc
  deriving DecidableEq, Repr

/-- What `server_destroy` has released: nothing; the pool, which
`s->pool` still points to; the pool, and `s->pool` is NULL; the server;
and `main` has returned. -/
inductive Released where
  | nothing
  | pool
  | poolCleared
  | server
  | ended
  deriving DecidableEq, Repr

/-- The process. `owner` is the thread that has `pool->lock`; `frames`
are the handlers in progress, the newest first. -/
structure Process where
  server : Server
  owner : Option Tid
  frames : List Frame
  released : Released

namespace Process

/-- After `policy_init`. -/
def start (server : Server) : Process :=
  { server := server, owner := none, frames := [], released := .nothing }

/-- What can happen: a thread takes a step outside of a handler; it gets
`pool->lock` there; a signal is delivered to a thread; handler `n` of the
list takes a step; `server_destroy` goes on after its joins. -/
inductive Label where
  | base (l : Server.Label)
  | acquire (t : Tid)
  | deliver (t : Tid) (signo : Signo)
  | handler (n : Nat)
  | cleanup

/-- The thread that takes the step; none for a wakeup without a reason,
and for `server_stop`, which only the handler calls. -/
def actor : Server.Label → Option Tid
  | .worker i _ | .handled i => some (.worker i)
  | .wakeWorker _ | .wakeSubmitter | .stop | .stopShutdown => none
  | _ => some .main

/-- The step is a critical section of the pool. -/
def isCritical : Server.Label → Bool
  | .submit _ | .worker _ _ | .destroy => true
  | _ => false

/-- A handler runs on the thread. -/
def interrupted (p : Process) (t : Tid) : Bool := p.frames.any fun f => f.tid == t

/-- The thread is at a `pthread_mutex_lock(&pool->lock)`, or woken in a
`pthread_cond_wait`. -/
def wantsLock (s : Server) : Tid → Bool
  | .main =>
    match s.pc with
    | .submit _ _ =>
      match s.pool.submitters with
      | [.calling _] | [.notified _] => true
      | _ => false
    | .returned => s.teardown == .none
    | _ => false
  | .worker i =>
    match s.pool.workers[i]? with
    | some .ready | some .notified => true
    | _ => false
  | .other _ => false

/-- The thread has not been joined. -/
def alive (s : Server) : Tid → Bool
  | .worker i =>
    match s.teardown with
    | .none => decide (i < s.pool.workers.length)
    | .joining k => decide (k ≤ i) && decide (i < s.pool.workers.length)
    | .destroyed => false
  | _ => true

/-- The worker that the next join waits for. -/
def joins (s : Server) : Server.Label → Option Tid
  | .join =>
    match s.teardown with
    | .joining k => if k < s.pool.workers.length then some (.worker k) else none
    | _ => none
  | _ => none

/-- A step outside of a handler. A thread that is interrupted waits, and
so does the join of one. -/
def baseStep (p : Process) (l : Server.Label) : Option Process :=
  match l with
  | .stop | .stopShutdown => none
  | l =>
    if (actor l).any p.interrupted || (joins p.server l).any p.interrupted then none
    else if isCritical l = true ∧ p.owner ≠ actor l then none
    else
      match p.server.step l with
      | some server =>
        some { p with server := server, owner := if isCritical l then none else p.owner }
      | none => none

/-- Handler `n` goes to `pc`. -/
def goto (p : Process) (n : Nat) (f : Frame) (pc : OnTermPc) : Process :=
  { p with frames := p.frames.set n { f with pc := pc } }

/-- Handler `n` returns. -/
def finish (p : Process) (n : Nat) : Process := { p with frames := p.frames.eraseIdx n }

/-- A step of handler `n`, which is `f`. -/
def handlerStep (p : Process) (n : Nat) (f : Frame) : Option Process :=
  match f.pc with
  | .test => some (p.goto n f .store)
  | .store => some ({ p with server := { p.server with stopFlag := true } }.goto n f .readPool)
  | .readPool =>
    match p.released with
    | .nothing | .pool => some (p.goto n f .lock)
    | _ => some (p.finish n)
  | .lock =>
    if p.owner = none then some ({ p with owner := some f.tid }.goto n f .critical) else none
  | .critical =>
    some ({ p with
      server := { p.server with pool := p.server.pool.shutdown }
      owner := none }.finish n)

/-- The next thing that `server_destroy` and `main` do after the
joins. -/
def cleanupStep (p : Process) : Option Process :=
  if p.interrupted .main then none
  else
    match p.server.teardown, p.released with
    | .destroyed, .nothing => some { p with released := .pool }
    | .destroyed, .pool => some { p with released := .poolCleared }
    | .destroyed, .poolCleared => some { p with released := .server }
    | .destroyed, .server => some { p with released := .ended }
    | _, _ => none

def step (p : Process) (l : Label) : Option Process :=
  if p.released = .ended then none
  else
    match l with
    | .base l => p.baseStep l
    | .acquire t =>
      if p.interrupted t = false ∧ p.owner = none ∧ wantsLock p.server t then
        some { p with owner := some t }
      else none
    | .deliver t signo =>
      if alive p.server t ∧ (∀ f ∈ p.frames, f.tid = t → f.signo ≠ signo) then
        some { p with frames := { tid := t, signo := signo, pc := .test } :: p.frames }
      else none
    | .handler n =>
      match p.frames[n]? with
      | some f => if f.tid ∈ (p.frames.map Frame.tid).take n then none else p.handlerStep n f
      | none => none
    | .cleanup => p.cleanupStep

/-! ## What the handler has to meet -/

/-- Handler `n` is `f`, and it is the one that its thread executes. -/
def Innermost (p : Process) (n : Nat) (f : Frame) : Prop :=
  p.frames[n]? = some f ∧ f.tid ∉ (p.frames.map Frame.tid).take n

/-- A handler that executes is not at the lock that its own thread has,
and what its next step uses has not been released. -/
structure Safe (p : Process) : Prop where
  lock : ∀ n f, p.Innermost n f → f.pc = .lock → p.owner ≠ some f.tid
  server : ∀ n f, p.Innermost n f → f.pc.usesServer = true →
    p.released ≠ .server ∧ p.released ≠ .ended
  pool : ∀ n f, p.Innermost n f → f.pc.usesPool = true → p.released = .nothing

/-- No signal is delivered to a thread that has `pool->lock`, and none
after the server was released; no handler reads `s->pool` between the
release of the pool and the write that clears it; and `server_destroy`
releases the pool only when no handler has got hold of it, and the server
only when no handler is in progress. -/
def Harmless (_ : History Process Label) (p : Process) : Label → Prop
  | .deliver t _ => p.owner ≠ some t ∧ p.released ≠ .server
  | .handler n => p.released = .pool → (p.frames[n]?.map Frame.pc) ≠ some .readPool
  | .cleanup => (p.released = .nothing → ∀ f ∈ p.frames, f.pc.usesPool = false) ∧
    (p.released = .poolCleared → p.frames = [])
  | _ => True

instance (h : History Process Label) (p : Process) (l : Label) : Decidable (Harmless h p l) :=
  match l with
  | .deliver _ _ => inferInstanceAs (Decidable (_ ∧ _))
  | .handler _ => inferInstanceAs (Decidable (_ → _))
  | .cleanup => inferInstanceAs (Decidable ((_ → _) ∧ (_ → _)))
  | .base _ => inferInstanceAs (Decidable True)
  | .acquire _ => inferInstanceAs (Decidable True)

/-! ## Which handler a thread executes -/

theorem innermost_iff {p : Process} {n : Nat} {f : Frame} :
    p.Innermost n f ↔ p.frames[n]? = some f ∧
      ∀ m g, m < n → p.frames[m]? = some g → g.tid ≠ f.tid := by
  unfold Innermost
  have hmem : f.tid ∈ (p.frames.map Frame.tid).take n ↔
      ∃ m g, m < n ∧ p.frames[m]? = some g ∧ g.tid = f.tid := by
    simp only [List.mem_iff_getElem?, List.getElem?_take, List.getElem?_map]
    constructor
    · rintro ⟨m, hm⟩
      split at hm
      · rename_i hlt
        obtain ⟨g, hg, ht⟩ := Option.map_eq_some_iff.mp hm
        exact ⟨m, g, hlt, hg, ht⟩
      · cases hm
    · rintro ⟨m, g, hlt, hg, ht⟩
      exact ⟨m, by rw [if_pos hlt, hg, Option.map_some, ht]⟩
  rw [hmem]
  push Not
  rfl

theorem Innermost.mem {p : Process} {n : Nat} {f : Frame} (h : p.Innermost n f) :
    f ∈ p.frames := List.mem_of_getElem? h.1

theorem mem_interrupted {p : Process} {f : Frame} (h : f ∈ p.frames) :
    p.interrupted f.tid = true := by
  simp only [interrupted, List.any_eq_true, beq_iff_eq]
  exact ⟨f, h, rfl⟩

/-- A thread executes one handler at a time. -/
theorem Innermost.unique {p : Process} {m n : Nat} {f g : Frame} (hf : p.Innermost m f)
    (hg : p.Innermost n g) (ht : f.tid = g.tid) : m = n ∧ f = g := by
  have hf' := innermost_iff.mp hf
  have hg' := innermost_iff.mp hg
  have hmn : m = n := by
    rcases Nat.lt_trichotomy m n with hlt | heq | hlt
    · exact absurd ht (hg'.2 m f hlt hf'.1)
    · exact heq
    · exact absurd ht.symm (hf'.2 n g hlt hg'.1)
  subst hmn
  exact ⟨rfl, Option.some.inj (hf.1.symm.trans hg.1)⟩

/-- A delivery: the thread executes the new handler, and the others are
where they were. -/
theorem Innermost.cons {p q : Process} {n : Nat} {f g : Frame} (hq : q.frames = f :: p.frames)
    (h : q.Innermost n g) : g = f ∨ g.tid ≠ f.tid ∧ ∃ m, p.Innermost m g := by
  obtain ⟨hg, hlt⟩ := innermost_iff.mp h
  rw [hq] at hg hlt
  cases n with
  | zero => exact .inl (Option.some.inj hg).symm
  | succ n =>
    refine .inr ⟨(hlt 0 f n.succ_pos rfl).symm, n, innermost_iff.mpr ⟨hg, ?_⟩⟩
    intro m e hm he
    exact hlt (m + 1) e (Nat.succ_lt_succ hm) he

/-- A step of handler `n` that does not return. -/
theorem Innermost.goto {p : Process} {m n : Nat} {f g : Frame} {pc : OnTermPc}
    (hf : p.Innermost n f) (h : (p.goto n f pc).Innermost m g) :
    g = { f with pc := pc } ∨ g.tid ≠ f.tid ∧ p.Innermost m g := by
  obtain ⟨hg, hlt⟩ := innermost_iff.mp h
  have hset : ∀ {k : Nat}, n ≠ k → (p.goto n f pc).frames[k]? = p.frames[k]? := by
    intro k hk
    exact List.getElem?_set_ne hk
  have hn : (p.goto n f pc).frames[n]? = some { f with pc := pc } := by
    have hlen := (List.getElem?_eq_some_iff.mp hf.1).1
    show (p.frames.set n _)[n]? = _
    rw [List.getElem?_set_self hlen]
  by_cases hnm : n = m
  · subst hnm
    exact .inl (Option.some.inj (hg.symm.trans hn))
  · have hold : p.Innermost m g := by
      rw [innermost_iff, ← hset hnm]
      refine ⟨hg, ?_⟩
      intro k e hk he
      by_cases hnk : n = k
      · subst hnk
        cases hf.1.symm.trans he
        exact hlt n { f with pc := pc } hk hn
      · exact hlt k e hk ((hset hnk).trans he)
    refine .inr ⟨?_, hold⟩
    intro ht
    exact hnm (hf.unique hold ht.symm).1

/-- Handler `n` returns: another thread is where it was. -/
theorem Innermost.finish {p : Process} {m n : Nat} {f g : Frame} (hf : p.Innermost n f)
    (h : (p.finish n).Innermost m g) (ht : g.tid ≠ f.tid) : ∃ k, p.Innermost k g := by
  obtain ⟨hg, hlt⟩ := innermost_iff.mp h
  have herase : ∀ k : Nat, (p.finish n).frames[k]? =
      if k < n then p.frames[k]? else p.frames[k + 1]? := by
    intro k
    exact List.getElem?_eraseIdx
  rw [herase] at hg
  by_cases hmn : m < n
  · rw [if_pos hmn] at hg
    refine ⟨m, innermost_iff.mpr ⟨hg, ?_⟩⟩
    intro k e hk he
    exact hlt k e hk (by rw [herase, if_pos (hk.trans hmn), he])
  · rw [if_neg hmn] at hg
    refine ⟨m + 1, innermost_iff.mpr ⟨hg, ?_⟩⟩
    intro k e hk he
    -- The handlers before it are those it had before it, and `f`.
    rcases Nat.lt_trichotomy k n with hkn | hkn | hkn
    · exact hlt k e (by omega) (by rw [herase, if_pos hkn, he])
    · subst hkn
      cases hf.1.symm.trans he
      exact ht.symm
    · refine hlt (k - 1) e (by omega) ?_
      rw [herase, if_neg (by omega), Nat.sub_add_cancel (by omega), he]

/-! ## What a harmless run keeps -/

/-- The invariant: a handler that uses the pool does so before the pool is
released, there is no handler once the server is, and where a handler runs
on the thread that has the lock, it is the handler that took it. -/
structure SignalInv (p : Process) : Prop where
  pool : ∀ f ∈ p.frames, f.pc.usesPool = true → p.released = .nothing
  server : p.frames ≠ [] → p.released ≠ .server ∧ p.released ≠ .ended
  holder : ∀ n f, p.Innermost n f → p.owner = some f.tid → f.pc = .critical

theorem SignalInv.start (server : Server) : SignalInv (start server) where
  pool := by
    intro f hf
    cases hf
  server := by
    intro h
    exact absurd rfl h
  holder := by
    intro n f hf
    cases hf.mem

theorem SignalInv.safe {p : Process} (hi : SignalInv p) : Safe p where
  lock := by
    intro n f hf hpc hown
    rw [hi.holder n f hf hown] at hpc
    cases hpc
  server := by
    intro n f hf _
    exact hi.server (List.ne_nil_of_mem hf.mem)
  pool := by
    intro n f hf hpc
    exact hi.pool f hf.mem hpc

/-- What a step outside of the handlers does to the rest. -/
theorem baseStep_cases {p p' : Process} {l : Server.Label} (hs : p.baseStep l = some p') :
    p'.frames = p.frames ∧ p'.released = p.released ∧
      (p'.owner = none ∨ p'.owner = p.owner) := by
  unfold baseStep at hs
  split at hs
  · cases hs
  · cases hs
  · split at hs
    · cases hs
    split at hs
    · cases hs
    split at hs
    · cases hs
      refine ⟨rfl, rfl, ?_⟩
      by_cases hc : isCritical l = true
      · exact .inl (if_pos hc)
      · exact .inr (if_neg hc)
    · cases hs

theorem SignalInv.base {p p' : Process} {l : Server.Label} (hi : SignalInv p)
    (hs : p.baseStep l = some p') : SignalInv p' := by
  obtain ⟨hframes, hreleased, hown⟩ := baseStep_cases hs
  constructor
  · rw [hframes, hreleased]
    exact hi.pool
  · rw [hframes, hreleased]
    exact hi.server
  · intro n f hf hf'
    rcases hown with hown | hown
    · rw [hown] at hf'
      cases hf'
    · have hold : p.Innermost n f := by
        unfold Innermost
        rw [← hframes]
        exact hf
      exact hi.holder n f hold (hown ▸ hf')

theorem SignalInv.acquire {p : Process} {t : Tid} (hi : SignalInv p)
    (ht : p.interrupted t = false) : SignalInv { p with owner := some t } where
  pool := hi.pool
  server := hi.server
  holder := by
    intro n f hf hown
    cases hown
    have hmem : f ∈ p.frames := Innermost.mem hf
    rw [mem_interrupted hmem] at ht
    cases ht

theorem SignalInv.deliver {p : Process} {t : Tid} {signo : Signo} (hi : SignalInv p)
    (hown : p.owner ≠ some t) (hserver : p.released ≠ .server) (hended : p.released ≠ .ended) :
    SignalInv { p with frames := { tid := t, signo := signo, pc := .test } :: p.frames } where
  pool := by
    intro f hf hpc
    rcases List.mem_cons.mp hf with rfl | hf
    · cases hpc
    · exact hi.pool f hf hpc
  server := by
    intro _
    exact ⟨hserver, hended⟩
  holder := by
    intro n f hf hf'
    rcases Innermost.cons (p := p) rfl hf with rfl | ⟨_, m, hm⟩
    · exact absurd hf' hown
    · exact hi.holder m f hm hf'

/-- A handler goes on, and the lock stays with the thread that has it. -/
theorem SignalInv.goto {p : Process} {n : Nat} {f : Frame} {pc : OnTermPc} (hi : SignalInv p)
    (hf : p.Innermost n f) (hfpc : f.pc ≠ .critical)
    (hpool : pc.usesPool = true → p.released = .nothing) : SignalInv (p.goto n f pc) where
  pool := by
    intro g hg hgpc
    rcases List.mem_or_eq_of_mem_set hg with hg | rfl
    · exact hi.pool g hg hgpc
    · exact hpool hgpc
  server := by
    intro _
    exact hi.server (List.ne_nil_of_mem hf.mem)
  holder := by
    intro m g hg hown
    rcases hf.goto hg with rfl | ⟨_, hg⟩
    · exact absurd (hi.holder n f hf hown) hfpc
    · exact hi.holder m g hg hown

/-- A handler gets the lock. -/
theorem SignalInv.locked {p : Process} {n : Nat} {f : Frame} (hi : SignalInv p)
    (hf : p.Innermost n f) (hpc : f.pc = .lock) :
    SignalInv ({ p with owner := some f.tid }.goto n f .critical) where
  pool := by
    intro g hg hgpc
    rcases List.mem_or_eq_of_mem_set hg with hg | rfl
    · exact hi.pool g hg hgpc
    · exact hi.pool f hf.mem (by rw [hpc]; rfl)
  server := by
    intro _
    exact hi.server (List.ne_nil_of_mem hf.mem)
  holder := by
    intro m g hg hown
    rcases Innermost.goto (p := { p with owner := some f.tid }) hf hg with rfl | ⟨hne, _⟩
    · rfl
    · exact absurd (Option.some.inj hown).symm hne

/-- A handler returns, and the lock is free or not with its thread. -/
theorem SignalInv.finish {p : Process} {n : Nat} {f : Frame} (hi : SignalInv p)
    (hf : p.Innermost n f) (hown : p.owner ≠ some f.tid) : SignalInv (p.finish n) where
  pool := by
    intro g hg hgpc
    exact hi.pool g (List.mem_of_mem_eraseIdx hg) hgpc
  server := by
    intro _
    exact hi.server (List.ne_nil_of_mem hf.mem)
  holder := by
    intro m g hg hgown
    have hne : g.tid ≠ f.tid := by
      intro heq
      exact hown (heq ▸ hgown)
    obtain ⟨k, hk⟩ := hf.finish hg hne
    exact hi.holder k g hk hgown

theorem SignalInv.handlerStep {p p' : Process} {n : Nat} {f : Frame} (hi : SignalInv p)
    (hf : p.Innermost n f) (hread : p.released = .pool → f.pc ≠ .readPool)
    (hs : p.handlerStep n f = some p') : SignalInv p' := by
  unfold Process.handlerStep at hs
  split at hs
  case h_1 hpc =>
    cases hs
    exact hi.goto hf (by simp [hpc]) (by simp [OnTermPc.usesPool])
  case h_2 hpc =>
    cases hs
    have hi' : SignalInv { p with server := { p.server with stopFlag := true } } :=
      ⟨hi.pool, hi.server, hi.holder⟩
    exact hi'.goto hf (by simp [hpc]) (by simp [OnTermPc.usesPool])
  case h_3 hpc =>
    split at hs
    case h_1 hrel =>
      cases hs
      exact hi.goto hf (by simp [hpc]) (fun _ => hrel)
    case h_2 hrel => exact absurd hpc (hread hrel)
    case h_3 =>
      cases hs
      refine hi.finish hf ?_
      intro hown
      have hcrit := hi.holder n f hf hown
      rw [hpc] at hcrit
      cases hcrit
  case h_4 hpc =>
    split at hs
    · cases hs
      exact hi.locked hf hpc
    · cases hs
  case h_5 hpc =>
    cases hs
    have hi' : SignalInv { p with
        server := { p.server with pool := p.server.pool.shutdown }
        owner := none } :=
      ⟨hi.pool, hi.server, by simp⟩
    exact hi'.finish hf (by simp)

theorem SignalInv.cleanupStep {p p' : Process} (hi : SignalInv p)
    (hpool : p.released = .nothing → ∀ f ∈ p.frames, f.pc.usesPool = false)
    (hserver : p.released = .poolCleared → p.frames = [])
    (hs : p.cleanupStep = some p') : SignalInv p' := by
  -- Once the pool is released no handler is left that uses it.
  have hunused : p.released ≠ .nothing → ∀ f ∈ p.frames, f.pc.usesPool = true →
      ∀ r : Released, r = .nothing := by
    intro hrel f hf hpc
    exact absurd (hi.pool f hf hpc) hrel
  unfold Process.cleanupStep at hs
  split at hs
  · cases hs
  split at hs
  case h_1 _ hrel =>
    cases hs
    refine ⟨?_, by simp, hi.holder⟩
    intro f hf hpc
    rw [hpool hrel f hf] at hpc
    cases hpc
  case h_2 _ hrel =>
    cases hs
    refine ⟨?_, by simp, hi.holder⟩
    intro f hf hpc
    exact hunused (by simp [hrel]) f hf hpc _
  case h_3 _ hrel =>
    cases hs
    refine ⟨?_, fun hne => absurd (hserver hrel) hne, hi.holder⟩
    intro f hf hpc
    exact hunused (by simp [hrel]) f hf hpc _
  case h_4 _ hrel =>
    cases hs
    refine ⟨?_, fun hne => absurd hrel (hi.server hne).1, hi.holder⟩
    intro f hf hpc
    exact hunused (by simp [hrel]) f hf hpc _
  · cases hs

theorem SignalInv.step {h : History Process Label} {p p' : Process} {l : Label}
    (hi : SignalInv p) (hok : Harmless h p l) (hs : p.step l = some p') : SignalInv p' := by
  unfold Process.step at hs
  split at hs
  · cases hs
  rename_i hended
  cases l with
  | base l => exact hi.base hs
  | acquire t =>
    simp only at hs
    split at hs
    · rename_i hg
      cases hs
      exact hi.acquire hg.1
    · cases hs
  | deliver t signo =>
    simp only at hs
    split at hs
    · cases hs
      exact hi.deliver hok.1 hok.2 hended
    · cases hs
  | handler n =>
    simp only at hs
    split at hs
    · rename_i f hf
      split at hs
      · cases hs
      · rename_i hin
        refine hi.handlerStep ⟨hf, hin⟩ ?_ hs
        intro hrel hpc
        exact hok hrel (by rw [hf, Option.map_some, hpc])
    · cases hs
  | cleanup => exact hi.cleanupStep hok.1 hok.2 hs

/-- **In a run of harmless steps the handler is safe.** It never comes to
the lock that its own thread has, and never to a server or a pool that
`server_destroy` has released, whichever signals are delivered to which
threads and however the threads interleave. -/
theorem run_handler_safe {server : Server} {h : History Process Label} {p : Process}
    (hr : Run step Harmless (start server) h p) : Safe p := by
  have hi : SignalInv p := by
    refine Run.state_invariant (SignalInv.start server) ?_ hr
    intro h p l p' hi hok hs
    exact hi.step hok hs
  exact hi.safe

/-- SIGTERM interrupts the handler of SIGINT on the thread of `main`,
which is in `poll`, while the worker has the lock. -/
def interruptedInPoll : List Label :=
  [.base (.run true), .base .test, .deliver .main .sigint, .handler 0, .handler 0,
    .acquire (.worker 0), .deliver .main .sigterm, .handler 0, .handler 0, .handler 0]

theorem run_handler_safe_interruptedInPoll : ∃ h p,
    Server.create ⟨1, by decide⟩ ⟨1, by decide⟩ 1 = some Server.oneWorker ∧
      Run step Harmless (start Server.oneWorker) h p ∧ p.owner = some (.worker 0) ∧
      p.frames = [⟨.main, .sigterm, .lock⟩, ⟨.main, .sigint, .readPool⟩] ∧ Safe p := by
  obtain ⟨h, p, hr, hc⟩ := Run.of_check step Harmless (start Server.oneWorker) interruptedInPoll
    (fun p => p.owner == some (.worker 0) &&
      p.frames == [⟨.main, .sigterm, .lock⟩, ⟨.main, .sigint, .readPool⟩]) (by decide +kernel)
  simp only [Bool.and_eq_true, beq_iff_eq] at hc
  exact ⟨h, p, rfl, hr, hc.1, hc.2, run_handler_safe hr⟩

/-- SIGTERM is delivered to the worker in its critical section. -/
def interruptedInCritical : List Label :=
  [.acquire (.worker 0), .deliver (.worker 0) .sigterm, .handler 0, .handler 0, .handler 0]

/-- SIGINT stops the server, and a second one comes when `main` has
destroyed it. -/
def interruptedInCleanup : List Label :=
  [.base (.run true), .base .test, .deliver .main .sigint, .handler 0, .handler 0, .handler 0,
    .handler 0, .handler 0, .base (.poll .interrupted), .base .test, .acquire .main,
    .base .destroy, .acquire (.worker 0), .base (.worker 0 none), .base .join, .base .join,
    .cleanup, .cleanup, .cleanup, .deliver .main .sigint, .handler 0]

theorem run_handler_unsafe :
    Server.create ⟨1, by decide⟩ ⟨1, by decide⟩ 1 = some Server.oneWorker ∧
    (∃ h p, Run step always (start Server.oneWorker) h p ∧ p.owner = some (.worker 0) ∧
      p.frames = [⟨.worker 0, .sigterm, .lock⟩] ∧ ¬ Safe p) ∧
    (∃ h p, Run step always (start Server.oneWorker) h p ∧ p.released = .server ∧
      p.frames = [⟨.main, .sigint, .store⟩] ∧ ¬ Safe p) := by
  refine ⟨rfl, ?_, ?_⟩
  · obtain ⟨h, p, hr, hc⟩ := Run.of_check step always (start Server.oneWorker)
      interruptedInCritical
      (fun p => p.owner == some (.worker 0) && p.frames == [⟨.worker 0, .sigterm, .lock⟩])
      (by decide +kernel)
    simp only [Bool.and_eq_true, beq_iff_eq] at hc
    refine ⟨h, p, hr, hc.1, hc.2, ?_⟩
    intro hsafe
    exact hsafe.lock 0 ⟨.worker 0, .sigterm, .lock⟩ (by simp [Innermost, hc.2]) rfl hc.1
  · obtain ⟨h, p, hr, hc⟩ := Run.of_check step always (start Server.oneWorker)
      interruptedInCleanup
      (fun p => p.released == .server && p.frames == [⟨.main, .sigint, .store⟩])
      (by decide +kernel)
    simp only [Bool.and_eq_true, beq_iff_eq] at hc
    refine ⟨h, p, hr, hc.1, hc.2, ?_⟩
    intro hsafe
    exact (hsafe.server 0 ⟨.main, .sigint, .store⟩ (by simp [Innermost, hc.2]) rfl).1 hc.1

end Process

end Pyoneer.Api
