/-
Pyoneer.Api.PoolCreate — `thread_pool_create` when `pthread_create`
fails: the error path against the workers that already run.

The pool has not been handed out, so nothing is ever queued: the test of
a worker is the test of `shutting_down` alone. Here, unlike in
`Pyoneer.Api.ThreadPool`, the critical section of a worker is taken
apart. The creator sets `shutting_down` and broadcasts WITHOUT the lock,
so its steps fall between the test of a worker and its
`pthread_cond_wait`, and a broadcast that comes there is lost.
-/
import Pyoneer.Lib.CondVar
import Pyoneer.Lib.Run

namespace Pyoneer.Api.PoolCreate

open Pyoneer.Lib

/-- Where a worker is that has nothing to do.

* `start` — before `pthread_mutex_lock`;
* `test` — with the lock, before the test of the `while`;
* `toPark` — with the lock, after a test that read 0, before
  `pthread_cond_wait`;
* `parked`, `woken` — in `pthread_cond_wait(&pool->not_empty, …)`, and
  woken there, before it has the lock again;
* `leaving` — with the lock, after a test that read 1: the flag is never
  cleared, so the `if` that follows reads the same;
* `exited`. -/
inductive IdlePc where
  | start | test | toPark | parked | woken | leaving | exited
  deriving DecidableEq, Repr

/-- Where `thread_pool_create` is: at a `pthread_create`; at the lines of
the error path; in the join of worker `j`; it has returned, NULL unless
`ok`. -/
inductive CreatorPc where
  | create
  | setFlag
  | broadcastNotEmpty
  | broadcastNotFull
  | join (j : Nat)
  | returned (ok : Bool)
  deriving DecidableEq, Repr

/-- The pool while it is created; `workers` are the threads created so
far, and `holder` is the one that has `pool->lock`. -/
structure State where
  nworkers : Nat
  shuttingDown : Bool
  holder : Option Nat
  workers : List IdlePc
  creator : CreatorPc
  deriving DecidableEq, Repr

/-- Where a worker is when it is woken. -/
def IdlePc.wake : IdlePc → Option IdlePc
  | .parked => some .woken
  | _ => none

/-- `pool->not_empty`. -/
def notEmpty : CondVar IdlePc where
  wake := IdlePc.wake
  woken := fun pc => pc == .woken
  wake_woken := by
    intro b b' h
    cases b <;> cases h
    rfl
  woken_wake := by
    intro b h
    cases b <;> first | rfl | cases h

/-- Before the first `pthread_create`; `nworkers = 0` is refused. -/
def initial (nworkers : Nat) : State where
  nworkers := nworkers
  shuttingDown := false
  holder := none
  workers := []
  creator := if nworkers = 0 then .returned false else .create

/-- What can happen: `pthread_create` returns; the creator takes its next
step; worker `i` takes its next step; worker `i` wakes for no reason. -/
inductive Label where
  | create (ok : Bool)
  | creator
  | worker (i : Nat)
  | wake (i : Nat)
  deriving DecidableEq, Repr

/-- The next step of a worker. -/
def workerStep (s : State) (i : Nat) : IdlePc → Option State
  | .start | .woken =>
    if s.holder = none then some { s with holder := some i, workers := s.workers.set i .test }
    else none
  | .test =>
    some { s with workers := s.workers.set i (if s.shuttingDown then .leaving else .toPark) }
  | .toPark => some { s with holder := none, workers := s.workers.set i .parked }
  | .leaving => some { s with holder := none, workers := s.workers.set i .exited }
  | .parked | .exited => none

/-- The next step of the error path. -/
def creatorStep (s : State) : Option State :=
  match s.creator with
  | .setFlag => some { s with shuttingDown := true, creator := .broadcastNotEmpty }
  | .broadcastNotEmpty =>
    some { s with workers := notEmpty.broadcast s.workers, creator := .broadcastNotFull }
  | .broadcastNotFull => some { s with creator := .join 0 }
  | .join j =>
    match s.workers[j]? with
    | none => some { s with creator := .returned false }
    | some pc => if pc = .exited then some { s with creator := .join (j + 1) } else none
  | .create | .returned _ => none

def step (s : State) : Label → Option State
  | .create ok =>
    if s.creator = .create then
      if ok then
        let workers := s.workers ++ [.start]
        some { s with
          workers := workers
          creator := if workers.length = s.nworkers then .returned true else .create }
      else some { s with creator := .setFlag }
    else none
  | .creator => creatorStep s
  | .worker i =>
    match s.workers[i]? with
    | some pc => workerStep s i pc
    | none => none
  | .wake i => (notEmpty.wakeAt s.workers i).map fun workers => { s with workers := workers }

/-- The creator waits for a worker that nobody is going to wake. -/
def Hangs (s : State) : Prop := ∃ j, s.creator = .join j ∧ s.workers[j]? = some .parked

/-- When the creator broadcasts, no worker is between its test and its
`pthread_cond_wait`. -/
def testedInTime : History State Label → State → Label → Prop := fun _ s l =>
  l = .creator → s.creator = .broadcastNotEmpty → IdlePc.toPark ∉ s.workers

instance : ∀ h s l, Decidable (testedInTime h s l) := fun _ s l =>
  inferInstanceAs (Decidable (l = .creator → s.creator = .broadcastNotEmpty → _))

/-! ## The invariant -/

/-- Both broadcasts are behind the creator, or the first is. -/
def CreatorPc.woke : CreatorPc → Bool
  | .broadcastNotFull | .join _ => true
  | _ => false

/-- The flag is set before the first broadcast, and after it nobody is
parked or about to park. -/
structure Inv (s : State) : Prop where
  flag : s.creator = .broadcastNotEmpty ∨ s.creator.woke = true → s.shuttingDown = true
  awake : s.creator.woke = true → notEmpty.NoneParked s.workers ∧ IdlePc.toPark ∉ s.workers

theorem Inv.initial (n : Nat) : Inv (initial n) := by
  unfold PoolCreate.initial
  constructor
  · by_cases hn : n = 0 <;> simp [hn, CreatorPc.woke]
  · by_cases hn : n = 0 <;> simp [hn, CreatorPc.woke]

variable {h : History State Label} {s s' : State} {l : Label} {i : Nat} {pc : IdlePc}

/-- A worker goes somewhere else than to sleep. -/
theorem Inv.move (hi : Inv s) (hpark : s.creator.woke = true → pc ≠ .parked ∧ pc ≠ .toPark)
    (holder : Option Nat) :
    Inv { s with holder := holder, workers := s.workers.set i pc } := by
  refine ⟨hi.flag, ?_⟩
  intro hw
  obtain ⟨hnone, hno⟩ := hi.awake hw
  obtain ⟨hp, ht⟩ := hpark hw
  constructor
  · refine hnone.set ?_
    cases pc with
    | parked => exact absurd rfl hp
    | _ => rfl
  · intro hm
    rcases CondVar.mem_of_mem_set hm with heq | hm
    · exact ht heq.symm
    · exact hno hm

theorem Inv.workerStep (hi : Inv s) (hpc : s.workers[i]? = some pc)
    (hs : workerStep s i pc = some s') : Inv s' := by
  cases pc with
  | start | woken =>
    simp only [PoolCreate.workerStep] at hs
    split at hs
    · cases hs
      exact hi.move (by simp) _
    · cases hs
  | test =>
    cases hs
    refine hi.move ?_ _
    intro hw
    -- after the broadcast the test reads 1
    rw [hi.flag (Or.inr hw)]
    simp
  | toPark =>
    cases hs
    refine hi.move ?_ _
    intro hw
    exact absurd (List.mem_of_getElem? hpc) (hi.awake hw).2
  | leaving =>
    cases hs
    exact hi.move (by simp) _
  | parked | exited => cases hs

theorem Inv.creatorStep (hi : Inv s)
    (hok : s.creator = .broadcastNotEmpty → IdlePc.toPark ∉ s.workers)
    (hs : creatorStep s = some s') : Inv s' := by
  unfold PoolCreate.creatorStep at hs
  split at hs
  · cases hs
    exact ⟨fun _ => rfl, fun hw => by cases hw⟩
  · rename_i hc
    cases hs
    refine ⟨fun _ => hi.flag (Or.inl hc), fun _ => ⟨.broadcast notEmpty s.workers, ?_⟩⟩
    intro hm
    rcases CondVar.mem_broadcast hm with hm | hm
    · exact hok hc hm
    · cases hm
  · rename_i hc
    cases hs
    have hw : s.creator.woke = true := by rw [hc]; rfl
    exact ⟨fun _ => hi.flag (Or.inr hw), fun _ => hi.awake hw⟩
  · rename_i j hc
    have hw : s.creator.woke = true := by rw [hc]; rfl
    split at hs
    · cases hs
      refine ⟨?_, fun h => by cases h⟩
      rintro (h | h) <;> cases h
    · split at hs
      · cases hs
        exact ⟨fun _ => hi.flag (Or.inr hw), fun _ => hi.awake hw⟩
      · cases hs
  · cases hs
  · cases hs

/-- `pthread_create`. -/
theorem Inv.create {ok : Bool} (hs : step s (.create ok) = some s') : Inv s' := by
  simp only [PoolCreate.step] at hs
  split at hs
  · split at hs
    · cases hs
      constructor
      · split <;> simp [CreatorPc.woke]
      · split <;> simp [CreatorPc.woke]
    · cases hs
      exact ⟨by simp [CreatorPc.woke], by simp [CreatorPc.woke]⟩
  · cases hs

theorem Inv.step (hi : Inv s) (hok : testedInTime h s l) (hs : step s l = some s') : Inv s' := by
  cases l with
  | create ok => exact .create hs
  | creator => exact hi.creatorStep (hok rfl) hs
  | worker i =>
    simp only [PoolCreate.step] at hs
    split at hs
    · rename_i pc hpc
      exact hi.workerStep hpc hs
    · cases hs
  | wake i =>
    simp only [PoolCreate.step, Option.map_eq_some_iff] at hs
    obtain ⟨workers, hwake, rfl⟩ := hs
    refine ⟨hi.flag, ?_⟩
    intro hw
    obtain ⟨hnone, hno⟩ := hi.awake hw
    refine ⟨hnone.wakeAt hwake, ?_⟩
    intro hm
    rcases CondVar.mem_wakeAt hwake hm with hm | hm
    · exact hno hm
    · cases hm

/-- **No hang.** For any number of workers, any `pthread_create` that
fails and any interleaving: where no worker was between its test and its
park at the broadcast, the creator never waits for one that sleeps. -/
theorem create_never_hangs {n : Nat} (hr : Run step testedInTime (initial n) h s) : ¬ Hangs s := by
  have hi : Inv s := by
    refine Run.state_invariant (I := Inv) (Inv.initial n) ?_ hr
    intro h s l s' hi hok hs
    exact hi.step hok hs
  rintro ⟨j, hc, hpark⟩
  have hw : s.creator.woke = true := by rw [hc]; rfl
  have hnone := (hi.awake hw).1 .parked (List.mem_of_getElem? hpark)
  cases hnone

/-- The second `pthread_create` fails while the first worker sleeps; the
worker is woken and leaves. -/
def wokenRun : List Label :=
  [.create true, .worker 0, .worker 0, .worker 0, .create false, .creator, .creator, .creator]

theorem wokenRun_never_hangs : ∃ h s, Run step testedInTime (initial 2) h s ∧
    s.creator = .join 0 ∧ s.workers = [.woken] ∧ ¬ Hangs s :=
  ⟨_, _, Run.of_replay wokenRun rfl, rfl, rfl, create_never_hangs (n := 2) (Run.of_replay wokenRun rfl)⟩

/-- The worker has tested the flag, but does not sleep yet, when the
creator sets it and broadcasts. -/
def lostWakeupRun : List Label :=
  [.create true, .worker 0, .worker 0, .create false, .creator, .creator, .creator, .worker 0]

/-- **A lost wake-up.** The creator waits in `pthread_join` for a worker
that went to sleep after the broadcast. -/
theorem create_hangs : ∃ h s, Run step always (initial 2) h s ∧ s.shuttingDown = true ∧ Hangs s :=
  ⟨_, _, Run.of_replay lostWakeupRun rfl, rfl, 0, rfl, rfl⟩

end Pyoneer.Api.PoolCreate
