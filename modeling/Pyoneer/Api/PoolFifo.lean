/-
Pyoneer.Api.PoolFifo — the ring of the pool is a first-in first-out
queue.

`queue_push` and `queue_pop` check nothing. What a step does to the
queue is read off from outside (`Pool.op`): a job went in when
`thread_pool_submit` has returned `0` for it, and came out when a worker
is in `client_handle_fd` with it. `Guarded` says that each of the two
found the ring as it has to be, that no index wrapped around `size_t`,
and that no other step touches the ring.
-/
import Pyoneer.Api.ThreadPoolTheorems
import Pyoneer.Lib.Fifo

namespace Pyoneer.Api.Pool

open Pyoneer.Lib

variable {α : Type}

/-- What the step `l` does to the queue, as its callers see it. -/
def op (p : Pool α) (l : Label α) : FifoOp α :=
  match l, p.step l with
  | .submit k _, some p' =>
    match p'.submitters[k]? with
    | some (.returned j true) => .push j
    | _ => .keep
  | .worker i _, some p' =>
    match p'.workers[i]? with
    | some (.handling j) => .pop j
    | _ => .keep
  | _, _ => .keep

/-- The fields that `queue_push` and `queue_pop` work on. -/
def ring (p : Pool α) : (Nat → α) × Nat × Nat × Nat × Nat :=
  (p.queue, p.qcap, p.qhead, p.qtail, p.qlen)

/-- The step `l` leaves the ring alone, or it is `queue_push` with room
for a job, or `queue_pop` with a job there, and no `size_t` wraps. -/
def Guarded (p : Pool α) (l : Label α) : Prop :=
  ∃ p', p.step l = some p' ∧
    match p.op l with
    | .push j => ring p' = ring (p.queuePush j) ∧ p.qlen < p.qcap ∧
        p.qtail + 1 < sizeMod ∧ p.qlen + 1 < sizeMod
    | .pop j => ring p' = ring p.queuePop.2 ∧ j = p.queuePop.1 ∧ 0 < p.qlen ∧
        p.qhead + 1 < sizeMod
    | .keep => ring p' = ring p

/-! ## One step -/

section Step

variable {p p' : Pool α}

theorem jobs_eq_of_ring (h : ring p' = ring p) : p'.jobs = p.jobs := by
  simp only [ring, Prod.mk.injEq] at h
  obtain ⟨hqueue, hcap, hhead, _, hlen⟩ := h
  rw [jobs, jobs, hqueue, hcap, hhead, hlen]

/-- What the outside sees of a step of a worker. -/
theorem op_worker {i : Nat} {pick : Option Nat} {pc pc' : WorkerPc α}
    (hs : p.step (.worker i pick) = some p') (hpc : p.workers[i]? = some pc)
    (hset : p'.workers = p.workers.set i pc') :
    p.op (.worker i pick) = match pc' with
      | .handling j => .pop j
      | _ => .keep := by
  have hget : p'.workers[i]? = some pc' := by
    rw [hset]
    exact List.getElem?_set_self (List.getElem?_eq_some_iff.mp hpc).1
  simp only [op, hs, hget]
  cases pc' <;> rfl

/-- What the outside sees of a step of a thread that submits. -/
theorem op_submit {k : Nat} {pick : Option Nat} {pc pc' : SubmitPc α}
    (hs : p.step (.submit k pick) = some p') (hpc : p.submitters[k]? = some pc)
    (hset : p'.submitters = p.submitters.set k pc') :
    p.op (.submit k pick) = match pc' with
      | .returned j true => .push j
      | _ => .keep := by
  have hget : p'.submitters[k]? = some pc' := by
    rw [hset]
    exact List.getElem?_set_self (List.getElem?_eq_some_iff.mp hpc).1
  simp only [op, hs, hget]
  cases pc' with
  | returned j ok => cases ok <;> rfl
  | _ => rfl

/-- A step that is seen as neither leaves the ring alone. -/
theorem Guarded.keep {l : Label α} (hs : p.step l = some p') (ho : p.op l = .keep)
    (hring : ring p' = ring p) : Guarded p l := by
  refine ⟨p', hs, ?_⟩
  rw [ho]
  exact hring

/-- Every step is guarded where the indices of the ring are right. -/
theorem RingInv.guarded {l : Label α} (hi : RingInv p) (hs : p.step l = some p') :
    Guarded p l := by
  have hcap := hi.cap_lt
  have hle := hi.len_le
  cases Step.of_step hs with
  | park hpc _ _ _ => exact .keep hs (op_worker hs hpc rfl) rfl
  | exit hpc _ _ _ => exact .keep hs (op_worker hs hpc rfl) rfl
  | pop hpc _ hne _ =>
    refine ⟨_, hs, ?_⟩
    rw [op_worker hs hpc rfl]
    have hhead := hi.head_lt
    exact ⟨rfl, rfl, by omega, by omega⟩
  | handled _ => exact .keep hs (by simp [op]) rfl
  | call _ _ => exact .keep hs (by simp [op]) rfl
  | refuse hpc _ _ => exact .keep hs (op_submit hs hpc rfl) rfl
  | wait hpc _ _ _ => exact .keep hs (op_submit hs hpc rfl) rfl
  | push hpc _ _ hne _ =>
    refine ⟨_, hs, ?_⟩
    rw [op_submit hs hpc rfl]
    have htail := hi.tail_lt
    exact ⟨rfl, by omega, by omega, by omega⟩
  | wakeWorker _ => exact .keep hs (by simp [op]) rfl
  | wakeSubmitter _ => exact .keep hs (by simp [op]) rfl
  | shutdown => exact .keep hs (by simp [op]) rfl

/-- A guarded step is one of the queue. -/
theorem RingInv.fifo_step {l : Label α} (hi : RingInv p) (hs : p.step l = some p') :
    FifoStep p.qcap p.jobs (p.op l) p'.jobs := by
  obtain ⟨p'', hs', hg⟩ := hi.guarded hs
  obtain rfl : p' = p'' := Option.some.inj (hs ▸ hs')
  cases ho : p.op l with
  | push j =>
    rw [ho] at hg
    rw [jobs_eq_of_ring hg.1, hi.jobs_push j hg.2.1]
    exact .push j (by rw [jobs, length_window]; exact hg.2.1)
  | pop j =>
    rw [ho] at hg
    rw [jobs_eq_of_ring hg.1, hi.jobs_pop (by omega), ← hg.2.1]
    exact .pop j _
  | keep =>
    rw [ho] at hg
    rw [jobs_eq_of_ring hg]
    exact .keep _

end Step

/-! ## Runs -/

section Runs

variable {p₀ p : Pool α} {nworkers qcap : SizeT} {m : Nat} {zero : α}
  {h : History (Pool α) (Label α)}

theorem qcap_step {p' : Pool α} {l : Label α} (hs : p.step l = some p') : p'.qcap = p.qcap := by
  cases Step.of_step hs <;> rfl

theorem create_empty (hc : create nworkers qcap m zero = some p₀) :
    p₀.qcap = qcap.val ∧ p₀.jobs = [] := by
  unfold create at hc
  split at hc
  · cases hc
  · cases hc
    exact ⟨rfl, rfl⟩

theorem poolInv_of_run (hc : create nworkers qcap m zero = some p₀)
    (hr : Run Pool.step always p₀ h p) : PoolInv p :=
  hr.state_invariant (.create hc) fun _ _ _ _ hi _ hs => hi.step hs

/-- The ring of the pool is a queue: whatever the threads do, the
indices stay in the array, no push meets a full ring and no pop an
empty one, and what `thread_pool_submit` has accepted is what the
workers have taken, followed by the entries from `qhead` on. -/
theorem pool_refines_fifo (hc : create nworkers qcap m zero = some p₀)
    (hr : Run Pool.step always p₀ h p) :
    p.qcap = qcap.val ∧ p.qhead < p.qcap ∧ p.qtail < p.qcap ∧ p.qlen ≤ p.qcap ∧
      p.qtail = (p.qhead + p.qlen) % p.qcap ∧
      (∀ t l, (t, l) ∈ h → Guarded t l) ∧
      pushes Pool.op h = pops Pool.op h ++ p.jobs := by
  have hring := (poolInv_of_run hc hr).ring
  obtain ⟨hcap, hempty⟩ := create_empty hc
  have hconst : p.qcap = qcap.val :=
    hr.state_invariant (I := fun p => p.qcap = qcap.val) hcap
      fun _ _ _ _ hi _ hs => (qcap_step hs).trans hi
  refine ⟨hconst, hring.head_lt, hring.tail_lt, hring.len_le, hring.tail, ?_, ?_⟩
  · intro t l hm
    obtain ⟨h', t', hr', _, hs⟩ := hr.mem hm
    exact (poolInv_of_run hc hr').ring.guarded hs
  · exact Run.fifo Pool.qcap (PoolInv.create hc) hempty
      (fun _ _ _ hi hs => hi.step hs) (fun _ _ _ hi hs => hi.ring.fifo_step hs) hr

end Runs

/-- A pool of one worker with room for two descriptors, each with the
index of its listener. -/
def twoPlaces : Pool (Int × Int) where
  queue := fun _ => (0, 0)
  qcap := 2
  qhead := 0
  qtail := 0
  qlen := 0
  shuttingDown := false
  workers := [.ready]
  submitters := [.idle]

/-- The third submission goes around to the place that the worker has
left. -/
theorem pool_refines_fifo_twoPlaces : ∃ h p,
    create ⟨1, by decide⟩ ⟨2, by decide⟩ 1 (0, 0) = some twoPlaces ∧
      Run step always twoPlaces h p ∧ p.qhead = 1 ∧ p.qtail = 1 ∧
      pushes Pool.op h = pops Pool.op h ++ [(5, 1), (6, 0)] := by
  obtain ⟨h, p, hr, hp⟩ := Run.of_check step always twoPlaces
    [.call 0 (4, 0), .submit 0 none, .call 0 (5, 1), .submit 0 none, .worker 0 none,
      .call 0 (6, 0), .submit 0 none]
    (fun p => p.qhead == 1 && p.qtail == 1 && p.jobs == [(5, 1), (6, 0)]) (by decide +kernel)
  simp only [Bool.and_eq_true, beq_iff_eq] at hp
  obtain ⟨⟨hhead, htail⟩, hjobs⟩ := hp
  have hc : create ⟨1, by decide⟩ ⟨2, by decide⟩ 1 (0, 0) = some twoPlaces := rfl
  obtain ⟨_, _, _, _, _, _, horder⟩ := pool_refines_fifo hc hr
  exact ⟨h, p, hc, hr, hhead, htail, hjobs ▸ horder⟩

end Pyoneer.Api.Pool
