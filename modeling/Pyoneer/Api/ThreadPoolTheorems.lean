/-
Pyoneer.Api.ThreadPoolTheorems — the pool loses no wake-up.

`Pool.Step` lists what a step can do; every invariant is proved by
cases on it. `PoolInv` bundles them: the indices of the ring, the two
conditions covered (`CondVar.Covered`), nobody parked after
`thread_pool_shutdown`, and an empty queue once a worker has left.
-/
import Pyoneer.Api.ThreadPool

namespace Pyoneer.Api.Pool

open Pyoneer.Lib

variable {α : Type}

/-! ## What a step does -/

/-- The worker is about to take the lock. -/
def Locks : WorkerPc α → Prop
  | .ready | .notified => True
  | _ => False

/-- The thread that submits `j` is about to take the lock. -/
def Submits (j : α) : SubmitPc α → Prop
  | .calling j' | .notified j' => j' = j
  | _ => False

/-- The thread has no call in progress. -/
def Free : SubmitPc α → Prop
  | .idle | .returned _ _ => True
  | _ => False

inductive Step (p : Pool α) : Label α → Pool α → Prop
  | park {i pick pc} : p.workers[i]? = some pc → Locks pc → p.qlen = 0 →
      p.shuttingDown = false →
      Step p (.worker i pick) { p with workers := p.workers.set i .parked }
  | exit {i pick pc} : p.workers[i]? = some pc → Locks pc → p.qlen = 0 →
      p.shuttingDown = true →
      Step p (.worker i pick) { p with workers := p.workers.set i .exited }
  | pop {i pick pc submitters} : p.workers[i]? = some pc → Locks pc → p.qlen ≠ 0 →
      (notFull α).signal p.submitters pick = some submitters →
      Step p (.worker i pick) { p.queuePop.2 with
        workers := p.workers.set i (.handling p.queuePop.1), submitters := submitters }
  | handled {i j} : p.workers[i]? = some (.handling j) →
      Step p (.handled i) { p with workers := p.workers.set i .ready }
  | call {k j pc} : p.submitters[k]? = some pc → Free pc →
      Step p (.call k j) { p with submitters := p.submitters.set k (.calling j) }
  | refuse {k j pick pc} : p.submitters[k]? = some pc → Submits j pc → p.shuttingDown = true →
      Step p (.submit k pick) { p with submitters := p.submitters.set k (.returned j false) }
  | wait {k j pick pc} : p.submitters[k]? = some pc → Submits j pc → p.shuttingDown = false →
      p.qlen = p.qcap →
      Step p (.submit k pick) { p with submitters := p.submitters.set k (.parked j) }
  | push {k j pick pc workers} : p.submitters[k]? = some pc → Submits j pc →
      p.shuttingDown = false → p.qlen ≠ p.qcap →
      (notEmpty α).signal p.workers pick = some workers →
      Step p (.submit k pick) { p.queuePush j with
        workers := workers, submitters := p.submitters.set k (.returned j true) }
  | wakeWorker {i workers} : (notEmpty α).wakeAt p.workers i = some workers →
      Step p (.wakeWorker i) { p with workers := workers }
  | wakeSubmitter {k submitters} : (notFull α).wakeAt p.submitters k = some submitters →
      Step p (.wakeSubmitter k) { p with submitters := submitters }
  | shutdown : Step p .shutdown p.shutdown

theorem Step.of_worker {p p' : Pool α} {i : Nat} {pick : Option Nat} {pc : WorkerPc α}
    (hpc : p.workers[i]? = some pc) (hl : Locks pc) (hs : p.workerStep i pick = some p') :
    Step p (.worker i pick) p' := by
  unfold workerStep at hs
  split at hs
  · rename_i h
    cases hs
    exact .park hpc hl h.1 h.2
  · rename_i h
    split at hs
    · rename_i hz
      cases hs
      exact .exit hpc hl hz (by simpa [hz] using h)
    · rename_i hne
      split at hs
      · rename_i submitters hsig
        cases hs
        exact .pop hpc hl hne hsig
      · cases hs

theorem Step.of_submit {p p' : Pool α} {k : Nat} {j : α} {pick : Option Nat} {pc : SubmitPc α}
    (hpc : p.submitters[k]? = some pc) (hj : Submits j pc) (hs : p.submitStep k j pick = some p') :
    Step p (.submit k pick) p' := by
  unfold submitStep at hs
  split at hs
  · rename_i hd
    cases hs
    exact .refuse hpc hj hd
  · rename_i hd
    have hd' : p.shuttingDown = false := by simpa using hd
    split at hs
    · rename_i hfull
      cases hs
      exact .wait hpc hj hd' hfull
    · rename_i hne
      split at hs
      · rename_i workers hsig
        cases hs
        exact .push hpc hj hd' hne hsig
      · cases hs

theorem Step.of_step {p p' : Pool α} {l : Label α} (hs : p.step l = some p') : Step p l p' := by
  cases l with
  | worker i pick =>
    simp only [step] at hs
    split at hs
    · rename_i hpc
      exact .of_worker hpc trivial hs
    · rename_i hpc
      exact .of_worker hpc trivial hs
    · cases hs
  | handled i =>
    simp only [step] at hs
    split at hs
    · rename_i j hpc
      cases hs
      exact .handled hpc
    · cases hs
  | call k j =>
    simp only [step] at hs
    split at hs
    · rename_i hpc
      cases hs
      exact .call hpc trivial
    · rename_i j' ok hpc
      cases hs
      exact .call hpc trivial
    · cases hs
  | submit k pick =>
    simp only [step] at hs
    split at hs
    · rename_i j hpc
      exact .of_submit hpc rfl hs
    · rename_i j hpc
      exact .of_submit hpc rfl hs
    · cases hs
  | wakeWorker i =>
    simp only [step] at hs
    split at hs
    · rename_i workers hw
      cases hs
      exact .wakeWorker hw
    · cases hs
  | wakeSubmitter k =>
    simp only [step] at hs
    split at hs
    · rename_i submitters hw
      cases hs
      exact .wakeSubmitter hw
    · cases hs
  | shutdown =>
    cases hs
    exact .shutdown

/-! ## The ring -/

/-- The indices of the queue. -/
structure RingInv (p : Pool α) : Prop where
  cap_pos : 0 < p.qcap
  cap_lt : p.qcap < sizeMod
  head_lt : p.qhead < p.qcap
  len_le : p.qlen ≤ p.qcap
  tail : p.qtail = (p.qhead + p.qlen) % p.qcap

section Ring

variable {p : Pool α} (hi : RingInv p)

include hi

/-- The ring does not depend on the threads. -/
theorem RingInv.threads {d : Bool} {ws : List (WorkerPc α)} {ss : List (SubmitPc α)} :
    RingInv { p with shuttingDown := d, workers := ws, submitters := ss } :=
  ⟨hi.cap_pos, hi.cap_lt, hi.head_lt, hi.len_le, hi.tail⟩

theorem RingInv.tail_lt : p.qtail < p.qcap := by
  rw [hi.tail]
  exact Nat.mod_lt _ hi.cap_pos

theorem RingInv.push_tail (j : α) : (p.queuePush j).qtail = (p.qtail + 1) % p.qcap := by
  have := hi.tail_lt
  have := hi.cap_lt
  simp only [queuePush]
  rw [Nat.mod_eq_of_lt (by omega : p.qtail + 1 < sizeMod)]

theorem RingInv.push_len (j : α) (h : p.qlen < p.qcap) :
    (p.queuePush j).qlen = p.qlen + 1 := by
  have := hi.cap_lt
  simp only [queuePush]
  exact Nat.mod_eq_of_lt (by omega)

theorem RingInv.pop_head : p.queuePop.2.qhead = (p.qhead + 1) % p.qcap := by
  have := hi.head_lt
  have := hi.cap_lt
  simp only [queuePop]
  rw [Nat.mod_eq_of_lt (by omega : p.qhead + 1 < sizeMod)]

theorem RingInv.pop_len (h : p.qlen ≠ 0) : p.queuePop.2.qlen = p.qlen - 1 := by
  have := hi.cap_lt
  have := hi.len_le
  simp only [queuePop]
  rw [show p.qlen + (sizeMod - 1) = (p.qlen - 1) + sizeMod by omega, Nat.add_mod_right]
  exact Nat.mod_eq_of_lt (by omega)

theorem RingInv.push (j : α) (h : p.qlen < p.qcap) : RingInv (p.queuePush j) := by
  refine ⟨hi.cap_pos, hi.cap_lt, hi.head_lt, ?_, ?_⟩
  · rw [hi.push_len j h]
    exact h
  · rw [hi.push_tail, hi.push_len j h, hi.tail, Nat.mod_add_mod]
    rfl

theorem RingInv.pop (h : p.qlen ≠ 0) : RingInv p.queuePop.2 := by
  have hcap : p.queuePop.2.qcap = p.qcap := rfl
  have hle := hi.len_le
  refine ⟨hi.cap_pos, hi.cap_lt, ?_, ?_, ?_⟩
  · rw [hi.pop_head]
    exact Nat.mod_lt _ hi.cap_pos
  · rw [hi.pop_len h, hcap]
    omega
  · rw [hi.pop_head, hi.pop_len h, hcap, Nat.mod_add_mod,
      show p.qhead + 1 + (p.qlen - 1) = p.qhead + p.qlen by omega]
    exact hi.tail

/-- `queue_push` appends. -/
theorem RingInv.jobs_push (j : α) (h : p.qlen < p.qcap) : (p.queuePush j).jobs = p.jobs ++ [j] := by
  have := window_push p.queue p.qhead h j
  rw [← hi.tail] at this
  rw [jobs, hi.push_len j h]
  exact this

/-- `queue_pop` takes the first job. -/
theorem RingInv.jobs_pop (h : p.qlen ≠ 0) : p.jobs = p.queuePop.1 :: p.queuePop.2.jobs := by
  obtain ⟨n, hn⟩ := Nat.exists_eq_succ_of_ne_zero h
  have := window_pop p.queue hi.head_lt n
  rw [jobs, jobs, hi.pop_head, hi.pop_len h, hn]
  exact this

end Ring

/-! ## The invariant -/

structure PoolInv (p : Pool α) : Prop where
  ring : RingInv p
  workers : (notEmpty α).Covered p.qlen p.workers
  submitters : (notFull α).Covered (p.qcap - p.qlen) p.submitters
  awake : p.shuttingDown = true →
    (notEmpty α).NoneParked p.workers ∧ (notFull α).NoneParked p.submitters
  drained : .exited ∈ p.workers → p.shuttingDown = true ∧ p.qlen = 0

theorem PoolInv.create {nworkers qcap : SizeT} {m : Nat} {zero : α} {p : Pool α}
    (h : create nworkers qcap m zero = some p) : PoolInv p := by
  unfold Pool.create at h
  split at h
  · cases h
  · rename_i hne
    cases h
    have hcap : 0 < qcap.val := by omega
    refine ⟨⟨hcap, qcap.isLt, hcap, Nat.zero_le _, by simp⟩, .zero _ _, ?_, by simp, ?_⟩
    · refine CondVar.NoneParked.covered fun pc hpc => ?_
      rw [List.eq_of_mem_replicate hpc]
      rfl
    · intro hx
      cases List.eq_of_mem_replicate hx

theorem PoolInv.step {p p' : Pool α} {l : Label α} (hi : PoolInv p) (hs : p.step l = some p') :
    PoolInv p' := by
  have hring := hi.ring
  have hle := hring.len_le
  cases Step.of_step hs with
  | park hpc hl hz hd =>
    refine ⟨hring.threads, ?_, hi.submitters, by simp [hd], ?_⟩
    · rw [hz]
      exact .zero _ _
    · intro hx
      rcases CondVar.mem_of_mem_set hx with h | h
      · cases h
      · exact hi.drained h
  | exit hpc hl hz hd =>
    refine ⟨hring.threads, ?_, hi.submitters, ?_, fun _ => ⟨hd, hz⟩⟩
    · rw [hz]
      exact .zero _ _
    · exact fun _ => ⟨(hi.awake hd).1.set rfl, (hi.awake hd).2⟩
  | pop hpc hl hne hsig =>
    have hpop := hring.pop hne
    have hlen := hring.pop_len hne
    refine ⟨hpop.threads, ?_, ?_, ?_, ?_⟩
    · simp only [hlen]
      have := hi.workers
      rw [show p.qlen = p.qlen - 1 + 1 by omega] at this
      exact this.resume hpc rfl
    · simp only [hlen]
      exact (hi.submitters.signal hsig).mono (by simp only [queuePop]; omega)
    · exact fun hd => ⟨(hi.awake hd).1.set rfl, (hi.awake hd).2.signal hsig⟩
    · intro hx
      rcases CondVar.mem_of_mem_set hx with h | h
      · cases h
      · exact absurd (hi.drained h).2 hne
  | handled hpc =>
    refine ⟨hring.threads, hi.workers.move hpc rfl rfl,
      hi.submitters, fun hd => ⟨(hi.awake hd).1.set rfl, (hi.awake hd).2⟩, ?_⟩
    intro hx
    rcases CondVar.mem_of_mem_set hx with h | h
    · cases h
    · exact hi.drained h
  | call hpc hfree =>
    refine ⟨hring.threads, hi.workers, ?_,
      fun hd => ⟨(hi.awake hd).1, (hi.awake hd).2.set rfl⟩, hi.drained⟩
    refine hi.submitters.move hpc ?_ rfl
    rename_i pc
    cases pc <;> first | rfl | exact hfree.elim
  | refuse hpc hj hd =>
    refine ⟨hring.threads, hi.workers, ?_,
      fun hd => ⟨(hi.awake hd).1, (hi.awake hd).2.set rfl⟩, hi.drained⟩
    exact ((hi.awake hd).2.set rfl).covered
  | wait hpc hj hd hfull =>
    refine ⟨hring.threads, hi.workers, ?_, by simp [hd], hi.drained⟩
    simp only [hfull, Nat.sub_self]
    exact .zero _ _
  | push hpc hj hd hne hsig =>
    rename_i k j pick pc workers
    have hlt : p.qlen < p.qcap := by omega
    have hpush := hring.push j hlt
    have hlen := hring.push_len j hlt
    refine ⟨hpush.threads, ?_, ?_, by simp [queuePush, hd], ?_⟩
    · simp only [hlen]
      exact hi.workers.signal hsig
    · simp only [hlen]
      have := hi.submitters
      rw [show p.qcap - p.qlen = p.qcap - (p.qlen + 1) + 1 by omega] at this
      exact this.resume hpc rfl
    · intro hx
      rcases CondVar.mem_signal hsig hx with h | h
      · exact absurd (hi.drained h).1 (by simp [hd])
      · cases h
  | wakeWorker hw =>
    refine ⟨hring.threads,
      (hi.workers.wakeAt hw).mono (Nat.le_succ _), hi.submitters, ?_, ?_⟩
    · exact fun hd => ⟨(hi.awake hd).1.wakeAt hw, (hi.awake hd).2⟩
    · intro hx
      rcases CondVar.mem_wakeAt hw hx with h | h
      · exact hi.drained h
      · cases h
  | wakeSubmitter hw =>
    refine ⟨hring.threads, hi.workers,
      (hi.submitters.wakeAt hw).mono (Nat.le_succ _), ?_, hi.drained⟩
    exact fun hd => ⟨(hi.awake hd).1, (hi.awake hd).2.wakeAt hw⟩
  | shutdown =>
    refine ⟨hring.threads, (CondVar.NoneParked.broadcast _ _).covered,
      (CondVar.NoneParked.broadcast _ _).covered, fun _ => ⟨.broadcast _ _, .broadcast _ _⟩, ?_⟩
    intro hx
    rcases CondVar.mem_broadcast hx with h | h
    · exact ⟨rfl, (hi.drained h).2⟩
    · cases h

/-! ## Where a job is -/

/-- The worker is at work on a job of the kind `q`. -/
def handles (q : α → Bool) : WorkerPc α → Bool
  | .handling j => q j
  | _ => false

/-- The thread is in `thread_pool_submit` with a job of the kind `q`. -/
def carries (q : α → Bool) : SubmitPc α → Bool
  | .calling j | .parked j | .notified j => q j
  | _ => false

/-- The jobs of the kind `q` that the pool has taken. -/
def taken (p : Pool α) (q : α → Bool) : Nat :=
  p.jobs.countP q + p.workers.countP (handles q)

/-- The jobs of the kind `q` that are being submitted. -/
def pending (p : Pool α) (q : α → Bool) : Nat := p.submitters.countP (carries q)

section Ledger

variable {p p' : Pool α} (q : α → Bool)

theorem countP_signal_workers {pick : Option Nat} {ws : List (WorkerPc α)}
    (hs : (notEmpty α).signal p.workers pick = some ws) :
    ws.countP (handles q) = p.workers.countP (handles q) := by
  refine CondVar.countP_signal (fun b b' hw => ?_) hs
  cases b <;> cases hw
  rfl

theorem countP_signal_submitters {pick : Option Nat} {ss : List (SubmitPc α)}
    (hs : (notFull α).signal p.submitters pick = some ss) :
    ss.countP (carries q) = p.submitters.countP (carries q) := by
  refine CondVar.countP_signal (fun b b' hw => ?_) hs
  cases b <;> cases hw
  rfl

theorem taken_shutdown : p.shutdown.taken q = p.taken q := by
  have hcount : ((notEmpty α).broadcast p.workers).countP (handles q)
      = p.workers.countP (handles q) := by
    rw [CondVar.broadcast, List.countP_map]
    refine List.countP_congr fun pc _ => ?_
    cases pc <;> simp [notEmpty, WorkerPc.wake, handles]
  simp only [taken, shutdown, hcount]
  rfl

theorem pending_shutdown : p.shutdown.pending q = p.pending q := by
  simp only [pending, shutdown, CondVar.broadcast, List.countP_map]
  refine List.countP_congr fun pc _ => ?_
  cases pc <;> simp [notFull, SubmitPc.wake, carries]

theorem handles_of_locks {pc : WorkerPc α} (hl : Locks pc) : handles q pc = false := by
  cases pc <;> first | rfl | exact hl.elim

theorem carries_of_free {pc : SubmitPc α} (hf : Free pc) : carries q pc = false := by
  cases pc <;> first | rfl | exact hf.elim

theorem carries_of_submits {j : α} {pc : SubmitPc α} (hj : Submits j pc) :
    carries q pc = q j := by
  cases pc <;> first | exact hj.elim | (cases hj; rfl)

/-- A worker that takes the lock moves a job from the queue to itself,
or none at all. -/
theorem worker_ledger {i : Nat} {pick : Option Nat} (hr : RingInv p)
    (hs : p.step (.worker i pick) = some p') :
    p'.taken q = p.taken q ∧ p'.pending q = p.pending q := by
  cases Step.of_step hs with
  | park hpc hl hz hd =>
    have hmove := CondVar.countP_move (handles q) .parked hpc
    rw [handles_of_locks q hl] at hmove
    exact ⟨congrArg (p.jobs.countP q + ·) hmove, rfl⟩
  | exit hpc hl hz hd =>
    have hmove := CondVar.countP_move (handles q) .exited hpc
    rw [handles_of_locks q hl] at hmove
    exact ⟨congrArg (p.jobs.countP q + ·) hmove, rfl⟩
  | pop hpc hl hne hsig =>
    have hmove := CondVar.countP_move (handles q) (.handling p.queuePop.1) hpc
    rw [handles_of_locks q hl, Bool.toNat_false, Nat.add_zero] at hmove
    have hjobs := congrArg (List.countP q) (hr.jobs_pop hne)
    rw [CondVar.countP_cons_toNat] at hjobs
    refine ⟨?_, countP_signal_submitters q hsig⟩
    calc p.queuePop.2.jobs.countP q + (p.workers.set i (.handling p.queuePop.1)).countP (handles q)
        = p.queuePop.2.jobs.countP q + (p.workers.countP (handles q) + (q p.queuePop.1).toNat) := by
          rw [hmove, handles]
      _ = p.taken q := by rw [taken, hjobs]; omega

/-- The worker lets go of its job. -/
theorem handled_ledger {i : Nat} {j : α} (hs : p.step (.handled i) = some p')
    (hj : p.workers[i]? = some (.handling j)) :
    p'.taken q + (q j).toNat = p.taken q ∧ p'.pending q = p.pending q := by
  cases Step.of_step hs with
  | handled hpc =>
    have hmove := CondVar.countP_move (handles q) .ready hj
    refine ⟨?_, rfl⟩
    calc p.jobs.countP q + (p.workers.set i .ready).countP (handles q) + (q j).toNat
        = p.jobs.countP q + ((p.workers.set i .ready).countP (handles q) + (q j).toNat) :=
          Nat.add_assoc _ _ _
      _ = p.taken q := congrArg (p.jobs.countP q + ·) hmove

/-- A job comes to `thread_pool_submit`. -/
theorem call_ledger {k : Nat} {j : α} (hs : p.step (.call k j) = some p') :
    p'.taken q = p.taken q ∧ p'.pending q = p.pending q + (q j).toNat := by
  cases Step.of_step hs with
  | call hpc hfree =>
    have hmove := CondVar.countP_move (carries q) (.calling j) hpc
    rw [carries_of_free q hfree] at hmove
    exact ⟨rfl, hmove⟩

theorem wakeWorker_ledger {i : Nat} (hs : p.step (.wakeWorker i) = some p') :
    p'.taken q = p.taken q ∧ p'.pending q = p.pending q := by
  cases Step.of_step hs with
  | wakeWorker hw =>
    have hsig : (notEmpty α).signal p.workers (some i) = some _ := hw
    exact ⟨congrArg (p.jobs.countP q + ·) (countP_signal_workers q hsig), rfl⟩

theorem wakeSubmitter_ledger {k : Nat} (hs : p.step (.wakeSubmitter k) = some p') :
    p'.taken q = p.taken q ∧ p'.pending q = p.pending q := by
  cases Step.of_step hs with
  | wakeSubmitter hw =>
    have hsig : (notFull α).signal p.submitters (some k) = some _ := hw
    exact ⟨rfl, countP_signal_submitters q hsig⟩

end Ledger

section Ledger

variable {p p' : Pool α} {l : Label α}

/-- `thread_pool_submit` gives the job to the pool, or back to its
caller, or keeps it. -/
theorem submit_ledger {k : Nat} {pick : Option Nat} (hr : RingInv p)
    (hs : p.step (.submit k pick) = some p') :
    (∃ j, p'.submitters = p.submitters.set k (.returned j true) ∧ p.shuttingDown = false ∧
      ∀ q, p'.taken q = p.taken q + (q j).toNat ∧ p'.pending q + (q j).toNat = p.pending q) ∨
    (∃ j, p'.submitters = p.submitters.set k (.returned j false) ∧
      ∀ q, p'.taken q = p.taken q ∧ p'.pending q + (q j).toNat = p.pending q) ∨
    (∃ j, p'.submitters = p.submitters.set k (.parked j) ∧ p.shuttingDown = false ∧
      ∀ q, p'.taken q = p.taken q ∧ p'.pending q = p.pending q) := by
  cases Step.of_step hs with
  | refuse hpc hj hd =>
    rename_i j pc
    refine Or.inr (Or.inl ⟨j, rfl, fun q => ⟨rfl, ?_⟩⟩)
    have hmove := CondVar.countP_move (carries q) (.returned j false) hpc
    rw [carries_of_submits q hj] at hmove
    exact hmove
  | wait hpc hj hd hfull =>
    rename_i j pc
    refine Or.inr (Or.inr ⟨j, rfl, hd, fun q => ⟨rfl, ?_⟩⟩)
    have hmove := CondVar.countP_move (carries q) (.parked j) hpc
    rw [carries_of_submits q hj] at hmove
    exact Nat.add_right_cancel hmove
  | push hpc hj hd hne hsig =>
    rename_i j pc workers
    refine Or.inl ⟨j, rfl, hd, fun q => ⟨?_, ?_⟩⟩
    · have hjobs := congrArg (List.countP q) (hr.jobs_push j (by have := hr.len_le; omega))
      rw [List.countP_append, CondVar.countP_cons_toNat, List.countP_nil, Nat.zero_add] at hjobs
      calc (p.queuePush j).jobs.countP q + workers.countP (handles q)
          = p.jobs.countP q + (q j).toNat + p.workers.countP (handles q) := by
            rw [hjobs, countP_signal_workers q hsig]
        _ = p.taken q + (q j).toNat := by rw [taken]; omega
    · have hmove := CondVar.countP_move (carries q) (.returned j true) hpc
      rw [carries_of_submits q hj] at hmove
      exact hmove

/-- A worker that has left does not come back. -/
theorem Step.exited {i : Nat} (hs : Step p l p') (hx : p.workers[i]? = some .exited) :
    p'.workers[i]? = some .exited := by
  have hset : ∀ {k : Nat} {pc pc' : WorkerPc α}, p.workers[k]? = some pc → pc ≠ .exited →
      (p.workers.set k pc')[i]? = some .exited := by
    intro k pc pc' hk hne
    have hki : k ≠ i := by
      rintro rfl
      exact hne (Option.some.inj (hk.symm.trans hx))
    rwa [List.getElem?_set_ne hki]
  have hlocks : ∀ {pc : WorkerPc α}, Locks pc → pc ≠ .exited := by
    rintro pc hl rfl
    exact hl
  have hwake : ∀ {k : Nat} {ws : List (WorkerPc α)},
      (notEmpty α).wakeAt p.workers k = some ws → ws[i]? = some .exited := by
    intro k ws hw
    obtain ⟨b, b', hb, hwb, rfl⟩ := CondVar.wakeAt_eq_some hw
    refine hset hb ?_
    rintro rfl
    cases hwb
  cases hs with
  | park hpc hl _ _ => exact hset hpc (hlocks hl)
  | exit hpc hl _ _ => exact hset hpc (hlocks hl)
  | pop hpc hl _ _ => exact hset hpc (hlocks hl)
  | handled hpc => exact hset hpc (by simp)
  | @push k j pick pc ws _ _ _ _ hsig =>
    cases pick with
    | some k => exact hwake hsig
    | none =>
      simp only [CondVar.signal] at hsig
      split at hsig <;> cases hsig
      exact hx
  | wakeWorker hw => exact hwake hw
  | shutdown =>
    simp only [Pool.shutdown, CondVar.broadcast, List.getElem?_map, hx]
    rfl
  | _ => exact hx

/-- The pool keeps its workers and the threads that submit to it. -/
theorem Step.lengths (hs : Step p l p') :
    p'.workers.length = p.workers.length ∧ p'.submitters.length = p.submitters.length := by
  cases hs with
  | pop _ _ _ hsig => exact ⟨List.length_set, CondVar.length_signal hsig⟩
  | push _ _ _ _ hsig => exact ⟨CondVar.length_signal hsig, List.length_set⟩
  | wakeWorker hw => exact ⟨CondVar.length_wakeAt hw, rfl⟩
  | wakeSubmitter hw => exact ⟨rfl, CondVar.length_wakeAt hw⟩
  | shutdown => simp [Pool.shutdown]
  | _ => simp

/-- Nothing is enqueued once the pool shuts down. -/
theorem Step.jobs_of_shuttingDown (hr : RingInv p) (hs : Step p l p')
    (hd : p.shuttingDown = true) : p'.jobs <:+ p.jobs := by
  cases hs with
  | pop _ _ hne _ =>
    rw [hr.jobs_pop hne]
    exact List.suffix_cons _ _
  | push _ _ hd' _ _ =>
    rw [hd] at hd'
    cases hd'
  | _ => exact List.suffix_refl _

end Ledger

/-! ## Running dry -/

/-- The worker has not left. -/
def present : WorkerPc α → Bool
  | .exited => false
  | _ => true

/-- The steps that the workers of a pool that shuts down can still
take. -/
def fuel (p : Pool α) : Nat :=
  2 * p.qlen + p.workers.countP present + p.workers.countP (handles fun _ => true)

section Fuel

variable {p p' : Pool α}

theorem fuel_shutdown : p.shutdown.fuel = p.fuel := by
  have hpresent : ((notEmpty α).broadcast p.workers).countP present
      = p.workers.countP present := by
    rw [CondVar.broadcast, List.countP_map]
    refine List.countP_congr fun pc _ => ?_
    cases pc <;> simp [notEmpty, WorkerPc.wake, present]
  have hhandles : ((notEmpty α).broadcast p.workers).countP (handles fun _ => true)
      = p.workers.countP (handles fun _ => true) := by
    rw [CondVar.broadcast, List.countP_map]
    refine List.countP_congr fun pc _ => ?_
    cases pc <;> simp [notEmpty, WorkerPc.wake, handles]
  simp only [fuel, shutdown, hpresent, hhandles]

theorem fuel_worker {i : Nat} {pick : Option Nat} (hr : RingInv p)
    (hs : p.step (.worker i pick) = some p') (hd : p.shuttingDown = true) : p'.fuel < p.fuel := by
  have hpresent : ∀ {pc : WorkerPc α}, Locks pc → present pc = true := by
    intro pc hl
    cases pc <;> first | rfl | exact hl.elim
  cases Step.of_step hs with
  | park _ _ _ hd' =>
    rw [hd] at hd'
    cases hd'
  | exit hpc hl hz _ =>
    have h1 := CondVar.countP_move present .exited hpc
    have h2 := CondVar.countP_move (handles fun _ => true) .exited hpc
    rw [hpresent hl] at h1
    rw [handles_of_locks _ hl] at h2
    simp only [present, handles, Bool.toNat_true, Bool.toNat_false] at h1 h2
    simp only [fuel]
    omega
  | pop hpc hl hne _ =>
    have h1 := CondVar.countP_move present (.handling p.queuePop.1) hpc
    have h2 := CondVar.countP_move (handles fun _ => true) (.handling p.queuePop.1) hpc
    have hlen := hr.pop_len hne
    rw [hpresent hl] at h1
    rw [handles_of_locks _ hl] at h2
    simp only [present, handles, Bool.toNat_true, Bool.toNat_false] at h1 h2
    simp only [fuel, hlen]
    omega

theorem fuel_handled {i : Nat} (hs : p.step (.handled i) = some p') : p'.fuel < p.fuel := by
  cases Step.of_step hs with
  | handled hpc =>
    have h1 := CondVar.countP_move present .ready hpc
    have h2 := CondVar.countP_move (handles fun _ => true) .ready hpc
    simp only [present, handles, Bool.toNat_true, Bool.toNat_false] at h1 h2
    simp only [fuel]
    omega

theorem fuel_call {k : Nat} {j : α} (hs : p.step (.call k j) = some p') : p'.fuel = p.fuel := by
  cases Step.of_step hs with
  | call _ _ => rfl

/-- Once the pool shuts down, `thread_pool_submit` returns `-1`. -/
theorem submit_of_shuttingDown {k : Nat} {pick : Option Nat}
    (hs : p.step (.submit k pick) = some p') (hd : p.shuttingDown = true) :
    p'.fuel = p.fuel ∧ ∃ j, p'.submitters = p.submitters.set k (.returned j false) := by
  cases Step.of_step hs with
  | refuse hpc hj _ => exact ⟨rfl, _, rfl⟩
  | wait _ _ hd' _ =>
    rw [hd] at hd'
    cases hd'
  | push _ _ hd' _ _ =>
    rw [hd] at hd'
    cases hd'

/-- Once the pool shuts down, nobody wakes for no reason. -/
theorem PoolInv.no_wake (hi : PoolInv p) (hd : p.shuttingDown = true) (i : Nat) :
    p.step (.wakeWorker i) = none ∧ p.step (.wakeSubmitter i) = none := by
  obtain ⟨hw, hs⟩ := hi.awake hd
  constructor
  · cases h : p.step (.wakeWorker i) with
    | none => rfl
    | some p' =>
      cases Step.of_step h with
      | wakeWorker hwake =>
        obtain ⟨b, b', hb, hbw, _⟩ := CondVar.wakeAt_eq_some hwake
        have := hw b (List.mem_of_getElem? hb)
        simp [CondVar.parked, hbw] at this
  · cases h : p.step (.wakeSubmitter i) with
    | none => rfl
    | some p' =>
      cases Step.of_step h with
      | wakeSubmitter hwake =>
        obtain ⟨b, b', hb, hbw, _⟩ := CondVar.wakeAt_eq_some hwake
        have := hs b (List.mem_of_getElem? hb)
        simp [CondVar.parked, hbw] at this

/-- Once the pool shuts down, a worker that has not left can take a
step. -/
theorem PoolInv.worker_moves (hi : PoolInv p) (hd : p.shuttingDown = true) {i : Nat}
    {pc : WorkerPc α} (hpc : p.workers[i]? = some pc) (hx : pc ≠ .exited) :
    (p.step (.worker i none)).isSome ∨ ((p.step (.handled i)).isSome ∧ ∃ j, pc = .handling j) := by
  obtain ⟨hw, hs⟩ := hi.awake hd
  have hlock : (p.workerStep i none).isSome := by
    have hsig : (notFull α).signal p.submitters none = some p.submitters := by
      simp only [CondVar.signal]
      rw [if_pos (List.all_eq_true.mpr fun b hb => by simp [hs b hb])]
    unfold workerStep
    simp only [hd, hsig]
    split
    · rfl
    · split <;> rfl
  cases pc with
  | ready | notified =>
    simp only [Pool.step, hpc]
    exact Or.inl hlock
  | parked =>
    have := hw _ (List.mem_of_getElem? hpc)
    cases this
  | handling j =>
    simp only [Pool.step, hpc]
    exact Or.inr ⟨rfl, j, rfl⟩
  | exited => exact absurd rfl hx

end Fuel

/-! ## No lost wake-up -/

/-- While a worker is parked, every job in the queue has a worker that
was notified and has not resumed; while a thread that submits is parked,
every free slot has such a thread; after `thread_pool_shutdown` nobody
is parked. So there is no queued work with all workers asleep, and no
free slot with all threads that submit asleep. -/
structure WakeupsKept (p : Pool α) : Prop where
  workers : .parked ∈ p.workers → p.qlen ≤ p.workers.countP WorkerPc.woken
  submitters : ∀ j, .parked j ∈ p.submitters →
    p.qcap - p.qlen ≤ p.submitters.countP SubmitPc.woken
  shutdown : p.shuttingDown = true → .parked ∉ p.workers ∧ ∀ j, .parked j ∉ p.submitters
  work : 0 < p.qlen → p.workers ≠ [] → ∃ pc ∈ p.workers, pc ≠ .parked
  room : p.qlen < p.qcap → p.submitters ≠ [] → ∃ pc ∈ p.submitters, ∀ j, pc ≠ .parked j

theorem PoolInv.wakeupsKept {p : Pool α} (hi : PoolInv p) : WakeupsKept p := by
  have hworkers : .parked ∈ p.workers → p.qlen ≤ p.workers.countP WorkerPc.woken :=
    fun h => hi.workers ⟨_, h, rfl⟩
  have hsubmitters : ∀ j, .parked j ∈ p.submitters →
      p.qcap - p.qlen ≤ p.submitters.countP SubmitPc.woken :=
    fun j h => hi.submitters ⟨_, h, rfl⟩
  refine ⟨hworkers, hsubmitters, ?_, ?_, ?_⟩
  · intro hd
    obtain ⟨hw, hs⟩ := hi.awake hd
    refine ⟨fun h => ?_, fun j h => ?_⟩
    · have := hw _ h
      cases this
    · have := hs _ h
      cases this
  · intro hlen hne
    by_contra hall
    have hpark : ∀ pc ∈ p.workers, pc = .parked := by simpa using hall
    obtain ⟨pc, hpc⟩ := List.exists_mem_of_ne_nil _ hne
    have hle := hworkers (hpark pc hpc ▸ hpc)
    have hzero : p.workers.countP WorkerPc.woken = 0 := by
      rw [List.countP_eq_zero]
      intro pc hpc
      rw [hpark pc hpc]
      simp [WorkerPc.woken]
    omega
  · intro hlen hne
    by_contra hall
    have hpark : ∀ pc ∈ p.submitters, ∃ j, pc = .parked j := by simpa using hall
    obtain ⟨pc, hpc⟩ := List.exists_mem_of_ne_nil _ hne
    obtain ⟨j, rfl⟩ := hpark pc hpc
    have hle := hsubmitters j hpc
    have hzero : p.submitters.countP SubmitPc.woken = 0 := by
      rw [List.countP_eq_zero]
      intro pc hpc
      obtain ⟨j, rfl⟩ := hpark pc hpc
      simp [SubmitPc.woken]
    omega

/-- `shutting_down` is never cleared. -/
theorem Step.shuttingDown {p p' : Pool α} {l : Label α} (hs : Step p l p')
    (hd : p.shuttingDown = true) : p'.shuttingDown = true := by
  cases hs with
  | shutdown => rfl
  | _ => exact hd

theorem Run.shuttingDown {p₀ p : Pool α} {h : History (Pool α) (Label α)}
    (hr : Run step always p₀ h p) :
    ∀ q l, (q, l) ∈ h → q.shuttingDown = true → p.shuttingDown = true := by
  induction hr with
  | nil => simp
  | snoc _ _ hs ih =>
    intro q l hm hd
    refine (Step.of_step hs).shuttingDown ?_
    rcases List.mem_cons.mp hm with heq | hm
    · cases heq
      exact hd
    · exact ih q l hm hd

/-- `thread_pool_shutdown` sets `shutting_down`. -/
theorem Step.shutdown_sets {p p' : Pool α} (hs : Step p .shutdown p') :
    p'.shuttingDown = true := by
  cases hs
  rfl

/-- After a `thread_pool_shutdown` the pool is shutting down, from then
on. -/
theorem Run.shutdown {p₀ p q : Pool α} {h : History (Pool α) (Label α)}
    (hr : Run step always p₀ h p) (hm : (q, .shutdown) ∈ h) : p.shuttingDown = true := by
  induction hr with
  | nil => cases hm
  | snoc _ _ hs ih =>
    rcases List.mem_cons.mp hm with heq | hm
    · cases heq
      exact (Step.of_step hs).shutdown_sets
    · exact (Step.of_step hs).shuttingDown (ih hm)

/-- In every run of any number of workers and of threads that submit, no
wake-up is lost; once the pool shuts down it stays so; and after a
`thread_pool_shutdown` nobody is parked, in the state it leaves and in
every later one. -/
theorem run_wakeupsKept {nworkers qcap : SizeT} {m : Nat} {zero : α} {p₀ p : Pool α}
    {h : History (Pool α) (Label α)} (hc : create nworkers qcap m zero = some p₀)
    (hr : Run step always p₀ h p) :
    WakeupsKept p ∧ (∀ q l, (q, l) ∈ h → q.shuttingDown = true → p.shuttingDown = true) ∧
      ∀ q, (q, .shutdown) ∈ h →
        p.shuttingDown = true ∧ .parked ∉ p.workers ∧ ∀ j, .parked j ∉ p.submitters := by
  have hi : PoolInv p := Run.state_invariant (PoolInv.create hc)
    (fun _ _ _ _ hi _ hs => hi.step hs) hr
  refine ⟨hi.wakeupsKept, Run.shuttingDown hr, fun q hm => ?_⟩
  have hd := Run.shutdown hr hm
  exact ⟨hd, hi.wakeupsKept.shutdown hd⟩

/-- A pool of two workers with a queue of one, before any submission. -/
def twoWorkers : Pool Nat where
  queue := fun _ => 0
  qcap := 1
  qhead := 0
  qtail := 0
  qlen := 0
  shuttingDown := false
  workers := [.ready, .ready]
  submitters := [.idle, .idle]

/-- Two workers park; a submission wakes the first of them, and the next
one finds the queue full and parks. -/
def parkedBothWays : List (Label Nat) :=
  [.worker 0 none, .worker 1 none, .call 0 7, .submit 0 (some 0), .call 1 8, .submit 1 none]

/-- A worker and a thread that submits are parked, and
`thread_pool_shutdown` leaves neither of them so. -/
theorem run_wakeupsKept_twoWorkers :
    create ⟨2, by decide⟩ ⟨1, by decide⟩ 2 0 = some twoWorkers ∧
    ∃ h q p, Run step always twoWorkers ((q, .shutdown) :: h) p ∧
      q.workers = [.notified, .parked] ∧ q.submitters = [.returned 7 true, .parked 8] ∧
      WakeupsKept q ∧ WakeupsKept p ∧
      p.shuttingDown = true ∧ .parked ∉ p.workers ∧ ∀ j, .parked j ∉ p.submitters := by
  have hc : create ⟨2, by decide⟩ ⟨1, by decide⟩ 2 0 = some twoWorkers := rfl
  obtain ⟨h, q, hr, hq⟩ := Run.of_check step always twoWorkers parkedBothWays
    (fun q => decide (q.workers = [.notified, .parked]) &&
      decide (q.submitters = [.returned 7 true, .parked 8])) (by decide +kernel)
  simp only [Bool.and_eq_true, decide_eq_true_eq] at hq
  have hr' : Run step always twoWorkers ((q, .shutdown) :: h) q.shutdown :=
    .snoc hr trivial rfl
  have hafter := run_wakeupsKept hc hr'
  exact ⟨hc, h, q, q.shutdown, hr', hq.1, hq.2, (run_wakeupsKept hc hr).1, hafter.1,
    hafter.2.2 q List.mem_cons_self⟩

end Pyoneer.Api.Pool
