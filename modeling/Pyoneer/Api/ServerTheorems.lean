/-
Pyoneer.Api.ServerTheorems — every connection is closed exactly once.

`ServerInv` is a ledger. For each `accept` there is one entry in all:
the connection is being submitted, or there is a result for it. Where
the result is `0`, the connection is in the queue, or with a worker, or
a worker has closed it; where it is `-1`, `server_run` is about to close
it or has closed it. When `thread_pool_destroy` has joined the workers
the queue is empty and nobody has a connection, so the closes are all
that is left.

After `server_stop` nothing goes on for ever: every further step lowers
`fuel`, and until the server is destroyed a step is possible.
-/
import Pyoneer.Api.Server
import Pyoneer.Api.ThreadPoolTheorems

namespace Pyoneer.Api.Server

open Pyoneer.Lib

/-! ## The ledger -/

/-- The connection of the `accept` with number `n`. -/
def ofSerial (n : Nat) (c : Conn) : Bool := c.serial == n

/-- `client_handle_fd` has closed connection `n`. -/
def byWorker (n : Nat) : Nat × Closer → Bool
  | (m, .worker _) => m == n
  | (_, .server) => false

/-- `server_run` is about to close connection `n`. -/
def closing (n : Nat) : ServerPc → Nat
  | .close _ _ c => (ofSerial n c).toNat
  | _ => 0

/-- The thread is in `thread_pool_submit`. -/
def InCall : SubmitPc Conn → Prop
  | .calling _ | .parked _ | .notified _ => True
  | _ => False

/-- What the only thread that submits does, at each point of
`server_run`. -/
def Caller (ss : List (SubmitPc Conn)) : ServerPc → Prop
  | .submit _ _ => ∃ pc, ss = [pc] ∧ InCall pc
  | .close _ _ c => ss = [.returned c false]
  | _ => ∃ pc, ss = [pc] ∧ Pool.Free pc

/-- The workers that `server_destroy` has joined. -/
def Joined (ws : List (WorkerPc Conn)) : Teardown → Prop
  | .none => True
  | .joining k => ∀ i < k, ws[i]? = some .exited
  | .destroyed => ∀ i < ws.length, ws[i]? = some .exited

structure ServerInv (s : Server) : Prop where
  pool : Pool.PoolInv s.pool
  caller : Caller s.pool.submitters s.pc
  accepts : ∀ n, s.pool.pending (ofSerial n) + s.results.countP (·.1 == n)
    = (decide (n < s.accepted)).toNat
  taken : ∀ n, s.results.countP (· == (n, true))
    = s.pool.taken (ofSerial n) + s.closes.countP (byWorker n)
  refused : ∀ n, s.results.countP (· == (n, false))
    = closing n s.pc + s.closes.countP (· == (n, .server))
  teardown : s.teardown ≠ .none →
    s.pc = .returned ∧ s.stops = 0 ∧ s.pool.shuttingDown = true
  joined : Joined s.pool.workers s.teardown

theorem ServerInv.create {nworkers qcap : SizeT} {nlisteners : Nat} {s : Server}
    (h : create nworkers qcap nlisteners = some s) : ServerInv s := by
  unfold Server.create at h
  split at h
  · rename_i pool hp
    cases h
    have hpool := Pool.PoolInv.create hp
    unfold Pool.create at hp
    split at hp
    · cases hp
    · cases hp
      refine ⟨hpool, ⟨_, rfl, trivial⟩, fun n => ?_, fun n => ?_, fun n => rfl, by simp, trivial⟩
      · simp [Pool.pending, Pool.carries]
      · simp [Pool.taken, Pool.jobs, Pool.handles, List.countP_replicate]
  · cases h

variable {s s' : Server} {p' : Pool Conn}

/-- A signal to the only thread that submits. -/
theorem Caller.signal {ss ss' : List (SubmitPc Conn)} {pc : ServerPc} {pick : Option Nat}
    (h : Caller ss pc) (hs : (notFull Conn).signal ss pick = some ss') : Caller ss' pc := by
  have hone : ∀ {x : SubmitPc Conn}, ss = [x] →
      ss' = [x] ∨ ∃ c, x = .parked c ∧ ss' = [.notified c] := by
    rintro x rfl
    cases pick with
    | none =>
      simp only [CondVar.signal] at hs
      split at hs <;> cases hs
      exact Or.inl rfl
    | some i =>
      obtain ⟨b, b', hb, hw, rfl⟩ := CondVar.wakeAt_eq_some hs
      cases i with
      | zero =>
        cases hb
        cases x <;> cases hw
        exact Or.inr ⟨_, rfl, rfl⟩
      | succ i => cases hb
  have hfree : (∃ x, ss = [x] ∧ Pool.Free x) → ∃ x, ss' = [x] ∧ Pool.Free x := by
    rintro ⟨x, hx, hf⟩
    rcases hone hx with h' | ⟨c, rfl, _⟩
    · exact ⟨x, h', hf⟩
    · exact hf.elim
  cases pc with
  | submit i revents =>
    obtain ⟨x, hx, hc⟩ := h
    rcases hone hx with h' | ⟨c, rfl, h'⟩
    · exact ⟨x, h', hc⟩
    · exact ⟨_, h', trivial⟩
  | close i revents c =>
    rcases hone h with h' | ⟨c, hc, _⟩
    · exact h'
    · cases hc
  | _ => exact hfree h

theorem Caller.broadcast {ss : List (SubmitPc Conn)} {pc : ServerPc} (h : Caller ss pc) :
    Caller ((notFull Conn).broadcast ss) pc := by
  have hfree : (∃ x, ss = [x] ∧ Pool.Free x) →
      ∃ x, (notFull Conn).broadcast ss = [x] ∧ Pool.Free x := by
    rintro ⟨x, rfl, hf⟩
    refine ⟨x, ?_, hf⟩
    cases x <;> first | rfl | exact hf.elim
  cases pc with
  | submit i revents =>
    obtain ⟨x, rfl, hc⟩ := h
    cases x with
    | parked c => exact ⟨.notified c, rfl, trivial⟩
    | calling c => exact ⟨.calling c, rfl, trivial⟩
    | notified c => exact ⟨.notified c, rfl, trivial⟩
    | _ => exact hc.elim
  | close i revents c =>
    obtain rfl : ss = [.returned c false] := h
    rfl
  | _ => exact hfree h

theorem Joined.step {p : Pool Conn} {l : Pool.Label Conn} {t : Teardown} (h : Joined p.workers t)
    (hs : Pool.Step p l p') : Joined p'.workers t := by
  cases t with
  | none => trivial
  | joining k => exact fun i hi => hs.exited (h i hi)
  | destroyed => exact fun i hi => hs.exited (h i (hs.lengths.1 ▸ hi))

/-- A step of the pool that moves no connection in or out. -/
theorem ServerInv.quiet {l : Pool.Label Conn} (hi : ServerInv s) (hs : s.pool.step l = some p')
    (hcaller : Caller p'.submitters s.pc)
    (hledger : ∀ q, p'.taken q = s.pool.taken q ∧ p'.pending q = s.pool.pending q) :
    ServerInv { s with pool := p' } := by
  refine ⟨hi.pool.step hs, hcaller, fun n => ?_, fun n => ?_, hi.refused, fun ht => ?_,
    hi.joined.step (.of_step hs)⟩
  · rw [(hledger _).2]
    exact hi.accepts n
  · rw [(hledger _).1]
    exact hi.taken n
  · obtain ⟨h1, h2, h3⟩ := hi.teardown ht
    exact ⟨h1, h2, (Pool.Step.of_step hs).shuttingDown h3⟩

/-! ## Steps -/

/-- `server_run` has no connection in hand. -/
def handless : ServerPc → Bool
  | .submit _ _ | .close _ _ _ => false
  | _ => true

theorem closing_handless {pc : ServerPc} (h : handless pc = true) (n : Nat) : closing n pc = 0 := by
  cases pc <;> first | rfl | cases h

theorem caller_handless {pc : ServerPc} (h : handless pc = true) (ss : List (SubmitPc Conn)) :
    Caller ss pc ↔ ∃ x, ss = [x] ∧ Pool.Free x := by
  cases pc <;> first | exact Iff.rfl | cases h

/-- A step of `server_run` from one such point to another. -/
theorem ServerInv.goto {pc' : ServerPc} (hi : ServerInv s) (hne : s.pc ≠ .returned)
    (h : handless s.pc = true) (h' : handless pc' = true) : ServerInv { s with pc := pc' } := by
  have hcaller := (caller_handless h _).mp hi.caller
  refine ⟨hi.pool, (caller_handless h' _).mpr hcaller, hi.accepts, hi.taken, fun n => ?_,
    fun ht => ?_, hi.joined⟩
  · rw [closing_handless h', ← closing_handless h n]
    exact hi.refused n
  · exact absurd (hi.teardown ht).1 hne

theorem poolStep_eq {l : Pool.Label Conn} (hs : s.poolStep l = some s') :
    ∃ p', s.pool.step l = some p' ∧ s' = { s with pool := p' } := by
  unfold poolStep at hs
  split at hs
  · rename_i p' hp
    exact ⟨p', hp, (Option.some.inj hs).symm⟩
  · cases hs

/-- `accept` returns a connection, and `thread_pool_submit` is called. -/
theorem ServerInv.accept {i fd : Nat} {revents : List Bool} (hi : ServerInv s)
    (hpc : s.pc = .each i (true :: revents))
    (hs : s.pool.step (.call 0 (s.nextConn i fd)) = some p') :
    ServerInv { s with pool := p', pc := .submit i revents, accepted := s.accepted + 1 } := by
  have hcaller := hi.caller
  rw [hpc] at hcaller
  obtain ⟨x, hx, hfree⟩ := hcaller
  refine ⟨hi.pool.step hs, ?_, fun n => ?_, fun n => ?_, fun n => ?_, fun ht => ?_,
    hi.joined.step (.of_step hs)⟩
  · cases Pool.Step.of_step hs with
    | call hk hf => exact ⟨.calling (s.nextConn i fd), by simp [hx], trivial⟩
  · have hacc := hi.accepts n
    rw [(Pool.call_ledger (ofSerial n) hs).2]
    simp only [ofSerial, nextConn]
    rcases Nat.lt_trichotomy n s.accepted with h | h | h
    · have hne : (s.accepted == n) = false := by simpa using Nat.ne_of_gt h
      simp only [hne, decide_eq_true h, decide_eq_true (Nat.lt_succ_of_lt h)] at hacc ⊢
      exact hacc
    · subst h
      simp only [Nat.lt_irrefl, decide_false, Bool.toNat_false, beq_self_eq_true, Bool.toNat_true,
        Nat.lt_succ_self, decide_true] at hacc ⊢
      omega
    · have hne : (s.accepted == n) = false := by simpa using Nat.ne_of_lt h
      have h1 : ¬ n < s.accepted := Nat.not_lt.mpr (Nat.le_of_lt h)
      have h2 : ¬ n < s.accepted + 1 := by omega
      simp only [hne, decide_eq_false h1, decide_eq_false h2] at hacc ⊢
      exact hacc
  · rw [(Pool.call_ledger (ofSerial n) hs).1]
    exact hi.taken n
  · have := hi.refused n
    rw [hpc] at this
    exact this
  · have := (hi.teardown ht).1
    rw [hpc] at this
    cases this

theorem countP_result (results : List (Nat × Bool)) (m n : Nat) (b b' : Bool) :
    (results ++ [(m, b)]).countP (· == (n, b'))
      = results.countP (· == (n, b')) + (m == n && b == b').toNat := by
  rw [List.countP_append, CondVar.countP_cons_toNat, List.countP_nil, Nat.zero_add]
  rfl

/-- `thread_pool_submit` takes the lock. -/
theorem ServerInv.submit {i : Nat} {revents : List Bool} {pick : Option Nat} (hi : ServerInv s)
    (hpc : s.pc = .submit i revents) (hs : s.pool.step (.submit 0 pick) = some p') :
    ServerInv ({ s with pool := p' }.submitted i revents) := by
  have hcaller := hi.caller
  rw [hpc] at hcaller
  obtain ⟨x, hx, hcall⟩ := hcaller
  have hstep := hi.pool.step hs
  have hjoined := hi.joined.step (.of_step hs)
  have hnone : s.teardown = .none := by
    by_contra ht
    have := (hi.teardown ht).1
    rw [hpc] at this
    cases this
  have hrefused := hi.refused
  simp only [hpc, closing, Nat.zero_add] at hrefused
  have hresult : ∀ (m n : Nat) (b : Bool), (s.results ++ [(m, b)]).countP (·.1 == n)
      = s.results.countP (·.1 == n) + (m == n).toNat := by
    intro m n b
    rw [List.countP_append, CondVar.countP_cons_toNat, List.countP_nil, Nat.zero_add]
  rcases Pool.submit_ledger hi.pool.ring hs with ⟨c, hss, _, hl⟩ | ⟨c, hss, hl⟩ | ⟨c, hss, _, hl⟩
  · have hss' : p'.submitters = [.returned c true] := by simp [hss, hx]
    simp only [submitted, hss']
    refine ⟨hstep, ⟨_, hss', trivial⟩, fun n => ?_, fun n => ?_, fun n => ?_, by simp [hnone],
      hjoined⟩
    · have hacc := hi.accepts n
      have := (hl (ofSerial n)).2
      simp only [ofSerial] at this
      rw [hresult]
      dsimp only at hacc ⊢
      omega
    · have htaken := hi.taken n
      have := (hl (ofSerial n)).1
      rw [countP_result, this, htaken]
      simp only [ofSerial, beq_self_eq_true, Bool.and_true]
      omega
    · rw [countP_result]
      simpa [closing] using hrefused n
  · have hss' : p'.submitters = [.returned c false] := by simp [hss, hx]
    simp only [submitted, hss']
    refine ⟨hstep, hss', fun n => ?_, fun n => ?_, fun n => ?_, by simp [hnone], hjoined⟩
    · have hacc := hi.accepts n
      have := (hl (ofSerial n)).2
      simp only [ofSerial] at this
      rw [hresult]
      dsimp only at hacc ⊢
      omega
    · rw [countP_result, (hl (ofSerial n)).1]
      simpa using hi.taken n
    · rw [countP_result, hrefused n]
      simp only [closing, ofSerial, beq_self_eq_true, Bool.and_true]
      omega
  · have hss' : p'.submitters = [.parked c] := by simp [hss, hx]
    simp only [submitted, hss']
    refine hi.quiet hs ?_ hl
    rw [hpc]
    exact ⟨_, hss', trivial⟩

/-- `close(client_fd)` in `server_run`. -/
theorem ServerInv.close {i : Nat} {revents : List Bool} {c : Conn} (hi : ServerInv s)
    (hpc : s.pc = .close i revents c) :
    ServerInv { s with
      pc := .each (i + 1) revents
      closes := s.closes ++ [(c.serial, .server)] } := by
  have hcaller := hi.caller
  rw [hpc] at hcaller
  refine ⟨hi.pool, ⟨_, hcaller, trivial⟩, hi.accepts, fun n => ?_, fun n => ?_, fun ht => ?_,
    hi.joined⟩
  · rw [List.countP_append]
    simpa [byWorker] using hi.taken n
  · have := hi.refused n
    rw [hpc] at this
    rw [List.countP_append, CondVar.countP_cons_toNat, List.countP_nil, this]
    have heq : ((c.serial, Closer.server) == (n, Closer.server)) = ofSerial n c := by
      rw [Bool.eq_iff_iff]
      simp [ofSerial]
    simp only [closing, heq]
    omega
  · have := (hi.teardown ht).1
    rw [hpc] at this
    cases this

/-- `client_handle_fd` of worker `i` closes its connection. -/
theorem ServerInv.handled {i : Nat} {c : Conn} (hi : ServerInv s)
    (hc : s.pool.workers[i]? = some (.handling c)) (hs : s.pool.step (.handled i) = some p') :
    ServerInv { s with pool := p', closes := s.closes ++ [(c.serial, .worker i)] } := by
  have hss : p'.submitters = s.pool.submitters := by
    cases Pool.Step.of_step hs with
    | handled _ => rfl
  refine ⟨hi.pool.step hs, hss ▸ hi.caller, fun n => ?_, fun n => ?_, fun n => ?_, fun ht => ?_,
    hi.joined.step (.of_step hs)⟩
  · rw [(Pool.handled_ledger (ofSerial n) hs hc).2]
    exact hi.accepts n
  · have hledger := (Pool.handled_ledger (ofSerial n) hs hc).1
    have htaken := hi.taken n
    rw [List.countP_append, CondVar.countP_cons_toNat, List.countP_nil]
    simp only [byWorker, ofSerial] at hledger htaken ⊢
    omega
  · rw [List.countP_append]
    simpa using hi.refused n
  · obtain ⟨h1, h2, h3⟩ := hi.teardown ht
    exact ⟨h1, h2, (Pool.Step.of_step hs).shuttingDown h3⟩

theorem ServerInv.shutdown (hi : ServerInv s) : ServerInv { s with pool := s.pool.shutdown } :=
  hi.quiet (l := .shutdown) rfl hi.caller.broadcast fun q =>
    ⟨Pool.taken_shutdown q, Pool.pending_shutdown q⟩

theorem ServerInv.listener {fd : Option Nat} (hi : ServerInv s)
    (hs : s.step (.listener fd) = some s') : ServerInv s' := by
  have hskip : ∀ {i : Nat} {revents : List Bool} {pc' : ServerPc}, s.pc = .each i revents →
      handless pc' = true → ServerInv { s with pc := pc' } := fun hpc h' =>
    hi.goto (by simp [hpc]) (by simp [hpc, handless]) h'
  simp only [step] at hs
  split at hs
  · rename_i hpc
    cases hs
    exact hskip hpc rfl
  · rename_i hpc
    cases hs
    exact hskip hpc rfl
  · rename_i hpc
    cases hs
    exact hskip hpc rfl
  · rename_i hpc
    obtain ⟨p', hp, rfl⟩ := poolStep_eq hs
    exact hi.accept hpc hp
  · cases hs

theorem ServerInv.poll {r : PollResult} (hi : ServerInv s) (hs : s.step (.poll r) = some s') :
    ServerInv s' := by
  have hnext : ∀ {pc' : ServerPc}, s.pc = .poll → handless pc' = true →
      ServerInv { s with pc := pc' } := fun hpc h' =>
    hi.goto (by simp [hpc]) (by simp [hpc, handless]) h'
  simp only [step] at hs
  split at hs
  · rename_i hpc
    cases hs
    exact hnext hpc rfl
  · rename_i hpc
    cases hs
    exact hnext hpc rfl
  · rename_i hpc
    cases hs
    exact hnext hpc rfl
  · rename_i hpc
    split at hs <;> cases hs
    exact hnext hpc rfl
  · cases hs

theorem ServerInv.destroy (hi : ServerInv s) (hs : s.step .destroy = some s') : ServerInv s' := by
  simp only [step] at hs
  split at hs
  · rename_i hpc ht
    split at hs
    · rename_i hstops
      cases hs
      have hshut := hi.shutdown
      exact ⟨hshut.pool, hshut.caller, hshut.accepts, hshut.taken, hshut.refused,
        fun _ => ⟨hpc, hstops, rfl⟩, fun i hi => absurd hi (Nat.not_lt_zero i)⟩
    · cases hs
  · cases hs

theorem ServerInv.join (hi : ServerInv s) (hs : s.step .join = some s') : ServerInv s' := by
  simp only [step] at hs
  split at hs
  · rename_i k ht
    have hjoined := hi.joined
    rw [ht] at hjoined
    have hteardown := hi.teardown (by simp [ht])
    split at hs
    · rename_i hk
      cases hs
      exact ⟨hi.pool, hi.caller, hi.accepts, hi.taken, hi.refused, fun _ => hteardown,
        fun i hi => hjoined i (hk ▸ hi)⟩
    · split at hs
      · rename_i hx
        cases hs
        refine ⟨hi.pool, hi.caller, hi.accepts, hi.taken, hi.refused, fun _ => hteardown,
          fun i hi => ?_⟩
        rcases Nat.lt_succ_iff_lt_or_eq.mp hi with hi | rfl
        · exact hjoined i hi
        · exact hx
      · cases hs
  · cases hs

theorem ServerInv.worker {i : Nat} {pick : Option Nat} (hi : ServerInv s)
    (hs : s.pool.step (.worker i pick) = some p') : ServerInv { s with pool := p' } := by
  refine hi.quiet hs ?_ fun q => Pool.worker_ledger q hi.pool.ring hs
  cases Pool.Step.of_step hs with
  | pop _ _ _ hsig => exact hi.caller.signal hsig
  | _ => exact hi.caller

theorem ServerInv.step {l : Label} (hi : ServerInv s) (hs : s.step l = some s') :
    ServerInv s' := by
  cases l with
  | run ok =>
    simp only [Server.step] at hs
    split at hs
    · rename_i hpc
      cases hs
      exact hi.goto (by simp [hpc]) (by simp [hpc, handless]) (by cases ok <;> rfl)
    · cases hs
  | test =>
    simp only [Server.step] at hs
    split at hs
    · rename_i hpc
      cases hs
      exact hi.goto (by simp [hpc]) (by simp [hpc, handless]) (by cases s.stopFlag <;> rfl)
    · cases hs
  | poll r => exact hi.poll hs
  | listener fd => exact hi.listener hs
  | submit pick =>
    simp only [Server.step] at hs
    split at hs
    · rename_i hpc
      obtain ⟨s₁, h₁, rfl⟩ := Option.map_eq_some_iff.mp hs
      obtain ⟨p', hp, rfl⟩ := poolStep_eq h₁
      exact hi.submit hpc hp
    · cases hs
  | close =>
    simp only [Server.step] at hs
    split at hs
    · rename_i hpc
      cases hs
      exact hi.close hpc
    · cases hs
  | worker i pick =>
    obtain ⟨p', hp, rfl⟩ := poolStep_eq hs
    exact hi.worker hp
  | handled i =>
    simp only [Server.step] at hs
    split at hs
    · rename_i c hc
      obtain ⟨p', hp, rfl⟩ := poolStep_eq hs
      exact hi.handled hc hp
    · cases hs
  | wakeWorker i =>
    obtain ⟨p', hp, rfl⟩ := poolStep_eq hs
    refine hi.quiet hp ?_ fun q => Pool.wakeWorker_ledger q hp
    cases Pool.Step.of_step hp with
    | wakeWorker _ => exact hi.caller
  | wakeSubmitter =>
    obtain ⟨p', hp, rfl⟩ := poolStep_eq hs
    refine hi.quiet hp ?_ fun q => Pool.wakeSubmitter_ledger q hp
    cases Pool.Step.of_step hp with
    | @wakeSubmitter k ss hw =>
      have hsig : (notFull Conn).signal s.pool.submitters (some 0) = some ss := hw
      exact hi.caller.signal hsig
  | stop =>
    simp only [Server.step] at hs
    split at hs
    · rename_i ht
      cases hs
      exact ⟨hi.pool, hi.caller, hi.accepts, hi.taken, hi.refused, fun h => absurd ht h, hi.joined⟩
    · cases hs
  | stopShutdown =>
    simp only [Server.step] at hs
    split at hs
    · cases hs
    · rename_i hstops
      cases hs
      have hshut := hi.shutdown
      exact ⟨hshut.pool, hshut.caller, hshut.accepts, hshut.taken, hshut.refused,
        fun ht => absurd (hi.teardown ht).2.1 hstops, hshut.joined⟩
  | destroy => exact hi.destroy hs
  | join => exact hi.join hs

/-- A step of the server leaves its pool alone, or is a step of it. -/
theorem step_pool {l : Label} (hs : s.step l = some s') :
    s'.pool = s.pool ∨ ∃ pl, Pool.Step s.pool pl s'.pool := by
  have hpool : ∀ (s₁ : Server) {pl : Pool.Label Conn}, s₁.poolStep pl = some s' →
      s₁.pool = s.pool → ∃ pl, Pool.Step s.pool pl s'.pool := by
    intro s₁ pl h₁ heq
    obtain ⟨p', hp, rfl⟩ := poolStep_eq h₁
    rw [heq] at hp
    exact ⟨pl, .of_step hp⟩
  cases l with
  | worker i pick | wakeWorker i | wakeSubmitter => exact Or.inr (hpool _ hs rfl)
  | handled i =>
    simp only [step] at hs
    split at hs
    · exact Or.inr (hpool _ hs rfl)
    · cases hs
  | listener fd =>
    simp only [step] at hs
    split at hs
    · cases hs
      exact Or.inl rfl
    · cases hs
      exact Or.inl rfl
    · cases hs
      exact Or.inl rfl
    · exact Or.inr (hpool _ hs rfl)
    · cases hs
  | submit pick =>
    simp only [step] at hs
    split at hs
    · obtain ⟨s₁, h₁, rfl⟩ := Option.map_eq_some_iff.mp hs
      obtain ⟨p', hp, rfl⟩ := poolStep_eq h₁
      have heq : ∀ (t : Server) (i : Nat) (revents : List Bool),
          (t.submitted i revents).pool = t.pool := by
        intro t i revents
        unfold submitted
        split <;> rfl
      rw [heq]
      exact Or.inr ⟨_, .of_step hp⟩
    · cases hs
  | stopShutdown =>
    simp only [step] at hs
    split at hs <;> cases hs
    exact Or.inr ⟨_, .shutdown⟩
  | destroy =>
    simp only [step] at hs
    split at hs
    · split at hs <;> cases hs
      exact Or.inr ⟨_, .shutdown⟩
    · cases hs
  | poll r =>
    simp only [step] at hs
    split at hs
    · cases hs
      exact Or.inl rfl
    · cases hs
      exact Or.inl rfl
    · cases hs
      exact Or.inl rfl
    · split at hs <;> cases hs
      exact Or.inl rfl
    · cases hs
  | join =>
    simp only [step] at hs
    split at hs
    · split at hs
      · cases hs
        exact Or.inl rfl
      · split at hs <;> cases hs
        exact Or.inl rfl
    · cases hs
  | run ok | test | close | stop =>
    simp only [step] at hs
    split at hs <;> cases hs
    exact Or.inl rfl

/-! ## Exactly once -/

theorem countP_results (results : List (Nat × Bool)) (n : Nat) :
    results.countP (·.1 == n)
      = results.countP (· == (n, true)) + results.countP (· == (n, false)) := by
  induction results with
  | nil => rfl
  | cons r results ih =>
    obtain ⟨m, b⟩ := r
    have hbeq : ∀ b', ((m, b) == (n, b')) = (m == n && b == b') := fun _ => rfl
    simp only [CondVar.countP_cons_toNat, ih, hbeq]
    cases b <;> simp <;> omega

theorem countP_closes (closes : List (Nat × Closer)) (n : Nat) :
    closes.countP (·.1 == n)
      = closes.countP (byWorker n) + closes.countP (· == (n, .server)) := by
  induction closes with
  | nil => rfl
  | cons r closes ih =>
    obtain ⟨m, closer⟩ := r
    have hbeq : ((m, closer) == (n, .server)) = (m == n && closer == .server) := rfl
    simp only [CondVar.countP_cons_toNat, ih, hbeq]
    cases closer with
    | worker i =>
      have hne : (Closer.worker i == Closer.server) = false := rfl
      simp only [byWorker, hne, Bool.and_false, Bool.toNat_false]
      omega
    | server =>
      simp only [byWorker, beq_self_eq_true, Bool.and_true, Bool.toNat_false]
      omega

/-- A connection is closed at most once, by a worker if
`thread_pool_submit` returned `0` for it and by `server_run` if it
returned `-1`; when the server is destroyed the queue is empty, and
every connection was closed. -/
structure ClosedOnce (s : Server) : Prop where
  once : ∀ n, s.closes.countP (·.1 == n) ≤ 1
  byWorker : ∀ n i, (n, .worker i) ∈ s.closes → (n, true) ∈ s.results
  byServer : ∀ n, (n, .server) ∈ s.closes → (n, false) ∈ s.results
  done : s.teardown = .destroyed → s.pool.jobs = [] ∧ ∀ n < s.accepted,
    (∃ i, (n, true) ∈ s.results ∧ s.closes.filter (·.1 == n) = [(n, .worker i)]) ∨
      ((n, false) ∈ s.results ∧ s.closes.filter (·.1 == n) = [(n, .server)])

/-- When the server is destroyed, nobody has a connection. -/
theorem ServerInv.drained (hi : ServerInv s) (hne : 0 < s.pool.workers.length)
    (ht : s.teardown = .destroyed) :
    s.pool.jobs = [] ∧ ∀ q, s.pool.taken q = 0 ∧ s.pool.pending q = 0 := by
  have hjoined := hi.joined
  rw [ht] at hjoined
  have hexited : ∀ pc ∈ s.pool.workers, pc = .exited := by
    intro pc hpc
    obtain ⟨i, hlt, hget⟩ := List.getElem_of_mem hpc
    have := hjoined i hlt
    rw [List.getElem?_eq_getElem hlt, hget] at this
    exact Option.some.inj this
  have hlen : s.pool.qlen = 0 :=
    (hi.pool.drained (List.mem_of_getElem? (hjoined 0 hne))).2
  have hjobs : s.pool.jobs = [] := by simp [Pool.jobs, hlen]
  refine ⟨hjobs, fun q => ⟨?_, ?_⟩⟩
  · rw [Pool.taken, hjobs, List.countP_nil, Nat.zero_add, List.countP_eq_zero]
    intro pc hpc
    rw [hexited pc hpc]
    simp [Pool.handles]
  · have hpc := (hi.teardown (by simp [ht])).1
    have hcaller := hi.caller
    rw [hpc] at hcaller
    obtain ⟨x, hx, hfree⟩ := hcaller
    simp [Pool.pending, hx, Pool.carries_of_free q hfree]

/-- A list with one entry of a kind. -/
theorem filter_of_countP_one {β : Type} {p : β → Bool} {xs : List β} (h : xs.countP p = 1) :
    ∃ x, xs.filter p = [x] ∧ x ∈ xs ∧ p x = true := by
  rw [List.countP_eq_length_filter, List.length_eq_one_iff] at h
  obtain ⟨x, hx⟩ := h
  have hmem : x ∈ xs.filter p := by simp [hx]
  exact ⟨x, hx, List.mem_of_mem_filter hmem, (List.mem_filter.mp hmem).2⟩

theorem ServerInv.closedOnce (hi : ServerInv s) (hne : 0 < s.pool.workers.length) :
    ClosedOnce s := by
  have hbool : ∀ b : Bool, b.toNat ≤ 1 := Bool.toNat_le
  have hworker : ∀ n i, (n, .worker i) ∈ s.closes → (n, true) ∈ s.results := by
    intro n i hm
    have hpos : 0 < s.closes.countP (Server.byWorker n) :=
      List.countP_pos_iff.mpr ⟨_, hm, by simp [Server.byWorker]⟩
    have := hi.taken n
    obtain ⟨r, hr, heq⟩ := List.countP_pos_iff.mp (by omega : 0 < s.results.countP (· == (n, true)))
    rw [beq_iff_eq] at heq
    exact heq ▸ hr
  have hserver : ∀ n, (n, .server) ∈ s.closes → (n, false) ∈ s.results := by
    intro n hm
    have hpos : 0 < s.closes.countP (· == (n, .server)) :=
      List.countP_pos_iff.mpr ⟨_, hm, by simp⟩
    have := hi.refused n
    obtain ⟨r, hr, heq⟩ :=
      List.countP_pos_iff.mp (by omega : 0 < s.results.countP (· == (n, false)))
    rw [beq_iff_eq] at heq
    exact heq ▸ hr
  refine ⟨fun n => ?_, hworker, hserver, fun ht => ?_⟩
  · have h1 := hi.accepts n
    have h2 := hi.taken n
    have h3 := hi.refused n
    have h4 := hbool (decide (n < s.accepted))
    rw [countP_results] at h1
    rw [countP_closes]
    omega
  · obtain ⟨hjobs, hnone⟩ := hi.drained hne ht
    refine ⟨hjobs, fun n hn => ?_⟩
    have hpc := (hi.teardown (by simp [ht])).1
    have h1 := hi.accepts n
    have h2 := hi.taken n
    have h3 := hi.refused n
    rw [countP_results, (hnone _).2, decide_eq_true hn, Bool.toNat_true] at h1
    rw [(hnone _).1] at h2
    rw [hpc] at h3
    simp only [closing] at h3
    have hcount : s.closes.countP (·.1 == n) = 1 := by
      rw [countP_closes]
      omega
    obtain ⟨⟨m, closer⟩, hfilter, hm, heq⟩ := filter_of_countP_one hcount
    obtain rfl : m = n := by simpa using heq
    cases closer with
    | worker i => exact Or.inl ⟨i, hworker m i hm, hfilter⟩
    | server => exact Or.inr ⟨hserver m hm, hfilter⟩

/-! ## After `server_stop` -/

/-- The pool shuts down, and `server_run` has returned or will not poll
again. -/
def Stopping (s : Server) : Prop :=
  s.pool.shuttingDown = true ∧ (s.stopFlag = true ∨ s.pc = .returned)

/-- The steps that `server_run` can still take, with `n` listeners. -/
def pcFuel (n : Nat) : ServerPc → Nat
  | .returned => 0
  | .test => 1
  | .start => 2
  | .each _ revents => 3 * revents.length + 2
  | .close _ revents _ => 3 * revents.length + 3
  | .submit _ revents => 3 * revents.length + 4
  | .poll => 3 * n + 3

/-- The steps that `server_destroy` can still take, with `n` workers. -/
def teardownFuel (n : Nat) : Teardown → Nat
  | .none => n + 2
  | .joining k => n + 1 - k
  | .destroyed => 0

/-- The steps that a server that is stopping can still take. -/
def fuel (s : Server) : Nat :=
  pcFuel s.nlisteners s.pc + s.pool.fuel + s.stops +
    teardownFuel s.pool.workers.length s.teardown

theorem fuel_pool {l : Pool.Label Conn} (hs : s.pool.step l = some p')
    (hlt : p'.fuel < s.pool.fuel) : { s with pool := p' }.fuel < s.fuel := by
  have hlen := (Pool.Step.of_step hs).lengths.1
  simp only [fuel, hlen]
  omega

theorem fuel_goto {pc' : ServerPc} (h : pcFuel s.nlisteners pc' < pcFuel s.nlisteners s.pc) :
    { s with pc := pc' }.fuel < s.fuel := by
  simp only [fuel]
  omega

/-- Every step of a server that is stopping, other than one more
`server_stop`, uses fuel. -/
theorem ServerInv.fuel_step {l : Label} (hi : ServerInv s) (hst : Stopping s) (hl : l ≠ .stop)
    (hs : s.step l = some s') : s'.fuel < s.fuel := by
  obtain ⟨hd, hflag⟩ := hst
  cases l with
  | run ok =>
    simp only [Server.step] at hs
    split at hs <;> cases hs
    rename_i hpc
    exact fuel_goto (by cases ok <;> simp [hpc, pcFuel])
  | test =>
    simp only [Server.step] at hs
    split at hs <;> cases hs
    rename_i hpc
    have hflag' : s.stopFlag = true := hflag.resolve_right (by simp [hpc])
    exact fuel_goto (by simp [hpc, hflag', pcFuel])
  | poll r =>
    simp only [Server.step] at hs
    split at hs
    · rename_i hpc
      cases hs
      exact fuel_goto (by simp [hpc, pcFuel])
    · rename_i hpc
      cases hs
      exact fuel_goto (by simp [hpc, pcFuel])
    · rename_i hpc
      cases hs
      exact fuel_goto (by simp [hpc, pcFuel])
    · rename_i hpc
      split at hs
      · rename_i hlen
        cases hs
        exact fuel_goto (by simp [hpc, pcFuel, hlen])
      · cases hs
    · cases hs
  | listener fd =>
    simp only [Server.step] at hs
    split at hs
    · rename_i hpc
      cases hs
      exact fuel_goto (by simp [hpc, pcFuel])
    · rename_i hpc
      cases hs
      exact fuel_goto (by simp [hpc, pcFuel])
    · rename_i hpc
      cases hs
      exact fuel_goto (by simp [hpc, pcFuel])
    · rename_i hpc
      obtain ⟨p', hp, rfl⟩ := poolStep_eq hs
      have hfuel := Pool.fuel_call hp
      have hlen := (Pool.Step.of_step hp).lengths.1
      simp only [fuel, hfuel, hlen, hpc, pcFuel, List.length_cons]
      omega
    · cases hs
  | submit pick =>
    simp only [Server.step] at hs
    split at hs
    · rename_i i revents hpc
      obtain ⟨s₁, h₁, rfl⟩ := Option.map_eq_some_iff.mp hs
      obtain ⟨p', hp, rfl⟩ := poolStep_eq h₁
      have hcaller := hi.caller
      rw [hpc] at hcaller
      obtain ⟨x, hx, _⟩ := hcaller
      obtain ⟨hfuel, c, hss⟩ := Pool.submit_of_shuttingDown hp hd
      have hss' : p'.submitters = [.returned c false] := by simp [hss, hx]
      have hlen := (Pool.Step.of_step hp).lengths.1
      simp only [submitted, hss', fuel, hfuel, hlen, hpc, pcFuel]
      omega
    · cases hs
  | close =>
    simp only [Server.step] at hs
    split at hs <;> cases hs
    rename_i hpc
    simp only [fuel, hpc, pcFuel]
    omega
  | worker i pick =>
    obtain ⟨p', hp, rfl⟩ := poolStep_eq hs
    exact fuel_pool hp (Pool.fuel_worker hi.pool.ring hp hd)
  | handled i =>
    simp only [Server.step] at hs
    split at hs
    · obtain ⟨p', hp, rfl⟩ := poolStep_eq hs
      have hlt := Pool.fuel_handled hp
      have hlen := (Pool.Step.of_step hp).lengths.1
      simp only [fuel, hlen]
      exact Nat.add_lt_add_right (Nat.add_lt_add_right (Nat.add_lt_add_left hlt _) _) _
    · cases hs
  | wakeWorker i =>
    obtain ⟨p', hp, rfl⟩ := poolStep_eq hs
    rw [(hi.pool.no_wake hd i).1] at hp
    cases hp
  | wakeSubmitter =>
    obtain ⟨p', hp, rfl⟩ := poolStep_eq hs
    rw [(hi.pool.no_wake hd 0).2] at hp
    cases hp
  | stop => exact absurd rfl hl
  | stopShutdown =>
    simp only [Server.step] at hs
    split at hs <;> cases hs
    rename_i hstops
    have hlen : s.pool.shutdown.workers.length = s.pool.workers.length := CondVar.length_broadcast
    simp only [fuel, Pool.fuel_shutdown, hlen]
    omega
  | destroy =>
    simp only [Server.step] at hs
    split at hs
    · rename_i hpc ht
      split at hs <;> cases hs
      have hlen : s.pool.shutdown.workers.length = s.pool.workers.length :=
        CondVar.length_broadcast
      simp only [fuel, Pool.fuel_shutdown, hlen, ht, teardownFuel]
      omega
    · cases hs
  | join =>
    simp only [Server.step] at hs
    split at hs
    · rename_i k ht
      split at hs
      · rename_i hk
        cases hs
        simp only [fuel, ht, teardownFuel]
        omega
      · split at hs
        · rename_i hx
          cases hs
          have hlt := (List.getElem?_eq_some_iff.mp hx).1
          simp only [fuel, ht, teardownFuel]
          omega
        · cases hs
    · cases hs

theorem poolStep_keeps {l : Pool.Label Conn} (hs : s.poolStep l = some s') :
    s'.pc = s.pc ∧ s'.stopFlag = s.stopFlag := by
  obtain ⟨p', _, rfl⟩ := poolStep_eq hs
  exact ⟨rfl, rfl⟩

theorem submitted_flag (s : Server) (i : Nat) (revents : List Bool) :
    (s.submitted i revents).stopFlag = s.stopFlag := by
  unfold submitted
  split <;> rfl

/-- A server that is stopping goes on stopping. -/
theorem Stopping.step {l : Label} (hst : Stopping s) (hs : s.step l = some s') : Stopping s' := by
  obtain ⟨hd, hflag⟩ := hst
  refine ⟨?_, ?_⟩
  · rcases step_pool hs with heq | ⟨pl, hp⟩
    · rw [heq]
      exact hd
    · exact hp.shuttingDown hd
  · cases l with
    | worker i pick | wakeWorker i | wakeSubmitter =>
      obtain ⟨h1, h2⟩ := poolStep_keeps hs
      rwa [h1, h2]
    | handled i =>
      simp only [Server.step] at hs
      split at hs
      · obtain ⟨h1, h2⟩ := poolStep_keeps hs
        rwa [h1, h2]
      · cases hs
    | stop =>
      simp only [Server.step] at hs
      split at hs <;> cases hs
      exact Or.inl rfl
    | stopShutdown =>
      simp only [Server.step] at hs
      split at hs <;> cases hs
      exact hflag
    | destroy =>
      simp only [Server.step] at hs
      split at hs
      · split at hs <;> cases hs
        exact hflag
      · cases hs
    | join =>
      simp only [Server.step] at hs
      split at hs
      · split at hs
        · cases hs
          exact hflag
        · split at hs <;> cases hs
          exact hflag
      · cases hs
    | run ok | test | close =>
      simp only [Server.step] at hs
      split at hs <;> cases hs
      rename_i hpc
      exact Or.inl (hflag.resolve_right (by simp [hpc]))
    | poll r =>
      simp only [Server.step] at hs
      have hset : s.pc = .poll → s.stopFlag = true := fun hpc =>
        hflag.resolve_right (by simp [hpc])
      split at hs
      · cases hs
        exact Or.inl (hset ‹_›)
      · cases hs
        exact Or.inl (hset ‹_›)
      · cases hs
        exact Or.inl (hset ‹_›)
      · split at hs <;> cases hs
        exact Or.inl (hset ‹_›)
      · cases hs
    | listener fd =>
      simp only [Server.step] at hs
      have hset : ∀ i revents, s.pc = .each i revents → s.stopFlag = true := fun i revents hpc =>
        hflag.resolve_right (by simp [hpc])
      split at hs
      · cases hs
        exact Or.inl (hset _ _ ‹_›)
      · cases hs
        exact Or.inl (hset _ _ ‹_›)
      · cases hs
        exact Or.inl (hset _ _ ‹_›)
      · rename_i hpc
        rw [(poolStep_keeps hs).2]
        exact Or.inl (hset _ _ hpc)
      · cases hs
    | submit pick =>
      simp only [Server.step] at hs
      split at hs
      · rename_i hpc
        obtain ⟨s₁, h₁, rfl⟩ := Option.map_eq_some_iff.mp hs
        rw [submitted_flag, (poolStep_keeps h₁).2]
        exact Or.inl (hflag.resolve_right (by simp [hpc]))
      · cases hs

/-- A server that is stopping is never stuck before it is destroyed. -/
theorem ServerInv.progress (hi : ServerInv s) (hst : Stopping s)
    (hne : s.teardown ≠ .destroyed) : ∃ l s', l ≠ .stop ∧ s.step l = some s' := by
  obtain ⟨hd, hflag⟩ := hst
  have hgo : ∀ l, l ≠ .stop → (s.step l).isSome → ∃ l s', l ≠ .stop ∧ s.step l = some s' :=
    fun l hl h => ⟨l, (s.step l).get h, hl, by simp⟩
  cases hpc : s.pc with
  | start => exact hgo (.run true) (by simp) (by simp [Server.step, hpc])
  | test => exact hgo .test (by simp) (by simp [Server.step, hpc])
  | poll => exact hgo (.poll .timeout) (by simp) (by simp [Server.step, hpc])
  | each i revents =>
    refine hgo (.listener none) (by simp) ?_
    cases revents with
    | nil => simp [Server.step, hpc]
    | cons b revents => cases b <;> simp [Server.step, hpc]
  | submit i revents =>
    have hcaller := hi.caller
    rw [hpc] at hcaller
    obtain ⟨x, hx, hcall⟩ := hcaller
    refine hgo (.submit none) (by simp) ?_
    cases x with
    | calling c | notified c =>
      simp [Server.step, hpc, poolStep, Pool.step, hx, Pool.submitStep, hd]
    | parked c =>
      have := (hi.pool.awake hd).2 (.parked c) (by simp [hx])
      cases this
    | idle | returned c ok => exact hcall.elim
  | close i revents c => exact hgo .close (by simp) (by simp [Server.step, hpc])
  | returned =>
    cases ht : s.teardown with
    | none =>
      by_cases hstops : s.stops = 0
      · exact hgo .destroy (by simp) (by simp [Server.step, hpc, ht, hstops])
      · exact hgo .stopShutdown (by simp) (by simp [Server.step, hstops])
    | joining k =>
      by_cases hk : k = s.pool.workers.length
      · exact hgo .join (by simp) (by simp [Server.step, ht, hk])
      · by_cases hx : s.pool.workers[k]? = some .exited
        · exact hgo .join (by simp) (by simp [Server.step, ht, hk, hx])
        · have hjoined := hi.joined
          rw [ht] at hjoined
          have hlt : k < s.pool.workers.length := by
            by_contra hge
            have hlast : s.pool.workers.length < k := by omega
            have := (List.getElem?_eq_some_iff.mp (hjoined _ hlast)).1
            exact Nat.lt_irrefl _ this
          have hget := List.getElem?_eq_getElem hlt
          rcases hi.pool.worker_moves hd hget (fun h => hx (hget.trans (congrArg some h))) with
            hmove | ⟨hmove, j, hj⟩
          · obtain ⟨p', hp⟩ := Option.isSome_iff_exists.mp hmove
            exact hgo (.worker k none) (by simp) (by simp [Server.step, poolStep, hp])
          · obtain ⟨p', hp⟩ := Option.isSome_iff_exists.mp hmove
            rw [hj] at hget
            exact hgo (.handled k) (by simp) (by simp [Server.step, poolStep, hget, hp])
    | destroyed => exact absurd ht hne

/-- No further `server_stop`. -/
def NoStop (_ : History Server Label) (_ : Server) (l : Label) : Prop := l ≠ .stop

/-- The invariant of a server that is stopping, over its further steps. -/
theorem run_stopping {h : History Server Label} (hi : ServerInv s) (hst : Stopping s)
    (hr : Run Server.step NoStop s h s') :
    ServerInv s' ∧ Stopping s' ∧ h.length + s'.fuel ≤ s.fuel := by
  refine Run.invariant (I := fun h t => ServerInv t ∧ Stopping t ∧ h.length + t.fuel ≤ s.fuel)
    ⟨hi, hst, by simp⟩ (fun h t l t' ht hl hs => ?_) hr
  obtain ⟨h1, h2, h3⟩ := ht
  have hlt := h1.fuel_step h2 hl hs
  refine ⟨h1.step hs, h2.step hs, ?_⟩
  rw [List.length_cons]
  omega

/-- Once it is stopping, the server can be destroyed. -/
theorem ServerInv.reaches_destroyed {s₀ : Server} {h : History Server Label}
    (hr : Run Server.step always s₀ h s) (hi : ServerInv s) (hst : Stopping s) :
    ∃ h' s', Run Server.step always s₀ h' s' ∧ s'.teardown = .destroyed := by
  obtain ⟨h', s', hr', _, hg⟩ := Run.reaches (I := fun _ t => ServerInv t ∧ Stopping t)
    (G := fun t => t.teardown = .destroyed) fuel (fun h t ht hne => by
      obtain ⟨l, t', hl, hs⟩ := ht.1.progress ht.2 hne
      exact ⟨l, t', trivial, hs, ⟨ht.1.step hs, ht.2.step hs⟩, ht.1.fuel_step ht.2 hl hs⟩)
    hr ⟨hi, hst⟩
  exact ⟨h', s', hr', hg⟩

/-- From every state, `server_stop` and `server_destroy` come to an
end. -/
theorem ServerInv.stops (hi : ServerInv s) :
    ∃ h' s', Run Server.step always s h' s' ∧ s'.teardown = .destroyed := by
  by_cases ht : s.teardown = .none
  · -- one call of `server_stop`
    have hs₁ : s.step .stop = some { s with stopFlag := true, stops := s.stops + 1 } := by
      simp [Server.step, ht]
    have hs₂ : ({ s with stopFlag := true, stops := s.stops + 1 } : Server).step .stopShutdown
        = some { s with stopFlag := true, pool := s.pool.shutdown } := by
      simp [Server.step]
    have hr := Run.snoc (Run.snoc (.nil : Run Server.step always s [] s) trivial hs₁) trivial hs₂
    exact ServerInv.reaches_destroyed hr ((hi.step hs₁).step hs₂) ⟨rfl, Or.inl rfl⟩
  · obtain ⟨hpc, _, hd⟩ := hi.teardown ht
    exact ServerInv.reaches_destroyed .nil hi ⟨hd, Or.inr hpc⟩

/-- The number of workers does not change. -/
theorem step_workers {l : Label} (hs : s.step l = some s') :
    s'.pool.workers.length = s.pool.workers.length := by
  rcases step_pool hs with heq | ⟨pl, hp⟩
  · rw [heq]
  · exact hp.lengths.1

theorem create_workers {nworkers qcap : SizeT} {nlisteners : Nat}
    (h : create nworkers qcap nlisteners = some s) : 0 < s.pool.workers.length := by
  unfold create at h
  split at h
  · rename_i pool hp
    cases h
    unfold Pool.create at hp
    split at hp
    · cases hp
    · rename_i hne
      cases hp
      simp only [List.length_replicate]
      omega
  · cases h

/-- Nothing is enqueued once the pool shuts down. -/
theorem run_jobs {s₀ : Server} {h : History Server Label} (h₀ : ServerInv s₀)
    (hr : Run Server.step always s₀ h s) :
    ∀ t l, (t, l) ∈ h → t.pool.shuttingDown = true →
      s.pool.shuttingDown = true ∧ s.pool.jobs <:+ t.pool.jobs := by
  refine (Run.invariant (I := fun h s => ServerInv s ∧ ∀ t l, (t, l) ∈ h →
    t.pool.shuttingDown = true → s.pool.shuttingDown = true ∧ s.pool.jobs <:+ t.pool.jobs)
    ⟨h₀, by simp⟩ (fun h s l s' hi _ hs => ⟨hi.1.step hs, ?_⟩) hr).2
  have hone : s.pool.shuttingDown = true →
      s'.pool.shuttingDown = true ∧ s'.pool.jobs <:+ s.pool.jobs := by
    intro hd
    rcases step_pool hs with heq | ⟨pl, hp⟩
    · rw [heq]
      exact ⟨hd, List.suffix_refl _⟩
    · exact ⟨hp.shuttingDown hd, hp.jobs_of_shuttingDown hi.1.pool.ring hd⟩
  intro t k hm hd
  rcases List.mem_cons.mp hm with heq | hm
  · cases heq
    exact hone hd
  · obtain ⟨h1, h2⟩ := hi.2 t k hm hd
    exact ⟨(hone h1).1, (hone h1).2.trans h2⟩

/-- In every run of the accept loop, the workers and `server_stop`:
every connection is closed at most once, by the right party; nothing is
enqueued once the pool shuts down; when the server is destroyed every
connection has been closed. The server can always be stopped and
destroyed, and after `server_stop` every schedule comes to that. -/
theorem run_closedOnce {nworkers qcap : SizeT} {nlisteners : Nat} {s₀ s : Server}
    {h : History Server Label} (hc : create nworkers qcap nlisteners = some s₀)
    (hr : Run Server.step always s₀ h s) :
    ClosedOnce s ∧
      (∀ t l, (t, l) ∈ h → t.pool.shuttingDown = true → s.pool.jobs <:+ t.pool.jobs) ∧
      (∃ h' s', Run Server.step always s h' s' ∧ s'.teardown = .destroyed) ∧
      (Stopping s → ∀ h' s', Run Server.step NoStop s h' s' → h'.length ≤ s.fuel ∧
        (s'.teardown = .destroyed ∨ ∃ l s'', l ≠ .stop ∧ s'.step l = some s'')) := by
  have h₀ := ServerInv.create hc
  obtain ⟨hi, hne⟩ := Run.state_invariant
    (I := fun s => ServerInv s ∧ 0 < s.pool.workers.length) ⟨h₀, create_workers hc⟩
    (fun _ _ _ _ hi _ hs => ⟨hi.1.step hs, by rw [step_workers hs]; exact hi.2⟩) hr
  refine ⟨hi.closedOnce hne, fun t l hm hd => (run_jobs h₀ hr t l hm hd).2, hi.stops, ?_⟩
  intro hst h' s' hr'
  obtain ⟨hi', hst', hlen⟩ := run_stopping hi hst hr'
  refine ⟨by omega, ?_⟩
  by_cases ht : s'.teardown = .destroyed
  · exact Or.inl ht
  · exact Or.inr (hi'.progress hst' ht)

/-- A server with one worker, a queue of one and one listener. -/
def oneWorker : Server where
  pool :=
    { queue := fun _ => { fd := 0, listenerIndex := 0, serial := 0 }
      qcap := 1, qhead := 0, qtail := 0, qlen := 0, shuttingDown := false
      workers := [.ready], submitters := [.idle] }
  nlisteners := 1
  stopFlag := false
  stops := 0
  pc := .start
  teardown := .none
  accepted := 0
  results := []
  closes := []

/-- Three connections: the first is being handled, the second is in the
queue, and the third waits for room when `server_stop` is called. -/
def stoppedWhenFull : List Label :=
  [.run true, .test, .poll (.ready [true]), .listener (some 5), .submit none, .worker 0 none,
    .listener none, .test, .poll (.ready [true]), .listener (some 6), .submit none,
    .listener none, .test, .poll (.ready [true]), .listener (some 7), .submit none,
    .stop, .stopShutdown, .submit none, .close, .listener none, .test, .destroy,
    .handled 0, .worker 0 none, .handled 0, .worker 0 none, .join, .join]

theorem run_closedOnce_stoppedWhenFull : ∃ h s,
    create ⟨1, by decide⟩ ⟨1, by decide⟩ 1 = some oneWorker ∧
      Run Server.step always oneWorker h s ∧ s.teardown = .destroyed ∧ s.accepted = 3 ∧
      s.closes = [(2, .server), (0, .worker 0), (1, .worker 0)] ∧ ClosedOnce s := by
  obtain ⟨h, s, hr, hs⟩ := Run.of_check Server.step always oneWorker stoppedWhenFull
    (fun s => s.teardown == .destroyed && s.accepted == 3 &&
      s.closes == [(2, .server), (0, .worker 0), (1, .worker 0)]) (by decide +kernel)
  simp only [Bool.and_eq_true, beq_iff_eq] at hs
  have hc : create ⟨1, by decide⟩ ⟨1, by decide⟩ 1 = some oneWorker := rfl
  exact ⟨h, s, hc, hr, hs.1.1, hs.1.2, hs.2, (run_closedOnce hc hr).1⟩

end Pyoneer.Api.Server
