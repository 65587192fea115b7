/-
Pyoneer.Api.HandlersTheorems — what is allocated of the blueprints that
were decoded.

The account (`Ledger`) has four parts: the wrapper of every blueprint
that was decoded, the jobs that the worker has refused, the job that the
worker holds, and the jobs that calls in progress have not handed over
yet. Every step moves a job from one part to another, or frees the job
that is replaced; no step takes a wrapper or a refused job out. Once all
handlers are at rest the last part is empty. `pyoneer.h` has the caller
of `pyoneer_blueprint_decode` destroy the blueprint: that is the state of
the heap only as long as no blueprint was decoded (`conserved_iff`).
-/
import Pyoneer.Api.Handlers
import Pyoneer.Runtime.Ownership

namespace Pyoneer.Runtime

open Pyoneer.Api

/-- The call has a job that the worker has not taken over. -/
def CallPc.carries : CallPc → Bool
  | .enter r => (requestJob r).isSome
  | pc => pc.own.isSome

/-- The next step is `worker->job = job`. -/
def CallPc.sets : CallPc → Bool
  | .setJob _ _ => true
  | _ => false

section CallSteps

variable {w w' : Worker} {pc pc' : CallPc} {ok : Bool}

theorem CallPc.carries_of_own {j : Nat} (h : pc.own = some j) : pc.carries = true := by
  cases pc with
  | enter r => cases h
  | _ => exact Option.isSome_of_eq_some h

/-- A call keeps its job until the worker takes it over or refuses it. -/
theorem Worker.callStep_carries (hp : pc.Shape) (hs : w.callStep pc ok = some (w', pc')) :
    pc'.carries = (pc.carries && !w.refuses pc ok && !pc.sets) := by
  cases pc with
  | idle | returned c report => cases hs
  | enter r =>
    simp only [Worker.callStep] at hs
    cases hr : r.isCommand with
    | false =>
      simp only [hr, Bool.false_eq_true, if_false] at hs
      cases hs
      cases r <;> first | rfl | cases hr
    | true =>
      simp only [hr, if_true] at hs
      cases ok with
      | false =>
        cases hs
        cases r <;> rfl
      | true =>
        simp only [Bool.true_eq_false, if_false] at hs
        split at hs <;> cases hs
        cases r <;> rfl
  | update c y | scan c y j k seen =>
    simp only [Worker.callStep] at hs
    split at hs <;> cases hs <;> cases y <;> cases c <;> rfl
  | encodeScan c st j k seen | encodeTasks c st j k report =>
    simp only [Worker.callStep] at hs
    split at hs <;> cases hs <;> rfl
  | mapStatus c y j =>
    cases hs
    cases y <;> cases c <;> rfl
  | decide c =>
    simp only [Worker.callStep] at hs
    split at hs
    · rename_i pc heq
      cases hs
      cases c with
      | getStatus => cases heq
      | run j | assign j =>
        cases hst : w.status <;> simp only [hst, Cmd.choose, Option.some.injEq] at heq <;>
          subst heq <;> simp [CallPc.carries, CallPc.own, CallPc.sets, Cmd.job, Worker.refuses, hst]
      | start | restart | stop =>
        rcases Cmd.choose_cases heq with ⟨h, rfl⟩ | ⟨_, rfl⟩ | ⟨j, h, _, rfl⟩ | ⟨j, h, _, rfl⟩ |
          ⟨j, _, _, rfl⟩ | ⟨_, rfl | rfl⟩ <;> first | rfl | cases h
    · cases hs
  | engine c epc =>
    obtain ⟨core', epc', he, _, rfl⟩ := Worker.callStep_engine hs
    cases c with
    | run j =>
      have hfalse := @Worker.refuses_engine w ok core' epc epc' j he
      cases epc' with
      | done b =>
        cases b with
        | false => simp [Cmd.afterEngine, Cmd.engineDone, CallPc.carries, CallPc.own, hfalse]
        | true =>
          have hok : w.refuses (.engine (.run j) epc) ok = false := by simpa using hfalse
          rw [hok]
          rfl
      | _ =>
        have hok : w.refuses (.engine (.run j) epc) ok = false := by simpa using hfalse
        rw [hok]
        rfl
    | assign j => exact absurd rfl (hp.2 j)
    | getStatus => exact absurd rfl hp.1
    | start | restart | stop => cases epc' <;> rfl
  | destroyJob c j | setJob c j | encodeStatus c st j | unlock c report =>
    cases hs
    rfl
  | encode c =>
    rcases Worker.callStep_encode hs with ⟨_, report, rfl⟩ | ⟨_, j, _, rfl⟩ <;> rfl

/-- No job gets a number after the start of a call. -/
theorem Worker.callStep_njobs (hne : ∀ r, pc ≠ .enter r)
    (hs : w.callStep pc ok = some (w', pc')) : w'.core.njobs = w.core.njobs := by
  cases pc with
  | idle | returned c report => cases hs
  | enter r => exact absurd rfl (hne r)
  | update c y | scan c y j k seen | decide c | encode c | encodeScan c st j k seen
  | encodeTasks c st j k report =>
    simp only [Worker.callStep] at hs
    (repeat' split at hs) <;> cases hs <;> rfl
  | engine c epc =>
    obtain ⟨core', epc', he, rfl, _⟩ := Worker.callStep_engine hs
    exact (engineStep_jobs he).1
  | destroyJob c j =>
    cases hs
    cases w.job <;> rfl
  | mapStatus c y j | setJob c j | encodeStatus c st j | unlock c report =>
    cases hs
    rfl

/-- A job gets the next number when its call takes the lock; later steps
of the call keep the job that it has. -/
theorem Worker.callStep_numbers (hp : pc.Shape) (hs : w.callStep pc ok = some (w', pc')) :
    (w'.core.njobs = w.core.njobs ∧ ∀ j, pc'.own = some j → pc.own = some j) ∨
      (w'.core.njobs = w.core.njobs + 1 ∧ pc.carries = true ∧
        ∀ j, pc'.own = some j → j = w.core.njobs) := by
  obtain ⟨_, hown, _⟩ := Worker.callStep_own hp hs
  have hkeep : w'.core.njobs = w.core.njobs → ∀ j, pc'.own = some j → pc.own = some j := by
    intro hsame j hj
    rcases hown j hj with h | ⟨hge, hlt⟩
    · exact h
    · omega
  by_cases henter : ∃ r, pc = .enter r
  · obtain ⟨r, rfl⟩ := henter
    simp only [Worker.callStep] at hs
    split at hs
    · split at hs
      · cases hs
        exact Or.inl ⟨rfl, hkeep rfl⟩
      · split at hs <;> cases hs
        cases r with
        | run job | assign job => exact Or.inr ⟨rfl, rfl, fun j hj => (Option.some.inj hj).symm⟩
        | _ => exact Or.inl ⟨rfl, hkeep rfl⟩
    · cases hs
      exact Or.inl ⟨rfl, hkeep rfl⟩
  · have hsame := Worker.callStep_njobs (fun r h => henter ⟨r, h⟩) hs
    exact Or.inl ⟨hsame, hkeep hsame⟩

end CallSteps

end Pyoneer.Runtime

namespace Pyoneer.Api

open Pyoneer.Lib Pyoneer.Shared Pyoneer.Blueprint Pyoneer.Runtime

namespace Handlers

/-! ## The account -/

/-- The blueprint that the step decodes. -/
def decodes (token : Option Bytes) : Handlers × Label → Option BlueprintObj
  | (s, .recv _ text resp parse ok) => (s.decode token text resp parse ok).1
  | _ => none

/-- The job that the step leaves to the caller of `worker_run` or
`worker_assign`. -/
def refuses : Handlers × Label → Option JobObj
  | (s, .move i ok) =>
    if (s.clients.pcs i).carries && s.clients.worker.refuses (s.clients.pcs i) ok then
      (s.phases i).blueprint.map BlueprintObj.job
    else none
  | _ => none

/-- The wrappers of the blueprints that were decoded. -/
def wrappers (token : Option Bytes) (h : History Handlers Label) : Multiset (Block Kind) :=
  (h.map fun x => (decodes token x).elim 0 fun b => {⟨.wrapper, b.addr⟩}).sum

/-- The jobs that were refused. -/
def refusedJobs (h : History Handlers Label) : Multiset (Block Kind) :=
  (h.map fun x => (refuses x).elim 0 JobObj.blocks).sum

/-- The job that handler `i` still has to hand over. -/
def carried (s : Handlers) (i : Nat) : Multiset (Block Kind) :=
  if (s.clients.pcs i).carries then (s.phases i).blueprint.elim 0 fun b => b.job.blocks else 0

/-- The job that the worker holds; the line after `job_destroy` leaves
`worker->job` pointing to nothing for a moment. -/
def heldBlocks (s : Handlers) : Multiset (Block Kind) :=
  if s.clients.worker.job.any s.clients.worker.core.jobFreed then 0
  else s.held.elim 0 JobObj.blocks

/-- What is allocated, and who has which job. -/
structure Ledger (token : Option Bytes) (h : History Handlers Label) (s : Handlers) : Prop where
  owned : s.clients.Owned
  outside : ∀ i, s.clients.count ≤ i → s.clients.pcs i = .idle
  resting : ∀ i, s.phases i = .idle → (s.clients.pcs i).carries = false
  carrier : ∀ i, (s.clients.pcs i).carries = true → (s.phases i).blueprint.isSome = true
  named : ∀ i j, (s.clients.pcs i).own = some j →
    s.objects j = (s.phases i).blueprint.map BlueprintObj.job
  held : ∀ j, s.clients.worker.job = some j → (s.objects j).isSome = true
  setting : ∀ i c j, s.clients.pcs i = .setJob c j →
    ∀ o, s.clients.worker.job = some o → s.clients.worker.core.jobFreed o = true
  live : s.heap.live = wrappers token h + refusedJobs h + s.heldBlocks +
    ∑ i ∈ Finset.range s.clients.count, s.carried i

section Steps

variable {token : Option Bytes} {h : History Handlers Label} {s s' : Handlers}

theorem Ledger.create (n : Nat) : Ledger token [] (create n) := by
  refine ⟨.create n, fun _ _ => rfl, fun _ _ => rfl, ?_, ?_, ?_, ?_, ?_⟩
  · simp [Handlers.create, Clients.create, CallPc.carries, CallPc.own]
  · simp [Handlers.create, Clients.create, CallPc.own]
  · simp [Handlers.create, Clients.create, Worker.create]
  · simp [Handlers.create, Clients.create]
  · simp [Handlers.create, Clients.create, Worker.create, Heap.empty, wrappers, refusedJobs,
      heldBlocks, Handlers.held, carried, CallPc.carries, CallPc.own]

theorem wrappers_cons_of_none {x : Handlers × Label} (hx : decodes token x = none) :
    wrappers token (x :: h) = wrappers token h := by
  simp [wrappers, hx]

theorem refusedJobs_cons_of_none {x : Handlers × Label} (hx : refuses x = none) :
    refusedJobs (x :: h) = refusedJobs h := by
  simp [refusedJobs, hx]

/-- A step of a thread has nothing to do with it. -/
theorem Ledger.thread {t : Nat} {l : JobExec.Label} (hi : Ledger token h s)
    (hs : s.step token (.thread t l) = some s') : Ledger token ((s, .thread t l) :: h) s' := by
  simp only [step] at hs
  split at hs
  · rename_i clients hc
    cases hs
    have howned := hi.owned.thread hc
    obtain ⟨core', hthread, rfl⟩ := Clients.step_thread hc
    obtain ⟨_, e, _, rfl⟩ := Core.threadStep_eq hthread
    refine ⟨howned, hi.outside, hi.resting, hi.carrier, hi.named, hi.held, hi.setting, ?_⟩
    rw [wrappers_cons_of_none rfl, refusedJobs_cons_of_none rfl]
    exact hi.live
  · cases hs

/-- After a reply the local variable is gone; its job was handed over
before. -/
theorem Ledger.reply {i : Nat} (hi : Ledger token h s) (hs : s.step token (.reply i) = some s') :
    Ledger token ((s, .reply i) :: h) s' := by
  simp only [step] at hs
  split at hs
  · split at hs
    · rename_i report hres
      cases hs
      have hrest : (s.clients.pcs i).carries = false := by
        cases hpc : s.clients.pcs i with
        | idle | returned c report => rfl
        | _ => simp [hpc, CallPc.result] at hres
      have hphase : ∀ k, (s.clients.pcs k).carries = true →
          Function.update s.phases i .idle k = s.phases k := by
        intro k hk
        refine Function.update_of_ne (fun hki => ?_) _ _
        rw [hki, hrest] at hk
        cases hk
      refine ⟨hi.owned, hi.outside, fun k hk => ?_, fun k hk => ?_, fun k j hj => ?_, hi.held,
        hi.setting, ?_⟩
      · by_cases hki : k = i
        · exact hki ▸ hrest
        · exact hi.resting k ((Function.update_of_ne hki _ _).symm.trans hk)
      · simp only [hphase k hk]
        exact hi.carrier k hk
      · simp only [hphase k (CallPc.carries_of_own hj)]
        exact hi.named k j hj
      · rw [wrappers_cons_of_none rfl, refusedJobs_cons_of_none rfl]
        refine hi.live.trans (congrArg _ (Finset.sum_congr rfl fun k _ => ?_))
        unfold carried
        split
        · rename_i hk
          simp only [hphase k hk]
        · rfl
    · cases hs
  · cases hs

theorem decode_live {text : Received} {resp parse : Bool} {ok : Nat → Bool}
    {blueprint : Option BlueprintObj} {heap : Heap Kind}
    (hd : s.decode token text resp parse ok = (blueprint, heap)) :
    heap.live = blueprint.elim 0 BlueprintObj.blocks + s.heap.live := by
  unfold decode at hd
  split at hd
  · cases hd
    exact (zero_add _).symm
  · exact OnHeap.blueprintDecode_live hd

/-- The state after a request that calls the worker. -/
def called (s : Handlers) (i : Nat) (r : Request) (blueprint : Option BlueprintObj)
    (heap : Heap Kind) : Handlers :=
  { s with
    clients := { s.clients with pcs := Function.update s.clients.pcs i (.enter r) }
    heap := heap
    phases := Function.update s.phases i (.calling blueprint) }

/-- A request ends at once without a blueprint, or it calls the worker,
with the job that was decoded if there is one. -/
theorem request_cases {i : Nat} {text : Received} {resp parse : Bool} {ok : Nat → Bool}
    {blueprint : Option BlueprintObj} {heap : Heap Kind}
    (hd : s.decode token text resp parse ok = (blueprint, heap))
    (hs : s.request token i text resp parse ok = some s') :
    (blueprint = none ∧ s' = { s with heap := heap }) ∨
      ∃ r, s.clients.step (.call i r) = some (s.called i r blueprint heap).clients ∧
        i < s.clients.count ∧
        (requestJob r).map (fun d => d.1) = blueprint.map (fun b => b.job.value) ∧
        s' = s.called i r blueprint heap := by
  unfold request at hs
  rw [hd] at hs
  cases blueprint with
  | none =>
    simp only [Option.isSome_none] at hs
    split at hs
    · cases hs
      exact Or.inl ⟨rfl, rfl⟩
    · cases hs
      exact Or.inl ⟨rfl, rfl⟩
    · rename_i r hcall
      split at hs
      · rename_i clients hc
        obtain ⟨rfl, hlt, _⟩ := Clients.step_call hc
        cases hs
        exact Or.inr ⟨r, hc, hlt, by rw [requestJob_eq_none hcall]; rfl, rfl⟩
      · cases hs
  | some b =>
    obtain ⟨obj, hobj, hdec⟩ : ∃ obj, decodedValue token resp parse text.1 = some obj ∧
        OnHeap.blueprintDecode ok s.heap obj = (some b, heap) := by
      unfold decode at hd
      split at hd
      · cases hd
      · rename_i obj hobj
        exact ⟨obj, hobj, hd⟩
    obtain ⟨r, decoded, hcall, hjob, hvalue⟩ :=
      clientDecide_of_decoded hobj (OnHeap.blueprintDecode_value hdec)
    simp only [Option.isSome_some, hcall] at hs
    split at hs
    · rename_i clients hc
      obtain ⟨rfl, hlt, _⟩ := Clients.step_call hc
      cases hs
      exact Or.inr ⟨r, hc, hlt, by rw [hjob]; exact congrArg some hvalue, rfl⟩
    · cases hs

/-- What holds of the new call of handler `i`, and of all the others. -/
theorem at_update {P : Nat → CallPc → Phase → Prop} {i : Nat} {pc : CallPc} {phase : Phase}
    (hi : P i pc phase) (hothers : ∀ k, k ≠ i → P k (s.clients.pcs k) (s.phases k)) (k : Nat) :
    P k (Function.update s.clients.pcs i pc k) (Function.update s.phases i phase k) := by
  by_cases hki : k = i
  · subst hki
    simpa only [Function.update_self] using hi
  · simpa only [Function.update_of_ne hki] using hothers k hki

/-- The share of handler `i` was empty, and is the new job. -/
theorem Ledger.sum_called (hi : Ledger token h s) {i : Nat} {r : Request}
    {blueprint : Option BlueprintObj} {heap : Heap Kind} (hidle : s.phases i = .idle)
    (hlt : i < s.clients.count) (hjob : (requestJob r).isSome = blueprint.isSome) :
    ∑ k ∈ Finset.range s.clients.count, (s.called i r blueprint heap).carried k
      = ∑ k ∈ Finset.range s.clients.count, s.carried k +
        blueprint.elim 0 fun b => b.job.blocks := by
  have hempty : s.carried i = 0 := by simp [carried, hi.resting i hidle]
  have hcarried : (s.called i r blueprint heap).carried
      = Function.update s.carried i (blueprint.elim 0 fun b => b.job.blocks) := by
    funext k
    by_cases hki : k = i
    · subst hki
      cases blueprint <;> simp_all [called, carried, CallPc.carries, Phase.blueprint]
    · simp [called, carried, hki]
  have hsum := sum_update hlt s.carried (blueprint.elim 0 fun b => b.job.blocks)
  rw [hempty, add_zero] at hsum
  rw [hcarried, hsum]

/-- The call of handler `i` comes with the job that was decoded. -/
theorem Ledger.called (hi : Ledger token h s) {x : Handlers × Label} {i : Nat} {r : Request}
    {blueprint : Option BlueprintObj} {heap : Heap Kind} (hidle : s.phases i = .idle)
    (hlt : i < s.clients.count) (hjob : (requestJob r).isSome = blueprint.isSome)
    (howned : (s.called i r blueprint heap).clients.Owned)
    (hlive : heap.live = blueprint.elim 0 BlueprintObj.blocks + s.heap.live)
    (hdecodes : decodes token x = blueprint) (hrefuses : refuses x = none) :
    Ledger token (x :: h) (s.called i r blueprint heap) := by
  refine ⟨howned,
    Clients.forall_update (P := fun k pc => s.clients.count ≤ k → pc = .idle) ?_
      fun k _ => hi.outside k,
    at_update (P := fun _ pc phase => phase = .idle → pc.carries = false) ?_
      fun k _ => hi.resting k,
    at_update (P := fun _ pc phase => pc.carries = true → phase.blueprint.isSome = true) ?_
      fun k _ => hi.carrier k,
    at_update (P := fun _ pc phase => ∀ j, pc.own = some j →
      s.objects j = phase.blueprint.map BlueprintObj.job) ?_ fun k _ => hi.named k,
    hi.held,
    Clients.forall_update (P := fun _ pc => ∀ c j, pc = .setJob c j → ∀ o,
      s.clients.worker.job = some o → s.clients.worker.core.jobFreed o = true) ?_
      fun k _ => hi.setting k, ?_⟩
  · exact fun hge => absurd hlt (Nat.not_lt.mpr hge)
  · simp
  · exact fun hk => hjob ▸ hk
  · simp [CallPc.own]
  · simp
  · have hwrappers : wrappers token (x :: h)
        = blueprint.elim 0 (fun b => {⟨.wrapper, b.addr⟩}) + wrappers token h := by
      rw [wrappers, List.map_cons, List.sum_cons, hdecodes]
      rfl
    have hsum := @Ledger.sum_called token h s hi i r blueprint heap hidle hlt hjob
    have hheld : (s.called i r blueprint heap).heldBlocks = s.heldBlocks := rfl
    have hheap : (s.called i r blueprint heap).heap.live
        = blueprint.elim 0 BlueprintObj.blocks + s.heap.live := hlive
    have hcount : (s.called i r blueprint heap).clients.count = s.clients.count := rfl
    rw [hheap, hcount, hsum, hi.live, hwrappers, refusedJobs_cons_of_none hrefuses, hheld]
    cases blueprint with
    | none => simp only [Option.elim_none, zero_add, add_zero]
    | some b =>
      simp only [Option.elim_some, BlueprintObj.blocks]
      abel

/-- A request adds the wrapper of its blueprint, and its job to what is
carried. -/
theorem Ledger.recv {i : Nat} {text : Received} {resp parse : Bool} {ok : Nat → Bool}
    (hi : Ledger token h s) (hs : s.step token (.recv i text resp parse ok) = some s') :
    Ledger token ((s, .recv i text resp parse ok) :: h) s' := by
  simp only [step] at hs
  split at hs
  · rename_i hidle
    cases hd : s.decode token text resp parse ok with
    | mk blueprint heap =>
      have hlive := decode_live hd
      have hdecodes : decodes token (s, .recv i text resp parse ok) = blueprint :=
        congrArg Prod.fst hd
      rcases request_cases hd hs with ⟨rfl, rfl⟩ | ⟨r, hc, hlt, hjob, rfl⟩
      · refine ⟨hi.owned, hi.outside, hi.resting, hi.carrier, hi.named, hi.held, hi.setting, ?_⟩
        rw [wrappers_cons_of_none hdecodes, refusedJobs_cons_of_none rfl]
        exact (hlive.trans (zero_add _)).trans hi.live
      · have hbrings : (requestJob r).isSome = blueprint.isSome := by
          simpa using congrArg Option.isSome hjob
        exact hi.called hidle hlt hbrings (hi.owned.call hc) hlive hdecodes rfl
  · cases hs

end Steps

/-! ### A step of a call -/

/-- The state after a step of the call of handler `i`. -/
def moved (s : Handlers) (i : Nat) (w' : Worker) (pc' : CallPc) : Handlers :=
  let clients := { s.clients with worker := w', pcs := Function.update s.clients.pcs i pc' }
  { s with clients := clients, heap := s.heapAfter i, objects := s.objectsAfter i clients }

/-- What goes over to the worker with the step. -/
def handedOver (s : Handlers) (i : Nat) : Multiset (Block Kind) :=
  if (s.clients.pcs i).sets then s.carried i else 0

/-- What the step adds to the jobs that were refused. -/
def refusedNow (s : Handlers) (i : Nat) (ok : Bool) : Multiset (Block Kind) :=
  (refuses (s, .move i ok)).elim 0 JobObj.blocks

section Moves

variable {token : Option Bytes} {h : History Handlers Label} {s : Handlers} {i : Nat} {ok : Bool}
  {w' : Worker} {pc' : CallPc}

theorem step_move {s' : Handlers} (hs : s.step token (.move i ok) = some s') :
    ∃ w' pc', s.clients.worker.callStep (s.clients.pcs i) ok = some (w', pc') ∧
      s.clients.step (.move i ok) = some (s.moved i w' pc').clients ∧ s' = s.moved i w' pc' := by
  simp only [step] at hs
  split at hs
  · rename_i clients hc
    obtain ⟨w', pc', hcall, rfl⟩ := Clients.step_move hc
    cases hs
    exact ⟨w', pc', hcall, hc, rfl⟩
  · cases hs

theorem objects_moved_of_lt {j : Nat} (hj : j < s.clients.worker.core.njobs) :
    (s.moved i w' pc').objects j = s.objects j := by
  simp only [moved, objectsAfter]
  split
  · rfl
  · exact Function.update_of_ne (Nat.ne_of_lt hj) _ _

/-- The object of a number that the call has is the one in its local
variable. -/
theorem Ledger.named_moved (hi : Ledger token h s)
    (hcall : s.clients.worker.callStep (s.clients.pcs i) ok = some (w', pc')) {j : Nat}
    (hj : pc'.own = some j) :
    (s.moved i w' pc').objects j = (s.phases i).blueprint.map BlueprintObj.job := by
  rcases Worker.callStep_numbers (hi.owned.fresh.shape i) hcall with ⟨_, hown⟩ | ⟨hnext, _, hown⟩
  · rw [objects_moved_of_lt (hi.owned.fresh.own i j (hown j hj)).1]
    exact hi.named i j (hown j hj)
  · rw [hown j hj]
    simp [moved, objectsAfter, hnext]

theorem Ledger.held_moved (hi : Ledger token h s)
    (hcall : s.clients.worker.callStep (s.clients.pcs i) ok = some (w', pc')) {j : Nat}
    (hj : w'.job = some j) : ((s.moved i w' pc').objects j).isSome = true := by
  rcases (Worker.callStep_own (hi.owned.fresh.shape i) hcall).2.2 with hsame | ⟨j', hown, hset, _⟩
  · rw [hsame] at hj
    rw [objects_moved_of_lt (hi.owned.fresh.job j hj)]
    exact hi.held j hj
  · obtain rfl : j' = j := Option.some.inj (hset.symm.trans hj)
    rw [objects_moved_of_lt (hi.owned.fresh.own i j' hown).1, hi.named i j' hown, Option.isSome_map]
    exact hi.carrier i (CallPc.carries_of_own hown)

/-- The share of handler `i` stays its own, is refused, or goes over to
the worker. -/
theorem share_moved (hshape : (s.clients.pcs i).Shape)
    (hcall : s.clients.worker.callStep (s.clients.pcs i) ok = some (w', pc')) :
    s.refusedNow i ok + (s.moved i w' pc').carried i + s.handedOver i = s.carried i := by
  have hcarries := Worker.callStep_carries hshape hcall
  have hsets : (s.clients.pcs i).sets = true →
      s.clients.worker.refuses (s.clients.pcs i) ok = false := by
    intro hsets
    cases hpc : s.clients.pcs i <;> rw [hpc] at hsets <;> first | rfl | cases hsets
  have hphase : (s.moved i w' pc').phases i = s.phases i := rfl
  have hpc' : (s.moved i w' pc').clients.pcs i = pc' := Function.update_self _ _ _
  simp only [refusedNow, handedOver, carried, refuses, hphase, hpc', hcarries]
  cases hcar : (s.clients.pcs i).carries with
  | false => simp
  | true =>
    cases hset : (s.clients.pcs i).sets with
    | true => simp [hsets hset]
    | false =>
      cases href : s.clients.worker.refuses (s.clients.pcs i) ok with
      | false => simp
      | true => cases (s.phases i).blueprint <;> simp

theorem Ledger.heldBlocks_moved (hi : Ledger token h s) (hjob : w'.job = s.clients.worker.job)
    (hfreed : w'.core.jobFreed = s.clients.worker.core.jobFreed) :
    (s.moved i w' pc').heldBlocks = s.heldBlocks := by
  have hheld : (s.moved i w' pc').held = s.held := by
    unfold Handlers.held
    rw [show (s.moved i w' pc').clients.worker.job = s.clients.worker.job from hjob]
    cases ho : s.clients.worker.job with
    | none => rfl
    | some o => exact objects_moved_of_lt (hi.owned.fresh.job o ho)
  unfold heldBlocks
  rw [hheld]
  simp only [moved, hjob, hfreed]

/-- The job that is replaced is freed, and the one that replaces it is
the worker's from then on. -/
theorem Ledger.heap_moved (hi : Ledger token h s)
    (hcall : s.clients.worker.callStep (s.clients.pcs i) ok = some (w', pc')) :
    (s.moved i w' pc').heap.live + s.heldBlocks + s.handedOver i
      = s.heap.live + (s.moved i w' pc').heldBlocks := by
  have hshape := hi.owned.fresh.shape i
  rcases Worker.callStep_replaces hshape hcall with ⟨hjob, hfreed, hnot, hnset, _⟩ |
    ⟨c, j, hpc, rfl, rfl⟩ | ⟨c, j, hpc, rfl, rfl⟩
  · have hsets : (s.clients.pcs i).sets = false := by
      cases hpc : s.clients.pcs i with
      | setJob c j => exact absurd hpc (hnset c j)
      | _ => rfl
    have hheap : s.heapAfter i = s.heap := by
      unfold heapAfter
      split
      · rename_i c j hpc
        exact absurd hpc (hnot c j)
      · rfl
    rw [hi.heldBlocks_moved hjob hfreed, handedOver, hsets]
    simp [moved, hheap]
  · have hnone : s.handedOver i = 0 := by simp [handedOver, hpc, CallPc.sets]
    have hown : (s.clients.pcs i).own = some j := by rw [hpc]; rfl
    have hlock := CallPc.holdsLock_of_own hshape hown
    rw [hnone, add_zero]
    cases ho : s.clients.worker.job with
    | none => simp [moved, heapAfter, hpc, heldBlocks, Handlers.held, ho, Core.destroyJob]
    | some o =>
      obtain ⟨job, hobj⟩ := Option.isSome_iff_exists.mp (hi.held o ho)
      have halive := hi.owned.alive o ho (hi.owned.not_setJob hlock (by simp [hpc]))
      have hheld : s.heldBlocks = job.blocks := by
        simp [heldBlocks, Handlers.held, ho, halive, hobj]
      obtain ⟨account, hlive⟩ : ∃ account, s.heap.live = job.blocks + account := by
        refine ⟨wrappers token h + refusedJobs h +
          ∑ k ∈ Finset.range s.clients.count, s.carried k, ?_⟩
        rw [hi.live, hheld]
        abel
      have hfree := OnHeap.jobDestroy_live hlive
      have hheap : s.heapAfter i = OnHeap.jobDestroy s.heap job := by
        simp [heapAfter, hpc, Handlers.held, ho, hobj]
      rw [hheld, hlive]
      simp [moved, hheap, hfree, heldBlocks, Core.destroyJob, add_comm]
  · have hcarries : (s.clients.pcs i).carries = true := by rw [hpc]; rfl
    have hown : (s.clients.pcs i).own = some j := by rw [hpc]; rfl
    have hgone : s.heldBlocks = 0 := by
      cases ho : s.clients.worker.job with
      | none => simp [heldBlocks, Handlers.held, ho]
      | some o => simp [heldBlocks, ho, hi.setting i c j hpc o ho]
    have hheap : s.heapAfter i = s.heap := by simp [heapAfter, hpc]
    have hobj : (s.moved i { s.clients.worker with job := some j } (.update c .report)).objects j
        = (s.phases i).blueprint.map BlueprintObj.job := by
      rw [objects_moved_of_lt (hi.owned.fresh.own i j hown).1]
      exact hi.named i j hown
    have hheld : (s.moved i { s.clients.worker with job := some j } (.update c .report)).heldBlocks
        = s.carried i := by
      have hjob : (s.moved i { s.clients.worker with job := some j } (.update c .report)).held
          = (s.phases i).blueprint.map BlueprintObj.job := hobj
      rw [heldBlocks, hjob, carried, if_pos hcarries]
      simp only [moved, Option.any_some, hi.owned.own i j hown]
      cases (s.phases i).blueprint <;> rfl
    rw [hheld, hgone, handedOver, hpc]
    simp [moved, hheap, CallPc.sets]

theorem Ledger.live_moved (hi : Ledger token h s) (hlt : i < s.clients.count)
    (hcall : s.clients.worker.callStep (s.clients.pcs i) ok = some (w', pc')) :
    (s.moved i w' pc').heap.live
      = wrappers token ((s, .move i ok) :: h) + refusedJobs ((s, .move i ok) :: h) +
        (s.moved i w' pc').heldBlocks +
        ∑ k ∈ Finset.range s.clients.count, (s.moved i w' pc').carried k := by
  have hheap := hi.heap_moved hcall
  have hshare := share_moved (hi.owned.fresh.shape i) hcall
  have hsum := sum_update hlt s.carried ((s.moved i w' pc').carried i)
  have hothers : (s.moved i w' pc').carried
      = Function.update s.carried i ((s.moved i w' pc').carried i) := by
    funext k
    by_cases hki : k = i
    · rw [hki, Function.update_self]
    · rw [Function.update_of_ne hki]
      simp [carried, moved, hki]
  have hrefused : refusedJobs ((s, .move i ok) :: h) = s.refusedNow i ok + refusedJobs h := by
    rw [refusedJobs, List.map_cons, List.sum_cons]
    rfl
  rw [← hothers] at hsum
  rw [wrappers_cons_of_none rfl, hrefused]
  -- the three equations add up to the account, but for what both sides have
  refine add_right_cancel (b := s.heldBlocks + s.handedOver i + (s.moved i w' pc').carried i) ?_
  calc
    _ = ((s.moved i w' pc').heap.live + s.heldBlocks + s.handedOver i)
          + (s.moved i w' pc').carried i := by ac_rfl
    _ = wrappers token h + refusedJobs h + s.heldBlocks + (s.moved i w' pc').heldBlocks +
          (∑ k ∈ Finset.range s.clients.count, s.carried k + (s.moved i w' pc').carried i) := by
        rw [hheap, hi.live]
        ac_rfl
    _ = wrappers token h + refusedJobs h + s.heldBlocks + (s.moved i w' pc').heldBlocks +
          (∑ k ∈ Finset.range s.clients.count, (s.moved i w' pc').carried k +
            (s.refusedNow i ok + (s.moved i w' pc').carried i + s.handedOver i)) := by
        rw [← hsum, hshare]
    _ = _ := by ac_rfl

/-- `worker->job` is gone while a call is about to replace it. -/
theorem Ledger.setting_moved (hi : Ledger token h s)
    (hcall : s.clients.worker.callStep (s.clients.pcs i) ok = some (w', pc')) (k : Nat) (c : Cmd)
    (j : Nat) (hk : Function.update s.clients.pcs i pc' k = .setJob c j) (o : Nat)
    (ho : w'.job = some o) : w'.core.jobFreed o = true := by
  rcases Worker.callStep_replaces (hi.owned.fresh.shape i) hcall with
    ⟨hjob, hfreed, _, _, hnot⟩ | ⟨c', j', hpc, rfl, rfl⟩ | ⟨c', j', hpc, rfl, rfl⟩
  · rw [hfreed]
    by_cases hki : k = i
    · rw [hki, Function.update_self] at hk
      exact absurd hk (hnot c j)
    · rw [Function.update_of_ne hki] at hk
      exact hi.setting k c j hk o (hjob ▸ ho)
  · simp only at ho
    simp [ho, Core.destroyJob]
  · -- only one call is there
    by_cases hki : k = i
    · rw [hki, Function.update_self] at hk
      cases hk
    · rw [Function.update_of_ne hki] at hk
      have hlock : ∀ k' c j, s.clients.pcs k' = .setJob c j →
          (s.clients.pcs k').holdsLock = true := by
        intro k' c j hpc
        have hown : (s.clients.pcs k').own = some j := by rw [hpc]; rfl
        exact CallPc.holdsLock_of_own (hi.owned.fresh.shape k') hown
      exact absurd (hi.owned.unique k i (hlock k c j hk) (hlock i c' j' hpc)) hki

theorem Ledger.move {s' : Handlers} (hi : Ledger token h s)
    (hs : s.step token (.move i ok) = some s') : Ledger token ((s, .move i ok) :: h) s' := by
  obtain ⟨w', pc', hcall, hc, rfl⟩ := step_move hs
  have hshape := hi.owned.fresh.shape i
  have hlt : i < s.clients.count := by
    by_contra hge
    rw [hi.outside i (Nat.not_lt.mp hge)] at hcall
    cases hcall
  have hkeeps : pc'.carries = true → (s.clients.pcs i).carries = true := by
    rw [Worker.callStep_carries hshape hcall]
    simp only [Bool.and_eq_true]
    exact fun h => h.1.1
  refine ⟨hi.owned.move hc,
    Clients.forall_update (P := fun k pc => s.clients.count ≤ k → pc = .idle) ?_
      fun k _ => hi.outside k,
    Clients.forall_update (P := fun k pc => s.phases k = .idle → pc.carries = false) ?_
      fun k _ => hi.resting k,
    Clients.forall_update (P := fun k pc => pc.carries = true →
      (s.phases k).blueprint.isSome = true) ?_ fun k _ => hi.carrier k,
    Clients.forall_update (P := fun k pc => ∀ j, pc.own = some j →
      (s.moved i w' pc').objects j = (s.phases k).blueprint.map BlueprintObj.job) ?_ ?_,
    fun j => hi.held_moved hcall, hi.setting_moved hcall, hi.live_moved hlt hcall⟩
  · exact fun hge => absurd hlt (Nat.not_lt.mpr hge)
  · intro hidle
    by_contra hcarries
    have hold := hkeeps (by simpa using hcarries)
    rw [hi.resting i hidle] at hold
    cases hold
  · exact fun hcarries => hi.carrier i (hkeeps hcarries)
  · exact fun j hj => hi.named_moved hcall hj
  · intro k _ j hj
    rw [objects_moved_of_lt (hi.owned.fresh.own k j hj).1]
    exact hi.named k j hj

end Moves

theorem run_ledger {token : Option Bytes} {n : Nat} {h : History Handlers Label} {s : Handlers}
    (hr : Run (step token) always (create n) h s) : Ledger token h s := by
  refine Run.invariant (I := Ledger token) (Ledger.create n) (fun h s l s' hi _ hs => ?_) hr
  cases l with
  | recv i text resp parse ok => exact hi.recv hs
  | move i ok => exact hi.move hs
  | thread t l => exact hi.thread hs
  | reply i => exact hi.reply hs

/-! ## Once the handlers are at rest -/

/-- The request carries a blueprint: it gets as far as
`blueprint_decode`, the value it passes has the format of a job, and
there is memory. -/
def CarriesBlueprint (token : Option Bytes) : Handlers × Label → Prop
  | (s, .recv _ text resp parse ok) =>
    ∃ obj, decodedValue token resp parse text.1 = some obj ∧
      OnHeap.Decodable ok s.heap.calls obj
  | _ => False

/-- A decode that fails has released what it had allocated. -/
def FailedReleased (token : Option Bytes) : Handlers × Label → Prop
  | (s, .recv _ text resp parse ok) =>
    (s.decode token text resp parse ok).1 = none →
      (s.decode token text resp parse ok).2.live = s.heap.live
  | _ => True

/-- Of the blueprints that were decoded, only the job that the worker
holds is left. -/
structure Conserved (token : Option Bytes) (h : History Handlers Label) (s : Handlers) : Prop where
  jobs : s.heap.live.filter (·.kind = .job) = s.held.elim 0 fun job => {⟨.job, job.addr⟩}
  held : s.held.isSome = s.clients.worker.job.isSome
  wrappers : s.heap.live.filter (·.kind = .wrapper) = 0
  failed : ∀ x ∈ h, FailedReleased token x

section Rest

variable {token : Option Bytes} {h : History Handlers Label} {s : Handlers}

theorem decodes_isSome {x : Handlers × Label} :
    (decodes token x).isSome = true ↔ CarriesBlueprint token x := by
  obtain ⟨t, l⟩ := x
  cases l with
  | recv i text resp parse ok =>
    simp only [decodes, CarriesBlueprint, decode]
    cases decodedValue token resp parse text.1 with
    | none => simp
    | some obj => simp [OnHeap.blueprintDecode_isSome]
  | _ => simp [decodes, CarriesBlueprint]

theorem failedReleased (x : Handlers × Label) : FailedReleased token x := by
  obtain ⟨t, l⟩ := x
  cases l with
  | recv i text resp parse ok =>
    intro hnone
    cases hd : t.decode token text resp parse ok with
    | mk blueprint heap =>
      have hlive := decode_live hd
      rw [hd] at hnone
      obtain rfl : blueprint = none := hnone
      exact hlive.trans (zero_add _)
  | _ => trivial

/-- Without a blueprint nothing is allocated, and no handler or job
number refers to anything. -/
structure Undecoded (s : Handlers) : Prop where
  phases : ∀ i, (s.phases i).blueprint = none
  objects : ∀ j, s.objects j = none
  live : s.heap.live = 0

theorem Undecoded.held_eq_none (hu : Undecoded s) : s.held = none := by
  unfold Handlers.held
  cases s.clients.worker.job with
  | none => rfl
  | some o => exact hu.objects o

theorem Undecoded.phases_update {i : Nat} {phase : Phase} (hu : Undecoded s)
    (hphase : phase.blueprint = none) (k : Nat) :
    (Function.update s.phases i phase k).blueprint = none := by
  by_cases hki : k = i
  · rw [hki, Function.update_self]
    exact hphase
  · rw [Function.update_of_ne hki]
    exact hu.phases k

theorem Undecoded.step {l : Label} {s' : Handlers} (hu : Undecoded s)
    (hs : s.step token l = some s') (hnone : decodes token (s, l) = none) : Undecoded s' := by
  have hheld := hu.held_eq_none
  cases l with
  | recv i text resp parse ok =>
    simp only [Handlers.step] at hs
    split at hs
    · cases hd : s.decode token text resp parse ok with
      | mk blueprint heap =>
        have hlive := decode_live hd
        have hblueprint : blueprint = none := (congrArg Prod.fst hd).symm.trans hnone
        subst hblueprint
        have hempty : heap.live = 0 := by
          rw [hlive, hu.live]
          rfl
        rcases request_cases hd hs with ⟨_, rfl⟩ | ⟨r, _, _, _, rfl⟩
        · exact ⟨hu.phases, hu.objects, hempty⟩
        · exact ⟨hu.phases_update rfl, hu.objects, hempty⟩
    · cases hs
  | move i ok =>
    obtain ⟨w', pc', _, _, rfl⟩ := step_move hs
    refine ⟨hu.phases, fun j => ?_, ?_⟩
    · simp only [moved, objectsAfter]
      split
      · exact hu.objects j
      · rw [hu.phases i]
        by_cases hj : j = s.clients.worker.core.njobs
        · subst hj
          simp
        · rw [Function.update_of_ne hj]
          exact hu.objects j
    · simp only [moved, heapAfter, hheld]
      split <;> exact hu.live
  | thread t l =>
    simp only [Handlers.step] at hs
    split at hs <;> cases hs
    exact ⟨hu.phases, hu.objects, hu.live⟩
  | reply i =>
    simp only [Handlers.step] at hs
    split at hs
    · split at hs <;> cases hs
      exact ⟨hu.phases_update rfl, hu.objects, hu.live⟩
    · cases hs

theorem run_undecoded {n : Nat} (hr : Run (step token) always (create n) h s)
    (hnone : ∀ x ∈ h, decodes token x = none) : Undecoded s := by
  induction hr with
  | nil => exact ⟨fun _ => rfl, fun _ => rfl, rfl⟩
  | snoc _ _ hs ih =>
    obtain ⟨hlast, hrest⟩ := List.forall_mem_cons.mp hnone
    exact (ih hrest).step hs hlast

/-- At rest, nothing is left but wrappers, refused jobs, and the job of
the worker. -/
theorem Ledger.idle (hi : Ledger token h s) (hidle : s.Idle) :
    s.heap.live = wrappers token h + refusedJobs h + s.held.elim 0 JobObj.blocks := by
  have hrest : ∀ i, (s.clients.pcs i).carries = false := by
    intro i
    by_cases hlt : i < s.clients.count
    · exact hi.resting i (hidle i hlt)
    · rw [hi.outside i (Nat.not_lt.mp hlt)]
      rfl
  have hcarried : ∑ i ∈ Finset.range s.clients.count, s.carried i = 0 :=
    Finset.sum_eq_zero fun i _ => by simp [carried, hrest i]
  have hheld : s.heldBlocks = s.held.elim 0 JobObj.blocks := by
    have halive : s.clients.worker.job.any s.clients.worker.core.jobFreed = false := by
      cases ho : s.clients.worker.job with
      | none => rfl
      | some o =>
        refine hi.owned.alive o ho fun i c j hpc => ?_
        have hcarries := hrest i
        rw [hpc] at hcarries
        cases hcarries
    simp [heldBlocks, halive]
  rw [hi.live, hcarried, hheld, add_zero]

theorem Ledger.held_isSome (hi : Ledger token h s) :
    s.held.isSome = s.clients.worker.job.isSome := by
  unfold Handlers.held
  cases ho : s.clients.worker.job with
  | none => rfl
  | some o => exact hi.held o ho

/-- The wrappers that are left are all of them. -/
theorem filter_wrapper (hlive : s.heap.live
      = wrappers token h + refusedJobs h + s.held.elim 0 JobObj.blocks) :
    s.heap.live.filter (·.kind = .wrapper) = wrappers token h := by
  have hheld : (s.held.elim 0 JobObj.blocks).filter (·.kind = .wrapper) = 0 := by
    cases s.held with
    | none => rfl
    | some job => exact job.filter_blocks
  have hrefused : (refusedJobs h).filter (·.kind = .wrapper) = 0 :=
    filter_sum_elim_eq_zero (fun job => job.filter_blocks) h
  have hwrappers : (wrappers token h).filter (·.kind = .wrapper) = wrappers token h :=
    filter_sum_elim (fun _ => rfl) h
  rw [hlive, Multiset.filter_add, Multiset.filter_add, hwrappers, hrefused, hheld, add_zero,
    add_zero]

/-- At rest, the blueprints that were decoded are accounted for exactly
if there was none: a wrapper is never freed. -/
theorem conserved_iff {n : Nat} (hr : Run (step token) always (create n) h s) (hidle : s.Idle) :
    (Conserved token h s ↔ ∀ x ∈ h, ¬ CarriesBlueprint token x) ∧
      s.heap.live = wrappers token h + refusedJobs h + s.held.elim 0 JobObj.blocks := by
  have hi := run_ledger hr
  have hlive := hi.idle hidle
  have hnone : (∀ x ∈ h, ¬ CarriesBlueprint token x) ↔ ∀ x ∈ h, decodes token x = none := by
    simp only [← decodes_isSome, Option.not_isSome_iff_eq_none]
  rw [hnone]
  refine ⟨⟨fun hc => ?_, fun hnone => ?_⟩, hlive⟩
  · have hempty := hc.wrappers
    rw [filter_wrapper hlive, wrappers,
      sum_elim_eq_zero (fun _ => Multiset.singleton_ne_zero _)] at hempty
    exact hempty
  · have hundecoded := run_undecoded hr hnone
    refine ⟨?_, hi.held_isSome, ?_, fun x _ => failedReleased x⟩
    · rw [hundecoded.live, hundecoded.held_eq_none]
      rfl
    · rw [hundecoded.live]
      rfl

end Rest

/-! ### One request -/

/-- A request to assign a job of one task. -/
def assignOneTask : Received :=
  ⟨ascii "\x7b\"command\":\"assign\",\"token\":\"t\",\"job\":"
    ++ ascii "\x7b\"id\":1,\"tasks\":[\x7b\"name\":\"a\"\x7d]\x7d\x7d", by decide +kernel⟩

/-- The only handler receives it, its call takes `n` steps with `ok`, and
the handler goes on; nothing else happens, and no `malloc` fails. -/
def oneAssign (n : Nat) (ok : Bool) : List Label :=
  .recv 0 assignOneTask true true (fun _ => true) :: List.replicate n (.move 0 ok) ++ [.reply 0]

theorem conserved_iff_oneAssign :
    ∃ h s, Run (step (some (ascii "t"))) always (create 1) h s ∧ s.Idle ∧
      (Conserved (some (ascii "t")) h s ↔ ∀ x ∈ h, ¬ CarriesBlueprint (some (ascii "t")) x) ∧
      s.heap.live
        = wrappers (some (ascii "t")) h + refusedJobs h + s.held.elim 0 JobObj.blocks := by
  obtain ⟨h, s, hr, hidle⟩ := Run.of_check (step (some (ascii "t"))) always (create 1)
    (oneAssign 16 true) (fun s => decide s.Idle) (by decide +kernel)
  exact ⟨h, s, hr, of_decide_eq_true hidle, conserved_iff hr (of_decide_eq_true hidle)⟩

/-- The wrapper of a job that the worker has taken over is left, and both
are left of one that could not take the lock. -/
theorem assign_not_conserved :
    (∃ h s, Run (step (some (ascii "t"))) always (create 1) h s ∧ s.Idle ∧
      s.clients.worker.job.isSome = true ∧ ¬ Conserved (some (ascii "t")) h s) ∧
    ∃ h s, Run (step (some (ascii "t"))) always (create 1) h s ∧ s.Idle ∧
      s.clients.worker.job = none ∧ (s.heap.live.filter (·.kind = .job)).card = 1 ∧
      ¬ Conserved (some (ascii "t")) h s := by
  have hleft : ∀ {h s}, (s.heap.live.filter (·.kind = .wrapper)).card = 1 →
      ¬ Conserved (some (ascii "t")) h s := by
    intro h s hone hc
    rw [hc.wrappers] at hone
    cases hone
  obtain ⟨h, s, hr, hs⟩ := Run.of_check (step (some (ascii "t"))) always (create 1)
    (oneAssign 16 true) (fun s => decide (s.Idle ∧ s.clients.worker.job.isSome = true ∧
      (s.heap.live.filter (·.kind = .wrapper)).card = 1)) (by decide +kernel)
  obtain ⟨h', s', hr', hs'⟩ := Run.of_check (step (some (ascii "t"))) always (create 1)
    (oneAssign 1 false) (fun s => decide (s.Idle ∧ s.clients.worker.job = none ∧
      (s.heap.live.filter (·.kind = .job)).card = 1 ∧
      (s.heap.live.filter (·.kind = .wrapper)).card = 1)) (by decide +kernel)
  obtain ⟨hidle, hjob, hone⟩ := of_decide_eq_true hs
  obtain ⟨hidle', hjob', hleftJob, hone'⟩ := of_decide_eq_true hs'
  exact ⟨⟨h, s, hr, hidle, hjob, hleft hone⟩, h', s', hr', hidle', hjob', hleftJob, hleft hone'⟩

end Handlers

end Pyoneer.Api
