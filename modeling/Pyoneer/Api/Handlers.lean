/-
Pyoneer.Api.Handlers — all the clients in `client_handle_fd` at once,
with the memory of the blueprints that they decode.

`Handler` follows one client; here every client of the worker is in
`client_handle_fd`, and what `blueprint_decode` allocates is kept in one
heap. A handler that has decoded a blueprint holds it in a local
variable until its request is done. It never frees the wrapper, and it
passes the job to `worker_run` or `worker_assign`: the worker destroys
the job that it replaces, and leaves the one that it refuses to its
caller.

A job number of the worker stands for an object of the heap (`objects`)
from the moment the call has the lock. Where the handler would pass NULL
to `json_object_push`, it goes on with an error reply here. Replies are
those of `Handler` and are left out, as are the requests that a client
sends while its last one is handled: there are none.
-/
import Pyoneer.Api.Client
import Pyoneer.Blueprint.Allocation

namespace Pyoneer.Api

open Pyoneer.Lib Pyoneer.Shared Pyoneer.Blueprint Pyoneer.Runtime

/-- What the handler passes to `blueprint_decode`: the value under
`"job"` of a `run` or `assign` request that is let through. -/
def decodedValue (token : Option Bytes) (resp parse : Bool) (text : Bytes) : Option JsonValue :=
  if resp = false ∨ parse = false then none
  else
    match jsonParse text with
    | some (.object entries) =>
      match jsonObjectGetValue (.object entries) (ascii "command"),
        jsonObjectGetValue (.object entries) (ascii "token") with
      | some (.string cmd), some (.string tok) =>
        if tokenRefused token tok then none
        else if strcmpEq cmd (ascii "run") || strcmpEq cmd (ascii "assign") then
          jsonObjectGetValue (.object entries) (ascii "job")
        else none
      | _, _ => none
    | _ => none

/-- Where a handler is: between two requests, or in a call of the
worker. `blueprint` is its local variable, for the requests that have
one. -/
inductive Phase where
  | idle
  | calling (blueprint : Option BlueprintObj)
  deriving DecidableEq, Repr

/-- What the local variable points to. -/
def Phase.blueprint : Phase → Option BlueprintObj
  | .idle => none
  | .calling blueprint => blueprint

/-- The worker with its clients, and their handlers. -/
structure Handlers where
  clients : Clients
  heap : Heap Kind
  phases : Nat → Phase
  objects : Nat → Option JobObj

namespace Handlers

/-- What can happen: handler `i` receives a request and decides on it,
its call takes a step, a thread takes a step, handler `i` goes on after
its call. `ok n` is the result of `malloc` at its call number `n`. -/
inductive Label where
  | recv (i : Nat) (text : Received) (resp parse : Bool) (ok : Nat → Bool)
  | move (i : Nat) (ok : Bool)
  | thread (t : Nat) (l : JobExec.Label)
  | reply (i : Nat)

/-- The object of `worker->job`. -/
def held (s : Handlers) : Option JobObj := s.clients.worker.job.bind s.objects

/-- The blueprint of a request, if it has one, and the heap after it was
decoded. -/
def decode (token : Option Bytes) (s : Handlers) (text : Received) (resp parse : Bool)
    (ok : Nat → Bool) : Option BlueprintObj × Heap Kind :=
  match decodedValue token resp parse text.1 with
  | none => (none, s.heap)
  | some obj => OnHeap.blueprintDecode ok s.heap obj

/-- A request, up to the call of the worker. -/
def request (token : Option Bytes) (s : Handlers) (i : Nat) (text : Received)
    (resp parse : Bool) (ok : Nat → Bool) : Option Handlers :=
  let (blueprint, heap) := s.decode token text resp parse ok
  match clientDecide token { resp, parse, blueprint := blueprint.isSome } text.1 with
  | .noResponse | .error _ => some { s with heap := heap }
  | .call r =>
    match s.clients.step (.call i r) with
    | some clients =>
      some { s with
        clients := clients, heap := heap
        phases := Function.update s.phases i (.calling blueprint) }
    | none => none

/-- `job_destroy(worker->job)`, if the call of handler `i` is there. -/
def heapAfter (s : Handlers) (i : Nat) : Heap Kind :=
  match s.clients.pcs i with
  | .destroyJob _ _ => s.held.elim s.heap (OnHeap.jobDestroy s.heap)
  | _ => s.heap

/-- A job that gets its number is the one of handler `i`. -/
def objectsAfter (s : Handlers) (i : Nat) (clients : Clients) : Nat → Option JobObj :=
  if clients.worker.core.njobs = s.clients.worker.core.njobs then s.objects
  else
    Function.update s.objects s.clients.worker.core.njobs
      ((s.phases i).blueprint.map BlueprintObj.job)

def step (token : Option Bytes) (s : Handlers) : Label → Option Handlers
  | .recv i text resp parse ok =>
    match s.phases i with
    | .idle => s.request token i text resp parse ok
    | .calling _ => none
  | .move i ok =>
    match s.clients.step (.move i ok) with
    | some clients =>
      some { s with
        clients := clients, heap := s.heapAfter i, objects := s.objectsAfter i clients }
    | none => none
  | .thread t l =>
    match s.clients.step (.thread t l) with
    | some clients => some { s with clients := clients }
    | none => none
  | .reply i =>
    match s.phases i with
    | .calling _ =>
      match CallPc.result (s.clients.pcs i) with
      | some _ => some { s with phases := Function.update s.phases i .idle }
      | none => none
    | .idle => none

/-- The server has started, with `n` clients; no blueprint was decoded
yet. -/
def create (n : Nat) : Handlers :=
  { clients := .create n, heap := .empty, phases := fun _ => .idle, objects := fun _ => none }

/-- No request is being handled. -/
def Idle (s : Handlers) : Prop := ∀ i < s.clients.count, s.phases i = .idle

instance (s : Handlers) : Decidable s.Idle :=
  inferInstanceAs (Decidable (∀ i < s.clients.count, s.phases i = .idle))

/-! ## What a request says about its blueprint -/

end Handlers

/-- The job that the request comes with. -/
def requestJob : Request → Option Decoded
  | .run job | .assign job => some job
  | _ => none

section Decision

variable {token : Option Bytes} {resp parse : Bool} {text : Bytes}

theorem pyoneerBlueprintDecode_of_value {m : Memory} {req obj : JsonValue} {job : Job}
    (hobj : jsonObjectGetValue req (ascii "job") = some obj) (hjob : jobDecode obj = some job)
    (hm : m.blueprint = true) :
    ∃ decoded : Decoded, decoded.1 = job ∧ pyoneerBlueprintDecode m req = some decoded := by
  refine ⟨⟨job, jobDecode_ready hjob⟩, rfl, ?_⟩
  unfold pyoneerBlueprintDecode
  split
  · rename_i hnone
    rw [hobj] at hnone
    cases hnone
  · rename_i obj' hobj'
    obtain rfl : obj = obj' := Option.some.inj (hobj.symm.trans hobj')
    split
    · rename_i job' hjob'
      obtain rfl : job = job' := Option.some.inj (hjob.symm.trans hjob')
      rw [if_pos hm]
    · rename_i hnone
      rw [hjob] at hnone
      cases hnone

theorem runCommand_of_blueprint {m : Memory} {req : JsonValue} {cmd : Bytes} {decoded : Decoded}
    (hcmd : (strcmpEq cmd (ascii "run") || strcmpEq cmd (ascii "assign")) = true)
    (hdec : pyoneerBlueprintDecode m req = some decoded) :
    ∃ r, runCommand m req cmd = .call r ∧ requestJob r = some decoded := by
  rcases Bool.or_eq_true _ _ |>.mp hcmd with hrun | hassign
  · exact ⟨.run decoded, by simp only [runCommand, hrun, hdec, if_true], rfl⟩
  · have hother : ∀ name, cstr (ascii "assign") ≠ cstr name → strcmpEq cmd name = false := by
      intro name hne
      rw [← Bool.not_eq_true, strcmpEq_iff, strcmpEq_iff.mp hassign]
      exact hne
    refine ⟨.assign decoded, ?_, rfl⟩
    simp only [runCommand, hother (ascii "run") (by decide),
      hother (ascii "get_status") (by decide), hassign, hdec, Bool.false_eq_true, if_true, if_false]

/-- A job that was decoded is passed to a call. -/
theorem clientDecide_of_decoded {obj : JsonValue} {job : Job}
    (hobj : decodedValue token resp parse text = some obj) (hjob : jobDecode obj = some job) :
    ∃ r decoded, clientDecide token { resp, parse, blueprint := true } text = .call r ∧
      requestJob r = some decoded ∧ decoded.1 = job := by
  unfold decodedValue at hobj
  split at hobj
  · cases hobj
  · rename_i hmem
    obtain ⟨rfl, rfl⟩ : resp = true ∧ parse = true := by simpa using hmem
    split at hobj
    · rename_i entries hentries
      split at hobj
      · rename_i cmd tok hcmd htok
        split at hobj
        · cases hobj
        · rename_i hrefused
          split at hobj
          · rename_i hname
            obtain ⟨decoded, hvalue, hdec⟩ := @pyoneerBlueprintDecode_of_value
              { resp := true, parse := true, blueprint := true } _ _ _ hobj hjob rfl
            simp only [clientDecide, hentries, hcmd, htok, hrefused, Bool.true_eq_false,
              Bool.false_eq_true, if_false]
            obtain ⟨r, hr, hbrings⟩ := runCommand_of_blueprint hname hdec
            exact ⟨r, decoded, hr, hbrings, hvalue⟩
          · cases hobj
      · cases hobj
    · cases hobj

/-- Without memory for a blueprint, no call has a job. -/
theorem requestJob_eq_none {r : Request}
    (h : clientDecide token { resp, parse, blueprint := false } text = .call r) :
    requestJob r = none := by
  have hnone : ∀ req, pyoneerBlueprintDecode { resp, parse, blueprint := false } req = none := by
    intro req
    unfold pyoneerBlueprintDecode
    split
    · rfl
    · split <;> rfl
  unfold clientDecide at h
  split at h
  · cases h
  · split at h
    · cases h
    · split at h
      · cases h
      · split at h
        · split at h
          · split at h
            · cases h
            · simp only [runCommand, hnone] at h
              split at h
              · cases h
              · split at h
                · cases h
                  rfl
                · split at h
                  · cases h
                  · split at h
                    · cases h
                      rfl
                    · split at h
                      · cases h
                        rfl
                      · split at h <;> cases h
                        rfl
          · cases h
        · cases h
      · cases h

end Decision

end Pyoneer.Api
