/-
Pyoneer.Api.Replies — the texts that `client_handle_fd` sends.

A reply is written in one of two ways: `json_serialize` on the response,
or a format string for the internal error. The format string has no
quotes around the message, so what it writes is not JSON; it is used
where the response could not be allocated or does not fit the buffer.
The second is a matter of the job that the report describes:
`replySize` is the length that `json_measure` finds for it.
-/
import Pyoneer.Shared.JsonParseTheorems
import Pyoneer.Api.ClientTheorems

namespace Pyoneer.Api

open Pyoneer.Lib Pyoneer.Shared Pyoneer.Blueprint Pyoneer.Runtime

/-! ## Reports -/

theorem plain_string {s : Bytes} (h : (0 : UInt8) ∉ s) : Plain (.string s) := h

theorem plain_taskStatusMap (status : TaskStatus) : Plain (taskStatusMap status) := by
  cases status <;> exact plain_string (by decide)

theorem plain_jobStatusMap (status : JobStatus) : Plain (jobStatusMap status) := by
  cases status <;> exact plain_string (by decide)

theorem plain_workerStatusMap (status : WorkerStatus) : Plain (workerStatusMap status) := by
  cases status <;> exact plain_string (by decide)

theorem plain_encodeJobStatus (status : JobStatus) (tasks : List (TaskStatus × Bytes)) :
    Plain (encodeJobStatus status tasks) := by
  have hitem : ∀ t : TaskStatus × Bytes, Plain (jsonObjectPush (taskEncodeStatus t.1)
      (ascii "name") (.string (cstr t.2))) := by
    intro t
    have hstatus : Plain (taskEncodeStatus t.1) :=
      plain_push trivial (by decide) (plain_taskStatusMap t.1)
    exact plain_push hstatus (by decide) (zero_not_mem_cstr t.2)
  have hstatus : Plain (jsonObjectPush (.object []) (ascii "status") (jobStatusMap status)) :=
    plain_push trivial (by decide) (plain_jobStatusMap status)
  exact plain_push hstatus (by decide) (plainValues_map _ tasks hitem)

theorem plain_encodeReport (report : Report) : Plain (encodeReport report) := by
  have hstatus : Plain (jsonObjectPush (.object []) (ascii "status")
      (workerStatusMap report.status)) :=
    plain_push trivial (by decide) (plain_workerStatusMap report.status)
  unfold encodeReport
  cases report.job with
  | none => exact plain_push hstatus (by decide) trivial
  | some job =>
    have hjob : Plain (jsonObjectPush (encodeJobStatus job.status job.tasks) (ascii "id")
        (.integer job.id)) :=
      plain_push (plain_encodeJobStatus job.status job.tasks) (by decide) trivial
    exact plain_push hstatus (by decide) hjob

/-- The length of the array of tasks in a report. -/
def tasksSize (tasks : List (TaskStatus × Bytes)) : Nat :=
  2 + (tasks.map fun t => 28 + measureValue (taskStatusMap t.1) + measureString (cstr t.2)).sum

/-- The length of `"job"` in a report. -/
def jobSize : Option JobReport → Nat
  | none => 4
  | some job =>
    33 + measureValue (jobStatusMap job.status) + tasksSize job.tasks
      + (serializeInteger job.id).length

/-- The buffer that a report needs, as `json_measure` finds it. -/
def replySize (id : Int) (report : Report) : Nat :=
  65 + measureValue (workerStatusMap report.status) + jobSize report.job
    + (serializeInteger id).length

theorem measureValues_map {α : Type} (f : α → JsonValue) (xs : List α) :
    measureValues (xs.map f) = (xs.map fun x => 2 + measureValue (f x)).sum := by
  induction xs with
  | nil => rfl
  | cons x xs ih =>
    rw [List.map_cons, measureValues, ih, List.map_cons, List.sum_cons]

theorem measureValue_array {α : Type} (f : α → JsonValue) (xs : List α) :
    measureValue (.array (xs.map f)) = 2 + (xs.map fun x => 2 + measureValue (f x)).sum := by
  cases xs with
  | nil => rfl
  | cons x xs =>
    rw [List.map_cons, measureValue, measureValues_map, List.map_cons, List.sum_cons]
    omega

/-- The response to a command that returned a report. -/
def statusResp (id : Int) (report : Report) : JsonValue :=
  jsonObjectPush (.object []) (ascii "pyoneer")
    (jsonObjectPush (jsonObjectPush (encodeReport report) (ascii "role")
      (.string (cstr (ascii "worker")))) (ascii "id") (.integer id))

theorem plain_statusResp (id : Int) (report : Report) : Plain (statusResp id report) := by
  have hrole : Plain (jsonObjectPush (encodeReport report) (ascii "role")
      (.string (cstr (ascii "worker")))) :=
    plain_push (plain_encodeReport report) (by decide) (plain_string (zero_not_mem_cstr _))
  have hid : Plain (jsonObjectPush (jsonObjectPush (encodeReport report) (ascii "role")
      (.string (cstr (ascii "worker")))) (ascii "id") (.integer id)) :=
    plain_push hrole (by decide) trivial
  exact plain_push trivial (by decide) hid

theorem measureValue_encodeJobStatus (job : JobReport) :
    measureValue (jsonObjectPush (encodeJobStatus job.status job.tasks) (ascii "id")
      (.integer job.id)) = jobSize (some job) := by
  have hitem : ∀ t : TaskStatus × Bytes, 2 + measureValue (jsonObjectPush (taskEncodeStatus t.1)
      (ascii "name") (.string (cstr t.2)))
        = 28 + measureValue (taskStatusMap t.1) + measureString (cstr t.2) := by
    intro t
    have hkeys : measureString (ascii "status") = 6 ∧ measureString (ascii "name") = 4 := by decide
    simp only [taskEncodeStatus, jsonObjectPush_object, List.nil_append, List.cons_append,
      measureValue, measureEntry, measureEntries, hkeys]
    omega
  have hkeys : measureString (ascii "status") = 6 ∧ measureString (ascii "tasks") = 5 ∧
      measureString (ascii "id") = 2 := by decide
  simp only [encodeJobStatus, jsonObjectPush_object, List.nil_append, List.cons_append,
    measureValue, measureEntry, measureEntries, hkeys, measureValue_array, hitem, jobSize,
    tasksSize]
  omega

theorem jsonMeasure_statusResp (id : Int) (report : Report) :
    jsonMeasure (statusResp id report) = replySize id report := by
  have hkeys : measureString (ascii "pyoneer") = 7 ∧ measureString (ascii "status") = 6 ∧
      measureString (ascii "job") = 3 ∧ measureString (ascii "role") = 4 ∧
      measureString (cstr (ascii "worker")) = 6 ∧ measureString (ascii "id") = 2 := by decide
  have hjob : ∃ v, encodeReport report = .object [(ascii "status", workerStatusMap report.status),
      (ascii "job", v)] ∧ measureValue v = jobSize report.job := by
    unfold encodeReport
    cases report.job with
    | none => exact ⟨.null, rfl, rfl⟩
    | some job => exact ⟨_, rfl, measureValue_encodeJobStatus job⟩
  obtain ⟨v, hv, hsize⟩ := hjob
  simp only [jsonMeasure, statusResp, hv, jsonObjectPush_object, List.nil_append, List.cons_append,
    measureValue, measureEntry, measureEntries, hkeys, hsize, replySize]
  omega

/-! ## Well-formed replies -/

/-- `json_parse_ex` accepts the text as an object. -/
def WellFormed (text : Bytes) : Prop := ∃ es, jsonParse text = some (.object es)

theorem not_wellFormed_internalError : ¬ WellFormed internalErrorText := by
  rintro ⟨es, h⟩
  have hnone : jsonParse internalErrorText = none := rfl
  rw [hnone] at h
  cases h

theorem sendResp_fits {es : List (Bytes × JsonValue)} (hp : Plain (.object es))
    (h : jsonMeasure (.object es) ≤ bufLen) :
    jsonParse (sendResp (.object es)) = some (.object (rereadEntries es)) := by
  have hcstr : sendResp (.object es) = jsonSerialize (.object es) := by
    rw [sendResp, if_neg (by omega)]
    exact cstr_eq_self.mpr (zero_not_mem_jsonSerialize _ hp)
  rw [hcstr]
  exact jsonParse_jsonSerialize hp

theorem sendResp_overflows {v : JsonValue} (h : bufLen < jsonMeasure v) :
    sendResp v = internalErrorText := by
  rw [sendResp, if_pos h]
  rfl

theorem wellFormed_sendResp {es : List (Bytes × JsonValue)} (hp : Plain (.object es)) :
    WellFormed (sendResp (.object es)) ↔ jsonMeasure (.object es) ≤ bufLen := by
  constructor
  · intro h
    by_contra hlt
    rw [sendResp_overflows (by omega)] at h
    exact not_wellFormed_internalError h
  · intro h
    exact ⟨_, sendResp_fits hp h⟩

theorem wellFormed_statusResp (id : Int) (report : Report) :
    WellFormed (sendResp (statusResp id report)) ↔ replySize id report ≤ bufLen := by
  obtain ⟨es, hes⟩ : ∃ es, statusResp id report = .object es := ⟨_, rfl⟩
  have hplain := plain_statusResp id report
  rw [← jsonMeasure_statusResp, hes]
  rw [hes] at hplain
  exact wellFormed_sendResp hplain

theorem afterCall_command {r : Request} (hr : r.isCommand = true) (id : Int) (report : Report) :
    afterCall id r (some report) = .sent (sendResp (statusResp id report)) := by
  rw [afterCall, if_pos hr]
  rfl

theorem afterCall_null {r : Request} (hr : r.isCommand = true) (id : Int) :
    afterCall id r none = .crashed := by
  rw [afterCall, if_pos hr]
  rfl

theorem afterCall_signal {r : Request} (hr : r.isCommand = false) (id : Int)
    (report : Option Report) : afterCall id r report = .sent (sendResp (.object [])) := by
  rw [afterCall, if_neg (by simp [hr])]

theorem plain_errorResp (e : ApiErr) : ∃ es, errorResp e = .object es ∧ Plain (.object es) ∧
    jsonMeasure (.object es) ≤ bufLen := by
  have hplain : PlainEntries [(ascii "Error", .string (cstr (apiErrMsg e)))] :=
    ⟨⟨by decide, plain_string (zero_not_mem_cstr _)⟩, trivial⟩
  refine ⟨_, rfl, hplain, ?_⟩
  cases e <;> decide

namespace Handler

/-- The step sends the reply. -/
def Sends (cfg : Config) (t : Handler) (l : Label) (reply : Bytes) : Prop :=
  (∀ x, l ≠ .server x) ∧ ∃ t', t.step cfg l = some t' ∧ t'.pc = .sent reply

/-- What is sent at this step fits: the response could be allocated, and
the report of a command is not longer than the buffer. -/
def Fits (cfg : Config) (t : Handler) : Label → Prop
  | .recv _ m => m.resp = true
  | .reply => ∀ r report, t.pc = .calling r → r.isCommand = true →
      CallPc.result (t.clients.pcs cfg.client) = some (some report) →
      replySize cfg.id report ≤ bufLen
  | .server _ => True

/-- A command ends in a call or in one of two errors. -/
theorem runCommand_ne {m : Memory} {req : JsonValue} {cmd : Bytes} {d : Decision}
    (hcall : ∀ r, d ≠ .call r) (hblueprint : d ≠ .error .blueprint) (hcmd : d ≠ .error .cmd) :
    runCommand m req cmd ≠ d := by
  intro h
  unfold runCommand at h
  split at h
  · split at h
    · exact hblueprint h.symm
    · exact hcall _ h.symm
  · split at h
    · exact hcall _ h.symm
    · split at h
      · split at h
        · exact hblueprint h.symm
        · exact hcall _ h.symm
      · split_ifs at h
        · exact hcall _ h.symm
        · exact hcall _ h.symm
        · exact hcall _ h.symm
        · exact hcmd h.symm

theorem clientDecide_ne_noResponse {token : Option Bytes} {m : Memory} {text : Bytes}
    (hm : m.resp = true) : clientDecide token m text ≠ .noResponse := by
  intro h
  unfold clientDecide at h
  rw [if_neg (by simp [hm])] at h
  split at h
  · cases h
  · split at h
    · cases h
    · split at h
      · split at h
        · split at h
          · cases h
          · exact runCommand_ne (by simp) (by simp) (by simp) h
        · cases h
      · cases h
    · cases h

section Sends

variable {cfg : Config} {t : Handler} {reply : Bytes}

theorem sends_recv {text : Received} {m : Memory} (h : t.Sends cfg (.recv text m) reply) :
    (m.resp = false ∧ reply = internalErrorText) ∨
      (m.resp = true ∧ ∃ e, reply = sendResp (errorResp e)) := by
  obtain ⟨_, t', hs, hsent⟩ := h
  obtain ⟨_, hreq⟩ := step_recv hs
  cases hm : m.resp with
  | false =>
    simp only [request, clientDecide, hm, if_true, Option.some.injEq] at hreq
    subst hreq
    cases hsent
    exact Or.inl ⟨rfl, rfl⟩
  | true =>
    rcases request_cases hreq with ⟨hd, _⟩ | ⟨e, _, rfl⟩ | ⟨r, clients, _, rfl⟩
    · exact absurd hd (clientDecide_ne_noResponse hm)
    · cases hsent
      exact Or.inr ⟨rfl, e, rfl⟩
    · cases hsent

theorem sends_reply (h : t.Sends cfg .reply reply) :
    ∃ r, t.pc = .calling r ∧
      ((∃ report, r.isCommand = true ∧
          CallPc.result (t.clients.pcs cfg.client) = some (some report) ∧
          reply = sendResp (statusResp cfg.id report)) ∨
        (r.isCommand = false ∧ reply = sendResp (.object []))) := by
  obtain ⟨_, t', hs, hsent⟩ := h
  simp only [step] at hs
  split at hs
  · rename_i r hpc
    refine ⟨r, hpc, ?_⟩
    split at hs
    · rename_i report hres
      cases hs
      have hafter : afterCall cfg.id r report = .sent reply := hsent
      cases hr : r.isCommand with
      | false =>
        rw [afterCall_signal hr] at hafter
        cases hafter
        exact Or.inr ⟨rfl, rfl⟩
      | true =>
        cases report with
        | none =>
          rw [afterCall_null hr] at hafter
          cases hafter
        | some report =>
          rw [afterCall_command hr] at hafter
          cases hafter
          exact Or.inl ⟨report, rfl, hres, rfl⟩
    · cases hs
  · cases hs

/-- A reply is a JSON object exactly if it fits, whatever the request
and the state of the worker are. -/
theorem sends_wellFormed_iff {l : Label} (h : t.Sends cfg l reply) :
    WellFormed reply ↔ t.Fits cfg l := by
  cases l with
  | server l => exact absurd rfl (h.1 l)
  | recv text m =>
    rcases sends_recv h with ⟨hresp, rfl⟩ | ⟨hresp, e, rfl⟩
    · simp [Fits, hresp, not_wellFormed_internalError]
    · obtain ⟨es, hes, hplain, hfits⟩ := plain_errorResp e
      rw [hes, wellFormed_sendResp hplain]
      simp [Fits, hresp, hfits]
  | reply =>
    obtain ⟨r, hpc, ⟨report, hr, hres, rfl⟩ | ⟨hr, rfl⟩⟩ := sends_reply h
    · rw [wellFormed_statusResp]
      constructor
      · intro hsize r' report' _ _ hres'
        rw [hres] at hres'
        cases hres'
        exact hsize
      · intro hfits
        exact hfits r report hpc hr hres
    · have hempty : WellFormed (sendResp (.object [])) := ⟨[], rfl⟩
      refine iff_of_true hempty fun r' report hpc' hr' _ => ?_
      rw [hpc] at hpc'
      cases hpc'
      rw [hr] at hr'
      cases hr'

end Sends

/-- A list of `n + 1` tasks in a request. -/
def tasksText : Nat → Bytes
  | 0 => ascii "\x7b\"name\":\"a\"\x7d"
  | n + 1 => ascii "\x7b\"name\":\"a\"\x7d," ++ tasksText n

/-- A request to assign a job of one task. -/
def shortAssignText : Received :=
  ⟨ascii "\x7b\"command\":\"assign\",\"token\":\"t\",\"job\":\x7b\"id\":1,\"tasks\":["
    ++ tasksText 0 ++ ascii "]\x7d\x7d", by decide +kernel⟩

/-- The report that the handler has is not longer than the buffer. -/
def reportFits (cfg : Config) (t : Handler) : Bool :=
  match CallPc.result (t.clients.pcs cfg.client) with
  | some (some report) => replySize cfg.id report ≤ bufLen
  | _ => false

/-- The report on one task fits. -/
theorem sends_wellFormed_iff_oneTask :
    ∃ h t reply, Run (step someServer) always (create 1) h t ∧ t.Sends someServer .reply reply ∧
      WellFormed reply := by
  obtain ⟨h, t, hr, hc⟩ := Run.of_check (step someServer) always (create 1)
    ([.recv shortAssignText .enough] ++ moves 16)
    (fun t => (t.step someServer .reply).any hasSent && reportFits someServer t)
    (by decide +kernel)
  simp only [Bool.and_eq_true, Option.any_eq_true] at hc
  obtain ⟨⟨t', hs, hsent⟩, hfits⟩ := hc
  unfold hasSent at hsent
  split at hsent
  · rename_i reply hpc
    have hsends : t.Sends someServer .reply reply := ⟨by simp, t', hs, hpc⟩
    refine ⟨h, t, reply, hr, hsends, (sends_wellFormed_iff hsends).mpr ?_⟩
    intro r report _ _ hres
    simp only [reportFits, hres, decide_eq_true_eq] at hfits
    exact hfits
  · cases hsent

/-- A request to assign a job of 115 tasks. -/
def assignText : Received :=
  ⟨ascii "\x7b\"command\":\"assign\",\"token\":\"t\",\"job\":\x7b\"id\":1,\"tasks\":["
    ++ tasksText 114 ++ ascii "]\x7d\x7d", by decide +kernel⟩

/-- The text for the internal error has been sent. -/
def sentInternalError (s : Handler) : Bool :=
  match s.pc with
  | .sent reply => reply == internalErrorText
  | _ => false

theorem sentInternalError_iff {s : Handler} :
    sentInternalError s = true ↔ s.pc = .sent internalErrorText := by
  unfold sentInternalError
  split
  · rename_i reply hpc
    simp [hpc]
  · rename_i hpc
    simp only [Bool.false_eq_true, false_iff]
    exact hpc _

/-- The report on 115 tasks does not fit, and what is sent is not JSON. -/
theorem run_assignText_notWellFormed :
    ∃ h t reply, Run (step someServer) always (create 1) h t ∧ t.Sends someServer .reply reply ∧
      ¬ WellFormed reply := by
  obtain ⟨h, t, hr, hc⟩ := Run.of_check (step someServer) always (create 1)
    ([.recv assignText .enough] ++ moves 358)
    (fun t => (t.step someServer .reply).any sentInternalError) (by decide +kernel)
  simp only [Option.any_eq_true] at hc
  obtain ⟨t', hs, hsent⟩ := hc
  exact ⟨h, t, internalErrorText, hr, ⟨by simp, t', hs, sentInternalError_iff.mp hsent⟩,
    not_wellFormed_internalError⟩

end Handler

end Pyoneer.Api
