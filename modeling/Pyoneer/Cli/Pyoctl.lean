/-
Pyoneer.Cli.Pyoctl — the commands of `pyoctl worker`, from the command
line to the reply.

`newRunCmd`, `newAssignCmd` and `newSimpleCmd` make the payloads;
`clientDecide_pyoctl` says for each command line what the server does
with it. It comes to the call that the command names, unless the token
is another one, or the job is refused: the client leaves out an empty
list of tasks, and an id that is positive as an `int` of the client need
not be one of the server. `run_pyoctl_reply` goes on to the reply, through
any interleaving: the tasks that it lists are the names between the
commas, in order.

A request that is longer than the buffer of one `recv` is not considered
here. Arguments of a command line have no NUL.
-/
import Pyoneer.Api.Exchange
import Pyoneer.Cli.WorkerTheorems

namespace Pyoneer.Cli

open Pyoneer.Lib Pyoneer.Shared Pyoneer.Blueprint Pyoneer.Runtime Pyoneer.Api

/-! ## Commands -/

/-- `newAssignCmd`, up to `sendPayload`; `none` where the id is refused. -/
def newAssignCmd (flags : Flags) (jobID : GoInt) (tasksStr : GoString) : Option CommandPayload :=
  if jobID.1 ≤ 0 then none
  else some { newPayload flags "assign" with
    job := some { id := jobID, tasks := parseTasks tasksStr, parallel := false } }

/-- `newSimpleCmd`, up to `sendPayload`. -/
def newSimpleCmd (flags : Flags) (command : String) : CommandPayload := newPayload flags command

/-- The subcommands of `worker`, with the flags of their own. -/
inductive Subcommand where
  | run (jobID : GoInt) (tasksStr : GoString) (parallel : Bool)
  | assign (jobID : GoInt) (tasksStr : GoString)
  | start
  | stop
  | get

namespace Subcommand

/-- What is sent, or `none`. -/
def payload (flags : Flags) : Subcommand → Option CommandPayload
  | .run jobID tasksStr parallel => newRunCmd flags jobID tasksStr parallel
  | .assign jobID tasksStr => newAssignCmd flags jobID tasksStr
  | .start => some (newSimpleCmd flags "start")
  | .stop => some (newSimpleCmd flags "stop")
  | .get => some (newSimpleCmd flags "get_status")

/-- The job that is sent. -/
def job : Subcommand → Option Job
  | .run jobID tasksStr parallel => some ⟨jobID, parseTasks tasksStr, parallel⟩
  | .assign jobID tasksStr => some ⟨jobID, parseTasks tasksStr, false⟩
  | .start | .stop | .get => none

/-- The names have no NUL. -/
def NulFree (c : Subcommand) : Prop :=
  ∀ job, c.job = some job → ∀ name ∈ job.tasks, Char.ofNat 0 ∉ name

/-- The server takes no such job. -/
def Refused (c : Subcommand) : Prop :=
  ∃ job, c.job = some job ∧ (job.tasks = [] ∨ toCInt job.id.1 ≤ 0)

/-- The call is the one that the command names, with its job. -/
def Asks : Subcommand → Request → Prop
  | .run jobID tasksStr parallel, .run job =>
    job.1 = decodedJob ⟨jobID, parseTasks tasksStr, parallel⟩
  | .assign jobID tasksStr, .assign job => job.1 = decodedJob ⟨jobID, parseTasks tasksStr, false⟩
  | .start, .start | .stop, .stop | .get, .getStatus => True
  | _, _ => False

/-- What the server, with the token `T`, makes of the command. -/
def Leads (T : Bytes) (flags : Flags) (c : Subcommand) : Decision → Prop
  | .call r => cstr (utf8 flags.token) = cstr T ∧ ¬ c.Refused ∧ c.Asks r
  | .error .blueprint => cstr (utf8 flags.token) = cstr T ∧ c.Refused
  | .error .token => cstr (utf8 flags.token) ≠ cstr T
  | _ => False

end Subcommand

/-! ## What the server makes of a payload -/

theorem clientDecide_sendPayload {token : Option Bytes} {m : Memory} (hresp : m.resp = true)
    (hparse : m.parse = true) (payload : CommandPayload) :
    clientDecide token m (sendPayload payload)
      = if tokenRefused token (utf8 payload.token) then .error .token
        else runCommand m (payloadValue payload) (utf8 payload.command) := by
  have hcommand : jsonObjectGetValue (payloadValue payload) (ascii "command")
      = some (.string (utf8 payload.command)) := rfl
  have htoken : jsonObjectGetValue (payloadValue payload) (ascii "token")
      = some (.string (utf8 payload.token)) := rfl
  rw [clientDecide, if_neg (by simp [hresp]), if_neg (by simp [hparse]), jsonParse_sendPayload]
  rw [payloadValue] at hcommand htoken ⊢
  simp only [hcommand, htoken]

theorem jobDecode_jobValue_nil {job : Job} (htasks : job.tasks = []) :
    jobDecode (jobValue job) = none := by
  have hget : jsonObjectGetValue (jobValue job) (ascii "tasks") = none := by
    rw [jobValue, htasks, if_pos rfl]
    by_cases hid : job.id.1 = 0
    · rw [if_pos hid]
      cases job.parallel <;> rfl
    · rw [if_neg hid]
      cases job.parallel <;> rfl
  cases hdec : jobDecode (jobValue job) with
  | none => rfl
  | some decoded =>
    obtain ⟨_, _, _, _, htasks', _⟩ := jobDecode_eq_some.mp hdec
    rw [hget] at htasks'
    cases htasks'

theorem jobValue_of_payload {payload : CommandPayload} {job : Job}
    (hjob : payload.job = some job) :
    jsonObjectGetValue (payloadValue payload) (ascii "job") = some (jobValue job) := by
  rw [payloadValue, hjob]
  split <;> rfl

/-- The job of a payload is refused or decoded. -/
theorem blueprint_cases {payload : CommandPayload} {job : Job} (hjob : payload.job = some job)
    (hid : 0 < job.id.1) (hnames : ∀ name ∈ job.tasks, name ≠ [] ∧ Char.ofNat 0 ∉ name) :
    ((job.tasks = [] ∨ toCInt job.id.1 ≤ 0) ∧
        pyoneerBlueprintDecode .enough (payloadValue payload) = none) ∨
      (¬ (job.tasks = [] ∨ toCInt job.id.1 ≤ 0) ∧ ∃ decoded,
        pyoneerBlueprintDecode .enough (payloadValue payload) = some decoded ∧
          decoded.1 = decodedJob job) := by
  by_cases htasks : job.tasks = []
  · refine .inl ⟨.inl htasks, ?_⟩
    cases hdec : pyoneerBlueprintDecode .enough (payloadValue payload) with
    | none => rfl
    | some decoded =>
      have heq := pyoneerBlueprintDecode_eq hdec
      rw [jobValue_of_payload hjob, Option.bind_some, jobDecode_jobValue_nil htasks] at heq
      cases heq
  · rcases pyoneerBlueprintDecode_payload hjob hid htasks hnames with ⟨hle, hnone⟩ |
      ⟨hlt, hsome⟩
    · exact .inl ⟨.inr hle, hnone⟩
    · refine .inr ⟨fun h => ?_, hsome⟩
      rcases h with h | h
      · exact htasks h
      · omega

/-! ## Command lines -/

section Commands

variable {T : Bytes} {flags : Flags} {c : Subcommand} {payload : CommandPayload}

theorem newRunCmd_some {jobID : GoInt} {tasksStr : GoString} {parallel : Bool}
    (h : newRunCmd flags jobID tasksStr parallel = some payload) :
    0 < jobID.1 ∧ payload = { newPayload flags "run" with
      job := some ⟨jobID, parseTasks tasksStr, parallel⟩ } := by
  rw [newRunCmd] at h
  split at h
  · cases h
  · cases h
    exact ⟨by omega, rfl⟩

theorem newAssignCmd_some {jobID : GoInt} {tasksStr : GoString}
    (h : newAssignCmd flags jobID tasksStr = some payload) :
    0 < jobID.1 ∧ payload = { newPayload flags "assign" with
      job := some ⟨jobID, parseTasks tasksStr, false⟩ } := by
  rw [newAssignCmd] at h
  split at h
  · cases h
  · cases h
    exact ⟨by omega, rfl⟩

theorem parseTasks_names {tasksStr : GoString}
    (h : ∀ name ∈ parseTasks tasksStr, Char.ofNat 0 ∉ name) :
    ∀ name ∈ parseTasks tasksStr, name ≠ [] ∧ Char.ofNat 0 ∉ name := by
  intro name hname
  refine ⟨?_, h name hname⟩
  rw [parseTasks_eq_taskNames] at hname
  exact ne_nil_of_mem_taskNames hname

/-- A command with a job, past the token. -/
theorem leads_of_job {job : Job} {make : Decoded → Request} {d : Decision}
    (hpayload : payload.job = some job) (hc : c.job = some job) (hid : 0 < job.id.1)
    (hnames : ∀ name ∈ job.tasks, name ≠ [] ∧ Char.ofNat 0 ∉ name)
    (hnone : pyoneerBlueprintDecode .enough (payloadValue payload) = none → d = .error .blueprint)
    (hsome : ∀ x, pyoneerBlueprintDecode .enough (payloadValue payload) = some x →
      d = .call (make x))
    (hasks : ∀ x : Decoded, x.1 = decodedJob job → c.Asks (make x))
    (htoken : cstr (utf8 flags.token) = cstr T) : c.Leads T flags d := by
  rcases blueprint_cases hpayload hid hnames with ⟨hrefused, hdec⟩ | ⟨hnot, decoded, hdec, hval⟩
  · rw [hnone hdec]
    exact ⟨htoken, job, hc, hrefused⟩
  · rw [hsome decoded hdec]
    refine ⟨htoken, ?_, hasks decoded hval⟩
    rintro ⟨job', hjob', hrefused⟩
    obtain rfl : job = job' := Option.some.inj (hc.symm.trans hjob')
    exact hnot hrefused

theorem runCommand_run (m : Memory) (req : JsonValue) :
    (pyoneerBlueprintDecode m req = none →
      runCommand m req (utf8 "run".toList) = .error .blueprint) ∧
    ∀ x, pyoneerBlueprintDecode m req = some x →
      runCommand m req (utf8 "run".toList) = .call (.run x) := by
  have hrun : strcmpEq (utf8 "run".toList) (ascii "run") = true := rfl
  refine ⟨fun h => ?_, fun x h => ?_⟩ <;> rw [runCommand, if_pos hrun, h]

theorem runCommand_assign (m : Memory) (req : JsonValue) :
    (pyoneerBlueprintDecode m req = none →
      runCommand m req (utf8 "assign".toList) = .error .blueprint) ∧
    ∀ x, pyoneerBlueprintDecode m req = some x →
      runCommand m req (utf8 "assign".toList) = .call (.assign x) := by
  have hrun : ¬ strcmpEq (utf8 "assign".toList) (ascii "run") = true := by decide
  have hstatus : ¬ strcmpEq (utf8 "assign".toList) (ascii "get_status") = true := by decide
  have hassign : strcmpEq (utf8 "assign".toList) (ascii "assign") = true := rfl
  refine ⟨fun h => ?_, fun x h => ?_⟩ <;>
    rw [runCommand, if_neg hrun, if_neg hstatus, if_pos hassign, h]

/-- The request that a command comes to, past the token. -/
theorem runCommand_pyoctl (hpayload : c.payload flags = some payload) (hnul : c.NulFree)
    (htoken : cstr (utf8 flags.token) = cstr T) :
    c.Leads T flags (runCommand .enough (payloadValue payload) (utf8 payload.command)) := by
  cases c with
  | run jobID tasksStr parallel =>
    obtain ⟨hid, rfl⟩ := newRunCmd_some hpayload
    obtain ⟨hnone, hsome⟩ := runCommand_run .enough (payloadValue
      { newPayload flags "run" with job := some ⟨jobID, parseTasks tasksStr, parallel⟩ })
    exact leads_of_job rfl rfl hid (parseTasks_names (hnul _ rfl)) hnone hsome (fun _ h => h) htoken
  | assign jobID tasksStr =>
    obtain ⟨hid, rfl⟩ := newAssignCmd_some hpayload
    obtain ⟨hnone, hsome⟩ := runCommand_assign .enough (payloadValue
      { newPayload flags "assign" with job := some ⟨jobID, parseTasks tasksStr, false⟩ })
    exact leads_of_job rfl rfl hid (parseTasks_names (hnul _ rfl)) hnone hsome (fun _ h => h) htoken
  | start | stop | get =>
    cases hpayload
    refine ⟨htoken, ?_, trivial⟩
    rintro ⟨job, hjob, _⟩
    cases hjob

theorem token_of_payload (hpayload : c.payload flags = some payload) :
    payload.token = flags.token := by
  cases c with
  | run jobID tasksStr parallel =>
    obtain ⟨_, rfl⟩ := newRunCmd_some hpayload
    rfl
  | assign jobID tasksStr =>
    obtain ⟨_, rfl⟩ := newAssignCmd_some hpayload
    rfl
  | start | stop | get =>
    cases hpayload
    rfl

/-- For every command line: the call that the command names, or one of
two errors, each exactly where it is due. -/
theorem clientDecide_pyoctl (hpayload : c.payload flags = some payload) (hnul : c.NulFree) :
    c.Leads T flags (clientDecide (some T) .enough (sendPayload payload)) := by
  rw [clientDecide_sendPayload rfl rfl, token_of_payload hpayload]
  by_cases htoken : cstr (utf8 flags.token) = cstr T
  · have hgiven : ¬ tokenRefused (some T) (utf8 flags.token) = true := by
      simp [tokenRefused, strcmpEq_iff.mpr htoken]
    rw [if_neg hgiven]
    exact runCommand_pyoctl hpayload hnul htoken
  · have hrefused : tokenRefused (some T) (utf8 flags.token) = true := by
      simpa [tokenRefused, strcmpEq] using htoken
    rw [if_pos hrefused]
    exact htoken

/-- `assign`, under an id that is too large for the server. -/
def largeAssign : Subcommand := .assign ⟨2 ^ 31, by decide⟩ "a.py,b.py".toList

theorem clientDecide_pyoctl_large : ∃ payload, largeAssign.payload someFlags = some payload ∧
    largeAssign.Leads (ascii "t") someFlags
      (clientDecide (some (ascii "t")) .enough (sendPayload payload)) := by
  refine ⟨_, rfl, clientDecide_pyoctl rfl ?_⟩
  intro job hjob
  cases hjob
  decide

/-! ## Replies -/

theorem job_of_payload {job : Job} (hpayload : c.payload flags = some payload)
    (hjob : c.job = some job) : 0 < job.id.1 ∧ payload.job = some job ∧
      (payload.command = "run".toList ∨ payload.command = "assign".toList) ∧
      ∀ name ∈ job.tasks, name ≠ [] := by
  have hne : ∀ tasksStr, ∀ name ∈ parseTasks tasksStr, name ≠ [] := by
    intro tasksStr name hname
    rw [parseTasks_eq_taskNames] at hname
    exact ne_nil_of_mem_taskNames hname
  cases c with
  | run jobID tasksStr parallel =>
    cases hjob
    obtain ⟨hid, rfl⟩ := newRunCmd_some hpayload
    exact ⟨hid, rfl, .inl rfl, hne tasksStr⟩
  | assign jobID tasksStr =>
    cases hjob
    obtain ⟨hid, rfl⟩ := newAssignCmd_some hpayload
    exact ⟨hid, rfl, .inr rfl, hne tasksStr⟩
  | start | stop | get => cases hjob

theorem memory_of_call {token : Option Bytes} {m : Memory} {text : Bytes} {r : Request}
    (h : clientDecide token m text = .call r) : m.resp = true ∧ m.parse = true := by
  unfold clientDecide at h
  split at h
  · cases h
  · split at h
    · cases h
    · exact ⟨by simpa using ‹¬ m.resp = false›, by simpa using ‹¬ m.parse = false›⟩

/-- A call for a command with a job has it. -/
theorem decoded_of_command {m : Memory} {req : JsonValue} {command : GoString} {r : Request}
    (hcommand : command = "run".toList ∨ command = "assign".toList)
    (h : runCommand m req (utf8 command) = .call r) : ∃ decoded, r.decoded = some decoded := by
  rcases hcommand with rfl | rfl
  · obtain ⟨hnone, hsome⟩ := runCommand_run m req
    cases hdec : pyoneerBlueprintDecode m req with
    | none =>
      rw [hnone hdec] at h
      cases h
    | some x =>
      rw [hsome x hdec] at h
      cases h
      exact ⟨x, rfl⟩
  · obtain ⟨hnone, hsome⟩ := runCommand_assign m req
    cases hdec : pyoneerBlueprintDecode m req with
    | none =>
      rw [hnone hdec] at h
      cases h
    | some x =>
      rw [hsome x hdec] at h
      cases h
      exact ⟨x, rfl⟩

/-- The job of a call is the one of the command line. -/
theorem decoded_of_call {token : Option Bytes} {m : Memory} {r : Request} {job : Job}
    (hpayload : c.payload flags = some payload) (hnul : c.NulFree) (hjob : c.job = some job)
    (h : clientDecide token m (sendPayload payload) = .call r) :
    ∃ decoded, r.decoded = some decoded ∧ decoded.1 = decodedJob job := by
  obtain ⟨hid, hpjob, hcommand, hne⟩ := job_of_payload hpayload hjob
  obtain ⟨hresp, hparse⟩ := memory_of_call h
  have hrun := h
  rw [clientDecide_sendPayload hresp hparse] at hrun
  split at hrun
  · cases hrun
  · obtain ⟨decoded, hdec⟩ := decoded_of_command hcommand hrun
    have htext := textJob_of_call h hdec
    rw [textJob, jsonParse_sendPayload] at htext
    have hvalue : jobDecode (jobValue job) = some decoded.1 := by
      simpa only [jobValue_of_payload hpjob, Option.bind_some] using htext
    refine ⟨decoded, hdec, ?_⟩
    by_cases htasks : job.tasks = []
    · rw [jobDecode_jobValue_nil htasks] at hvalue
      cases hvalue
    · have hnames : ∀ name ∈ job.tasks, name ≠ [] ∧ Char.ofNat 0 ∉ name := fun name hname =>
        ⟨hne name hname, hnul job hjob name hname⟩
      rw [jobDecode_jobValue hid htasks hnames] at hvalue
      split at hvalue
      · cases hvalue
      · exact (Option.some.inj hvalue).symm

/-- From the command line to the reply: the job in a reply to `run` or
`assign` is the one of the command line. -/
theorem run_pyoctl_reply {cfg : Config} {n : Nat} {s : Handler}
    {ok : History Handler Handler.Label → Handler → Handler.Label → Prop}
    {h : History Handler Handler.Label} {reply : Bytes} {text : Received} {m : Memory} {job : Job}
    (hr : Run (Handler.step cfg) ok (Handler.create n) h s) (hsent : s.Sends cfg .reply reply)
    (hformed : WellFormed reply) (hlast : Handler.lastReceived h = some (text, m))
    (hpayload : c.payload flags = some payload) (htext : text.1 = sendPayload payload)
    (hnul : c.NulFree) (hjob : c.job = some job) :
    ∃ obj, replyJob reply = some obj ∧ jobDecode obj = some (decodedJob job) := by
  obtain ⟨text', m', r, hlast', hd, htold, _⟩ := Handler.run_told hr hsent hformed
  cases hlast.symm.trans hlast'
  rw [htext] at hd
  obtain ⟨decoded, hdec, hval⟩ := decoded_of_call hpayload hnul hjob hd
  obtain ⟨obj, hobj, hdecoded⟩ := htold decoded hdec
  refine ⟨obj, hobj, ?_⟩
  rw [hdecoded, hval]
  rfl

end Commands

/-- `assign --job 7 --tasks "a.py, b.py"`. -/
def assignTwo : Subcommand := .assign ⟨7, by decide⟩ "a.py, b.py".toList

def assignTwoPayload : CommandPayload :=
  { newPayload someFlags "assign" with
    job := some ⟨⟨7, by decide⟩, parseTasks "a.py, b.py".toList, false⟩ }

def assignTwoText : Received := ⟨sendPayload assignTwoPayload, by decide +kernel⟩

theorem run_pyoctl_reply_assignTwo : ∃ h s reply,
    Run (Handler.step Handler.someServer)
      (fun _ _ l => Handler.bringsOnly assignTwoText.1 l = true) (Handler.create 1) h s ∧
    s.Sends Handler.someServer .reply reply ∧
    ∃ obj, replyJob reply = some obj ∧ jobDecode obj
      = some (decodedJob ⟨⟨7, by decide⟩, parseTasks "a.py, b.py".toList, false⟩) := by
  obtain ⟨h, s, hr, hc⟩ := Run.of_check (Handler.step Handler.someServer)
    (fun _ _ l => Handler.bringsOnly assignTwoText.1 l = true) (Handler.create 1)
    ([.recv assignTwoText .enough] ++ Handler.moves 19)
    (fun s => (s.step Handler.someServer .reply).any Handler.sentObject) (by decide +kernel)
  obtain ⟨reply, hsent, hformed⟩ := Handler.sends_of_sentObject hc
  obtain ⟨text, m, r, hlast, _⟩ := Handler.run_told hr hsent hformed
  obtain ⟨t, hmem⟩ := Handler.mem_of_lastReceived hlast
  obtain ⟨_, _, _, honly, _⟩ := hr.mem hmem
  have htext : text.1 = sendPayload assignTwoPayload := eq_of_beq honly
  refine ⟨h, s, reply, hr, hsent, ?_⟩
  refine run_pyoctl_reply (c := assignTwo) hr hsent hformed hlast rfl htext ?_ rfl
  intro job hjob
  cases hjob
  decide

end Pyoneer.Cli
