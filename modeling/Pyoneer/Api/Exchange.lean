/-
Pyoneer.Api.Exchange — from the text of a request to the text of its
reply.

A run of the server around one handler is, for the clients of the
worker, a run of theirs (`run_clients`), so that what is known of their
reports holds of the replies. `run_reply_job` follows a job through all
the layers: it is read from the text of a request, decoded and given to
the worker; the call waits for the lock and for the engine, while other
clients, signals and threads go on; the report is encoded and written,
and the client reads it. What it reads is decoded by `job_decode` to the
job that it has sent, with the default modes, which a reply does not
name.
-/
import Pyoneer.Lib.Component
import Pyoneer.Blueprint.JobEncode
import Pyoneer.Runtime.Correspondence
import Pyoneer.Api.Effects

namespace Pyoneer.Shared

/-! ## Lookups in what was read again -/

theorem getEntry_rereadEntries (es : List (Bytes × JsonValue)) (name : Bytes) :
    getEntry (rereadEntries es) name = (getEntry es name).map rereadEntry := by
  induction es with
  | nil => rfl
  | cons e es ih =>
    obtain ⟨key, v⟩ := e
    rw [rereadEntries, rereadEntry, getEntry, getEntry, List.find?_cons, List.find?_cons]
    cases strcmpEq key name with
    | true => rfl
    | false => exact ih

theorem jsonObjectGetValue_reread (v : JsonValue) (name : Bytes) :
    jsonObjectGetValue (reread v) name = (jsonObjectGetValue v name).map reread := by
  cases v with
  | object es =>
    rw [reread, jsonObjectGetValue, jsonObjectGetValue, getEntry_rereadEntries]
    cases getEntry es name with
    | none => rfl
    | some e =>
      obtain ⟨key, v⟩ := e
      rfl
  | integer n =>
    rw [reread, rereadInteger]
    split <;> rfl
  | _ => rfl

end Pyoneer.Shared

namespace Pyoneer.Api

open Pyoneer.Lib Pyoneer.Shared Pyoneer.Blueprint Pyoneer.Runtime

/-! ## The job of a text -/

/-- The job that a request brings. -/
def textJob (text : Bytes) : Option Job :=
  match jsonParse text with
  | some req => (jsonObjectGetValue req (ascii "job")).bind jobDecode
  | none => none

/-- The value under `"job"` in a reply. -/
def replyJob (reply : Bytes) : Option JsonValue :=
  match jsonParse reply with
  | some resp =>
    (jsonObjectGetValue resp (ascii "pyoneer")).bind fun status =>
      jsonObjectGetValue status (ascii "job")
  | none => none

/-- The job that is decoded from a report on `job`. -/
def Job.reported (job : Job) : Job :=
  { id := job.id
    status := .ready
    opts := jobOptsDefault
    tasks := job.tasks.map fun task => { task with status := .ready } }

/-! ## Requests -/

theorem pyoneerBlueprintDecode_eq {m : Memory} {req : JsonValue} {job : Decoded}
    (h : pyoneerBlueprintDecode m req = some job) :
    (jsonObjectGetValue req (ascii "job")).bind jobDecode = some job.1 := by
  unfold pyoneerBlueprintDecode at h
  split at h
  · cases h
  · rename_i obj hobj
    rw [hobj]
    split at h
    · rename_i job' hjob
      split at h
      · cases h
        exact hjob
      · cases h
    · cases h

theorem decoded_of_runCommand {m : Memory} {req : JsonValue} {cmd : Bytes} {r : Request}
    {job : Decoded} (h : runCommand m req cmd = .call r) (hjob : r.decoded = some job) :
    pyoneerBlueprintDecode m req = some job := by
  unfold runCommand at h
  split at h
  · split at h
    · cases h
    · rename_i hdec
      cases h
      rw [hdec, ← hjob]
      rfl
  · split at h
    · cases h
      cases hjob
    · split at h
      · split at h
        · cases h
        · rename_i hdec
          cases h
          rw [hdec, ← hjob]
          rfl
      · split_ifs at h <;> cases h <;> cases hjob

/-- The job of a call is the one of the text. -/
theorem textJob_of_call {token : Option Bytes} {m : Memory} {text : Bytes} {r : Request}
    {job : Decoded} (h : clientDecide token m text = .call r) (hjob : r.decoded = some job) :
    textJob text = some job.1 := by
  unfold clientDecide at h
  unfold textJob
  split at h
  · cases h
  · split at h
    · cases h
    · split at h
      · cases h
      · rename_i entries hparse
        rw [hparse]
        split at h
        · split at h
          · split at h
            · cases h
            · exact pyoneerBlueprintDecode_eq (decoded_of_runCommand h hjob)
          · cases h
        · cases h
      · cases h

theorem isCommand_of_decoded {r : Request} {job : Decoded} (h : r.decoded = some job) :
    r.isCommand = true := by
  cases r <;> first | rfl | cases h

theorem encodable_of_textJob {text : Bytes} {job : Job} (h : textJob text = some job) :
    Encodable job ∧ Job.reported job = { job with opts := jobOptsDefault } := by
  unfold textJob at h
  split at h
  · obtain ⟨obj, _, hdec⟩ := Option.bind_eq_some_iff.mp h
    obtain ⟨hst, htasks⟩ := jobDecode_ready hdec
    have hsame : (job.tasks.map fun task => { task with status := .ready }) = job.tasks := by
      refine (List.map_congr_left ?_).trans (List.map_id job.tasks)
      intro task htask
      rw [← htasks task htask]
      rfl
    exact ⟨encodable_of_jobDecode hdec, by rw [Job.reported, hsame, ← hst]⟩
  · cases h

/-! ## Reports -/

/-- The value under `"job"` of a report. -/
def reportJob : Option JobReport → JsonValue
  | none => .null
  | some x => jsonObjectPush (encodeJobStatus x.status x.tasks) (ascii "id") (.integer x.id)

theorem jsonObjectGetValue_encodeReport (id : Int) (report : Report) :
    (jsonObjectGetValue (statusResp id report) (ascii "pyoneer")).bind
      (fun status => jsonObjectGetValue status (ascii "job")) = some (reportJob report.job) := by
  obtain ⟨st, job⟩ := report
  cases job with
  | none => rfl
  | some x => rfl

/-- A reply that is a JSON object tells the job of the report. -/
theorem replyJob_sendResp {id : Int} {report : Report}
    (h : WellFormed (sendResp (statusResp id report))) :
    replyJob (sendResp (statusResp id report)) = some (reread (reportJob report.job)) := by
  obtain ⟨es, hes⟩ : ∃ es, statusResp id report = .object es := ⟨_, rfl⟩
  have hplain := plain_statusResp id report
  have hfits := (wellFormed_statusResp id report).mp h
  rw [← jsonMeasure_statusResp, hes] at hfits
  rw [hes] at hplain
  have hparse : jsonParse (sendResp (statusResp id report))
      = some (reread (statusResp id report)) := by
    rw [hes, reread]
    exact sendResp_fits hplain hfits
  rw [replyJob, hparse]
  have hfound := jsonObjectGetValue_encodeReport id report
  obtain ⟨status, hstatus, hjob⟩ := Option.bind_eq_some_iff.mp hfound
  show (jsonObjectGetValue (reread (statusResp id report)) (ascii "pyoneer")).bind _ = _
  rw [jsonObjectGetValue_reread, hstatus]
  show jsonObjectGetValue (reread status) (ascii "job") = _
  rw [jsonObjectGetValue_reread, hjob]
  rfl

/-- A task in a report decodes to its name. -/
theorem taskDecode_report (st : TaskStatus) {name : Bytes} (hne : name ≠ [])
    (hname : cstr name = name) :
    taskDecode (reread (jsonObjectPush (taskEncodeStatus st) (ascii "name")
      (.string (cstr name)))) = some { status := .ready, name := name } := by
  show taskCreate (cstr name) = _
  rw [hname, taskCreate_eq_some, hname]
  exact ⟨hne, rfl⟩

theorem mapM_report {seen : List (TaskStatus × Bytes)} {tasks : List Task}
    (hseen : seen.map Prod.snd = tasks.map Task.name)
    (h : ∀ task ∈ tasks, task.name ≠ [] ∧ cstr task.name = task.name) :
    (rereadValues (seen.map fun t => jsonObjectPush (taskEncodeStatus t.1) (ascii "name")
      (.string (cstr t.2)))).mapM taskDecode
        = some (tasks.map fun task => { task with status := .ready }) := by
  induction tasks generalizing seen with
  | nil =>
    rw [List.map_nil, List.map_eq_nil_iff] at hseen
    subst hseen
    rfl
  | cons task tasks ih =>
    obtain ⟨hne, hname⟩ := h task List.mem_cons_self
    cases seen with
    | nil => cases hseen
    | cons t seen =>
      rw [List.map_cons, List.map_cons] at hseen
      obtain ⟨hfirst, hrest⟩ := List.cons.inj hseen
      rw [List.map_cons, rereadValues, List.mapM_cons, hfirst, taskDecode_report t.1 hne hname,
        ih hrest fun t ht => h t (List.mem_cons_of_mem task ht)]
      rfl

/-- What a report says of a job decodes to the job. -/
theorem jobDecode_report {x : JobReport} {job : Decoded} (hx : x.Of job)
    (hjob : Encodable job.1) :
    jobDecode (reread (reportJob (some x))) = some (Job.reported job.1) := by
  obtain ⟨hid, hnames⟩ := hx
  have hpos := hjob.pos
  have hle := hjob.le
  have hint : toCInt x.id = x.id := (toCInt_eq_self (by omega)).mpr (by omega)
  have hreread : reread (.integer x.id) = .integer x.id := by
    rw [reread, rereadInteger, if_pos]
    unfold intMax at hle
    unfold jsonIntMax
    omega
  have hlookup : ∀ key v, jsonObjectGetValue (reportJob (some x)) key = v →
      jsonObjectGetValue (reread (reportJob (some x))) key = v.map reread := by
    intro key v hv
    rw [jsonObjectGetValue_reread, hv]
  have hidValue := hlookup (ascii "id") (some (.integer x.id)) rfl
  rw [Option.map_some, hreread] at hidValue
  have htasks := hlookup (ascii "tasks") (some (.array _)) rfl
  rw [Option.map_some, reread] at htasks
  rw [jobDecode_eq_some]
  refine ⟨x.id, _, _, hidValue, htasks, by omega, mapM_report hnames hjob.names, ?_⟩
  have hexec : decodeExecMode (reread (reportJob (some x))) jobOptsDefault.execMode
      = jobOptsDefault.execMode := by
    rw [decodeExecMode, hlookup (ascii "execMode") none rfl]
    rfl
  have hrun : decodeRunMode (reread (reportJob (some x))) jobOptsDefault.runMode
      = jobOptsDefault.runMode := by
    rw [decodeRunMode, hlookup (ascii "runMode") none rfl]
    rfl
  rw [hexec, hrun, hint, hid]
  rfl

/-! ## Runs -/

namespace Handler

/-- The step that the clients of the worker take. -/
def clientsLabel (cfg : Config) (_ : Handler) : Label → Option Clients.Label
  | .recv text m =>
    match clientDecide cfg.token m text.1 with
    | .call r => some (.call cfg.client r)
    | .noResponse | .error _ => none
  | .server l => some l
  | .reply => none

/-- The history of the clients. -/
def clientsHistory (cfg : Config) (h : History Handler Label) : History Clients Clients.Label :=
  History.project Handler.clients (clientsLabel cfg) h

/-- The last request, with the memory for it. -/
def lastReceived : History Handler Label → Option (Received × Memory)
  | [] => none
  | (_, .recv text m) :: _ => some (text, m)
  | (_, .server _) :: h | (_, .reply) :: h => lastReceived h

theorem mem_of_lastReceived {h : History Handler Label} {text : Received} {m : Memory}
    (hlast : lastReceived h = some (text, m)) : ∃ t, (t, .recv text m) ∈ h := by
  induction h with
  | nil => cases hlast
  | cons x h ih =>
    obtain ⟨t, l⟩ := x
    cases l with
    | recv text' m' =>
      cases hlast
      exact ⟨t, List.mem_cons_self ..⟩
    | server l =>
      obtain ⟨t', hmem⟩ := ih hlast
      exact ⟨t', List.mem_cons_of_mem _ hmem⟩
    | reply =>
      obtain ⟨t', hmem⟩ := ih hlast
      exact ⟨t', List.mem_cons_of_mem _ hmem⟩

section Steps

variable {cfg : Config} {s s' : Handler} {l : Label} {h : History Handler Label}

/-- A request that is received: it is answered at once, or becomes a
call. -/
theorem recv_call {text : Received} {m : Memory} (hs : s.step cfg (.recv text m) = some s') :
    (clientsLabel cfg s (.recv text m) = none ∧ s'.clients = s.clients ∧
        ∀ r, s'.pc ≠ .calling r) ∨
      ∃ r, clientDecide cfg.token m text.1 = .call r ∧ s'.pc = .calling r ∧
        clientsLabel cfg s (.recv text m) = some (.call cfg.client r) ∧
        s.clients.step (.call cfg.client r) = some s'.clients := by
  obtain ⟨_, hreq⟩ := step_recv hs
  unfold request at hreq
  split at hreq
  · rename_i hd
    cases hreq
    exact .inl ⟨by rw [clientsLabel, hd], rfl, fun r hr => by cases hr⟩
  · rename_i e hd
    cases hreq
    exact .inl ⟨by rw [clientsLabel, hd], rfl, fun r hr => by cases hr⟩
  · rename_i r hd
    split at hreq
    · rename_i clients hc
      cases hreq
      exact .inr ⟨r, hd, rfl, by rw [clientsLabel, hd], hc⟩
    · cases hreq

/-- The handler goes on after its call, with no step of the clients. -/
theorem reply_clients (hs : s.step cfg .reply = some s') :
    s'.clients = s.clients ∧ ∀ r, s'.pc ≠ .calling r := by
  simp only [step] at hs
  split at hs
  · rename_i r _
    split at hs
    · rename_i report _
      cases hs
      refine ⟨rfl, fun r' hr' => ?_⟩
      rcases afterCall_cases cfg.id r report with ⟨_, _, heq⟩ | ⟨_, reply, heq⟩
      · rw [heq] at hr'
        cases hr'
      · rw [heq] at hr'
        cases hr'
    · cases hs
  · cases hs

theorem step_clients (hs : s.step cfg l = some s') :
    (∃ l', clientsLabel cfg s l = some l' ∧ s.clients.step l' = some s'.clients) ∨
      (clientsLabel cfg s l = none ∧ s'.clients = s.clients) := by
  cases l with
  | recv text m =>
    rcases recv_call hs with ⟨hl, hc, _⟩ | ⟨r, _, _, hl, hc⟩
    · exact .inr ⟨hl, hc⟩
    · exact .inl ⟨_, hl, hc⟩
  | server l => exact .inl ⟨l, rfl, (server_cases hs).2.2.1⟩
  | reply => exact .inr ⟨rfl, (reply_clients hs).1⟩

/-- The call of the handler is the one that the last request came to. -/
def Asked (cfg : Config) (h : History Handler Label) (s : Handler) : Prop :=
  ∀ r, s.pc = .calling r → ∃ text m, lastReceived h = some (text, m) ∧
    clientDecide cfg.token m text.1 = .call r ∧
    Clients.lastRequest (clientsHistory cfg h) cfg.client = some r

/-- Only the requests of the handler are calls of its client. -/
theorem lastRequest_server {l : Clients.Label} (hs : s.step cfg (.server l) = some s') :
    Clients.lastRequest (clientsHistory cfg ((s, .server l) :: h)) cfg.client
      = Clients.lastRequest (clientsHistory cfg h) cfg.client := by
  show Clients.lastRequest ((s.clients, l) :: clientsHistory cfg h) cfg.client = _
  cases l with
  | call k r =>
    have hk : k ≠ cfg.client := by
      intro heq
      simp only [step] at hs
      split at hs
      · cases hs
      · rw [if_pos (by simp [isCallOf, heq])] at hs
        cases hs
    rw [Clients.lastRequest, if_neg hk]
  | move k ok => rfl
  | thread t l => rfl

theorem Asked.step (hi : Asked cfg h s) (hs : s.step cfg l = some s') :
    Asked cfg ((s, l) :: h) s' := by
  intro r hr
  cases l with
  | recv text m =>
    rcases recv_call hs with ⟨_, _, hnot⟩ | ⟨r', hd, hpc, hl, _⟩
    · exact absurd hr (hnot r)
    · obtain rfl : r' = r := by
        rw [hpc] at hr
        exact HandlerPc.calling.inj hr
      refine ⟨text, m, rfl, hd, ?_⟩
      rw [clientsHistory, History.project_cons_some hl, Clients.lastRequest, if_pos rfl]
  | server l =>
    obtain ⟨hpc, _⟩ := server_cases hs
    obtain ⟨text, m, hlast, hd, hreq⟩ := hi r (hpc ▸ hr)
    exact ⟨text, m, hlast, hd, (lastRequest_server hs).trans hreq⟩
  | reply => exact absurd hr ((reply_clients hs).2 r)

end Steps

section Runs

variable {cfg : Config} {n : Nat} {ok : History Handler Label → Handler → Label → Prop}
  {h : History Handler Label} {s : Handler}

/-- A run around the handler is one of the clients. -/
theorem run_clients (hr : Run (step cfg) ok (create n) h s) :
    Run Clients.step always (Clients.create n) (clientsHistory cfg h) s.clients :=
  hr.project fun _ _ _ => step_clients

theorem run_asked (hr : Run (step cfg) ok (create n) h s) : Asked cfg h s :=
  Run.invariant (I := Asked cfg) (fun _ hr => by cases hr) (fun _ _ _ _ hi _ => hi.step) hr

/-- A call that has returned a report. -/
theorem returned_of_result {pc : CallPc} {report : Report}
    (h : CallPc.result pc = some (some report)) : ∃ c, pc = .returned c (some report) := by
  cases pc with
  | returned c x =>
    cases h
    exact ⟨c, rfl⟩
  | idle => cases h
  | _ => cases h

/-- What a client reads in a reply: its own job, if it has sent one, and
else one that somebody has sent. -/
theorem run_told {reply : Bytes} (hr : Run (step cfg) ok (create n) h s)
    (hsent : s.Sends cfg .reply reply) (hformed : WellFormed reply) :
    ∃ text m r, lastReceived h = some (text, m) ∧ clientDecide cfg.token m text.1 = .call r ∧
      (∀ job, r.decoded = some job → ∃ obj, replyJob reply = some obj ∧
        jobDecode obj = some { job.1 with opts := jobOptsDefault }) ∧
      ∀ obj, replyJob reply = some obj → obj = .null ∨
        ∃ job, Clients.Sent (clientsHistory cfg h) job ∧
          (Encodable job.1 → jobDecode obj = some (Job.reported job.1)) := by
  obtain ⟨r, hpc, hcase⟩ := sends_reply hsent
  obtain ⟨text, m, hlast, hd, hreq⟩ := run_asked hr r hpc
  refine ⟨text, m, r, hlast, hd, ?_⟩
  rcases hcase with ⟨report, _, hres, rfl⟩ | ⟨hsignal, rfl⟩
  · obtain ⟨c, hret⟩ := returned_of_result hres
    obtain ⟨r', hr', hown, hothers⟩ := (Clients.run_corresponds (run_clients hr)).reports hret
    obtain rfl : r = r' := Option.some.inj (hreq.symm.trans hr')
    have htold := replyJob_sendResp hformed
    constructor
    · intro job hdec
      obtain ⟨x, hx, hof⟩ := hown job hdec
      obtain ⟨hencodable, hreported⟩ := encodable_of_textJob (textJob_of_call hd hdec)
      refine ⟨_, htold, ?_⟩
      rw [hx, jobDecode_report hof hencodable, hreported]
    · intro obj hobj
      obtain rfl := Option.some.inj (htold.symm.trans hobj)
      cases hx : report.job with
      | none => exact .inl rfl
      | some x =>
        obtain ⟨job, hsentJob, hof⟩ := hothers x hx
        exact .inr ⟨job, hsentJob, jobDecode_report hof⟩
  · have hnone : replyJob (sendResp (.object [])) = none := rfl
    constructor
    · intro job hdec
      rw [isCommand_of_decoded hdec] at hsignal
      cases hsignal
    · intro obj hobj
      rw [hnone] at hobj
      cases hobj

/-- A reply to a request with a job, read by the client, is about that
job; and no reply is about a job that nobody has sent. -/
theorem run_reply_job {reply : Bytes} (hr : Run (step cfg) ok (create n) h s)
    (hsent : s.Sends cfg .reply reply) (hformed : WellFormed reply) :
    ∃ text m r, lastReceived h = some (text, m) ∧ clientDecide cfg.token m text.1 = .call r ∧
      (bringsJob r = true → ∃ job obj, textJob text.1 = some job ∧ replyJob reply = some obj ∧
        jobDecode obj = some { job with opts := jobOptsDefault }) ∧
      ∀ obj, replyJob reply = some obj → obj = .null ∨
        ∃ job, Clients.Sent (clientsHistory cfg h) job ∧
          (Encodable job.1 → jobDecode obj = some (Job.reported job.1)) := by
  obtain ⟨text, m, r, hlast, hd, htold, hothers⟩ := run_told hr hsent hformed
  refine ⟨text, m, r, hlast, hd, fun hjob => ?_, hothers⟩
  obtain ⟨job, hdec⟩ : ∃ job, r.decoded = some job := by
    cases r <;> first | exact ⟨_, rfl⟩ | cases hjob
  obtain ⟨obj, hobj, hdecoded⟩ := htold job hdec
  exact ⟨job.1, obj, textJob_of_call hd hdec, hobj, hdecoded⟩

end Runs

/-- A request to assign a job that is to be repeated. -/
def repeatText : Received :=
  ⟨ascii "\x7b\"command\":\"assign\",\"token\":\"t\",\"job\":\x7b\"id\":1,"
    ++ ascii "\"runMode\":\"repeat\",\"tasks\":[\x7b\"name\":\"a.py\"\x7d]\x7d\x7d",
    by decide +kernel⟩

/-- What has been sent is a JSON object. -/
def sentObject (s : Handler) : Bool :=
  match s.pc with
  | .sent reply =>
    match jsonParse reply with
    | some (.object _) => true
    | _ => false
  | _ => false

theorem sends_of_sentObject {cfg : Config} {s : Handler}
    (h : (s.step cfg .reply).any sentObject = true) :
    ∃ reply, s.Sends cfg .reply reply ∧ WellFormed reply := by
  simp only [Option.any_eq_true] at h
  obtain ⟨s', hs, hsent⟩ := h
  unfold sentObject at hsent
  split at hsent
  · rename_i reply hpc
    split at hsent
    · rename_i es hparse
      exact ⟨reply, ⟨by simp, s', hs, hpc⟩, es, hparse⟩
    · cases hsent
  · cases hsent

/-- The step brings no text but that one, and no other client calls. -/
def bringsOnly (bytes : Bytes) : Label → Bool
  | .recv text _ => text.1 == bytes
  | .server (.call _ _) => false
  | .server (.move _ _) | .server (.thread _ _) | .reply => true

/-- The mode is not in the reply. -/
theorem run_reply_job_repeat : ∃ h s reply, Run (step someServer) always (create 1) h s ∧
    s.Sends someServer .reply reply ∧
    ∃ text m r, lastReceived h = some (text, m) ∧
      clientDecide someServer.token m text.1 = .call r ∧
      (bringsJob r = true → ∃ job obj, textJob text.1 = some job ∧ replyJob reply = some obj ∧
        jobDecode obj = some { job with opts := jobOptsDefault }) ∧
      ∀ obj, replyJob reply = some obj → obj = .null ∨
        ∃ job, Clients.Sent (clientsHistory someServer h) job ∧
          (Encodable job.1 → jobDecode obj = some (Job.reported job.1)) := by
  obtain ⟨h, s, hr, hc⟩ := Run.of_check (step someServer) always (create 1)
    ([.recv repeatText .enough] ++ moves 16)
    (fun s => (s.step someServer .reply).any sentObject) (by decide +kernel)
  obtain ⟨reply, hsent, hformed⟩ := sends_of_sentObject hc
  exact ⟨h, s, reply, hr, hsent, run_reply_job hr hsent hformed⟩

end Handler

end Pyoneer.Api
