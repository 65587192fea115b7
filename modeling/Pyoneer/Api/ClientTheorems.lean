/-
Pyoneer.Api.ClientTheorems — what a client of the API can cause.

The first part is about the NULL that a command may return. The handler
pushes it, and crashes, exactly when one of the steps of its call was a
refusal (`run_crashed_iff`). There is no path from a refusal to a reply.

The second part is about requests that do not carry the token. The names
and the token are compared as C strings, so a request gets through to
the worker when its strings agree with the expected ones up to a NUL
(`LetThrough`). All other requests are answered without the worker.
-/
import Pyoneer.Api.Client
import Pyoneer.Runtime.Refusal

namespace Pyoneer.Api.Handler

open Pyoneer.Lib Pyoneer.Shared Pyoneer.Blueprint Pyoneer.Runtime

/-- The step is the handler's own, or one of its call. -/
def isOwn (cfg : Config) : Label → Bool
  | .recv _ _ | .reply => true
  | .server (.move i _) => i == cfg.client
  | .server _ => false

/-! ## Refusals -/

/-- The step makes the command of the followed client return NULL: the
lock fails, `worker_run` or `worker_assign` finds the worker WORKING,
`job_run` fails, or the report cannot be allocated. -/
def refuses (cfg : Config) (s : Handler) : Label → Bool
  | .server (.move i ok) => i == cfg.client && s.clients.worker.refuses (s.clients.pcs i) ok
  | _ => false

/-- A step of the history was a refusal. -/
def Refused (cfg : Config) (h : History Handler Label) : Prop :=
  ∃ x ∈ h, refuses cfg x.1 x.2 = true

/-- The handler is not in a call of the worker. -/
def Finished (s : Handler) : Prop := ∀ r, s.pc ≠ .calling r

/-- The client has no call in progress. -/
def Resting (pc : CallPc) : Prop := (CallPc.result pc).isSome = true

/-- Where the handler is, with what its call is about to return. -/
def HandlerPlace (cfg : Config) (h : History Handler Label) (s : Handler) : HandlerPc → Prop
  | .closed | .sent _ => Resting (s.clients.pcs cfg.client) ∧ ¬ Refused cfg h
  | .calling r =>
    (s.clients.pcs cfg.client).Shape ∧ (s.clients.pcs cfg.client).forCommand = r.isCommand ∧
      (r.isCommand = true ∧ (s.clients.pcs cfg.client).null = true ↔ Refused cfg h)
  | .crashed => Refused cfg h

section Steps

variable {cfg : Config} {h : History Handler Label} {s s' : Handler} {l : Label}

theorem refused_cons : Refused cfg ((s, l) :: h) ↔ refuses cfg s l = true ∨ Refused cfg h := by
  simp [Refused]

theorem refused_cons_of_not (hl : refuses cfg s l = false) :
    Refused cfg ((s, l) :: h) ↔ Refused cfg h := by
  rw [refused_cons, hl]
  simp

theorem refuses_of_not_own (hl : isOwn cfg l = false) : refuses cfg s l = false := by
  cases l with
  | server l => cases l <;> simp_all [isOwn, refuses]
  | _ => rfl

/-- A call that rests takes no step. -/
theorem Resting.callStep {w : Worker} {pc : CallPc} (hp : Resting pc) (ok : Bool) :
    w.callStep pc ok = none := by
  cases pc with
  | idle | returned c report => rfl
  | _ => simp [Resting, CallPc.result] at hp

/-- What a step of the server does to the followed client: nothing,
unless it is a step of its call. -/
theorem server_cases {l : Clients.Label} (hs : s.step cfg (.server l) = some s') :
    s'.pc = s.pc ∧ s.pc ≠ .crashed ∧ s.clients.step l = some s'.clients ∧
      ((∃ ok, l = .move cfg.client ok ∧ ∃ w, s.clients.worker.callStep
          (s.clients.pcs cfg.client) ok = some (w, s'.clients.pcs cfg.client)) ∨
        (s'.clients.pcs cfg.client = s.clients.pcs cfg.client ∧
          isOwn cfg (.server l) = false)) := by
  simp only [step] at hs
  split at hs
  · cases hs
  · rename_i hpc
    split at hs
    · cases hs
    · rename_i hown
      split at hs
      · rename_i clients hc
        cases hs
        refine ⟨rfl, hpc, hc, ?_⟩
        cases l with
        | call k r =>
          have hk : cfg.client ≠ k := fun heq => hown (by simp [isCallOf, heq])
          simp only [Clients.step] at hc
          split at hc
          · split at hc <;> cases hc
            exact Or.inr ⟨Function.update_of_ne hk _ _, rfl⟩
          · split at hc <;> cases hc
            exact Or.inr ⟨Function.update_of_ne hk _ _, rfl⟩
          · cases hc
        | move k ok =>
          simp only [Clients.step] at hc
          split at hc
          · rename_i w pc' hcall
            cases hc
            by_cases hk : cfg.client = k
            · subst hk
              exact Or.inl ⟨ok, rfl, w, by simp [hcall]⟩
            · refine Or.inr ⟨Function.update_of_ne hk _ _, ?_⟩
              simp [isOwn, Ne.symm hk]
          · cases hc
        | thread t l =>
          simp only [Clients.step] at hc
          split at hc <;> cases hc
          exact Or.inr ⟨rfl, rfl⟩
      · cases hs

/-- A request comes between two connections. -/
theorem step_recv {text : Received} {m : Memory} (hs : s.step cfg (.recv text m) = some s') :
    (s.pc = .closed ∨ ∃ reply, s.pc = .sent reply) ∧ s.request cfg text m = some s' := by
  simp only [step] at hs
  split at hs
  · rename_i hpc
    exact ⟨Or.inl hpc, hs⟩
  · rename_i reply hpc
    exact ⟨Or.inr ⟨reply, hpc⟩, hs⟩
  · cases hs

/-- What follows a request: a reply at once, or a call. -/
theorem request_cases {text : Received} {m : Memory} (hs : s.request cfg text m = some s') :
    (clientDecide cfg.token m text.1 = .noResponse ∧
        s' = { s with pc := .sent internalErrorText }) ∨
      (∃ e, clientDecide cfg.token m text.1 = .error e ∧
        s' = { s with pc := .sent (sendResp (errorResp e)) }) ∨
      ∃ r clients, s.clients.step (.call cfg.client r) = some clients ∧
        s' = { clients := clients, pc := .calling r } := by
  simp only [request] at hs
  split at hs
  · rename_i hd
    exact Or.inl ⟨hd, (Option.some.inj hs).symm⟩
  · rename_i e hd
    exact Or.inr (Or.inl ⟨e, hd, (Option.some.inj hs).symm⟩)
  · rename_i r _
    split at hs
    · rename_i clients hc
      exact Or.inr (Or.inr ⟨r, clients, hc, (Option.some.inj hs).symm⟩)
    · cases hs

/-- A call begins at its entry, and the worker is what it was. -/
theorem step_call {clients clients' : Clients} {i : Nat} {r : Request}
    (hs : clients.step (.call i r) = some clients') :
    clients'.worker = clients.worker ∧ clients'.pcs i = .enter r := by
  simp only [Clients.step] at hs
  split at hs
  · split at hs <;> cases hs
    simp
  · split at hs <;> cases hs
    simp
  · cases hs

/-- A request that is received. -/
theorem HandlerPlace.recv {text : Received} {m : Memory}
    (hrest : Resting (s.clients.pcs cfg.client) ∧ ¬ Refused cfg h)
    (hs : s.request cfg text m = some s') :
    HandlerPlace cfg ((s, .recv text m) :: h) s' s'.pc := by
  have hkeep : ¬ Refused cfg ((s, .recv text m) :: h) := by
    rw [refused_cons_of_not rfl]
    exact hrest.2
  rcases request_cases hs with ⟨_, rfl⟩ | ⟨e, _, rfl⟩ | ⟨r, clients, hc, rfl⟩
  · exact ⟨hrest.1, hkeep⟩
  · exact ⟨hrest.1, hkeep⟩
  · simp only [HandlerPlace, (step_call hc).2]
    exact ⟨trivial, rfl, by simp [CallPc.null, hkeep]⟩

/-- The handler crashes on a NULL from a command, and replies otherwise. -/
theorem afterCall_cases (id : Int) (r : Request) (report : Option Report) :
    (r.isCommand = true ∧ report = none ∧ afterCall id r report = .crashed) ∨
      (¬ (r.isCommand = true ∧ report = none) ∧ ∃ reply, afterCall id r report = .sent reply) := by
  unfold afterCall
  split
  · rename_i hr
    cases report with
    | none => exact Or.inl ⟨hr, rfl, rfl⟩
    | some report => exact Or.inr ⟨by simp, _, rfl⟩
  · rename_i hr
    exact Or.inr ⟨fun hx => hr hx.1, _, rfl⟩

/-- The handler goes on after its call. -/
theorem HandlerPlace.reply {r : Request} {report : Option Report}
    (hi : HandlerPlace cfg h s (.calling r))
    (hres : CallPc.result (s.clients.pcs cfg.client) = some report) :
    HandlerPlace cfg ((s, .reply) :: h) { s with pc := afterCall cfg.id r report }
      (afterCall cfg.id r report) := by
  obtain ⟨_, _, hnull⟩ := hi
  have hkeep : Refused cfg ((s, .reply) :: h) ↔ Refused cfg h := refused_cons_of_not rfl
  have hrest : Resting (s.clients.pcs cfg.client) := by
    rw [Resting, hres]
    rfl
  have hreport : (s.clients.pcs cfg.client).null = true ↔ report = none := by
    cases hpc : s.clients.pcs cfg.client with
    | idle =>
      rw [hpc] at hres
      cases hres
      simp [CallPc.null]
    | returned c rep =>
      rw [hpc] at hres
      cases hres
      cases report <;> simp [CallPc.null]
    | _ => simp [hpc, CallPc.result] at hres
  rw [hreport] at hnull
  rcases afterCall_cases cfg.id r report with ⟨hr, hrep, heq⟩ | ⟨hnot, reply, heq⟩
  · rw [heq, HandlerPlace, hkeep, ← hnull]
    exact ⟨hr, hrep⟩
  · rw [heq, HandlerPlace, hkeep, ← hnull]
    exact ⟨hrest, hnot⟩

/-- A step of the server. -/
theorem HandlerPlace.server {l : Clients.Label} (hi : HandlerPlace cfg h s s.pc)
    (hs : s.step cfg (.server l) = some s') :
    HandlerPlace cfg ((s, .server l) :: h) s' s'.pc := by
  obtain ⟨hpc, hcrash, _, hcase⟩ := server_cases hs
  rw [hpc]
  rcases hcase with ⟨ok, rfl, w, hcall⟩ | ⟨hsame, hnot⟩
  · cases hs : s.pc with
    | closed | sent reply =>
      rw [hs] at hi
      rw [hi.1.callStep ok] at hcall
      cases hcall
    | calling r =>
      rw [hs] at hi
      obtain ⟨hshape, hcmd, hnull⟩ := hi
      have hrefuses : refuses cfg s (.server (.move cfg.client ok)) = true ↔
          s.clients.worker.refuses (s.clients.pcs cfg.client) ok = true := by simp [refuses]
      refine ⟨hshape.callStep hcall, (Worker.callStep_forCommand hshape hcall).trans hcmd, ?_⟩
      rw [refused_cons, ← hnull, hrefuses]
      constructor
      · rintro ⟨hr, hx⟩
        rcases (Worker.callStep_null hshape (hcmd.trans hr) hcall).mp hx with hx | hx
        · exact Or.inr ⟨hr, hx⟩
        · exact Or.inl hx
      · rintro (hx | ⟨hr, hx⟩)
        · have hc := Worker.forCommand_of_refuses hshape hx
          exact ⟨hcmd.symm.trans hc, (Worker.callStep_null hshape hc hcall).mpr (Or.inr hx)⟩
        · exact ⟨hr, (Worker.callStep_null hshape (hcmd.trans hr) hcall).mpr (Or.inl hx)⟩
    | crashed => exact absurd hs hcrash
  · cases hs : s.pc with
    | closed | sent reply | calling r =>
      rw [hs] at hi
      simp only [HandlerPlace, hsame, refused_cons_of_not (refuses_of_not_own hnot)]
      exact hi
    | crashed => exact absurd hs hcrash

theorem HandlerPlace.step (hi : HandlerPlace cfg h s s.pc) (hs : s.step cfg l = some s') :
    HandlerPlace cfg ((s, l) :: h) s' s'.pc := by
  cases l with
  | recv text m =>
    obtain ⟨hpc, hreq⟩ := step_recv hs
    rcases hpc with hpc | ⟨reply, hpc⟩ <;> rw [hpc] at hi <;> exact HandlerPlace.recv hi hreq
  | server l => exact hi.server hs
  | reply =>
    simp only [Handler.step] at hs
    split at hs
    · rename_i r hpc
      rw [hpc] at hi
      split at hs
      · rename_i report hres
        cases hs
        exact hi.reply hres
      · cases hs
    · cases hs

end Steps

theorem run_handlerPlace {cfg : Config} {n : Nat} {h : History Handler Label} {s : Handler}
    (hr : Run (step cfg) always (create n) h s) : HandlerPlace cfg h s s.pc := by
  refine Run.invariant (I := fun h s => HandlerPlace cfg h s s.pc) ?_ ?_ hr
  · exact ⟨rfl, by simp [Refused]⟩
  · exact fun h s l s' hi _ hs => hi.step hs

/-- After a refusal the handler comes to its push, with two steps at
most. -/
theorem run_reaches_crash {cfg : Config} {n : Nat} {h : History Handler Label} {s : Handler}
    (hr : Run (step cfg) always (create n) h s) (hx : Refused cfg h) :
    ∃ h' s', Run (step cfg) always (create n) (h' ++ h) s' ∧ s'.pc = .crashed := by
  have hi := run_handlerPlace hr
  -- once the call has returned NULL, the next step is the push
  have hpush : ∀ {h : History Handler Label} {s : Handler} {r : Request},
      Run (step cfg) always (create n) h s → s.pc = .calling r → r.isCommand = true →
      CallPc.result (s.clients.pcs cfg.client) = some none →
      ∃ s', Run (step cfg) always (create n) ((s, .reply) :: h) s' ∧ s'.pc = .crashed := by
    intro h s r hr hpc hcmd hres
    refine ⟨{ s with pc := .crashed }, .snoc hr trivial ?_, rfl⟩
    have hafter : afterCall cfg.id r none = .crashed := by
      rw [afterCall, if_pos hcmd]
      rfl
    simp [step, hpc, hres, hafter]
  cases hpc : s.pc with
  | closed | sent reply =>
    rw [hpc] at hi
    exact absurd hx hi.2
  | crashed => exact ⟨[], s, hr, hpc⟩
  | calling r =>
    rw [hpc] at hi
    obtain ⟨hcmd, hnull⟩ := hi.2.2.mpr hx
    cases hcall : s.clients.pcs cfg.client with
    | idle =>
      obtain ⟨s', hr', hs'⟩ := hpush hr hpc hcmd (by rw [hcall]; rfl)
      exact ⟨[_], s', hr', hs'⟩
    | returned c report =>
      obtain rfl : report = none := by
        cases report
        · rfl
        · simp [hcall, CallPc.null] at hnull
      obtain ⟨s', hr', hs'⟩ := hpush hr hpc hcmd (by rw [hcall]; rfl)
      exact ⟨[_], s', hr', hs'⟩
    | unlock c report =>
      obtain rfl : report = none := by
        cases report
        · rfl
        · simp [hcall, CallPc.null] at hnull
      let s₁ : Handler :=
        { s with clients := { s.clients with
            worker := { s.clients.worker with locked := false }
            pcs := Function.update s.clients.pcs cfg.client (.returned c none) } }
      have hstep : s.step cfg (.server (.move cfg.client true)) = some s₁ := by
        simp [step, hpc, isCallOf, Clients.step, hcall, Worker.callStep, s₁]
      obtain ⟨s', hr', hs'⟩ := hpush (.snoc hr trivial hstep) hpc hcmd (by simp [s₁, CallPc.result])
      exact ⟨[_, _], s', hr', hs'⟩
    | _ => simp [hcall, CallPc.null] at hnull

/-- In every run, the handler has not pushed a NULL as long as no step
of its calls was a refusal; after a refusal the push of the NULL is all
that can come of the request, and it does come. -/
theorem run_crashed_iff_refused {cfg : Config} {n : Nat} {h : History Handler Label} {s : Handler}
    (hr : Run (step cfg) always (create n) h s) :
    (¬ Refused cfg h → s.pc ≠ .crashed) ∧
      (Refused cfg h → (Finished s → s.pc = .crashed) ∧
        ∃ h' s', Run (step cfg) always (create n) (h' ++ h) s' ∧ s'.pc = .crashed) := by
  have hi := run_handlerPlace hr
  refine ⟨fun hx hpc => ?_, fun hx => ⟨fun hdone => ?_, run_reaches_crash hr hx⟩⟩
  · rw [hpc] at hi
    exact hx hi
  · cases hpc : s.pc with
    | closed | sent reply =>
      rw [hpc] at hi
      exact absurd hx hi.2
    | calling r => exact absurd hpc (hdone r)
    | crashed => rfl

/-- A server with the token `t`; the client that is followed is the
first. -/
def someServer : Config := { token := some (ascii "t"), id := 7, client := 0 }

/-- A request for the status. -/
def statusText : Received :=
  ⟨ascii "\x7b\"command\":\"get_status\",\"token\":\"t\"\x7d", by decide⟩

/-- A request to run a job without tasks. -/
def emptyJobText : Received :=
  ⟨ascii "\x7b\"command\":\"run\",\"token\":\"t\",\"job\":\x7b\"id\":1,\"tasks\":[]\x7d\x7d", by decide⟩

/-- The handler has sent something. -/
def hasSent (s : Handler) : Bool :=
  match s.pc with
  | .sent _ => true
  | _ => false

/-- The steps of a call of the followed client. -/
def moves (n : Nat) : List Label := List.replicate n (.server (.move 0 true))

theorem run_crashed_iff_refused_status :
    ∃ h s, Run (step someServer) always (create 1) h s ∧ hasSent s = true ∧
      ¬ Refused someServer h := by
  obtain ⟨h, s, hr, hc⟩ := Run.of_check (step someServer) always (create 1)
    ([.recv statusText .enough] ++ moves 4 ++ [.reply]) hasSent (by decide +kernel)
  refine ⟨h, s, hr, hc, fun hx => ?_⟩
  have hdone : Finished s := by
    intro r hpc
    simp [hasSent, hpc] at hc
  have hcrash := ((run_crashed_iff_refused hr).2 hx).1 hdone
  simp [hasSent, hcrash] at hc

/-- A job without tasks is refused by `job_run`, and the handler of the
request pushes NULL. -/
theorem run_emptyJob_crashes :
    ∃ h s, Run (step someServer) always (create 1) h s ∧ s.pc = .crashed := by
  obtain ⟨h, s, hr, hc⟩ := Run.of_check (step someServer) always (create 1)
    ([.recv emptyJobText .enough] ++ moves 5 ++ [.reply])
    (fun s => s.pc == .crashed) (by decide +kernel)
  exact ⟨h, s, hr, beq_iff_eq.mp hc⟩

/-! ## Requests without the token -/

/-- The text is a JSON object with a string `"command"` and with `T`
under `"token"`, byte for byte. -/
def CarriesToken (T text : Bytes) : Prop :=
  ∃ entries, jsonParse text = some (.object entries) ∧
    (∃ cmd, (ascii "command", JsonValue.string cmd) ∈ entries) ∧
    (ascii "token", JsonValue.string T) ∈ entries

/-- The C string of the command is one of the six, and `run` and
`assign` come with a job that decodes. -/
def Acts (entries : List (Bytes × JsonValue)) (cmd : Bytes) : Prop :=
  cstr cmd ∈ [ascii "get_status", ascii "restart", ascii "start", ascii "stop"] ∨
    cstr cmd ∈ [ascii "run", ascii "assign"] ∧
      ∃ obj, jsonObjectGetValue (.object entries) (ascii "job") = some obj ∧
        (jobDecode obj).isSome = true

/-- The text is a JSON object; of the entries whose names read as
`"command"` and `"token"` in C, the first are strings, the second of
them with the C string of `T`; and the command acts. -/
def LetThrough (T text : Bytes) : Prop :=
  ∃ entries cmd tok, jsonParse text = some (.object entries) ∧
    jsonObjectGetValue (.object entries) (ascii "command") = some (.string cmd) ∧
    jsonObjectGetValue (.object entries) (ascii "token") = some (.string tok) ∧
    cstr tok = cstr T ∧ Acts entries cmd

/-- The worker, its job, its engine and the statuses are the same. The
lock, and a job that the worker does not know yet, do not count. -/
structure SameWorker (w w' : Worker) : Prop where
  status : w'.status = w.status
  job : w'.job = w.job
  jobRunner : w'.core.jobRunner = w.core.jobRunner
  nthreads : w'.core.nthreads = w.core.nthreads
  threads : w'.core.threads = w.core.threads
  jobs : ∀ j < w.core.njobs, w'.core.jobs j = w.core.jobs j

/-- No further request. -/
def sameRequest : History Handler Label → Handler → Label → Prop :=
  fun _ _ l => ∀ text m, l ≠ .recv text m

/-- Handling the text leaves the worker as it is, and there is one reply
to it, whatever state the worker has reached. -/
def Unaffected (T : Bytes) (text : Received) : Prop :=
  ∀ (id : Int) (m : Memory), ∃ reply, ∀ (i n : Nat) (h : History Handler Label) (s s₁ : Handler),
    Run (step ⟨some T, id, i⟩) always (create n) h s →
    s.step ⟨some T, id, i⟩ (.recv text m) = some s₁ →
    SameWorker s.clients.worker s₁.clients.worker ∧
    ∀ (h' : History Handler Label) (s' : Handler), Run (step ⟨some T, id, i⟩) sameRequest s₁ h' s' →
      (Finished s' → s'.pc = .sent reply) ∧
      ∀ t l t', (t, l) ∈ h' → isOwn ⟨some T, id, i⟩ l = true →
        t.step ⟨some T, id, i⟩ l = some t' → SameWorker t.clients.worker t'.clients.worker

/-! ### Which requests get through -/

theorem strcmpEq_ascii {a : Bytes} {s : String} (h : cstr (ascii s) = ascii s) :
    strcmpEq a (ascii s) = true ↔ cstr a = ascii s := by
  rw [strcmpEq_iff, h]

theorem pyoneerBlueprintDecode_some {m : Memory} {req : JsonValue} {job : Decoded}
    (h : pyoneerBlueprintDecode m req = some job) :
    ∃ obj, jsonObjectGetValue req (ascii "job") = some obj ∧ (jobDecode obj).isSome = true := by
  unfold pyoneerBlueprintDecode at h
  split at h
  · cases h
  · rename_i obj hobj
    split at h
    · rename_i job' hjob
      exact ⟨obj, hobj, by rw [hjob]; rfl⟩
    · cases h

theorem pyoneerBlueprintDecode_enough {req obj : JsonValue}
    (hobj : jsonObjectGetValue req (ascii "job") = some obj)
    (hjob : (jobDecode obj).isSome = true) :
    ∃ job, pyoneerBlueprintDecode .enough req = some job := by
  unfold pyoneerBlueprintDecode
  rw [hobj]
  simp only
  split
  · exact ⟨_, rfl⟩
  · rename_i hnone
    rw [hnone] at hjob
    cases hjob

theorem acts_of_runCommand {m : Memory} {entries : List (Bytes × JsonValue)} {cmd : Bytes}
    {r : Request} (h : runCommand m (.object entries) cmd = .call r) : Acts entries cmd := by
  simp only [runCommand, strcmpEq_ascii (show cstr (ascii "run") = ascii "run" by decide),
    strcmpEq_ascii (show cstr (ascii "get_status") = ascii "get_status" by decide),
    strcmpEq_ascii (show cstr (ascii "assign") = ascii "assign" by decide),
    strcmpEq_ascii (show cstr (ascii "restart") = ascii "restart" by decide),
    strcmpEq_ascii (show cstr (ascii "start") = ascii "start" by decide),
    strcmpEq_ascii (show cstr (ascii "stop") = ascii "stop" by decide)] at h
  split at h
  · rename_i hcmd
    split at h
    · cases h
    · rename_i job hjob
      exact Or.inr ⟨by simp [hcmd], pyoneerBlueprintDecode_some hjob⟩
  · split at h
    · rename_i hcmd
      exact Or.inl (by simp [hcmd])
    · split at h
      · rename_i hcmd
        split at h
        · cases h
        · rename_i job hjob
          exact Or.inr ⟨by simp [hcmd], pyoneerBlueprintDecode_some hjob⟩
      · split at h
        · rename_i hcmd
          exact Or.inl (by simp [hcmd])
        · split at h
          · rename_i hcmd
            exact Or.inl (by simp [hcmd])
          · split at h
            · rename_i hcmd
              exact Or.inl (by simp [hcmd])
            · cases h

theorem runCommand_of_acts {entries : List (Bytes × JsonValue)} {cmd : Bytes}
    (h : Acts entries cmd) : ∃ r, runCommand .enough (.object entries) cmd = .call r := by
  have hcmp : ∀ name : String, cstr cmd = ascii name →
      ∀ other : String, strcmpEq cmd (ascii other) = (ascii name == cstr (ascii other)) := by
    intro name hname other
    rw [strcmpEq, hname]
  rcases h with h | ⟨h, obj, hobj, hjob⟩
  · simp only [List.mem_cons, List.not_mem_nil, or_false] at h
    rcases h with h | h | h | h
    · exact ⟨.getStatus, by simp only [runCommand, hcmp _ h]; rfl⟩
    · exact ⟨.restart, by simp only [runCommand, hcmp _ h]; rfl⟩
    · exact ⟨.start, by simp only [runCommand, hcmp _ h]; rfl⟩
    · exact ⟨.stop, by simp only [runCommand, hcmp _ h]; rfl⟩
  · obtain ⟨job, hdec⟩ := pyoneerBlueprintDecode_enough hobj hjob
    simp only [List.mem_cons, List.not_mem_nil, or_false] at h
    rcases h with h | h
    · exact ⟨.run job, by simp only [runCommand, hcmp _ h, hdec]; rfl⟩
    · exact ⟨.assign job, by simp only [runCommand, hcmp _ h, hdec]; rfl⟩

/-- Only a request that is let through comes to a call. -/
theorem letThrough_of_call {T text : Bytes} {m : Memory} {r : Request}
    (h : clientDecide (some T) m text = .call r) : LetThrough T text := by
  unfold clientDecide at h
  split at h
  · cases h
  · split at h
    · cases h
    · split at h
      · cases h
      · rename_i entries hparse
        split at h
        · rename_i cmd hcmd
          split at h
          · rename_i tok htok
            split at h
            · cases h
            · rename_i hrefused
              have htoken : strcmpEq tok T = true := by simpa [tokenRefused] using hrefused
              exact ⟨entries, cmd, tok, hparse, hcmd, htok, strcmpEq_iff.mp htoken,
                acts_of_runCommand h⟩
          · cases h
        · cases h
      · cases h

theorem call_of_letThrough {T text : Bytes} (h : LetThrough T text) :
    ∃ r, clientDecide (some T) .enough text = .call r := by
  obtain ⟨entries, cmd, tok, hparse, hcmd, htok, htoken, hacts⟩ := h
  obtain ⟨r, hr⟩ := runCommand_of_acts hacts
  refine ⟨r, ?_⟩
  simp [clientDecide, Memory.enough, hparse, hcmd, htok, tokenRefused, strcmpEq_iff.mpr htoken]
  exact hr

/-! ### Requests that do not get through -/

theorem SameWorker.refl (w : Worker) : SameWorker w w :=
  ⟨rfl, rfl, rfl, rfl, rfl, fun _ _ => rfl⟩

/-- Once the reply is sent, the handler does nothing more. -/
theorem run_after_reply {cfg : Config} {reply : Bytes} {s₁ s' : Handler}
    {h' : History Handler Label} (hpc : s₁.pc = .sent reply)
    (hrest : Resting (s₁.clients.pcs cfg.client)) (hr : Run (step cfg) sameRequest s₁ h' s') :
    s'.pc = .sent reply ∧ ∀ x ∈ h', isOwn cfg x.2 = false := by
  have hi := Run.invariant
    (I := fun h s => (s.pc = .sent reply ∧ Resting (s.clients.pcs cfg.client)) ∧
      ∀ x ∈ h, isOwn cfg x.2 = false) ⟨⟨hpc, hrest⟩, by simp⟩ (fun h s l s' hi hok hs => ?_) hr
  · exact ⟨hi.1.1, hi.2⟩
  · obtain ⟨⟨hsent, hrest⟩, hold⟩ := hi
    cases l with
    | recv text m => exact absurd rfl (hok text m)
    | reply => simp [Handler.step, hsent] at hs
    | server l =>
      obtain ⟨hpc, _, _, ⟨ok, _, w, hcall⟩ | ⟨hsame, hnot⟩⟩ := server_cases hs
      · rw [hrest.callStep ok] at hcall
        cases hcall
      · refine ⟨⟨hpc.trans hsent, by rw [hsame]; exact hrest⟩, fun x hx => ?_⟩
        rcases List.mem_cons.mp hx with rfl | hx
        · exact hnot
        · exact hold x hx

/-- A request that is decided without the worker. -/
theorem request_reply {token : Option Bytes} {m : Memory} {text : Received}
    (h : ∀ r, clientDecide token m text.1 ≠ .call r) :
    ∃ reply, ∀ (id : Int) (i : Nat) (s : Handler),
      s.request ⟨token, id, i⟩ text m = some { s with pc := .sent reply } := by
  cases hd : clientDecide token m text.1 with
  | noResponse => exact ⟨internalErrorText, fun id i s => by simp [request, hd]⟩
  | error e => exact ⟨sendResp (errorResp e), fun id i s => by simp [request, hd]⟩
  | call r => exact absurd hd (h r)

theorem unaffected_of_not_letThrough {T : Bytes} {text : Received} (h : ¬ LetThrough T text.1) :
    Unaffected T text := by
  intro id m
  have hnocall : ∀ r, clientDecide (some T) m text.1 ≠ .call r := fun r hr =>
    h (letThrough_of_call hr)
  obtain ⟨reply, hreply⟩ := request_reply hnocall
  refine ⟨reply, fun i n hist s s₁ hr hs => ?_⟩
  have hplace := run_handlerPlace hr
  obtain ⟨hpc, hreq⟩ := step_recv hs
  have hrest : Resting (s.clients.pcs i) := by
    rcases hpc with hpc | ⟨_, hpc⟩ <;> rw [hpc] at hplace <;> exact hplace.1
  obtain rfl : { s with pc := .sent reply } = s₁ :=
    Option.some.inj ((hreply id i s).symm.trans hreq)
  refine ⟨SameWorker.refl _, fun h' s' hr' => ?_⟩
  obtain ⟨hsent, hown⟩ := run_after_reply rfl hrest hr'
  refine ⟨fun _ => hsent, fun t l t' hm hl _ => ?_⟩
  rw [hown (t, l) hm] at hl
  cases hl

/-! ### Requests that get through -/

/-- Steps of the server that are no calls of client `i`. -/
def callsOfOthers (i : Nat) : History Clients Clients.Label → Clients → Clients.Label → Prop :=
  fun _ _ l => isCallOf i l = false

instance (i : Nat) (h : History Clients Clients.Label) (c : Clients) (l : Clients.Label) :
    Decidable (callsOfOthers i h c l) := inferInstanceAs (Decidable (_ = _))

/-- A run of the server goes on around the handler. -/
theorem run_around {cfg : Config} {c₀ c : Clients} {pc : HandlerPc}
    {h : History Clients Clients.Label} (hpc : pc ≠ .crashed)
    (hr : Run Clients.step (callsOfOthers cfg.client) c₀ h c) :
    Run (step cfg) sameRequest ⟨c₀, pc⟩ (h.map fun x => (⟨x.1, pc⟩, .server x.2)) ⟨c, pc⟩ := by
  induction hr with
  | nil => exact .nil
  | snoc hr hok hs ih =>
    rename_i h c c' l
    refine .snoc ih (by simp [sameRequest]) ?_
    have hown : isCallOf cfg.client l = false := hok
    cases pc with
    | crashed => exact absurd rfl hpc
    | _ => simp [step, hown, hs]

/-- A request that comes to a call affects the worker if the worker can
be in a state in which some step of that call changes it. -/
theorem not_unaffected_of_step {T : Bytes} {text : Received} {r : Request} {n : Nat}
    {c c₁ c₂ c₃ : Clients} {h h₂ : History Clients Clients.Label} {ok : Bool}
    (hcall : clientDecide (some T) .enough text.1 = .call r)
    (hr : Run Clients.step (callsOfOthers 0) (Clients.create n) h c)
    (hc : c.step (.call 0 r) = some c₁) (hr₂ : Run Clients.step (callsOfOthers 0) c₁ h₂ c₂)
    (hs : c₂.step (.move 0 ok) = some c₃) (hne : ¬ SameWorker c₂.worker c₃.worker) :
    ¬ Unaffected T text := by
  intro hu
  obtain ⟨reply, hu⟩ := hu 0 .enough
  have hbefore : Run (step ⟨some T, 0, 0⟩) always (create n) _ ⟨c, .closed⟩ :=
    Run.mono (fun _ _ _ _ => trivial) (run_around (by simp) hr)
  have hrecv : step ⟨some T, 0, 0⟩ ⟨c, .closed⟩ (.recv text .enough) = some ⟨c₁, .calling r⟩ := by
    simp [step, request, hcall, hc]
  obtain ⟨_, hafter⟩ := hu 0 n _ _ _ hbefore hrecv
  have hmove : step ⟨some T, 0, 0⟩ ⟨c₂, .calling r⟩ (.server (.move 0 ok))
      = some ⟨c₃, .calling r⟩ := by
    simp [step, isCallOf, hs]
  have hlast := (hafter _ _ (.snoc (run_around (by simp) hr₂) (by simp [sameRequest]) hmove)).2
  exact hne (hlast _ _ _ (List.mem_cons_self ..) rfl hmove)

/-- A test for `¬ SameWorker`. -/
def differs (w w' : Worker) : Bool :=
  w.status != w'.status || w.job != w'.job || w.core.nthreads != w'.core.nthreads ||
    (w.core.threads 0).body.cancelReq != (w'.core.threads 0).body.cancelReq

theorem not_sameWorker_of_differs {w w' : Worker} (h : differs w w' = true) :
    ¬ SameWorker w w' := by
  intro hs
  simp [differs, hs.status, hs.job, hs.nthreads, hs.threads] at h

/-- The labels `before` lead two clients to a state in which the call
`r` of client 0, after the labels `after`, changes the worker. -/
def disturbs (r : Request) (before after : List Clients.Label) : Bool :=
  (replay Clients.step (callsOfOthers 0) [] (Clients.create 2) before).any fun p =>
    (p.2.step (.call 0 r)).any fun c₁ =>
      (replay Clients.step (callsOfOthers 0) [] c₁ after).any fun q =>
        (q.2.step (.move 0 true)).any fun c₃ => differs q.2.worker c₃.worker

theorem not_unaffected_of_disturbs {T : Bytes} {text : Received} {r : Request}
    (hcall : clientDecide (some T) .enough text.1 = .call r) (before after : List Clients.Label)
    (h : disturbs r before after = true) : ¬ Unaffected T text := by
  simp only [disturbs, Option.any_eq_true] at h
  obtain ⟨⟨h₁, c⟩, hb, c₁, hc, ⟨h₂, c₂⟩, ha, c₃, hs, hd⟩ := h
  exact not_unaffected_of_step hcall (Run.of_replay before hb) hc (Run.of_replay after ha) hs
    (not_sameWorker_of_differs hd)

/-- The steps of client `i`, and of the first job thread. -/
def clientMoves (i n : Nat) : List Clients.Label := List.replicate n (.move i true)

@[inherit_doc clientMoves]
def jobSteps (n : Nat) : List Clients.Label := List.replicate n (.thread 0 (.job true))

/-- The other client has assigned a job. -/
def assigned : List Clients.Label := [.call 1 (.assign oneTaskJob)] ++ clientMoves 1 16

/-- The other client has run a job, and its task is executing. -/
def executing : List Clients.Label :=
  [.call 1 (.run oneTaskJob)] ++ clientMoves 1 19 ++ jobSteps 4

/-- A first `worker_run` whose job has no tasks returns NULL. -/
theorem run_emptyJob {job : Decoded} (hjob : job.1.tasks = []) :
    ∃ c₁ h₂ c₂, (Clients.create 2).step (.call 0 (.run job)) = some c₁ ∧
      Run Clients.step (callsOfOthers 0) c₁ h₂ c₂ ∧ c₂.pcs 0 = .returned (.run 0) none := by
  obtain ⟨⟨id, status, opts, tasks⟩, hready⟩ := job
  obtain rfl : tasks = [] := hjob
  exact ⟨_, _, _, rfl, Run.of_replay (clientMoves 0 5) rfl, rfl⟩

/-- `worker_run` starts a thread, and a job without tasks ends in the
push of a NULL. -/
theorem not_unaffected_of_run {T : Bytes} {text : Received} {job : Decoded}
    (hcall : clientDecide (some T) .enough text.1 = .call (.run job)) : ¬ Unaffected T text := by
  cases htasks : job.1.tasks with
  | nil =>
    intro hu
    obtain ⟨reply, hu⟩ := hu 0 .enough
    obtain ⟨c₁, h₂, c₂, hc, hr, hpc⟩ := run_emptyJob htasks
    have hrecv : step ⟨some T, 0, 0⟩ (create 2) (.recv text .enough)
        = some ⟨c₁, .calling (.run job)⟩ := by
      simp [step, create, request, hcall, hc]
    obtain ⟨_, hafter⟩ := hu 0 2 _ _ _ .nil hrecv
    have hreply : step ⟨some T, 0, 0⟩ ⟨c₂, .calling (.run job)⟩ .reply = some ⟨c₂, .crashed⟩ := by
      simp [step, hpc, CallPc.result, afterCall, Request.isCommand, pyoneerStatus,
        jsonObjectPushInteger, jsonObjectPushString]
    have hsent := (hafter _ _ (.snoc (run_around (by simp) hr) (by simp [sameRequest]) hreply)).1
    simp [Finished] at hsent
  | cons task tasks =>
    obtain ⟨⟨id, status, opts, tasks'⟩, hready⟩ := job
    obtain rfl : tasks' = task :: tasks := htasks
    exact not_unaffected_of_disturbs hcall [] (clientMoves 0 3) rfl

/-- Every call affects the worker in some state. -/
theorem not_unaffected_of_call {T : Bytes} {text : Received} {r : Request}
    (hcall : clientDecide (some T) .enough text.1 = .call r) : ¬ Unaffected T text := by
  cases r with
  | getStatus => exact not_unaffected_of_disturbs hcall executing (clientMoves 0 4) (by decide +kernel)
  | run job => exact not_unaffected_of_run hcall
  | assign job => exact not_unaffected_of_disturbs hcall [] (clientMoves 0 4) rfl
  | start => exact not_unaffected_of_disturbs hcall assigned (clientMoves 0 6) (by decide +kernel)
  | restart => exact not_unaffected_of_disturbs hcall assigned (clientMoves 0 6) (by decide +kernel)
  | stop => exact not_unaffected_of_disturbs hcall executing (clientMoves 0 7) (by decide +kernel)

/-! ### The token -/

/-- A request that does not carry the token is without effect exactly
where the comparisons of C strings do not let it through. -/
theorem unaffected_iff (T : Bytes) (text : Received) :
    (¬ CarriesToken T text.1 → Unaffected T text) ↔
      (LetThrough T text.1 → CarriesToken T text.1) := by
  constructor
  · intro h hlet
    by_contra hnot
    obtain ⟨r, hcall⟩ := call_of_letThrough hlet
    exact not_unaffected_of_call hcall (h hnot)
  · intro h hnot
    exact unaffected_of_not_letThrough fun hlet => hnot (h hlet)

/-- `stop`, with a token that goes on after a NUL. -/
def nulText : Received :=
  ⟨ascii "\x7b\"command\":\"stop\",\"token\":\"t\\u0000x\"\x7d", by decide⟩

/-- The request is not the token's, and it is let through. -/
theorem nulText_affects :
    ¬ (¬ CarriesToken (ascii "t") nulText.1 → Unaffected (ascii "t") nulText) := by
  have hparse : jsonParse nulText.1 = some (.object [(ascii "command", .string (ascii "stop")),
      (ascii "token", .string [116, 0, 120])]) := by rfl
  intro h
  refine not_unaffected_of_call (r := .stop) (by rfl) (h ?_)
  rintro ⟨entries, hentries, _, hmem⟩
  rw [hparse] at hentries
  cases hentries
  revert hmem
  simp only [List.mem_cons, Prod.mk.injEq, JsonValue.string.injEq, List.not_mem_nil, or_false]
  decide

end Pyoneer.Api.Handler
