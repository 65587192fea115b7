/-
Pyoneer.Api.Effects — what a request has done when its reply carries an
error.

All errors but one are found before the worker is called. The exception
is a response that does not fit the buffer: the command has run by then,
and `worker_run` and `worker_assign` have replaced the job. Handling a
request is followed here from its `recv` on; the other clients and the
threads go on, and only the handler's own steps count.
-/
import Pyoneer.Runtime.Reporting
import Pyoneer.Api.Replies

namespace Pyoneer.Api

open Pyoneer.Lib Pyoneer.Shared Pyoneer.Blueprint Pyoneer.Runtime

/-- The reply has an entry `"Error"`, or is the text for the internal
error. -/
def CarriesError (reply : Bytes) : Prop :=
  reply = internalErrorText ∨
    ∃ v e, jsonParse reply = some v ∧ jsonObjectGetValue v (ascii "Error") = some e

/-- The request brings a job. -/
def bringsJob : Request → Bool
  | .run _ | .assign _ => true
  | _ => false

theorem not_carriesError_sendResp {es : List (Bytes × JsonValue)} (hp : Plain (.object es))
    (hfits : jsonMeasure (.object es) ≤ bufLen)
    (hno : jsonObjectGetValue (.object (rereadEntries es)) (ascii "Error") = none) :
    ¬ CarriesError (sendResp (.object es)) := by
  rintro (h | ⟨v, e, hv, he⟩)
  · exact not_wellFormed_internalError (h ▸ (wellFormed_sendResp hp).mpr hfits)
  · rw [sendResp_fits hp hfits] at hv
    cases hv
    rw [hno] at he
    cases he

theorem carriesError_statusResp (id : Int) (report : Report) :
    CarriesError (sendResp (statusResp id report)) ↔ bufLen < replySize id report := by
  rw [← jsonMeasure_statusResp]
  obtain ⟨es, hes, hno⟩ : ∃ es, statusResp id report = .object es ∧
      jsonObjectGetValue (.object (rereadEntries es)) (ascii "Error") = none := ⟨_, rfl, rfl⟩
  have hplain := plain_statusResp id report
  rw [hes] at hplain ⊢
  constructor
  · intro h
    by_contra hle
    exact not_carriesError_sendResp hplain (by omega) hno h
  · intro h
    exact Or.inl (sendResp_overflows h)

theorem not_carriesError_empty : ¬ CarriesError (sendResp (.object [])) := by
  rintro (h | ⟨v, e, hv, he⟩)
  · exact absurd h (by decide)
  · have hparse : jsonParse (sendResp (.object [])) = some (.object []) := rfl
    rw [hparse] at hv
    cases hv
    cases he

namespace Handler

/-- No step of the handler has an effect. -/
def NoEffect (cfg : Config) (h : History Handler Label) : Prop :=
  ∀ t l t', (t, l) ∈ h → isOwn cfg l = true → t.step cfg l = some t' →
    Untouched t.clients.worker t'.clients.worker

/-- A command that brought a job has returned a report that is longer
than the buffer. -/
def Overflows (cfg : Config) (h : History Handler Label) : Prop :=
  ∃ t r report, (t, .reply) ∈ h ∧ t.pc = .calling r ∧ bringsJob r = true ∧
    CallPc.result (t.clients.pcs cfg.client) = some (some report) ∧
    bufLen < replySize cfg.id report

/-- The call of the followed client has set the job. -/
def HasSet (cfg : Config) (h : History Handler Label) : Prop :=
  ∃ t ok c j, (t, .server (.move cfg.client ok)) ∈ h ∧ t.clients.Fresh ∧
    t.clients.pcs cfg.client = .setJob c j

section Steps

variable {cfg : Config} {h : History Handler Label} {s s' : Handler} {l : Label}

/-- The jobs of the calls stay different ones. -/
theorem fresh_step (hi : s.clients.Fresh) (hs : s.step cfg l = some s') : s'.clients.Fresh := by
  cases l with
  | recv text m =>
    rcases request_cases (step_recv hs).2 with ⟨_, rfl⟩ | ⟨e, _, rfl⟩ | ⟨r, clients, hc, rfl⟩
    · exact hi
    · exact hi
    · exact hi.step hc
  | server l =>
    obtain ⟨_, _, hc, _⟩ := server_cases hs
    exact hi.step hc
  | reply =>
    simp only [step] at hs
    split at hs
    · split at hs
      · cases hs
        exact hi
      · cases hs
    · cases hs

theorem run_fresh {n : Nat} (hr : Run (step cfg) always (create n) h s) : s.clients.Fresh := by
  refine Run.state_invariant (I := fun s => s.clients.Fresh) (Clients.Fresh.create n) ?_ hr
  exact fun h s l s' hi _ hs => fresh_step hi hs

theorem HasSet.cons (hi : HasSet cfg h) (x : Handler × Label) : HasSet cfg (x :: h) := by
  obtain ⟨t, ok, c, j, hm, hrest⟩ := hi
  exact ⟨t, ok, c, j, List.mem_cons_of_mem _ hm, hrest⟩

/-- The job that was set was a new one. -/
theorem HasSet.effect {ok : History Handler Label → Handler → Label → Prop} {s₁ : Handler}
    (hi : HasSet cfg h) (hr : Run (step cfg) ok s₁ h s) : ¬ NoEffect cfg h := by
  intro hno
  obtain ⟨t, b, c, j, hm, hfresh, hpc⟩ := hi
  obtain ⟨_, t', _, _, hs⟩ := hr.mem hm
  obtain ⟨_, _, hc, _⟩ := server_cases hs
  exact hfresh.setJob hpc hc (hno t _ t' hm (by simp [isOwn]) hs).job

/-- How far the call `r` of a request is. -/
structure InCall (cfg : Config) (r : Request) (h : History Handler Label) (s : Handler) :
    Prop where
  pc : s.pc = .calling r
  unanswered : ∀ t, (t, Label.reply) ∉ h
  status : r = .getStatus → (s.clients.pcs cfg.client = .enter .getStatus ∨
    (s.clients.pcs cfg.client).reports = true ∨ (s.clients.pcs cfg.client).null = true) ∧
    NoEffect cfg h
  set : bringsJob r = true → (s.clients.pcs cfg.client ≠ .enter .getStatus) ∧
    ((s.clients.pcs cfg.client).reports = true → HasSet cfg h)

/-- The reply to the call `r` has been sent. -/
structure Answered (cfg : Config) (r : Request) (h : History Handler Label) (s : Handler) :
    Prop where
  rest : Resting (s.clients.pcs cfg.client)
  sent : ∃ t reply, s.pc = .sent reply ∧ t.Sends cfg .reply reply ∧ t.pc = .calling r ∧
    (∀ t', (t', Label.reply) ∈ h ↔ t' = t) ∧
    (bringsJob r = true →
      (t.clients.pcs cfg.client).reports = true → HasSet cfg h)
  status : r = .getStatus → NoEffect cfg h

theorem noEffect_cons (hi : NoEffect cfg h)
    (hl : isOwn cfg l = true → ∀ s', s.step cfg l = some s' →
      Untouched s.clients.worker s'.clients.worker) : NoEffect cfg ((s, l) :: h) := by
  intro t l' t' hm hown hs
  rcases List.mem_cons.mp hm with heq | hm
  · cases heq
    exact hl hown t' hs
  · exact hi t l' t' hm hown hs

/-- The worker after a step of the call. -/
theorem worker_of_move {ok : Bool} {w : Worker} {pc : CallPc}
    (hcall : s.clients.worker.callStep (s.clients.pcs cfg.client) ok = some (w, pc))
    (hs : s.step cfg (.server (.move cfg.client ok)) = some s') :
    s'.clients.worker = w ∧ s'.clients.pcs cfg.client = pc := by
  obtain ⟨_, _, hc, _⟩ := server_cases hs
  simp only [Clients.step, hcall, Option.some.injEq] at hc
  rw [← hc]
  simp

/-- A step of the call. -/
theorem InCall.move {r : Request} {ok : Bool} (hi : InCall cfg r h s) (hfresh : s.clients.Fresh)
    (hs : s.step cfg (.server (.move cfg.client ok)) = some s') :
    InCall cfg r ((s, .server (.move cfg.client ok)) :: h) s' := by
  obtain ⟨hpc, _, _, ⟨ok', heq, w, hcall⟩ | ⟨_, hnot⟩⟩ := server_cases hs
  · cases heq
    obtain ⟨hw, _⟩ := worker_of_move hcall hs
    refine ⟨hpc.trans hi.pc, by simpa using hi.unanswered, fun hr => ?_, fun hr => ⟨?_, fun hrep => ?_⟩⟩
    · obtain ⟨hplace, hno⟩ := hi.status hr
      have hquiet : Untouched s.clients.worker w ∧ ((s'.clients.pcs cfg.client).reports = true ∨
          (s'.clients.pcs cfg.client).null = true) := by
        rcases hplace with hplace | hplace
        · rw [hplace] at hcall
          exact Untouched.enter hcall
        · exact Untouched.of_reports hplace hcall
      refine ⟨Or.inr hquiet.2, noEffect_cons hno fun _ s'' hs'' => ?_⟩
      rw [(worker_of_move hcall hs'').1]
      exact hquiet.1
    · exact (Worker.callStep_ends hcall).1 _
    · rcases Worker.callStep_reports hcall hrep with h' | h' | ⟨c, j, h'⟩
      · exact ((hi.set hr).2 h').cons _
      · exact absurd h' (hi.set hr).1
      · exact ⟨s, ok, c, j, List.mem_cons_self .., hfresh, h'⟩
  · simp [isOwn] at hnot

/-- A step of the server around the call. -/
theorem InCall.around {r : Request} {l : Clients.Label} (hi : InCall cfg r h s)
    (hpc : s'.pc = s.pc)
    (hsame : s'.clients.pcs cfg.client = s.clients.pcs cfg.client)
    (hnot : isOwn cfg (.server l) = false) : InCall cfg r ((s, .server l) :: h) s' := by
  have hquiet : isOwn cfg (.server l) = true → ∀ s', s.step cfg (.server l) = some s' →
      Untouched s.clients.worker s'.clients.worker := fun hown => by
    rw [hnot] at hown
    cases hown
  refine ⟨hpc.trans hi.pc, by simpa using hi.unanswered, ?_, ?_⟩ <;> rw [hsame]
  · intro hr
    exact ⟨(hi.status hr).1, noEffect_cons (hi.status hr).2 hquiet⟩
  · intro hr
    exact ⟨(hi.set hr).1, fun hrep => ((hi.set hr).2 hrep).cons _⟩

/-- The end of the handler. -/
theorem InCall.reply {r : Request} (hi : InCall cfg r h s) (hs : s.step cfg .reply = some s') :
    Answered cfg r ((s, .reply) :: h) s' ∨ s'.pc = .crashed := by
  have hstep := hs
  simp only [step, hi.pc] at hs
  split at hs
  · rename_i report hres
    cases hs
    rcases afterCall_cases cfg.id r report with ⟨_, _, heq⟩ | ⟨_, reply, heq⟩
    · exact Or.inr heq
    · refine Or.inl ⟨?_, ⟨s, reply, heq, ⟨by simp, _, hstep, heq⟩, hi.pc, ?_, ?_⟩, ?_⟩
      · rw [Resting, hres]
        rfl
      · intro t'
        simp [hi.unanswered t']
      · exact fun hr hrep => ((hi.set hr).2 hrep).cons _
      · intro hr
        refine noEffect_cons (hi.status hr).2 fun _ s'' hs'' => ?_
        rw [hstep] at hs''
        cases hs''
        exact .refl _
  · cases hs

theorem Answered.server {r : Request} {l : Clients.Label} (hi : Answered cfg r h s)
    (hs : s.step cfg (.server l) = some s') : Answered cfg r ((s, .server l) :: h) s' := by
  obtain ⟨hpc, _, _, ⟨ok, _, w, hcall⟩ | ⟨hsame, hnot⟩⟩ := server_cases hs
  · rw [hi.rest.callStep ok] at hcall
    cases hcall
  · obtain ⟨t, reply, hsent, hsends, ht, honly, hset⟩ := hi.sent
    refine ⟨by rw [hsame]; exact hi.rest, ⟨t, reply, hpc.trans hsent, hsends, ht, ?_, ?_⟩, ?_⟩
    · simpa using honly
    · exact fun hr hrep => (hset hr hrep).cons _
    · intro hr
      refine noEffect_cons (hi.status hr) fun hown => ?_
      rw [hnot] at hown
      cases hown

end Steps

/-- A request that comes to a call, to its end. -/
theorem run_answered {cfg : Config} {r : Request} {s₁ s' : Handler} {h' : History Handler Label}
    (hpc : s₁.pc = .calling r) (henter : s₁.clients.pcs cfg.client = .enter r)
    (hfresh : s₁.clients.Fresh) (hr : Run (step cfg) sameRequest s₁ h' s') :
    InCall cfg r h' s' ∨ Answered cfg r h' s' ∨ s'.pc = .crashed := by
  have hi := Run.invariant (I := fun h s => s.clients.Fresh ∧
    (InCall cfg r h s ∨ Answered cfg r h s ∨ s.pc = .crashed)) ?_ (fun h s l s' hi hok hs => ?_) hr
  · exact hi.2
  · refine ⟨hfresh, Or.inl ⟨hpc, by simp, fun hr => ⟨Or.inl (hr ▸ henter), by simp [NoEffect]⟩, ?_⟩⟩
    intro hr
    rw [henter]
    refine ⟨fun heq => ?_, by simp [CallPc.reports]⟩
    cases heq
    cases hr
  · obtain ⟨hfresh, hi⟩ := hi
    refine ⟨fresh_step hfresh hs, ?_⟩
    cases l with
    | recv text m => exact absurd rfl (hok text m)
    | reply =>
      rcases hi with hi | hi | hi
      · rcases hi.reply hs with h | h
        · exact Or.inr (Or.inl h)
        · exact Or.inr (Or.inr h)
      · obtain ⟨_, _, hsent, _⟩ := hi.sent
        simp [step, hsent] at hs
      · simp [step, hi] at hs
    | server l =>
      obtain ⟨hpc, hcrash, _, hcase⟩ := server_cases hs
      rcases hi with hi | hi | hi
      · rcases hcase with ⟨ok, rfl, _⟩ | ⟨hsame, hnot⟩
        · exact Or.inl (hi.move hfresh hs)
        · exact Or.inl (hi.around hpc hsame hnot)
      · exact Or.inr (Or.inl (hi.server hs))
      · exact absurd hi hcrash

/-- What follows a request: a reply at once, or a call. -/
theorem recv_cases {cfg : Config} {s s₁ : Handler} {text : Received} {m : Memory}
    (hs : s.step cfg (.recv text m) = some s₁) :
    (s.pc = .closed ∨ ∃ reply, s.pc = .sent reply) ∧
      s₁.clients.worker = s.clients.worker ∧
      ((∃ reply, s₁ = { s with pc := .sent reply }) ∨
        ∃ r, s₁.pc = .calling r ∧ s₁.clients.pcs cfg.client = .enter r) := by
  obtain ⟨hpc, hreq⟩ := step_recv hs
  refine ⟨hpc, ?_⟩
  rcases request_cases hreq with ⟨_, rfl⟩ | ⟨e, _, rfl⟩ | ⟨r, clients, hc, rfl⟩
  · exact ⟨rfl, Or.inl ⟨_, rfl⟩⟩
  · exact ⟨rfl, Or.inl ⟨_, rfl⟩⟩
  · obtain ⟨hworker, henter⟩ := step_call hc
    exact ⟨hworker, Or.inr ⟨r, rfl, henter⟩⟩

theorem noEffect_recv {cfg : Config} {s : Handler} {text : Received} {m : Memory}
    {h' : History Handler Label} (hi : NoEffect cfg h') :
    NoEffect cfg (h' ++ [(s, .recv text m)]) := by
  intro t l t' hm hown ht
  rcases List.mem_append.mp hm with hm | hm
  · exact hi t l t' hm hown ht
  · cases List.mem_singleton.mp hm
    have hworker := (recv_cases ht).2.1
    exact ⟨by rw [hworker], by rw [hworker], fun _ _ _ => by rw [hworker]⟩

/-- The call of a request with the reply to it: the only error is a
report that does not fit. -/
theorem Answered.error_iff {cfg : Config} {r : Request} {s₁ s' : Handler} {reply : Bytes}
    {h' : History Handler Label} (hi : Answered cfg r h' s') (hpc : s'.pc = .sent reply)
    (hr : Run (step cfg) sameRequest s₁ h' s') :
    (CarriesError reply → NoEffect cfg h') ↔ ¬ Overflows cfg h' := by
  obtain ⟨t, reply', hsent, hsends, ht, honly, hset⟩ := hi.sent
  rw [hpc] at hsent
  cases hsent
  have honce : Overflows cfg h' → bringsJob r = true ∧ ∃ report,
      CallPc.result (t.clients.pcs cfg.client) = some (some report) ∧
        bufLen < replySize cfg.id report := by
    rintro ⟨t', r', report, hm, hr', hjob, hres, hsize⟩
    obtain rfl := (honly t').mp hm
    rw [ht] at hr'
    cases hr'
    exact ⟨hjob, report, hres, hsize⟩
  obtain ⟨r', hr', hcase⟩ := sends_reply hsends
  rw [ht] at hr'
  cases hr'
  rcases hcase with ⟨report, hcmd, hres, rfl⟩ | ⟨hcmd, rfl⟩
  · rw [carriesError_statusResp]
    by_cases hjob : bringsJob r = true
    · have hrep : (t.clients.pcs cfg.client).reports = true := by
        cases hpcs : t.clients.pcs cfg.client <;>
          simp_all [CallPc.result, CallPc.reports]
      have heffect := (hset hjob hrep).effect hr
      constructor
      · intro h hover
        obtain ⟨_, report', hres', hsize⟩ := honce hover
        rw [hres] at hres'
        cases hres'
        exact heffect (h hsize)
      · intro hnot hsize
        exact absurd ⟨t, r, report, (honly t).mpr rfl, ht, hjob, hres, hsize⟩ hnot
    · have hstatus : r = .getStatus := by
        cases r <;> simp_all [bringsJob, Request.isCommand]
      exact iff_of_true (fun _ => hi.status hstatus) fun hover => hjob (honce hover).1
  · have hjob : bringsJob r = false := by
      cases r <;> simp_all [bringsJob, Request.isCommand]
    refine iff_of_true (fun h => absurd h not_carriesError_empty) fun hover => ?_
    rw [(honce hover).1] at hjob
    cases hjob

/-- In every run, for every request: an error reply means that the
request has had no effect, exactly if the reply is not one to a `run` or
`assign` whose report does not fit. -/
theorem run_error_noEffect_iff {cfg : Config} {n : Nat} {h h' : History Handler Label}
    {s s₁ s' : Handler} {text : Received} {m : Memory} {reply : Bytes}
    (hr : Run (step cfg) always (create n) h s) (hs : s.step cfg (.recv text m) = some s₁)
    (hr' : Run (step cfg) sameRequest s₁ h' s') (hpc : s'.pc = .sent reply) :
    (CarriesError reply → NoEffect cfg (h' ++ [(s, .recv text m)])) ↔ ¬ Overflows cfg h' := by
  obtain ⟨hrest, _, hcase⟩ := recv_cases hs
  rcases hcase with ⟨reply₁, rfl⟩ | ⟨r, hcalling, henter⟩
  · have hplace := run_handlerPlace hr
    have hresting : Resting (s.clients.pcs cfg.client) := by
      rcases hrest with hrest | ⟨_, hrest⟩ <;> rw [hrest] at hplace <;> exact hplace.1
    have hsent : Handler.pc ⟨s.clients, .sent reply₁⟩ = .sent reply₁ := rfl
    obtain ⟨_, hown⟩ := run_after_reply hsent hresting hr'
    refine iff_of_true (fun _ => noEffect_recv fun t l t' hm hl _ => ?_) ?_
    · rw [hown (t, l) hm] at hl
      cases hl
    · rintro ⟨t, _, _, hm, _⟩
      have := hown _ hm
      cases this
  · have hfresh := fresh_step (run_fresh hr) hs
    rcases run_answered hcalling henter hfresh hr' with hi | hi | hi
    · rw [hi.pc] at hpc
      cases hpc
    · rw [← hi.error_iff hpc hr']
      constructor
      · intro h herr t l t' hm
        exact h herr t l t' (List.mem_append_left _ hm)
      · intro h herr
        exact noEffect_recv (h herr)
    · rw [hi] at hpc
      cases hpc

instance (h : History Handler Label) (s : Handler) (l : Label) : Decidable (sameRequest h s l) :=
  match l with
  | .recv text m => .isFalse fun h => h text m rfl
  | .server _ => .isTrue fun _ _ h => nomatch h
  | .reply => .isTrue fun _ _ h => nomatch h

/-- The step is no reply to a request that brings a job. -/
def bringsNoJob (x : Handler × Label) : Bool :=
  match x.1.pc, x.2 with
  | .calling r, .reply => !bringsJob r
  | _, _ => true

theorem not_overflows_of_bringsNoJob {cfg : Config} {h : History Handler Label}
    (hno : h.all bringsNoJob = true) : ¬ Overflows cfg h := by
  rintro ⟨t, r, report, hm, hpc, hjob, -⟩
  have hx := List.all_eq_true.mp hno _ hm
  simp [bringsNoJob, hpc, hjob] at hx

/-- The report of `get_status` does not fit after 115 tasks were
assigned: the reply is the internal error, and nothing is changed. -/
theorem run_error_noEffect_iff_longStatus :
    ∃ h s s₁ h' s', Run (step someServer) always (create 1) h s ∧
      s.step someServer (.recv statusText .enough) = some s₁ ∧
      Run (step someServer) sameRequest s₁ h' s' ∧ s'.pc = .sent internalErrorText ∧
      NoEffect someServer (h' ++ [(s, .recv statusText .enough)]) := by
  have hrun : (replay (step someServer) always [] (create 1)
      ([.recv assignText .enough] ++ moves 358 ++ [.reply])).any (fun p =>
        (p.2.step someServer (.recv statusText .enough)).any fun s₁ =>
          (replay (step someServer) sameRequest [] s₁ (moves 354 ++ [.reply])).any fun q =>
            q.1.all bringsNoJob && sentInternalError q.2) = true := by
    decide +kernel
  simp only [Option.any_eq_true, Bool.and_eq_true] at hrun
  obtain ⟨⟨h, s⟩, hreplay, s₁, hs, ⟨h', s'⟩, hreplay', hno, hsent⟩ := hrun
  have hr : Run (step someServer) always (create 1) h s := Run.of_replay _ hreplay
  have hr' : Run (step someServer) sameRequest s₁ h' s' := Run.of_replay _ hreplay'
  have hpc := sentInternalError_iff.mp hsent
  exact ⟨h, s, s₁, h', s', hr, hs, hr', hpc,
    (run_error_noEffect_iff hr hs hr' hpc).mpr (not_overflows_of_bringsNoJob hno) (Or.inl rfl)⟩

/-- The step changes `worker->job`. -/
def changesJob (cfg : Config) (x : Handler × Label) : Bool :=
  isOwn cfg x.2 && (x.1.step cfg x.2).any fun t => t.clients.worker.job != x.1.clients.worker.job

theorem not_noEffect_of_changesJob {cfg : Config} {h : History Handler Label}
    (hc : h.any (changesJob cfg) = true) : ¬ NoEffect cfg h := by
  intro hno
  simp only [List.any_eq_true, changesJob, Bool.and_eq_true, Option.any_eq_true, bne_iff_ne] at hc
  obtain ⟨⟨t, l⟩, hm, hown, t', hs, hne⟩ := hc
  exact hne (hno t l t' hm hown hs).job

/-- The job is assigned, and the reply is the internal error. -/
theorem run_assignText_effect :
    ∃ s₁ h' s', (create 1).step someServer (.recv assignText .enough) = some s₁ ∧
      Run (step someServer) sameRequest s₁ h' s' ∧ s'.pc = .sent internalErrorText ∧
      CarriesError internalErrorText ∧
      ¬ NoEffect someServer (h' ++ [(create 1, .recv assignText .enough)]) := by
  have hrun : ((create 1).step someServer (.recv assignText .enough)).any (fun s₁ =>
      (replay (step someServer) sameRequest [] s₁ (moves 358 ++ [.reply])).any fun p =>
        p.1.any (changesJob someServer) && sentInternalError p.2) = true := by
    decide +kernel
  simp only [Option.any_eq_true, Bool.and_eq_true] at hrun
  obtain ⟨s₁, hs, ⟨h', s'⟩, hreplay, hchange, hsent⟩ := hrun
  refine ⟨s₁, h', s', hs, Run.of_replay _ hreplay, sentInternalError_iff.mp hsent, Or.inl rfl, ?_⟩
  intro hno
  refine not_noEffect_of_changesJob hchange fun t l t' hm => ?_
  exact hno t l t' (List.mem_append_left _ hm)

end Handler

end Pyoneer.Api
