/-
Pyoneer.Api.Encoding — the replies are in UTF-8.

The clients decode what they receive (`raw.decode()` of the Python
client). A reply consists of texts of the program, of digits and of the
names of tasks, and these come from requests: unescaped by the parser,
cut at a NUL, stored in a job that any client may have sent, and escaped
again. `run_replies_isUtf8` says that nothing on this way breaks a
character.
-/
import Pyoneer.Shared.JsonRoundTrip
import Pyoneer.Shared.JsonUtf8
import Pyoneer.Api.Exchange

namespace Pyoneer.Shared

open Pyoneer.Lib

/-! ## What is written -/

/-- A NUL is a character of its own, so that nothing is cut in two. -/
theorem cstr_isUtf8 {s : Bytes} (h : IsUtf8 s) : IsUtf8 (cstr s) := by
  refine IsUtf8.takeWhile_of_ascii (fun b hb => ?_) h
  have hzero : b = 0 := by simpa using hb
  subst hzero
  decide

/-- Only characters of one byte have an escape, and it has two such. -/
theorem escapeOf_ascii {b c : UInt8} (h : escapeOf b = some c) : b.toNat < 128 ∧ c.toNat < 128 := by
  unfold escapeOf at h
  split_ifs at h <;> cases h <;> subst_vars <;> decide

/-- A byte of a longer character is written as it is. -/
theorem serializeByte_high {b : UInt8} (hb : 128 ≤ b.toNat) : serializeByte b = [b] := by
  unfold serializeByte
  split
  · rename_i c hc
    have := (escapeOf_ascii hc).1
    omega
  · rfl

/-- A character of one byte is written as one or two. -/
theorem serializeByte_low {b : UInt8} (hb : b.toNat < 128) : IsUtf8 (serializeByte b) := by
  unfold serializeByte
  split
  · rename_i c hc
    exact .append (.byte (b := 92) (by decide)) (.byte (escapeOf_ascii hc).2)
  · exact .byte hb

/-- `serialize_string` leaves the characters of more than one byte as
they are. -/
theorem isUtf8_serializeString {s : Bytes} (h : IsUtf8 s) : IsUtf8 (serializeString s) := by
  obtain ⟨cs, rfl⟩ := h
  rw [serializeString, List.flatMap_assoc]
  refine IsUtf8.flatMap fun c _ => ?_
  rcases encode_cases c with ⟨hlt, henc⟩ | ⟨_, hhigh⟩
  · rw [henc, List.flatMap_singleton]
    exact serializeByte_low (by rw [UInt8.toNat_ofNat']; omega)
  · have hself : (String.utf8EncodeChar c).flatMap serializeByte = String.utf8EncodeChar c := by
      rw [List.flatMap_congr fun b hb => serializeByte_high (hhigh b hb)]
      exact List.flatMap_singleton' _
    rw [hself]
    exact .char c

theorem isUtf8_serializeNat (n : Nat) : IsUtf8 (serializeNat n) :=
  .ascii (digits_ascii (serializeNat_digits n).1)

theorem isUtf8_serializeInteger (n : Int) : IsUtf8 (serializeInteger n) := by
  unfold serializeInteger
  split
  · exact .append (.byte (b := 45) (by decide)) (isUtf8_serializeNat _)
  · exact isUtf8_serializeNat _

theorem isUtf8_quoted {s : Bytes} (h : IsUtf8 s) : IsUtf8 (34 :: serializeString s ++ [34]) :=
  .append (.append (.byte (b := 34) (by decide)) (isUtf8_serializeString h))
    (.byte (by decide))

mutual

/-- What `json_serialize` writes is in UTF-8 if the strings are. -/
theorem isUtf8_jsonSerialize : ∀ v : JsonValue, Plain v → v.Strings IsUtf8 →
    IsUtf8 (jsonSerialize v)
  | .object [], _, _ => .ascii (ascii_of_all rfl)
  | .object (e :: es), hp, hs => by
      rw [jsonSerialize]
      have hes := IsUtf8.append (isUtf8_serializeEntry e hp.1 hs.1)
        (isUtf8_serializeEntries es hp.2 hs.2)
      rw [List.append_assoc (ascii _)]
      exact .append (.append (.ascii (ascii_of_all rfl)) hes) (.ascii (ascii_of_all rfl))
  | .array [], _, _ => .ascii (ascii_of_all rfl)
  | .array (v :: vs), hp, hs => by
      rw [jsonSerialize]
      have hvs := IsUtf8.append (isUtf8_jsonSerialize v hp.1 hs.1)
        (isUtf8_serializeValues vs hp.2 hs.2)
      rw [List.append_assoc (ascii _)]
      exact .append (.append (.ascii (ascii_of_all rfl)) hvs) (.ascii (ascii_of_all rfl))
  | .integer n, _, _ => isUtf8_serializeInteger n
  | .double _, hp, _ => hp.elim
  | .string _, _, hs => isUtf8_quoted hs
  | .boolean true, _, _ => .ascii (ascii_of_all rfl)
  | .boolean false, _, _ => .ascii (ascii_of_all rfl)
  | .null, _, _ => .ascii (ascii_of_all rfl)

theorem isUtf8_serializeEntry : ∀ e : Bytes × JsonValue, PlainEntry e → StringsEntry IsUtf8 e →
    IsUtf8 (serializeEntry e)
  | (name, v), hp, hs => by
      have htext : serializeEntry (name, v)
          = (34 :: serializeString name ++ [34]) ++ ([58, 32] ++ jsonSerialize v) := by
        simp [serializeEntry]
      rw [htext]
      exact .append (isUtf8_quoted hs.1)
        (.append (.ascii (ascii_of_all rfl)) (isUtf8_jsonSerialize v hp.2 hs.2))

theorem isUtf8_serializeEntries : ∀ es : List (Bytes × JsonValue), PlainEntries es →
    StringsEntries IsUtf8 es → IsUtf8 (serializeEntries es)
  | [], _, _ => .nil
  | e :: es, hp, hs => by
      rw [serializeEntries]
      exact .append (.append (.ascii (ascii_of_all rfl)) (isUtf8_serializeEntry e hp.1 hs.1))
        (isUtf8_serializeEntries es hp.2 hs.2)

theorem isUtf8_serializeValues : ∀ vs : List JsonValue, PlainValues vs →
    StringsValues IsUtf8 vs → IsUtf8 (serializeValues vs)
  | [], _, _ => .nil
  | v :: vs, hp, hs => by
      rw [serializeValues]
      exact .append (.append (.ascii (ascii_of_all rfl)) (isUtf8_jsonSerialize v hp.1 hs.1))
        (isUtf8_serializeValues vs hp.2 hs.2)

end

/-! ## Building and looking up -/

section Strings

variable {P : Bytes → Prop}

/-- An entry more. -/
theorem strings_push {v w : JsonValue} {key : Bytes} (hv : v.Strings P) (hkey : P key)
    (hw : w.Strings P) : (jsonObjectPush v key w).Strings P := by
  cases v with
  | object es =>
    rw [jsonObjectPush]
    show StringsEntries P (es ++ [(key, w)])
    have hes : StringsEntries P es := hv
    clear hv
    induction es with
    | nil => exact ⟨⟨hkey, hw⟩, trivial⟩
    | cons e es ih => exact ⟨hes.1, ih hes.2⟩
  | _ => exact hv

/-- What is found in an object is a part of it. -/
theorem strings_of_lookup {v w : JsonValue} {key : Bytes} (hv : v.Strings P)
    (h : jsonObjectGetValue v key = some w) : w.Strings P := by
  cases v with
  | object es =>
    have hes : StringsEntries P es := hv
    obtain ⟨e, he, rfl⟩ := Option.map_eq_some_iff.mp h
    have hmem := (getEntry_some he).1
    clear hv h he
    induction es with
    | nil => cases hmem
    | cons e' es ih =>
      rcases List.mem_cons.mp hmem with rfl | hmem
      · obtain ⟨name, v⟩ := e
        exact hes.1.2
      · exact ih hes.2 hmem
  | _ => cases h

theorem stringsValues_map {α : Type} {f : α → JsonValue} {xs : List α}
    (h : ∀ x ∈ xs, (f x).Strings P) : StringsValues P (xs.map f) := by
  induction xs with
  | nil => exact trivial
  | cons x xs ih =>
    exact ⟨h x (List.mem_cons_self ..), ih fun y hy => h y (List.mem_cons_of_mem _ hy)⟩

end Strings

end Pyoneer.Shared

namespace Pyoneer.Api

open Pyoneer.Lib Pyoneer.Shared Pyoneer.Blueprint Pyoneer.Runtime

/-! ## Names -/

/-- The name of a task is cut at its first NUL, if it has one. -/
theorem isUtf8_taskDecode {v : JsonValue} {task : Task} (hv : v.Strings IsUtf8)
    (h : taskDecode v = some task) : IsUtf8 task.name := by
  unfold taskDecode at h
  split at h
  · split at h
    · rename_i name hname
      obtain ⟨_, rfl⟩ := taskCreate_eq_some.mp h
      have hstring : (JsonValue.string name).Strings IsUtf8 := strings_of_lookup hv hname
      exact cstr_isUtf8 hstring
    · cases h
  · cases h

theorem isUtf8_tasks {ts : List JsonValue} {tasks : List Task}
    (h : List.Forall₂ (fun t task => taskDecode t = some task) ts tasks)
    (hts : StringsValues IsUtf8 ts) : ∀ task ∈ tasks, IsUtf8 task.name := by
  induction h with
  | nil => simp
  | cons htask _ ih => exact List.forall_mem_cons.mpr ⟨isUtf8_taskDecode hts.1 htask, ih hts.2⟩

/-- The names that come with a text. -/
theorem isUtf8_textJob {text : Bytes} {job : Job} (h : textJob text = some job)
    (htext : IsUtf8 text) : ∀ task ∈ job.tasks, IsUtf8 task.name := by
  unfold textJob at h
  split at h
  · rename_i req hparse
    obtain ⟨obj, hobj, hdec⟩ := Option.bind_eq_some_iff.mp h
    obtain ⟨_, ts, tasks, _, hts, _, hmap, rfl⟩ := jobDecode_eq_some.mp hdec
    obtain ⟨hws, hvalue, _, _⟩ := jsonParse_eq_some_iff.mp hparse
    have hreq := (isUtf8_value hvalue (isUtf8_ws hws (isUtf8_skipBom htext))).1
    have hobj' := strings_of_lookup hreq hobj
    have hts' : (JsonValue.array ts).Strings IsUtf8 := strings_of_lookup hobj' hts
    exact isUtf8_tasks (mapM_eq_some_iff.mp hmap) hts'
  · cases h

/-! ## Replies -/

/-- The names of the statuses are in ASCII. -/
theorem strings_taskStatusMap (status : TaskStatus) : (taskStatusMap status).Strings IsUtf8 := by
  cases status <;> exact IsUtf8.ascii (ascii_of_all rfl)

theorem strings_jobStatusMap (status : JobStatus) : (jobStatusMap status).Strings IsUtf8 := by
  cases status <;> exact IsUtf8.ascii (ascii_of_all rfl)

theorem strings_workerStatusMap (status : WorkerStatus) :
    (workerStatusMap status).Strings IsUtf8 := by
  cases status <;> exact IsUtf8.ascii (ascii_of_all rfl)

theorem strings_encodeJobStatus (status : JobStatus) {tasks : List (TaskStatus × Bytes)}
    (h : ∀ t ∈ tasks, IsUtf8 t.2) : (encodeJobStatus status tasks).Strings IsUtf8 := by
  have hitem : ∀ t ∈ tasks, (jsonObjectPush (taskEncodeStatus t.1) (ascii "name")
      (.string (cstr t.2))).Strings IsUtf8 := by
    intro t ht
    have hstatus : (taskEncodeStatus t.1).Strings IsUtf8 :=
      strings_push trivial (.ascii (ascii_of_all rfl)) (strings_taskStatusMap t.1)
    exact strings_push hstatus (.ascii (ascii_of_all rfl)) (cstr_isUtf8 (h t ht))
  have hstatus : (jsonObjectPush (.object []) (ascii "status")
      (jobStatusMap status)).Strings IsUtf8 :=
    strings_push trivial (.ascii (ascii_of_all rfl)) (strings_jobStatusMap status)
  exact strings_push hstatus (.ascii (ascii_of_all rfl)) (stringsValues_map hitem)

/-- The strings of a report are names of statuses and of tasks. -/
theorem strings_statusResp (id : Int) {report : Report}
    (h : ∀ x, report.job = some x → ∀ t ∈ x.tasks, IsUtf8 t.2) :
    (statusResp id report).Strings IsUtf8 := by
  have hstatus : (jsonObjectPush (.object []) (ascii "status")
      (workerStatusMap report.status)).Strings IsUtf8 :=
    strings_push trivial (.ascii (ascii_of_all rfl)) (strings_workerStatusMap report.status)
  have hreport : (encodeReport report).Strings IsUtf8 := by
    unfold encodeReport
    cases hx : report.job with
    | none => exact strings_push hstatus (.ascii (ascii_of_all rfl)) trivial
    | some x =>
      have hjob : (jsonObjectPush (encodeJobStatus x.status x.tasks) (ascii "id")
          (.integer x.id)).Strings IsUtf8 :=
        strings_push (strings_encodeJobStatus x.status (h x hx)) (.ascii (ascii_of_all rfl)) trivial
      exact strings_push hstatus (.ascii (ascii_of_all rfl)) hjob
  have hrole : (jsonObjectPush (encodeReport report) (ascii "role")
      (.string (cstr (ascii "worker")))).Strings IsUtf8 :=
    strings_push hreport (.ascii (ascii_of_all rfl)) (IsUtf8.ascii (ascii_of_all rfl))
  exact strings_push trivial (.ascii (ascii_of_all rfl))
    (strings_push hrole (.ascii (ascii_of_all rfl)) trivial)

/-- What is sent is the response or a fixed text. -/
theorem isUtf8_sendResp {resp : JsonValue} (hp : Plain resp) (hs : resp.Strings IsUtf8) :
    IsUtf8 (sendResp resp) := by
  unfold sendResp
  split
  · exact cstr_isUtf8 (.ascii (ascii_of_all rfl))
  · exact cstr_isUtf8 (isUtf8_jsonSerialize resp hp hs)

theorem isUtf8_sendResp_error (e : ApiErr) : IsUtf8 (sendResp (errorResp e)) := by
  obtain ⟨es, hes, hplain, _⟩ := plain_errorResp e
  rw [hes]
  refine isUtf8_sendResp hplain ?_
  rw [← hes]
  refine strings_push trivial (.ascii (ascii_of_all rfl)) ?_
  have hmsg : IsUtf8 (apiErrMsg e) := by cases e <;> exact .ascii (ascii_of_all rfl)
  exact cstr_isUtf8 hmsg

/-! ## Runs -/

namespace Handler

/-- What arrives is in UTF-8: the texts that the handler receives, and
the names of the jobs of the other clients. -/
def Label.Decodes : Label → Prop
  | .recv text _ => IsUtf8 text.1
  | .server (.call _ r) => ∀ job, r.decoded = some job → ∀ task ∈ job.1.tasks, IsUtf8 task.name
  | .server (.move _ _) | .server (.thread _ _) | .reply => True

/-- The names in a job that came with a request. -/
theorem isUtf8_sent {cfg : Config} {n : Nat} {h : History Handler Label} {s : Handler}
    {job : Decoded} (hr : Run (step cfg) (fun _ _ l => l.Decodes) (create n) h s)
    (hsent : Clients.Sent (clientsHistory cfg h) job) :
    ∀ task ∈ job.1.tasks, IsUtf8 task.name := by
  obtain ⟨_, i, r, hmem, hjob⟩ := hsent
  obtain ⟨t, l, hl, _, hlabel⟩ := History.mem_project hmem
  obtain ⟨_, _, _, hdecodes, _⟩ := hr.mem hl
  cases l with
  | recv text m =>
    simp only [clientsLabel] at hlabel
    split at hlabel
    · rename_i r' hd
      cases hlabel
      exact isUtf8_textJob (textJob_of_call hd hjob) hdecodes
    · cases hlabel
    · cases hlabel
  | server l =>
    cases hlabel
    exact hdecodes job hjob
  | reply => cases hlabel

/-- As long as what arrives is in UTF-8, every reply is. -/
theorem run_replies_isUtf8 {cfg : Config} {n : Nat} {h : History Handler Label} {s : Handler}
    {l : Label} {reply : Bytes} (hr : Run (step cfg) (fun _ _ l => l.Decodes) (create n) h s)
    (hsent : s.Sends cfg l reply) : IsUtf8 reply := by
  cases l with
  | server l => exact absurd rfl (hsent.1 l)
  | recv text m =>
    rcases sends_recv hsent with ⟨_, rfl⟩ | ⟨_, e, rfl⟩
    · exact .ascii (ascii_of_all rfl)
    · exact isUtf8_sendResp_error e
  | reply =>
    obtain ⟨r, _, ⟨report, _, hres, rfl⟩ | ⟨_, rfl⟩⟩ := sends_reply hsent
    · obtain ⟨c, hret⟩ := returned_of_result hres
      obtain ⟨_, _, _, habout⟩ := (Clients.run_corresponds (run_clients hr)).reports hret
      refine isUtf8_sendResp (plain_statusResp cfg.id report) (strings_statusResp cfg.id ?_)
      intro x hx t ht
      obtain ⟨job, hjob, _, hnames⟩ := habout x hx
      have hmem : t.2 ∈ job.1.tasks.map Task.name := by
        rw [← hnames]
        exact List.mem_map_of_mem ht
      obtain ⟨task, htask, hname⟩ := List.mem_map.mp hmem
      rw [← hname]
      exact isUtf8_sent hr hjob task htask
    · exact isUtf8_sendResp trivial trivial

/-- A request with a name that is not in ASCII. -/
def accentText : Received :=
  ⟨ascii "\x7b\"command\":\"assign\",\"token\":\"t\",\"job\":\x7b\"id\":1,"
    ++ ascii "\"tasks\":[\x7b\"name\":\"" ++ [0xC3, 0xA9]
    ++ ascii ".py\"\x7d]\x7d\x7d", by decide +kernel⟩

theorem accentText_isUtf8 : IsUtf8 accentText.1 := by
  refine .append (.append (.append ?_ ?_) (.char 'é')) ?_
  all_goals exact .ascii (ascii_of_all (by decide +kernel))

theorem decodes_of_accent {l : Label} (h : bringsOnly accentText.1 l = true) : l.Decodes := by
  cases l with
  | recv text m =>
    have heq : text.1 = accentText.1 := eq_of_beq h
    show IsUtf8 text.1
    rw [heq]
    exact accentText_isUtf8
  | server l =>
    cases l with
    | call k r => cases h
    | move k ok => trivial
    | thread t l => trivial
  | reply => trivial

theorem run_replies_isUtf8_accent : ∃ h s reply,
    Run (step someServer) (fun _ _ l => l.Decodes) (create 1) h s ∧
      s.Sends someServer .reply reply ∧ IsUtf8 reply := by
  obtain ⟨h, s, hr, hc⟩ := Run.of_check (step someServer)
    (fun _ _ l => bringsOnly accentText.1 l = true) (create 1) ([.recv accentText .enough] ++ moves 16)
    (fun s => (s.step someServer .reply).any sentObject) (by decide +kernel)
  obtain ⟨reply, hsent, _⟩ := sends_of_sentObject hc
  have hdecodes := hr.mono fun _ _ _ => decodes_of_accent
  exact ⟨h, s, reply, hdecodes, hsent, run_replies_isUtf8 hdecodes hsent⟩

end Handler

end Pyoneer.Api
