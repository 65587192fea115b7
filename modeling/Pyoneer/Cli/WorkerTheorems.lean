/-
Pyoneer.Cli.WorkerTheorems — the payload of `run`, as the server decodes
it.

`json_parse_ex` reads back what `json.Marshal` writes
(`jsonParse_sendPayload`). The two sides do not agree on what they make
of it: the tag of the flag is `parallel`, where `job_decode` looks for
`execMode`, and the id is an `int` of 64 bits on one side and of 32 on
the other.
-/
import Pyoneer.Cli.Worker
import Pyoneer.Shared.JsonParseTheorems
import Pyoneer.Api.Client
import Mathlib.Data.List.Forall2

namespace Pyoneer.Cli

open Pyoneer.Shared Pyoneer.Shared.Parser Pyoneer.Blueprint

/-! ## Task names -/

/-- The trimmed names between the commas that are not empty. -/
def taskNames (taskStr : GoString) : List GoString :=
  ((taskStr.splitOn ',').map trimSpace).filter fun name => name ≠ []

theorem trimSpace_cons {c : Char} (hc : isSpace c = true) (s : GoString) :
    trimSpace (c :: s) = trimSpace s := by
  rw [trimSpace, List.dropWhile_cons_of_pos hc, trimSpace]

theorem trimSpace_concat {c : Char} (hc : isSpace c = true) (s : GoString) :
    trimSpace (s ++ [c]) = trimSpace s := by
  by_cases hs : ∀ x ∈ s, isSpace x = true
  · have hall : ∀ x ∈ s ++ [c], isSpace x = true := by
      intro x hx
      rcases List.mem_append.mp hx with hx | hx
      · exact hs x hx
      · rw [List.mem_singleton.mp hx]
        exact hc
    rw [trimSpace, trimSpace, List.dropWhile_eq_nil_iff.mpr hall, List.dropWhile_eq_nil_iff.mpr hs]
  · have hne : s.dropWhile isSpace ≠ [] := fun h => hs (List.dropWhile_eq_nil_iff.mp h)
    rw [trimSpace, List.dropWhile_append, if_neg (by simpa using hne),
      List.rdropWhile_concat_pos _ _ _ hc, trimSpace]

theorem isSpace_ne_comma {c : Char} (hc : isSpace c = true) : c ≠ ',' := by
  rintro rfl
  cases hc

theorem taskNames_cons {c : Char} (hc : isSpace c = true) (s : GoString) :
    taskNames (c :: s) = taskNames s := by
  have hsplit : (c :: s).splitOn ',' = (s.splitOn ',').modifyHead (c :: ·) := by
    rw [List.splitOn_cons_eq_if_modifyHead, if_neg (by simpa using isSpace_ne_comma hc)]
  unfold taskNames
  rw [hsplit]
  cases s.splitOn ',' with
  | nil => rfl
  | cons p ps => rw [List.modifyHead_cons, List.map_cons, trimSpace_cons hc, List.map_cons]

/-- A character that is no comma belongs to the last name. -/
theorem splitOn_concat {c : Char} (hc : c ≠ ',') (s : GoString) :
    ∃ front last, s.splitOn ',' = front ++ [last] ∧
      (s ++ [c]).splitOn ',' = front ++ [last ++ [c]] := by
  induction s with
  | nil =>
    refine ⟨[], [], List.splitOn_nil _, ?_⟩
    exact List.splitOn_eq_singleton (by simpa using Ne.symm hc)
  | cons x s ih =>
    obtain ⟨front, last, hs, hsc⟩ := ih
    rw [List.cons_append, List.splitOn_cons_eq_if_modifyHead, List.splitOn_cons_eq_if_modifyHead,
      hs, hsc]
    by_cases hx : (x == ',') = true
    · rw [if_pos hx, if_pos hx]
      exact ⟨[] :: front, last, rfl, rfl⟩
    · rw [if_neg hx, if_neg hx]
      cases front with
      | nil => exact ⟨[], x :: last, rfl, rfl⟩
      | cons p front => exact ⟨(x :: p) :: front, last, rfl, rfl⟩

theorem taskNames_concat {c : Char} (hc : isSpace c = true) (s : GoString) :
    taskNames (s ++ [c]) = taskNames s := by
  obtain ⟨front, last, hs, hsc⟩ := splitOn_concat (isSpace_ne_comma hc) s
  rw [taskNames, taskNames, hs, hsc, List.map_append, List.map_append, List.map_singleton,
    List.map_singleton, trimSpace_concat hc]

theorem taskNames_trimSpace (s : GoString) : taskNames (trimSpace s) = taskNames s := by
  have hright : ∀ s : GoString, taskNames (s.rdropWhile isSpace) = taskNames s := by
    intro s
    induction s using List.reverseRecOn with
    | nil => rfl
    | append_singleton s c ih =>
      rw [List.rdropWhile_concat]
      split
      · rename_i hc
        rw [ih, taskNames_concat hc]
      · rfl
  have hleft : ∀ s : GoString, taskNames (s.dropWhile isSpace) = taskNames s := by
    intro s
    induction s with
    | nil => rfl
    | cons c s ih =>
      rw [List.dropWhile_cons]
      split
      · rename_i hc
        rw [ih, taskNames_cons hc]
      · rfl
  rw [trimSpace, hright, hleft]

/-- `parseTasks` returns the trimmed names that are not empty. -/
theorem parseTasks_eq_taskNames (taskStr : GoString) : parseTasks taskStr = taskNames taskStr := by
  simp only [parseTasks]
  split
  · rename_i h
    rw [← taskNames_trimSpace, h]
    rfl
  · exact taskNames_trimSpace taskStr

theorem ne_nil_of_mem_taskNames {taskStr name : GoString} (h : name ∈ taskNames taskStr) :
    name ≠ [] := by
  simpa using (List.mem_filter.mp h).2

/-! ## Strings -/

theorem utf8EncodeChar_low {c : Char} (h : c.toNat ≤ 0x7F) :
    String.utf8EncodeChar c = [c.toNat.toUInt8] := by
  unfold String.utf8EncodeChar
  exact if_pos h

theorem utf8EncodeChar_high {c : Char} (h : ¬ c.toNat ≤ 0x7F) {b : UInt8}
    (hb : b ∈ String.utf8EncodeChar c) : 128 ≤ b.toNat := by
  have hv : ¬ c.val.toNat ≤ 0x7F := h
  unfold String.utf8EncodeChar at hb
  simp only [hv, if_false] at hb
  split_ifs at hb <;> simp only [List.mem_cons, List.not_mem_nil, or_false] at hb <;>
    rcases hb with rfl | rfl | rfl | rfl <;> simp <;> omega

theorem hexDigit_spec : ∀ d < 16, hexDigit d ≠ 0 ∧ hexValue (hexDigit d) = some d := by
  decide

theorem feeds_hexDigit {st : List Frame} {name : Bool} {acc : Bytes} {u k d : Nat} (hd : d < 16) :
    Feeds ⟨st, .hex name acc u (k + 1) none⟩ [hexDigit d]
      ⟨st, .hex name acc (u * 16 + d) k none⟩ := by
  obtain ⟨h0, hv⟩ := hexDigit_spec d hd
  refine .byte h0 ?_
  simp [feed, feedPlain, feedHex, hv]

theorem spells_unicodeEscape {u : Nat} (hu : u < 65536) (hs : isSurrogate u = false) :
    Spells (unicodeEscape u) (encodeUchar u) := by
  intro st name acc
  have hopen : Feeds ⟨st, .string name acc⟩ [92, 117] ⟨st, .hex name acc 0 3 none⟩ :=
    .cons (by decide) rfl (.byte (by decide) rfl)
  have hlast : Feeds ⟨st, .hex name acc (((0 * 16 + u / 4096 % 16) * 16 + u / 256 % 16) * 16
      + u / 16 % 16) 0 none⟩ [hexDigit (u % 16)] ⟨st, .string name (acc ++ encodeUchar u)⟩ := by
    obtain ⟨h0, hv⟩ := hexDigit_spec (u % 16) (Nat.mod_lt _ (by decide))
    have hval : (((0 * 16 + u / 4096 % 16) * 16 + u / 256 % 16) * 16 + u / 16 % 16) * 16 + u % 16
        = u := by omega
    refine .byte h0 ?_
    simp only [feed, feedPlain, feedHex, hv, hval, hs]
    simp
  have hdigits := (((hopen.append (feeds_hexDigit (Nat.mod_lt (u / 4096) (by decide)))).append
    (feeds_hexDigit (Nat.mod_lt (u / 256) (by decide)))).append
    (feeds_hexDigit (Nat.mod_lt (u / 16) (by decide)))).append hlast
  exact hdigits

theorem spells_self {bs : Bytes} (h : ∀ b ∈ bs, b ≠ 0 ∧ b ≠ 34 ∧ b ≠ 92) : Spells bs bs := by
  have hspells := Spells.flatMap (f := fun b => [b]) (g := fun b => [b]) bs fun b hb =>
    Spells.byte (h b hb).1 (h b hb).2.1 (h b hb).2.2
  rwa [List.flatMap_singleton'] at hspells

/-- What a character that is escaped stands for. -/
theorem encodeUchar_toNat {c : Char} (h : c.toNat ≤ 0x7F ∨ c.toNat = 0x2028 ∨ c.toNat = 0x2029) :
    c.toNat < 65536 ∧ isSurrogate c.toNat = false ∧ encodeUchar c.toNat = String.utf8EncodeChar c := by
  rcases h with h | h | h
  · refine ⟨by omega, ?_, ?_⟩
    · have hsmall : ∀ u ≤ 0x7F, isSurrogate u = false := by decide
      exact hsmall _ h
    · rw [encodeUchar, if_pos h, utf8EncodeChar_low h]
  · obtain rfl : c = Char.ofNat 0x2028 := Char.toNat_inj.mp h
    decide
  · obtain rfl : c = Char.ofNat 0x2029 := Char.toNat_inj.mp h
    decide

theorem spells_marshalChar (c : Char) : Spells (marshalChar c) (String.utf8EncodeChar c) := by
  have hlow : ∀ u, u ≤ 0x7F → c.toNat = u → String.utf8EncodeChar c = [u.toUInt8] := by
    intro u hu hc
    rw [utf8EncodeChar_low (by omega), hc]
  simp only [marshalChar]
  split
  · rename_i h
    rcases h with h | h <;> rw [hlow _ (by decide) h, h] <;>
      exact .escape (by decide) (by decide)
  · rename_i hplain
    -- the letters of the short escapes
    split
    · rename_i h
      rw [hlow _ (by decide) h]
      exact Spells.escape (b := 98) (by decide) (by decide)
    split
    · rename_i h
      rw [hlow _ (by decide) h]
      exact Spells.escape (b := 102) (by decide) (by decide)
    split
    · rename_i h
      rw [hlow _ (by decide) h]
      exact Spells.escape (b := 110) (by decide) (by decide)
    split
    · rename_i h
      rw [hlow _ (by decide) h]
      exact Spells.escape (b := 114) (by decide) (by decide)
    split
    · rename_i h
      rw [hlow _ (by decide) h]
      exact Spells.escape (b := 116) (by decide) (by decide)
    split
    · obtain ⟨hlt, hsur, henc⟩ := encodeUchar_toNat (c := c) (by omega)
      rw [← henc]
      exact spells_unicodeEscape hlt hsur
    · rename_i hraw
      refine spells_self fun b hb => ?_
      by_cases h : c.toNat ≤ 0x7F
      · rw [utf8EncodeChar_low h, List.mem_singleton] at hb
        subst hb
        refine ⟨?_, ?_, ?_⟩ <;> intro heq <;> have := congrArg UInt8.toNat heq <;> simp at this <;> omega
      · have hhigh := utf8EncodeChar_high h hb
        refine ⟨?_, ?_, ?_⟩ <;> rintro rfl <;> simp at hhigh

theorem reads_marshalString (s : GoString) : Reads (marshalString s) (.string (utf8 s)) :=
  (Spells.flatMap s fun c _ => spells_marshalChar c).reads

/-! ## Structs and slices -/

/-- A field is read as an entry. -/
def ReadsField (f : Bytes × Bytes) (e : Bytes × JsonValue) : Prop :=
  Spells f.1 e.1 ∧ Reads f.2 e.2

theorem run_marshalField {f : Bytes × Bytes} {e : Bytes × JsonValue} (h : ReadsField f e)
    (st : List Frame) (acc : List (Bytes × JsonValue)) (old rest : Bytes)
    (hrest : Delimited rest) :
    Parser.run ⟨.object acc old :: st, .object false⟩ (marshalField f ++ rest)
      = Parser.run ⟨.object (acc ++ [e]) e.1 :: st, .object true⟩ rest := by
  obtain ⟨tag, text⟩ := f
  have hname := h.1.name st acc old
  have htext : marshalField (tag, text) ++ rest = (34 :: tag ++ [34]) ++ ([58] ++ (text ++ rest)) := by
    simp [marshalField]
  rw [htext, hname, feeds_colon, h.2 _ _ hrest]
  rfl

theorem delimited_fields (fs : List (Bytes × Bytes)) (rest : Bytes) :
    Delimited (fs.flatMap (fun f => 44 :: marshalField f) ++ (125 :: rest)) := by
  cases fs with
  | nil => exact .cons (by decide)
  | cons f fs => exact .cons (by decide)

theorem run_marshalFields {fs : List (Bytes × Bytes)} {es : List (Bytes × JsonValue)}
    (h : List.Forall₂ ReadsField fs es) (st : List Frame) (acc : List (Bytes × JsonValue))
    (old rest : Bytes) :
    Parser.run ⟨.object acc old :: st, .object true⟩
        (fs.flatMap (fun f => 44 :: marshalField f) ++ (125 :: rest))
      = (next (.object (acc ++ es)) st).run rest := by
  induction h generalizing acc old with
  | nil =>
    rw [List.flatMap_nil, List.nil_append, List.append_nil]
    exact feeds_closeObject st acc old true rest
  | cons hf _ ih =>
    rename_i f e fs es _
    have hcomma := feeds_comma_object (.object acc old :: st)
      (marshalField f ++ (fs.flatMap (fun f => 44 :: marshalField f) ++ (125 :: rest)))
    rw [List.flatMap_cons, List.append_assoc]
    refine hcomma.trans ?_
    rw [run_marshalField hf _ _ _ _ (delimited_fields fs rest), ih, List.append_assoc,
      List.singleton_append]

theorem reads_marshalStruct {fs : List (Bytes × Bytes)} {es : List (Bytes × JsonValue)}
    (h : List.Forall₂ ReadsField fs es) : Reads (marshalStruct fs) (.object es) := by
  intro st rest _
  cases h with
  | nil => exact reads_emptyObject st rest ‹_›
  | cons hf hfs =>
    rename_i f e fs es
    have htext : marshalStruct (f :: fs) ++ rest = [123] ++ (marshalField f
        ++ (fs.flatMap (fun f => 44 :: marshalField f) ++ (125 :: rest))) := by
      simp [marshalStruct]
    rw [htext, feeds_openObject, run_marshalField hf _ _ _ _ (delimited_fields fs rest),
      run_marshalFields hfs]
    rfl

theorem delimited_texts (texts : List Bytes) (rest : Bytes) :
    Delimited (texts.flatMap (fun text => 44 :: text) ++ (93 :: rest)) := by
  cases texts with
  | nil => exact .cons (by decide)
  | cons text texts => exact .cons (by decide)

theorem run_marshalTexts {texts : List Bytes} {vs : List JsonValue}
    (h : List.Forall₂ Reads texts vs) (st : List Frame) (acc : List JsonValue) (rest : Bytes) :
    Parser.run ⟨.array acc :: st, .seek true false⟩
        (texts.flatMap (fun text => 44 :: text) ++ (93 :: rest))
      = (next (.array (acc ++ vs)) st).run rest := by
  induction h generalizing acc with
  | nil =>
    rw [List.flatMap_nil, List.nil_append, List.append_nil]
    exact feeds_closeArray st acc true rest
  | cons hv _ ih =>
    rename_i text v texts vs _
    have hcomma := feeds_comma_seek (.array acc :: st)
      (text ++ (texts.flatMap (fun text => 44 :: text) ++ (93 :: rest)))
    rw [List.flatMap_cons, List.append_assoc]
    refine hcomma.trans ?_
    rw [hv _ _ (delimited_texts texts rest)]
    refine (ih (acc ++ [v])).trans ?_
    rw [List.append_assoc, List.singleton_append]

theorem reads_marshalSlice {texts : List Bytes} {vs : List JsonValue}
    (h : List.Forall₂ Reads texts vs) : Reads (marshalSlice texts) (.array vs) := by
  intro st rest _
  cases h with
  | nil => exact reads_emptyArray st rest ‹_›
  | cons hv hvs =>
    rename_i text v texts vs
    have htext : marshalSlice (text :: texts) ++ rest = [91] ++ (text
        ++ (texts.flatMap (fun text => 44 :: text) ++ (93 :: rest))) := by
      simp [marshalSlice]
    rw [htext, feeds_openArray, hv _ _ (delimited_texts texts rest)]
    exact run_marshalTexts hvs st [v] rest

/-! ## Payloads -/

/-- The task, as it is read. -/
def taskValue (name : GoString) : JsonValue := .object [(ascii "name", .string (utf8 name))]

/-- The job, as it is read. -/
def jobValue (job : Job) : JsonValue :=
  .object <|
    (if job.id.1 = 0 then [] else [(ascii "id", rereadInteger job.id.1)]) ++
    (if job.tasks = [] then [] else [(ascii "tasks", .array (job.tasks.map taskValue))]) ++
    (if job.parallel then [(ascii "parallel", .boolean true)] else [])

/-- The payload, as it is read. -/
def payloadValue (payload : CommandPayload) : JsonValue :=
  .object <|
    [(ascii "command", .string (utf8 payload.command)),
      (ascii "token", .string (utf8 payload.token))] ++
    (if payload.workerID.1 = 0 then []
      else [(ascii "worker_id", rereadInteger payload.workerID.1)]) ++
    match payload.job with
    | none => []
    | some job => [(ascii "job", jobValue job)]

/-- A tag without special characters. -/
theorem ReadsField.tag {tag text : Bytes} {v : JsonValue} (hv : Reads text v)
    (htag : (tag.all fun b => b != 0 && b != 34 && b != 92) = true) :
    ReadsField (tag, text) (tag, v) := by
  refine ⟨spells_self ?_, hv⟩
  intro b hb
  simpa [and_assoc] using List.all_eq_true.mp htag b hb

theorem reads_marshalTask (name : GoString) : Reads (marshalTask name) (taskValue name) :=
  reads_marshalStruct (.cons (.tag (reads_marshalString name) (by decide)) .nil)

/-- A field that may be omitted. -/
theorem forall₂_omitted {p : Prop} [Decidable p] {f : Bytes × Bytes} {e : Bytes × JsonValue}
    (h : ReadsField f e) :
    List.Forall₂ ReadsField (if p then [] else [f]) (if p then [] else [e]) := by
  split
  · exact .nil
  · exact .cons h .nil

theorem reads_marshalJob (job : Job) : Reads (marshalJob job) (jobValue job) := by
  have htasks : List.Forall₂ Reads (job.tasks.map marshalTask) (job.tasks.map taskValue) := by
    rw [List.forall₂_map_left_iff, List.forall₂_map_right_iff, List.forall₂_same]
    exact fun name _ => reads_marshalTask name
  have hparallel : List.Forall₂ ReadsField
      (if job.parallel then [(ascii "parallel", ascii "true")] else [])
      (if job.parallel then [(ascii "parallel", .boolean true)] else []) := by
    split
    · exact .cons (.tag reads_true (by decide)) .nil
    · exact .nil
  exact reads_marshalStruct (List.rel_append (List.rel_append
    (forall₂_omitted (.tag (reads_serializeInteger job.id.1) (by decide)))
    (forall₂_omitted (.tag (reads_marshalSlice htasks) (by decide)))) hparallel)

theorem reads_marshalPayload (payload : CommandPayload) :
    Reads (marshalPayload payload) (payloadValue payload) := by
  have hjob : List.Forall₂ ReadsField
      (match payload.job with
        | none => []
        | some job => [(ascii "job", marshalJob job)])
      (match payload.job with
        | none => []
        | some job => [(ascii "job", jobValue job)]) := by
    cases payload.job with
    | none => exact .nil
    | some job => exact .cons (.tag (reads_marshalJob job) (by decide)) .nil
  exact reads_marshalStruct (List.rel_append (List.rel_append
    (.cons (.tag (reads_marshalString _) (by decide))
      (.cons (.tag (reads_marshalString _) (by decide)) .nil))
    (forall₂_omitted (.tag (reads_serializeInteger _) (by decide)))) hjob)

/-- The server reads what the client has written. -/
theorem jsonParse_sendPayload (payload : CommandPayload) :
    jsonParse (sendPayload payload) = some (payloadValue payload) := by
  have hrun := reads_marshalPayload payload [] [10] (.cons (by decide))
  have hbom : skipBom (sendPayload payload) = sendPayload payload := rfl
  rw [jsonParse, hbom, sendPayload, hrun]
  rfl

/-! ## Decoding -/

theorem zero_not_mem_utf8 {s : GoString} (h : Char.ofNat 0 ∉ s) : (0 : UInt8) ∉ utf8 s := by
  simp only [utf8, List.mem_flatMap, not_exists, not_and]
  intro c hc hz
  by_cases hlow : c.toNat ≤ 0x7F
  · rw [utf8EncodeChar_low hlow, List.mem_singleton] at hz
    have hzero := congrArg UInt8.toNat hz
    simp only [UInt8.toNat_ofNat, Nat.toUInt8_eq, UInt8.toNat_ofNat'] at hzero
    have hnul : c = Char.ofNat 0 := Char.toNat_inj.mp (by
      have : (Char.ofNat 0).toNat = 0 := rfl
      omega)
    exact h (hnul ▸ hc)
  · have hhigh := utf8EncodeChar_high hlow hz
    simp at hhigh

theorem utf8_ne_nil {s : GoString} (h : s ≠ []) : utf8 s ≠ [] := by
  cases s with
  | nil => exact absurd rfl h
  | cons c s => simp [utf8, String.utf8EncodeChar_ne_nil]

theorem taskDecode_taskValue {name : GoString} (hne : name ≠ []) (hnul : Char.ofNat 0 ∉ name) :
    taskDecode (taskValue name) = some { status := .ready, name := utf8 name } := by
  have hcstr := cstr_eq_self.mpr (zero_not_mem_utf8 hnul)
  have hlen : strlen (utf8 name) ≠ 0 := by
    rw [strlen, hcstr]
    exact fun h => utf8_ne_nil hne (List.length_eq_zero_iff.mp h)
  have hget : jsonObjectGetValue (taskValue name) (ascii "name") = some (.string (utf8 name)) := rfl
  rw [taskValue] at hget ⊢
  simp only [taskDecode, hget, taskCreate, if_neg hlen, hcstr]

theorem decodeTasks_taskValues {names : List GoString} (h : ∀ name ∈ names, name ≠ [] ∧
    Char.ofNat 0 ∉ name) (job : Blueprint.Job) :
    decodeTasks job (names.map taskValue) = some { job with
      tasks := job.tasks ++ names.map fun name => { status := .ready, name := utf8 name } } := by
  induction names generalizing job with
  | nil => simp [decodeTasks]
  | cons name names ih =>
    have hname := h name (List.mem_cons_self ..)
    have hnames := ih (fun x hx => h x (List.mem_cons_of_mem _ hx))
      (jobAddTask job { status := .ready, name := utf8 name })
    rw [List.map_cons, decodeTasks, taskDecode_taskValue hname.1 hname.2]
    refine hnames.trans ?_
    simp only [jobAddTask, List.map_cons, List.append_assoc, List.singleton_append]

/-- The job of a payload, with the id as the `int` of the server. -/
def decodedJob (job : Job) : Blueprint.Job :=
  { id := toCInt job.id.1
    status := .ready
    opts := jobOptsDefault
    tasks := job.tasks.map fun name => { status := .ready, name := utf8 name } }

/-- What `job_decode` makes of the job of a payload. -/
theorem jobDecode_jobValue {job : Job} (hid : 0 < job.id.1) (htasks : job.tasks ≠ [])
    (hnames : ∀ name ∈ job.tasks, name ≠ [] ∧ Char.ofNat 0 ∉ name) :
    jobDecode (jobValue job) = if toCInt job.id.1 ≤ 0 then none else some (decodedJob job) := by
  have hint : rereadInteger job.id.1 = .integer job.id.1 := by
    have := job.id.2
    rw [rereadInteger, if_pos (by simp only [jsonIntMax]; omega)]
  have hvalue : ∃ es, jobValue job = .object es ∧
      jsonObjectGetValue (.object es) (ascii "id") = some (.integer job.id.1) ∧
      jsonObjectGetValue (.object es) (ascii "tasks") = some (.array (job.tasks.map taskValue)) ∧
      jsonObjectGetValue (.object es) (ascii "execMode") = none ∧
      jsonObjectGetValue (.object es) (ascii "runMode") = none := by
    rw [jobValue, if_neg (by omega), if_neg htasks, hint]
    cases job.parallel <;> exact ⟨_, rfl, rfl, rfl, rfl, rfl⟩
  obtain ⟨es, hes, hgetId, hgetTasks, hexec, hrun⟩ := hvalue
  rw [hes, jobDecode, hgetId, hgetTasks]
  by_cases hle : toCInt job.id.1 ≤ 0
  · simp [jobCreate, hle]
  · simp [jobCreate, hle, decodeExecMode, decodeRunMode, hexec, hrun, decodeTasks_taskValues hnames, decodedJob,
      jobOptsDefault]

/-- The server's job is the one that the flags of `run` describe. -/
def RunAgrees (flags : Flags) (jobID : GoInt) (tasksStr : GoString) (parallel : Bool) : Prop :=
  ∃ payload req job, newRunCmd flags jobID tasksStr parallel = some payload ∧
    jsonParse (sendPayload payload) = some req ∧
    Api.pyoneerBlueprintDecode .enough req = some job ∧
    job.1.id = jobID.1 ∧ job.1.tasks.map Task.name = (taskNames tasksStr).map utf8 ∧
    (job.1.opts.execMode = .parallel ↔ parallel = true)

theorem pyoneerBlueprintDecode_payload {payload : CommandPayload} {job : Job}
    (hjob : payload.job = some job) (hid : 0 < job.id.1) (htasks : job.tasks ≠ [])
    (hnames : ∀ name ∈ job.tasks, name ≠ [] ∧ Char.ofNat 0 ∉ name) :
    (toCInt job.id.1 ≤ 0 ∧ Api.pyoneerBlueprintDecode .enough (payloadValue payload) = none) ∨
      (0 < toCInt job.id.1 ∧ ∃ decoded,
        Api.pyoneerBlueprintDecode .enough (payloadValue payload) = some decoded ∧
          decoded.1 = decodedJob job) := by
  have hget : jsonObjectGetValue (payloadValue payload) (ascii "job") = some (jobValue job) := by
    rw [payloadValue, hjob]
    split <;> rfl
  have hdecode := jobDecode_jobValue hid htasks hnames
  unfold Api.pyoneerBlueprintDecode
  rw [hget]
  simp only
  by_cases hle : toCInt job.id.1 ≤ 0
  · rw [if_pos hle] at hdecode
    refine Or.inl ⟨hle, ?_⟩
    split
    · rename_i job' hjob'
      rw [hdecode] at hjob'
      cases hjob'
    · rfl
  · rw [if_neg hle] at hdecode
    refine Or.inr ⟨by omega, ?_⟩
    split
    · rename_i job' hjob'
      exact ⟨_, rfl, Option.some.inj (hjob'.symm.trans hdecode)⟩
    · rename_i hnone
      rw [hnone] at hdecode
      cases hdecode

section Run

variable {flags : Flags} {jobID : GoInt} {tasksStr : GoString} {parallel : Bool}

/-- What the server makes of the payload of `run`. -/
theorem newRunCmd_decoded (hid : 0 < jobID.1) (htasks : parseTasks tasksStr ≠ [])
    (hnul : ∀ name ∈ parseTasks tasksStr, Char.ofNat 0 ∉ name) :
    ∃ payload, newRunCmd flags jobID tasksStr parallel = some payload ∧
      ((toCInt jobID.1 ≤ 0 ∧ Api.pyoneerBlueprintDecode .enough (payloadValue payload) = none) ∨
        (0 < toCInt jobID.1 ∧ ∃ decoded,
          Api.pyoneerBlueprintDecode .enough (payloadValue payload) = some decoded ∧
            decoded.1 = decodedJob ⟨jobID, parseTasks tasksStr, parallel⟩)) := by
  have hnames : ∀ name ∈ parseTasks tasksStr, name ≠ [] ∧ Char.ofNat 0 ∉ name := by
    intro name hname
    refine ⟨?_, hnul name hname⟩
    rw [parseTasks_eq_taskNames] at hname
    exact ne_nil_of_mem_taskNames hname
  obtain ⟨payload, hcmd, hjob⟩ : ∃ payload, newRunCmd flags jobID tasksStr parallel = some payload ∧
      payload.job = some ⟨jobID, parseTasks tasksStr, parallel⟩ := ⟨_, if_neg (by omega), rfl⟩
  have hdecode := pyoneerBlueprintDecode_payload hjob hid htasks hnames
  exact ⟨payload, hcmd, hdecode⟩

/-- In a job that was decoded, the flag is lost and the id is cut. -/
theorem RunAgrees.conditions (hid : 0 < jobID.1) (htasks : parseTasks tasksStr ≠ [])
    (hnul : ∀ name ∈ parseTasks tasksStr, Char.ofNat 0 ∉ name)
    (h : RunAgrees flags jobID tasksStr parallel) : parallel = false ∧ jobID.1 < 2 ^ 31 := by
  obtain ⟨payload', req, job, hcmd', hparse, hjob, hjobId, _, hexec⟩ := h
  obtain ⟨payload, hcmd, hdecode⟩ : ∃ payload, newRunCmd flags jobID tasksStr parallel
    = some payload ∧ _ := newRunCmd_decoded hid htasks hnul
  obtain rfl : payload = payload' := Option.some.inj (hcmd.symm.trans hcmd')
  rw [jsonParse_sendPayload] at hparse
  cases hparse
  rcases hdecode with ⟨_, hnone⟩ | ⟨_, decoded, hsome, hval⟩
  · rw [hnone] at hjob
    cases hjob
  · obtain rfl : decoded = job := Option.some.inj (hsome.symm.trans hjob)
    rw [hval] at hjobId hexec
    refine ⟨?_, (toCInt_eq_self_iff (Int.le_of_lt hid)).mp hjobId⟩
    cases parallel with
    | false => rfl
    | true => cases hexec.mpr rfl

end Run

/-- The server decodes what the client was asked to run exactly if it is
to run one task after the other, under an id that fits an `int` of the
server. -/
theorem runAgrees_iff (flags : Flags) (jobID : GoInt) (tasksStr : GoString) (parallel : Bool)
    (hid : 0 < jobID.1) (htasks : parseTasks tasksStr ≠ [])
    (hnul : ∀ name ∈ parseTasks tasksStr, Char.ofNat 0 ∉ name) :
    RunAgrees flags jobID tasksStr parallel ↔ parallel = false ∧ jobID.1 < 2 ^ 31 := by
  refine ⟨RunAgrees.conditions hid htasks hnul, ?_⟩
  rintro ⟨hparallel, hlt⟩
  obtain ⟨payload, hcmd, hdecode⟩ : ∃ payload, newRunCmd flags jobID tasksStr parallel
    = some payload ∧ _ := newRunCmd_decoded hid htasks hnul
  have hint := (toCInt_eq_self_iff (Int.le_of_lt hid)).mpr hlt
  rcases hdecode with ⟨hle, _⟩ | ⟨_, job, hjob, hval⟩
  · omega
  · refine ⟨payload, _, job, hcmd, jsonParse_sendPayload payload, hjob, ?_, ?_, ?_⟩ <;> rw [hval]
    · exact hint
    · simp [decodedJob, parseTasks_eq_taskNames]
    · simp [decodedJob, jobOptsDefault, hparallel]

/-- `--id 1 --token t`. -/
def someFlags : Flags := { token := "t".toList, workerID := ⟨1, by decide⟩ }

theorem runAgrees_iff_oneTask :
    RunAgrees someFlags ⟨1, by decide⟩ " a.py, ".toList false := by
  exact (runAgrees_iff someFlags ⟨1, by decide⟩ " a.py, ".toList false (by decide) (by decide)
    (by decide)).mpr ⟨rfl, by decide⟩

/-- With `--parallel`, the tasks are run one after the other. -/
theorem runAgrees_not_parallel : ¬ RunAgrees someFlags ⟨1, by decide⟩ "a.py".toList true := by
  intro h
  cases (h.conditions (by decide) (by decide) (by decide)).1

end Pyoneer.Cli
