/-
Pyoneer.Blueprint.JobFormat — the JSON format of a job, and what
`job_decode` accepts of it.

`JobFormat` is the format in its own terms: entries are found by their
names, byte for byte, and the id is a number that a C `int` can hold.
The decoder finds an entry with `strcmp`, so that it also takes one
whose name goes on after a NUL, and it cuts the 64-bit integer of the
parser down to an `int` before it looks at it. A name is copied up to
its first NUL.

`cutEntries` is the value as `strcmp` reads it, with every such text cut
at its first NUL: the decoder accepts what lists an id and tasks THERE
(`jobDecode_lists`). So it meets the format exactly where the value and
what is left of it after the cut describe the same job
(`jobDecode_format_iff`).
-/
import Mathlib.Data.List.Forall2
import Pyoneer.Blueprint.Job
import Pyoneer.Shared.JsonParse

namespace Pyoneer.Blueprint

open Pyoneer.Shared

/-- `INT_MAX`. -/
def intMax : Int := 2 ^ 31 - 1

/-! ## The format -/

/-- The value of the first entry with this name. -/
def firstEntry (es : List (Bytes × JsonValue)) (name : Bytes) : Option JsonValue :=
  (es.find? fun e => e.1 == name).map Prod.snd

/-- The string under `"name"` of an element of `"tasks"`. -/
def nameText : JsonValue → Option Bytes
  | .object es =>
    match firstEntry es (ascii "name") with
    | some (.string name) => some name
    | _ => none
  | _ => none

/-- The names of the tasks of a job. -/
def nameTexts : JsonValue → Option (List Bytes)
  | .object es =>
    match firstEntry es (ascii "tasks") with
    | some (.array ts) => ts.mapM nameText
    | _ => none
  | _ => none

/-- A name that is not empty and does not start with a NUL. -/
def NameOk (name : Bytes) : Prop := name ≠ [] ∧ name.head? ≠ some 0

/-- The value has the id `n` and the tasks `ts`, whatever `n` is. -/
def Lists (es : List (Bytes × JsonValue)) (n : Int) (ts : List JsonValue) : Prop :=
  firstEntry es (ascii "id") = some (.integer n) ∧
    firstEntry es (ascii "tasks") = some (.array ts) ∧
    ∀ t ∈ ts, ∃ name, nameText t = some name ∧ NameOk name

/-- The format of a job. -/
def JobFormat (es : List (Bytes × JsonValue)) (n : Int) (ts : List JsonValue) : Prop :=
  Lists es n ts ∧ 1 ≤ n ∧ n ≤ intMax

/-- The mode that `"execMode"` names, or the default. -/
def namedExecMode (es : List (Bytes × JsonValue)) : ExecMode :=
  match firstEntry es (ascii "execMode") with
  | some (.string s) =>
    if s = ascii "parallel" then .parallel
    else if s = ascii "sequential" then .sequential
    else jobOptsDefault.execMode
  | _ => jobOptsDefault.execMode

/-- The mode that `"runMode"` names, or the default. -/
def namedRunMode (es : List (Bytes × JsonValue)) : RunMode :=
  match firstEntry es (ascii "runMode") with
  | some (.string s) =>
    if s = ascii "repeat" then .runRepeat
    else if s = ascii "once" then .runOnce
    else jobOptsDefault.runMode
  | _ => jobOptsDefault.runMode

/-- The task for an element of `"tasks"`: READY, with what C reads of
the name. -/
def TaskFor (t : JsonValue) (task : Task) : Prop :=
  ∃ name, nameText t = some name ∧ task = { status := .ready, name := cstr name }

/-- `job_get_size`: the counter is an `int`, with one increment for each
task that was added. -/
def jobGetSize (job : Job) : Int := toCInt job.size

/-- The decoder accepts the value exactly if it has the format, and then
the job is the one that the value describes. -/
def DecodesFormat (v : JsonValue) : Prop :=
  ((∃ job, jobDecode v = some job) ↔ ∃ es n ts, v = .object es ∧ JobFormat es n ts) ∧
    ∀ job es n ts, jobDecode v = some job → v = .object es → JobFormat es n ts →
      job.id = n ∧ List.Forall₂ TaskFor ts job.tasks ∧ jobGetSize job = ts.length ∧
        job.opts = { execMode := namedExecMode es, runMode := namedRunMode es }

/-! ## Names and texts with a NUL -/

/-- The entry that `json_object_get_value` finds for `key` has that
name. -/
def Plain (es : List (Bytes × JsonValue)) (key : Bytes) : Prop :=
  ∀ e, getEntry es key = some e → e.1 = key

/-- The lookups for the names of the tasks find what they look for. -/
structure PlainTasks (es : List (Bytes × JsonValue)) : Prop where
  tasks : Plain es (ascii "tasks")
  name : ∀ ts fs, firstEntry es (ascii "tasks") = some (.array ts) → .object fs ∈ ts →
    Plain fs (ascii "name")

/-- On such names `strcmp` finds the first entry with the name. -/
theorem getEntry_plain {es : List (Bytes × JsonValue)} {key : Bytes} (hp : Plain es key) :
    (getEntry es key).map Prod.snd = firstEntry es key := by
  induction es with
  | nil => rfl
  | cons e es ih =>
    by_cases he : strcmpEq e.1 key = true
    · have hget : getEntry (e :: es) key = some e := List.find?_cons_of_pos he
      have hfirst : firstEntry (e :: es) key = some e.2 := by
        rw [firstEntry, List.find?_cons_of_pos (by simp [hp e hget])]
        rfl
      rw [hget, hfirst]
      rfl
    · have hget : getEntry (e :: es) key = getEntry es key := List.find?_cons_of_neg he
      have hne : e.1 ≠ key := by
        intro heq
        rw [heq] at he
        exact he (strcmpEq_iff.mpr rfl)
      have hfirst : firstEntry (e :: es) key = firstEntry es key := by
        simp [firstEntry, hne]
      have hrest : Plain es key := by
        intro e' he'
        exact hp e' (hget.trans he')
      rw [hget, hfirst, ih hrest]

/-- Names without a NUL are found as they are. -/
theorem plain_of_no_nul {es : List (Bytes × JsonValue)} {key : Bytes}
    (hes : ∀ e ∈ es, cstr e.1 = e.1) (hkey : cstr key = key) : Plain es key := by
  intro e he
  obtain ⟨hmem, hname⟩ := getEntry_some he
  rw [← hes e hmem, hname, hkey]

/-! ## The value as `strcmp` reads it -/

/-- The names of the entries, up to the first NUL. -/
def cutNames : JsonValue → JsonValue
  | .object es => .object (es.map fun e => (cstr e.1, e.2))
  | v => v

/-- The texts below an entry of a job that are compared: the names in the
elements of an array, and a string. -/
def cutValue : JsonValue → JsonValue
  | .array ts => .array (ts.map cutNames)
  | .string s => .string (cstr s)
  | v => v

/-- The entries of a job as `strcmp` reads them. -/
def cutEntries (es : List (Bytes × JsonValue)) : List (Bytes × JsonValue) :=
  es.map fun e => (cstr e.1, cutValue e.2)

/-- After the cut, the entry that `strcmp` finds is the first one with
the name. -/
theorem firstEntry_map {es : List (Bytes × JsonValue)} {key : Bytes} (f : JsonValue → JsonValue)
    (hkey : cstr key = key) :
    firstEntry (es.map fun e => (cstr e.1, f e.2)) key
      = ((getEntry es key).map Prod.snd).map f := by
  have hsame : ∀ e : Bytes × JsonValue, (cstr e.1 == key) = strcmpEq e.1 key := by
    intro e
    rw [strcmpEq, hkey]
  simp only [firstEntry, List.find?_map, Function.comp_def, hsame, getEntry]
  cases es.find? fun e => strcmpEq e.1 key <;> rfl

theorem firstEntry_cutEntries {es : List (Bytes × JsonValue)} {key : Bytes}
    (hkey : cstr key = key) :
    firstEntry (cutEntries es) key = ((getEntry es key).map Prod.snd).map cutValue :=
  firstEntry_map cutValue hkey

/-- The name of an element after the cut is the string that the decoder
finds. -/
theorem nameText_cutNames (fs : List (Bytes × JsonValue)) (name : Bytes) :
    nameText (cutNames (.object fs)) = some name ↔
      jsonObjectGetValue (.object fs) (ascii "name") = some (.string name) := by
  have hfind := @firstEntry_map fs (ascii "name") id (by decide)
  simp only [Option.map_id, id] at hfind
  simp only [cutNames, nameText, hfind, jsonObjectGetValue]
  cases (getEntry fs (ascii "name")).map Prod.snd with
  | none => simp
  | some v => cases v <;> simp

/-- Where the name is found as it is, the cut does not change it. -/
theorem nameText_plain {fs : List (Bytes × JsonValue)} (hp : Plain fs (ascii "name")) :
    nameText (cutNames (.object fs)) = nameText (.object fs) := by
  have hfind := @firstEntry_map fs (ascii "name") id (by decide)
  simp only [Option.map_id, id, getEntry_plain hp] at hfind
  simp only [cutNames, nameText, hfind]

/-! ## What the decoder does -/

theorem taskCreate_eq_some {name : Bytes} {task : Task} :
    taskCreate name = some task ↔ cstr name ≠ [] ∧ task = { status := .ready, name := cstr name } := by
  unfold taskCreate strlen
  split
  · rename_i h
    simp [List.length_eq_zero_iff.mp h]
  · rename_i h
    have hne : cstr name ≠ [] := fun hnil => h (List.length_eq_zero_iff.mpr hnil)
    simp [hne, eq_comm]

/-- C reads something of a name exactly if it does not start with a
NUL. -/
theorem cstr_ne_nil {name : Bytes} : cstr name ≠ [] ↔ NameOk name := by
  cases name with
  | nil => simp [cstr, NameOk]
  | cons b bs =>
    by_cases hb : b = 0
    · simp [cstr, NameOk, hb]
    · simp [cstr, NameOk, hb]

/-- `task_decode` looks at the element after the cut. -/
theorem taskDecode_eq_some {t : JsonValue} {task : Task} :
    taskDecode t = some task ↔ ∃ name, nameText (cutNames t) = some name ∧ NameOk name ∧
      task = { status := .ready, name := cstr name } := by
  cases t with
  | object fs =>
    simp only [nameText_cutNames, taskDecode]
    cases jsonObjectGetValue (.object fs) (ascii "name") with
    | none => simp
    | some v => cases v <;> simp [taskCreate_eq_some, cstr_ne_nil]
  | _ => simp [taskDecode, nameText, cutNames]

/-- The loop over the tasks appends the decoded tasks, or fails with one
of them. -/
theorem decodeTasks_eq_mapM (job : Job) (vs : List JsonValue) :
    decodeTasks job vs
      = (vs.mapM taskDecode).map fun tasks => { job with tasks := job.tasks ++ tasks } := by
  induction vs generalizing job with
  | nil => simp [decodeTasks]
  | cons v vs ih =>
    rw [decodeTasks, List.mapM_cons]
    cases taskDecode v with
    | none => rfl
    | some task =>
      simp only [ih, jobAddTask, List.append_assoc, List.singleton_append]
      cases vs.mapM taskDecode <;> rfl

/-- What `job_decode` accepts, and what it makes of it. -/
theorem jobDecode_eq_some {v : JsonValue} {job : Job} :
    jobDecode v = some job ↔ ∃ n ts tasks,
      jsonObjectGetValue v (ascii "id") = some (.integer n) ∧
      jsonObjectGetValue v (ascii "tasks") = some (.array ts) ∧ 0 < toCInt n ∧
      ts.mapM taskDecode = some tasks ∧
      job =
        { id := toCInt n
          status := .ready
          opts :=
            { execMode := decodeExecMode v jobOptsDefault.execMode
              runMode := decodeRunMode v jobOptsDefault.runMode }
          tasks := tasks } := by
  unfold jobDecode
  split
  · rename_i n ts hid htasks
    simp only [hid, htasks, jobCreate]
    by_cases hn : toCInt n ≤ 0
    · have hn' : ¬ 0 < toCInt n := by omega
      simp [hn, hn']
    · have hn' : 0 < toCInt n := by omega
      simp only [hn, if_false, decodeTasks_eq_mapM, List.nil_append]
      cases hm : ts.mapM taskDecode with
      | none => simp [hm]
      | some tasks => simp [hm, hn', eq_comm]
  · rename_i hnot
    constructor
    · intro h
      cases h
    · rintro ⟨n, ts, _, hid, htasks, _⟩
      exact absurd htasks (hnot n ts hid)

/-- `List.mapM` in `Option` goes through the list. -/
theorem mapM_eq_some_iff {α β : Type} {f : α → Option β} {as : List α} {bs : List β} :
    as.mapM f = some bs ↔ List.Forall₂ (fun a b => f a = some b) as bs := by
  induction as generalizing bs with
  | nil => simp [eq_comm]
  | cons a as ih =>
    rw [List.forall₂_cons_left_iff, List.mapM_cons]
    cases hf : f a with
    | none => simp
    | some b =>
      cases hm : as.mapM f with
      | none =>
        have hno : ∀ u, ¬ List.Forall₂ (fun a b => f a = some b) as u := by
          intro u hu
          rw [ih.mpr hu] at hm
          cases hm
        simp [hno]
      | some us =>
        have hus : ∀ u, List.Forall₂ (fun a b => f a = some b) as u ↔ u = us := by
          intro u
          rw [← ih, hm]
          simp [eq_comm]
        simp [hus, eq_comm]

/-- The tasks that the loop decodes. -/
theorem mapM_taskDecode {ts : List JsonValue} {tasks : List Task} :
    ts.mapM taskDecode = some tasks ↔ List.Forall₂ TaskFor (ts.map cutNames) tasks ∧
      ∀ t ∈ ts.map cutNames, ∃ name, nameText t = some name ∧ NameOk name := by
  rw [mapM_eq_some_iff]
  induction ts generalizing tasks with
  | nil => simp
  | cons t ts ih =>
    rw [List.map_cons, List.forall₂_cons_left_iff, List.forall₂_cons_left_iff,
      List.forall_mem_cons]
    constructor
    · rintro ⟨task, tasks', hdec, hrest, rfl⟩
      obtain ⟨name, hname, hok, rfl⟩ := taskDecode_eq_some.mp hdec
      obtain ⟨hall, hnames⟩ := ih.mp hrest
      exact ⟨⟨_, tasks', ⟨name, hname, rfl⟩, hall, rfl⟩, ⟨name, hname, hok⟩, hnames⟩
    · rintro ⟨⟨_, tasks', ⟨name, hname, rfl⟩, hall, rfl⟩, ⟨name', hname', hok⟩, hnames⟩
      rw [hname] at hname'
      cases hname'
      exact ⟨_, tasks', taskDecode_eq_some.mpr ⟨name, hname, hok, rfl⟩, ih.mpr ⟨hall, hnames⟩, rfl⟩

/-- Elements with names have tasks. -/
theorem exists_taskFor {ts : List JsonValue}
    (h : ∀ t ∈ ts, ∃ name, nameText t = some name ∧ NameOk name) :
    ∃ tasks, List.Forall₂ TaskFor ts tasks := by
  induction ts with
  | nil => exact ⟨[], .nil⟩
  | cons t ts ih =>
    obtain ⟨name, hname, _⟩ := h t List.mem_cons_self
    obtain ⟨tasks, htasks⟩ := ih fun t' ht' => h t' (List.mem_cons_of_mem t ht')
    exact ⟨{ status := .ready, name := cstr name } :: tasks, .cons ⟨name, hname, rfl⟩ htasks⟩

/-- What C reads of the name of an element. -/
def readName (t : JsonValue) : Option Bytes := (nameText t).map cstr

/-- The task with that name. -/
def readTask (t : JsonValue) : Option Task :=
  (readName t).map fun name => { status := .ready, name := name }

theorem forall₂_taskFor {ts : List JsonValue} {tasks : List Task} :
    List.Forall₂ TaskFor ts tasks ↔ ts.map readTask = tasks.map some := by
  have hrel : TaskFor = fun t task => readTask t = some task := by
    funext t task
    cases hname : nameText t <;> simp [TaskFor, readTask, readName, hname, eq_comm]
  rw [hrel, ← List.forall₂_eq_eq_eq, List.forall₂_map_left_iff, List.forall₂_map_right_iff]

/-- Elements whose names C reads alike have the same tasks. -/
theorem taskFor_congr {ts ts' : List JsonValue} {tasks : List Task}
    (h : ts.map readName = ts'.map readName) (hall : List.Forall₂ TaskFor ts tasks) :
    List.Forall₂ TaskFor ts' tasks := by
  have hmap : ∀ us : List JsonValue, us.map readTask
      = (us.map readName).map fun o => o.map fun name => { status := .ready, name := name } := by
    intro us
    rw [List.map_map]
    rfl
  rw [forall₂_taskFor, hmap] at hall ⊢
  rw [← h, hall]

/-- Elements with the same tasks have names that C reads alike. -/
theorem readName_of_taskFor {ts ts' : List JsonValue} {tasks : List Task}
    (h : List.Forall₂ TaskFor ts tasks) (h' : List.Forall₂ TaskFor ts' tasks) :
    ts.map readName = ts'.map readName := by
  have hmap : ∀ us : List JsonValue, us.map readName
      = (us.map readTask).map fun o => o.map Task.name := by
    intro us
    rw [List.map_map]
    refine List.map_congr_left fun t _ => ?_
    cases hname : readName t <;> simp [readTask, hname]
  rw [hmap, hmap, forall₂_taskFor.mp h, forall₂_taskFor.mp h']

/-! ## Decoding and the format -/

section Format

variable {es : List (Bytes × JsonValue)} {job : Job} {n : Int} {ts : List JsonValue}

theorem decodeExecMode_named :
    decodeExecMode (.object es) jobOptsDefault.execMode = namedExecMode (cutEntries es) := by
  unfold decodeExecMode namedExecMode
  rw [firstEntry_cutEntries (by decide), jsonObjectGetValue]
  cases (getEntry es (ascii "execMode")).map Prod.snd with
  | none => rfl
  | some v =>
    cases v with
    | string s =>
      have hpar : strcmpEq s (ascii "parallel") = true ↔ cstr s = ascii "parallel" := strcmpEq_iff
      simp only [hpar, Option.map_some, cutValue]
      -- the second comparison chooses between the default and itself
      split
      · rfl
      · split <;> split <;> rfl
    | _ => rfl

theorem decodeRunMode_named :
    decodeRunMode (.object es) jobOptsDefault.runMode = namedRunMode (cutEntries es) := by
  unfold decodeRunMode namedRunMode
  rw [firstEntry_cutEntries (by decide), jsonObjectGetValue]
  cases (getEntry es (ascii "runMode")).map Prod.snd with
  | none => rfl
  | some v =>
    cases v with
    | string s =>
      have hrep : strcmpEq s (ascii "repeat") = true ↔ cstr s = ascii "repeat" := strcmpEq_iff
      simp only [hrep, Option.map_some, cutValue]
      split
      · rfl
      · split <;> split <;> rfl
    | _ => rfl

/-- The decoder finds an integer where the cut value has it. -/
theorem getValue_integer {key : Bytes} (hkey : cstr key = key) :
    jsonObjectGetValue (.object es) key = some (.integer n) ↔
      firstEntry (cutEntries es) key = some (.integer n) := by
  rw [firstEntry_cutEntries hkey, jsonObjectGetValue]
  cases (getEntry es key).map Prod.snd with
  | none => simp
  | some v => cases v <;> simp [cutValue]

/-- It finds an array where the cut value has the array with its names
cut. -/
theorem getValue_array {key : Bytes} (hkey : cstr key = key) {us : List JsonValue} :
    firstEntry (cutEntries es) key = some (.array us) ↔
      ∃ ts, jsonObjectGetValue (.object es) key = some (.array ts) ∧ us = ts.map cutNames := by
  rw [firstEntry_cutEntries hkey, jsonObjectGetValue]
  cases (getEntry es key).map Prod.snd with
  | none => simp
  | some v => cases v <;> simp [cutValue, eq_comm]

/-- What the decoder accepts lists an id and tasks, as `strcmp` reads it,
with an id whose low 32 bits are positive. -/
theorem jobDecode_lists :
    jobDecode (.object es) = some job ↔ ∃ n ts, Lists (cutEntries es) n ts ∧ 0 < toCInt n ∧
      job.id = toCInt n ∧ job.status = .ready ∧ List.Forall₂ TaskFor ts job.tasks ∧
      job.opts = { execMode := namedExecMode (cutEntries es)
                   runMode := namedRunMode (cutEntries es) } := by
  rw [jobDecode_eq_some]
  simp only [@getValue_integer _ _ (ascii "id") (by decide), decodeExecMode_named,
    decodeRunMode_named]
  constructor
  · rintro ⟨n, ts, tasks, hid, htasks, hpos, hmap, rfl⟩
    obtain ⟨hall, hnames⟩ := mapM_taskDecode.mp hmap
    exact ⟨n, _, ⟨hid, (getValue_array (by decide)).mpr ⟨ts, htasks, rfl⟩, hnames⟩, hpos, rfl, rfl,
      hall, rfl⟩
  · rintro ⟨n, us, ⟨hid, htasks, hnames⟩, hpos, hjid, hst, hall, hopts⟩
    obtain ⟨ts, hget, rfl⟩ := (getValue_array (by decide)).mp htasks
    refine ⟨n, ts, job.tasks, hid, hget, hpos, mapM_taskDecode.mpr ⟨hall, hnames⟩, ?_⟩
    cases job
    simp_all

/-- The id and the tasks of a value are determined by it. -/
theorem Lists.unique {n' : Int} {ts' : List JsonValue} (h : Lists es n ts)
    (h' : Lists es n' ts') : n = n' ∧ ts = ts' := by
  have hid := h.1.symm.trans h'.1
  have htasks := h.2.1.symm.trans h'.2.1
  simpa using And.intro hid htasks

/-- A value is accepted if it lists an id and tasks, as `strcmp` reads
it, and the low bits of the id are positive. -/
theorem exists_jobDecode (hl : Lists (cutEntries es) n ts) (hpos : 0 < toCInt n) :
    ∃ job, jobDecode (.object es) = some job := by
  obtain ⟨tasks, htasks⟩ := exists_taskFor hl.2.2
  let job : Job :=
    { id := toCInt n
      status := .ready
      opts := { execMode := namedExecMode (cutEntries es), runMode := namedRunMode (cutEntries es) }
      tasks := tasks }
  exact ⟨job, jobDecode_lists.mpr ⟨n, ts, hl, hpos, rfl, rfl, htasks, rfl⟩⟩

/-- `toCInt` keeps a number exactly if an `int` holds it. -/
theorem toCInt_eq_self {n : Int} (hn : 0 ≤ n) : toCInt n = n ↔ n ≤ intMax := by
  rw [toCInt_eq_self_iff hn, intMax]
  omega

/-- The entries, and what `strcmp` reads of them, describe the same job,
if either describes one: the id that is read may only differ by the bits
that an `int` does not have, and there are no more tasks than an `int`
counts. -/
structure SameJob (es : List (Bytes × JsonValue)) : Prop where
  read : ∀ n ts, JobFormat es n ts → ∃ n' ts', Lists (cutEntries es) n' ts' ∧ 0 < toCInt n'
  meant : ∀ n ts, Lists (cutEntries es) n ts → 0 < toCInt n →
    ∃ ts', JobFormat es (toCInt n) ts' ∧ ts.map readName = ts'.map readName ∧
      (ts.length : Int) ≤ intMax ∧ namedExecMode (cutEntries es) = namedExecMode es ∧
      namedRunMode (cutEntries es) = namedRunMode es

/-- The decoder meets the format on such a value. -/
theorem SameJob.decodesFormat (hs : SameJob es) : DecodesFormat (.object es) := by
  refine ⟨⟨?_, ?_⟩, ?_⟩
  · rintro ⟨job, hdec⟩
    obtain ⟨n, ts, hl, hpos, _⟩ := jobDecode_lists.mp hdec
    obtain ⟨ts', hformat, _⟩ := hs.meant n ts hl hpos
    exact ⟨es, _, ts', rfl, hformat⟩
  · rintro ⟨es', n, ts, heq, hformat⟩
    cases heq
    obtain ⟨n', ts', hl, hpos⟩ := hs.read n ts hformat
    exact exists_jobDecode hl hpos
  · rintro job es' n ts hdec heq hformat
    cases heq
    obtain ⟨n', ts', hl, hpos, hid, _, htasks, hopts⟩ := jobDecode_lists.mp hdec
    obtain ⟨us, hformat', hnames, hlen, hexec, hrun⟩ := hs.meant n' ts' hl hpos
    obtain ⟨rfl, rfl⟩ := hformat.1.unique hformat'.1
    have htasks' := taskFor_congr hnames htasks
    refine ⟨hid, htasks', ?_, ?_⟩
    · rw [jobGetSize, Job.size, ← htasks'.length_eq, toCInt_eq_self (Int.natCast_nonneg _),
        htasks'.length_eq, ← htasks.length_eq]
      exact hlen
    · rw [hopts, hexec, hrun]

/-- It meets the format on no other. -/
theorem sameJob_of_decodesFormat (hd : DecodesFormat (.object es)) : SameJob es := by
  obtain ⟨hacc, hjob⟩ := hd
  constructor
  · intro n ts hformat
    obtain ⟨job, hdec⟩ := hacc.mpr ⟨es, n, ts, rfl, hformat⟩
    obtain ⟨n', ts', hl, hpos, _⟩ := jobDecode_lists.mp hdec
    exact ⟨n', ts', hl, hpos⟩
  · intro n ts hl hpos
    obtain ⟨job, hdec⟩ := exists_jobDecode hl hpos
    obtain ⟨es', n', ts', heq, hformat⟩ := hacc.mp ⟨job, hdec⟩
    cases heq
    obtain ⟨hid', htasks', hsize, hopts'⟩ := hjob job es n' ts' hdec rfl hformat
    obtain ⟨n'', us, hl', _, hid, _, htasks, hopts⟩ := jobDecode_lists.mp hdec
    obtain ⟨rfl, rfl⟩ := hl.unique hl'
    obtain rfl : n' = toCInt n := hid'.symm.trans hid
    have hmodes := JobOpts.mk.inj (hopts.symm.trans hopts')
    refine ⟨ts', hformat, readName_of_taskFor htasks htasks', ?_, hmodes.1, hmodes.2⟩
    rw [jobGetSize, Job.size, ← htasks'.length_eq] at hsize
    rw [htasks.length_eq, ← htasks'.length_eq, ← toCInt_eq_self (Int.natCast_nonneg _)]
    exact hsize

end Format

/-- A value that is accepted has an id that an `int` holds, and no more
tasks than an `int` counts. -/
def InRange (es : List (Bytes × JsonValue)) : Prop :=
  ∀ n ts, Lists es n ts → 0 < toCInt n → 1 ≤ n ∧ n ≤ intMax ∧ (ts.length : Int) ≤ intMax

/-- Where nothing is cut, only the range of the numbers matters. -/
theorem sameJob_iff_inRange {es : List (Bytes × JsonValue)} (hcut : cutEntries es = es) :
    SameJob es ↔ InRange es := by
  constructor
  · intro hs n ts hl hpos
    obtain ⟨ts', hformat, _, hlen, _⟩ := hs.meant n ts (hcut.symm ▸ hl) hpos
    obtain ⟨heq, rfl⟩ := hl.unique hformat.1
    rw [heq]
    exact ⟨hformat.2.1, hformat.2.2, hlen⟩
  · intro hr
    constructor
    · rintro n ts ⟨hl, hge, hle⟩
      have hint : toCInt n = n := (toCInt_eq_self (by omega)).mpr hle
      exact ⟨n, ts, hcut.symm ▸ hl, by omega⟩
    · intro n ts hl hpos
      rw [hcut] at hl ⊢
      obtain ⟨hge, hle, hlen⟩ := hr n ts hl hpos
      have hint : toCInt n = n := (toCInt_eq_self (by omega)).mpr hle
      rw [hint]
      exact ⟨ts, ⟨hl, hge, hle⟩, rfl, hlen, rfl, rfl⟩

/-- `job_decode` accepts its format, and nothing else, exactly on the
values that describe the job that `strcmp` and `int` read from them. For
a value without a NUL that is cut, this says that its numbers fit. -/
theorem jobDecode_format_iff (v : JsonValue) :
    (DecodesFormat v ↔ ∀ es, v = .object es → SameJob es) ∧
      ∀ es, v = .object es → cutEntries es = es → (DecodesFormat v ↔ InRange es) := by
  have hobject : ∀ es, DecodesFormat (.object es) ↔ SameJob es := fun es =>
    ⟨sameJob_of_decodesFormat, SameJob.decodesFormat⟩
  refine ⟨?_, ?_⟩
  · cases v with
    | object es => simpa using hobject es
    | _ => simp [DecodesFormat, jobDecode, jsonObjectGetValue]
  · rintro es rfl hcut
    exact (hobject es).trans (sameJob_iff_inRange hcut)

/-- A job with one task, to be run in parallel. -/
def oneTaskEntries : List (Bytes × JsonValue) :=
  [(ascii "id", .integer 7), (ascii "execMode", .string (ascii "parallel")),
    (ascii "tasks", .array [.object [(ascii "name", .string (ascii "a.py"))]])]

theorem oneTask_decodes_format :
    cutEntries oneTaskEntries = oneTaskEntries ∧ DecodesFormat (.object oneTaskEntries) := by
  have hcut : cutEntries oneTaskEntries = oneTaskEntries := rfl
  refine ⟨hcut, ((jobDecode_format_iff _).2 _ rfl hcut).mpr ?_⟩
  rintro n ts ⟨hid, hts, _⟩ _
  cases hid
  cases hts
  decide

/-- The id `2 ^ 32 + 1` is taken for the id 1. -/
theorem jobDecode_wraps_id :
    jobDecode (.object [(ascii "id", .integer 4294967297), (ascii "tasks", .array [])])
        = some { id := 1, status := .ready, opts := jobOptsDefault, tasks := [] } ∧
      ¬ DecodesFormat
        (.object [(ascii "id", .integer 4294967297), (ascii "tasks", .array [])]) := by
  have hdec :
      jobDecode (.object [(ascii "id", .integer 4294967297), (ascii "tasks", .array [])])
        = some { id := 1, status := .ready, opts := jobOptsDefault, tasks := [] } := rfl
  refine ⟨hdec, ?_⟩
  rintro ⟨hacc, _⟩
  obtain ⟨es, n, ts, heq, ⟨hid, _⟩, _, hle⟩ := hacc.mp ⟨_, hdec⟩
  cases heq
  cases hid
  exact absurd hle (by decide)

/-! ## Names -/

section Names

variable {v v' : JsonValue} {job job' : Job} {names : List Bytes}

/-- No name of a task has a NUL in it. -/
def NulFree (v : JsonValue) : Prop :=
  ∀ names, nameTexts v = some names → ∀ name ∈ names, (0 : UInt8) ∉ name

/-- The tasks have the names of their elements, as C reads them. -/
theorem names_of_taskFor {ts : List JsonValue} {tasks : List Task}
    (h : List.Forall₂ TaskFor ts tasks) :
    ∃ names, ts.mapM nameText = some names ∧ tasks.map Task.name = names.map cstr := by
  induction h with
  | nil => exact ⟨[], rfl, rfl⟩
  | cons htask _ ih =>
    obtain ⟨name, hname, rfl⟩ := htask
    obtain ⟨names, hnames, hmap⟩ := ih
    refine ⟨name :: names, ?_, ?_⟩
    · rw [List.mapM_cons, hname, hnames]
      rfl
    · rw [List.map_cons, List.map_cons, hmap]

/-- An accepted job has the names of the request, cut at the first
NUL. -/
theorem decoded_names (hp : ∀ es, v = .object es → PlainTasks es)
    (hdec : jobDecode v = some job) :
    ∃ names, nameTexts v = some names ∧ job.tasks.map Task.name = names.map cstr := by
  obtain ⟨n, ts, tasks, _, htasks, _, hmap, rfl⟩ := jobDecode_eq_some.mp hdec
  cases v with
  | object es =>
    have hplain := hp es rfl
    rw [jsonObjectGetValue, getEntry_plain hplain.tasks] at htasks
    -- no element has another name after the cut
    have hsame : ∀ t ∈ ts, readName (cutNames t) = readName t := by
      intro t ht
      cases t with
      | object fs => rw [readName, nameText_plain (hplain.name ts fs htasks ht), readName]
      | _ => rfl
    have hall : List.Forall₂ TaskFor ts tasks := by
      refine taskFor_congr ?_ (mapM_taskDecode.mp hmap).1
      rw [List.map_map]
      exact List.map_congr_left hsame
    obtain ⟨names, hnames, hcut⟩ := names_of_taskFor hall
    refine ⟨names, ?_, hcut⟩
    rw [nameTexts, htasks]
    exact hnames
  | _ => simp [jsonObjectGetValue] at htasks

/-- Cutting changes nothing exactly if there is nothing to cut. -/
theorem map_cstr_eq_self : names.map cstr = names ↔ ∀ name ∈ names, (0 : UInt8) ∉ name := by
  have hmap := List.map_inj_left (l := names) (f := cstr) (g := id)
  rw [List.map_id] at hmap
  simp only [hmap, id, cstr_eq_self]

/-- The names that are decoded are those of the request exactly if none
of them has a NUL. -/
theorem decoded_names_iff (hp : ∀ es, v = .object es → PlainTasks es)
    (hdec : jobDecode v = some job) :
    nameTexts v = some (job.tasks.map Task.name) ↔ NulFree v := by
  obtain ⟨names, hnames, hcut⟩ := decoded_names hp hdec
  rw [hnames, hcut, Option.some_inj, eq_comm, map_cstr_eq_self]
  constructor
  · intro h names' hnames'
    rw [hnames] at hnames'
    cases hnames'
    exact h
  · intro h
    exact h names hnames

/-- Decoding keeps the names of an accepted request exactly if none has a
NUL, and it tells such requests apart by their names. -/
theorem jobDecode_names_iff (hp : ∀ es, v = .object es → PlainTasks es)
    (hdec : jobDecode v = some job) :
    (nameTexts v = some (job.tasks.map Task.name) ↔ NulFree v) ∧
      ∀ v' job', (∀ es, v' = .object es → PlainTasks es) → jobDecode v' = some job' →
        NulFree v → NulFree v' → nameTexts v ≠ nameTexts v' →
        job.tasks.map Task.name ≠ job'.tasks.map Task.name := by
  refine ⟨decoded_names_iff hp hdec, ?_⟩
  intro v' job' hp' hdec' hfree hfree' hne heq
  apply hne
  calc nameTexts v
      = some (job.tasks.map Task.name) := (decoded_names_iff hp hdec).mpr hfree
    _ = some (job'.tasks.map Task.name) := by rw [heq]
    _ = nameTexts v' := ((decoded_names_iff hp' hdec').mpr hfree').symm

end Names

/-- The job of `oneTaskEntries`. -/
theorem oneTask_keeps_names :
    (∀ es, JsonValue.object oneTaskEntries = .object es → PlainTasks es) ∧
      nameTexts (.object oneTaskEntries) = some [ascii "a.py"] ∧
      NulFree (.object oneTaskEntries) := by
  have hp : ∀ es, JsonValue.object oneTaskEntries = .object es → PlainTasks es := by
    intro es hes
    cases hes
    have hes : ∀ e ∈ oneTaskEntries, cstr e.1 = e.1 := by
      simp only [oneTaskEntries, List.forall_mem_cons]
      decide
    refine ⟨plain_of_no_nul hes (by decide), fun ts fs hts hfs => ?_⟩
    cases hts
    simp only [List.mem_singleton, JsonValue.object.injEq] at hfs
    subst hfs
    refine plain_of_no_nul ?_ (by decide)
    simp only [List.forall_mem_cons]
    decide
  have hdec : jobDecode (.object oneTaskEntries)
      = some
        { id := 7
          status := .ready
          opts := { execMode := .parallel, runMode := .runOnce }
          tasks := [{ status := .ready, name := ascii "a.py" }] } := rfl
  have hnames : nameTexts (.object oneTaskEntries) = some [ascii "a.py"] := rfl
  exact ⟨hp, hnames, (jobDecode_names_iff hp hdec).1.mp hnames⟩

/-- A request for one script. -/
def scriptRequest (name : Bytes) : JsonValue :=
  .object [(ascii "id", .integer 1), (ascii "tasks", .array [.object [(ascii "name", .string name)]])]

/-- The requests for `a` and for `a`, NUL, `b` are parsed as different
names, and decode to the same job. -/
theorem jobDecode_conflates :
    jsonParse (ascii "\x7b\"id\":1,\"tasks\":[\x7b\"name\":\"a\\u0000b\"\x7d]\x7d")
        = some (scriptRequest [97, 0, 98]) ∧
      nameTexts (scriptRequest [97, 0, 98]) = some [[97, 0, 98]] ∧
      nameTexts (scriptRequest [97]) = some [[97]] ∧
      ∃ job, jobDecode (scriptRequest [97, 0, 98]) = some job ∧
        jobDecode (scriptRequest [97]) = some job ∧ job.tasks.map Task.name = [[97]] := by
  refine ⟨rfl, rfl, rfl, _, rfl, rfl, rfl⟩

end Pyoneer.Blueprint
