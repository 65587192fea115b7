/-
Pyoneer.Blueprint.JobEncode — `job_encode`, and the way back through
`job_decode`.

The two sides spell the keys and the modes on their own, and a mode that
the decoder does not know becomes the default without an error. What
comes back is the job with its tasks READY: statuses are not written.
-/
import Pyoneer.Blueprint.JobFormat

namespace Pyoneer.Blueprint

open Pyoneer.Shared

/-- `task_encode`. -/
def taskEncode (task : Task) : JsonValue :=
  jsonObjectPush (.object []) (ascii "name") (.string (cstr task.name))

/-- `job_exec_mode_map`. -/
def jobExecModeMap : ExecMode → Bytes
  | .parallel => ascii "parallel"
  | .sequential => ascii "sequential"

/-- `job_run_mode_map`. -/
def jobRunModeMap : RunMode → Bytes
  | .runOnce => ascii "once"
  | .runRepeat => ascii "repeat"

/-- `job_encode`. -/
def jobEncode (job : Job) : JsonValue :=
  let obj := jsonObjectPush (.object []) (ascii "id") (.integer job.id)
  let obj := jsonObjectPush obj (ascii "execMode")
    (.string (cstr (jobExecModeMap job.opts.execMode)))
  let obj := jsonObjectPush obj (ascii "runMode")
    (.string (cstr (jobRunModeMap job.opts.runMode)))
  jsonObjectPush obj (ascii "tasks") (.array (job.tasks.map taskEncode))

/-- The `job_opts_t` of a caller: `size` is how much of the record the
caller knows. -/
structure JobOptsArg where
  size : Nat
  opts : JobOpts

/-- `job_set_opts`: as many bytes as the caller has are copied onto the
defaults. The modes are at the offsets 8 and 12; the first byte of each
tells them apart. -/
def jobSetOpts (job : Job) (opts : Option JobOptsArg) : Job :=
  match opts with
  | none => { job with opts := jobOptsDefault }
  | some arg =>
    let execMode := if 8 < arg.size then arg.opts.execMode else jobOptsDefault.execMode
    let runMode := if 12 < arg.size then arg.opts.runMode else jobOptsDefault.runMode
    { job with opts := { execMode := execMode, runMode := runMode } }

/-- The jobs that the functions of `job.h` build, while tasks change
their statuses. -/
inductive Built : Job → Prop where
  | create {id : Int} {job : Job} (hge : 1 ≤ id) (hle : id ≤ intMax)
      (h : jobCreate id = some job) : Built job
  | setOpts {job : Job} (opts : Option JobOptsArg) (h : Built job) : Built (jobSetOpts job opts)
  | addTask {job : Job} {name : Bytes} {task : Task} (hne : name ≠ []) (hnul : (0 : UInt8) ∉ name)
      (htask : taskCreate name = some task) (h : Built job) : Built (jobAddTask job task)
  | setTaskStatus {job : Job} (k : Nat) (st : TaskStatus) (h : Built job) :
      Built (job.setTaskStatus k st)
  | updateStatus {job : Job} (h : Built job) : Built job.updateStatus

/-- What the encoder relies on: an id that an `int` holds, and names that
are C strings. -/
structure Encodable (job : Job) : Prop where
  pos : 1 ≤ job.id
  le : job.id ≤ intMax
  names : ∀ task ∈ job.tasks, task.name ≠ [] ∧ cstr task.name = task.name

theorem mem_setTaskStatus {job : Job} {k : Nat} {st : TaskStatus} {t : Task}
    (h : t ∈ (job.setTaskStatus k st).tasks) : ∃ t' ∈ job.tasks, t.name = t'.name := by
  obtain ⟨j, hj⟩ := List.mem_iff_getElem?.mp h
  rw [Job.setTaskStatus, List.getElem?_modify, Option.map_eq_map, Option.map_eq_some_iff] at hj
  obtain ⟨t', ht', rfl⟩ := hj
  refine ⟨t', List.mem_of_getElem? ht', ?_⟩
  split <;> rfl

theorem Encodable.updateStatus {job : Job} (h : Encodable job) : Encodable job.updateStatus := by
  unfold Job.updateStatus Job.putStatus
  split
  · exact h
  · exact ⟨h.pos, h.le, h.names⟩

theorem Built.encodable {job : Job} (h : Built job) : Encodable job := by
  induction h with
  | create hge hle h =>
    unfold jobCreate at h
    split at h
    · cases h
    · cases h
      exact ⟨hge, hle, by simp⟩
  | setOpts opts _ ih =>
    cases opts with
    | none => exact ⟨ih.pos, ih.le, ih.names⟩
    | some arg => exact ⟨ih.pos, ih.le, ih.names⟩
  | addTask hne hnul htask _ ih =>
    obtain ⟨_, rfl⟩ := taskCreate_eq_some.mp htask
    refine ⟨ih.pos, ih.le, ?_⟩
    intro t ht
    rcases List.mem_append.mp ht with ht | ht
    · exact ih.names t ht
    · rw [List.mem_singleton.mp ht]
      rw [cstr_eq_self.mpr hnul]
      exact ⟨hne, cstr_eq_self.mpr hnul⟩
  | setTaskStatus k st _ ih =>
    refine ⟨ih.pos, ih.le, ?_⟩
    intro t ht
    obtain ⟨t', ht', hname⟩ := mem_setTaskStatus ht
    rw [hname]
    exact ih.names t' ht'
  | updateStatus _ ih => exact ih.updateStatus

/-- A task decodes to its name. -/
theorem taskDecode_taskEncode {task : Task} (hne : task.name ≠ [])
    (hname : cstr task.name = task.name) :
    taskDecode (taskEncode task) = some { task with status := .ready } := by
  show taskCreate (cstr task.name) = _
  rw [hname, taskCreate_eq_some, hname]
  exact ⟨hne, rfl⟩

theorem mapM_taskEncode {tasks : List Task}
    (h : ∀ task ∈ tasks, task.name ≠ [] ∧ cstr task.name = task.name) :
    (tasks.map taskEncode).mapM taskDecode
      = some (tasks.map fun task => { task with status := .ready }) := by
  induction tasks with
  | nil => rfl
  | cons task tasks ih =>
    obtain ⟨hne, hname⟩ := h task List.mem_cons_self
    rw [List.map_cons, List.mapM_cons, taskDecode_taskEncode hne hname,
      ih fun t ht => h t (List.mem_cons_of_mem task ht)]
    rfl

/-- `job_decode` on what `job_encode` wrote. -/
theorem jobDecode_jobEncode {job : Job} (h : Encodable job) :
    jobDecode (jobEncode job)
      = some
        { job with
          status := .ready
          tasks := job.tasks.map fun task => { task with status := .ready } } := by
  have hpos := h.pos
  have hid : toCInt job.id = job.id := (toCInt_eq_self (by omega)).mpr h.le
  have hexec : decodeExecMode (jobEncode job) jobOptsDefault.execMode = job.opts.execMode := by
    show (if strcmpEq (cstr (jobExecModeMap job.opts.execMode)) (ascii "parallel") then _ else _) = _
    cases job.opts.execMode <;> rfl
  have hrun : decodeRunMode (jobEncode job) jobOptsDefault.runMode = job.opts.runMode := by
    show (if strcmpEq (cstr (jobRunModeMap job.opts.runMode)) (ascii "repeat") then _ else _) = _
    cases job.opts.runMode <;> rfl
  rw [jobDecode_eq_some]
  refine ⟨job.id, job.tasks.map taskEncode, _, rfl, rfl, by omega, mapM_taskEncode h.names, ?_⟩
  rw [hexec, hrun, hid]

theorem taskDecode_name {obj : JsonValue} {task : Task} (h : taskDecode obj = some task) :
    task.name ≠ [] ∧ cstr task.name = task.name := by
  unfold taskDecode at h
  split at h
  · split at h
    · obtain ⟨hne, rfl⟩ := taskCreate_eq_some.mp h
      exact ⟨hne, cstr_cstr _⟩
    · cases h
  · cases h

theorem decoded_task_names {ts : List JsonValue} {tasks : List Task}
    (h : List.Forall₂ (fun t task => taskDecode t = some task) ts tasks) :
    ∀ task ∈ tasks, task.name ≠ [] ∧ cstr task.name = task.name := by
  induction h with
  | nil => simp
  | cons htask _ ih => exact List.forall_mem_cons.mpr ⟨taskDecode_name htask, ih⟩

/-- A decoded job can be encoded. -/
theorem encodable_of_jobDecode {v : JsonValue} {job : Job} (h : jobDecode v = some job) :
    Encodable job := by
  obtain ⟨n, ts, tasks, _, _, hpos, hmap, rfl⟩ := jobDecode_eq_some.mp h
  have hle : toCInt n ≤ intMax := by
    unfold toCInt intMax
    rw [Int.bmod]
    omega
  exact ⟨hpos, hle, decoded_task_names (mapM_eq_some_iff.mp hmap)⟩

/-- Encoding and decoding gives a job back, with its tasks READY; for a
job that was decoded this is the job itself. -/
theorem jobDecode_jobEncode_roundtrip :
    (∀ job, Built job → ∃ job', jobDecode (jobEncode job) = some job' ∧ job'.id = job.id ∧
      job'.opts = job.opts ∧ job'.tasks.map Task.name = job.tasks.map Task.name ∧
      ∀ task ∈ job'.tasks, task.status = .ready) ∧
    ∀ v job, jobDecode v = some job → jobDecode (jobEncode job) = some job := by
  constructor
  · intro job hbuilt
    refine ⟨_, jobDecode_jobEncode hbuilt.encodable, rfl, rfl, ?_, ?_⟩
    · rw [List.map_map]
      rfl
    · intro task htask
      obtain ⟨_, _, rfl⟩ := List.mem_map.mp htask
      rfl
  · intro v job hdec
    obtain ⟨hst, htasks⟩ := jobDecode_ready hdec
    have hsame : (job.tasks.map fun task => { task with status := .ready }) = job.tasks := by
      refine (List.map_congr_left ?_).trans (List.map_id job.tasks)
      intro task htask
      rw [← htasks task htask]
      rfl
    rw [jobDecode_jobEncode (encodable_of_jobDecode hdec), hsame, ← hst]

/-- The job 7 with one task, which has failed. -/
def failedJob : Job :=
  { id := 7
    status := .ready
    opts := { execMode := .sequential, runMode := .runRepeat }
    tasks := [{ status := .notReady, name := ascii "a.py" }] }

theorem failedJob_built : Built failedJob := by
  have hcreate : jobCreate 7
      = some { id := 7, status := .ready, opts := jobOptsDefault, tasks := [] } := rfl
  have htask : taskCreate (ascii "a.py") = some { status := .ready, name := ascii "a.py" } := rfl
  have hopts := (Built.create (by decide) (by decide) hcreate).setOpts
    (some { size := 16, opts := { execMode := .sequential, runMode := .runRepeat } })
  exact (Built.addTask (by decide) (by decide) htask hopts).setTaskStatus 0 .notReady

theorem failedJob_roundtrip :
    Built failedJob ∧ ∃ job', jobDecode (jobEncode failedJob) = some job' ∧ job'.id = 7 ∧
      job'.opts = failedJob.opts ∧ job'.tasks.map Task.name = [ascii "a.py"] := by
  refine ⟨failedJob_built, ?_⟩
  obtain ⟨job', hdec, hid, hopts, hnames, _⟩ := jobDecode_jobEncode_roundtrip.1 _ failedJob_built
  exact ⟨job', hdec, hid, hopts, hnames⟩

end Pyoneer.Blueprint
