/-
Pyoneer.Blueprint.Job — `blueprint/job.c` without its threads: the Job
record, its status, and the JSON it is decoded from and reported as.

The linked list `head … tail` with its counter `size` is the list of
tasks; a node is named by its position. The nodes of a decoded job hold
distinct `Task` objects, so a position also names a task.

`update_status` counts the task statuses in an array and then tests the
counters in the order of the documented priority; `jobStatusOf` does the
same on the list of the statuses that were read.
-/
import Mathlib.Algebra.Group.Int.Defs
import Mathlib.Algebra.Group.Nat.Defs
import Pyoneer.Blueprint.Task

namespace Pyoneer.Blueprint

open Pyoneer.Shared

/-- Job status codes (`JOB_NOT_READY` … `JOB_INCOMPLETE`). -/
inductive JobStatus where
  | notReady | ready | running | completed | incomplete
  deriving DecidableEq, Repr

/-- `job_exec_mode_t`. -/
inductive ExecMode where
  | sequential | parallel
  deriving DecidableEq, Repr

/-- `job_run_mode_t`. -/
inductive RunMode where
  | runOnce | runRepeat
  deriving DecidableEq, Repr

/-- `job_opts_t`. -/
structure JobOpts where
  execMode : ExecMode
  runMode : RunMode
  deriving DecidableEq, Repr

/-- `job_opts_default`. -/
def jobOptsDefault : JobOpts := { execMode := .sequential, runMode := .runOnce }

/-- `struct Job`. -/
structure Job where
  id : Int
  status : JobStatus
  opts : JobOpts
  tasks : List Task
  deriving DecidableEq, Repr

/-- A job of one task. -/
def oneTask : Job where
  id := 1
  status := .ready
  opts := jobOptsDefault
  tasks := [{ status := .ready, name := [97, 46, 112, 121] }]

namespace Job

def size (job : Job) : Nat := job.tasks.length

/-- The status that `task_get_status` reads at node `k`. -/
def taskStatus (job : Job) (k : Nat) : Option TaskStatus := job.tasks[k]?.map Task.status

/-- `task_set_status` on the task of node `k`. -/
def setTaskStatus (job : Job) (k : Nat) (status : TaskStatus) : Job :=
  { job with tasks := job.tasks.modify k fun t => { t with status := status } }

@[simp] theorem size_setTaskStatus (job : Job) (k : Nat) (st : TaskStatus) :
    (job.setTaskStatus k st).size = job.size := by
  simp [size, setTaskStatus]

@[simp] theorem opts_setTaskStatus (job : Job) (k : Nat) (st : TaskStatus) :
    (job.setTaskStatus k st).opts = job.opts := rfl

@[simp] theorem status_setTaskStatus (job : Job) (k : Nat) (st : TaskStatus) :
    (job.setTaskStatus k st).status = job.status := rfl

theorem taskStatus_setTaskStatus (job : Job) (k j : Nat) (st : TaskStatus) :
    (job.setTaskStatus k st).taskStatus j
      = if k = j then (job.taskStatus j).map fun _ => st else job.taskStatus j := by
  simp only [taskStatus, setTaskStatus, List.getElem?_modify]
  cases job.tasks[j]? with
  | none => split <;> rfl
  | some t => split <;> rfl

theorem taskStatus_setTaskStatus_ne (job : Job) {k j : Nat} (st : TaskStatus) (h : k ≠ j) :
    (job.setTaskStatus k st).taskStatus j = job.taskStatus j := by
  rw [taskStatus_setTaskStatus, if_neg h]

theorem taskStatus_isSome {job : Job} {k : Nat} :
    (job.taskStatus k).isSome = true ↔ k < job.size := by
  simp [taskStatus, size]

theorem taskStatus_setTaskStatus_self (job : Job) {k : Nat} (st : TaskStatus)
    (h : k < job.size) : (job.setTaskStatus k st).taskStatus k = some st := by
  obtain ⟨st', hst⟩ := Option.isSome_iff_exists.mp (taskStatus_isSome.mpr h)
  rw [taskStatus_setTaskStatus, if_pos rfl, hst]
  rfl

theorem taskStatus_none {job : Job} {k : Nat} : job.taskStatus k = none ↔ job.size ≤ k := by
  simp [taskStatus, size]

theorem lt_size_of_taskStatus {job : Job} {k : Nat} {st : TaskStatus}
    (h : job.taskStatus k = some st) : k < job.size :=
  taskStatus_isSome.mp (by simp [h])

end Job

/-! ## Status -/

/-- The status that `update_status` of `job.c` derives from the task
statuses it has read: counters tested in the order of priority. -/
def jobStatusOf (seen : List TaskStatus) : JobStatus :=
  if seen.count .running > 0 then .running
  else if seen.count .notReady > 0 then .notReady
  else if seen.count .incomplete > 0 then .incomplete
  else if seen.count .ready > 0 then .ready
  else .completed

/-- The write that ends `update_status`; an empty job keeps its status. -/
def Job.putStatus (job : Job) (seen : List TaskStatus) : Job :=
  if job.size = 0 then job else { job with status := jobStatusOf seen }

/-- `update_status` of `job.c`, undisturbed. -/
def Job.updateStatus (job : Job) : Job := job.putStatus (job.tasks.map Task.status)

/-- `job_get_status`, undisturbed. -/
def jobGetStatus (job : Job) : JobStatus := job.updateStatus.status

@[simp] theorem Job.size_putStatus (job : Job) (seen : List TaskStatus) :
    (job.putStatus seen).size = job.size := by
  unfold Job.putStatus
  split <;> rfl

@[simp] theorem Job.opts_putStatus (job : Job) (seen : List TaskStatus) :
    (job.putStatus seen).opts = job.opts := by
  unfold Job.putStatus
  split <;> rfl

@[simp] theorem Job.taskStatus_putStatus (job : Job) (seen : List TaskStatus) (k : Nat) :
    (job.putStatus seen).taskStatus k = job.taskStatus k := by
  unfold Job.putStatus
  split <;> rfl

@[simp] theorem Job.tasks_putStatus (job : Job) (seen : List TaskStatus) :
    (job.putStatus seen).tasks = job.tasks := by
  unfold Job.putStatus
  split <;> rfl

/-- One RUNNING task is enough for RUNNING. -/
theorem jobStatusOf_running {seen : List TaskStatus} :
    jobStatusOf seen = .running ↔ TaskStatus.running ∈ seen := by
  unfold jobStatusOf
  constructor
  · intro h
    by_contra hn
    rw [if_neg (by simpa [List.count_pos_iff] using hn)] at h
    split at h
    · cases h
    · split at h
      · cases h
      · split at h <;> cases h
  · intro h
    rw [if_pos (List.count_pos_iff.mpr h)]

/-- COMPLETED means that every task read was COMPLETED. -/
theorem jobStatusOf_completed {seen : List TaskStatus} :
    jobStatusOf seen = .completed ↔ ∀ st ∈ seen, st = TaskStatus.completed := by
  unfold jobStatusOf
  simp only [gt_iff_lt, List.count_pos_iff]
  constructor
  · intro h st hst
    split at h
    · cases h
    · split at h
      · cases h
      · split at h
        · cases h
        · split at h
          · cases h
          · cases st <;> simp_all
  · intro h
    have hne : ∀ st, st ≠ TaskStatus.completed → st ∉ seen := fun st hst hm => hst (h st hm)
    simp [hne]

/-- READY means that nothing runs or has failed, and something is left to
run. -/
theorem jobStatusOf_ready {seen : List TaskStatus} :
    jobStatusOf seen = .ready ↔
      (∀ st ∈ seen, st = TaskStatus.ready ∨ st = TaskStatus.completed) ∧ TaskStatus.ready ∈ seen := by
  unfold jobStatusOf
  simp only [gt_iff_lt, List.count_pos_iff]
  constructor
  · intro h
    split at h
    · cases h
    · split at h
      · cases h
      · split at h
        · cases h
        · split at h
          · refine ⟨?_, ‹_›⟩
            intro st hst
            cases st <;> simp_all
          · cases h
  · rintro ⟨hall, hready⟩
    have hno : ∀ st, st ≠ TaskStatus.ready → st ≠ TaskStatus.completed → st ∉ seen := by
      intro st hr hc hm
      rcases hall st hm with h | h
      · exact hr h
      · exact hc h
    simp [hno, hready]

/-! ## Decoding -/

/-- A 64-bit JSON integer passed as a C `int`. -/
def toCInt (n : Int) : Int := n.bmod (2 ^ 32)

theorem toCInt_eq_self_iff {n : Int} (hn : 0 ≤ n) : toCInt n = n ↔ n < 2 ^ 31 := by
  simp only [toCInt, Int.bmod]
  split <;> omega

/-- `job_create`. -/
def jobCreate (id : Int) : Option Job :=
  if id ≤ 0 then none
  else some { id := id, status := .ready, opts := jobOptsDefault, tasks := [] }

/-- `job_add_task`. -/
def jobAddTask (job : Job) (task : Task) : Job := { job with tasks := job.tasks ++ [task] }

/-- The mode read from `"execMode"`; anything not recognised keeps the
default. -/
def decodeExecMode (obj : JsonValue) (mode : ExecMode) : ExecMode :=
  match jsonObjectGetValue obj (ascii "execMode") with
  | some (.string s) =>
    if strcmpEq s (ascii "parallel") then .parallel
    else if strcmpEq s (ascii "sequential") then .sequential
    else mode
  | _ => mode

/-- The mode read from `"runMode"`. -/
def decodeRunMode (obj : JsonValue) (mode : RunMode) : RunMode :=
  match jsonObjectGetValue obj (ascii "runMode") with
  | some (.string s) =>
    if strcmpEq s (ascii "repeat") then .runRepeat
    else if strcmpEq s (ascii "once") then .runOnce
    else mode
  | _ => mode

/-- The loop of `job_decode` over the array of tasks. -/
def decodeTasks (job : Job) : List JsonValue → Option Job
  | [] => some job
  | v :: vs =>
    match taskDecode v with
    | none => none
    | some task => decodeTasks (jobAddTask job task) vs

/-- `job_decode`. -/
def jobDecode (obj : JsonValue) : Option Job :=
  match jsonObjectGetValue obj (ascii "id"), jsonObjectGetValue obj (ascii "tasks") with
  | some (.integer id), some (.array tasks) =>
    match jobCreate (toCInt id) with
    | none => none
    | some job =>
      let opts : JobOpts :=
        { execMode := decodeExecMode obj jobOptsDefault.execMode
          runMode := decodeRunMode obj jobOptsDefault.runMode }
      decodeTasks { job with opts := opts } tasks
  | _, _ => none

theorem taskDecode_status {obj : JsonValue} {task : Task} (h : taskDecode obj = some task) :
    task.status = .ready := by
  unfold taskDecode at h
  split at h
  · split at h
    · unfold taskCreate at h
      split at h
      · cases h
      · cases h
        rfl
    · cases h
  · cases h

theorem decodeTasks_ready {vs : List JsonValue} {job job' : Job}
    (h : decodeTasks job vs = some job') (hjob : ∀ task ∈ job.tasks, task.status = .ready) :
    job'.status = job.status ∧ ∀ task ∈ job'.tasks, task.status = .ready := by
  induction vs generalizing job with
  | nil =>
    cases h
    exact ⟨rfl, hjob⟩
  | cons v vs ih =>
    rw [decodeTasks] at h
    split at h
    · cases h
    · rename_i task htask
      have hready : ∀ t ∈ (jobAddTask job task).tasks, t.status = .ready := by
        intro t ht
        rcases List.mem_append.mp ht with ht | ht
        · exact hjob t ht
        · rw [List.mem_singleton.mp ht]
          exact taskDecode_status htask
      have hdecoded := ih h hready
      exact hdecoded

/-- Nothing of a decoded job has run. -/
theorem jobDecode_ready {obj : JsonValue} {job : Job} (h : jobDecode obj = some job) :
    job.status = .ready ∧ ∀ task ∈ job.tasks, task.status = .ready := by
  unfold jobDecode at h
  split at h
  · split at h
    · cases h
    · rename_i job₀ hcreate
      unfold jobCreate at hcreate
      split at hcreate
      · cases hcreate
      · cases hcreate
        exact decodeTasks_ready h (by simp)
  · cases h

/-! ## Reporting -/

/-- `job_status_map`. -/
def jobStatusMap : JobStatus → JsonValue
  | .notReady => .string (ascii "not_ready")
  | .ready => .string (ascii "ready")
  | .running => .string (ascii "running")
  | .completed => .string (ascii "completed")
  | .incomplete => .string (ascii "incomplete")

/-- The object that `job_encode_status` builds from what it has read:
the job status, then each task's status and name. -/
def encodeJobStatus (status : JobStatus) (tasks : List (TaskStatus × Bytes)) : JsonValue :=
  let obj := jsonObjectPush (.object []) (ascii "status") (jobStatusMap status)
  let items := tasks.map fun t =>
    jsonObjectPush (taskEncodeStatus t.1) (ascii "name") (.string (cstr t.2))
  jsonObjectPush obj (ascii "tasks") (.array items)

end Pyoneer.Blueprint
