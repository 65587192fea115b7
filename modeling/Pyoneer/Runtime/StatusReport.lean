/-
Pyoneer.Runtime.StatusReport — the report of `worker_get_status`, and
`worker_status_decode` on it.

A call that nobody disturbs is a chain of its own steps
(`Alone`). The call goes through the tasks three times, in
`update_status`, in `job_get_status` of `job_encode_status` and in the
loop of `job_encode_status`; each loop has a lemma that runs it to its
end. What the call returns is `derivedReport`, whatever state the worker
is in.

`worker_status_map` has four strings and `worker_status_decode` compares
with three of them: `"assigned"` is missing.
-/
import Pyoneer.Runtime.Worker

namespace Pyoneer.Runtime

open Pyoneer.Lib Pyoneer.Shared Pyoneer.Blueprint Relation

/-- The number of a status code. -/
def WorkerStatus.code : WorkerStatus → Int
  | .notAssigned => 0
  | .assigned => 1
  | .notWorking => 2
  | .working => 3

/-- `worker_status_decode`. -/
def workerStatusDecode (value : JsonValue) : Int :=
  match value with
  | .string str =>
    if strcmpEq str (ascii "not_assigned") then WorkerStatus.notAssigned.code
    else if strcmpEq str (ascii "not_working") then WorkerStatus.notWorking.code
    else if strcmpEq str (ascii "working") then WorkerStatus.working.code
    else -1
  | _ => -1

theorem workerStatusDecode_map (st : WorkerStatus) :
    workerStatusDecode (workerStatusMap st) = if st = .assigned then -1 else st.code := by
  cases st <;> rfl

/-! ## What the status is derived from -/

/-- The status that `update_status` derives. -/
def derivedStatus (w : Worker) : WorkerStatus :=
  match w.job with
  | none => .notAssigned
  | some j => workerStatusOf (jobGetStatus (w.core.jobs j))

/-- The report of the worker as it is. -/
def derivedReport (w : Worker) : Report where
  status := derivedStatus w
  job := w.job.map fun j =>
    let job := w.core.jobs j
    { id := job.id, status := jobGetStatus job, tasks := job.tasks.map fun t => (t.status, t.name) }

/-- A job that has not started, or was reset: tasks that are READY or
COMPLETED, one of them READY; an empty job counts by its own status. -/
def Startable (job : Job) : Prop :=
  (∀ t ∈ job.tasks, t.status = .ready ∨ t.status = .completed) ∧
    if job.tasks = [] then job.status = .ready else ∃ t ∈ job.tasks, t.status = .ready

theorem jobGetStatus_ready {job : Job} : jobGetStatus job = .ready ↔ Startable job := by
  unfold jobGetStatus Job.updateStatus Job.putStatus Startable Job.size
  by_cases hnil : job.tasks = []
  · simp [hnil]
  · have hlen : job.tasks.length ≠ 0 := by simpa using hnil
    simp [hlen, hnil, jobStatusOf_ready]

/-! ## The call -/

/-- One step of a call that succeeds. -/
def Alone (a b : Worker × CallPc) : Prop := a.1.callStep a.2 true = some b

theorem Alone.unique : Relator.RightUnique Alone := by
  intro a b c hb hc
  rw [Alone, hb] at hc
  exact Option.some_inj.mp hc

/-- A loop over `n` nodes that changes nothing until its end. -/
theorem loop_runs {w : Worker} {b : Worker × CallPc} {n : Nat} (pc : Nat → CallPc)
    (hstep : ∀ k < n, Alone (w, pc k) (w, pc (k + 1))) (hend : Alone (w, pc n) b) :
    ReflTransGen Alone (w, pc 0) b := by
  have hloop : ∀ k ≤ n, ReflTransGen Alone (w, pc 0) (w, pc k) := by
    intro k hk
    induction k with
    | zero => exact .refl
    | succ k ih => exact (ih (by omega)).tail (hstep k (by omega))
  exact (hloop n le_rfl).tail hend

section Loops

variable {w : Worker} {c : Cmd} {y : Why} {st : WorkerStatus} {j : Nat}

theorem taskStatus_of_lt {job : Job} {k : Nat} (hk : k < job.size) :
    ∃ t, job.tasks[k]? = some t ∧ job.taskStatus k = some t.status := by
  have ht : job.tasks[k]? = some job.tasks[k] := List.getElem?_eq_getElem hk
  exact ⟨job.tasks[k], ht, by rw [Job.taskStatus, ht]; rfl⟩

theorem take_map_succ {α : Type} {job : Job} {k : Nat} {t : Task} (f : Task → α)
    (ht : job.tasks[k]? = some t) :
    (job.tasks.map f).take (k + 1) = (job.tasks.map f).take k ++ [f t] := by
  rw [List.take_add_one, List.getElem?_map, ht]
  rfl

theorem take_map_size {α : Type} (job : Job) (f : Task → α) :
    (job.tasks.map f).take job.size = job.tasks.map f :=
  List.take_of_length_le (by simp [Job.size])

/-- The loop of `update_status`. -/
theorem scan_runs :
    ReflTransGen Alone (w, .scan c y j 0 [])
      ({ w with core := w.core.putStatus j ((w.core.jobs j).tasks.map Task.status) },
        .mapStatus c y j) := by
  refine loop_runs (n := (w.core.jobs j).size)
    (fun k => .scan c y j k (((w.core.jobs j).tasks.map Task.status).take k)) ?_ ?_
  · intro k hk
    obtain ⟨t, ht, hst⟩ := taskStatus_of_lt hk
    simp [Alone, Worker.callStep, hst, take_map_succ Task.status ht]
  · have hnone := Job.taskStatus_none.mpr (le_refl (w.core.jobs j).size)
    simp [Alone, Worker.callStep, hnone, take_map_size]

/-- The loop of `update_status` in `job_encode_status`. -/
theorem encodeScan_runs :
    ReflTransGen Alone (w, .encodeScan c st j 0 [])
      ({ w with core := w.core.putStatus j ((w.core.jobs j).tasks.map Task.status) },
        .encodeStatus c st j) := by
  refine loop_runs (n := (w.core.jobs j).size)
    (fun k => .encodeScan c st j k (((w.core.jobs j).tasks.map Task.status).take k)) ?_ ?_
  · intro k hk
    obtain ⟨t, ht, hst⟩ := taskStatus_of_lt hk
    simp [Alone, Worker.callStep, hst, take_map_succ Task.status ht]
  · have hnone := Job.taskStatus_none.mpr (le_refl (w.core.jobs j).size)
    simp [Alone, Worker.callStep, hnone, take_map_size]

/-- The loop of `job_encode_status` itself. -/
theorem encodeTasks_runs (id : Int) (status : JobStatus) :
    ReflTransGen Alone
      (w, .encodeTasks c st j 0 { id := id, status := status, tasks := [] })
      (w, .unlock c (some
        { status := st
          job := some
            { id := id
              status := status
              tasks := (w.core.jobs j).tasks.map fun t => (t.status, t.name) } })) := by
  refine loop_runs (n := (w.core.jobs j).size)
    (fun k => .encodeTasks c st j k
      { id := id
        status := status
        tasks := ((w.core.jobs j).tasks.map fun t => (t.status, t.name)).take k }) ?_ ?_
  · intro k hk
    obtain ⟨t, ht, _⟩ := taskStatus_of_lt hk
    simp [Alone, Worker.callStep, ht, take_map_succ (fun t => (t.status, t.name)) ht]
  · have hnone : (w.core.jobs j).tasks[(w.core.jobs j).size]? = none :=
      List.getElem?_eq_none (le_refl _)
    simp [Alone, Worker.callStep, hnone, take_map_size]

end Loops

/-- What a call of `worker_get_status` returns. -/
def Returns (w : Worker) (report : Option Report) : Prop :=
  ∃ w', ReflTransGen Alone (w, .enter .getStatus) (w', .returned .getStatus report)

/-- Deriving the status again changes nothing. -/
theorem updateStatus_again (job : Job) : job.updateStatus.updateStatus = job.updateStatus := by
  unfold Job.updateStatus
  rw [Job.tasks_putStatus]
  unfold Job.putStatus
  by_cases hz : job.size = 0
  · simp [hz]
  · have hz' : ({ job with status := jobStatusOf (job.tasks.map Task.status) } : Job).size ≠ 0 := hz
    simp [hz, hz']

theorem id_updateStatus (job : Job) : job.updateStatus.id = job.id := by
  unfold Job.updateStatus Job.putStatus
  split <;> rfl

/-- `update_status` and the report of a job, from a state in which the
call has the lock. -/
theorem report_runs {w : Worker} {c : Cmd} {j : Nat} (hj : w.job = some j) :
    ∃ w', ReflTransGen Alone (w, .update c .report)
      (w', .unlock c (some (derivedReport w))) := by
  have hload : Alone (w, .update c .report) (w, .scan c .report j 0 []) := by
    simp [Alone, Worker.callStep, hj]
  -- the derived status is in `job->status` and then in `worker->status`
  let w₁ : Worker := { w with core := w.core.putStatus j ((w.core.jobs j).tasks.map Task.status) }
  let w₂ : Worker := { w₁ with status := derivedStatus w }
  have hjob : w₁.core.jobs j = (w.core.jobs j).updateStatus := Function.update_self ..
  have hmap : Alone (w₁, .mapStatus c .report j) (w₂, .encode c) := by
    simp [Alone, Worker.callStep, w₂, hjob, derivedStatus, hj, Cmd.updated, jobGetStatus]
  have hencode : Alone (w₂, .encode c) (w₂, .encodeScan c (derivedStatus w) j 0 []) := by
    simp [Alone, Worker.callStep, w₂, w₁, hj]
  -- `job_encode_status` derives it once more, from the same statuses
  let w₃ : Worker :=
    { w₂ with core := w₂.core.putStatus j ((w₂.core.jobs j).tasks.map Task.status) }
  have hjob₃ : w₃.core.jobs j = (w.core.jobs j).updateStatus := by
    have hup : w₃.core.jobs j = (w₁.core.jobs j).updateStatus := Function.update_self ..
    rw [hup, hjob, updateStatus_again]
  have hstatus : Alone (w₃, .encodeStatus c (derivedStatus w) j)
      (w₃, .encodeTasks c (derivedStatus w) j 0
        { id := (w.core.jobs j).id, status := jobGetStatus (w.core.jobs j), tasks := [] }) := by
    simp [Alone, Worker.callStep, hjob₃, id_updateStatus, jobGetStatus]
  have htasks : Relation.ReflTransGen Alone
      (w₃, .encodeTasks c (derivedStatus w) j 0
        { id := (w.core.jobs j).id, status := jobGetStatus (w.core.jobs j), tasks := [] }) _ :=
    encodeTasks_runs _ _
  have hreport : derivedReport w =
      { status := derivedStatus w
        job := some
          { id := (w.core.jobs j).id
            status := jobGetStatus (w.core.jobs j)
            tasks := (w₃.core.jobs j).tasks.map fun t => (t.status, t.name) } } := by
    simp [derivedReport, hj, hjob₃, Job.updateStatus]
  rw [hreport]
  exact ⟨w₃, .head hload (scan_runs.trans (.head hmap (.head hencode (encodeScan_runs.trans
    (.head hstatus htasks)))))⟩

/-- `worker_get_status` returns the report of the worker as it is. -/
theorem returns_derivedReport {w : Worker} (hfree : w.locked = false) :
    Returns w (some (derivedReport w)) := by
  let w₁ : Worker := { w with locked := true }
  have henter : Alone (w, .enter .getStatus) (w₁, .update .getStatus .report) := by
    simp [Alone, Worker.callStep, Request.isCommand, hfree, w₁, Request.place, Cmd.entry]
  cases hj : w.job with
  | none =>
    let w₂ : Worker := { w₁ with status := .notAssigned }
    have hupdate : Alone (w₁, .update .getStatus .report) (w₂, .encode .getStatus) := by
      simp [Alone, Worker.callStep, w₁, w₂, hj, Cmd.updated]
    have hencode : Alone (w₂, .encode .getStatus)
        (w₂, .unlock .getStatus (some (derivedReport w))) := by
      simp [Alone, Worker.callStep, w₂, w₁, hj, derivedReport, derivedStatus]
    exact ⟨{ w₂ with locked := false }, .head henter (.head hupdate (.head hencode (.single rfl)))⟩
  | some j =>
    obtain ⟨w', hrun⟩ := report_runs (w := w₁) (c := .getStatus) hj
    exact ⟨{ w' with locked := false }, .head henter (hrun.tail rfl)⟩

/-- It returns nothing else. -/
theorem Returns.unique {w : Worker} {r r' : Option Report} (h : Returns w r) (h' : Returns w r') :
    r = r' := by
  obtain ⟨w₁, h₁⟩ := h
  obtain ⟨w₂, h₂⟩ := h'
  have hend : ∀ {v r v' r'}, ReflTransGen Alone (v, .returned .getStatus r)
      (v', .returned .getStatus r') → r = r' := by
    intro v r v' r' hrun
    rcases hrun.cases_head with heq | ⟨_, hstep, _⟩
    · cases heq
      rfl
    · cases hstep
  rcases ReflTransGen.total_of_right_unique Alone.unique h₁ h₂ with h | h
  · exact hend h
  · exact (hend h).symm

/-! ## The object -/

/-- The `"job"` entry of a report: null, or the id and, in order, each
task's name with the string of its status. -/
def CarriesJob (w : Worker) (obj : JsonValue) : Prop :=
  match w.job with
  | none => jsonObjectGetValue obj (ascii "job") = some .null
  | some j => ∃ v, jsonObjectGetValue obj (ascii "job") = some v ∧
      jsonObjectGetValue v (ascii "id") = some (.integer (w.core.jobs j).id) ∧
      jsonObjectGetValue v (ascii "tasks") = some (.array
        ((w.core.jobs j).tasks.map fun t => .object
          [(ascii "status", taskStatusMap t.status), (ascii "name", .string (cstr t.name))]))

theorem derivedReport_carriesJob (w : Worker) : CarriesJob w (encodeReport (derivedReport w)) := by
  unfold CarriesJob
  cases hj : w.job with
  | none =>
    simp only [encodeReport, derivedReport, hj]
    rfl
  | some j =>
    simp only [encodeReport, derivedReport, hj, Option.map_some]
    refine ⟨_, rfl, rfl, ?_⟩
    show some (JsonValue.array (List.map _ (List.map _ (w.core.jobs j).tasks))) = _
    rw [List.map_map]
    rfl

/-- The worker is ASSIGNED exactly if its job can start. -/
theorem derivedStatus_assigned {w : Worker} :
    derivedStatus w = .assigned ↔ ∃ j, w.job = some j ∧ Startable (w.core.jobs j) := by
  unfold derivedStatus
  cases hj : w.job with
  | none => simp
  | some j =>
    have hready : jobGetStatus (w.core.jobs j) = .ready ↔ Startable (w.core.jobs j) :=
      jobGetStatus_ready
    cases hst : jobGetStatus (w.core.jobs j) <;> simp_all [workerStatusOf]

/-- What the `"status"` entry of the report decodes to. -/
theorem decode_status (w : Worker) :
    (jsonObjectGetValue (encodeReport (derivedReport w)) (ascii "status")).map workerStatusDecode
      = some (if derivedStatus w = .assigned then -1 else (derivedStatus w).code) := by
  have hget : jsonObjectGetValue (encodeReport (derivedReport w)) (ascii "status")
      = some (workerStatusMap (derivedStatus w)) := by
    unfold encodeReport
    cases (derivedReport w).job <;> rfl
  rw [hget, Option.map_some, workerStatusDecode_map]

/-- **Reports.** A call of `worker_get_status` that nobody disturbs
returns; its object carries the job, and its status decodes to the one
that `update_status` derives exactly if the worker has no job that can
start. -/
theorem worker_status_decode_iff {w : Worker} (hfree : w.locked = false) :
    (∃ report, Returns w (some report)) ∧
      ∀ r, Returns w r → ∃ report, r = some report ∧ CarriesJob w (encodeReport report) ∧
        ((jsonObjectGetValue (encodeReport report) (ascii "status")).map workerStatusDecode
            = some (derivedStatus w).code ↔
          ∀ j, w.job = some j → ¬ Startable (w.core.jobs j)) := by
  have hret := returns_derivedReport hfree
  refine ⟨⟨_, hret⟩, ?_⟩
  intro r hr
  refine ⟨derivedReport w, hr.unique hret, derivedReport_carriesJob w, ?_⟩
  rw [decode_status, Option.some_inj]
  have hassigned := derivedStatus_assigned (w := w)
  by_cases h : derivedStatus w = .assigned
  · obtain ⟨j, hj, hs⟩ := hassigned.mp h
    rw [if_pos h, h]
    constructor
    · intro hcode
      cases hcode
    · intro hno
      exact absurd hs (hno j hj)
  · rw [if_neg h]
    refine ⟨fun _ j hj hs => h (hassigned.mpr ⟨j, hj, hs⟩), fun _ => rfl⟩

/-- A job of two tasks. -/
def twoTaskJob : Decoded :=
  ⟨{ oneTask with tasks := oneTask.tasks ++ [{ name := ascii "b.py", status := .ready }] }, by
    simp [oneTask]⟩

/-- `worker_run` with it; the script of the first task fails, the thread
of the other one cannot be created, and the job thread exits. -/
def failedRun : List Solo.Label :=
  .call (.run twoTaskJob) :: List.replicate 22 (.move true) ++
  List.replicate 4 (.thread 0 (.job true)) ++
  [.thread 0 (.task 0 .spawned), .thread 0 (.task 0 (.finished 256))] ++
  List.replicate 4 (.thread 0 (.job true)) ++ List.replicate 3 (.thread 0 (.job false))

/-- The worker then has a job that cannot start: its status is read back
as the code 2, and the entry of the job has both tasks. -/
theorem failed_reports : ∃ h s, Run Solo.step always Solo.create h s ∧ s.worker.job = some 0 ∧
    (derivedStatus s.worker).code = 2 ∧ ∃ report v, Returns s.worker (some report) ∧
      (jsonObjectGetValue (encodeReport report) (ascii "status")).map workerStatusDecode
        = some 2 ∧
      jsonObjectGetValue (encodeReport report) (ascii "job") = some v ∧
      jsonObjectGetValue v (ascii "id") = some (.integer 1) ∧
      jsonObjectGetValue v (ascii "tasks") = some (.array
        [.object [(ascii "status", .string (ascii "not_ready")),
            (ascii "name", .string (ascii "a.py"))],
          .object [(ascii "status", .string (ascii "ready")),
            (ascii "name", .string (ascii "b.py"))]]) := by
  obtain ⟨h, s, hr, hc⟩ := Run.of_check Solo.step always Solo.create failedRun
    (fun s => !s.worker.locked && s.worker.job == some 0 &&
      derivedStatus s.worker == .notWorking && (s.worker.core.jobs 0).id == 1 &&
      (s.worker.core.jobs 0).tasks == [{ name := ascii "a.py", status := .notReady },
        { name := ascii "b.py", status := .ready }]) (by decide +kernel)
  simp only [Bool.and_eq_true, Bool.not_eq_true', beq_iff_eq] at hc
  obtain ⟨⟨⟨⟨hfree, hjob⟩, hst⟩, hid⟩, htasks⟩ := hc
  have hcode : (derivedStatus s.worker).code = 2 := by rw [hst]; rfl
  obtain ⟨⟨report, hret⟩, hall⟩ := worker_status_decode_iff hfree
  obtain ⟨_, heq, hcarries, hiff⟩ := hall _ hret
  cases heq
  have hno : ∀ j, s.worker.job = some j → ¬ Startable (s.worker.core.jobs j) := by
    rintro j hj ⟨hstart, _⟩
    cases hjob.symm.trans hj
    simp [htasks] at hstart
  simp only [CarriesJob, hjob, hid, htasks] at hcarries
  obtain ⟨v, hv, hvid, hvtasks⟩ := hcarries
  exact ⟨h, s, hr, hjob, hcode, report, v, hret, hcode ▸ hiff.mpr hno, hv, hvid, hvtasks⟩

/-- `worker_assign` with a job of one task, to its end. -/
def assignedRun : List Solo.Label :=
  .call (.assign oneTaskJob) :: List.replicate 16 (.move true)

/-- **A status that does not come back.** After `worker_assign` the
worker is ASSIGNED, code 1, and `worker_status_decode` gives -1 for its
report. -/
theorem assigned_not_decoded : ∃ h s, Run Solo.step always Solo.create h s ∧
    (derivedStatus s.worker).code = 1 ∧
    ∃ report, Returns s.worker (some report) ∧
      (jsonObjectGetValue (encodeReport report) (ascii "status")).map workerStatusDecode
        = some (-1) := by
  obtain ⟨h, s, hr, hc⟩ := Run.of_check Solo.step always Solo.create assignedRun
    (fun s => !s.worker.locked && derivedStatus s.worker == .assigned) (by decide +kernel)
  simp only [Bool.and_eq_true, Bool.not_eq_true', beq_iff_eq] at hc
  refine ⟨h, s, hr, by rw [hc.2]; rfl, derivedReport s.worker, returns_derivedReport hc.1, ?_⟩
  rw [decode_status, if_pos hc.2]

end Pyoneer.Runtime
