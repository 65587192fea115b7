/-
Pyoneer.Runtime.Snapshots — when a status report is a snapshot.

`get_status` reads the statuses of the tasks three times: for
`worker->status`, for the status of the job, and for the list. The job
threads take no lock, so a status may change between two of the three
reads of it, and so may `job->status` between the write that ends a
derivation and the `return` that follows it. `Undisturbed` asks that this
does not happen; then the three parts of the report agree
(`run_report_consistent`). Writes before the first read of a status and
after the last one do no harm, whatever is being read then.
-/
import Pyoneer.Runtime.Liveness
import Pyoneer.Runtime.Exclusion

namespace Pyoneer.Blueprint

/-- The statuses of the tasks, in the order of the list. -/
def Job.statuses (job : Job) : List TaskStatus := job.tasks.map Task.status

namespace Job

variable {job job' : Job}

theorem getElem?_statuses (job : Job) (k : Nat) : job.statuses[k]? = job.taskStatus k := by
  rw [statuses, List.getElem?_map]
  rfl

theorem statuses_congr (h : ∀ i, job'.taskStatus i = job.taskStatus i) :
    job'.statuses = job.statuses := by
  refine List.ext_getElem? fun i => ?_
  rw [getElem?_statuses, getElem?_statuses, h]

theorem take_statuses_congr {k : Nat} (h : ∀ i < k, job'.taskStatus i = job.taskStatus i) :
    job'.statuses.take k = job.statuses.take k := by
  refine List.ext_getElem? fun i => ?_
  rw [List.getElem?_take, List.getElem?_take, getElem?_statuses, getElem?_statuses]
  split
  · rename_i hi
    exact h i hi
  · rfl

theorem drop_statuses_congr {k : Nat} (h : ∀ i, k ≤ i → job'.taskStatus i = job.taskStatus i) :
    job'.statuses.drop k = job.statuses.drop k := by
  refine List.ext_getElem? fun i => ?_
  rw [List.getElem?_drop, List.getElem?_drop, getElem?_statuses, getElem?_statuses]
  exact h (k + i) (Nat.le_add_right k i)

theorem take_statuses_succ {k : Nat} {st : TaskStatus} (h : job.taskStatus k = some st) :
    job.statuses.take (k + 1) = job.statuses.take k ++ [st] := by
  rw [List.take_add_one, getElem?_statuses, h]
  rfl

theorem take_statuses_all {k : Nat} (h : job.taskStatus k = none) :
    job.statuses.take k = job.statuses := by
  refine List.take_of_length_le ?_
  rw [statuses, List.length_map]
  exact taskStatus_none.mp h

/-- What `job_get_status` returns when nothing interferes. -/
theorem jobGetStatus_of_ne_nil (h : job.statuses ≠ []) :
    jobGetStatus job = jobStatusOf job.statuses := by
  have hsize : job.size ≠ 0 := by
    intro hz
    exact h (by simpa [statuses, size] using hz)
  rw [jobGetStatus, updateStatus, putStatus, if_neg hsize]
  rfl

theorem jobGetStatus_congr (h : job'.statuses = job.statuses)
    (hs : job.size = 0 → job'.status = job.status) : jobGetStatus job' = jobGetStatus job := by
  by_cases hne : job.statuses = []
  · have hsize : job.size = 0 := by simpa [statuses, size] using hne
    have hsize' : job'.size = 0 := by simpa [statuses, size] using h.trans hne
    rw [jobGetStatus, jobGetStatus, updateStatus, updateStatus, putStatus, putStatus, if_pos hsize,
      if_pos hsize']
    exact hs hsize
  · rw [jobGetStatus_of_ne_nil hne, jobGetStatus_of_ne_nil (h ▸ hne), h]

@[simp] theorem statuses_putStatus (job : Job) (seen : List TaskStatus) :
    (job.putStatus seen).statuses = job.statuses := by
  rw [statuses, tasks_putStatus]
  rfl

/-- The write that ends a derivation which has read what there is. -/
theorem status_putStatus_statuses (job : Job) :
    (job.putStatus job.statuses).status = jobGetStatus (job.putStatus job.statuses) := by
  have hsame : jobGetStatus (job.putStatus job.statuses) = jobGetStatus job := by
    refine jobGetStatus_congr (statuses_putStatus _ _) fun hz => ?_
    rw [putStatus, if_pos hz]
  rw [hsame]
  rfl

end Job

end Pyoneer.Blueprint

namespace Pyoneer.Runtime

open Pyoneer.Lib Pyoneer.Blueprint

/-- The three parts of a report agree: the status of the job is the one
that the documented priority gives for the tasks listed, and the status
of the worker is the one that belongs to it. -/
def Report.Consistent (report : Report) : Prop :=
  ∀ job, report.job = some job →
    (job.tasks ≠ [] → job.status = jobStatusOf (job.tasks.map Prod.fst)) ∧
      report.status = workerStatusOf job.status

/-- Node `i` of job `j` is between its first and its last read for the
report. -/
def CallPc.watches (w : Worker) : CallPc → Nat → Nat → Bool
  | .scan _ .report j' k _, j, i => j' == j && i.blt k
  | .mapStatus _ .report j', j, _ | .encodeScan _ _ j' _ _, j, _ | .encodeStatus _ _ j', j, _ =>
    j' == j
  | .encode _, j, _ => w.job == some j
  | .encodeTasks _ _ j' k _, j, i => j' == j && k.ble i
  | _, _, _ => false

/-- `job_get_status` is about to return `job->status` for the report. -/
def CallPc.returnsStatus : CallPc → Nat → Bool
  | .mapStatus _ .report j', j | .encodeStatus _ _ j', j => j' == j
  | _, _ => false

namespace Solo

/-- A thread changes a status between two reads of it for the same
report. -/
def disturbs (s : Solo) : Label → Bool
  | .thread t l =>
    match s.worker.core.threadStep t l with
    | none => false
    | some core' =>
      let j := s.worker.core.jobOf t
      let job := s.worker.core.jobs j
      let job' := core'.jobs j
      (List.range job.size).any (fun i =>
        s.pc.watches s.worker j i && job'.taskStatus i != job.taskStatus i) ||
      (s.pc.returnsStatus j && job'.status != job.status)
  | _ => false

/-- No thread changes a status between two reads of it for the same
report. -/
def Undisturbed (_ : History Solo Label) (s : Solo) (l : Label) : Prop := s.disturbs l = false

instance (h : History Solo Label) (s : Solo) (l : Label) : Decidable (Undisturbed h s l) :=
  inferInstanceAs (Decidable (_ = false))

/-! ## The invariant -/

/-- What the parts of the report that are there agree with. -/
def ReportPlace (w : Worker) : CallPc → Prop
  | .scan _ .report j k seen => w.job = some j ∧ seen = (w.core.jobs j).statuses.take k
  | .mapStatus _ .report j =>
    w.job = some j ∧ (w.core.jobs j).status = jobGetStatus (w.core.jobs j)
  | .encode _ => ∀ j, w.job = some j → w.status = workerStatusOf (jobGetStatus (w.core.jobs j))
  | .encodeScan _ st j k seen =>
    st = workerStatusOf (jobGetStatus (w.core.jobs j)) ∧ seen = (w.core.jobs j).statuses.take k
  | .encodeStatus _ st j =>
    st = workerStatusOf (w.core.jobs j).status ∧
      (w.core.jobs j).status = jobGetStatus (w.core.jobs j)
  | .encodeTasks _ st j k report =>
    st = workerStatusOf report.status ∧
      let listed := report.tasks.map Prod.fst ++ (w.core.jobs j).statuses.drop k
      (listed ≠ [] → report.status = jobStatusOf listed)
  | .unlock _ (some report) | .returned _ (some report) => report.Consistent
  | _ => True

section Steps

variable {w w' : Worker} {pc pc' : CallPc} {c : Cmd} {y : Why} {ok : Bool}

/-- A change of the shared memory that leaves alone what the report is
about. -/
theorem ReportPlace.congr {core' : Core} (h : ReportPlace w pc)
    (hempty : ∀ j, (w.core.jobs j).size = 0 → (core'.jobs j).status = (w.core.jobs j).status)
    (hnodes : ∀ j i, pc.watches w j i = true →
      (core'.jobs j).taskStatus i = (w.core.jobs j).taskStatus i)
    (hstatus : ∀ j, pc.returnsStatus j = true → (core'.jobs j).status = (w.core.jobs j).status) :
    ReportPlace { w with core := core' } pc := by
  have hget : ∀ j, (∀ i, pc.watches w j i = true) →
      jobGetStatus (core'.jobs j) = jobGetStatus (w.core.jobs j) := fun j hw =>
    Job.jobGetStatus_congr (Job.statuses_congr fun i => hnodes j i (hw i)) (hempty j)
  cases pc with
  | scan c y j k seen =>
    cases y with
    | guard => exact h
    | report =>
      refine ⟨h.1, h.2.trans (Job.take_statuses_congr fun i hi => ?_).symm⟩
      exact hnodes j i (by simpa [CallPc.watches] using hi)
  | mapStatus c y j =>
    cases y with
    | guard => exact h
    | report =>
      refine ⟨h.1, ?_⟩
      rw [hstatus j (by simp [CallPc.returnsStatus]), hget j (by simp [CallPc.watches])]
      exact h.2
  | encode c =>
    intro j hj
    rw [hget j (by simpa [CallPc.watches] using hj)]
    exact h j hj
  | encodeScan c st j k seen =>
    obtain ⟨hst, hseen⟩ := h
    refine ⟨?_, hseen.trans (Job.take_statuses_congr fun i _ => ?_).symm⟩
    · rw [hget j (by simp [CallPc.watches])]
      exact hst
    · exact hnodes j i (by simp [CallPc.watches])
  | encodeStatus c st j =>
    obtain ⟨hst, hget'⟩ := h
    have hs := hstatus j (by simp [CallPc.returnsStatus])
    refine ⟨hst.trans (by rw [hs]), ?_⟩
    rw [hs, hget j (by simp [CallPc.watches])]
    exact hget'
  | encodeTasks c st j k report =>
    have hdrop : (core'.jobs j).statuses.drop k = (w.core.jobs j).statuses.drop k :=
      Job.drop_statuses_congr fun i hi => hnodes j i (by simpa [CallPc.watches] using hi)
    refine ⟨h.1, ?_⟩
    simp only [hdrop]
    exact h.2
  | unlock c report | returned c report => cases report <;> exact h
  | _ => exact h

/-- A thread leaves the status of an empty job alone. -/
theorem status_of_empty {e e' : JobExec} {l : JobExec.Label} (hs : e.step l = some e')
    (hz : e.job.size = 0) : e'.job.status = e.job.status := by
  cases l with
  | job ok =>
    rcases JobExec.jobStep_job hs with ⟨_, hj⟩ | ⟨k, _, hj⟩ | ⟨k, _, hj⟩ | ⟨k, seen, _, _, hj⟩ <;>
      rw [hj]
    · rw [Job.status_setTaskStatus]
    · rw [Job.status_setTaskStatus]
    · rw [Job.putStatus, if_pos hz]
  | cancelled =>
    obtain ⟨pc, rfl, _⟩ := JobExec.cancelStep_eq hs
    rfl
  | task k a =>
    obtain ⟨_, st, phase, _, rfl⟩ := JobExec.taskStep_eq hs
    rfl

theorem ReportPlace.threadStep {s : Solo} {t : Nat} {l : JobExec.Label} {core' : Core}
    (h : ReportPlace s.worker s.pc) (hok : s.disturbs (.thread t l) = false)
    (hs : s.worker.core.threadStep t l = some core') :
    ReportPlace { s.worker with core := core' } s.pc := by
  simp only [disturbs, hs, Bool.or_eq_false_iff, List.any_eq_false, Bool.and_eq_true,
    List.mem_range, bne_iff_ne] at hok
  obtain ⟨hnodes, hstatus⟩ := hok
  obtain ⟨_, e', he, rfl⟩ := Core.threadStep_eq hs
  have hother : ∀ j, j ≠ s.worker.core.jobOf t →
      (s.worker.core.putExec t e').jobs j = s.worker.core.jobs j :=
    fun j hj => Core.putExec_jobs_ne _ _ _ hj
  refine h.congr (fun j hz => ?_) (fun j i hw => ?_) fun j hr => ?_
  · by_cases hj : j = s.worker.core.jobOf t
    · subst hj
      rw [Core.putExec_jobs_self]
      exact status_of_empty he hz
    · rw [hother j hj]
  · by_cases hj : j = s.worker.core.jobOf t
    · subst hj
      by_cases hi : i < (s.worker.core.jobs (s.worker.core.jobOf t)).size
      · by_contra hne
        exact hnodes i hi ⟨hw, hne⟩
      · have hsize := (JobExec.step_job_frame he).1
        rw [Job.taskStatus_none.mpr (Nat.le_of_not_lt hi), Core.putExec_jobs_self]
        refine Job.taskStatus_none.mpr ?_
        rw [hsize]
        exact Nat.le_of_not_lt hi
    · rw [hother j hj]
  · by_cases hj : j = s.worker.core.jobOf t
    · subst hj
      simpa [hr] using hstatus
    · rw [hother j hj]

/-- The write that ends a derivation, once all there is was read. -/
theorem putStatus_all {core : Core} {j k : Nat} {seen : List TaskStatus}
    (hseen : seen = (core.jobs j).statuses.take k) (hnone : (core.jobs j).taskStatus k = none) :
    (core.putStatus j seen).jobs j = (core.jobs j).putStatus (core.jobs j).statuses := by
  rw [hseen, Job.take_statuses_all hnone]
  simp [Core.putStatus]

theorem ReportPlace.scan {j k : Nat} {seen : List TaskStatus}
    (h : ReportPlace w (.scan c .report j k seen))
    (hs : w.callStep (.scan c .report j k seen) ok = some (w', pc')) : ReportPlace w' pc' := by
  obtain ⟨hj, hseen⟩ := h
  simp only [Worker.callStep] at hs
  split at hs <;> rename_i hst <;> cases hs
  · exact ⟨hj, by rw [hseen, Job.take_statuses_succ hst]⟩
  · refine ⟨hj, ?_⟩
    rw [putStatus_all hseen hst]
    exact Job.status_putStatus_statuses _

theorem ReportPlace.encodeScan {st : WorkerStatus} {j k : Nat} {seen : List TaskStatus}
    (h : ReportPlace w (.encodeScan c st j k seen))
    (hs : w.callStep (.encodeScan c st j k seen) ok = some (w', pc')) : ReportPlace w' pc' := by
  obtain ⟨hst', hseen⟩ := h
  simp only [Worker.callStep] at hs
  split at hs <;> rename_i hst <;> cases hs
  · exact ⟨hst', by rw [hseen, Job.take_statuses_succ hst]⟩
  · have hput := putStatus_all hseen hst
    refine ⟨?_, ?_⟩
    · rw [hput, hst']
      rfl
    · rw [hput]
      exact Job.status_putStatus_statuses _

theorem ReportPlace.encodeTasks {st : WorkerStatus} {j k : Nat} {report : JobReport}
    (h : ReportPlace w (.encodeTasks c st j k report))
    (hs : w.callStep (.encodeTasks c st j k report) ok = some (w', pc')) : ReportPlace w' pc' := by
  obtain ⟨hst, hlisted⟩ := h
  simp only [Worker.callStep] at hs
  split at hs
  · rename_i t ht
    cases hs
    have hget : (w.core.jobs j).statuses[k]? = some t.status := by
      rw [Job.statuses, List.getElem?_map, ht]
      rfl
    obtain ⟨hlt, heq⟩ := List.getElem?_eq_some_iff.mp hget
    have hdrop : (w.core.jobs j).statuses.drop k =
        t.status :: (w.core.jobs j).statuses.drop (k + 1) := by
      rw [List.drop_eq_getElem_cons hlt, heq]
    refine ⟨hst, ?_⟩
    simp only [hdrop] at hlisted
    simpa using hlisted
  · rename_i ht
    cases hs
    have hdrop : (w.core.jobs j).statuses.drop k = [] := by
      refine List.drop_eq_nil_of_le ?_
      rw [Job.statuses, List.length_map]
      exact List.getElem?_eq_none_iff.mp ht
    simp only [hdrop, List.append_nil] at hlisted
    rintro job hjob
    cases hjob
    exact ⟨fun hne => hlisted (by simpa using hne), hst⟩

theorem ReportPlace.callStep (h : ReportPlace w pc) (hs : w.callStep pc ok = some (w', pc')) :
    ReportPlace w' pc' := by
  cases pc with
  | idle | returned c report => simp [Worker.callStep] at hs
  | enter r =>
    simp only [Worker.callStep] at hs
    repeat' split at hs
    all_goals cases hs
    all_goals first | exact trivial | (cases r <;> exact trivial)
  | update c y =>
    simp only [Worker.callStep] at hs
    split at hs <;> rename_i hj <;> cases hs
    · cases y with
      | guard => exact trivial
      | report =>
        intro j hj'
        rw [hj] at hj'
        cases hj'
    · cases y with
      | guard => exact trivial
      | report => exact ⟨hj, rfl⟩
  | scan c y j k seen =>
    cases y with
    | guard =>
      simp only [Worker.callStep] at hs
      split at hs <;> cases hs <;> exact trivial
    | report => exact h.scan hs
  | mapStatus c y j =>
    cases hs
    cases y with
    | guard => exact trivial
    | report =>
      obtain ⟨hj, hget⟩ := h
      intro j' hj'
      obtain rfl : j = j' := Option.some.inj (hj.symm.trans hj')
      exact congrArg workerStatusOf hget
  | decide c =>
    simp only [Worker.callStep] at hs
    split at hs <;> cases hs
    rename_i heq
    rcases Cmd.choose_cases heq with ⟨_, rfl⟩ | ⟨_, rfl⟩ | ⟨_, _, _, rfl⟩ | ⟨_, _, _, rfl⟩ |
      ⟨_, _, _, rfl⟩ | ⟨_, rfl | rfl⟩ <;> exact trivial
  | engine c epc =>
    obtain ⟨core', epc', _, rfl, rfl⟩ := Worker.callStep_engine hs
    cases epc' with
    | done b => cases c <;> cases b <;> exact trivial
    | _ => exact trivial
  | destroyJob c j | setJob c j =>
    cases hs
    exact trivial
  | encode c =>
    simp only [Worker.callStep] at hs
    split at hs
    · cases hs
      exact trivial
    · split at hs <;> rename_i hj <;> cases hs
      · intro job hjob
        cases hjob
      · exact ⟨h _ hj, rfl⟩
  | encodeScan c st j k seen => exact h.encodeScan hs
  | encodeStatus c st j =>
    obtain ⟨hst, hget⟩ := h
    cases hs
    refine ⟨hst, fun hne => ?_⟩
    simp only [List.map_nil, List.nil_append, List.drop_zero] at hne ⊢
    rw [hget, Job.jobGetStatus_of_ne_nil hne]
  | encodeTasks c st j k report => exact h.encodeTasks hs
  | unlock c report =>
    cases hs
    cases report <;> exact h

end Steps

/-- In every run in which no status changes between two reads of it for
the same report, every report that a command returns is consistent. -/
theorem run_report_consistent {h : History Solo Label} {s : Solo} {c : Cmd} {report : Report}
    (hr : Run step Undisturbed create h s) (hpc : s.pc = .returned c (some report)) :
    report.Consistent := by
  have h0 : ReportPlace create.worker create.pc := trivial
  have hi := Run.state_invariant (I := fun s => ReportPlace s.worker s.pc) h0
    (fun _ s l s' hi hok hs => ?_) hr
  · rw [hpc] at hi
    exact hi
  · cases l with
    | call r =>
      simp only [step] at hs
      split at hs <;> cases hs <;> exact trivial
    | move ok =>
      simp only [step] at hs
      split at hs <;> cases hs
      rename_i hcall
      exact hi.callStep hcall
    | thread t l =>
      simp only [step] at hs
      split at hs <;> cases hs
      rename_i hthread
      exact hi.threadStep hok hthread

/-- What a report says of `oneTaskJob`. -/
def oneTaskReport (st : WorkerStatus) (job : JobStatus) (task : TaskStatus) : Report where
  status := st
  job := some { id := 1, status := job, tasks := [(task, [97, 46, 112, 121])] }

/-- A `worker_get_status` up to the loop over the tasks of
`job_encode_status`, on a job whose task has just been started. -/
def reportInTask : List Label :=
  [.call (.run oneTaskJob)] ++ moves 19 ++ List.replicate 4 (.thread 0 (.job true)) ++
    [.call .getStatus] ++ moves 9

/-- The task is started by its thread, finishes after the last read of
its status, and the report is a snapshot. -/
theorem run_report_inTask : ∃ h s report, Run step Undisturbed create h s ∧
    s.pc = .returned .getStatus (some report) ∧ report = oneTaskReport .working .running .running ∧
    (s.worker.core.jobs 0).taskStatus 0 = some .completed ∧ report.Consistent := by
  obtain ⟨h, s, hr, hc⟩ := Run.of_check step Undisturbed create
    (reportInTask ++ [.thread 0 (.task 0 .spawned), .move true,
      .thread 0 (.task 0 (.finished 0)), .move true, .move true])
    (fun s => s.pc == .returned .getStatus (some (oneTaskReport .working .running .running)) &&
      (s.worker.core.jobs 0).taskStatus 0 == some .completed) (by decide +kernel)
  simp only [Bool.and_eq_true, beq_iff_eq] at hc
  exact ⟨h, s, _, hr, hc.1, rfl, hc.2, run_report_consistent hr hc.1⟩

/-- The task finishes before its status is read for the list: the report
says that the job is running, and that its only task is completed. -/
theorem run_report_torn : ∃ h s report, Run step always create h s ∧
    s.pc = .returned .getStatus (some report) ∧
    report = oneTaskReport .working .running .completed ∧ ¬ report.Consistent := by
  obtain ⟨h, s, hr, hc⟩ := Run.of_check step always create
    (reportInTask ++ [.thread 0 (.task 0 .spawned), .thread 0 (.task 0 (.finished 0))] ++ moves 3)
    (fun s => s.pc == .returned .getStatus (some (oneTaskReport .working .running .completed)))
    (by decide +kernel)
  refine ⟨h, s, _, hr, beq_iff_eq.mp hc, rfl, ?_⟩
  intro hcons
  obtain ⟨hstatus, _⟩ := hcons _ rfl
  exact absurd (hstatus (by simp)) (by decide)

end Solo

end Pyoneer.Runtime
