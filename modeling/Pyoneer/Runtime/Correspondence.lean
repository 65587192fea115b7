/-
Pyoneer.Runtime.Correspondence — a report is about the job of the request
that it answers.

Any number of clients share one worker, one lock and one table of jobs,
and the threads write statuses into the jobs all the time. What a report
says of a job besides its statuses is `fixed` when the job is built: the
id and the names. `run_reports_own` follows them from a request to its
reply. A client that has sent a job gets a report on that job, and not
on one that another client has put in its place meanwhile: between the
line that sets `worker->job` and the report the command holds the lock.
A client that has only asked for the status gets a report on a job that
some client has sent, with its names in order.

No step is excluded here. Signals may overlap with commands in any way.
-/
import Pyoneer.Runtime.Ownership

namespace Pyoneer.Blueprint

open Pyoneer.Lib Pyoneer.Shared

/-! ## What stays of a job -/

/-- The id, the options and the names. -/
def Job.fixed (job : Job) : Int × JobOpts × List Bytes :=
  (job.id, job.opts, job.tasks.map Task.name)

theorem Job.fixed_setTaskStatus (job : Job) (k : Nat) (st : TaskStatus) :
    (job.setTaskStatus k st).fixed = job.fixed := by
  have hnames : (job.setTaskStatus k st).tasks.map Task.name = job.tasks.map Task.name := by
    refine List.ext_getElem? fun i => ?_
    rw [Job.setTaskStatus, List.getElem?_map, List.getElem?_map, List.getElem?_modify]
    cases job.tasks[i]? with
    | none => rfl
    | some task => by_cases hk : k = i <;> simp [hk]
  exact congrArg (fun names => (job.id, job.opts, names)) hnames

theorem Job.fixed_putStatus (job : Job) (seen : List TaskStatus) :
    (job.putStatus seen).fixed = job.fixed := by
  rw [Job.putStatus]
  split <;> rfl

theorem JobExec.step_fixed {e e' : JobExec} {l : JobExec.Label} (hs : e.step l = some e') :
    e'.job.fixed = e.job.fixed := by
  cases l with
  | job ok =>
    rcases JobExec.jobStep_job hs with ⟨_, hj⟩ | ⟨k, _, hj⟩ | ⟨k, _, hj⟩ | ⟨k, seen, _, _, hj⟩ <;>
      rw [hj]
    · exact Job.fixed_setTaskStatus ..
    · exact Job.fixed_setTaskStatus ..
    · exact Job.fixed_putStatus ..
  | cancelled =>
    obtain ⟨pc, rfl, _⟩ := JobExec.cancelStep_eq hs
    rfl
  | task k a =>
    obtain ⟨_, st, phase, _, rfl⟩ := JobExec.taskStep_eq hs
    exact Job.fixed_setTaskStatus ..

end Pyoneer.Blueprint

namespace Pyoneer.Runtime

open Pyoneer.Lib Pyoneer.Blueprint Pyoneer.Shared

/-- No job that is there changes in what is fixed. -/
structure Core.Keeps (c c' : Core) : Prop where
  njobs : c.njobs ≤ c'.njobs
  fixed : ∀ j < c.njobs, (c'.jobs j).fixed = (c.jobs j).fixed

theorem Core.Keeps.refl (c : Core) : Core.Keeps c c := ⟨Nat.le_refl _, fun _ _ => rfl⟩

theorem Core.Keeps.of_jobs {c c' : Core} (hn : c'.njobs = c.njobs) (hj : c'.jobs = c.jobs) :
    Core.Keeps c c' := ⟨Nat.le_of_eq hn.symm, fun j _ => by rw [hj]⟩

theorem Core.Keeps.putStatus (c : Core) (j : Nat) (seen : List TaskStatus) :
    Core.Keeps c (c.putStatus j seen) := by
  refine ⟨Nat.le_refl _, fun j' _ => ?_⟩
  exact update_field c.jobs Job.fixed (Job.fixed_putStatus (c.jobs j) seen) j'

theorem Core.Keeps.newJob (c : Core) (job : Job) : Core.Keeps c (c.newJob job) := by
  refine ⟨Nat.le_succ _, fun j hj => ?_⟩
  have hne : j ≠ c.njobs := Nat.ne_of_lt hj
  simp only [Core.newJob, Function.update_of_ne hne]

theorem Core.Keeps.threadStep {c c' : Core} {t : Nat} {l : JobExec.Label}
    (hs : c.threadStep t l = some c') : Core.Keeps c c' := by
  obtain ⟨_, e, he, rfl⟩ := Core.threadStep_eq hs
  refine ⟨Nat.le_refl _, fun j _ => ?_⟩
  exact update_field c.jobs Job.fixed (JobExec.step_fixed he) j

theorem Core.Keeps.engineStep {c c' : Core} {epc epc' : EnginePc} {ok : Bool}
    (hs : engineStep c epc ok = some (c', epc')) : Core.Keeps c c' := by
  cases epc with
  | create j | join r k | swap new =>
    simp only [Runtime.engineStep] at hs
    split at hs <;> cases hs <;> exact .of_jobs rfl rfl
  | recreate r =>
    cases hs
    cases ok <;> exact .of_jobs rfl rfl
  | done b => cases hs
  | _ =>
    cases hs
    exact .of_jobs rfl rfl

/-! ## Requests -/

/-- The job of a request. -/
def Request.decoded : Request → Option Decoded
  | .run job | .assign job => some job
  | .getStatus | .start | .restart | .stop => none

/-- A call gets a job when it has the lock, and never changes in what is
fixed one that is there. -/
theorem Worker.callStep_jobs {w w' : Worker} {pc pc' : CallPc} {ok : Bool}
    (hs : w.callStep pc ok = some (w', pc')) :
    (Core.Keeps w.core w'.core ∧ w'.core.njobs = w.core.njobs) ∨
      ∃ r job, pc = .enter r ∧ r.decoded = some job ∧ w'.core = w.core.newJob job.1 := by
  cases pc with
  | idle | returned c report => cases hs
  | enter r =>
    simp only [Worker.callStep] at hs
    split_ifs at hs <;> cases hs
    · exact .inl ⟨.refl _, rfl⟩
    · cases r with
      | run job | assign job => exact .inr ⟨_, job, rfl, rfl, rfl⟩
      | _ => exact .inl ⟨.refl _, rfl⟩
    · exact .inl ⟨.refl _, rfl⟩
  | engine c epc =>
    obtain ⟨core', epc', he, rfl, rfl⟩ := Worker.callStep_engine hs
    exact .inl ⟨.engineStep he, (engineStep_jobs he).1⟩
  | scan c y j k seen | encodeScan c st j k seen =>
    simp only [Worker.callStep] at hs
    split at hs <;> cases hs
    · exact .inl ⟨.refl _, rfl⟩
    · exact .inl ⟨.putStatus .., rfl⟩
  | destroyJob c j =>
    cases hs
    cases w.job <;> exact .inl ⟨.of_jobs rfl rfl, rfl⟩
  | mapStatus c y j | setJob c j | encodeStatus c st j | unlock c report =>
    cases hs
    exact .inl ⟨.refl _, rfl⟩
  | update c y | decide c | encodeTasks c st j k report =>
    simp only [Worker.callStep] at hs
    split at hs <;> cases hs <;> exact .inl ⟨.refl _, rfl⟩
  | encode c =>
    simp only [Worker.callStep] at hs
    repeat' split at hs
    all_goals cases hs
    all_goals exact .inl ⟨.refl _, rfl⟩

theorem Core.Keeps.callStep {w w' : Worker} {pc pc' : CallPc} {ok : Bool}
    (hs : w.callStep pc ok = some (w', pc')) : Core.Keeps w.core w'.core := by
  rcases Worker.callStep_jobs hs with ⟨hkeeps, _⟩ | ⟨r, job, _, _, hcore⟩
  · exact hkeeps
  · exact hcore ▸ .newJob w.core job.1

namespace Clients

/-- The request that client `i` has made last. -/
def lastRequest : History Clients Label → Nat → Option Request
  | [], _ => none
  | (_, .call k r) :: h, i => if k = i then some r else lastRequest h i
  | (_, .move _ _) :: h, i | (_, .thread _ _) :: h, i => lastRequest h i

/-- Some client has sent the job. -/
def Sent (h : History Clients Label) (job : Decoded) : Prop :=
  ∃ s i r, (s, Label.call i r) ∈ h ∧ r.decoded = some job

theorem Sent.cons {h : History Clients Label} {job : Decoded} (hs : Sent h job)
    (x : Clients × Label) : Sent (x :: h) job := by
  obtain ⟨s, i, r, hmem, hjob⟩ := hs
  exact ⟨s, i, r, List.mem_cons_of_mem _ hmem, hjob⟩

theorem sent_of_lastRequest {h : History Clients Label} {i : Nat} {r : Request} {job : Decoded}
    (hr : lastRequest h i = some r) (hjob : r.decoded = some job) : Sent h job := by
  induction h with
  | nil => cases hr
  | cons x h ih =>
    obtain ⟨s, l⟩ := x
    cases l with
    | call k r' =>
      rw [lastRequest] at hr
      split at hr
      · cases hr
        exact ⟨s, k, r, List.mem_cons_self .., hjob⟩
      · exact (ih hr).cons _
    | move k ok => exact (ih hr).cons _
    | thread t l => exact (ih hr).cons _

end Clients

/-! ## From the request to the report -/

/-- The report says the id and the names of the job, in order. -/
def JobReport.Of (report : JobReport) (job : Decoded) : Prop :=
  report.id = job.1.id ∧ report.tasks.map Prod.snd = job.1.tasks.map Task.name

/-- The request that a call carries out. -/
def Cmd.Carries (core : Core) : Cmd → Request → Prop
  | .run j, .run job | .assign j, .assign job =>
    j < core.njobs ∧ (core.jobs j).fixed = job.1.fixed
  | .getStatus, .getStatus | .start, .start | .restart, .restart | .stop, .stop => True
  | _, _ => False

/-- The report is about job `j`, as far as node `k`. -/
structure JobReport.About (core : Core) (j k : Nat) (report : JobReport) : Prop where
  lt : j < core.njobs
  id : report.id = (core.jobs j).id
  names : report.tasks.map Prod.snd = ((core.jobs j).tasks.map Task.name).take k

/-- The report is about a job: the one that the command brought, if it
brought one. -/
def Report.Answers (core : Core) (c : Cmd) (report : Report) : Prop :=
  (c.job ≠ none → report.job ≠ none) ∧
    ∀ x, report.job = some x → ∃ j, x.About core j (core.jobs j).size ∧
      ∀ j', c.job = some j' → j' = j

/-- What a call knows of its job on the way to the report. -/
def CallPc.Tracks (w : Worker) : CallPc → Prop
  | .update c .report | .scan c .report _ _ _ | .mapStatus c .report _ | .encode c =>
    ∀ j, c.job = some j → w.job = some j
  | .encodeScan c _ j _ _ | .encodeStatus c _ j =>
    j < w.core.njobs ∧ ∀ j', c.job = some j' → j' = j
  | .encodeTasks c _ j k report => report.About w.core j k ∧ ∀ j', c.job = some j' → j' = j
  | .unlock c report | .returned c report => ∀ x, report = some x → x.Answers w.core c
  | _ => True

/-- The call that a client is in, or was in. -/
def CallPc.lastCmd : CallPc → Option Cmd
  | .returned c _ => some c
  | pc => pc.cmd

/-- The request is the one that the client is waiting for. -/
structure CallPc.Place (w : Worker) (r : Option Request) (pc : CallPc) : Prop where
  asked : ∀ r', pc = .enter r' → r = some r'
  carries : ∀ c, pc.lastCmd = some c → ∃ r', r = some r' ∧ c.Carries w.core r'
  tracks : pc.Tracks w

section Keeps

variable {w w' : Worker} {pc : CallPc} {r : Option Request}

theorem Cmd.Carries.keep {core core' : Core} {c : Cmd} {r : Request} (h : c.Carries core r)
    (hk : Core.Keeps core core') : c.Carries core' r := by
  have hjob : ∀ {j : Nat} {job : Decoded}, (j < core.njobs ∧ (core.jobs j).fixed = job.1.fixed) →
      j < core'.njobs ∧ (core'.jobs j).fixed = job.1.fixed :=
    fun h => ⟨Nat.lt_of_lt_of_le h.1 hk.njobs, (hk.fixed _ h.1).trans h.2⟩
  cases c <;> cases r <;> first | exact h | exact hjob h

/-- The call has the job of the request. -/
theorem Cmd.Carries.job {core : Core} {c : Cmd} {r : Request} {job : Decoded}
    (h : c.Carries core r) (hjob : r.decoded = some job) :
    ∃ j, c.job = some j ∧ (core.jobs j).fixed = job.1.fixed := by
  cases c <;> cases r <;> first
    | exact h.elim
    | cases hjob
  all_goals exact ⟨_, rfl, h.2⟩

/-- A report that is about all of a job. -/
theorem JobReport.About.of {core : Core} {j : Nat} {report : JobReport} {job : Decoded}
    (h : report.About core j (core.jobs j).size) (hfixed : (core.jobs j).fixed = job.1.fixed) :
    report.Of job := by
  have hid : (core.jobs j).id = job.1.id := congrArg Prod.fst hfixed
  have hnames : (core.jobs j).tasks.map Task.name = job.1.tasks.map Task.name :=
    congrArg (fun f => f.2.2) hfixed
  refine ⟨h.id.trans hid, ?_⟩
  rw [h.names, ← hnames, List.take_of_length_le]
  exact Nat.le_of_eq (List.length_map ..)

theorem JobReport.About.keep {core core' : Core} {j k : Nat} {report : JobReport}
    (h : report.About core j k) (hk : Core.Keeps core core') : report.About core' j k := by
  have hfixed := hk.fixed j h.lt
  have hid : (core'.jobs j).id = (core.jobs j).id := congrArg Prod.fst hfixed
  have hnames : (core'.jobs j).tasks.map Task.name = (core.jobs j).tasks.map Task.name :=
    congrArg (fun f => f.2.2) hfixed
  exact ⟨Nat.lt_of_lt_of_le h.lt hk.njobs, h.id.trans hid.symm, by rw [h.names, hnames]⟩

theorem Report.Answers.keep {core core' : Core} {c : Cmd} {report : Report}
    (h : report.Answers core c) (hk : Core.Keeps core core') : report.Answers core' c := by
  refine ⟨h.1, fun x hx => ?_⟩
  obtain ⟨j, habout, hown⟩ := h.2 x hx
  have hsize : (core'.jobs j).size = (core.jobs j).size := by
    have hnames := congrArg (fun f => f.2.2.length) (hk.fixed j habout.lt)
    rw [Job.size, Job.size]
    simpa only [Job.fixed, List.length_map] using hnames
  exact ⟨j, hsize ▸ habout.keep hk, hown⟩

theorem CallPc.Tracks.keep (h : pc.Tracks w) (hk : Core.Keeps w.core w'.core)
    (hjob : pc.holdsLock = true → w'.job = w.job) (hshape : pc.Shape) : pc.Tracks w' := by
  cases pc with
  | update c y | scan c y j k seen | mapStatus c y j =>
    cases y with
    | guard => trivial
    | report => exact fun j' hj' => (hjob hshape).trans (h j' hj')
  | encode c => exact fun j' hj' => (hjob hshape).trans (h j' hj')
  | encodeScan c st j k seen | encodeStatus c st j =>
    exact ⟨Nat.lt_of_lt_of_le h.1 hk.njobs, h.2⟩
  | encodeTasks c st j k report => exact ⟨h.1.keep hk, h.2⟩
  | unlock c report | returned c report => exact fun x hx => (h x hx).keep hk
  | _ => trivial

theorem CallPc.Place.keep (h : pc.Place w r) (hk : Core.Keeps w.core w'.core)
    (hjob : pc.holdsLock = true → w'.job = w.job) (hshape : pc.Shape) : pc.Place w' r := by
  refine ⟨h.asked, fun c hc => ?_, h.tracks.keep hk hjob hshape⟩
  obtain ⟨r', hr, hcarries⟩ := h.carries c hc
  exact ⟨r', hr, hcarries.keep hk⟩

end Keeps

section Steps

variable {w w' : Worker} {pc pc' : CallPc} {r : Option Request} {c : Cmd} {ok : Bool}

/-- A call that carries out its request. -/
theorem CallPc.Place.of_cmd (hcmd : pc.lastCmd = some c)
    (hc : ∃ r', r = some r' ∧ c.Carries w.core r') (ht : pc.Tracks w) : pc.Place w r := by
  refine ⟨fun r' h => ?_, fun c' hc' => ?_, ht⟩
  · subst h
    cases hcmd
  · obtain rfl : c = c' := Option.some.inj (hcmd.symm.trans hc')
    exact hc

/-- The call has the lock, or needs none, and begins. -/
theorem CallPc.Place.begin {r₀ : Request} (b : Bool) :
    (r₀.place w.core).2.entry.Place { w with core := (r₀.place w.core).1, locked := b }
      (some r₀) := by
  have hnew : ∀ job : Decoded, w.core.njobs < (w.core.newJob job.1).njobs ∧
      ((w.core.newJob job.1).jobs w.core.njobs).fixed = job.1.fixed := by
    intro job
    simp only [Core.newJob, Function.update_self, Nat.lt_succ_self, and_self]
  cases r₀ with
  | run job | assign job => exact .of_cmd rfl ⟨_, rfl, hnew job⟩ trivial
  | getStatus => exact .of_cmd rfl ⟨_, rfl, trivial⟩ (fun _ h => by cases h)
  | start | restart | stop => exact .of_cmd rfl ⟨_, rfl, trivial⟩ trivial

/-- After `update_status`. -/
theorem CallPc.Place.updated {y : Why} (hc : ∃ r', r = some r' ∧ c.Carries w.core r')
    (ht : (CallPc.mapStatus c y 0).Tracks w) : (c.updated y).Place w r := by
  cases y with
  | guard => exact .of_cmd rfl hc trivial
  | report => exact .of_cmd rfl hc ht

/-- Nothing is reported. -/
theorem CallPc.Place.null (hc : ∃ r', r = some r' ∧ c.Carries w.core r') :
    (CallPc.unlock c none).Place w r ∧ (CallPc.returned c none).Place w r :=
  ⟨.of_cmd rfl hc (fun _ h => by cases h), .of_cmd rfl hc (fun _ h => by cases h)⟩

theorem CallPc.Place.decide (hp : (CallPc.decide c).Place w r)
    (hs : w.callStep (.decide c) ok = some (w', pc')) : pc'.Place w' r := by
  have hc := hp.carries c rfl
  simp only [Worker.callStep] at hs
  split at hs <;> cases hs
  rename_i hchoose
  rcases Cmd.choose_cases hchoose with ⟨_, rfl⟩ | ⟨_, rfl⟩ | ⟨j, _, _, rfl⟩ | ⟨j, _, _, rfl⟩ |
    ⟨j, _, _, rfl⟩ | ⟨_, rfl | rfl⟩
  · exact (CallPc.Place.null hc).1
  · exact (CallPc.Place.null hc).2
  all_goals exact .of_cmd rfl hc trivial

theorem CallPc.Place.engine {epc : EnginePc} (hp : (CallPc.engine c epc).Place w r)
    (hs : w.callStep (.engine c epc) ok = some (w', pc')) : pc'.Place w' r := by
  have hkeeps := Core.Keeps.callStep hs
  obtain ⟨core', epc', _, rfl, rfl⟩ := Worker.callStep_engine hs
  obtain ⟨r', hr, hcarries⟩ := hp.carries c rfl
  have hc : ∃ r', r = some r' ∧ c.Carries core' r' := ⟨r', hr, hcarries.keep hkeeps⟩
  cases epc' with
  | done b =>
    cases c with
    | run j =>
      cases b with
      | true => exact .of_cmd rfl hc trivial
      | false => exact (CallPc.Place.null hc).1
    | _ => exact (CallPc.Place.null hc).2
  | _ => exact .of_cmd rfl hc trivial

theorem CallPc.Place.encode (hjob : ∀ o, w.job = some o → o < w.core.njobs)
    (hp : (CallPc.encode c).Place w r) (hs : w.callStep (.encode c) ok = some (w', pc')) :
    pc'.Place w' r := by
  have hc := hp.carries c rfl
  have ht : ∀ j, c.job = some j → w.job = some j := hp.tracks
  simp only [Worker.callStep] at hs
  split_ifs at hs with hok
  · cases hs
    exact (CallPc.Place.null hc).1
  · cases hw : w.job with
    | none =>
      rw [hw] at hs
      cases hs
      refine .of_cmd rfl hc fun x hx => ?_
      cases hx
      refine ⟨fun hne => ?_, (fun _ h => by cases h)⟩
      obtain ⟨j, hj⟩ := Option.ne_none_iff_exists'.mp hne
      rw [ht j hj] at hw
      cases hw
    | some j =>
      rw [hw] at hs
      cases hs
      refine .of_cmd rfl hc ⟨hjob j hw, fun j' hj' => ?_⟩
      exact Option.some.inj ((ht j' hj').symm.trans hw)

theorem CallPc.Place.encodeTasks {st : WorkerStatus} {j k : Nat} {report : JobReport}
    (hp : (CallPc.encodeTasks c st j k report).Place w r)
    (hs : w.callStep (.encodeTasks c st j k report) ok = some (w', pc')) : pc'.Place w' r := by
  have hc := hp.carries c rfl
  obtain ⟨⟨hlt, hid, hnames⟩, hown⟩ : report.About w.core j k ∧ ∀ j', c.job = some j' → j' = j :=
    hp.tracks
  simp only [Worker.callStep] at hs
  split at hs <;> cases hs
  · rename_i task htask
    refine .of_cmd rfl hc ⟨⟨hlt, hid, ?_⟩, hown⟩
    rw [List.map_append, hnames, List.map_singleton, List.take_add_one, List.getElem?_map, htask]
    rfl
  · rename_i hend
    refine .of_cmd rfl hc fun x hx => ?_
    cases hx
    refine ⟨(fun _ h => by cases h), fun y hy => ?_⟩
    cases hy
    have hsize : (w.core.jobs j).size ≤ k := List.getElem?_eq_none_iff.mp hend
    refine ⟨j, ⟨hlt, hid, ?_⟩, hown⟩
    have hlen : ((w.core.jobs j).tasks.map Task.name).length = (w.core.jobs j).size :=
      List.length_map ..
    rw [hnames, List.take_of_length_le (hlen ▸ hsize), ← hlen, List.take_length]

theorem CallPc.Place.callStep (hshape : pc.Shape) (hjob : ∀ o, w.job = some o → o < w.core.njobs)
    (hp : pc.Place w r) (hs : w.callStep pc ok = some (w', pc')) : pc'.Place w' r := by
  have hkeeps := Core.Keeps.callStep hs
  cases pc with
  | idle | returned c report => cases hs
  | enter r₀ =>
    have hr := hp.asked r₀ rfl
    subst hr
    simp only [Worker.callStep] at hs
    split_ifs at hs <;> cases hs
    · exact ⟨(fun _ h => by cases h), (fun _ h => by cases h), trivial⟩
    · exact .begin true
    · cases r₀ with
      | start => exact @CallPc.Place.begin w .start w.locked
      | restart => exact @CallPc.Place.begin w .restart w.locked
      | stop => exact @CallPc.Place.begin w .stop w.locked
      | _ => contradiction
  | decide c => exact hp.decide hs
  | engine c epc => exact hp.engine hs
  | encode c => exact hp.encode hjob hs
  | encodeTasks c st j k report => exact hp.encodeTasks hs
  | update c y =>
    have hc := hp.carries c rfl
    have ht := hp.tracks
    simp only [Worker.callStep] at hs
    split at hs <;> cases hs
    · exact .updated hc (by cases y <;> exact ht)
    · exact .of_cmd rfl hc (by cases y <;> exact ht)
  | scan c y j k seen =>
    obtain ⟨r', hr, hcarries⟩ := hp.carries c rfl
    have ht := hp.tracks
    simp only [Worker.callStep] at hs
    split at hs <;> cases hs <;>
      exact .of_cmd rfl ⟨r', hr, hcarries.keep hkeeps⟩ (by cases y <;> exact ht)
  | mapStatus c y j =>
    have ht := hp.tracks
    cases hs
    exact .updated (hp.carries c rfl) (by cases y <;> exact ht)
  | destroyJob c j =>
    obtain ⟨r', hr, hcarries⟩ := hp.carries c rfl
    cases hs
    exact .of_cmd rfl ⟨r', hr, hcarries.keep hkeeps⟩ trivial
  | setJob c j =>
    cases hs
    have hshape : c.job = some j := hshape
    exact .of_cmd rfl (hp.carries c rfl) fun j' hj' => hshape.symm.trans hj'
  | encodeScan c st j k seen =>
    obtain ⟨r', hr, hcarries⟩ := hp.carries c rfl
    have ht := hp.tracks
    simp only [Worker.callStep] at hs
    split at hs <;> cases hs <;>
      exact .of_cmd rfl ⟨r', hr, hcarries.keep hkeeps⟩ ht
  | encodeStatus c st j =>
    obtain ⟨hlt, hown⟩ : j < w.core.njobs ∧ ∀ j', c.job = some j' → j' = j := hp.tracks
    cases hs
    exact .of_cmd rfl (hp.carries c rfl) ⟨⟨hlt, rfl, rfl⟩, hown⟩
  | unlock c report =>
    have ht := hp.tracks
    cases hs
    exact .of_cmd rfl (hp.carries c rfl) ht

end Steps

namespace Clients

/-- Every job is one that was sent, and every client is on its way from
its last request to the report on it. -/
structure Corresponds (h : History Clients Label) (s : Clients) : Prop where
  sent : ∀ j < s.worker.core.njobs, ∃ job, Sent h job ∧ (s.worker.core.jobs j).fixed = job.1.fixed
  place : ∀ i, (s.pcs i).Place s.worker (lastRequest h i)

theorem Corresponds.create (n : Nat) : Corresponds [] (create n) :=
  ⟨fun _ hj => absurd hj (Nat.not_lt_zero _),
    fun _ => ⟨(fun _ h => by cases h), (fun _ h => by cases h), trivial⟩⟩

section Steps

variable {s s' : Clients} {h : History Clients Label} {i : Nat}

theorem Corresponds.call {r : Request} (hc : Corresponds h s)
    (hs : s.step (.call i r) = some s') : Corresponds ((s, .call i r) :: h) s' := by
  obtain ⟨rfl, _, _⟩ := step_call hs
  refine ⟨fun j hj => ?_, forall_update
    (P := fun k pc => pc.Place s.worker (lastRequest ((s, .call i r) :: h) k)) ?_ fun k hk => ?_⟩
  · obtain ⟨job, hsent, hfixed⟩ := hc.sent j hj
    exact ⟨job, hsent.cons _, hfixed⟩
  · rw [lastRequest, if_pos rfl]
    refine ⟨fun r' hr' => ?_, (fun _ h => by cases h), trivial⟩
    cases hr'
    rfl
  · rw [lastRequest, if_neg (Ne.symm hk)]
    exact hc.place k

theorem Corresponds.thread {t : Nat} {l : JobExec.Label} (hc : Corresponds h s) (ho : Owned s)
    (hs : s.step (.thread t l) = some s') : Corresponds ((s, .thread t l) :: h) s' := by
  obtain ⟨core', hthread, rfl⟩ := step_thread hs
  have hkeeps := Core.Keeps.threadStep hthread
  obtain ⟨_, e, _, rfl⟩ := Core.threadStep_eq hthread
  refine ⟨fun j hj => ?_, fun k => (hc.place k).keep hkeeps (fun _ => rfl) (ho.fresh.shape k)⟩
  obtain ⟨job, hsent, hfixed⟩ := hc.sent j hj
  exact ⟨job, hsent.cons _, (hkeeps.fixed j hj).trans hfixed⟩

theorem Corresponds.move {ok : Bool} (hc : Corresponds h s) (ho : Owned s)
    (hs : s.step (.move i ok) = some s') : Corresponds ((s, .move i ok) :: h) s' := by
  obtain ⟨w', pc', hcall, rfl⟩ := step_move hs
  have hkeeps := Core.Keeps.callStep hcall
  refine ⟨fun j hj => ?_, forall_update (P := fun k pc => pc.Place w' (lastRequest h k))
    ((hc.place i).callStep (ho.fresh.shape i) ho.fresh.job hcall) fun k hk => ?_⟩
  · by_cases hlt : j < s.worker.core.njobs
    · obtain ⟨job, hsent, hfixed⟩ := hc.sent j hlt
      exact ⟨job, hsent.cons _, (hkeeps.fixed j hlt).trans hfixed⟩
    · -- the job of the request that the call begins with
      rcases Worker.callStep_jobs hcall with ⟨_, hn⟩ | ⟨r, job, hpc, hjob, hcore⟩
      · exact absurd (hn ▸ hj) hlt
      · have hasked := (hc.place i).asked r hpc
        have hj' : j = s.worker.core.njobs := by
          have hj' : j < s.worker.core.njobs + 1 := by
            have := hcore ▸ hj
            exact this
          omega
        refine ⟨job, (sent_of_lastRequest hasked hjob).cons _, ?_⟩
        simp only [hcore, hj', Core.newJob, Function.update_self]
  · refine (hc.place k).keep hkeeps (fun hlock => ?_) (ho.fresh.shape k)
    rcases Worker.callStep_replaces (ho.fresh.shape i) hcall with ⟨hjob, _⟩ |
      ⟨c, j, _, _, rfl⟩ | ⟨c, j, hpc, _, _⟩
    · exact hjob
    · rfl
    · -- only the holder of the lock sets the job
      have hown : (s.pcs i).own = some j := by rw [hpc]; rfl
      exact absurd (ho.unique k i hlock (CallPc.holdsLock_of_own (ho.fresh.shape i) hown)) hk

theorem Corresponds.step {l : Label} (hc : Corresponds h s) (ho : Owned s)
    (hs : s.step l = some s') : Corresponds ((s, l) :: h) s' := by
  cases l with
  | call i r => exact hc.call hs
  | move i ok => exact hc.move ho hs
  | thread t l => exact hc.thread ho hs

end Steps

theorem run_corresponds {n : Nat} {ok : History Clients Label → Clients → Label → Prop}
    {h : History Clients Label} {s : Clients} (hr : Run step ok (create n) h s) :
    Corresponds h s :=
  (Run.invariant (I := fun h s => Owned s ∧ Corresponds h s) ⟨.create n, .create n⟩
    (fun _ _ _ _ hi _ hs => ⟨hi.1.step hs, hi.2.step hi.1 hs⟩) hr).2

/-- What a returned report says. -/
theorem Corresponds.reports {h : History Clients Label} {s : Clients} {i : Nat} {c : Cmd}
    {report : Report} (hc : Corresponds h s) (hpc : s.pcs i = .returned c (some report)) :
    ∃ r, lastRequest h i = some r ∧
      (∀ job, r.decoded = some job → ∃ x, report.job = some x ∧ x.Of job) ∧
      ∀ x, report.job = some x → ∃ job, Sent h job ∧ x.Of job := by
  obtain ⟨hsent, hplace⟩ := hc
  have hp := hplace i
  rw [hpc] at hp
  obtain ⟨r, hlast, hcarries⟩ := hp.carries c rfl
  obtain ⟨hsome, habout⟩ : report.Answers s.worker.core c := hp.tracks report rfl
  refine ⟨r, hlast, fun job hjob => ?_, fun x hx => ?_⟩
  · obtain ⟨j, hj, hfixed⟩ := hcarries.job hjob
    obtain ⟨x, hx⟩ := Option.ne_none_iff_exists'.mp (hsome (hj ▸ Option.some_ne_none j))
    obtain ⟨j', hx', hown⟩ := habout x hx
    obtain rfl := hown j hj
    exact ⟨x, hx, hx'.of hfixed⟩
  · obtain ⟨j, hx', _⟩ := habout x hx
    obtain ⟨job, hs, hfixed⟩ := hsent j hx'.lt
    exact ⟨job, hs, hx'.of hfixed⟩

/-- A client gets a report on the job that it has sent; if it has sent
none, on one that some client has sent. -/
theorem run_reports_own {n : Nat} {ok : History Clients Label → Clients → Label → Prop}
    {h : History Clients Label} {s : Clients} {i : Nat} {c : Cmd} {report : Report}
    (hr : Run step ok (create n) h s) (hpc : s.pcs i = .returned c (some report)) :
    ∃ r, lastRequest h i = some r ∧
      (∀ job, r.decoded = some job → ∃ x, report.job = some x ∧ x.Of job) ∧
      ∀ x, report.job = some x → ∃ job, Sent h job ∧ x.Of job :=
  (run_corresponds hr).reports hpc

/-- Client 0 assigns a job, client 1 asks for the status. -/
def assignThenStatus : List Label :=
  .call 0 (.assign oneTaskJob) :: List.replicate 16 (.move 0 true) ++
    .call 1 .getStatus :: List.replicate 12 (.move 1 true)

/-- The report on that job. -/
def oneTaskReport : Report :=
  { status := .assigned
    job := some { id := 1, status := .ready, tasks := [(.ready, [97, 46, 112, 121])] } }

/-- Client 0 has a report on the job that it has sent, client 1 one on a
job that some client has sent. -/
theorem run_reports_own_assigned : ∃ h s, Run step always (create 2) h s ∧
    s.pcs 0 = .returned (.assign 0) (some oneTaskReport) ∧
    s.pcs 1 = .returned .getStatus (some oneTaskReport) ∧
    (∃ x, oneTaskReport.job = some x ∧ x.Of oneTaskJob) ∧
    ∀ x, oneTaskReport.job = some x → ∃ job, Sent h job ∧ x.Of job := by
  have hrun : (replay step always [] (create 2) assignThenStatus).any (fun p =>
      decide (lastRequest p.1 0 = some (.assign oneTaskJob)) &&
        decide (p.2.pcs 0 = .returned (.assign 0) (some oneTaskReport)) &&
        decide (p.2.pcs 1 = .returned .getStatus (some oneTaskReport))) = true := by
    decide +kernel
  simp only [Option.any_eq_true, Bool.and_eq_true, decide_eq_true_eq] at hrun
  obtain ⟨⟨h, s⟩, hreplay, ⟨hlast, hpc⟩, hpc'⟩ := hrun
  have hr : Run step always (create 2) h s := Run.of_replay _ hreplay
  obtain ⟨r, hr', hown, -⟩ := run_reports_own hr hpc
  obtain ⟨-, -, -, hsent⟩ := run_reports_own hr hpc'
  rw [hlast] at hr'
  cases hr'
  exact ⟨h, s, hr, hpc, hpc', hown oneTaskJob rfl, hsent⟩

end Clients

end Pyoneer.Runtime
