/-
Pyoneer.Blueprint.Allocation — `blueprint_decode`, `job_decode` and
`task_decode` with the memory that they allocate and release.

`Task`, `job_node`, `Job` and `Blueprint` are objects with their
addresses here; `JobObj.value` is the `Job` of `Blueprint.Job`, whose decoder does
not look at memory. `task_create` does not test what `strdup` returns: a
task whose name is NULL has no block for it, and is decoded all the
same. Its readers are not followed here, so that the value keeps the
text.

Whatever fails on the way, a decoder that returns NULL has released all
that it had allocated, and one that does not has allocated the object
that it returns and nothing else (`jobDecode_live`,
`blueprintDecode_live`).
-/
import Mathlib.Tactic.Abel
import Pyoneer.Lib.Heap
import Pyoneer.Blueprint.Job

namespace Pyoneer.Blueprint

open Pyoneer.Lib Pyoneer.Shared

/-- What a block is for. -/
inductive Kind where
  | wrapper | job | node | task | name
  deriving DecidableEq, Repr

/-- A `Task`, with the address of the `strdup` copy of its name. -/
structure TaskObj where
  addr : Nat
  nameAddr : Option Nat
  value : Task
  deriving DecidableEq, Repr

/-- A `job_node`. -/
structure NodeObj where
  addr : Nat
  task : TaskObj
  deriving DecidableEq, Repr

/-- A `Job`: its fields, and the list `head … tail`. -/
structure JobObj where
  addr : Nat
  id : Int
  status : JobStatus
  opts : JobOpts
  nodes : List NodeObj
  deriving DecidableEq, Repr

/-- A `Blueprint` of the kind `BLUEPRINT_JOB`, the only one. -/
structure BlueprintObj where
  addr : Nat
  job : JobObj
  deriving DecidableEq, Repr

/-- The job, without its addresses. -/
def JobObj.value (job : JobObj) : Job :=
  { id := job.id, status := job.status, opts := job.opts
    tasks := job.nodes.map fun node => node.task.value }

/-! ## The blocks of an object -/

def TaskObj.blocks (task : TaskObj) : Multiset (Block Kind) :=
  Heap.share .name task.nameAddr + {⟨.task, task.addr⟩}

def NodeObj.blocks (node : NodeObj) : Multiset (Block Kind) :=
  node.task.blocks + {⟨.node, node.addr⟩}

def JobObj.blocks (job : JobObj) : Multiset (Block Kind) :=
  (job.nodes.map NodeObj.blocks).sum + {⟨.job, job.addr⟩}

def BlueprintObj.blocks (blueprint : BlueprintObj) : Multiset (Block Kind) :=
  {⟨.wrapper, blueprint.addr⟩} + blueprint.job.blocks

/-- No block of a job is a wrapper. -/
theorem JobObj.filter_blocks (job : JobObj) : job.blocks.filter (·.kind = .wrapper) = 0 := by
  have hnodes : ((job.nodes.map NodeObj.blocks).sum).filter (·.kind = .wrapper) = 0 := by
    induction job.nodes with
    | nil => rfl
    | cons node nodes ih =>
      have hnode : node.blocks.filter (·.kind = .wrapper) = 0 := by
        cases hname : node.task.nameAddr <;>
          simp [NodeObj.blocks, TaskObj.blocks, Heap.share, hname]
      rw [List.map_cons, List.sum_cons, Multiset.filter_add, hnode, ih, add_zero]
  rw [JobObj.blocks, Multiset.filter_add, hnodes, zero_add]
  rfl

namespace OnHeap

/-! ## The code -/

/-- `task_create`. -/
def taskCreate (ok : Nat → Bool) (heap : Heap Kind) (name : Bytes) :
    Option TaskObj × Heap Kind :=
  if strlen name = 0 then (none, heap)
  else
    match heap.malloc ok .task with
    | (none, heap) => (none, heap)
    | (some addr, heap) =>
      -- `strdup`: not tested
      match heap.malloc ok .name with
      | (nameAddr, heap) =>
        (some { addr := addr, nameAddr := nameAddr,
                value := { status := .ready, name := cstr name } }, heap)

/-- `task_destroy`. -/
def taskDestroy (heap : Heap Kind) (task : TaskObj) : Heap Kind :=
  (heap.freeNullable .name task.nameAddr).free .task task.addr

/-- `task_decode`. -/
def taskDecode (ok : Nat → Bool) (heap : Heap Kind) (obj : JsonValue) :
    Option TaskObj × Heap Kind :=
  match obj with
  | .object _ =>
    match jsonObjectGetValue obj (ascii "name") with
    | some (.string name) => taskCreate ok heap name
    | _ => (none, heap)
  | _ => (none, heap)

/-- `job_create`. -/
def jobCreate (ok : Nat → Bool) (heap : Heap Kind) (id : Int) : Option JobObj × Heap Kind :=
  if id ≤ 0 then (none, heap)
  else
    match heap.malloc ok .job with
    | (none, heap) => (none, heap)
    | (some addr, heap) =>
      (some { addr := addr, id := id, status := .ready, opts := jobOptsDefault, nodes := [] },
        heap)

/-- `job_add_task`; `none` for -1. -/
def jobAddTask (ok : Nat → Bool) (heap : Heap Kind) (job : JobObj) (task : TaskObj) :
    Option JobObj × Heap Kind :=
  match heap.malloc ok .node with
  | (none, heap) => (none, heap)
  | (some addr, heap) =>
    (some { job with nodes := job.nodes ++ [{ addr := addr, task := task }] }, heap)

/-- The loop of `job_destroy` over the nodes. -/
def destroyNodes (heap : Heap Kind) : List NodeObj → Heap Kind
  | [] => heap
  | node :: nodes => destroyNodes ((taskDestroy heap node.task).free .node node.addr) nodes

/-- `job_destroy`, of a job that is not NULL. -/
def jobDestroy (heap : Heap Kind) (job : JobObj) : Heap Kind :=
  (destroyNodes heap job.nodes).free .job job.addr

/-- The loop of `job_decode` over the array of tasks. -/
def decodeTasks (ok : Nat → Bool) (heap : Heap Kind) (job : JobObj) :
    List JsonValue → Option JobObj × Heap Kind
  | [] => (some job, heap)
  | v :: vs =>
    match taskDecode ok heap v with
    | (none, heap) => (none, jobDestroy heap job)
    | (some task, heap) =>
      match jobAddTask ok heap job task with
      | (none, heap) => (none, jobDestroy (taskDestroy heap task) job)
      | (some job, heap) => decodeTasks ok heap job vs

/-- `job_decode`. -/
def jobDecode (ok : Nat → Bool) (heap : Heap Kind) (obj : JsonValue) :
    Option JobObj × Heap Kind :=
  match jsonObjectGetValue obj (ascii "id"), jsonObjectGetValue obj (ascii "tasks") with
  | some (.integer id), some (.array tasks) =>
    match jobCreate ok heap (toCInt id) with
    | (none, heap) => (none, heap)
    | (some job, heap) =>
      let opts : JobOpts :=
        { execMode := decodeExecMode obj jobOptsDefault.execMode
          runMode := decodeRunMode obj jobOptsDefault.runMode }
      decodeTasks ok heap { job with opts := opts } tasks
  | _, _ => (none, heap)

/-- `blueprint_decode`, of `BLUEPRINT_JOB`. -/
def blueprintDecode (ok : Nat → Bool) (heap : Heap Kind) (obj : JsonValue) :
    Option BlueprintObj × Heap Kind :=
  match heap.malloc ok .wrapper with
  | (none, heap) => (none, heap)
  | (some addr, heap) =>
    match jobDecode ok heap obj with
    | (none, heap) => (none, heap.free .wrapper addr)
    | (some job, heap) => (some { addr := addr, job := job }, heap)

/-! ## What is allocated afterwards -/

section Accounts

variable {ok : Nat → Bool} {heap heap' : Heap Kind} {account : Multiset (Block Kind)}

theorem taskDestroy_live {task : TaskObj} (h : heap.live = task.blocks + account) :
    (taskDestroy heap task).live = account := by
  rw [TaskObj.blocks, add_assoc] at h
  exact Heap.free_live (Heap.freeNullable_live h)

theorem destroyNodes_live {nodes : List NodeObj}
    (h : heap.live = (nodes.map NodeObj.blocks).sum + account) :
    (destroyNodes heap nodes).live = account := by
  induction nodes generalizing heap with
  | nil => exact h.trans (zero_add _)
  | cons node nodes ih =>
    rw [List.map_cons, List.sum_cons, NodeObj.blocks, add_assoc, add_assoc] at h
    exact ih (Heap.free_live (taskDestroy_live h))

theorem jobDestroy_live {job : JobObj} (h : heap.live = job.blocks + account) :
    (jobDestroy heap job).live = account := by
  rw [JobObj.blocks, add_assoc] at h
  exact Heap.free_live (destroyNodes_live h)

theorem taskCreate_live {name : Bytes} {task : Option TaskObj}
    (h : taskCreate ok heap name = (task, heap')) :
    heap'.live = task.elim 0 TaskObj.blocks + heap.live := by
  unfold taskCreate at h
  split at h
  · cases h
    exact (zero_add _).symm
  · split at h
    · rename_i heap₁ hm
      cases h
      exact Heap.malloc_live hm
    · rename_i addr heap₁ hm
      have hblock := Heap.malloc_live hm
      cases hn : heap₁.malloc ok .name with
      | mk nameAddr heap₂ =>
        have hname := Heap.malloc_live hn
        rw [hn] at h
        cases h
        rw [hname, hblock, ← add_assoc]
        rfl

theorem taskDecode_live {obj : JsonValue} {task : Option TaskObj}
    (h : taskDecode ok heap obj = (task, heap')) :
    heap'.live = task.elim 0 TaskObj.blocks + heap.live := by
  unfold taskDecode at h
  split at h
  · split at h
    · exact taskCreate_live h
    · cases h
      exact (zero_add _).symm
  · cases h
    exact (zero_add _).symm

theorem jobCreate_live {id : Int} {job : Option JobObj}
    (h : jobCreate ok heap id = (job, heap')) :
    heap'.live = job.elim 0 JobObj.blocks + heap.live := by
  unfold jobCreate at h
  split at h
  · cases h
    exact (zero_add _).symm
  · split at h
    · rename_i heap₁ hm
      cases h
      exact Heap.malloc_live hm
    · rename_i addr heap₁ hm
      cases h
      rw [Heap.malloc_live hm]
      simp [JobObj.blocks, Heap.share]

theorem jobAddTask_live {job : JobObj} {task : TaskObj} {job' : Option JobObj}
    (h : jobAddTask ok heap job task = (job', heap'))
    (hlive : heap.live = task.blocks + (job.blocks + account)) :
    heap'.live = job'.elim (task.blocks + job.blocks) JobObj.blocks + account := by
  unfold jobAddTask at h
  split at h
  · rename_i heap₁ hm
    cases h
    rw [Heap.malloc_live hm, hlive]
    exact (zero_add _).trans (add_assoc _ _ _).symm
  · rename_i addr heap₁ hm
    cases h
    rw [Heap.malloc_live hm, hlive]
    simp only [JobObj.blocks, NodeObj.blocks, Heap.share, List.map_append, List.sum_append,
      List.map_cons, List.map_nil, List.sum_cons, List.sum_nil, Option.elim_some]
    abel

/-- The loop: the job with all its tasks, or nothing of the job, whatever
the task that failed. -/
theorem decodeTasks_live {job : JobObj} {vs : List JsonValue} {job' : Option JobObj}
    (h : decodeTasks ok heap job vs = (job', heap')) (hlive : heap.live = job.blocks + account) :
    heap'.live = job'.elim 0 JobObj.blocks + account := by
  induction vs generalizing heap job with
  | nil =>
    cases h
    exact hlive
  | cons v vs ih =>
    rw [decodeTasks] at h
    split at h
    · rename_i heap₁ htask
      have hsame := (taskDecode_live htask).trans (zero_add _)
      cases h
      exact (jobDestroy_live (hsame.trans hlive)).trans (zero_add _).symm
    · rename_i task heap₁ htask
      have hboth : heap₁.live = task.blocks + (job.blocks + account) := by
        rw [taskDecode_live htask, hlive]
        rfl
      split at h
      · rename_i heap₂ hadd
        have hsame := jobAddTask_live hadd hboth
        cases h
        have htask : (taskDestroy heap₂ task).live = job.blocks + account :=
          taskDestroy_live (hsame.trans (add_assoc _ _ _))
        exact (jobDestroy_live htask).trans (zero_add _).symm
      · rename_i added heap₂ hadd
        exact ih h (jobAddTask_live hadd hboth)

/-- `job_decode` allocates the job that it returns, and nothing if it
fails. -/
theorem jobDecode_live {obj : JsonValue} {job : Option JobObj}
    (h : jobDecode ok heap obj = (job, heap')) :
    heap'.live = job.elim 0 JobObj.blocks + heap.live := by
  unfold jobDecode at h
  split at h
  · split at h
    · rename_i heap₁ hcreate
      cases h
      exact jobCreate_live hcreate
    · rename_i job₁ heap₁ hcreate
      exact decodeTasks_live h (jobCreate_live hcreate)
  · cases h
    exact (zero_add _).symm

theorem blueprintDecode_live {obj : JsonValue} {blueprint : Option BlueprintObj}
    (h : blueprintDecode ok heap obj = (blueprint, heap')) :
    heap'.live = blueprint.elim 0 BlueprintObj.blocks + heap.live := by
  unfold blueprintDecode at h
  split at h
  · rename_i heap₁ hm
    cases h
    exact Heap.malloc_live hm
  · rename_i addr heap₁ hm
    have hwrapper := Heap.malloc_live hm
    split at h
    · rename_i heap₂ hjob
      have hsame := (jobDecode_live hjob).trans (zero_add _)
      cases h
      exact (Heap.free_live (hsame.trans hwrapper)).trans (zero_add _).symm
    · rename_i job heap₂ hjob
      cases h
      rw [jobDecode_live hjob, hwrapper]
      simp only [BlueprintObj.blocks, Heap.share, Option.elim_some]
      abel

end Accounts

/-! ## What is decoded -/

section Values

variable {ok : Nat → Bool} {heap heap' : Heap Kind}

theorem taskDecode_value {obj : JsonValue} {task : TaskObj}
    (h : taskDecode ok heap obj = (some task, heap')) :
    Blueprint.taskDecode obj = some task.value := by
  cases obj with
  | object entries =>
    simp only [taskDecode] at h
    split at h
    · rename_i name hname
      have hplain : Blueprint.taskDecode (.object entries) = Blueprint.taskCreate name := by
        simp only [Blueprint.taskDecode, hname]
      unfold taskCreate at h
      split at h
      · cases h
      · rename_i hlen
        split at h <;> cases h
        rw [hplain]
        exact if_neg hlen
    · cases h
  | _ => cases h

theorem decodeTasks_value {job job' : JobObj} {vs : List JsonValue}
    (h : decodeTasks ok heap job vs = (some job', heap')) :
    Blueprint.decodeTasks job.value vs = some job'.value := by
  induction vs generalizing heap job with
  | nil =>
    cases h
    rfl
  | cons v vs ih =>
    rw [decodeTasks] at h
    split at h
    · cases h
    · rename_i task heap₁ htask
      split at h
      · cases h
      · rename_i added heap₂ hadd
        unfold jobAddTask at hadd
        split at hadd <;> cases hadd
        have hrest := ih h
        simpa [Blueprint.decodeTasks, taskDecode_value htask, Blueprint.jobAddTask,
          JobObj.value] using hrest

/-- What `job_decode` returns is the job that its value decodes to. -/
theorem jobDecode_value {obj : JsonValue} {job : JobObj}
    (h : jobDecode ok heap obj = (some job, heap')) :
    Blueprint.jobDecode obj = some job.value := by
  unfold jobDecode at h
  split at h
  · rename_i id tasks hid htasks
    split at h
    · cases h
    · rename_i job₁ heap₁ hcreate
      unfold jobCreate at hcreate
      split at hcreate
      · cases hcreate
      · rename_i hpos
        split at hcreate <;> cases hcreate
        have hrest := decodeTasks_value h
        simp only [Blueprint.jobDecode, hid, htasks, Blueprint.jobCreate, hpos, if_false]
        exact hrest
  · cases h

theorem blueprintDecode_value {obj : JsonValue} {blueprint : BlueprintObj}
    (h : blueprintDecode ok heap obj = (some blueprint, heap')) :
    Blueprint.jobDecode obj = some blueprint.job.value := by
  unfold blueprintDecode at h
  split at h
  · cases h
  · split at h <;> cases h
    rename_i hjob
    exact jobDecode_value hjob

end Values

/-! ## When it succeeds -/

/-- The value is a job to `job_decode`, and there is memory for it from
the call number `calls` on: for the job, then for each task and its
node. The copy of the name, the call between these two, may fail. -/
def DecodableJob (ok : Nat → Bool) (calls : Nat) (obj : JsonValue) : Prop :=
  ∃ id tasks, jsonObjectGetValue obj (ascii "id") = some (.integer id) ∧
    jsonObjectGetValue obj (ascii "tasks") = some (.array tasks) ∧ 0 < toCInt id ∧
    (∀ v ∈ tasks, (Blueprint.taskDecode v).isSome = true) ∧ ok calls = true ∧
    ∀ k < tasks.length, ok (calls + 1 + 3 * k) = true ∧ ok (calls + 1 + 3 * k + 2) = true

/-- The same for `blueprint_decode`: the wrapper comes first. -/
def Decodable (ok : Nat → Bool) (calls : Nat) (obj : JsonValue) : Prop :=
  ok calls = true ∧ DecodableJob ok (calls + 1) obj

section Success

variable {ok : Nat → Bool} {heap : Heap Kind}

theorem taskDecode_isSome {v : JsonValue} :
    (∃ task heap', taskDecode ok heap v = (some task, heap') ∧ heap'.calls = heap.calls + 2) ∧
        (Blueprint.taskDecode v).isSome = true ∧ ok heap.calls = true ∨
      (taskDecode ok heap v).1 = none ∧
        ¬ ((Blueprint.taskDecode v).isSome = true ∧ ok heap.calls = true) := by
  cases v with
  | object entries =>
    simp only [taskDecode, Blueprint.taskDecode]
    cases jsonObjectGetValue (.object entries) (ascii "name") with
    | none => simp
    | some name =>
      cases name with
      | string name =>
        by_cases hlen : strlen name = 0
        · simp [taskCreate, Blueprint.taskCreate, hlen]
        · cases hok : ok heap.calls <;>
            cases hname : ok (heap.calls + 1) <;>
            simp [taskCreate, Blueprint.taskCreate, hlen, Heap.malloc, hok, hname]
      | _ => simp
  | _ => simp [taskDecode, Blueprint.taskDecode]

/-- Task `k` takes the calls `3 * k` to `3 * k + 2`. -/
theorem decodeTasks_isSome {job : JobObj} {vs : List JsonValue} :
    (decodeTasks ok heap job vs).1.isSome = true ↔
      (∀ v ∈ vs, (Blueprint.taskDecode v).isSome = true) ∧
        ∀ k < vs.length, ok (heap.calls + 3 * k) = true ∧ ok (heap.calls + 3 * k + 2) = true := by
  induction vs generalizing heap job with
  | nil => simp [decodeTasks]
  | cons v vs ih =>
    have hcalls : ∀ heap' : Heap Kind, heap'.calls = heap.calls + 3 →
        ((∀ k < vs.length, ok (heap'.calls + 3 * k) = true ∧ ok (heap'.calls + 3 * k + 2) = true) ↔
          ∀ k < vs.length, ok (heap.calls + 3 * (k + 1)) = true ∧
            ok (heap.calls + 3 * (k + 1) + 2) = true) := by
      intro heap' hheap
      have hk : ∀ k, heap'.calls + 3 * k = heap.calls + 3 * (k + 1) := by
        intro k
        omega
      simp only [hk]
    simp only [List.forall_mem_cons, List.length_cons, Nat.forall_lt_succ_left]
    rw [decodeTasks]
    rcases @taskDecode_isSome ok heap v with ⟨⟨task, heap₁, htask, hnext⟩, hv, hok⟩ | ⟨hnone, hno⟩
    · simp only [htask]
      cases hnode : ok (heap.calls + 2) with
      | false => simp [jobAddTask, Heap.malloc, hnext, hnode]
      | true =>
        simp only [jobAddTask, Heap.malloc, hnext, hnode, if_true]
        rw [ih, hcalls _ rfl]
        simp [hv, hok]
    · split
      · simp only [Option.isSome_none, Bool.false_eq_true, false_iff]
        rintro ⟨⟨hv, _⟩, ⟨hok, _⟩, _⟩
        exact hno ⟨hv, hok⟩
      · rename_i htask
        rw [htask] at hnone
        cases hnone

theorem jobDecode_isSome {obj : JsonValue} :
    (jobDecode ok heap obj).1.isSome = true ↔ DecodableJob ok heap.calls obj := by
  unfold jobDecode
  split
  · rename_i id tasks hid htasks
    have hmine : ∀ id' tasks', jsonObjectGetValue obj (ascii "id") = some (.integer id') →
        jsonObjectGetValue obj (ascii "tasks") = some (.array tasks') →
          id' = id ∧ tasks' = tasks := by
      intro id' tasks' hid' htasks'
      rw [hid] at hid'
      rw [htasks] at htasks'
      cases hid'
      cases htasks'
      exact ⟨rfl, rfl⟩
    by_cases hcreate : 0 < toCInt id ∧ ok heap.calls = true
    · obtain ⟨hpos, hok⟩ := hcreate
      simp only [jobCreate, Int.not_le.mpr hpos, if_false, Heap.malloc, hok, if_true]
      rw [decodeTasks_isSome]
      constructor
      · rintro ⟨hvs, hmem⟩
        exact ⟨id, tasks, hid, htasks, hpos, hvs, hok, hmem⟩
      · rintro ⟨id', tasks', hid', htasks', _, hvs, _, hmem⟩
        obtain ⟨rfl, rfl⟩ := hmine id' tasks' hid' htasks'
        exact ⟨hvs, hmem⟩
    · have hnone : (jobCreate ok heap (toCInt id)).1 = none := by
        unfold jobCreate
        split
        · rfl
        · rename_i hpos
          have hok : ok heap.calls = false := by
            simpa [Int.not_le.mp hpos] using hcreate
          simp [Heap.malloc, hok]
      split
      · simp only [Option.isSome_none, Bool.false_eq_true, false_iff]
        rintro ⟨id', tasks', hid', htasks', hpos, _, hok, _⟩
        obtain ⟨rfl, rfl⟩ := hmine id' tasks' hid' htasks'
        exact hcreate ⟨hpos, hok⟩
      · rename_i hjob
        rw [hjob] at hnone
        cases hnone
  · rename_i hno
    simp only [Option.isSome_none, Bool.false_eq_true, false_iff]
    rintro ⟨id, tasks, hid, htasks, _⟩
    exact hno id tasks hid htasks

theorem blueprintDecode_isSome {obj : JsonValue} :
    (blueprintDecode ok heap obj).1.isSome = true ↔ Decodable ok heap.calls obj := by
  unfold blueprintDecode Decodable
  cases hok : ok heap.calls with
  | false => simp [Heap.malloc, hok]
  | true =>
    simp only [Heap.malloc, hok, if_true, true_and]
    rw [← @jobDecode_isSome ok { calls := heap.calls + 1, live := _ } obj]
    split <;> rename_i hjob <;> rw [hjob] <;> rfl

end Success

end OnHeap

end Pyoneer.Blueprint
