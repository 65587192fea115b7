/-
Pyoneer.Main.Agent — from the command line to the agent: `parse_flags`,
then `pyoneer_create` and `worker_create`.

`malloc` gives memory that holds anything. `pyoneer_create` fills the new
object in the `PYONEER_WORKER` case of its `switch` and in no other, and
it stores whatever `worker_create` returned. So what it returns is an
agent only for a worker whose id `worker_create` accepts
(`pyoneerCreate_usable_iff`); `parse_flags` lets other roles and ids
through.
-/
import Pyoneer.Main.Flags
import Pyoneer.Runtime.Worker

namespace Pyoneer.Main

open Pyoneer.Shared Pyoneer.Blueprint Pyoneer.Runtime

/-! ## The constructors -/

/-- A pointer; `wild` is one that was never written. -/
inductive Ptr (α : Type) where
  | null
  | to (a : α)
  | wild (bits : Nat)

/-- The functions behind the command pointers of a worker. -/
inductive Command where
  | pyoneerWorkerGetStatus
  | pyoneerRunJob
  | pyoneerAssignJob
  | pyoneerWorkerRestart
  | pyoneerWorkerStart
  | pyoneerWorkerStop
  deriving DecidableEq, Repr

/-- `struct Worker`; `engine` tells whether `engine_create` returned
one. -/
structure WorkerObject where
  id : Int
  engine : Bool
  worker : Worker

/-- `struct Pyoneer`. -/
structure PyoneerObject where
  role : Int
  backend : Ptr WorkerObject
  getStatus : Ptr Command
  run : Ptr Command
  assign : Ptr Command
  restart : Ptr Command
  start : Ptr Command
  stop : Ptr Command

/-- What the calls of the two constructors return: which `malloc`
succeeds, and the error number of `pthread_mutex_init`. -/
structure System where
  mallocPyoneer : Bool
  mallocWorker : Bool
  mallocEngine : Bool
  mutexInit : Int

/-- `worker_create`. -/
def workerCreate (sys : System) (id : Int) : Option WorkerObject :=
  if id ≤ 1 then none
  else if sys.mallocWorker = false then none
  else if sys.mutexInit ≠ 0 then none
  else some { id := id, engine := sys.mallocEngine, worker := .create }

/-- `pyoneer_create`, in memory that holds `memory`. -/
def pyoneerCreate (sys : System) (memory : PyoneerObject) (role id : Int) :
    Option PyoneerObject :=
  if sys.mallocPyoneer = false then none
  else if role = pyoneerWorker then some
    { role := pyoneerWorker
      backend :=
        match workerCreate sys id with
        | some worker => .to worker
        | none => .null
      run := .to .pyoneerRunJob
      getStatus := .to .pyoneerWorkerGetStatus
      assign := .to .pyoneerAssignJob
      restart := .to .pyoneerWorkerRestart
      start := .to .pyoneerWorkerStart
      stop := .to .pyoneerWorkerStop }
  else some memory

/-! ## What is asked of them -/

/-- The pointer is one to a function. -/
def IsSet (p : Ptr Command) : Prop := ∃ c, p = .to c

/-- An agent that can be used: the role is set, there is a backend with
the id, and so are the six commands. -/
structure Usable (role id : Int) (p : PyoneerObject) : Prop where
  role : p.role = role
  backend : ∃ w, p.backend = .to w ∧ w.id = id
  getStatus : IsSet p.getStatus
  run : IsSet p.run
  assign : IsSet p.assign
  restart : IsSet p.restart
  start : IsSet p.start
  stop : IsSet p.stop

/-- The accepted command line gives an agent: the configuration has the
integer of the last `--id` and the role of the last `--role`, and
`pyoneer_create` fails or returns a usable agent, whatever was in its
memory. -/
def GivesAgent (sys : System) (argv : List Arg) (cfg : AppConfig) : Prop :=
  (∃ v, lastFlag (ascii "id=") argv.tail = some v ∧ cfg.id = denoted v) ∧
    (∃ v, lastFlag (ascii "role=") argv.tail = some v ∧ roleNamed v = some cfg.role) ∧
    ∀ memory p, pyoneerCreate sys memory cfg.role cfg.id = some p → Usable cfg.role cfg.id p

/-- The last `--id` fits `int`, and unless there is no memory for the
agent at all, the last `--role` is `worker`, the id is 2 or more, and
`worker_create` gets its memory and its lock. -/
def AsksWorker (sys : System) (argv : List Arg) : Prop :=
  ∃ i r, lastFlag (ascii "id=") argv.tail = some i ∧ lastFlag (ascii "role=") argv.tail = some r ∧
    (-2 ^ 31 ≤ denoted i ∧ denoted i < 2 ^ 31) ∧
    (sys.mallocPyoneer = true → roleNamed r = some pyoneerWorker ∧ 2 ≤ denoted i ∧
      sys.mallocWorker = true ∧ sys.mutexInit = 0)

/-! ## The flags -/

section Flags

variable {cfg cfg' : AppConfig}

theorem startsWith_append (s p q : Bytes) :
    startsWith s (p ++ q) = (startsWith s p && startsWith (afterPrefix s p) q) := by
  induction p generalizing s with
  | nil => simp [startsWith, afterPrefix]
  | cons b p ih =>
    cases s with
    | nil => simp [startsWith]
    | cons c s =>
      have := ih s
      simp only [startsWith, afterPrefix] at this
      simp [startsWith, afterPrefix, List.isPrefixOf, this, Bool.and_assoc]

/-- A flag is looked for behind the two dashes. -/
theorem flagValue_eq (name : Bytes) (a : Arg) :
    flagValue name a =
      if startsWith a.1 (ascii "--") && startsWith (afterPrefix a.1 (ascii "--")) name then
        some (afterPrefix (afterPrefix a.1 (ascii "--")) name)
      else none := by
  rw [flagValue, startsWith_append]
  simp [afterPrefix, List.drop_drop, Nat.add_comm]

theorem lastFlag_cons (name : Bytes) (a : Arg) (args : List Arg) :
    lastFlag name (a :: args) = (lastFlag name args).or (flagValue name a) := by
  unfold lastFlag
  cases h : flagValue name a with
  | none => simp [List.filterMap_cons_none h]
  | some v =>
    rw [List.filterMap_cons_some h, List.getLast?_cons]
    cases (args.filterMap (flagValue name)).getLast? <;> rfl

/-- What the arguments `args` do to the id and the role. -/
structure ReadsFlags (args : List Arg) (cfg cfg' : AppConfig) : Prop where
  idNone : lastFlag (ascii "id=") args = none → cfg'.id = cfg.id
  idSome : ∀ v, lastFlag (ascii "id=") args = some v → cfg'.id = toCInt (strtol v)
  roleNone : lastFlag (ascii "role=") args = none → cfg'.role = cfg.role
  roleSome : ∀ v, lastFlag (ascii "role=") args = some v → roleNamed v = some cfg'.role

/-- Behind the two dashes at most one of two flags is found that begin
differently. -/
theorem not_startsWith {s p q : Bytes} {c d : UInt8} (h : startsWith s (c :: p) = true)
    (hne : c ≠ d) : startsWith s (d :: q) = false := by
  cases s with
  | nil => simp [startsWith] at h
  | cons b s =>
    simp only [startsWith, List.isPrefixOf, Bool.and_eq_true, beq_iff_eq] at h
    obtain ⟨rfl, _⟩ := h
    simp [startsWith, List.isPrefixOf, hne.symm]

/-- Texts without a NUL that `strcmp` cannot tell apart are the same. -/
theorem strcmpEq_of_zero_not_mem {a b : Bytes} (ha : (0 : UInt8) ∉ a) (hb : (0 : UInt8) ∉ b)
    (h : strcmpEq a b = true) : a = b := by
  rw [strcmpEq_iff, cstr_eq_self.mpr ha, cstr_eq_self.mpr hb] at h
  exact h

theorem lastFlag_singleton (name : Bytes) (a : Arg) : lastFlag name [a] = flagValue name a := by
  rw [lastFlag_cons]
  rfl

/-- An argument that is neither flag. -/
theorem ReadsFlags.other {a : Arg} (hid : flagValue (ascii "id=") a = none)
    (hrole : flagValue (ascii "role=") a = none) (h : cfg'.id = cfg.id)
    (h' : cfg'.role = cfg.role) : ReadsFlags [a] cfg cfg' := by
  refine ⟨fun _ => h, ?_, fun _ => h', ?_⟩
  · intro v hv
    rw [lastFlag_singleton, hid] at hv
    cases hv
  · intro v hv
    rw [lastFlag_singleton, hrole] at hv
    cases hv

theorem parseRole_ok {v : Bytes} (h : parseRole v cfg = .ok cfg') :
    roleNamed v = some cfg'.role ∧ cfg'.id = cfg.id := by
  unfold parseRole at h
  unfold roleNamed
  split at h
  · rename_i hm
    cases h
    rw [if_pos hm]
    exact ⟨rfl, rfl⟩
  · rename_i hm
    rw [if_neg hm]
    split at h
    · rename_i hw
      cases h
      rw [if_pos hw]
      exact ⟨rfl, rfl⟩
    · cases h

/-- One argument. -/
theorem parseFlag_reads (a : Arg) (h : parseFlag a.1 cfg = .ok cfg') : ReadsFlags [a] cfg cfg' := by
  have hid : ascii "id=" = [105, 100, 61] := rfl
  have hrole : ascii "role=" = [114, 111, 108, 101, 61] := rfl
  have hflag : ∀ name, startsWith a.1 (ascii "--") = true →
      startsWith (afterPrefix a.1 (ascii "--")) name = false → flagValue name a = none := by
    intro name _ hno
    simp [flagValue_eq, hno]
  unfold parseFlag at h
  split at h
  · cases h
  rename_i hdash
  rw [Bool.not_eq_false] at hdash
  simp only at h
  split at h
  · -- `--debug`
    rename_i hdebug
    cases h
    have hz : (0 : UInt8) ∉ afterPrefix a.1 (ascii "--") := fun hm => a.2 (List.mem_of_mem_drop hm)
    have heq := strcmpEq_of_zero_not_mem hz (by decide) hdebug
    exact .other (hflag _ hdash (by rw [heq]; rfl)) (hflag _ hdash (by rw [heq]; rfl)) rfl rfl
  split at h
  · -- `--id=`
    rename_i hstart
    cases h
    have hval : flagValue (ascii "id=") a
        = some (afterPrefix (afterPrefix a.1 (ascii "--")) (ascii "id=")) := by
      simp [flagValue_eq, hdash, hstart]
    have hno : flagValue (ascii "role=") a = none :=
      hflag _ hdash (not_startsWith (hid ▸ hstart) (by decide))
    refine ⟨?_, ?_, fun _ => rfl, ?_⟩
    · rw [lastFlag_singleton, hval]
      simp
    · rw [lastFlag_singleton, hval]
      rintro v ⟨⟩
      rfl
    · rw [lastFlag_singleton, hno]
      simp
  rename_i hnoid
  rw [Bool.not_eq_true] at hnoid
  have hnoid := hflag _ hdash hnoid
  split at h
  · -- `--port=`
    rename_i hstart
    cases h
    exact .other hnoid (hflag _ hdash (not_startsWith (c := 112) hstart (by decide))) rfl rfl
  split at h
  · -- `--host=`
    rename_i hstart
    cases h
    exact .other hnoid (hflag _ hdash (not_startsWith (c := 104) hstart (by decide))) rfl rfl
  split at h
  · -- `--unix=`
    rename_i hstart
    cases h
    exact .other hnoid (hflag _ hdash (not_startsWith (c := 117) hstart (by decide))) rfl rfl
  split at h
  · -- `--role=`
    rename_i hstart
    obtain ⟨hnamed, hsame⟩ := parseRole_ok h
    have hval : flagValue (ascii "role=") a
        = some (afterPrefix (afterPrefix a.1 (ascii "--")) (ascii "role=")) := by
      simp [flagValue_eq, hdash, hstart]
    refine ⟨fun _ => hsame, ?_, ?_, ?_⟩
    · rw [lastFlag_singleton, hnoid]
      simp
    · rw [lastFlag_singleton, hval]
      simp
    · rw [lastFlag_singleton, hval]
      rintro v ⟨⟩
      exact hnamed
  · cases h

theorem lastFlag_cons_eq_none {name : Bytes} {a : Arg} {args : List Arg}
    (h : lastFlag name (a :: args) = none) : lastFlag name args = none ∧ lastFlag name [a] = none := by
  rw [lastFlag_cons, Option.or_eq_none_iff] at h
  exact ⟨h.1, (lastFlag_singleton name a).trans h.2⟩

/-- The last flag of a list is the one of its tail, if that has one. -/
theorem lastFlag_cons_eq_some {name v : Bytes} {a : Arg} {args : List Arg}
    (h : lastFlag name (a :: args) = some v) :
    lastFlag name args = some v ∨ lastFlag name args = none ∧ lastFlag name [a] = some v := by
  rw [lastFlag_cons] at h
  cases hlast : lastFlag name args with
  | none =>
    rw [hlast, Option.none_or] at h
    exact Or.inr ⟨rfl, (lastFlag_singleton name a).trans h⟩
  | some v' =>
    rw [hlast, Option.some_or] at h
    exact Or.inl h

/-- The last flag of a name counts. -/
theorem ReadsFlags.cons {a : Arg} {args : List Arg} {cfg'' : AppConfig}
    (ha : ReadsFlags [a] cfg cfg') (hargs : ReadsFlags args cfg' cfg'') :
    ReadsFlags (a :: args) cfg cfg'' := by
  refine ⟨fun h => ?_, fun v h => ?_, fun h => ?_, fun v h => ?_⟩
  · obtain ⟨hrest, hfirst⟩ := lastFlag_cons_eq_none h
    exact (hargs.idNone hrest).trans (ha.idNone hfirst)
  · rcases lastFlag_cons_eq_some h with hrest | ⟨hrest, hfirst⟩
    · exact hargs.idSome v hrest
    · rw [hargs.idNone hrest]
      exact ha.idSome v hfirst
  · obtain ⟨hrest, hfirst⟩ := lastFlag_cons_eq_none h
    exact (hargs.roleNone hrest).trans (ha.roleNone hfirst)
  · rcases lastFlag_cons_eq_some h with hrest | ⟨hrest, hfirst⟩
    · exact hargs.roleSome v hrest
    · rw [hargs.roleNone hrest]
      exact ha.roleSome v hfirst

/-- The loop, over any list of arguments. -/
theorem parseArgs_reads {args : List Arg} (h : parseArgs args cfg = .ok cfg') :
    ReadsFlags args cfg cfg' := by
  induction args generalizing cfg with
  | nil =>
    cases h
    exact ⟨fun _ => rfl, by simp [lastFlag], fun _ => rfl, by simp [lastFlag]⟩
  | cons a args ih =>
    rw [parseArgs] at h
    cases hflag : parseFlag a.1 cfg with
    | error e => simp [hflag] at h
    | ok next =>
      simp only [hflag] at h
      exact (parseFlag_reads a hflag).cons (ih h)

/-- An accepted command line has both flags, and the configuration is
read off the last ones. -/
theorem parseFlags_ok {argv : List Arg} {port unixPath : Option Bytes}
    (h : parseFlags argv (appConfigDefaults port unixPath) = .ok cfg) :
    ∃ i r, lastFlag (ascii "id=") argv.tail = some i ∧
      lastFlag (ascii "role=") argv.tail = some r ∧ cfg.id = toCInt (strtol i) ∧
      roleNamed r = some cfg.role := by
  unfold parseFlags at h
  cases hargs : parseArgs argv.tail (appConfigDefaults port unixPath) with
  | error e => simp [hargs] at h
  | ok next =>
    simp only [hargs] at h
    split at h
    · cases h
    · rename_i hrole
      split at h
      · cases h
      · rename_i hid
        cases h
        have hreads := parseArgs_reads hargs
        cases hi : lastFlag (ascii "id=") argv.tail with
        | none => exact absurd (hreads.idNone hi) hid
        | some i =>
          cases hr : lastFlag (ascii "role=") argv.tail with
          | none =>
            have hneg : cfg.role = -1 := hreads.roleNone hr
            exact absurd (by rw [hneg]; decide) hrole
          | some r => exact ⟨i, r, rfl, rfl, hreads.idSome i hi, hreads.roleSome r hr⟩

theorem toCInt_range (n : Int) : -2 ^ 31 ≤ toCInt n ∧ toCInt n < 2 ^ 31 := by
  have hle := Int.le_bmod (x := n) (m := 2 ^ 32) (by decide)
  have hlt := Int.bmod_lt (x := n) (m := 2 ^ 32) (by decide)
  unfold toCInt
  omega

theorem strtol_eq_self {v : Bytes} (h : -2 ^ 31 ≤ denoted v ∧ denoted v < 2 ^ 31) :
    strtol v = denoted v := by
  unfold strtol
  omega

/-- The id survives the clamping and the cut when it fits `int`. -/
theorem toCInt_strtol_iff (v : Bytes) :
    toCInt (strtol v) = denoted v ↔ -2 ^ 31 ≤ denoted v ∧ denoted v < 2 ^ 31 := by
  constructor
  · intro h
    rw [← h]
    exact toCInt_range _
  · intro h
    rw [strtol_eq_self h, toCInt]
    exact Int.bmod_eq_of_le (by omega) (by omega)

end Flags

/-! ## The agent -/

section Create

variable {sys : System} {role id : Int}

/-- `worker_create` returns a worker for ids from 2 on, when it gets its
memory and its lock. -/
theorem workerCreate_isSome_iff :
    (∃ w, workerCreate sys id = some w) ↔
      2 ≤ id ∧ sys.mallocWorker = true ∧ sys.mutexInit = 0 := by
  unfold workerCreate
  by_cases hid : id ≤ 1
  · have hlt : ¬ 2 ≤ id := by omega
    simp [hid, hlt]
  · have hle : 2 ≤ id := by omega
    cases hm : sys.mallocWorker with
    | false => simp [hid]
    | true => by_cases hl : sys.mutexInit = 0 <;> simp [hid, hl, hle]

theorem workerCreate_id {w : WorkerObject} (h : workerCreate sys id = some w) : w.id = id := by
  unfold workerCreate at h
  (repeat' split at h) <;> cases h
  rfl

/-- Whatever its memory held, `pyoneer_create` returns a usable agent
exactly for a worker that `worker_create` can make. -/
theorem pyoneerCreate_usable_iff (hm : sys.mallocPyoneer = true) :
    (∀ memory p, pyoneerCreate sys memory role id = some p → Usable role id p) ↔
      role = pyoneerWorker ∧ 2 ≤ id ∧ sys.mallocWorker = true ∧ sys.mutexInit = 0 := by
  constructor
  · intro h
    -- memory that holds null pointers is as good as any
    let memory : PyoneerObject := ⟨role, .null, .null, .null, .null, .null, .null, .null⟩
    by_cases hrole : role = pyoneerWorker
    · refine ⟨hrole, workerCreate_isSome_iff.mp ?_⟩
      have hcreate := h memory _ (by rw [pyoneerCreate, hm, if_neg (by decide), if_pos hrole])
      obtain ⟨w, hw, _⟩ := hcreate.backend
      cases hworker : workerCreate sys id with
      | none => simp [hworker] at hw
      | some w => exact ⟨w, rfl⟩
    · have hcreate := h memory memory (by rw [pyoneerCreate, hm, if_neg (by decide), if_neg hrole])
      obtain ⟨c, hc⟩ := hcreate.getStatus
      cases hc
  · rintro ⟨rfl, hworker⟩ memory p hp
    obtain ⟨w, hw⟩ := workerCreate_isSome_iff.mpr hworker
    rw [pyoneerCreate, hm, if_neg (by decide), if_pos rfl, hw] at hp
    cases hp
    exact ⟨rfl, ⟨w, rfl, workerCreate_id hw⟩, ⟨_, rfl⟩, ⟨_, rfl⟩, ⟨_, rfl⟩, ⟨_, rfl⟩, ⟨_, rfl⟩,
      ⟨_, rfl⟩⟩

end Create

/-- **From the command line to the agent.** For every command line that
`parse_flags` accepts, the configuration is the one the last flags name
and `pyoneer_create` gives a usable agent or none, exactly when the id
fits `int` and, unless `pyoneer_create` fails, a worker with an id from
2 on is asked for and `worker_create` succeeds. -/
theorem parseFlags_givesAgent_iff {argv : List Arg} {port unixPath : Option Bytes}
    {cfg : AppConfig} (h : parseFlags argv (appConfigDefaults port unixPath) = .ok cfg)
    (sys : System) : GivesAgent sys argv cfg ↔ AsksWorker sys argv := by
  obtain ⟨i, r, hi, hr, hid, hrole⟩ := parseFlags_ok h
  constructor
  · rintro ⟨⟨v, hv, hden⟩, _, hcreate⟩
    obtain rfl : i = v := Option.some.inj (hi.symm.trans hv)
    have hfits := (toCInt_strtol_iff i).mp (hid.symm.trans hden)
    refine ⟨i, r, hi, hr, hfits, fun hm => ?_⟩
    have husable := (pyoneerCreate_usable_iff hm).mp hcreate
    rw [← hden, hrole]
    exact ⟨congrArg some husable.1, husable.2⟩
  · rintro ⟨i', r', hi', hr', hfits, hasks⟩
    obtain rfl : i = i' := Option.some.inj (hi.symm.trans hi')
    obtain rfl : r = r' := Option.some.inj (hr.symm.trans hr')
    have hden : cfg.id = denoted i := hid.trans ((toCInt_strtol_iff i).mpr hfits)
    refine ⟨⟨i, hi, hden⟩, ⟨r, hr, hrole⟩, ?_⟩
    cases hm : sys.mallocPyoneer with
    | false =>
      intro memory p hp
      simp [pyoneerCreate, hm] at hp
    | true =>
      obtain ⟨hnamed, hrest⟩ := hasks hm
      rw [← hden] at hrest
      exact (pyoneerCreate_usable_iff hm).mpr ⟨Option.some.inj (hrole.symm.trans hnamed), hrest⟩

/-- A program name, a role and an id. -/
def commandLine (role id : Bytes) (hr : (0 : UInt8) ∉ role) (hi : (0 : UInt8) ∉ id) : List Arg :=
  [⟨ascii "pyoneer", by simp [ascii]⟩,
    ⟨ascii "--role=" ++ role, by simp [ascii, hr]⟩,
    ⟨ascii "--id=" ++ id, by simp [ascii, hi]⟩]

/-- `pyoneer --role=worker --id=7`. -/
def workerSeven : List Arg :=
  commandLine (ascii "worker") (ascii "7") (by simp [ascii]) (by simp [ascii])

/-- `pyoneer --role=manager --id=5`. -/
def managerFive : List Arg :=
  commandLine (ascii "manager") (ascii "5") (by simp [ascii]) (by simp [ascii])

/-- `pyoneer --role=worker --id=1`. -/
def workerOne : List Arg :=
  commandLine (ascii "worker") (ascii "1") (by simp [ascii]) (by simp [ascii])

/-- `pyoneer --role=worker --id=4294967301`. -/
def workerHuge : List Arg :=
  commandLine (ascii "worker") (ascii "4294967301") (by simp [ascii]) (by simp [ascii])

/-- Every call succeeds. -/
def allSucceed : System where
  mallocPyoneer := true
  mallocWorker := true
  mallocEngine := true
  mutexInit := 0

theorem parseFlags_givesAgent_workerSeven : ∃ cfg,
    parseFlags workerSeven (appConfigDefaults none none) = .ok cfg ∧
      GivesAgent allSucceed workerSeven cfg := by
  refine ⟨_, rfl, (parseFlags_givesAgent_iff rfl allSucceed).mpr ?_⟩
  exact ⟨_, _, rfl, rfl, by decide, fun _ => ⟨rfl, by decide, rfl, rfl⟩⟩

/-- **Accepted, and no agent.** With every call successful: a manager is
uninitialised memory, worker 1 has no backend, and an id of 33 bits is
another id. -/
theorem parseFlags_accepts_unusable :
    (∃ cfg, parseFlags managerFive (appConfigDefaults none none) = .ok cfg ∧
      ¬ GivesAgent allSucceed managerFive cfg) ∧
    (∃ cfg, parseFlags workerOne (appConfigDefaults none none) = .ok cfg ∧
      ¬ GivesAgent allSucceed workerOne cfg) ∧
    ∃ cfg, parseFlags workerHuge (appConfigDefaults none none) = .ok cfg ∧ cfg.id = 5 ∧
      ¬ GivesAgent allSucceed workerHuge cfg := by
  refine ⟨⟨_, rfl, ?_⟩, ⟨_, rfl, ?_⟩, ⟨_, rfl, rfl, ?_⟩⟩
  · rintro ⟨_, _, hcreate⟩
    have hrole := ((pyoneerCreate_usable_iff rfl).mp hcreate).1
    cases hrole
  · rintro ⟨_, _, hcreate⟩
    have hid := ((pyoneerCreate_usable_iff rfl).mp hcreate).2.1
    exact absurd hid (by decide)
  · rintro ⟨⟨v, hv, hden⟩, _⟩
    obtain rfl : ascii "4294967301" = v := Option.some.inj hv
    exact absurd hden (by decide)

end Pyoneer.Main
