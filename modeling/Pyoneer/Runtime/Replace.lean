/-
Pyoneer.Runtime.Replace — `worker_run` and `worker_assign` replace the
job, or leave everything as it was.

Each of the two replaces objects at two levels, the runner in
`engine->job_runner` and `worker->job`, and each can fail: the lock, the
test of the status, `job_run`. Every point of failure comes before every
line that cannot be undone, so a call that returns NULL has written
nothing but cached statuses (`Worker.Left`). A call that returns a report
has stopped the old runner, stored the new one, destroyed the old job and
set the new one, in this order (`Phase`).

The other clients and the threads go on meanwhile. What is said of the
steps of the call holds whatever they do, and so does what the lock
protects. `engine->job_runner` is not protected, since a signal takes no
lock; what is said of the state holds when no other call acts during
this one (`Undisturbed`).
-/
import Pyoneer.Runtime.Ownership

namespace Pyoneer.Runtime

open Pyoneer.Lib Pyoneer.Blueprint

namespace Clients

/-! ## The steps of a call -/

/-- During a call of client `i`: it makes no other call, and the object
of its report is allocated. -/
def InCall (i : Nat) (_ : History Clients Label) (s : Clients) : Label → Prop
  | .call i' _ => i' ≠ i
  | .move i' ok => i' = i → (s.pcs i).allocates = true → ok = true
  | .thread _ _ => True

instance (i : Nat) (h : History Clients Label) (s : Clients) (l : Label) :
    Decidable (InCall i h s l) :=
  match l with
  | .call _ _ => inferInstanceAs (Decidable (_ ≠ _))
  | .move _ _ => inferInstanceAs (Decidable (_ → _ → _))
  | .thread _ _ => inferInstanceAs (Decidable True)

/-- The step is not one by which another call than that of client `i`
acts on the job or on the engine. -/
def Spares (i : Nat) (x : Clients × Label) : Prop :=
  ∀ i' ok, x.2 = .move i' ok → i' ≠ i → (x.1.pcs i').committed = false

/-- No other call acts on the job or on the engine. -/
def Undisturbed (i : Nat) (h : History Clients Label) : Prop := ∀ x ∈ h, Spares i x

/-- Every step of the call of client `i` leaves the worker alone. -/
def LeavesAll (i : Nat) (h : History Clients Label) : Prop :=
  ∀ u ok u', (u, Label.move i ok) ∈ h → u.step (.move i ok) = some u' →
    Worker.Left u.worker u'.worker

/-- The call for `r` has got the lock and goes on as `c`; it found `old`
in `worker->job`. -/
def Entered (i : Nat) (r : Request) (c : Cmd) (old : Option Nat) (h : History Clients Label) :
    Prop :=
  ∃ u, (u, Label.move i true) ∈ h ∧ u.pcs i = .enter r ∧ c = (r.place u.worker.core).2 ∧
    u.worker.job = old

/-- The call has read `r` in `engine->job_runner`. -/
def Swapped (i : Nat) (c : Cmd) (new r : Nat) (h : History Clients Label) : Prop :=
  ∃ u ok, (u, Label.move i ok) ∈ h ∧ u.pcs i = .engine c (.swap new) ∧
    u.worker.core.jobRunner = some r

/-- The call has read `engine->job_runner`, and has joined the thread of
the runner that it found there. -/
def Stopped (i : Nat) (c : Cmd) (new : Nat) (h : History Clients Label) : Prop :=
  ∃ u ok, (u, Label.move i ok) ∈ h ∧ u.pcs i = .engine c (.swap new) ∧
    ∀ r, u.worker.core.jobRunner = some r →
      ∃ v ok, (v, Label.move i ok) ∈ h ∧ v.pcs i = .engine c (.join r (.free new)) ∧
        Halted v.worker.core r

/-- The call has set `engine->job_runner`. -/
def Stored (i : Nat) (c : Cmd) (new : Nat) (h : History Clients Label) : Prop :=
  ∃ u ok, (u, Label.move i ok) ∈ h ∧ u.pcs i = .engine c (.store new)

/-- The call has destroyed `old`. -/
def Destroyed (i : Nat) (c : Cmd) (old : Option Nat) (h : History Clients Label) : Prop :=
  ∃ u ok j, (u, Label.move i ok) ∈ h ∧ u.pcs i = .destroyJob c j ∧ u.worker.job = old

/-- `engine_run` is done: the old runner is stopped, and the new one was
created for the job of the call. -/
def Swaps (i : Nat) (c : Cmd) (core : Core) (h : History Clients Label) : Prop :=
  ∀ j, c = .run j → ∃ new, Launched core c new ∧ Stopped i c new h ∧ Stored i c new h

/-- What the call of client `i` for `r` has done when it is at `pc`. -/
def Phase (i : Nat) (r : Request) (h : History Clients Label) (w : Worker) : CallPc → Prop
  | .enter r' => r' = r ∧ LeavesAll i h
  | .idle | .unlock _ none | .returned _ none => LeavesAll i h
  | .update c .guard | .scan c .guard _ _ _ | .mapStatus c .guard _ | .decide c =>
    LeavesAll i h ∧ Entered i r c w.job h
  | .engine c (.create j) => c.job = some j ∧ LeavesAll i h ∧ Entered i r c w.job h
  | .engine c (.swap new) => Entered i r c w.job h ∧ Launched w.core c new
  | .engine c (.cancel r' k) | .engine c (.join r' k) =>
    Entered i r c w.job h ∧ ∃ new, k = .free new ∧ Launched w.core c new ∧ Swapped i c new r' h
  | .engine c (.free _ new) | .engine c (.store new) =>
    Entered i r c w.job h ∧ Launched w.core c new ∧ Stopped i c new h
  | .engine _ _ => False
  | .destroyJob c j => c.job = some j ∧ Entered i r c w.job h ∧ Swaps i c w.core h
  | .setJob c j => c.job = some j ∧ ∃ old, Entered i r c old h ∧ Destroyed i c old h
  | .update c .report | .scan c .report _ _ _ | .mapStatus c .report _ | .encode c
  | .encodeScan c _ _ _ _ | .encodeStatus c _ _ | .encodeTasks c _ _ _ _ | .unlock c (some _) =>
    w.job = c.job ∧ ∃ old, Entered i r c old h ∧ Destroyed i c old h
  | .returned _ (some _) => True

section Phases

variable {i : Nat} {r : Request} {c : Cmd} {old : Option Nat} {new : Nat}
  {h : History Clients Label} {x : Clients × Label} {s s' : Clients} {pc pc' : CallPc}

theorem Entered.cons (hp : Entered i r c old h) : Entered i r c old (x :: h) := by
  obtain ⟨u, hm, hrest⟩ := hp
  exact ⟨u, List.mem_cons_of_mem x hm, hrest⟩

theorem Swapped.cons {r' : Nat} (hp : Swapped i c new r' h) : Swapped i c new r' (x :: h) := by
  obtain ⟨u, ok, hm, hrest⟩ := hp
  exact ⟨u, ok, List.mem_cons_of_mem x hm, hrest⟩

theorem Stopped.cons (hp : Stopped i c new h) : Stopped i c new (x :: h) := by
  obtain ⟨u, ok, hm, hpc, hjoin⟩ := hp
  refine ⟨u, ok, List.mem_cons_of_mem x hm, hpc, fun r hr => ?_⟩
  obtain ⟨v, ok', hm', hrest⟩ := hjoin r hr
  exact ⟨v, ok', List.mem_cons_of_mem x hm', hrest⟩

theorem Stored.cons (hp : Stored i c new h) : Stored i c new (x :: h) := by
  obtain ⟨u, ok, hm, hrest⟩ := hp
  exact ⟨u, ok, List.mem_cons_of_mem x hm, hrest⟩

theorem Destroyed.cons (hp : Destroyed i c old h) : Destroyed i c old (x :: h) := by
  obtain ⟨u, ok, j, hm, hrest⟩ := hp
  exact ⟨u, ok, j, List.mem_cons_of_mem x hm, hrest⟩

/-- A call with a job takes the lock, and has the job when it has it. -/
theorem Entered.isCommand (hr : r.givesJob = true) (hp : Entered i r c old h) :
    c.isCommand = true := by
  obtain ⟨u, _, _, rfl, _⟩ := hp
  cases r with
  | run d | assign d => rfl
  | _ => cases hr

theorem LeavesAll.cons (hp : LeavesAll i h)
    (hx : ∀ ok u', x.2 = .move i ok → x.1.step (.move i ok) = some u' →
      Worker.Left x.1.worker u'.worker) : LeavesAll i (x :: h) := by
  intro u ok u' hm hs
  rcases List.mem_cons.mp hm with rfl | hm
  · exact hx ok u' rfl hs
  · exact hp u ok u' hm hs

/-- A step of the call that leaves the worker alone. -/
theorem LeavesAll.move {ok : Bool} (hp : LeavesAll i h) (hs : s.step (.move i ok) = some s')
    (hl : Worker.Left s.worker s'.worker) : LeavesAll i ((s, .move i ok) :: h) := by
  refine hp.cons fun ok' u' heq hs' => ?_
  cases heq
  rw [hs] at hs'
  cases hs'
  exact hl

/-- A step that is not one of the call. -/
theorem LeavesAll.other {l : Label} (hp : LeavesAll i h) (hx : ∀ ok, l ≠ .move i ok) :
    LeavesAll i ((s, l) :: h) :=
  hp.cons fun ok _ heq => absurd heq (hx ok)

theorem phase_of_waits {w : Worker} (hw : pc.waits = some c) :
    Phase i r h w pc ↔ LeavesAll i h ∧ Entered i r c w.job h := by
  cases pc with
  | update c' y | scan c' y j k seen | mapStatus c' y j =>
    cases y <;> cases hw
    exact Iff.rfl
  | decide c' =>
    cases hw
    exact Iff.rfl
  | _ => cases hw

theorem phase_of_reporting {w : Worker} (hr : pc.reporting = some c) :
    Phase i r h w pc ↔ w.job = c.job ∧ ∃ old, Entered i r c old h ∧ Destroyed i c old h := by
  cases pc with
  | update c' y | scan c' y j k seen | mapStatus c' y j =>
    cases y <;> cases hr
    exact Iff.rfl
  | unlock c' report =>
    cases report <;> cases hr
    exact Iff.rfl
  | encode c' | encodeScan c' st j k seen | encodeStatus c' st j | encodeTasks c' st j k report =>
    cases hr
    exact Iff.rfl
  | _ => cases hr

theorem phase_of_null {w : Worker} (hn : pc.null = true) :
    Phase i r h w pc ↔ LeavesAll i h := by
  cases pc with
  | unlock c report | returned c report =>
    cases report <;> cases hn
    exact Iff.rfl
  | idle => exact Iff.rfl
  | _ => cases hn

/-- A step that is not one of the call, while `worker->job` is protected
and the runners keep their jobs. -/
theorem Phase.other {l : Label} {w w' : Worker} (hr : r.givesJob = true) (hp : Phase i r h w pc)
    (hx : ∀ ok, l ≠ .move i ok) (hjob : pc.holdsLock = true → w'.job = w.job)
    (hnew : ∀ c new, Launched w.core c new → Launched w'.core c new) :
    Phase i r ((s, l) :: h) w' pc := by
  have hkept : ∀ c, pc.holdsLock = c.isCommand → Entered i r c w.job h →
      Entered i r c w'.job ((s, l) :: h) := fun c hc hp => by
    rw [hjob (hc.trans (hp.isCommand hr))]
    exact hp.cons
  rcases pc.stage_cases with ⟨r', rfl⟩ | ⟨c, hw⟩ | hc | ⟨c, hrep⟩ | hn | ⟨c, report, rfl⟩
  · exact ⟨hp.1, hp.2.other hx⟩
  · rw [phase_of_waits hw] at hp ⊢
    exact ⟨hp.1.other hx, hkept c (CallPc.of_waits hw).2 hp.2⟩
  · cases pc with
    | engine c epc =>
      cases epc with
      | create j => exact ⟨hp.1, hp.2.1.other hx, hkept c rfl hp.2.2⟩
      | swap new => exact ⟨hkept c rfl hp.1, hnew c new hp.2⟩
      | cancel r' k | join r' k =>
        obtain ⟨hent, new, rfl, hlaunch, hswap⟩ := hp
        exact ⟨hkept c rfl hent, new, rfl, hnew c new hlaunch, hswap.cons⟩
      | free r' new | store new => exact ⟨hkept c rfl hp.1, hnew c new hp.2.1, hp.2.2.cons⟩
      | _ => exact hp
    | destroyJob c j =>
      obtain ⟨hc, hent, hswaps⟩ := hp
      refine ⟨hc, hkept c rfl hent, fun j hj => ?_⟩
      obtain ⟨new, hlaunch, hstop, hstore⟩ := hswaps j hj
      exact ⟨new, hnew c new hlaunch, hstop.cons, hstore.cons⟩
    | setJob c j =>
      obtain ⟨hc, old, hent, hdes⟩ := hp
      exact ⟨hc, old, hent.cons, hdes.cons⟩
    | _ => cases hc
  · rw [phase_of_reporting hrep] at hp ⊢
    obtain ⟨hset, old, hent, hdes⟩ := hp
    have hlock := (CallPc.of_reporting hrep).2.trans (hent.isCommand hr)
    exact ⟨(hjob hlock).trans hset, old, hent.cons, hdes.cons⟩
  · rw [phase_of_null hn] at hp ⊢
    exact hp.other hx
  · trivial

/-- The call gets the lock, or fails to. -/
theorem Phase.enter {ok : Bool} {w' : Worker} (hr : r.givesJob = true) (hpc : s.pcs i = .enter r)
    (hall : Worker.Left s.worker w' → LeavesAll i ((s, .move i ok) :: h))
    (hcall : s.worker.callStep (.enter r) ok = some (w', pc')) :
    Phase i r ((s, .move i ok) :: h) w' pc' := by
  have hl := hall (.of_callStep rfl hcall)
  have hcmd : r.isCommand = true := by
    cases r with
    | run d | assign d => rfl
    | _ => cases hr
  simp only [Worker.callStep, hcmd, if_true] at hcall
  split at hcall
  · cases hcall
    exact hl
  · rename_i hok
    have hok : ok = true := by simpa using hok
    subst hok
    split at hcall <;> cases hcall
    cases r with
    | run d | assign d => exact ⟨hl, s, List.mem_cons_self, hpc, rfl, rfl⟩
    | _ => cases hr

/-- `engine_run`. -/
theorem Phase.engine {ok : Bool} {w' : Worker} {epc : EnginePc} (hpc : s.pcs i = .engine c epc)
    (hshape : (CallPc.engine c epc).Shape) (hp : Phase i r h s.worker (.engine c epc))
    (hall : LeavesAll i h → Worker.Left s.worker w' → LeavesAll i ((s, .move i ok) :: h))
    (hcall : s.worker.callStep (.engine c epc) ok = some (w', pc')) :
    Phase i r ((s, .move i ok) :: h) w' pc' := by
  have hnew : ∀ new, Launched s.worker.core c new → Launched w'.core c new :=
    fun new h => h.callStep hcall
  obtain ⟨core', epc', he, rfl, rfl⟩ := Worker.callStep_engine hcall
  cases epc with
  | create j =>
    obtain ⟨hj, hleaves, hent⟩ := hp
    simp only [engineStep] at he
    split at he <;> cases he
    · have hl := hall hleaves (.of_core rfl rfl)
      cases c <;> exact hl
    · refine ⟨hent.cons, Nat.lt_succ_self _, ?_⟩
      simpa [Core.launch, Core.spawn, Core.newRunner] using hj
  | swap new =>
    obtain ⟨hent, hlaunch⟩ := hp
    simp only [engineStep] at he
    split at he <;> cases he
    · rename_i hnone
      exact ⟨hent.cons, hnew new hlaunch, s, ok, List.mem_cons_self, hpc, by simp [hnone]⟩
    · rename_i r' hheld
      exact ⟨hent.cons, new, rfl, hnew new hlaunch, s, ok, List.mem_cons_self, hpc, hheld⟩
  | cancel r' k =>
    obtain ⟨hent, new, rfl, hlaunch, hswap⟩ := hp
    cases he
    exact ⟨hent.cons, new, rfl, hnew new hlaunch, hswap.cons⟩
  | join r' k =>
    obtain ⟨hent, new, rfl, hlaunch, u, ok', hm, hu, hheld⟩ := hp
    simp only [engineStep] at he
    split at he <;> cases he
    rename_i hexited
    refine ⟨hent.cons, hnew new hlaunch, u, ok', List.mem_cons_of_mem _ hm, hu, fun r'' hr'' => ?_⟩
    obtain rfl : r' = r'' := Option.some.inj (hheld.symm.trans hr'')
    exact ⟨s, ok, List.mem_cons_self, hpc, hexited⟩
  | free r' new =>
    cases he
    exact ⟨hp.1.cons, hnew new hp.2.1, hp.2.2.cons⟩
  | store new =>
    obtain ⟨hent, hlaunch, hstop⟩ := hp
    cases he
    cases c with
    | run j =>
      exact ⟨rfl, hent.cons, fun _ _ =>
        ⟨new, hnew new hlaunch, hstop.cons, s, ok, List.mem_cons_self, hpc⟩⟩
    | assign j => exact absurd rfl (hshape.2 j)
    | _ => cases hlaunch.2
  | _ => exact hp.elim

/-- A step of the call. -/
theorem Phase.move {ok : Bool} (hr : r.givesJob = true) (hshape : (s.pcs i).Shape)
    (hp : Phase i r h s.worker (s.pcs i)) (hok : InCall i h s (.move i ok))
    (hs : s.step (.move i ok) = some s') :
    Phase i r ((s, .move i ok) :: h) s'.worker (s'.pcs i) := by
  have hall : LeavesAll i h → Worker.Left s.worker s'.worker →
      LeavesAll i ((s, .move i ok) :: h) := fun hp hl => hp.move hs hl
  obtain ⟨w', pc', hcall, rfl⟩ := step_move hs
  simp only [Function.update_self]
  rcases (s.pcs i).stage_cases with ⟨r', hpc⟩ | ⟨c, hw⟩ | hc | ⟨c, hrep⟩ | hn | ⟨c, report, hpc⟩
  · rw [hpc] at hp hcall
    obtain ⟨rfl, hleaves⟩ := hp
    exact .enter hr hpc (hall hleaves) hcall
  · have hl := Worker.Left.of_callStep (CallPc.of_waits hw).1 hcall
    obtain ⟨hleaves, hent⟩ := (phase_of_waits hw).mp hp
    have hleaves := hall hleaves hl
    have hent' : Entered i r c w'.job ((s, .move i ok) :: h) := by
      rw [hl.job]
      exact hent.cons
    rcases Worker.callStep_waits hw (hent.isCommand hr) hcall with hw' | rfl | ⟨j, rfl, rfl⟩ |
      ⟨j, rfl, rfl⟩
    · exact (phase_of_waits hw').mpr ⟨hleaves, hent'⟩
    · exact hleaves
    · exact ⟨rfl, hleaves, hent'⟩
    · exact ⟨rfl, hent', fun j hj => by cases hj⟩
  · cases hpc : s.pcs i with
    | engine c epc =>
      rw [hpc] at hp hcall hshape
      exact .engine hpc hshape hp hall hcall
    | destroyJob c j =>
      rw [hpc] at hp hcall
      cases hcall
      exact ⟨hp.1, s.worker.job, hp.2.1.cons, s, ok, j, List.mem_cons_self, hpc, rfl⟩
    | setJob c j =>
      rw [hpc] at hp hcall
      cases hcall
      obtain ⟨hc, old, hent, hdes⟩ := hp
      exact ⟨hc.symm, old, hent.cons, hdes.cons⟩
    | _ =>
      rw [hpc] at hc
      cases hc
  · have hl := Worker.Left.of_callStep (CallPc.of_reporting hrep).1 hcall
    obtain ⟨hset, old, hent, hdes⟩ := (phase_of_reporting hrep).mp hp
    rcases Worker.callStep_reporting hrep hcall with hrep' | ⟨report, rfl⟩ | ⟨ha, hfalse, _⟩
    · exact (phase_of_reporting hrep').mpr ⟨hl.job.trans hset, old, hent.cons, hdes.cons⟩
    · trivial
    · rw [hok rfl ha] at hfalse
      cases hfalse
  · have hl := Worker.Left.of_callStep (CallPc.committed_of_null hn) hcall
    have hn' := Worker.callStep_of_null hn hcall
    exact (phase_of_null hn').mpr (hall ((phase_of_null hn).mp hp) hl)
  · rw [hpc] at hcall
    cases hcall

end Phases

/-! ## The state, when no other call acts -/

/-- Every runner that `w₀` has in `engine->job_runner` has been
stopped. -/
def HeldHalted (w₀ w : Worker) : Prop := ∀ r, w₀.core.jobRunner = some r → Halted w.core r

/-- The worker when the call is at `pc`, if it was `w₀` when the call was
made. -/
def Standing (w₀ w : Worker) : CallPc → Prop
  | .engine _ (.swap _) => w.core.jobRunner = w₀.core.jobRunner
  | .engine _ (.cancel r _) | .engine _ (.join r _) => w₀.core.jobRunner = some r
  | .engine _ (.free _ _) | .engine _ (.store _) => HeldHalted w₀ w
  | .destroyJob c _ => ∀ j, c = .run j → HeldHalted w₀ w ∧ Matched w.core j
  | .setJob c _ | .update c .report | .scan c .report _ _ _ | .mapStatus c .report _ | .encode c
  | .encodeScan c _ _ _ _ | .encodeStatus c _ _ | .encodeTasks c _ _ _ _ | .unlock c (some _) =>
    ∀ j, c = .run j → Matched w.core j
  | .returned _ (some _) => True
  | _ => Worker.Same w₀ w

section Standing

variable {i : Nat} {r : Request} {h : History Clients Label} {s s' : Clients} {pc pc' : CallPc}
  {w₀ w w' : Worker}

theorem standing_of_waits {c : Cmd} (hw : pc.waits = some c) :
    Standing w₀ w pc ↔ Worker.Same w₀ w := by
  cases pc with
  | update c' y | scan c' y j k seen | mapStatus c' y j =>
    cases y <;> cases hw
    exact Iff.rfl
  | decide c' => exact Iff.rfl
  | _ => cases hw

theorem standing_of_reporting {c : Cmd} (hr : pc.reporting = some c) :
    Standing w₀ w pc ↔ ∀ j, c = .run j → Matched w.core j := by
  cases pc with
  | update c' y | scan c' y j k seen | mapStatus c' y j =>
    cases y <;> cases hr
    exact Iff.rfl
  | unlock c' report =>
    cases report <;> cases hr
    exact Iff.rfl
  | encode c' | encodeScan c' st j k seen | encodeStatus c' st j | encodeTasks c' st j k report =>
    cases hr
    exact Iff.rfl
  | _ => cases hr

theorem standing_of_null (hn : pc.null = true) : Standing w₀ w pc ↔ Worker.Same w₀ w := by
  cases pc with
  | unlock c report | returned c report =>
    cases report <;> cases hn
    exact Iff.rfl
  | idle => exact Iff.rfl
  | _ => cases hn

/-- A step that is not one of the call. -/
theorem Standing.other (hp : Standing w₀ w pc) (hs : Worker.Same w w')
    (hh : ∀ r, Halted w.core r → Halted w'.core r) : Standing w₀ w' pc := by
  have hheld : HeldHalted w₀ w → HeldHalted w₀ w' := fun hp r hr => hh r (hp r hr)
  rcases pc.stage_cases with ⟨r', rfl⟩ | ⟨c, hw⟩ | hc | ⟨c, hrep⟩ | hn | ⟨c, report, rfl⟩
  · exact Worker.Same.trans hp hs
  · rw [standing_of_waits hw] at hp ⊢
    exact hp.trans hs
  · cases pc with
    | engine c epc =>
      cases epc with
      | swap new => exact hs.jobRunner.trans hp
      | cancel r k | join r k => exact hp
      | free r new | store new => exact hheld hp
      | _ => exact Worker.Same.trans hp hs
    | destroyJob c j => exact fun j hj => ⟨hheld (hp j hj).1, (hp j hj).2.same hs⟩
    | setJob c j => exact fun j hj => Matched.same (hp j hj) hs
    | _ => cases hc
  · rw [standing_of_reporting hrep] at hp ⊢
    exact fun j hj => (hp j hj).same hs
  · rw [standing_of_null hn] at hp ⊢
    exact hp.trans hs
  · trivial

/-- `engine_run`. -/
theorem Standing.engine {c : Cmd} {epc : EnginePc} {ok : Bool}
    (hshape : (CallPc.engine c epc).Shape) (hphase : Phase i r h w (.engine c epc))
    (hp : Standing w₀ w (.engine c epc))
    (hcall : w.callStep (.engine c epc) ok = some (w', pc')) : Standing w₀ w' pc' := by
  obtain ⟨core', epc', he, rfl, rfl⟩ := Worker.callStep_engine hcall
  cases epc with
  | create j =>
    simp only [engineStep] at he
    split at he <;> cases he
    · cases c <;> exact hp
    · have hp : Worker.Same w₀ w := hp
      exact hp.jobRunner
  | swap new =>
    have hp : w.core.jobRunner = w₀.core.jobRunner := hp
    simp only [engineStep] at he
    split at he <;> cases he
    · rename_i hnone
      intro r hr
      rw [← hp, hnone] at hr
      cases hr
    · rename_i r' hheld
      exact hp.symm.trans hheld
  | cancel r' k =>
    cases he
    exact hp
  | join r' k =>
    obtain ⟨_, new, rfl, _⟩ := hphase
    have hp : w₀.core.jobRunner = some r' := hp
    simp only [engineStep] at he
    split at he <;> cases he
    rename_i hexited
    intro r hr
    obtain rfl : r' = r := Option.some.inj (hp.symm.trans hr)
    unfold Halted Core.join
    rw [update_field w.core.threads (fun x => x.body.pc) (by rfl)]
    exact hexited
  | free r' new =>
    cases he
    intro r hr
    have htid : (w.core.freeRunner r').tid r = w.core.tid r :=
      update_field w.core.runners JobRunner.jobTid (by rfl) r
    unfold Halted
    rw [htid]
    exact hp r hr
  | store new =>
    obtain ⟨_, hlaunch, _⟩ := hphase
    cases he
    cases c with
    | run j =>
      intro j' hj'
      obtain rfl : j = j' := Cmd.run.inj hj'
      exact ⟨hp, new, rfl, (Option.some.inj hlaunch.2).symm⟩
    | assign j => exact absurd rfl (hshape.2 j)
    | _ => cases hlaunch.2
  | _ => exact hphase.elim

/-- A step of the call. -/
theorem Standing.move {ok : Bool} (hr : r.givesJob = true) (hshape : pc.Shape)
    (hphase : Phase i r h w pc) (hp : Standing w₀ w pc) (hok : pc.allocates = true → ok = true)
    (hcall : w.callStep pc ok = some (w', pc')) : Standing w₀ w' pc' := by
  rcases pc.stage_cases with ⟨r', rfl⟩ | ⟨c, hw⟩ | hc | ⟨c, hrep⟩ | hn | ⟨c, report, rfl⟩
  · obtain ⟨rfl, _⟩ := hphase
    have hsame := Worker.Same.trans hp (Worker.Left.of_callStep rfl hcall).same
    simp only [Worker.callStep] at hcall
    cases r' with
    | run d | assign d => split_ifs at hcall <;> cases hcall <;> exact hsame
    | _ => cases hr
  · have hl := Worker.Left.of_callStep (CallPc.of_waits hw).1 hcall
    have hsame := ((standing_of_waits hw).mp hp).trans hl.same
    have hcmd := ((phase_of_waits hw).mp hphase).2.isCommand hr
    rcases Worker.callStep_waits hw hcmd hcall with hw' | rfl | ⟨j, rfl, rfl⟩ | ⟨j, rfl, rfl⟩
    · exact (standing_of_waits hw').mpr hsame
    · exact hsame
    · exact hsame
    · exact fun j hj => by cases hj
  · cases pc with
    | engine c epc => exact .engine hshape hphase hp hcall
    | destroyJob c j =>
      cases hcall
      intro j' hj'
      obtain ⟨new, hheld, hj⟩ := (hp j' hj').2
      refine ⟨new, ?_, ?_⟩ <;> cases w.job <;> assumption
    | setJob c j =>
      cases hcall
      exact hp
    | _ => cases hc
  · have hl := Worker.Left.of_callStep (CallPc.of_reporting hrep).1 hcall
    have hruns := (standing_of_reporting hrep).mp hp
    rcases Worker.callStep_reporting hrep hcall with hrep' | ⟨report, rfl⟩ | ⟨ha, hfalse, _⟩
    · exact (standing_of_reporting hrep').mpr fun j hj => (hruns j hj).same hl.same
    · trivial
    · rw [hok ha] at hfalse
      cases hfalse
  · have hl := Worker.Left.of_callStep (CallPc.committed_of_null hn) hcall
    have hn' := Worker.callStep_of_null hn hcall
    exact (standing_of_null hn').mpr (((standing_of_null hn).mp hp).trans hl.same)
  · cases hcall

end Standing

/-! ## Runs -/

section Runs

variable {i : Nat} {r : Request} {h : History Clients Label} {s s' s₁ : Clients} {l : Label}

/-- A step of another call, or of a thread. -/
theorem step_other (ho : Owned s) (hl : InCall i h s l) (hx : ∀ ok, l ≠ .move i ok)
    (hs : s.step l = some s') :
    s'.pcs i = s.pcs i ∧ ((s.pcs i).holdsLock = true → s'.worker.job = s.worker.job) ∧
      ∀ c new, Launched s.worker.core c new → Launched s'.worker.core c new := by
  cases l with
  | call i' r' =>
    have hne : i ≠ i' := fun h => hl h.symm
    obtain ⟨rfl, _⟩ := step_call hs
    exact ⟨Function.update_of_ne hne _ _, fun _ => rfl, fun _ _ => id⟩
  | thread t l =>
    obtain ⟨core', hthread, rfl⟩ := step_thread hs
    exact ⟨rfl, fun _ => rfl, fun _ _ hn => hn.threadStep hthread⟩
  | move i' ok =>
    have hne : i ≠ i' := by
      rintro rfl
      exact hx ok rfl
    obtain ⟨w', pc', hcall, rfl⟩ := step_move hs
    refine ⟨Function.update_of_ne hne _ _, fun hlock => ?_, fun _ _ hn => hn.callStep hcall⟩
    have hshape := ho.fresh.shape i'
    rcases Worker.callStep_replaces hshape hcall with ⟨hjob, _⟩ | ⟨_, _, _, _, rfl⟩ |
      ⟨c, j, hpc, _, _⟩
    · exact hjob
    · rfl
    · -- the line that sets the job is run under the lock
      rw [hpc] at hshape
      have hlock' : (s.pcs i').holdsLock = true := by
        rw [hpc]
        exact Cmd.isCommand_of_job hshape
      exact absurd (ho.unique i i' hlock hlock') hne

/-- The same, when the other call does not act. -/
theorem step_spares (hx : ∀ ok, l ≠ .move i ok) (hsp : Spares i (s, l))
    (hs : s.step l = some s') :
    Worker.Same s.worker s'.worker ∧ ∀ r, Halted s.worker.core r → Halted s'.worker.core r := by
  cases l with
  | call i' r' =>
    obtain ⟨rfl, _⟩ := step_call hs
    exact ⟨.refl _, fun _ => id⟩
  | thread t l =>
    obtain ⟨core', hthread, rfl⟩ := step_thread hs
    exact ⟨.threadStep hthread, fun _ hh => hh.threadStep hthread⟩
  | move i' ok =>
    have hne : i' ≠ i := by
      rintro rfl
      exact hx ok rfl
    obtain ⟨w', pc', hcall, rfl⟩ := step_move hs
    have hl := Worker.Left.of_callStep (hsp i' ok rfl hne) hcall
    exact ⟨hl.same, fun _ hh => hh.left hl⟩

theorem Phase.step (hr : r.givesJob = true) (ho : Owned s) (hp : Phase i r h s.worker (s.pcs i))
    (hl : InCall i h s l) (hs : s.step l = some s') :
    Phase i r ((s, l) :: h) s'.worker (s'.pcs i) := by
  by_cases hx : ∀ ok, l ≠ .move i ok
  · obtain ⟨hpc, hjob, hnew⟩ := step_other ho hl hx hs
    rw [hpc]
    exact hp.other hr hx hjob hnew
  · obtain ⟨ok, rfl⟩ := Classical.not_forall_not.mp hx
    exact hp.move hr (ho.fresh.shape i) hl hs

/-- Where the call is, and what it has done. -/
theorem run_phase (hr : r.givesJob = true) (ho : Owned s₁)
    (hp : Phase i r [] s₁.worker (s₁.pcs i)) (hrun : Run step (InCall i) s₁ h s) :
    Owned s ∧ Phase i r h s.worker (s.pcs i) :=
  Run.invariant (I := fun h s => Owned s ∧ Phase i r h s.worker (s.pcs i)) ⟨ho, hp⟩
    (fun _ _ _ _ hi hl hs => ⟨hi.1.step hs, hi.2.step hr hi.1 hl hs⟩) hrun

/-- The state along the run, when no other call acts. -/
theorem run_standing (hr : r.givesJob = true) (ho : Owned s₁)
    (hp : Phase i r [] s₁.worker (s₁.pcs i)) (hst : Standing s₁.worker s₁.worker (s₁.pcs i))
    (hrun : Run step (fun h s l => InCall i h s l ∧ Spares i (s, l)) s₁ h s) :
    Standing s₁.worker s.worker (s.pcs i) := by
  refine (Run.invariant (I := fun h s => (Owned s ∧ Phase i r h s.worker (s.pcs i)) ∧
    Standing s₁.worker s.worker (s.pcs i)) ⟨⟨ho, hp⟩, hst⟩ ?_ hrun).2
  rintro h s l s' ⟨⟨ho, hp⟩, hst⟩ ⟨hl, hsp⟩ hs
  refine ⟨⟨ho.step hs, hp.step hr ho hl hs⟩, ?_⟩
  by_cases hx : ∀ ok, l ≠ .move i ok
  · obtain ⟨hsame, hh⟩ := step_spares hx hsp hs
    rw [(step_other ho hl hx hs).1]
    exact hst.other hsame hh
  · obtain ⟨ok, rfl⟩ := Classical.not_forall_not.mp hx
    have hok : (s.pcs i).allocates = true → ok = true := hl rfl
    obtain ⟨w', pc', hcall, rfl⟩ := step_move hs
    simp only [Function.update_self]
    exact hst.move hr (ho.fresh.shape i) hp hok hcall

/-- Before its first step a call has done nothing. -/
theorem start_of_call (hpc : s₁.pcs i = .idle ∨ s₁.pcs i = .enter r) :
    Phase i r [] s₁.worker (s₁.pcs i) ∧ Standing s₁.worker s₁.worker (s₁.pcs i) := by
  have hnil : LeavesAll i [] := fun _ _ _ hm => by cases hm
  rcases hpc with hpc | hpc <;> rw [hpc]
  · exact ⟨hnil, Worker.Same.refl _⟩
  · exact ⟨⟨rfl, hnil⟩, Worker.Same.refl _⟩

end Runs

/-! ## The call and its answer -/

/-- Client `i` calls `worker_run` or `worker_assign`. Without a job the
call returns NULL at once. -/
def give (s : Clients) (i : Nat) (make : Decoded → Request) (job : Option Decoded) :
    Option Clients :=
  match s.pcs i with
  | .idle | .returned _ _ =>
    if i < s.count then
      let pc := match job with
        | none => .idle
        | some d => .enter (make d)
      some { s with pcs := Function.update s.pcs i pc }
    else none
  | _ => none

/-- The call has left the worker as it was: none of its steps changed
the job, the runners, the threads or the status of a task, of the given
job neither, and when no other call acted, nothing has changed but by the
progress of the threads. -/
structure Refused (i : Nat) (make : Decoded → Request) (job : Option Decoded) (s₀ : Clients)
    (h : History Clients Label) (s : Clients) : Prop where
  leaves : LeavesAll i h
  given : ∀ d u u', job = some d → (u, Label.move i true) ∈ h → u.pcs i = .enter (make d) →
    u.step (.move i true) = some u' →
      u'.worker.core.jobs u.worker.core.njobs = d.1
  same : Undisturbed i h → Worker.Same s₀.worker s.worker

/-- The call for `r` has replaced `old`, which it found in `worker->job`
when it got the lock, by its job. Nobody else destroyed `old`, and it was
destroyed after `engine_run` had stopped the old runner and stored one
for the new job. -/
structure Replaced (i : Nat) (r : Request) (c : Cmd) (old : Option Nat) (s₀ : Clients)
    (h₀ h : History Clients Label) (s : Clients) : Prop where
  entered : Entered i r c old h
  job : s.worker.job = c.job ∧ c.job ≠ none
  once : ∀ o, old = some o → (h ++ (s₀, .call i r) :: h₀).countP (destroys o) = 1
  order : ∃ h₂ v ok j h₁, h = h₂ ++ (v, .move i ok) :: h₁ ∧ v.pcs i = .destroyJob c j ∧
    v.worker.job = old ∧ Swaps i c v.worker.core h₁
  state : Undisturbed i h → old = s₀.worker.job ∧
    ∀ j, c = .run j → Matched s.worker.core j ∧
      ∀ v ok j', (v, Label.move i ok) ∈ h → v.pcs i = .destroyJob c j' →
        HeldHalted s₀.worker v.worker

section Answers

variable {i : Nat} {make : Decoded → Request} {d : Decoded} {job : Option Decoded}
  {h₀ h : History Clients Label} {s₀ s₁ s s' : Clients}

theorem give_none (hgive : s₀.give i make none = some s₁) :
    s₁ = { s₀ with pcs := Function.update s₀.pcs i .idle } ∧ (s₀.pcs i).cmd = none := by
  simp only [give] at hgive
  split at hgive
  · rename_i hpc
    split at hgive <;> cases hgive
    exact ⟨rfl, by rw [hpc]; rfl⟩
  · rename_i hpc
    split at hgive <;> cases hgive
    exact ⟨rfl, by rw [hpc]; rfl⟩
  · cases hgive

/-- With a job it is a call of `Clients.step`. -/
theorem give_some (hgive : s₀.give i make (some d) = some s₁) :
    s₀.step (.call i (make d)) = some s₁ := by
  cases hpc : s₀.pcs i with
  | idle | returned c report =>
    simp only [give, hpc] at hgive
    simp only [Clients.step, hpc]
    exact hgive
  | _ =>
    simp only [give, hpc] at hgive
    cases hgive

/-- The job gets its number as it is. -/
theorem enter_given (hmake : make = .run ∨ make = .assign) {u u' : Clients}
    (hpc : u.pcs i = .enter (make d)) (hs : u.step (.move i true) = some u') :
    u'.worker.core.jobs u.worker.core.njobs = d.1 := by
  obtain ⟨w', pc', hcall, rfl⟩ := step_move hs
  rw [hpc] at hcall
  rcases hmake with rfl | rfl
  all_goals
    simp only [Worker.callStep, Request.isCommand, if_true] at hcall
    split at hcall
    · rename_i hfalse
      cases hfalse
    · split at hcall <;> cases hcall
      simp [Request.place, Core.newJob]

theorem givesJob_of_make (hmake : make = .run ∨ make = .assign) : (make d).givesJob = true := by
  rcases hmake with rfl | rfl <;> rfl

/-- Without a job nothing happens. -/
theorem run_idle (ho : Owned s₁) (hpc : s₁.pcs i = .idle) (hrun : Run step (InCall i) s₁ h s) :
    s.pcs i = .idle := by
  refine (Run.state_invariant (I := fun s => Owned s ∧ s.pcs i = .idle) ⟨ho, hpc⟩ ?_ hrun).2
  rintro h s l s' ⟨ho, hpc⟩ hl hs
  have hx : ∀ ok, l ≠ .move i ok := by
    rintro ok rfl
    obtain ⟨w', pc', hcall, _⟩ := step_move hs
    rw [hpc] at hcall
    cases hcall
  exact ⟨ho.step hs, (step_other ho hl hx hs).1.trans hpc⟩

/-- A call that has returned NULL. -/
theorem run_refused (hmake : make = .run ∨ make = .assign) (ho : Owned s₁)
    (hw : s₁.worker = s₀.worker) (hpc : s₁.pcs i = .idle ∨ s₁.pcs i = .enter (make d))
    (hrun : Run step (InCall i) s₁ h s)
    (hnull : s.pcs i = .idle ∨ ∃ c, s.pcs i = .returned c none) :
    Refused i make job s₀ h s := by
  have hr : (make d).givesJob = true := givesJob_of_make hmake
  obtain ⟨hp, hst⟩ := start_of_call hpc
  have hphase := (run_phase hr ho hp hrun).2
  refine ⟨?_, fun d u u' _ _ hu hs => enter_given hmake hu hs, fun hund => ?_⟩
  · rcases hnull with hs | ⟨c, hs⟩ <;> rw [hs] at hphase <;> exact hphase
  · have hstand := run_standing hr ho hp hst (hrun.restrict hund)
    rw [← hw]
    rcases hnull with hs | ⟨c, hs⟩ <;> rw [hs] at hstand <;> exact hstand

/-- A call that returns a report. -/
theorem run_replaced {n : Nat} {c : Cmd} {report : Report} {ok : Bool} {t : Clients}
    (hmake : make = .run ∨ make = .assign) (hrun₀ : Run step always (create n) h₀ s₀)
    (hcall : s₀.step (.call i (make d)) = some s₁) (hrun : Run step (InCall i) s₁ h t)
    (hok : InCall i h t (.move i ok)) (hs : t.step (.move i ok) = some s)
    (hpc : s.pcs i = .returned c (some report)) :
    ∃ old, Replaced i (make d) c old s₀ h₀ ((t, .move i ok) :: h) s := by
  have hr : (make d).givesJob = true := givesJob_of_make hmake
  have ho : Owned s₁ := (run_owned hrun₀).step hcall
  have hstart : s₁.worker = s₀.worker ∧ s₁.pcs i = .enter (make d) := by
    obtain ⟨rfl, _⟩ := step_call hcall
    exact ⟨rfl, Function.update_self ..⟩
  obtain ⟨hw, henter⟩ := hstart
  obtain ⟨hp, hst⟩ := start_of_call (Or.inr henter)
  -- the last step gives the lock back
  have hlast : t.pcs i = .unlock c (some report) ∧ s.worker.job = t.worker.job ∧
      s.worker.core = t.worker.core := by
    obtain ⟨w', pc', hstep, rfl⟩ := step_move hs
    obtain rfl : pc' = .returned c (some report) := by simpa using hpc
    obtain ⟨hunlock, rfl⟩ := (Worker.callStep_ends hstep).2 c report rfl
    exact ⟨hunlock, rfl, rfl⟩
  obtain ⟨hunlock, hjob, hcore⟩ := hlast
  have hphase := (run_phase hr ho hp hrun).2
  rw [hunlock] at hphase
  obtain ⟨hset, old, hent, v, ok', j, hm, hv, hold⟩ := hphase
  refine ⟨old, hent.cons, ⟨hjob.trans hset, ?_⟩, fun o hoo => ?_, ?_, fun hund => ?_⟩
  · obtain ⟨u, _, _, rfl, _⟩ := hent
    rcases hmake with rfl | rfl <;> simp [Request.place, Cmd.job]
  · have hall := (Run.snoc hrun₀ trivial hcall).append (Run.snoc hrun hok hs)
    have hcount := (run_destroyed_once hall).2 o
    have hpos : 0 < (((t, Label.move i ok) :: h) ++ (s₀, .call i (make d)) :: h₀).countP
        (destroys o) := by
      refine List.countP_pos_iff.mpr ⟨(v, .move i ok'), ?_, by simp [destroys, hv, hold, hoo]⟩
      exact List.mem_append_left _ (List.mem_cons_of_mem _ hm)
    have hle := Bool.toNat_le (s.worker.core.jobFreed o)
    omega
  · obtain ⟨h₂, h₁, v', rfl, hrunv, _, _⟩ := hrun.mem_split hm
    have hphasev := (run_phase hr ho hp hrunv).2
    rw [hv] at hphasev
    exact ⟨(t, .move i ok) :: h₂, v, ok', j, h₁, rfl, hv, hold, hphasev.2.2⟩
  · have hrest := (Run.snoc hrun hok hs).restrict hund
    have hstand : ∀ {u : Clients} {l : Label}, (u, l) ∈ (t, Label.move i ok) :: h →
        Standing s₁.worker u.worker (u.pcs i) := fun hu => by
      obtain ⟨_, _, hru, _⟩ := hrest.mem hu
      exact run_standing hr ho hp hst hru
    refine ⟨?_, fun j hj => ⟨?_, fun v ok j' hv hvpc => ?_⟩⟩
    · obtain ⟨u, hu, hupc, _, rfl⟩ := hent
      have hsame := hstand (List.mem_cons_of_mem _ hu)
      rw [hupc] at hsame
      rw [← hw]
      exact Worker.Same.job hsame
    · have hruns := hstand List.mem_cons_self
      rw [hunlock] at hruns
      rw [hcore]
      exact hruns j hj
    · have hheld := hstand hv
      rw [hvpc] at hheld
      rw [← hw]
      exact (hheld j hj).1

/-- From every reachable state, `worker_run` and `worker_assign` return
NULL and leave the worker as it was, or return a report and have replaced
its job. -/
theorem give_replaces_or_leaves {n : Nat} (hmake : make = .run ∨ make = .assign)
    (hrun₀ : Run step always (create n) h₀ s₀) (hgive : s₀.give i make job = some s₁)
    (hrun : Run step (InCall i) s₁ h s) (hlast : ∀ x ∈ h.head?, ∃ ok, x.2 = .move i ok) :
    (s.pcs i = .idle ∨ (∃ c, s.pcs i = .returned c none) → Refused i make job s₀ h s) ∧
      ∀ c report, s.pcs i = .returned c (some report) →
        ∃ d old, job = some d ∧ Replaced i (make d) c old s₀ h₀ h s := by
  cases job with
  | none =>
    obtain ⟨rfl, hout⟩ := give_none hgive
    have hpc := Function.update_self i CallPc.idle s₀.pcs
    have ho := (run_owned hrun₀).put hout (rfl : CallPc.idle.cmd = none)
    refine ⟨run_refused (d := oneTaskJob) hmake ho rfl (Or.inl hpc) hrun, fun c report hret => ?_⟩
    rw [run_idle ho hpc hrun] at hret
    cases hret
  | some d =>
    have hcall := give_some hgive
    have ho := (run_owned hrun₀).step hcall
    obtain ⟨rfl, _⟩ := step_call hcall
    have hpc := Function.update_self i (CallPc.enter (make d)) s₀.pcs
    refine ⟨run_refused hmake ho rfl (Or.inr hpc) hrun, fun c report hret => ?_⟩
    cases hrun with
    | nil => simp at hret
    | snoc hrun hok hs =>
      obtain ⟨ok, hl⟩ := hlast _ rfl
      subst hl
      obtain ⟨old, hrepl⟩ := run_replaced hmake hrun₀ hcall hrun hok hs hret
      exact ⟨d, old, rfl, hrepl⟩

end Answers

/-- A job that runs to its end. -/
def finishedRun : List Label :=
  [.call 0 (.run oneTaskJob)] ++ moves 0 19 ++ works 4 ++
  [.thread 0 (.task 0 .spawned), .thread 0 (.task 0 (.finished 0))] ++ works 8

/-- A job that is running. -/
def unfinishedRun : List Label := [.call 0 (.run oneTaskJob)] ++ moves 0 19 ++ works 4

/-- The second call of client 0 has returned after `n` steps and one
more, with a result that passes the test. -/
def returnsAfter (n : Nat) (check : Option Report → Bool) (s : Clients) : Bool :=
  (s.give 0 .run (some oneTaskJob)).any fun s₁ =>
    (replay step (InCall 0) [] s₁ (moves 0 n)).any fun p =>
      (p.2.step (.move 0 true)).any fun s =>
        match s.pcs 0 with
        | .returned _ report => check report
        | _ => false

theorem exists_of_returnsAfter {n : Nat} {check : Option Report → Bool} {s₀ : Clients}
    (hc : returnsAfter n check s₀ = true) :
    ∃ s₁ h s c report, s₀.give 0 .run (some oneTaskJob) = some s₁ ∧
      Run step (InCall 0) s₁ h s ∧ (∀ x ∈ h.head?, ∃ ok, x.2 = .move 0 ok) ∧
      s.pcs 0 = .returned c report ∧ check report = true := by
  obtain ⟨s₁, hgive, hc⟩ := (Option.any_eq_true _ _).mp hc
  obtain ⟨p, hreplay, hc⟩ := (Option.any_eq_true _ _).mp hc
  obtain ⟨s, hs, hc⟩ := (Option.any_eq_true _ _).mp hc
  cases hpc : s.pcs 0 with
  | returned c report =>
    rw [hpc] at hc
    have hok : InCall 0 p.1 p.2 (.move 0 true) := fun _ _ => rfl
    refine ⟨s₁, _, s, c, report, hgive, .snoc (Run.of_replay _ hreplay) hok hs, ?_, hpc, hc⟩
    intro x hx
    obtain rfl := Option.some.inj hx
    exact ⟨true, rfl⟩
  | _ =>
    rw [hpc] at hc
    cases hc

/-- A second job replaces the first when that has ended, and is refused
while it runs. -/
theorem secondRun_replaces_or_leaves :
    (∃ h₀ s₀ h s d c old, Run step always (create 1) h₀ s₀ ∧ s₀.worker.job = some 0 ∧
      Replaced 0 (.run d) c old s₀ h₀ h s) ∧
    ∃ h₀ s₀ h s, Run step always (create 1) h₀ s₀ ∧ s₀.worker.job = some 0 ∧
      Refused 0 .run (some oneTaskJob) s₀ h s := by
  constructor
  · obtain ⟨h₀, s₀, hr, hc⟩ := Run.of_check step always (create 1) finishedRun
      (fun s => s.worker.job == some 0 && returnsAfter 24 Option.isSome s) (by decide +kernel)
    simp only [Bool.and_eq_true, beq_iff_eq] at hc
    obtain ⟨s₁, h, s, c, result, hgive, hrun, hlast, hpc, hsome⟩ := exists_of_returnsAfter hc.2
    obtain ⟨report, rfl⟩ := Option.isSome_iff_exists.mp hsome
    obtain ⟨d, old, _, hrepl⟩ :=
      (give_replaces_or_leaves (Or.inl rfl) hr hgive hrun hlast).2 c report hpc
    exact ⟨h₀, s₀, h, s, d, c, old, hr, hc.1, hrepl⟩
  · obtain ⟨h₀, s₀, hr, hc⟩ := Run.of_check step always (create 1) unfinishedRun
      (fun s => s.worker.job == some 0 && returnsAfter 6 Option.isNone s) (by decide +kernel)
    simp only [Bool.and_eq_true, beq_iff_eq] at hc
    obtain ⟨s₁, h, s, c, result, hgive, hrun, hlast, hpc, hnone⟩ := exists_of_returnsAfter hc.2
    obtain rfl := Option.isNone_iff_eq_none.mp hnone
    exact ⟨h₀, s₀, h, s, hr, hc.1,
      (give_replaces_or_leaves (Or.inl rfl) hr hgive hrun hlast).1 (Or.inr ⟨c, hpc⟩)⟩

end Clients

end Pyoneer.Runtime
