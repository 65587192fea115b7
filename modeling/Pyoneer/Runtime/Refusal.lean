/-
Pyoneer.Runtime.Refusal — when a command returns NULL.

`worker_get_status`, `worker_run` and `worker_assign` return NULL on the
paths that `Worker.refuses` lists: the lock cannot be taken, the worker
is WORKING, `engine_run` fails, the object of the report cannot be
allocated. `callStep_null` says that there are no others: a call is on
its way to return NULL exactly when one of its steps was such a refusal.
-/
import Pyoneer.Runtime.Exclusion

namespace Pyoneer.Runtime

open Pyoneer.Lib Pyoneer.Blueprint

/-- The step, taken at `pc`, makes the command return NULL. -/
def Worker.refuses (w : Worker) (pc : CallPc) (ok : Bool) : Bool :=
  match pc with
  | .enter r => r.isCommand && !ok
  | .decide (.run _) | .decide (.assign _) => w.status == .working
  | .engine (.run _) (.create j) => (w.core.jobs j).size == 0 || !ok
  | .encode _ => !ok
  | _ => false

/-- The command returns NULL, or has returned it. -/
def CallPc.null : CallPc → Bool
  | .idle | .unlock _ none | .returned _ none => true
  | _ => false

/-- The call is a command, not a signal. -/
def CallPc.forCommand : CallPc → Bool
  | .idle => true
  | .enter r => r.isCommand
  | .returned c _ => c.isCommand
  | pc => pc.cmd.any Cmd.isCommand

section CallSteps

variable {w w' : Worker} {pc pc' : CallPc} {c : Cmd} {ok : Bool}

theorem Request.entry_forCommand (r : Request) (core : Core) :
    (r.place core).2.entry.forCommand = r.isCommand := by
  cases r <;> rfl

theorem Request.entry_null (r : Request) (core : Core) :
    (r.place core).2.entry.null = false := by
  cases r <;> rfl

theorem Cmd.afterEngine_forCommand (c : Cmd) (epc : EnginePc) :
    (c.afterEngine epc).forCommand = c.isCommand := by
  cases epc with
  | done b => cases c <;> cases b <;> rfl
  | _ => rfl

/-- Every step keeps the shape of the call. -/
theorem CallPc.Shape.callStep (hp : pc.Shape) (hs : w.callStep pc ok = some (w', pc')) :
    pc'.Shape := by
  by_cases hc : pc.committed = false
  · exact (Worker.Calm.of_callStep hp hc hs).shape
  · cases pc with
    | engine c epc =>
      obtain ⟨core', epc', _, _, rfl⟩ := Worker.callStep_engine hs
      exact (Cmd.afterEngine_shape hp epc').1
    | destroyJob c j =>
      cases hs
      exact hp
    | setJob c j =>
      cases hs
      exact Cmd.isCommand_of_job hp
    | _ => exact absurd rfl hc

theorem Worker.callStep_forCommand (hp : pc.Shape) (hs : w.callStep pc ok = some (w', pc')) :
    pc'.forCommand = pc.forCommand := by
  cases pc with
  | idle | returned c report => simp [Worker.callStep] at hs
  | enter r =>
    simp only [Worker.callStep] at hs
    split at hs
    · rename_i hr
      split at hs
      · cases hs
        exact hr.symm
      · split at hs <;> cases hs
        exact r.entry_forCommand _
    · cases hs
      exact r.entry_forCommand _
  | update c y =>
    simp only [Worker.callStep] at hs
    split at hs <;> cases hs
    · cases y <;> rfl
    · rfl
  | scan c y j k seen | encodeScan c st j k seen | encodeTasks c st j k report =>
    simp only [Worker.callStep] at hs
    split at hs <;> cases hs <;> rfl
  | mapStatus c y j =>
    cases hs
    cases y <;> rfl
  | decide c =>
    simp only [Worker.callStep] at hs
    split at hs
    · rename_i pc heq
      cases hs
      rcases Cmd.choose_cases heq with ⟨_, rfl⟩ | ⟨_, rfl⟩ | ⟨j, _, _, rfl⟩ | ⟨j, _, _, rfl⟩ |
        ⟨j, _, _, rfl⟩ | ⟨_, rfl | rfl⟩ <;> rfl
    · cases hs
  | engine c epc =>
    obtain ⟨core', epc', _, _, rfl⟩ := Worker.callStep_engine hs
    exact c.afterEngine_forCommand epc'
  | destroyJob c j | setJob c j | encodeStatus c st j | unlock c report =>
    cases hs
    rfl
  | encode c =>
    rcases Worker.callStep_encode hs with ⟨_, report, rfl⟩ | ⟨_, j, _, rfl⟩ <;> rfl

/-- `engine_run` refuses the job of a `worker_run` exactly when it
fails. -/
theorem Worker.refuses_engine {core' : Core} {epc epc' : EnginePc} {j : Nat}
    (he : engineStep w.core epc ok = some (core', epc')) :
    w.refuses (.engine (.run j) epc) ok = true ↔ epc' = .done false := by
  have hfalse : epc' = .done false ↔
      ∃ j, epc = .create j ∧ ((w.core.jobs j).size = 0 ∨ ok = false) := by
    constructor
    · rintro rfl
      exact (engineStep_done he).mp rfl
    · rintro ⟨j', rfl, h⟩
      simp only [engineStep, if_pos h, Option.some.injEq, Prod.mk.injEq] at he
      exact he.2.symm
  rw [hfalse]
  cases epc <;> simp [Worker.refuses]

/-- A command is on its way to return NULL after a step exactly when it
was before, or the step is a refusal. -/
theorem Worker.callStep_null (hp : pc.Shape) (hcmd : pc.forCommand = true)
    (hs : w.callStep pc ok = some (w', pc')) :
    pc'.null = true ↔ pc.null = true ∨ w.refuses pc ok = true := by
  cases pc with
  | idle | returned c report => simp [Worker.callStep] at hs
  | enter r =>
    have hr : r.isCommand = true := hcmd
    simp only [Worker.callStep, hr, if_true] at hs
    split at hs
    · rename_i hok
      cases hs
      simp [CallPc.null, Worker.refuses, hr, hok]
    · rename_i hok
      split at hs <;> cases hs
      have hok : ok = true := by simpa using hok
      rw [r.entry_null]
      simp [CallPc.null, Worker.refuses, hok]
  | update c y =>
    simp only [Worker.callStep] at hs
    split at hs <;> cases hs
    · cases y <;> simp [Cmd.updated, CallPc.null, Worker.refuses]
    · simp [CallPc.null, Worker.refuses]
  | scan c y j k seen | encodeScan c st j k seen | encodeTasks c st j k report =>
    simp only [Worker.callStep] at hs
    split at hs <;> cases hs <;> simp [CallPc.null, Worker.refuses]
  | mapStatus c y j =>
    cases hs
    cases y <;> simp [Cmd.updated, CallPc.null, Worker.refuses]
  | decide c =>
    simp only [Worker.callStep] at hs
    split at hs
    · rename_i pc heq
      cases hs
      cases c with
      | getStatus => simp [Cmd.choose] at heq
      | run j | assign j =>
        cases hst : w.status <;> simp only [hst, Cmd.choose, Option.some.injEq] at heq <;>
          subst heq <;> simp [CallPc.null, Worker.refuses, hst]
      | _ => cases hcmd
    · cases hs
  | engine c epc =>
    obtain ⟨core', epc', he, _, rfl⟩ := Worker.callStep_engine hs
    cases c with
    | run j =>
      rw [Worker.refuses_engine he]
      cases epc' with
      | done b => cases b <;> simp [Cmd.afterEngine, Cmd.engineDone, CallPc.null]
      | _ => simp [Cmd.afterEngine, CallPc.null]
    | assign j => exact absurd rfl (hp.2 j)
    | getStatus => exact absurd rfl hp.1
    | _ => cases hcmd
  | destroyJob c j | setJob c j | encodeStatus c st j =>
    cases hs
    simp [CallPc.null, Worker.refuses]
  | encode c =>
    simp only [Worker.callStep] at hs
    split at hs
    · rename_i hok
      cases hs
      simp [CallPc.null, Worker.refuses, hok]
    · rename_i hok
      have hok : ok = true := by simpa using hok
      split at hs <;> cases hs <;> simp [CallPc.null, Worker.refuses, hok]
  | unlock c report =>
    cases hs
    cases report <;> simp [CallPc.null, Worker.refuses]

/-- Only a command is refused. -/
theorem Worker.forCommand_of_refuses (hp : pc.Shape) (h : w.refuses pc ok = true) :
    pc.forCommand = true := by
  unfold Worker.refuses at h
  split at h
  · simp only [Bool.and_eq_true] at h
    exact h.1
  · rfl
  · rfl
  · rfl
  · exact hp
  · cases h

end CallSteps

end Pyoneer.Runtime
