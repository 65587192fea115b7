/-
Pyoneer.Lib.Fifo — a bounded first-in first-out queue, and the systems
that refine it.

`FifoStep cap q op q'` is the queue itself: a push goes behind the last
entry and needs room, a pop takes the first entry and needs one.
A system refines it when a function of its states gives the contents
and every step is a step of the queue, by the operation that `op` names
for it. `Run.fifo` is the law of such a system: what went in is what
came out, followed by what is still there.

Nothing here mentions a program.
-/
import Pyoneer.Lib.Run

namespace Pyoneer.Lib

/-- What a step does to the queue. -/
inductive FifoOp (α : Type) where
  | push (a : α)
  | pop (a : α)
  | keep
  deriving DecidableEq, Repr

variable {α : Type}

namespace FifoOp

/-- What the operation puts in. -/
def pushed : FifoOp α → List α
  | .push a => [a]
  | _ => []

/-- What the operation takes out. -/
def popped : FifoOp α → List α
  | .pop a => [a]
  | _ => []

end FifoOp

/-- The queue of at most `cap` entries. -/
inductive FifoStep (cap : Nat) : List α → FifoOp α → List α → Prop
  | push {q : List α} (a : α) : q.length < cap → FifoStep cap q (.push a) (q ++ [a])
  | pop (a : α) (q : List α) : FifoStep cap (a :: q) (.pop a) q
  | keep (q : List α) : FifoStep cap q .keep q

/-- One operation conserves the entries and their order. -/
theorem FifoStep.conserve {cap : Nat} {q q' : List α} {o : FifoOp α} (hs : FifoStep cap q o q') :
    q ++ o.pushed = o.popped ++ q' := by
  cases hs with
  | push a _ => rfl
  | pop a q => exact List.append_nil _
  | keep q => exact List.append_nil _

section History

variable {σ ℓ : Type} (op : σ → ℓ → FifoOp α)

/-- What went in, in order. -/
def pushes : History σ ℓ → List α
  | [] => []
  | (s, l) :: h => pushes h ++ (op s l).pushed

/-- What came out, in order. -/
def pops : History σ ℓ → List α
  | [] => []
  | (s, l) :: h => pops h ++ (op s l).popped

variable {op}

/-- A system whose steps are those of the queue conserves the entries
and their order over every run; `I` is what its steps need. -/
theorem Run.fifo {step : σ → ℓ → Option σ} {ok : History σ ℓ → σ → ℓ → Prop} {s₀ : σ}
    {I : σ → Prop} {contents : σ → List α} (cap : σ → Nat)
    (h0 : I s₀) (hempty : contents s₀ = [])
    (hkeep : ∀ s l s', I s → step s l = some s' → I s')
    (hstep : ∀ s l s', I s → step s l = some s' →
      FifoStep (cap s) (contents s) (op s l) (contents s')) :
    ∀ {h s}, Run step ok s₀ h s → pushes op h = pops op h ++ contents s := by
  intro h s hr
  have hboth : I s ∧ pushes op h = pops op h ++ contents s := by
    refine Run.invariant (I := fun h s => I s ∧ pushes op h = pops op h ++ contents s)
      ⟨h0, ?_⟩ ?_ hr
    · exact hempty.symm
    · intro h s l s' hi _ hs
      refine ⟨hkeep s l s' hi.1 hs, ?_⟩
      calc pushes op h ++ (op s l).pushed
          = pops op h ++ (contents s ++ (op s l).pushed) := by rw [hi.2, List.append_assoc]
        _ = pops op h ++ ((op s l).popped ++ contents s') := by
          rw [(hstep s l s' hi.1 hs).conserve]
        _ = pops op h ++ (op s l).popped ++ contents s' := (List.append_assoc ..).symm
  exact hboth.2

end History

end Pyoneer.Lib
