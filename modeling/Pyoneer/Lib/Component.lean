/-
Pyoneer.Lib.Component — a system as a part of a larger one.

The state of the larger system determines the state of the component
(`f`), and each step of the larger system is a step of the component
(`g`) or leaves it alone. A run of the whole is then a run of the
component (`Run.project`), over the history that the component has seen
(`History.project`), so that what is known of the runs of the component
holds in the whole.

Nothing here mentions a program.
-/
import Pyoneer.Lib.Run

namespace Pyoneer.Lib

variable {σ ℓ σ' ℓ' : Type} {f : σ → σ'} {g : σ → ℓ → Option ℓ'}

/-- The steps that the component has taken. -/
def History.project (f : σ → σ') (g : σ → ℓ → Option ℓ') : History σ ℓ → History σ' ℓ'
  | [] => []
  | (s, l) :: h =>
    match g s l with
    | some l' => (f s, l') :: History.project f g h
    | none => History.project f g h

theorem History.project_cons_some {h : History σ ℓ} {s : σ} {l : ℓ} {l' : ℓ'}
    (hl : g s l = some l') :
    History.project f g ((s, l) :: h) = (f s, l') :: History.project f g h := by
  rw [History.project, hl]

theorem History.project_cons_none {h : History σ ℓ} {s : σ} {l : ℓ} (hl : g s l = none) :
    History.project f g ((s, l) :: h) = History.project f g h := by
  rw [History.project, hl]

/-- A step of the component was a step of the whole. -/
theorem History.mem_project {h : History σ ℓ} {x : σ' × ℓ'} (hx : x ∈ History.project f g h) :
    ∃ s l, (s, l) ∈ h ∧ f s = x.1 ∧ g s l = some x.2 := by
  induction h with
  | nil => cases hx
  | cons y h ih =>
    obtain ⟨s, l⟩ := y
    cases hl : g s l with
    | none =>
      rw [History.project_cons_none hl] at hx
      obtain ⟨s', l', hmem, hrest⟩ := ih hx
      exact ⟨s', l', List.mem_cons_of_mem _ hmem, hrest⟩
    | some l' =>
      rw [History.project_cons_some hl] at hx
      rcases List.mem_cons.mp hx with rfl | hx
      · exact ⟨s, l, List.mem_cons_self .., rfl, hl⟩
      · obtain ⟨s', l', hmem, hrest⟩ := ih hx
        exact ⟨s', l', List.mem_cons_of_mem _ hmem, hrest⟩

/-- The projection rule. -/
theorem Run.project {step : σ → ℓ → Option σ} {step' : σ' → ℓ' → Option σ'}
    {ok : History σ ℓ → σ → ℓ → Prop} {s₀ s : σ} {h : History σ ℓ} (hr : Run step ok s₀ h s)
    (hstep : ∀ s l s', step s l = some s' →
      (∃ l', g s l = some l' ∧ step' (f s) l' = some (f s')) ∨ (g s l = none ∧ f s' = f s)) :
    Run step' always (f s₀) (History.project f g h) (f s) := by
  induction hr with
  | nil => exact .nil
  | @snoc h s s' l _ _ hs ih =>
    rcases hstep s l s' hs with ⟨l', hl, hs'⟩ | ⟨hl, heq⟩
    · rw [History.project_cons_some hl]
      exact .snoc ih trivial hs'
    · rw [History.project_cons_none hl, heq]
      exact ih

end Pyoneer.Lib
