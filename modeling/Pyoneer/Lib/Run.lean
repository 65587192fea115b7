/-
Pyoneer.Lib.Run — runs of a labelled transition system given by a
partial step function, with their histories.

A system is `step : σ → ℓ → Option σ`: the label carries every choice
the environment makes (which thread moves, what a system call returns),
so a step is deterministic once its label is known and a run can be
replayed by evaluation.

A `Run` keeps its HISTORY, the list of the steps taken, most recent
first, each with the state it was taken in. `ok h s l` is a condition
on the step `l` taken in `s` after the history `h`; a run is made of
steps that all meet it. `always` is the condition that every step
meets, so `Run step always s₀ h s` is any run at all. The two rules
below are all that the developments over this file use: an invariant is
proved once for the initial state and once for a step
(`Run.invariant`), and a concrete run is obtained by replaying its
labels (`Run.of_replay`).

Nothing here mentions a program.
-/
import Mathlib.Logic.Relation

namespace Pyoneer.Lib

/-- The steps taken so far, most recent first, each with the state it
was taken in. -/
abbrev History (σ ℓ : Type) := List (σ × ℓ)

variable {σ ℓ : Type}

/-- The condition every step meets. -/
def always : History σ ℓ → σ → ℓ → Prop := fun _ _ _ => True

instance : ∀ (h : History σ ℓ) (s : σ) (l : ℓ), Decidable (always h s l) :=
  fun _ _ _ => inferInstanceAs (Decidable True)

/-- `Run step ok s₀ h s`: from `s₀` the steps of `h`, each meeting `ok`,
lead to `s`. -/
inductive Run (step : σ → ℓ → Option σ) (ok : History σ ℓ → σ → ℓ → Prop)
    (s₀ : σ) : History σ ℓ → σ → Prop
  | nil : Run step ok s₀ [] s₀
  | snoc {h : History σ ℓ} {s s' : σ} {l : ℓ} :
      Run step ok s₀ h s → ok h s l → step s l = some s' →
      Run step ok s₀ ((s, l) :: h) s'

section Rules

variable {step : σ → ℓ → Option σ} {ok ok' : History σ ℓ → σ → ℓ → Prop} {s₀ : σ}

/-- The invariant rule: what holds at the start and is kept by every
step holds along the run, where the invariant may look at the history. -/
theorem Run.invariant {I : History σ ℓ → σ → Prop} (h0 : I [] s₀)
    (hstep : ∀ h s l s', I h s → ok h s l → step s l = some s' → I ((s, l) :: h) s') :
    ∀ {h s}, Run step ok s₀ h s → I h s := by
  intro h s hr
  induction hr with
  | nil => exact h0
  | snoc _ hok hs ih => exact hstep _ _ _ _ ih hok hs

/-- The invariant rule for a property of the state alone. -/
theorem Run.state_invariant {I : σ → Prop} (h0 : I s₀)
    (hstep : ∀ h s l s', I s → ok h s l → step s l = some s' → I s') :
    ∀ {h s}, Run step ok s₀ h s → I s := by
  intro h s hr
  exact Run.invariant (I := fun _ s => I s) h0 hstep hr

/-- A run stays one when its condition is weakened. -/
theorem Run.mono (hok : ∀ h s l, ok h s l → ok' h s l) :
    ∀ {h s}, Run step ok s₀ h s → Run step ok' s₀ h s := by
  intro h s hr
  induction hr with
  | nil => exact .nil
  | snoc _ hl hs ih => exact .snoc ih (hok _ _ _ hl) hs

/-- Every step of the history of a run was taken at the end of the run
before it, met the condition, and led to a state. -/
theorem Run.mem_split {h : History σ ℓ} {s t : σ} {l : ℓ} (hr : Run step ok s₀ h s)
    (hm : (t, l) ∈ h) :
    ∃ h₂ h₁ t', h = h₂ ++ (t, l) :: h₁ ∧ Run step ok s₀ h₁ t ∧ ok h₁ t l ∧
      step t l = some t' := by
  induction hr with
  | nil => cases hm
  | snoc hr hok hs ih =>
    rcases List.mem_cons.mp hm with heq | hm
    · obtain ⟨rfl, rfl⟩ := Prod.mk.injEq .. ▸ heq
      exact ⟨[], _, _, rfl, hr, hok, hs⟩
    · obtain ⟨h₂, h₁, t', rfl, hrest⟩ := ih hm
      exact ⟨_ :: h₂, h₁, t', rfl, hrest⟩

theorem Run.mem {h : History σ ℓ} {s t : σ} {l : ℓ} (hr : Run step ok s₀ h s)
    (hm : (t, l) ∈ h) :
    ∃ h' t', Run step ok s₀ h' t ∧ ok h' t l ∧ step t l = some t' := by
  obtain ⟨_, h', t', _, hrest⟩ := hr.mem_split hm
  exact ⟨h', t', hrest⟩

/-- A run whose steps all have a property is one under that condition
too. -/
theorem Run.restrict {P : σ × ℓ → Prop} : ∀ {h s}, Run step ok s₀ h s → (∀ x ∈ h, P x) →
    Run step (fun h s l => ok h s l ∧ P (s, l)) s₀ h s := by
  intro h s hr hp
  induction hr with
  | nil => exact .nil
  | snoc _ hok hs ih =>
    obtain ⟨hlast, hrest⟩ := List.forall_mem_cons.mp hp
    exact .snoc (ih hrest) ⟨hok, hlast⟩ hs

/-- Two runs, one after the other. -/
theorem Run.append {s₁ : σ} {h₀ : History σ ℓ} (hr : Run step always s₀ h₀ s₁) :
    ∀ {h s}, Run step ok s₁ h s → Run step always s₀ (h ++ h₀) s := by
  intro h s hr'
  induction hr' with
  | nil => exact hr
  | snoc _ _ hs ih => exact .snoc ih trivial hs

/-- Two runs, one after the other, under a condition that does not look
at the history. -/
theorem Run.trans (hok : ∀ h h' s l, ok h s l → ok h' s l) {s₁ : σ} {h₀ : History σ ℓ}
    (hr : Run step ok s₀ h₀ s₁) : ∀ {h s}, Run step ok s₁ h s → Run step ok s₀ (h ++ h₀) s := by
  intro h s hr'
  induction hr' with
  | nil => exact hr
  | snoc _ hl hs ih => exact .snoc ih (hok _ _ _ _ hl) hs

/-- The termination rule: where every step lowers the measure, it bounds
the length of a run. -/
theorem Run.length_le {I : σ → Prop} (measure : σ → Nat) (h0 : I s₀)
    (hstep : ∀ h s l s', I s → ok h s l → step s l = some s' → I s' ∧ measure s' < measure s) :
    ∀ {h s}, Run step ok s₀ h s → I s ∧ h.length + measure s ≤ measure s₀ := by
  intro h s hr
  induction hr with
  | nil => exact ⟨h0, Nat.le_of_eq (Nat.zero_add _)⟩
  | snoc _ hok hs ih =>
    obtain ⟨hi, hle⟩ := ih
    obtain ⟨hi', hlt⟩ := hstep _ _ _ _ hi hok hs
    refine ⟨hi', ?_⟩
    rw [List.length_cons]
    omega

/-- The progress rule: where every state of the invariant that is not a
goal has a step that keeps the invariant and lowers the measure, a run
can be continued to a goal. -/
theorem Run.reaches {I : History σ ℓ → σ → Prop} {G : σ → Prop} (measure : σ → Nat)
    (hprog : ∀ h s, I h s → ¬ G s →
      ∃ l s', ok h s l ∧ step s l = some s' ∧ I ((s, l) :: h) s' ∧ measure s' < measure s) :
    ∀ {h s}, Run step ok s₀ h s → I h s → ∃ h' s', Run step ok s₀ h' s' ∧ I h' s' ∧ G s' := by
  intro h s hr hi
  induction hm : measure s using Nat.strongRecOn generalizing h s with
  | _ n ih =>
    by_cases hg : G s
    · exact ⟨h, s, hr, hi, hg⟩
    · obtain ⟨l, s', hok, hs, hi', hlt⟩ := hprog h s hi hg
      exact ih (measure s') (hm ▸ hlt) (.snoc hr hok hs) hi' rfl

end Rules

/-! ## Replaying labels -/

section Replay

variable (step : σ → ℓ → Option σ) (ok : History σ ℓ → σ → ℓ → Prop)
  [∀ h s l, Decidable (ok h s l)]

/-- Replay a list of labels from a history and a state, as long as each
step is possible and meets the condition. -/
def replay (h : History σ ℓ) (s : σ) : List ℓ → Option (History σ ℓ × σ)
  | [] => some (h, s)
  | l :: ls =>
    if ok h s l then
      match step s l with
      | some s' => replay ((s, l) :: h) s' ls
      | none => none
    else none

variable {step ok}

theorem Run.replay {s₀ : σ} : ∀ {ls : List ℓ} {h h' : History σ ℓ} {s s' : σ},
    Run step ok s₀ h s → replay step ok h s ls = some (h', s') →
    Run step ok s₀ h' s'
  | [], _, _, _, _, hr, he => by
      simp only [Lib.replay, Option.some.injEq, Prod.mk.injEq] at he
      obtain ⟨rfl, rfl⟩ := he
      exact hr
  | l :: ls, h, _, s, _, hr, he => by
      rw [Lib.replay] at he
      split at he
      · rename_i hok
        cases hs : step s l with
        | none => simp [hs] at he
        | some s'' =>
          simp only [hs] at he
          exact Run.replay (.snoc hr hok hs) he
      · cases he

/-- A replay that succeeds is a run. -/
theorem Run.of_replay {s₀ s : σ} {h : History σ ℓ} (ls : List ℓ)
    (he : Lib.replay step ok [] s₀ ls = some (h, s)) : Run step ok s₀ h s :=
  Run.replay .nil he

/-- A replay whose last state passes a test is a run to such a state. -/
theorem Run.of_check (step : σ → ℓ → Option σ) (ok : History σ ℓ → σ → ℓ → Prop)
    [∀ h s l, Decidable (ok h s l)] (s₀ : σ) (ls : List ℓ) (check : σ → Bool)
    (hc : (Lib.replay step ok [] s₀ ls).any (fun p => check p.2) = true) :
    ∃ h s, Run step ok s₀ h s ∧ check s = true := by
  cases he : Lib.replay step ok [] s₀ ls with
  | none => simp [he] at hc
  | some p =>
    simp only [he, Option.any_some] at hc
    exact ⟨p.1, p.2, Run.of_replay ls he, hc⟩

end Replay

end Pyoneer.Lib
