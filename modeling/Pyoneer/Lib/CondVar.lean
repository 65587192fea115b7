/-
Pyoneer.Lib.CondVar — condition variables, for a crowd of threads.

The threads are a list of points `β`. A `CondVar` says which points are
parked on the condition, where a parked thread is once it is woken, and
at which points a thread has been woken and has not resumed yet. A
signal wakes one parked thread, if there is one; a broadcast wakes all
of them. POSIX lets a signal wake more than one, and lets a thread wake
for no reason; both are extra wake-ups, which `wakeAt` also covers.

`Covered n ts` is the invariant against lost wake-ups: as long as some
thread is parked, the `n` things that it could take are at most as many
as the threads that were woken and have not resumed. Its rules are all
that a proof needs: one thing more and a signal, one thing less and a
thread that resumes, a thread that moves elsewhere, a broadcast.

Nothing here mentions a program.
-/
import Mathlib.Data.List.Basic

namespace Pyoneer.Lib

/-- A condition variable, for threads at points `β`. -/
structure CondVar (β : Type) where
  /-- Where a parked thread is when it is woken; `none` if it is not
  parked. -/
  wake : β → Option β
  /-- The thread was woken and has not resumed. -/
  woken : β → Bool
  wake_woken : ∀ b b', wake b = some b' → woken b' = true
  woken_wake : ∀ b, woken b = true → wake b = none

namespace CondVar

variable {β : Type} (c : CondVar β)

/-- The thread is parked, and was not woken. -/
def parked (b : β) : Bool := (c.wake b).isSome

/-- Thread `i` is woken. -/
def wakeAt (ts : List β) (i : Nat) : Option (List β) :=
  (ts[i]?.bind c.wake).map fun b => ts.set i b

/-- `pthread_cond_signal`; `pick` is the thread that it wakes. -/
def signal (ts : List β) (pick : Option Nat) : Option (List β) :=
  match pick with
  | some i => c.wakeAt ts i
  | none => if ts.all fun b => !c.parked b then some ts else none

/-- `pthread_cond_broadcast`. -/
def broadcast (ts : List β) : List β := ts.map fun b => (c.wake b).getD b

/-- As long as a thread is parked, at least `n` were woken and have not
resumed. -/
def Covered (n : Nat) (ts : List β) : Prop :=
  (∃ b ∈ ts, c.parked b = true) → n ≤ ts.countP c.woken

/-- No thread is parked. -/
def NoneParked (ts : List β) : Prop := ∀ b ∈ ts, c.parked b = false

variable {c} {ts ts' : List β} {b b' : β} {i n : Nat} {pick : Option Nat}

theorem woken_not_parked (h : c.woken b = true) : c.parked b = false := by
  simp [parked, c.woken_wake b h]

theorem parked_not_woken (h : c.parked b = true) : c.woken b = false := by
  by_contra hw
  rw [woken_not_parked (by simpa using hw)] at h
  cases h

theorem wakeAt_eq_some (h : c.wakeAt ts i = some ts') :
    ∃ b b', ts[i]? = some b ∧ c.wake b = some b' ∧ ts' = ts.set i b' := by
  simp only [wakeAt, Option.map_eq_some_iff, Option.bind_eq_some_iff] at h
  obtain ⟨b', ⟨b, hb, hw⟩, rfl⟩ := h
  exact ⟨b, b', hb, hw, rfl⟩

theorem countP_cons_toNat (p : β → Bool) (b : β) (ts : List β) :
    (b :: ts).countP p = ts.countP p + (p b).toNat := by
  rw [List.countP_cons]
  cases p b <;> rfl

/-- How a count changes when one thread moves. -/
theorem countP_move (p : β → Bool) (b' : β) (hb : ts[i]? = some b) :
    (ts.set i b').countP p + (p b).toNat = ts.countP p + (p b').toNat := by
  obtain ⟨hi, hget⟩ := List.getElem?_eq_some_iff.mp hb
  have hpos : p b = true → 0 < ts.countP p := fun hp =>
    List.countP_pos_iff.mpr ⟨b, List.mem_of_getElem? hb, hp⟩
  rw [List.countP_set hi, hget]
  cases hp : p b with
  | true =>
    have := hpos hp
    cases p b' <;> simp <;> omega
  | false => cases p b' <;> simp

@[simp] theorem length_broadcast : (c.broadcast ts).length = ts.length := by
  simp [broadcast]

theorem length_wakeAt (hs : c.wakeAt ts i = some ts') : ts'.length = ts.length := by
  obtain ⟨b, b', _, _, rfl⟩ := wakeAt_eq_some hs
  exact List.length_set

theorem length_signal (hs : c.signal ts pick = some ts') : ts'.length = ts.length := by
  cases pick with
  | none =>
    simp only [CondVar.signal] at hs
    split at hs <;> cases hs
    rfl
  | some i => exact length_wakeAt hs

theorem mem_of_mem_set (h : b ∈ ts.set i b') : b = b' ∨ b ∈ ts := by
  rcases List.mem_or_eq_of_mem_set h with h | h
  · exact Or.inr h
  · exact Or.inl h

theorem Covered.zero (c : CondVar β) (ts : List β) : c.Covered 0 ts := fun _ => Nat.zero_le _

theorem Covered.mono {m : Nat} (h : c.Covered n ts) (hm : m ≤ n) : c.Covered m ts :=
  fun hp => Nat.le_trans hm (h hp)

/-- A thread that is not woken moves to a point off the condition. -/
theorem Covered.move (h : c.Covered n ts) (hb : ts[i]? = some b) (hw : c.woken b = false)
    (hp : c.parked b' = false) : c.Covered n (ts.set i b') := by
  rintro ⟨x, hx, hxp⟩
  have hcount := countP_move c.woken b' hb
  rcases mem_of_mem_set hx with rfl | hx
  · rw [hp] at hxp
    cases hxp
  · have := h ⟨x, hx, hxp⟩
    rw [hw, Bool.toNat_false] at hcount
    omega

/-- A thread that was woken resumes and takes one thing. -/
theorem Covered.resume (h : c.Covered (n + 1) ts) (hb : ts[i]? = some b)
    (hp : c.parked b' = false) : c.Covered n (ts.set i b') := by
  rintro ⟨x, hx, hxp⟩
  have hcount := countP_move c.woken b' hb
  rcases mem_of_mem_set hx with rfl | hx
  · rw [hp] at hxp
    cases hxp
  · have := h ⟨x, hx, hxp⟩
    have := Bool.toNat_le (c.woken b)
    omega

/-- One more wake-up. -/
theorem Covered.wakeAt (h : c.Covered n ts) (hs : c.wakeAt ts i = some ts') :
    c.Covered (n + 1) ts' := by
  obtain ⟨b, b', hb, hw, rfl⟩ := wakeAt_eq_some hs
  have hbp : c.parked b = true := by simp [parked, hw]
  have hcount := countP_move c.woken b' hb
  rw [parked_not_woken hbp, c.wake_woken b b' hw, Bool.toNat_false, Bool.toNat_true] at hcount
  intro _
  have := h ⟨b, List.mem_of_getElem? hb, hbp⟩
  omega

/-- One thing more, and a signal. -/
theorem Covered.signal (h : c.Covered n ts) (hs : c.signal ts pick = some ts') :
    c.Covered (n + 1) ts' := by
  cases pick with
  | some i => exact h.wakeAt hs
  | none =>
    simp only [CondVar.signal] at hs
    split at hs
    · rename_i hall
      cases hs
      rintro ⟨x, hx, hxp⟩
      have := List.all_eq_true.mp hall x hx
      simp [hxp] at this
    · cases hs

theorem NoneParked.covered (h : c.NoneParked ts) : c.Covered n ts := by
  rintro ⟨x, hx, hxp⟩
  rw [h x hx] at hxp
  cases hxp

theorem NoneParked.broadcast (c : CondVar β) (ts : List β) : c.NoneParked (c.broadcast ts) := by
  intro b hb
  obtain ⟨a, _, rfl⟩ := List.mem_map.mp hb
  cases hw : c.wake a with
  | none => simp [parked, hw]
  | some a' => exact woken_not_parked (by simpa [hw] using c.wake_woken a a' hw)

theorem NoneParked.set (h : c.NoneParked ts) (hb : c.parked b = false) :
    c.NoneParked (ts.set i b) := by
  intro x hx
  rcases mem_of_mem_set hx with rfl | hx
  · exact hb
  · exact h x hx

/-- A wake-up moves a thread only to where it is woken. -/
theorem mem_wakeAt {x : β} (hs : c.wakeAt ts i = some ts') (hx : x ∈ ts') :
    x ∈ ts ∨ c.woken x = true := by
  obtain ⟨b, b', _, hw, rfl⟩ := wakeAt_eq_some hs
  rcases mem_of_mem_set hx with rfl | hx
  · exact Or.inr (c.wake_woken b x hw)
  · exact Or.inl hx

theorem mem_signal {x : β} (hs : c.signal ts pick = some ts') (hx : x ∈ ts') :
    x ∈ ts ∨ c.woken x = true := by
  cases pick with
  | none =>
    simp only [CondVar.signal] at hs
    split at hs <;> cases hs
    exact Or.inl hx
  | some i => exact mem_wakeAt hs hx

theorem mem_broadcast {x : β} (hx : x ∈ c.broadcast ts) : x ∈ ts ∨ c.woken x = true := by
  obtain ⟨b, hb, rfl⟩ := List.mem_map.mp hx
  cases hw : c.wake b with
  | none => exact Or.inl (by simpa [hw] using hb)
  | some b' => exact Or.inr (by simpa [hw] using c.wake_woken b b' hw)

theorem NoneParked.wakeAt (h : c.NoneParked ts) (hs : c.wakeAt ts i = some ts') :
    c.NoneParked ts' := by
  intro x hx
  rcases mem_wakeAt hs hx with hx | hx
  · exact h x hx
  · exact woken_not_parked hx

theorem NoneParked.signal (h : c.NoneParked ts) (hs : c.signal ts pick = some ts') :
    c.NoneParked ts' := by
  intro x hx
  rcases mem_signal hs hx with hx | hx
  · exact h x hx
  · exact woken_not_parked hx

/-- What a signal leaves alone: a property of the threads that a wake-up
does not change keeps its count. -/
theorem countP_signal {p : β → Bool} (hp : ∀ b b', c.wake b = some b' → p b' = p b)
    (hs : c.signal ts pick = some ts') : ts'.countP p = ts.countP p := by
  cases pick with
  | none =>
    simp only [CondVar.signal] at hs
    split at hs <;> cases hs
    rfl
  | some i =>
    obtain ⟨b, b', hb, hw, rfl⟩ := wakeAt_eq_some hs
    have hcount := countP_move p b' hb
    rw [hp b b' hw] at hcount
    omega

end CondVar

end Pyoneer.Lib
