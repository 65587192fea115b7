/-
Pyoneer.Lib.Heap — allocation, for the question what is still allocated.

The address of a block is the number of the call that returned it: a
machine address may be given out again after a `free`, a call of
`malloc` happens once. A block also has a kind, what it was asked for.
`ok n` says whether the call number `n` succeeds. The contents of the
blocks are the business of the program that is modelled.

What is allocated is a multiset, so that an account of it is a sum. The
rules say what every operation does to an account: what `malloc` returns
is added (`malloc_live`), what is freed was one of the terms
(`free_live`, `freeNullable_live`). `sum_update` is the account of
several parties when one of them changes its share, `sum_elim_eq_zero`
and `filter_sum_elim` are about the account of a list of events some of
which add a term.

Nothing here mentions a program.
-/
import Mathlib.Algebra.BigOperators.Group.Finset.Piecewise
import Mathlib.Data.Multiset.OrderedMonoid

namespace Pyoneer.Lib

/-- A block that is allocated. -/
structure Block (κ : Type) where
  kind : κ
  addr : Nat
  deriving DecidableEq

/-- The calls of `malloc` so far, and the blocks that are allocated. -/
structure Heap (κ : Type) where
  calls : Nat
  live : Multiset (Block κ)

namespace Heap

variable {κ : Type}

/-- Nothing is allocated. -/
def empty : Heap κ := { calls := 0, live := 0 }

/-- `malloc`; `none` for NULL. -/
def malloc (ok : Nat → Bool) (heap : Heap κ) (kind : κ) : Option Nat × Heap κ :=
  if ok heap.calls then
    (some heap.calls, { calls := heap.calls + 1, live := ⟨kind, heap.calls⟩ ::ₘ heap.live })
  else (none, { heap with calls := heap.calls + 1 })

variable [DecidableEq κ]

/-- `free`. -/
def free (heap : Heap κ) (kind : κ) (addr : Nat) : Heap κ :=
  { heap with live := heap.live.erase ⟨kind, addr⟩ }

/-- `free`, where the pointer may be NULL. -/
def freeNullable (heap : Heap κ) (kind : κ) (addr : Option Nat) : Heap κ :=
  addr.elim heap (heap.free kind)

/-- What a pointer that may be NULL points to, as a term of the
account. -/
def share (kind : κ) (addr : Option Nat) : Multiset (Block κ) := addr.elim 0 fun a => {⟨kind, a⟩}

section Accounts

variable {ok : Nat → Bool} {heap heap' : Heap κ} {kind : κ} {account : Multiset (Block κ)}

omit [DecidableEq κ] in
theorem malloc_live {addr : Option Nat} (h : heap.malloc ok kind = (addr, heap')) :
    heap'.live = share kind addr + heap.live := by
  unfold malloc at h
  split at h <;> cases h
  · exact (Multiset.singleton_add _ _).symm
  · exact (zero_add _).symm

theorem free_live {addr : Nat} (h : heap.live = {⟨kind, addr⟩} + account) :
    (heap.free kind addr).live = account := by
  rw [free, h, Multiset.singleton_add, Multiset.erase_cons_head]

theorem freeNullable_live {addr : Option Nat} (h : heap.live = share kind addr + account) :
    (heap.freeNullable kind addr).live = account := by
  cases addr with
  | none => exact h.trans (zero_add _)
  | some a => exact free_live h

end Accounts

end Heap

/-- The shares of `n` parties when party `i` has `x` instead of its
share. -/
theorem sum_update {M : Type} [AddCommMonoid M] {n i : Nat} (hi : i < n) (f : Nat → M) (x : M) :
    (∑ k ∈ Finset.range n, Function.update f i x k) + f i = (∑ k ∈ Finset.range n, f k) + x := by
  have hmem : i ∈ Finset.range n := Finset.mem_range.mpr hi
  rw [Finset.sum_update_of_mem hmem, Finset.sdiff_singleton_eq_erase,
    ← Finset.add_sum_erase _ f hmem]
  ac_rfl

section Events

variable {α β γ : Type} {f : α → Option β} {g : β → Multiset γ}

/-- Events whose terms are not empty add up to nothing only if none of
them has a term. -/
theorem sum_elim_eq_zero (hg : ∀ b, g b ≠ 0) (l : List α) :
    (l.map fun x => (f x).elim 0 g).sum = 0 ↔ ∀ x ∈ l, f x = none := by
  induction l with
  | nil => simp
  | cons x l ih =>
    rw [List.map_cons, List.sum_cons, add_eq_zero, ih, List.forall_mem_cons]
    refine and_congr_left fun _ => ?_
    cases f x with
    | none => simp
    | some b => simp [hg b]

theorem filter_sum_elim {p : γ → Prop} [DecidablePred p] {g' : β → Multiset γ}
    (hg : ∀ b, (g b).filter p = g' b) (l : List α) :
    ((l.map fun x => (f x).elim 0 g).sum).filter p = (l.map fun x => (f x).elim 0 g').sum := by
  induction l with
  | nil => rfl
  | cons x l ih =>
    rw [List.map_cons, List.sum_cons, Multiset.filter_add, ih, List.map_cons, List.sum_cons]
    cases f x with
    | none => rfl
    | some b => exact congrArg (· + _) (hg b)

/-- Events none of whose terms meets the condition. -/
theorem filter_sum_elim_eq_zero {p : γ → Prop} [DecidablePred p]
    (hg : ∀ b, (g b).filter p = 0) (l : List α) :
    ((l.map fun x => (f x).elim 0 g).sum).filter p = 0 := by
  rw [filter_sum_elim hg]
  refine List.sum_eq_zero fun t ht => ?_
  obtain ⟨x, _, rfl⟩ := List.mem_map.mp ht
  cases f x <;> rfl

end Events

end Pyoneer.Lib
