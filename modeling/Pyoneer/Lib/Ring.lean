/-
Pyoneer.Lib.Ring — the entries of a circular array.

`window slots cap head len` is the list of the `len` entries that start
at index `head` and go around at `cap`. The two lemmas say what a write
behind the last entry and a step of the head do to that list: the array
is a queue. The array itself is a function, and nothing is assumed of
the slots outside the window.

Nothing here mentions a program.
-/
import Mathlib.Logic.Function.Basic
import Mathlib.Data.List.Range
import Mathlib.Data.Nat.ModEq

namespace Pyoneer.Lib

variable {α : Type}

/-- The `len` entries of a circular array from `head` on. -/
def window (slots : Nat → α) (cap head len : Nat) : List α :=
  (List.range len).map fun i => slots ((head + i) % cap)

@[simp] theorem length_window (slots : Nat → α) (cap head len : Nat) :
    (window slots cap head len).length = len := by
  simp [window]

@[simp] theorem window_zero (slots : Nat → α) (cap head : Nat) :
    window slots cap head 0 = [] := rfl

/-- Two places of a window that is no longer than the array are
different. -/
theorem ring_index_ne {cap head i j : Nat} (hij : i < j) (hj : j < cap) :
    (head + i) % cap ≠ (head + j) % cap := by
  intro h
  have hmod : i % cap = j % cap := Nat.ModEq.add_left_cancel' head h
  rw [Nat.mod_eq_of_lt (Nat.lt_trans hij hj), Nat.mod_eq_of_lt hj] at hmod
  exact Nat.ne_of_lt hij hmod

/-- A write behind the last entry. -/
theorem window_push (slots : Nat → α) (head : Nat) {cap len : Nat} (hlen : len < cap) (a : α) :
    window (Function.update slots ((head + len) % cap) a) cap head (len + 1)
      = window slots cap head len ++ [a] := by
  simp only [window, List.range_succ, List.map_append, List.map_cons, List.map_nil,
    Function.update_self]
  congr 1
  apply List.map_congr_left
  intro i hi
  rw [Function.update_of_ne (ring_index_ne (List.mem_range.mp hi) hlen)]

/-- The first entry, and the window behind it. -/
theorem window_pop (slots : Nat → α) {cap head : Nat} (hhead : head < cap) (len : Nat) :
    window slots cap head (len + 1)
      = slots head :: window slots cap ((head + 1) % cap) len := by
  simp only [window, List.range_succ_eq_map, List.map_cons, List.map_map, Nat.add_zero,
    Nat.mod_eq_of_lt hhead, List.cons.injEq, true_and]
  apply List.map_congr_left
  intro i _
  simp only [Function.comp_apply, Nat.mod_add_mod]
  congr 2
  omega

end Pyoneer.Lib
