/-
Pyoneer.Shared.CString — length-counted byte strings and the C strings
that pointers to them denote.

json-parser keeps a string as a pointer and a length, and puts a NUL
after the last byte; the rest of the program hands the pointer to
`strcmp`, `strlen` and `strdup`, which stop at the first NUL. A string
is therefore the list of ALL its bytes, and `cstr` is what a C library
function sees of it.
-/
import Mathlib.Data.List.TakeWhile

namespace Pyoneer.Shared

abbrev Bytes := List UInt8

/-- The bytes of an ASCII literal of the source. -/
def ascii (s : String) : Bytes := s.toList.map fun c => c.toNat.toUInt8

/-- The C string at a pointer to `b`: the bytes before the first NUL. -/
def cstr (b : Bytes) : Bytes := b.takeWhile fun x => x ≠ 0

/-- `strlen`. -/
def strlen (b : Bytes) : Nat := (cstr b).length

/-- `strcmp(a, b) == 0`. -/
def strcmpEq (a b : Bytes) : Bool := cstr a == cstr b

theorem strcmpEq_iff {a b : Bytes} : strcmpEq a b = true ↔ cstr a = cstr b := by
  simp [strcmpEq]

/-- A string without a NUL is its own C string. -/
theorem cstr_eq_self {b : Bytes} : cstr b = b ↔ (0 : UInt8) ∉ b := by
  rw [cstr, List.takeWhile_eq_self_iff]
  constructor
  · intro h hz
    simpa using h 0 hz
  · intro h x hx
    have hne : x ≠ 0 := fun hz => h (hz ▸ hx)
    simpa using hne

theorem zero_not_mem_cstr (b : Bytes) : (0 : UInt8) ∉ cstr b := by
  intro h
  simpa using List.mem_takeWhile_imp h

@[simp] theorem cstr_cstr (b : Bytes) : cstr (cstr b) = cstr b :=
  cstr_eq_self.mpr (zero_not_mem_cstr b)

end Pyoneer.Shared
