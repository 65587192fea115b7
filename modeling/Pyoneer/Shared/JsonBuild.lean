/-
Pyoneer.Shared.JsonBuild — `json_measure` and `json_serialize` of
`shared/json-builder.c` with the default options: one line, spaces
inside brackets, after commas and after colons.

The source walks the tree with a counter per container
(`length_iterated`); here each kind of node is a function, which visits
the same nodes in the same order. A double is written as the text it was
kept as: no value that the program serializes holds one.
-/
import Pyoneer.Shared.Json
import Mathlib.Data.Nat.Digits.Defs

namespace Pyoneer.Shared

/-! ## Strings and integers -/

/-- The second byte of a character that is escaped in two bytes. -/
def escapeOf (b : UInt8) : Option UInt8 :=
  if b = 34 then some 34
  else if b = 92 then some 92
  else if b = 8 then some 98
  else if b = 12 then some 102
  else if b = 10 then some 110
  else if b = 13 then some 114
  else if b = 9 then some 116
  else none

/-- One byte of `serialize_string`. -/
def serializeByte (b : UInt8) : Bytes :=
  match escapeOf b with
  | some c => [92, c]
  | none => [b]

/-- `serialize_string`. -/
def serializeString (s : Bytes) : Bytes := s.flatMap serializeByte

/-- One byte of `measure_string`. -/
def measureByte (b : UInt8) : Nat := if (escapeOf b).isSome then 2 else 1

/-- `measure_string`. -/
def measureString (s : Bytes) : Nat := (s.map measureByte).sum

/-- The decimal digits of an integer that is not negative. -/
def serializeNat (n : Nat) : Bytes := (Nat.toDigits 10 n).map fun c => c.toNat.toUInt8

def serializeInteger (n : Int) : Bytes :=
  if n < 0 then 45 :: serializeNat n.natAbs else serializeNat n.natAbs

/-! ## Trees -/

mutual

/-- `json_serialize`, without the terminator. -/
def jsonSerialize : JsonValue → Bytes
  | .object [] => ascii "\x7b\x7d"
  | .object (e :: es) => ascii "\x7b " ++ serializeEntry e ++ serializeEntries es ++ ascii " \x7d"
  | .array [] => ascii "[]"
  | .array (v :: vs) => ascii "[ " ++ jsonSerialize v ++ serializeValues vs ++ ascii " ]"
  | .integer n => serializeInteger n
  | .double text => text
  | .string s => 34 :: serializeString s ++ [34]
  | .boolean true => ascii "true"
  | .boolean false => ascii "false"
  | .null => ascii "null"

def serializeEntry : Bytes × JsonValue → Bytes
  | (name, v) => 34 :: serializeString name ++ [34, 58, 32] ++ jsonSerialize v

/-- The entries after the first. -/
def serializeEntries : List (Bytes × JsonValue) → Bytes
  | [] => []
  | e :: es => ascii ", " ++ serializeEntry e ++ serializeEntries es

/-- The values after the first. -/
def serializeValues : List JsonValue → Bytes
  | [] => []
  | v :: vs => ascii ", " ++ jsonSerialize v ++ serializeValues vs

end

mutual

/-- What `json_measure` adds for a value. -/
def measureValue : JsonValue → Nat
  | .object [] => 2
  | .object (e :: es) => 2 + measureEntry e + measureEntries es + 2
  | .array [] => 2
  | .array (v :: vs) => 2 + measureValue v + measureValues vs + 2
  | .integer n => (serializeInteger n).length
  | .double text => text.length + 2
  | .string s => 2 + measureString s
  | .boolean true => 4
  | .boolean false => 5
  | .null => 4

def measureEntry : Bytes × JsonValue → Nat
  | (name, v) => 4 + measureString name + measureValue v

def measureEntries : List (Bytes × JsonValue) → Nat
  | [] => 0
  | e :: es => 2 + measureEntry e + measureEntries es

def measureValues : List JsonValue → Nat
  | [] => 0
  | v :: vs => 2 + measureValue v + measureValues vs

end

/-- `json_measure`, with the terminator. -/
def jsonMeasure (v : JsonValue) : Nat := measureValue v + 1

theorem length_serializeString (s : Bytes) : (serializeString s).length = measureString s := by
  induction s with
  | nil => rfl
  | cons b s ih =>
    have hb : (serializeByte b).length = measureByte b := by
      unfold serializeByte measureByte
      cases escapeOf b <;> rfl
    simp only [serializeString, measureString, List.flatMap_cons, List.length_append,
      List.map_cons, List.sum_cons] at ih ⊢
    rw [hb, ih]

mutual

/-- What is written is not longer than what was measured. -/
theorem length_jsonSerialize_le : ∀ v : JsonValue, (jsonSerialize v).length ≤ measureValue v
  | .object [] => by simp [jsonSerialize, measureValue, ascii]
  | .object (e :: es) => by
      have he := length_serializeEntry_le e
      have hes := length_serializeEntries_le es
      simp [jsonSerialize, measureValue, ascii]
      omega
  | .array [] => by simp [jsonSerialize, measureValue, ascii]
  | .array (v :: vs) => by
      have hv := length_jsonSerialize_le v
      have hvs := length_serializeValues_le vs
      simp [jsonSerialize, measureValue, ascii]
      omega
  | .integer n => by simp [jsonSerialize, measureValue]
  | .double text => by simp [jsonSerialize, measureValue]
  | .string s => by
      simp [jsonSerialize, measureValue, length_serializeString]
      omega
  | .boolean true => by simp [jsonSerialize, measureValue, ascii]
  | .boolean false => by simp [jsonSerialize, measureValue, ascii]
  | .null => by simp [jsonSerialize, measureValue, ascii]

theorem length_serializeEntry_le : ∀ e : Bytes × JsonValue,
    (serializeEntry e).length ≤ measureEntry e
  | (name, v) => by
      have hv := length_jsonSerialize_le v
      simp [serializeEntry, measureEntry, length_serializeString]
      omega

theorem length_serializeEntries_le : ∀ es : List (Bytes × JsonValue),
    (serializeEntries es).length ≤ measureEntries es
  | [] => by simp [serializeEntries]
  | e :: es => by
      have he := length_serializeEntry_le e
      have hes := length_serializeEntries_le es
      simp [serializeEntries, measureEntries, ascii]
      omega

theorem length_serializeValues_le : ∀ vs : List JsonValue,
    (serializeValues vs).length ≤ measureValues vs
  | [] => by simp [serializeValues]
  | v :: vs => by
      have hv := length_jsonSerialize_le v
      have hvs := length_serializeValues_le vs
      simp [serializeValues, measureValues, ascii]
      omega

end

end Pyoneer.Shared
