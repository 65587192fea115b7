/-
Pyoneer.Shared.Json — the JSON values of json-parser and json-builder,
and the helpers of `shared/json-helpers.c` that the program uses on
them.

A `json_value *` that may be NULL is an `Option JsonValue`. Strings and
entry names are length-counted (`Bytes`), as the parser produces them.
A double is kept as the text it was written with: no modelled function
reads its value.
-/
import Pyoneer.Shared.CString

namespace Pyoneer.Shared

/-- `json_value`. -/
inductive JsonValue where
  | object (entries : List (Bytes × JsonValue))
  | array (values : List JsonValue)
  | integer (n : Int)
  | double (text : Bytes)
  | string (s : Bytes)
  | boolean (b : Bool)
  | null
  deriving Repr

/-- The entry lookup of `json_object_get_value`: the FIRST entry whose
name compares equal by `strcmp`. -/
def getEntry (entries : List (Bytes × JsonValue)) (name : Bytes) :
    Option (Bytes × JsonValue) :=
  entries.find? fun e => strcmpEq e.1 name

/-- `json_object_get_value`. -/
def jsonObjectGetValue (obj : JsonValue) (name : Bytes) : Option JsonValue :=
  match obj with
  | .object entries => (getEntry entries name).map Prod.snd
  | _ => none

/-- `json_object_push` with a value that is not NULL: the entry is
appended. (A value that is NULL is dereferenced by `builderize`.) -/
def jsonObjectPush (obj : JsonValue) (key : Bytes) (value : JsonValue) : JsonValue :=
  match obj with
  | .object entries => .object (entries ++ [(key, value)])
  | v => v

/-- `json_object_push_value`, where the object may be NULL: nothing is
pushed then. -/
def jsonObjectPushValue (obj : Option JsonValue) (key : Bytes) (value : JsonValue) :
    Option JsonValue :=
  obj.map fun o => jsonObjectPush o key value

/-- `json_object_push_string`. -/
def jsonObjectPushString (obj : Option JsonValue) (key str : Bytes) : Option JsonValue :=
  jsonObjectPushValue obj key (.string (cstr str))

/-- `json_object_push_integer`. -/
def jsonObjectPushInteger (obj : Option JsonValue) (key : Bytes) (n : Int) :
    Option JsonValue :=
  jsonObjectPushValue obj key (.integer n)

@[simp] theorem jsonObjectPushValue_none (key : Bytes) (v : JsonValue) :
    jsonObjectPushValue none key v = none := rfl

@[simp] theorem jsonObjectPushValue_some (o : JsonValue) (key : Bytes) (v : JsonValue) :
    jsonObjectPushValue (some o) key v = some (jsonObjectPush o key v) := rfl

@[simp] theorem jsonObjectPush_object (es : List (Bytes × JsonValue)) (key : Bytes)
    (v : JsonValue) : jsonObjectPush (.object es) key v = .object (es ++ [(key, v)]) := rfl

/-- What a successful lookup found: an entry of the object whose name
reads as the key in C. -/
theorem getEntry_some {es : List (Bytes × JsonValue)} {name : Bytes}
    {e : Bytes × JsonValue} (h : getEntry es name = some e) :
    e ∈ es ∧ cstr e.1 = cstr name := by
  refine ⟨List.mem_of_find?_eq_some h, ?_⟩
  have := List.find?_some h
  exact strcmpEq_iff.mp this

end Pyoneer.Shared
