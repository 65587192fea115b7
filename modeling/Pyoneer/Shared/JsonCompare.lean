/-
Pyoneer.Shared.JsonCompare — `json_value_compare` of
`shared/json-helpers.c`.

The two arguments play different roles: an object is compared by going
through the entries of the FIRST value and looking up each name in the
second one, where the first entry of that name answers. Nothing else
than the number of entries is asked of the second object.

A double is kept as its text, so whether two doubles are equal is a
parameter here.
-/
import Mathlib.Data.List.Forall2
import Mathlib.Data.List.Nodup
import Mathlib.Data.List.Perm.Subperm
import Pyoneer.Shared.Json

namespace Pyoneer.Shared

/-- `json_type`. -/
inductive JsonType where
  | none | object | array | integer | double | string | boolean | null
  deriving DecidableEq, Repr

/-- The number of a `json_type`. -/
def JsonType.code : JsonType → Int
  | .none => 0
  | .object => 1
  | .array => 2
  | .integer => 3
  | .double => 4
  | .string => 5
  | .boolean => 6
  | .null => 7

/-- `value->type`. -/
def JsonValue.type : JsonValue → JsonType
  | .object _ => .object
  | .array _ => .array
  | .integer _ => .integer
  | .double _ => .double
  | .string _ => .string
  | .boolean _ => .boolean
  | .null => .null

/-! ## The comparison -/

section Compare

variable (dblEq : Bytes → Bytes → Bool)

mutual

/-- `json_value_compare` on two values that are not NULL; `dblEq` is `==`
on the doubles of two texts. -/
def compareValue (value1 value2 : JsonValue) : Int :=
  if value1.type ≠ value2.type then value1.type.code
  else
    match value1, value2 with
    | .null, .null => 0
    | .integer n, .integer m => if n = m then 0 else JsonType.integer.code
    | .double s, .double t => if dblEq s t then 0 else JsonType.double.code
    | .boolean b, .boolean c => if b = c then 0 else JsonType.boolean.code
    | .string s, .string t => if strcmpEq s t then 0 else JsonType.string.code
    | .array vs, .array ws =>
      if vs.length ≠ ws.length then JsonType.array.code else compareValues vs ws
    | .object es, .object fs =>
      if es.length ≠ fs.length then JsonType.object.code else compareEntries es fs
    | _, _ => -1
termination_by structural value1

/-- The loop over two arrays. -/
def compareValues : List JsonValue → List JsonValue → Int
  | v :: vs, w :: ws => if compareValue v w ≠ 0 then JsonType.array.code else compareValues vs ws
  | _, _ => 0
termination_by structural vs => vs

/-- The loop over the entries of the first object. -/
def compareEntries : List (Bytes × JsonValue) → List (Bytes × JsonValue) → Int
  | [], _ => 0
  | e :: es, fs =>
    match jsonObjectGetValue (.object fs) e.1 with
    | none => JsonType.object.code
    | some v2 => if compareEntry e v2 ≠ 0 then JsonType.object.code else compareEntries es fs
termination_by structural es => es

def compareEntry : Bytes × JsonValue → JsonValue → Int
  | (_, v), v2 => compareValue v v2
termination_by structural e => e

end

/-- `json_value_compare`. -/
def jsonValueCompare (value1 value2 : Option JsonValue) : Int :=
  match value1, value2 with
  | some v, some w => compareValue dblEq v w
  | _, _ => -1

end Compare

/-- Induction over a value, with the values in an object or an array at
hand. -/
theorem JsonValue.induct {P : JsonValue → Prop}
    (object : ∀ es : List (Bytes × JsonValue), (∀ e ∈ es, P e.2) → P (.object es))
    (array : ∀ vs : List JsonValue, (∀ v ∈ vs, P v) → P (.array vs))
    (integer : ∀ n, P (.integer n)) (double : ∀ text, P (.double text))
    (string : ∀ s, P (.string s)) (boolean : ∀ b, P (.boolean b)) (null : P .null)
    (v : JsonValue) : P v :=
  match v with
  | .object es =>
    object es fun e _ => JsonValue.induct object array integer double string boolean null e.2
  | .array vs =>
    array vs fun v _ => JsonValue.induct object array integer double string boolean null v
  | .integer n => integer n
  | .double text => double text
  | .string s => string s
  | .boolean b => boolean b
  | .null => null
termination_by sizeOf v
decreasing_by
  · rename_i he
    have hlt := List.sizeOf_lt_of_mem he
    cases e
    simp at *
    omega
  · rename_i hv
    have hlt := List.sizeOf_lt_of_mem hv
    simp at *
    omega

/-! ## What the result says -/

theorem JsonValue.type_code_pos (v : JsonValue) : 0 < v.type.code := by
  cases v <;> simp [type, JsonType.code]

section Spec

variable {dblEq : Bytes → Bytes → Bool}

theorem compareEntries_range (es fs : List (Bytes × JsonValue)) :
    compareEntries dblEq es fs = 0 ∨ compareEntries dblEq es fs = JsonType.object.code := by
  induction es with
  | nil => exact Or.inl (by rw [compareEntries])
  | cons e es ih =>
    rw [compareEntries]
    split
    · exact Or.inr rfl
    · split
      · exact Or.inr rfl
      · exact ih

theorem compareValues_range (vs ws : List JsonValue) :
    compareValues dblEq vs ws = 0 ∨ compareValues dblEq vs ws = JsonType.array.code := by
  induction vs generalizing ws with
  | nil => exact Or.inl (by rw [compareValues]; simp)
  | cons v vs ih =>
    cases ws with
    | nil => exact Or.inl (by rw [compareValues]; simp)
    | cons w ws =>
      rw [compareValues]
      split
      · exact Or.inr rfl
      · exact ih ws

theorem compareValue_of_type_ne {v w : JsonValue} (h : v.type ≠ w.type) :
    compareValue dblEq v w = v.type.code := by
  rw [compareValue.eq_def, if_pos h]

/-- The result is 0 or the type of the first value. -/
theorem compareValue_range (v w : JsonValue) :
    compareValue dblEq v w = 0 ∨ compareValue dblEq v w = v.type.code := by
  by_cases ht : v.type = w.type
  · rw [compareValue.eq_def, if_neg (not_not.mpr ht)]
    cases v <;> cases w <;> simp only [JsonValue.type, reduceCtorEq] at ht ⊢
    · split
      · exact Or.inr rfl
      · exact compareEntries_range _ _
    · split
      · exact Or.inr rfl
      · exact compareValues_range _ _
    all_goals
      first
        | exact Or.inl trivial
        | split
          · exact Or.inl rfl
          · exact Or.inr rfl
  · exact Or.inr (compareValue_of_type_ne ht)

/-- Values that compare equal have the same type. -/
theorem type_eq_of_compareValue {v w : JsonValue} (h : compareValue dblEq v w = 0) :
    v.type = w.type := by
  by_contra hne
  rw [compareValue_of_type_ne hne] at h
  exact Int.ne_of_gt v.type_code_pos h

theorem compareEntry_eq (e : Bytes × JsonValue) (w : JsonValue) :
    compareEntry dblEq e w = compareValue dblEq e.2 w := by
  cases e
  rw [compareEntry]

theorem compareEntries_eq_zero_iff (es fs : List (Bytes × JsonValue)) :
    compareEntries dblEq es fs = 0 ↔ ∀ e ∈ es, ∃ y,
      jsonObjectGetValue (.object fs) e.1 = some y ∧ compareValue dblEq e.2 y = 0 := by
  induction es with
  | nil =>
    rw [compareEntries]
    simp
  | cons e es ih =>
    have hcode : ¬ JsonType.object.code = 0 := by decide
    rw [compareEntries, List.forall_mem_cons, ← ih]
    cases hget : jsonObjectGetValue (.object fs) e.1 with
    | none => simp [hcode]
    | some y =>
      simp only [compareEntry_eq, Option.some.injEq, exists_eq_left']
      by_cases hy : compareValue dblEq e.2 y = 0
      · simp [hy]
      · simp [hy, hcode]

/-- Two objects compare equal when they have as many entries and every
entry of the first one is found in the second. -/
theorem compareValue_object_iff (es fs : List (Bytes × JsonValue)) :
    compareValue dblEq (.object es) (.object fs) = 0 ↔ es.length = fs.length ∧ ∀ e ∈ es, ∃ y,
      jsonObjectGetValue (.object fs) e.1 = some y ∧ compareValue dblEq e.2 y = 0 := by
  have hcode : ¬ JsonType.object.code = 0 := by decide
  rw [compareValue, ← compareEntries_eq_zero_iff]
  by_cases hlen : es.length = fs.length
  · simp [JsonValue.type, hlen]
  · simp [JsonValue.type, hlen, hcode]

theorem compareValues_eq_zero_iff {vs ws : List JsonValue} (hlen : vs.length = ws.length) :
    compareValues dblEq vs ws = 0 ↔
      List.Forall₂ (fun x y => compareValue dblEq x y = 0) vs ws := by
  induction vs generalizing ws with
  | nil =>
    obtain rfl := List.length_eq_zero_iff.mp hlen.symm
    simp [compareValues]
  | cons v vs ih =>
    cases ws with
    | nil => cases hlen
    | cons w ws =>
      have hcode : ¬ JsonType.array.code = 0 := by decide
      rw [compareValues, List.forall₂_cons, ← ih (Nat.succ.inj hlen)]
      by_cases hw : compareValue dblEq v w = 0
      · simp [hw]
      · simp [hw, hcode]

/-- Two arrays compare equal when their values do, place by place. -/
theorem compareValue_array_iff (vs ws : List JsonValue) :
    compareValue dblEq (.array vs) (.array ws) = 0 ↔
      List.Forall₂ (fun x y => compareValue dblEq x y = 0) vs ws := by
  have hcode : ¬ JsonType.array.code = 0 := by decide
  rw [compareValue]
  by_cases hlen : vs.length = ws.length
  · rw [← compareValues_eq_zero_iff hlen]
    simp [JsonValue.type, hlen]
  · have hno : ¬ List.Forall₂ (fun x y => compareValue dblEq x y = 0) vs ws :=
      fun h => hlen h.length_eq
    simp [JsonValue.type, hlen, hcode, hno]

@[simp] theorem compareValue_null : compareValue dblEq .null .null = 0 := by
  rw [compareValue]
  simp [JsonValue.type]

@[simp] theorem compareValue_integer_iff (n m : Int) :
    compareValue dblEq (.integer n) (.integer m) = 0 ↔ n = m := by
  have hcode : ¬ JsonType.integer.code = 0 := by decide
  rw [compareValue]
  by_cases h : n = m <;> simp [JsonValue.type, h, hcode]

@[simp] theorem compareValue_boolean_iff (b c : Bool) :
    compareValue dblEq (.boolean b) (.boolean c) = 0 ↔ b = c := by
  have hcode : ¬ JsonType.boolean.code = 0 := by decide
  rw [compareValue]
  by_cases h : b = c <;> simp [JsonValue.type, h, hcode]

@[simp] theorem compareValue_string_iff (s t : Bytes) :
    compareValue dblEq (.string s) (.string t) = 0 ↔ cstr s = cstr t := by
  have hcode : ¬ JsonType.string.code = 0 := by decide
  rw [compareValue, ← strcmpEq_iff]
  by_cases h : strcmpEq s t = true <;> simp [JsonValue.type, h, hcode]

end Spec

/-! ## Lookups -/

/-- No two entries have names that read the same in C. -/
def DistinctNames (es : List (Bytes × JsonValue)) : Prop := (es.map fun e => cstr e.1).Nodup

theorem exists_of_jsonObjectGetValue {es : List (Bytes × JsonValue)} {name : Bytes}
    {y : JsonValue} (h : jsonObjectGetValue (.object es) name = some y) :
    ∃ e ∈ es, cstr e.1 = cstr name ∧ e.2 = y := by
  obtain ⟨e, he, rfl⟩ := Option.map_eq_some_iff.mp h
  obtain ⟨hmem, hname⟩ := getEntry_some he
  exact ⟨e, hmem, hname, rfl⟩

/-- Some entry of the name is found as soon as there is one. -/
theorem jsonObjectGetValue_isSome {es : List (Bytes × JsonValue)} {e : Bytes × JsonValue}
    {name : Bytes} (he : e ∈ es) (hname : cstr e.1 = cstr name) :
    ∃ y, jsonObjectGetValue (.object es) name = some y := by
  have hsome : (getEntry es name).isSome := by
    rw [getEntry, List.find?_isSome]
    exact ⟨e, he, strcmpEq_iff.mpr hname⟩
  obtain ⟨f, hf⟩ := Option.isSome_iff_exists.mp hsome
  exact ⟨f.2, by rw [jsonObjectGetValue, hf]; rfl⟩

/-- A lookup does not see more of the name than `strcmp`. -/
theorem jsonObjectGetValue_congr (es : List (Bytes × JsonValue)) {name name' : Bytes}
    (h : cstr name = cstr name') :
    jsonObjectGetValue (.object es) name = jsonObjectGetValue (.object es) name' := by
  simp only [jsonObjectGetValue, getEntry, strcmpEq, h]

/-- Where the names are distinct, every entry is found by its name. -/
theorem DistinctNames.get {es : List (Bytes × JsonValue)} (hd : DistinctNames es)
    {e : Bytes × JsonValue} (he : e ∈ es) {name : Bytes} (hname : cstr e.1 = cstr name) :
    jsonObjectGetValue (.object es) name = some e.2 := by
  obtain ⟨y, hy⟩ := jsonObjectGetValue_isSome he hname
  obtain ⟨f, hf, hname', rfl⟩ := exists_of_jsonObjectGetValue hy
  have heq : f = e := List.inj_on_of_nodup_map hd hf he (hname'.trans hname.symm)
  rw [hy, heq]

end Pyoneer.Shared
