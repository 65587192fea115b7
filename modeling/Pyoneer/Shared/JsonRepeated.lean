/-
Pyoneer.Shared.JsonRepeated — `json_value_compare` on objects that repeat
a name.

The parser keeps every entry of an object, whatever its name, and a
lookup answers with the first entry of the name. The comparison goes
through ALL entries of the first value and asks for each of them whether
the lookup in the second one finds something equal. In terms of paths of
names and places: every node of the first value, whichever entries of a
repeated name lead to it, must look like the node that the lookups find
in the second value (`compareValue_eq_zero_iff_covers`). That relation
is transitive, but on values with repeated names it is neither reflexive
nor symmetric.
-/
import Pyoneer.Shared.JsonCompare
import Pyoneer.Shared.JsonParse

namespace Pyoneer.Shared

/-! ## Nodes -/

/-- One step down: to the entry of a name, or to a place of an array. -/
inductive PathStep where
  | key (name : Bytes)
  | index (i : Nat)
  deriving DecidableEq, Repr

/-- What the comparison sees of a node by itself: the type, the value if
it is a scalar, and the length if it is not. -/
inductive Shape where
  | object (length : Nat)
  | array (length : Nat)
  | integer (n : Int)
  | double (text : Bytes)
  | string (s : Bytes)
  | boolean (b : Bool)
  | null
  deriving DecidableEq, Repr

def JsonValue.shape : JsonValue → Shape
  | .object es => .object es.length
  | .array vs => .array vs.length
  | .integer n => .integer n
  | .double text => .double text
  | .string s => .string (cstr s)
  | .boolean b => .boolean b
  | .null => .null

/-- A value with no values in it. -/
def JsonValue.Scalar : JsonValue → Prop
  | .object _ | .array _ => False
  | _ => True

/-- The node under a path, where the first entry of a name answers. -/
def JsonValue.find : JsonValue → List PathStep → Option JsonValue
  | v, [] => some v
  | .object es, .key name :: p => (jsonObjectGetValue (.object es) name).bind fun v => v.find p
  | .array vs, .index i :: p => vs[i]?.bind fun v => v.find p
  | _, _ => none

/-- `Node v p x`: `x` is a node of `v` under `p`, through any of the
entries that have a name. -/
inductive Node : JsonValue → List PathStep → JsonValue → Prop
  | root (v : JsonValue) : Node v [] v
  | entry {es : List (Bytes × JsonValue)} {e : Bytes × JsonValue} {p : List PathStep}
      {x : JsonValue} : e ∈ es → Node e.2 p x → Node (.object es) (.key (cstr e.1) :: p) x
  | item {vs : List JsonValue} {i : Nat} {v x : JsonValue} {p : List PathStep} :
      vs[i]? = some v → Node v p x → Node (.array vs) (.index i :: p) x

/-- Every node of `v` looks like the one that the lookups find in `w`
under its path. -/
def Covers (w v : JsonValue) : Prop :=
  ∀ p x, Node v p x → ∃ y, w.find p = some y ∧ x.shape = y.shape

/-- The nodes of a value under one path all look like the first of
them. -/
def Uniform (v : JsonValue) : Prop := Covers v v

/-- The two values have nodes that look the same under the same paths. -/
def SameNodes (v w : JsonValue) : Prop :=
  ∀ p s, (∃ x, Node v p x ∧ x.shape = s) ↔ ∃ y, Node w p y ∧ y.shape = s

/-- Repeated names hide nothing: the nodes of `v` under one path look
alike, and if one of the two values covers the other, so do those of
`w`, and the two have the same nodes. -/
def NothingHidden (v w : JsonValue) : Prop :=
  Uniform v ∧ (Covers w v ∨ Covers v w → Uniform w ∧ SameNodes v w)

/-- No double anywhere. -/
inductive NoDouble : JsonValue → Prop
  | object {es : List (Bytes × JsonValue)} : (∀ e ∈ es, NoDouble e.2) → NoDouble (.object es)
  | array {vs : List JsonValue} : (∀ v ∈ vs, NoDouble v) → NoDouble (.array vs)
  | integer (n : Int) : NoDouble (.integer n)
  | string (s : Bytes) : NoDouble (.string s)
  | boolean (b : Bool) : NoDouble (.boolean b)
  | null : NoDouble .null

/-- No object, at any depth, repeats a name. -/
inductive NoRepeats : JsonValue → Prop
  | object {es : List (Bytes × JsonValue)} : DistinctNames es → (∀ e ∈ es, NoRepeats e.2) →
      NoRepeats (.object es)
  | array {vs : List JsonValue} : (∀ v ∈ vs, NoRepeats v) → NoRepeats (.array vs)
  | integer (n : Int) : NoRepeats (.integer n)
  | double (text : Bytes) : NoRepeats (.double text)
  | string (s : Bytes) : NoRepeats (.string s)
  | boolean (b : Bool) : NoRepeats (.boolean b)
  | null : NoRepeats .null

/-! ## Covering -/

section Covering

variable {v w : JsonValue}

@[simp] theorem find_nil (v : JsonValue) : v.find [] = some v := by
  cases v <;> rfl

theorem Covers.root (h : Covers w v) : v.shape = w.shape := by
  obtain ⟨y, hy, hshape⟩ := h [] v (.root v)
  rw [find_nil] at hy
  cases hy
  exact hshape

theorem Node.of_scalar {p : List PathStep} {x : JsonValue} (hv : v.Scalar) (h : Node v p x) :
    p = [] ∧ x = v := by
  cases h with
  | root => exact ⟨rfl, rfl⟩
  | entry _ _ => exact absurd hv id
  | item _ _ => exact absurd hv id

/-- A scalar is covered by what looks like it. -/
theorem covers_scalar_iff (hv : v.Scalar) : Covers w v ↔ v.shape = w.shape := by
  constructor
  · exact Covers.root
  · intro h p x hx
    obtain ⟨rfl, rfl⟩ := hx.of_scalar hv
    exact ⟨w, find_nil w, h⟩

theorem Covers.symm_of_scalar (hv : v.Scalar) (h : Covers w v) : Covers v w := by
  have hshape := h.root
  have hw : w.Scalar := by
    cases v <;> cases w <;> trivial
  exact (covers_scalar_iff hw).mpr hshape.symm

theorem type_eq_of_shape (h : v.shape = w.shape) : v.type = w.type := by
  cases v <;> cases w <;> first | rfl | simp [JsonValue.shape] at h

theorem covers_object_iff (es : List (Bytes × JsonValue)) :
    Covers w (.object es) ↔ ∃ fs, w = .object fs ∧ es.length = fs.length ∧ ∀ e ∈ es, ∃ y,
      jsonObjectGetValue (.object fs) e.1 = some y ∧ Covers y e.2 := by
  constructor
  · intro h
    have hroot := h.root
    cases w with
    | object fs =>
      refine ⟨fs, rfl, by simpa [JsonValue.shape] using hroot, fun e he => ?_⟩
      obtain ⟨y, hy, _⟩ := h [.key (cstr e.1)] e.2 (.entry he (.root e.2))
      rw [JsonValue.find, jsonObjectGetValue_congr fs (cstr_cstr e.1)] at hy
      obtain ⟨y', hy', hy⟩ := Option.bind_eq_some_iff.mp hy
      rw [find_nil] at hy
      obtain rfl := Option.some.inj hy
      refine ⟨y', hy', fun p x hx => ?_⟩
      obtain ⟨z, hz, hshape⟩ := h (.key (cstr e.1) :: p) x (.entry he hx)
      rw [JsonValue.find, jsonObjectGetValue_congr fs (cstr_cstr e.1), hy'] at hz
      exact ⟨z, hz, hshape⟩
    | _ => simp [JsonValue.shape] at hroot
  · rintro ⟨fs, rfl, hlen, hall⟩ p x hx
    cases hx with
    | root => exact ⟨_, find_nil _, by simp [JsonValue.shape, hlen]⟩
    | @entry _ e p _ he hx =>
      obtain ⟨y, hy, hcov⟩ := hall e he
      obtain ⟨z, hz, hshape⟩ := hcov p x hx
      refine ⟨z, ?_, hshape⟩
      rw [JsonValue.find, jsonObjectGetValue_congr fs (cstr_cstr e.1), hy]
      exact hz

theorem covers_array_iff (vs : List JsonValue) :
    Covers w (.array vs) ↔ ∃ ws, w = .array ws ∧
      List.Forall₂ (fun x y => Covers y x) vs ws := by
  constructor
  · intro h
    have hroot := h.root
    cases w with
    | array ws =>
      have hlen : vs.length = ws.length := by simpa [JsonValue.shape] using hroot
      refine ⟨ws, rfl, List.forall₂_iff_get.mpr ⟨hlen, fun i hi hi' => ?_⟩⟩
      intro p x hx
      obtain ⟨z, hz, hshape⟩ := h (.index i :: p) x (.item (List.getElem?_eq_getElem hi) hx)
      rw [JsonValue.find, List.getElem?_eq_getElem hi'] at hz
      exact ⟨z, hz, hshape⟩
    | _ => simp [JsonValue.shape] at hroot
  · rintro ⟨ws, rfl, hall⟩ p x hx
    obtain ⟨hlen, hget⟩ := List.forall₂_iff_get.mp hall
    cases hx with
    | root => exact ⟨_, find_nil _, by simp [JsonValue.shape, hlen]⟩
    | @item _ i v _ p hi hx =>
      obtain ⟨hlt, rfl⟩ := List.getElem?_eq_some_iff.mp hi
      have hlt' : i < ws.length := hlen ▸ hlt
      obtain ⟨z, hz, hshape⟩ := hget i hlt hlt' p x hx
      refine ⟨z, ?_, hshape⟩
      rw [JsonValue.find, List.getElem?_eq_getElem hlt']
      exact hz

/-- What the lookups find under the path of a node is a node. -/
theorem Node.of_find {p : List PathStep} {x y : JsonValue} (hx : Node v p x)
    (hy : w.find p = some y) : Node w p y := by
  induction hx generalizing w with
  | root v =>
    rw [find_nil] at hy
    cases hy
    exact .root _
  | @entry es e p x he _ ih =>
    cases w with
    | object fs =>
      rw [JsonValue.find] at hy
      obtain ⟨z, hz, hy⟩ := Option.bind_eq_some_iff.mp hy
      obtain ⟨f, hf, hname, rfl⟩ := exists_of_jsonObjectGetValue hz
      rw [cstr_cstr] at hname
      rw [← hname]
      exact .entry hf (ih hy)
    | _ => simp [JsonValue.find] at hy
  | @item vs i v x p _ _ ih =>
    cases w with
    | array ws =>
      rw [JsonValue.find] at hy
      obtain ⟨z, hz, hy⟩ := Option.bind_eq_some_iff.mp hy
      exact .item hz (ih hy)
    | _ => simp [JsonValue.find] at hy

theorem Covers.trans {u : JsonValue} (h : Covers w v) (h' : Covers u w) : Covers u v := by
  intro p x hx
  obtain ⟨y, hy, hshape⟩ := h p x hx
  obtain ⟨z, hz, hshape'⟩ := h' p y (hx.of_find hy)
  exact ⟨z, hz, hshape.trans hshape'⟩

/-- A value that is covered has no node that the other lacks. -/
theorem Covers.node {p : List PathStep} {x : JsonValue} (h : Covers w v) (hx : Node v p x) :
    ∃ y, Node w p y ∧ y.shape = x.shape := by
  obtain ⟨y, hy, hshape⟩ := h p x hx
  exact ⟨y, hx.of_find hy, hshape.symm⟩

theorem sameNodes_of_covers (h : Covers w v) (h' : Covers v w) : SameNodes v w := by
  intro p s
  constructor
  · rintro ⟨x, hx, rfl⟩
    exact h.node hx
  · rintro ⟨y, hy, rfl⟩
    exact h'.node hy

/-- A value is covered by one with the same nodes whose nodes under one
path look alike. -/
theorem SameNodes.covers (h : SameNodes v w) (hw : Uniform w) : Covers w v := by
  intro p x hx
  obtain ⟨y, hy, hshape⟩ := (h p x.shape).mp ⟨x, hx, rfl⟩
  obtain ⟨z, hz, hshape'⟩ := hw p y hy
  exact ⟨z, hz, hshape.symm.trans hshape'⟩

theorem SameNodes.symm (h : SameNodes v w) : SameNodes w v := fun p s => (h p s).symm

end Covering

/-! ## The comparison -/

section Compare

variable {dblEq : Bytes → Bytes → Bool} {v w : JsonValue}

theorem compareValue_scalar_iff (hs : v.Scalar) (hv : NoDouble v) :
    compareValue dblEq v w = 0 ↔ v.shape = w.shape := by
  by_cases ht : v.type = w.type
  · cases hv with
    | object _ => exact absurd hs id
    | array _ => exact absurd hs id
    | integer n =>
      cases w with
      | integer m => simp [JsonValue.shape]
      | _ => cases ht
    | string s =>
      cases w with
      | string t => simp [JsonValue.shape]
      | _ => cases ht
    | boolean b =>
      cases w with
      | boolean c => simp [JsonValue.shape]
      | _ => cases ht
    | null =>
      cases w with
      | null => simp [JsonValue.shape]
      | _ => cases ht
  · exact iff_of_false (fun h => ht (type_eq_of_compareValue h)) fun h => ht (type_eq_of_shape h)

/-- `json_value_compare` returns 0 exactly when the second value covers
the first. -/
theorem compareValue_eq_zero_iff_covers (hv : NoDouble v) (w : JsonValue) :
    compareValue dblEq v w = 0 ↔ Covers w v := by
  induction v using JsonValue.induct generalizing w with
  | object es ih =>
    cases hv with
    | object hes =>
      rw [covers_object_iff]
      constructor
      · intro h
        cases w with
        | object fs =>
          obtain ⟨hlen, hall⟩ := (compareValue_object_iff es fs).mp h
          refine ⟨fs, rfl, hlen, fun e he => ?_⟩
          obtain ⟨y, hy, hcmp⟩ := hall e he
          exact ⟨y, hy, (ih e he (hes e he) y).mp hcmp⟩
        | _ => cases type_eq_of_compareValue h
      · rintro ⟨fs, rfl, hlen, hall⟩
        refine (compareValue_object_iff es fs).mpr ⟨hlen, fun e he => ?_⟩
        obtain ⟨y, hy, hcov⟩ := hall e he
        exact ⟨y, hy, (ih e he (hes e he) y).mpr hcov⟩
  | array vs ih =>
    cases hv with
    | array hvs =>
      rw [covers_array_iff]
      constructor
      · intro h
        cases w with
        | array ws =>
          have hall := List.forall₂_iff_zip.mp ((compareValue_array_iff vs ws).mp h)
          refine ⟨ws, rfl, List.forall₂_iff_zip.mpr ⟨hall.1, fun {x y} hxy => ?_⟩⟩
          have hx := (List.of_mem_zip hxy).1
          exact (ih x hx (hvs x hx) y).mp (hall.2 hxy)
        | _ => cases type_eq_of_compareValue h
      · rintro ⟨ws, rfl, hall⟩
        have hzip := List.forall₂_iff_zip.mp hall
        refine (compareValue_array_iff vs ws).mpr
          (List.forall₂_iff_zip.mpr ⟨hzip.1, fun {x y} hxy => ?_⟩)
        have hx := (List.of_mem_zip hxy).1
        exact (ih x hx (hvs x hx) y).mpr (hzip.2 hxy)
  | double text => cases hv
  | integer _ | string _ | boolean _ | null =>
    exact (compareValue_scalar_iff (by trivial) hv).trans (covers_scalar_iff (by trivial)).symm

/-- Without repeated names every value covers itself. -/
theorem NoRepeats.uniform (hv : NoRepeats v) : Uniform v := by
  induction v using JsonValue.induct with
  | object es ih =>
    cases hv with
    | object hd hes =>
      refine (covers_object_iff es).mpr ⟨es, rfl, rfl, fun e he => ?_⟩
      exact ⟨e.2, hd.get he rfl, ih e he (hes e he)⟩
  | array vs ih =>
    cases hv with
    | array hvs =>
      refine (covers_array_iff vs).mpr ⟨vs, rfl, List.forall₂_same.mpr fun v hv => ?_⟩
      exact ih v hv (hvs v hv)
  | integer _ | double _ | string _ | boolean _ | null =>
    exact (covers_scalar_iff (by trivial)).mpr rfl

/-- The counting argument: where the names of `es` are distinct and all of
them occur in `fs`, which is no longer, they are the names of `fs`, and
those are distinct too. -/
theorem DistinctNames.of_found {es fs : List (Bytes × JsonValue)} (hd : DistinctNames es)
    (hlen : es.length = fs.length)
    (hfound : ∀ e ∈ es, ∃ y, jsonObjectGetValue (.object fs) e.1 = some y) :
    DistinctNames fs ∧ ∀ f ∈ fs, ∃ e ∈ es, cstr e.1 = cstr f.1 := by
  have hsub : (es.map fun e => cstr e.1) ⊆ fs.map fun f => cstr f.1 := by
    intro name hname
    obtain ⟨e, he, rfl⟩ := List.mem_map.mp hname
    obtain ⟨y, hy⟩ := hfound e he
    obtain ⟨f, hf, hcstr, _⟩ := exists_of_jsonObjectGetValue hy
    exact List.mem_map.mpr ⟨f, hf, hcstr⟩
  have hperm := (List.Nodup.subperm hd hsub).perm_of_length_le (by simp [hlen])
  refine ⟨hperm.nodup_iff.mp hd, fun f hf => ?_⟩
  have hmem := hperm.symm.subset (List.mem_map.mpr ⟨f, hf, rfl⟩)
  exact List.mem_map.mp hmem

/-- Without repeated names a value covers what covers it. -/
theorem NoRepeats.covers_symm (hv : NoRepeats v) (h : Covers w v) : Covers v w := by
  induction v using JsonValue.induct generalizing w with
  | object es ih =>
    cases hv with
    | object hd hes =>
      obtain ⟨fs, rfl, hlen, hall⟩ := (covers_object_iff es).mp h
      obtain ⟨hd', hnames⟩ := hd.of_found hlen fun e he => (hall e he).imp fun _ hy => hy.1
      refine (covers_object_iff fs).mpr ⟨es, rfl, hlen.symm, fun f hf => ?_⟩
      obtain ⟨e, he, hname⟩ := hnames f hf
      obtain ⟨y, hy, hcov⟩ := hall e he
      have hf' := hd'.get hf hname.symm
      obtain rfl : y = f.2 := Option.some.inj (hy.symm.trans hf')
      exact ⟨e.2, hd.get he hname, ih e he (hes e he) hcov⟩
  | array vs ih =>
    cases hv with
    | array hvs =>
      obtain ⟨ws, rfl, hall⟩ := (covers_array_iff vs).mp h
      refine (covers_array_iff ws).mpr ⟨vs, rfl, List.Forall₂.flip ?_⟩
      have hzip := List.forall₂_iff_zip.mp hall
      refine List.forall₂_iff_zip.mpr ⟨hzip.1, fun {x y} hxy => ?_⟩
      have hx := (List.of_mem_zip hxy).1
      exact ih x hx (hvs x hx) (hzip.2 hxy)
  | integer _ | double _ | string _ | boolean _ | null => exact h.symm_of_scalar (by trivial)

/-- **When the comparison is reflexive and symmetric.** For all values
without doubles: exactly where repeated names hide nothing. That is so
whenever neither value repeats a name. -/
theorem compare_reflexive_symmetric_iff (hv : NoDouble v) (hw : NoDouble w) :
    ((jsonValueCompare dblEq (some v) (some v) = 0 ∧
        (jsonValueCompare dblEq (some v) (some w) = 0 ↔
          jsonValueCompare dblEq (some w) (some v) = 0)) ↔ NothingHidden v w) ∧
      (NoRepeats v → NoRepeats w → NothingHidden v w) := by
  constructor
  · simp only [jsonValueCompare, compareValue_eq_zero_iff_covers hv,
      compareValue_eq_zero_iff_covers hw]
    constructor
    · rintro ⟨hself, hsymm⟩
      refine ⟨hself, fun hor => ?_⟩
      have hboth : Covers w v ∧ Covers v w :=
        hor.elim (fun h => ⟨h, hsymm.mp h⟩) fun h => ⟨hsymm.mpr h, h⟩
      exact ⟨hboth.2.trans hboth.1, sameNodes_of_covers hboth.1 hboth.2⟩
    · rintro ⟨hself, hsame⟩
      refine ⟨hself, fun h => ?_, fun h => ?_⟩
      · exact (hsame (Or.inl h)).2.symm.covers hself
      · obtain ⟨hw', hnodes⟩ := hsame (Or.inr h)
        exact hnodes.covers hw'
  · intro hrv hrw
    refine ⟨hrv.uniform, fun hor => ⟨hrw.uniform, ?_⟩⟩
    rcases hor with h | h
    · exact sameNodes_of_covers h (hrv.covers_symm h)
    · exact sameNodes_of_covers (hrw.covers_symm h) h

end Compare

/-! ## Texts with repeated names -/

/-- `{"a":1,"b":2,"a":1}`, as the parser gives it. -/
def abaObject : JsonValue :=
  .object [(ascii "a", .integer 1), (ascii "b", .integer 2), (ascii "a", .integer 1)]

/-- `{"b":2,"a":1,"a":1}`. -/
def baaObject : JsonValue :=
  .object [(ascii "b", .integer 2), (ascii "a", .integer 1), (ascii "a", .integer 1)]

/-- Both repeat a name, with one value, so that nothing is hidden. -/
theorem compare_reflexive_symmetric_aba :
    ¬ NoRepeats abaObject ∧ NothingHidden abaObject baaObject ∧
      SameNodes abaObject baaObject := by
  have hv : NoDouble abaObject := by
    refine .object ?_
    simp only [List.mem_cons, List.not_mem_nil, or_false, forall_eq_or_imp, forall_eq]
    exact ⟨.integer 1, .integer 2, .integer 1⟩
  have hw : NoDouble baaObject := by
    refine .object ?_
    simp only [List.mem_cons, List.not_mem_nil, or_false, forall_eq_or_imp, forall_eq]
    exact ⟨.integer 2, .integer 1, .integer 1⟩
  have hrepeats : ¬ NoRepeats abaObject := by
    rintro (⟨hdistinct, -⟩)
    have hnames : ¬ [ascii "a", ascii "b", ascii "a"].Nodup := by decide
    exact hnames hdistinct
  have hcmp : jsonValueCompare (fun _ _ => false) (some abaObject) (some baaObject) = 0 := rfl
  have hcmp' : jsonValueCompare (fun _ _ => false) (some baaObject) (some abaObject) = 0 := rfl
  have hself : jsonValueCompare (fun _ _ => false) (some abaObject) (some abaObject) = 0 := rfl
  have hhidden : NothingHidden abaObject baaObject :=
    (compare_reflexive_symmetric_iff hv hw).1.mp ⟨hself, iff_of_true hcmp hcmp'⟩
  have hcov : Covers baaObject abaObject := (compareValue_eq_zero_iff_covers hv _).mp hcmp
  exact ⟨hrepeats, hhidden, (hhidden.2 (Or.inl hcov)).2⟩

/-- `{"a":1,"b":2}`. -/
def aAndB : JsonValue := .object [(ascii "a", .integer 1), (ascii "b", .integer 2)]

/-- `{"a":1,"a":1}`. -/
def repeatedA : JsonValue := .object [(ascii "a", .integer 1), (ascii "a", .integer 1)]

/-- `{"a":1,"a":2}`. -/
def differingA : JsonValue := .object [(ascii "a", .integer 1), (ascii "a", .integer 2)]

/-- **Repeated names.** A value that the parser gives is not equal to
itself, and two others compare equal in one order only, because a
lookup answers with the first entry of a name. -/
theorem compare_repeated_names :
    (jsonParse (ascii "\x7b\"a\":1,\"a\":2\x7d") = some differingA ∧
      jsonParse (ascii "\x7b\"a\":1,\"a\":1\x7d") = some repeatedA ∧
      jsonParse (ascii "\x7b\"a\":1,\"b\":2\x7d") = some aAndB) ∧
    ∀ dblEq, jsonValueCompare dblEq (some differingA) (some differingA) ≠ 0 ∧
      jsonValueCompare dblEq (some repeatedA) (some aAndB) = 0 ∧
      jsonValueCompare dblEq (some aAndB) (some repeatedA) ≠ 0 := by
  refine ⟨⟨rfl, rfl, rfl⟩, fun dblEq => ⟨?_, rfl, ?_⟩⟩
  · have hcode : jsonValueCompare dblEq (some differingA) (some differingA) = 1 := rfl
    rw [hcode]
    decide
  · have hcode : jsonValueCompare dblEq (some aAndB) (some repeatedA) = 1 := rfl
    rw [hcode]
    decide

end Pyoneer.Shared
