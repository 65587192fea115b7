/-
Pyoneer.Shared.JsonEquality — on values without repeated names
`json_value_compare` decides equality up to the order of entries.

The comparison of two objects only asks that they have as many entries
and that each name of the first is found in the second. With distinct
names that is enough: as many different names as there are entries
leave no entry of the second object over (`perm_of_found`).
-/
import Pyoneer.Shared.JsonCompare

namespace Pyoneer.Shared

/-! ## Equality up to order -/

mutual

/-- Equality up to the order of the entries of objects, at every
depth. -/
inductive Equiv : JsonValue → JsonValue → Prop
  | null : Equiv .null .null
  | boolean (b : Bool) : Equiv (.boolean b) (.boolean b)
  | integer (n : Int) : Equiv (.integer n) (.integer n)
  | string (s : Bytes) : Equiv (.string s) (.string s)
  | array {vs ws : List JsonValue} : ValuesEquiv vs ws → Equiv (.array vs) (.array ws)
  | object {es gs fs : List (Bytes × JsonValue)} : EntriesEquiv es gs → gs.Perm fs →
      Equiv (.object es) (.object fs)

/-- The values are equal, place by place. -/
inductive ValuesEquiv : List JsonValue → List JsonValue → Prop
  | nil : ValuesEquiv [] []
  | cons {v w : JsonValue} {vs ws : List JsonValue} : Equiv v w → ValuesEquiv vs ws →
      ValuesEquiv (v :: vs) (w :: ws)

/-- The entries have the same names and equal values, place by place. -/
inductive EntriesEquiv : List (Bytes × JsonValue) → List (Bytes × JsonValue) → Prop
  | nil : EntriesEquiv [] []
  | cons {name : Bytes} {v w : JsonValue} {es fs : List (Bytes × JsonValue)} : Equiv v w →
      EntriesEquiv es fs → EntriesEquiv ((name, v) :: es) ((name, w) :: fs)

end

theorem valuesEquiv_iff {vs ws : List JsonValue} :
    ValuesEquiv vs ws ↔ List.Forall₂ Equiv vs ws := by
  constructor
  · intro h
    induction vs generalizing ws with
    | nil =>
      cases h
      exact .nil
    | cons v vs ih =>
      cases h with
      | cons hv hvs => exact .cons hv (ih hvs)
  · intro h
    induction h with
    | nil => exact .nil
    | cons hv _ ih => exact .cons hv ih

theorem entriesEquiv_iff {es fs : List (Bytes × JsonValue)} :
    EntriesEquiv es fs ↔ List.Forall₂ (fun e f => e.1 = f.1 ∧ Equiv e.2 f.2) es fs := by
  constructor
  · intro h
    induction es generalizing fs with
    | nil =>
      cases h
      exact .nil
    | cons e es ih =>
      cases h with
      | cons hv hes => exact .cons ⟨rfl, hv⟩ (ih hes)
  · intro h
    induction h with
    | nil => exact .nil
    | @cons e f es fs he _ ih =>
      obtain ⟨name, v⟩ := e
      obtain ⟨name', w⟩ := f
      obtain ⟨rfl, hv⟩ := he
      exact .cons hv ih

/-- The values that the comparison is meant for: no doubles, no NUL in a
string or a name, and in every object no name twice. -/
inductive Canonical : JsonValue → Prop
  | null : Canonical .null
  | boolean (b : Bool) : Canonical (.boolean b)
  | integer (n : Int) : Canonical (.integer n)
  | string {s : Bytes} : (0 : UInt8) ∉ s → Canonical (.string s)
  | array {vs : List JsonValue} : (∀ v ∈ vs, Canonical v) → Canonical (.array vs)
  | object {es : List (Bytes × JsonValue)} : (∀ e ∈ es, (0 : UInt8) ∉ e.1) →
      (es.map Prod.fst).Nodup → (∀ e ∈ es, Canonical e.2) → Canonical (.object es)

/-! ## Objects -/

section Objects

variable {es fs : List (Bytes × JsonValue)}

/-- Names without a NUL that are different read differently in C. -/
theorem distinctNames_of_nodup (hz : ∀ e ∈ es, (0 : UInt8) ∉ e.1)
    (hn : (es.map Prod.fst).Nodup) : DistinctNames es := by
  have hmap : es.map (fun e => cstr e.1) = es.map Prod.fst :=
    List.map_congr_left fun e he => cstr_eq_self.mpr (hz e he)
  rw [DistinctNames, hmap]
  exact hn

/-- What is found under a name without a NUL is the entry of that name. -/
theorem mem_of_jsonObjectGetValue {name : Bytes} {y : JsonValue}
    (hz : ∀ f ∈ fs, (0 : UInt8) ∉ f.1) (hname : (0 : UInt8) ∉ name)
    (h : jsonObjectGetValue (.object fs) name = some y) : (name, y) ∈ fs := by
  obtain ⟨f, hf, hcstr, rfl⟩ := exists_of_jsonObjectGetValue h
  rw [cstr_eq_self.mpr (hz f hf), cstr_eq_self.mpr hname] at hcstr
  rw [← hcstr]
  exact hf

/-- The counting argument: entries with distinct names, all of them among
those of `fs` and as many, are those of `fs`. -/
theorem perm_of_found {gs : List (Bytes × JsonValue)} (hn : (gs.map Prod.fst).Nodup)
    (hsub : gs ⊆ fs) (hlen : fs.length ≤ gs.length) : gs.Perm fs :=
  ((List.Nodup.of_map _ hn).subperm hsub).perm_of_length_le hlen

theorem exists_of_forall₂ {α β : Type} {R : α → β → Prop} {xs : List α} {ys : List β}
    (h : List.Forall₂ R xs ys) {x : α} (hx : x ∈ xs) : ∃ y ∈ ys, R x y := by
  induction h with
  | nil => cases hx
  | cons hr _ ih =>
    rcases List.mem_cons.mp hx with rfl | hx
    · exact ⟨_, List.mem_cons_self, hr⟩
    · obtain ⟨y, hy, hr⟩ := ih hx
      exact ⟨y, List.mem_cons_of_mem _ hy, hr⟩

end Objects

/-! ## The two directions -/

section Decides

variable {dblEq : Bytes → Bytes → Bool}

/-- An object that compares equal has the entries of the other one in
another order. -/
theorem Equiv.of_entries {es fs : List (Bytes × JsonValue)}
    (hz : ∀ e ∈ es, (0 : UInt8) ∉ e.1) (hn : (es.map Prod.fst).Nodup)
    (hz' : ∀ f ∈ fs, (0 : UInt8) ∉ f.1) (hlen : es.length = fs.length)
    (hfound : ∀ e ∈ es, ∃ y, jsonObjectGetValue (.object fs) e.1 = some y ∧ Equiv e.2 y) :
    Equiv (.object es) (.object fs) := by
  let found : Bytes × JsonValue → Bytes × JsonValue := fun e =>
    (e.1, (jsonObjectGetValue (.object fs) e.1).getD .null)
  have hentries : EntriesEquiv es (es.map found) := by
    rw [entriesEquiv_iff, List.forall₂_map_right_iff, List.forall₂_same]
    intro e he
    obtain ⟨y, hy, heq⟩ := hfound e he
    refine ⟨rfl, ?_⟩
    simp only [found, hy, Option.getD_some]
    exact heq
  refine .object hentries (perm_of_found ?_ ?_ ?_)
  · rw [List.map_map]
    exact hn
  · intro g hg
    obtain ⟨e, he, rfl⟩ := List.mem_map.mp hg
    obtain ⟨y, hy, _⟩ := hfound e he
    simp only [found, hy, Option.getD_some]
    exact mem_of_jsonObjectGetValue hz' (hz e he) hy
  · rw [List.length_map, hlen]

/-- Values that compare equal are equal up to order. -/
theorem equiv_of_compareValue {v : JsonValue} (hv : Canonical v) {w : JsonValue}
    (hw : Canonical w) (h : compareValue dblEq v w = 0) : Equiv v w := by
  induction v using JsonValue.induct generalizing w with
  | object es ih =>
    cases hw with
    | @object fs hz' _ hfs =>
      cases hv with
      | object hz hn hes =>
        obtain ⟨hlen, hall⟩ := (compareValue_object_iff es fs).mp h
        refine .of_entries hz hn hz' hlen fun e he => ?_
        obtain ⟨y, hy, hcmp⟩ := hall e he
        obtain ⟨f, hf, _, rfl⟩ := exists_of_jsonObjectGetValue hy
        exact ⟨_, hy, ih e he (hes e he) (hfs f hf) hcmp⟩
    | _ => cases type_eq_of_compareValue h
  | array vs ih =>
    cases hw with
    | @array ws hws =>
      cases hv with
      | array hvs =>
        have hall := (compareValue_array_iff vs ws).mp h
        rw [List.forall₂_iff_zip] at hall
        refine .array (valuesEquiv_iff.mpr (List.forall₂_iff_zip.mpr ⟨hall.1, ?_⟩))
        intro x y hxy
        have hx := (List.of_mem_zip hxy).1
        have hy := (List.of_mem_zip hxy).2
        exact ih x hx (hvs x hx) (hws y hy) (hall.2 hxy)
    | _ => cases type_eq_of_compareValue h
  | integer n =>
    cases hw with
    | integer m =>
      rw [(compareValue_integer_iff n m).mp h]
      exact .integer m
    | _ => cases type_eq_of_compareValue h
  | double text => cases hv
  | string s =>
    cases hw with
    | @string t ht =>
      cases hv with
      | string hs =>
        have hcstr := (compareValue_string_iff s t).mp h
        rw [cstr_eq_self.mpr hs, cstr_eq_self.mpr ht] at hcstr
        rw [hcstr]
        exact .string t
    | _ => cases type_eq_of_compareValue h
  | boolean b =>
    cases hw with
    | boolean c =>
      rw [(compareValue_boolean_iff b c).mp h]
      exact .boolean c
    | _ => cases type_eq_of_compareValue h
  | null =>
    cases hw with
    | null => exact .null
    | _ => cases type_eq_of_compareValue h

/-- Values that are equal up to order compare equal. -/
theorem Equiv.compareValue {v : JsonValue} {w : JsonValue} (h : Equiv v w)
    (hw : Canonical w) : compareValue dblEq v w = 0 := by
  induction v using JsonValue.induct generalizing w with
  | object es ih =>
    cases h with
    | @object _ gs fs hentries hperm =>
      cases hw with
      | object hz hn hfs =>
        have hall := entriesEquiv_iff.mp hentries
        refine (compareValue_object_iff es fs).mpr
          ⟨hall.length_eq.trans hperm.length_eq, fun e he => ?_⟩
        obtain ⟨g, hg, hname, heq⟩ := exists_of_forall₂ hall he
        have hf := hperm.subset hg
        have hget := (distinctNames_of_nodup hz hn).get hf (congrArg cstr hname.symm)
        exact ⟨g.2, hget, ih e he heq (hfs g hf)⟩
  | array vs ih =>
    cases h with
    | @array _ ws hvalues =>
      cases hw with
      | array hws =>
        have hall := List.forall₂_iff_zip.mp (valuesEquiv_iff.mp hvalues)
        refine (compareValue_array_iff vs ws).mpr (List.forall₂_iff_zip.mpr ⟨hall.1, ?_⟩)
        intro x y hxy
        have hx := (List.of_mem_zip hxy).1
        have hy := (List.of_mem_zip hxy).2
        exact ih x hx (hall.2 hxy) (hws y hy)
  | integer n =>
    cases h
    simp
  | double text => cases h
  | string s =>
    cases h
    simp
  | boolean b =>
    cases h
    simp
  | null =>
    cases h
    simp

/-- **The comparison decides equality.** For values of any depth without
doubles, without NUL bytes and without repeated names,
`json_value_compare` returns 0 exactly for values that are equal up to
the order of entries, and else the type of the first one, which is no 0
and no -1. -/
theorem jsonValueCompare_eq_zero_iff {v w : JsonValue} (hv : Canonical v) (hw : Canonical w) :
    (jsonValueCompare dblEq (some v) (some w) = 0 ↔ Equiv v w) ∧
      (¬ Equiv v w → jsonValueCompare dblEq (some v) (some w) = v.type.code ∧
        0 < v.type.code) := by
  have hiff : Pyoneer.Shared.compareValue dblEq v w = 0 ↔ Equiv v w :=
    ⟨equiv_of_compareValue hv hw, fun h => h.compareValue hw⟩
  refine ⟨hiff, fun hne => ⟨?_, v.type_code_pos⟩⟩
  have hrange : Pyoneer.Shared.compareValue dblEq v w = 0 ∨ _ := compareValue_range v w
  rcases hrange with h | h
  · exact absurd (hiff.mp h) hne
  · exact h

end Decides

/-- An object with an entry of each name. -/
def twoEntries (flag : Bool) : JsonValue :=
  .object [(ascii "id", .integer 7), (ascii "tags", .array [.string (ascii "a"), .boolean flag])]

/-- The same entries in the other order. -/
def swapped : JsonValue :=
  .object [(ascii "tags", .array [.string (ascii "a"), .boolean true]), (ascii "id", .integer 7)]

theorem canonical_twoEntries (flag : Bool) : Canonical (twoEntries flag) := by
  refine .object ?_ ?_ ?_
  · simp [ascii]
  · simp [ascii]
  · simp only [List.mem_cons, List.not_mem_nil, or_false, forall_eq_or_imp, forall_eq]
    refine ⟨.integer 7, .array ?_⟩
    simp only [List.mem_cons, List.not_mem_nil, or_false, forall_eq_or_imp, forall_eq]
    exact ⟨.string (by decide), .boolean flag⟩

theorem canonical_swapped : Canonical swapped := by
  refine .object ?_ ?_ ?_
  · simp [ascii]
  · simp [ascii]
  · simp only [List.mem_cons, List.not_mem_nil, or_false, forall_eq_or_imp, forall_eq]
    refine ⟨.array ?_, .integer 7⟩
    simp only [List.mem_cons, List.not_mem_nil, or_false, forall_eq_or_imp, forall_eq]
    exact ⟨.string (by decide), .boolean true⟩

/-- The order of the entries does not matter, a value in an array
does. -/
theorem jsonValueCompare_twoEntries : Equiv (twoEntries true) swapped ∧
    ¬ Equiv (twoEntries false) swapped :=
  ⟨(@jsonValueCompare_eq_zero_iff (fun _ _ => false) _ _ (canonical_twoEntries true)
      canonical_swapped).1.mp rfl,
    fun h => absurd ((@jsonValueCompare_eq_zero_iff (fun _ _ => false) _ _
      (canonical_twoEntries false) canonical_swapped).1.mpr h) (by decide)⟩

end Pyoneer.Shared
