/-
Pyoneer.Shared.JsonMemory — JSON values in memory.

A `json_value` is a cell with an address: it points to its parent, and
the cell of a container points to the cells in it. `Holds mem p a v as`
says that the cells `as` are a tree with the value `v`, whose root is
at `a` and has the parent `p`. The cell also has the fields that
`json_builder_value` adds; `length_iterated` is not one of them, the
walks that use it have it in their own state.

`Holds.spans` is what the walks need: such a tree is one that
`Lib/Walk` can go over, and what its visits do depends on the value
only.
-/
import Pyoneer.Lib.Walk
import Pyoneer.Shared.Json

namespace Pyoneer.Shared

open Lib

/-- `json_object_entry`, with the address of the name. -/
structure JsonEntry where
  name : Bytes
  nameAt : Nat
  value : Nat

/-- `type` and `u`. `values` is NULL in a container that never had
room. -/
inductive JsonPayload where
  | object (values : Option Nat) (entries : List JsonEntry)
  | array (values : Option Nat) (elements : List Nat)
  | integer (n : Int)
  | double (text : Bytes)
  | string (ptr : Nat) (s : Bytes)
  | boolean (b : Bool)
  | null

/-- `json_builder_value`. -/
structure JsonCell where
  parent : Option Nat
  isBuilderValue : Bool
  additional : Nat
  payload : JsonPayload

abbrev JsonMemory := Nat → JsonCell

/-- The cells that a cell points down to. -/
def JsonPayload.children : JsonPayload → List Nat
  | .object _ entries => entries.map JsonEntry.value
  | .array _ elements => elements
  | _ => []

/-- A payload without its pointers. -/
inductive JsonNode where
  | object (names : List Bytes)
  | array (length : Nat)
  | integer (n : Int)
  | double (text : Bytes)
  | string (s : Bytes)
  | boolean (b : Bool)
  | null

def JsonPayload.node : JsonPayload → JsonNode
  | .object _ entries => .object (entries.map JsonEntry.name)
  | .array _ elements => .array elements.length
  | .integer n => .integer n
  | .double text => .double text
  | .string _ s => .string s
  | .boolean b => .boolean b
  | .null => .null

/-! ## Trees -/

mutual

/-- The cells `as` are a tree with the value. -/
inductive Holds (mem : JsonMemory) : Option Nat → Nat → JsonValue → List Nat → Prop
  | integer {a : Nat} {n : Int} : (mem a).payload = .integer n →
      Holds mem (mem a).parent a (.integer n) [a]
  | double {a : Nat} {text : Bytes} : (mem a).payload = .double text →
      Holds mem (mem a).parent a (.double text) [a]
  | string {a ptr : Nat} {s : Bytes} : (mem a).payload = .string ptr s →
      Holds mem (mem a).parent a (.string s) [a]
  | boolean {a : Nat} {b : Bool} : (mem a).payload = .boolean b →
      Holds mem (mem a).parent a (.boolean b) [a]
  | null {a : Nat} : (mem a).payload = .null → Holds mem (mem a).parent a .null [a]
  | array {a : Nat} {values : Option Nat} {elements as : List Nat} {vs : List JsonValue} :
      (mem a).payload = .array values elements → HoldsValues mem a elements vs as → a ∉ as →
      Holds mem (mem a).parent a (.array vs) (a :: as)
  | object {a : Nat} {values : Option Nat} {entries : List JsonEntry} {as : List Nat}
      {es : List (Bytes × JsonValue)} : (mem a).payload = .object values entries →
      HoldsEntries mem a entries es as → a ∉ as →
      Holds mem (mem a).parent a (.object es) (a :: as)

/-- The elements of the array at `a`. -/
inductive HoldsValues (mem : JsonMemory) : Nat → List Nat → List JsonValue → List Nat → Prop
  | nil {a : Nat} : HoldsValues mem a [] [] []
  | cons {a c : Nat} {elements as bs : List Nat} {v : JsonValue} {vs : List JsonValue} :
      Holds mem (some a) c v as → HoldsValues mem a elements vs bs → as.Disjoint bs →
      HoldsValues mem a (c :: elements) (v :: vs) (as ++ bs)

/-- The entries of the object at `a`. -/
inductive HoldsEntries (mem : JsonMemory) :
    Nat → List JsonEntry → List (Bytes × JsonValue) → List Nat → Prop
  | nil {a : Nat} : HoldsEntries mem a [] [] []
  | cons {a : Nat} {entry : JsonEntry} {entries : List JsonEntry} {as bs : List Nat}
      {v : JsonValue} {es : List (Bytes × JsonValue)} : Holds mem (some a) entry.value v as →
      HoldsEntries mem a entries es bs → as.Disjoint bs →
      HoldsEntries mem a (entry :: entries) ((entry.name, v) :: es) (as ++ bs)

end

/-! ## What a walk does -/

section Walks

variable {σ : Type} (visit : JsonNode → Nat → σ → σ)

mutual

/-- What the visits of a walk over a value do. -/
def walkValue : JsonValue → σ → σ
  | .object es, d => walkEntries (.object (es.map Prod.fst)) 0 es d
  | .array vs, d => walkValues (.array vs.length) 0 vs d
  | .integer n, d => visit (.integer n) 0 d
  | .double text, d => visit (.double text) 0 d
  | .string s, d => visit (.string s) 0 d
  | .boolean b, d => visit (.boolean b) 0 d
  | .null, d => visit .null 0 d

def walkValues (node : JsonNode) (i : Nat) : List JsonValue → σ → σ
  | [], d => visit node i d
  | v :: vs, d => walkValues node (i + 1) vs (walkValue v (visit node i d))

def walkEntry : Bytes × JsonValue → σ → σ
  | (_, v), d => walkValue v d

def walkEntries (node : JsonNode) (i : Nat) : List (Bytes × JsonValue) → σ → σ
  | [], d => visit node i d
  | e :: es, d => walkEntries node (i + 1) es (walkEntry e (visit node i d))

end

end Walks

def JsonMemory.children (mem : JsonMemory) (a : Nat) : List Nat := (mem a).payload.children

def JsonMemory.parent (mem : JsonMemory) (a : Nat) : Option Nat := (mem a).parent

theorem HoldsValues.length {mem : JsonMemory} {a : Nat} {elements as : List Nat} :
    ∀ {vs : List JsonValue}, HoldsValues mem a elements vs as → elements.length = vs.length := by
  intro vs
  induction vs generalizing elements as with
  | nil => intro h; cases h; rfl
  | cons v vs ih =>
    intro h
    cases h with
    | cons _ h _ => rw [List.length_cons, List.length_cons, ih h]

theorem HoldsEntries.names {mem : JsonMemory} {a : Nat} {entries : List JsonEntry}
    {as : List Nat} : ∀ {es : List (Bytes × JsonValue)}, HoldsEntries mem a entries es as →
    entries.map JsonEntry.name = es.map Prod.fst := by
  intro es
  induction es generalizing entries as with
  | nil => intro h; cases h; rfl
  | cons e es ih =>
    intro h
    cases h with
    | cons _ h _ => rw [List.map_cons, List.map_cons, ih h]

/-- The visits at a cell of the memory. -/
def JsonMemory.visit {σ : Type} (mem : JsonMemory) (visit : JsonNode → Nat → σ → σ) (a i : Nat) :
    σ → σ :=
  visit (mem a).payload.node i

section Spans

variable {mem : JsonMemory}

/-- A tree of one cell. -/
theorem spans_leaf {a : Nat} (h : (mem a).payload.children = []) :
    Walk.Spans mem.children mem.parent (mem a).parent a [a] [(a, 0)] :=
  .node (.last (by simp only [JsonMemory.children, h, List.getElem?_nil])) List.not_mem_nil

mutual

/-- A tree that holds a value can be walked, and the visits do what the
value says. -/
theorem Holds.spans {p : Option Nat} {a : Nat} {v : JsonValue} {as : List Nat} :
    Holds mem p a v as → ∃ es, Walk.Spans mem.children mem.parent p a as es ∧
      ∀ {σ : Type} (visit : JsonNode → Nat → σ → σ) (d : σ),
        Walk.visitAll (mem.visit visit) es d = walkValue visit v d
  | .integer h => ⟨_, spans_leaf (by rw [h]; rfl), fun visit d => by
      simp only [Walk.visitAll_cons, Walk.visitAll_nil, JsonMemory.visit, h, JsonPayload.node,
        walkValue]⟩
  | .double h => ⟨_, spans_leaf (by rw [h]; rfl), fun visit d => by
      simp only [Walk.visitAll_cons, Walk.visitAll_nil, JsonMemory.visit, h, JsonPayload.node,
        walkValue]⟩
  | .string h => ⟨_, spans_leaf (by rw [h]; rfl), fun visit d => by
      simp only [Walk.visitAll_cons, Walk.visitAll_nil, JsonMemory.visit, h, JsonPayload.node,
        walkValue]⟩
  | .boolean h => ⟨_, spans_leaf (by rw [h]; rfl), fun visit d => by
      simp only [Walk.visitAll_cons, Walk.visitAll_nil, JsonMemory.visit, h, JsonPayload.node,
        walkValue]⟩
  | .null h => ⟨_, spans_leaf (by rw [h]; rfl), fun visit d => by
      simp only [Walk.visitAll_cons, Walk.visitAll_nil, JsonMemory.visit, h, JsonPayload.node,
        walkValue]⟩
  | @Holds.array _ a _ elements _ vs h hvs ha => by
      have hchildren : mem.children a = elements := by
        simp only [JsonMemory.children, h, JsonPayload.children]
      have hnode : (mem a).payload.node = .array vs.length := by
        rw [h, JsonPayload.node, hvs.length]
      obtain ⟨es, hspans, heval⟩ := HoldsValues.spans (i := 0) (by rw [hchildren, List.drop_zero])
        hnode hvs
      refine ⟨es, .node hspans ha, fun visit d => ?_⟩
      rw [heval, walkValue]
  | @Holds.object _ a _ entries _ es h hes ha => by
      have hchildren : mem.children a = entries.map JsonEntry.value := by
        simp only [JsonMemory.children, h, JsonPayload.children]
      have hnode : (mem a).payload.node = .object (es.map Prod.fst) := by
        rw [h, JsonPayload.node, hes.names]
      obtain ⟨fs, hspans, heval⟩ := HoldsEntries.spans (i := 0)
        (by rw [hchildren, List.drop_zero]) hnode hes
      refine ⟨fs, .node hspans ha, fun visit d => ?_⟩
      rw [heval, walkValue]

theorem HoldsValues.spans {a i : Nat} {elements as : List Nat} {vs : List JsonValue}
    {node : JsonNode} (hdrop : (mem.children a).drop i = elements)
    (hnode : (mem a).payload.node = node) : HoldsValues mem a elements vs as →
    ∃ es, Walk.SpansFrom mem.children mem.parent a i as es ∧
      ∀ {σ : Type} (visit : JsonNode → Nat → σ → σ) (d : σ),
        Walk.visitAll (mem.visit visit) es d = walkValues visit node i vs d
  | .nil => by
      refine ⟨_, .last (List.getElem?_eq_none (List.drop_eq_nil_iff.mp hdrop)), fun visit d => ?_⟩
      simp only [Walk.visitAll_cons, Walk.visitAll_nil, JsonMemory.visit, hnode, walkValues]
  | @HoldsValues.cons _ _ c elements _ _ _ _ hv hvs hdis => by
      have hc : (mem.children a)[i]? = some c := by
        rw [← List.head?_drop, hdrop, List.head?_cons]
      have hdrop' : (mem.children a).drop (i + 1) = elements := by
        rw [← List.tail_drop, hdrop, List.tail_cons]
      obtain ⟨es, hspans, heval⟩ := Holds.spans hv
      obtain ⟨fs, hspans', heval'⟩ := HoldsValues.spans hdrop' hnode hvs
      refine ⟨_, .child hc hspans hspans' hdis, fun visit d => ?_⟩
      rw [List.cons_append, Walk.visitAll_cons, Walk.visitAll_append, heval, heval', walkValues]
      simp only [JsonMemory.visit, hnode]

theorem HoldsEntries.spans {a i : Nat} {entries : List JsonEntry} {as : List Nat}
    {es : List (Bytes × JsonValue)} {node : JsonNode}
    (hdrop : (mem.children a).drop i = entries.map JsonEntry.value)
    (hnode : (mem a).payload.node = node) : HoldsEntries mem a entries es as →
    ∃ fs, Walk.SpansFrom mem.children mem.parent a i as fs ∧
      ∀ {σ : Type} (visit : JsonNode → Nat → σ → σ) (d : σ),
        Walk.visitAll (mem.visit visit) fs d = walkEntries visit node i es d
  | .nil => by
      refine ⟨_, .last (List.getElem?_eq_none (List.drop_eq_nil_iff.mp hdrop)), fun visit d => ?_⟩
      simp only [Walk.visitAll_cons, Walk.visitAll_nil, JsonMemory.visit, hnode, walkEntries]
  | @HoldsEntries.cons _ _ entry entries _ _ _ _ hv hes hdis => by
      have hc : (mem.children a)[i]? = some entry.value := by
        rw [← List.head?_drop, hdrop, List.map_cons, List.head?_cons]
      have hdrop' : (mem.children a).drop (i + 1) = entries.map JsonEntry.value := by
        rw [← List.tail_drop, hdrop, List.map_cons, List.tail_cons]
      obtain ⟨gs, hspans, heval⟩ := Holds.spans hv
      obtain ⟨fs, hspans', heval'⟩ := HoldsEntries.spans hdrop' hnode hes
      refine ⟨_, .child hc hspans hspans' hdis, fun visit d => ?_⟩
      rw [List.cons_append, Walk.visitAll_cons, Walk.visitAll_append, heval, heval', walkEntries,
        walkEntry]
      simp only [JsonMemory.visit, hnode]

end

end Spans

/-! ## A memory -/

/-- The object `{"a": [1, "b"]}` in memory. -/
def sampleMemory : JsonMemory
  | 0 => ⟨none, true, 0, .object (some 10) [⟨ascii "a", 11, 1⟩]⟩
  | 1 => ⟨some 0, true, 0, .array (some 12) [2, 3]⟩
  | 2 => ⟨some 1, true, 0, .integer 1⟩
  | 3 => ⟨some 1, true, 0, .string 13 (ascii "b")⟩
  | _ => ⟨none, true, 0, .null⟩

theorem holds_sampleMemory : Holds sampleMemory none 0
    (.object [(ascii "a", .array [.integer 1, .string (ascii "b")])]) [0, 1, 2, 3] := by
  have hone : Holds sampleMemory (some 1) 2 (.integer 1) [2] := @Holds.integer sampleMemory 2 1 rfl
  have hb : Holds sampleMemory (some 1) 3 (.string (ascii "b")) [3] :=
    @Holds.string sampleMemory 3 13 (ascii "b") rfl
  have hvalues := HoldsValues.cons hone (.cons hb .nil (by simp)) (by simp)
  have harray : Holds sampleMemory (some 0) 1 (.array [.integer 1, .string (ascii "b")])
    [1, 2, 3] := @Holds.array sampleMemory 1 _ _ _ _ rfl hvalues (by simp)
  have hentry : HoldsEntries sampleMemory 0 [⟨ascii "a", 11, 1⟩] _ _ :=
    .cons harray .nil (by simp)
  exact @Holds.object sampleMemory 0 _ _ _ _ rfl hentry (by simp)

end Pyoneer.Shared
