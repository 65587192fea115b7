/-
Pyoneer.Shared.JsonFirstPass — the first pass of `json_parse_ex` measures
the value that the text denotes.

`lift` is the memory of the first pass as a function of the state of
`Parser`: the layouts of what is complete, below the cells of what is
open. A byte takes the one to the other (`feed_lift`), so the first pass
accepts what `jsonParse` accepts and ends with the layout of the value
(`run_firstPass`).
-/
import Pyoneer.Shared.JsonPasses
import Mathlib.Data.Nat.Digits.Defs

namespace Pyoneer.Shared

/-! ## Layouts -/

mutual

/-- The number of cells of a value. -/
def cellCount : JsonValue → Nat
  | .object es => cellCountEntries es + 1
  | .array vs => cellCountValues vs + 1
  | .integer _ | .double _ | .string _ | .boolean _ | .null => 1

def cellCountEntry : Bytes × JsonValue → Nat
  | (_, v) => cellCount v

def cellCountEntries : List (Bytes × JsonValue) → Nat
  | [] => 0
  | e :: es => cellCountEntry e + cellCountEntries es

def cellCountValues : List JsonValue → Nat
  | [] => 0
  | v :: vs => cellCount v + cellCountValues vs

end

/-- The bytes that the names of entries take. -/
def namesSize (es : List (Bytes × JsonValue)) : Nat := (es.map fun e => e.1.length + 1).sum

mutual

/-- The cells of a value whose root is the `k`th, after the first
pass. -/
def layout (parent : Option Nat) (k : Nat) : JsonValue → List MeasuredCell
  | .object es => ⟨parent, .object es.length (namesSize es)⟩ :: layoutEntries k (k + 1) es
  | .array vs => ⟨parent, .array vs.length⟩ :: layoutValues k (k + 1) vs
  | .integer n => [⟨parent, .integer n⟩]
  | .double text => [⟨parent, .double text⟩]
  | .string s => [⟨parent, .string s.length⟩]
  | .boolean b => [⟨parent, .boolean b⟩]
  | .null => [⟨parent, .null⟩]

def layoutEntry (parent k : Nat) : Bytes × JsonValue → List MeasuredCell
  | (_, v) => layout (some parent) k v

def layoutEntries (parent k : Nat) : List (Bytes × JsonValue) → List MeasuredCell
  | [] => []
  | e :: es => layoutEntry parent k e ++ layoutEntries parent (k + cellCountEntry e) es

def layoutValues (parent k : Nat) : List JsonValue → List MeasuredCell
  | [] => []
  | v :: vs => layout (some parent) k v ++ layoutValues parent (k + cellCount v) vs

end

theorem layoutEntries_append (parent k : Nat) (es fs : List (Bytes × JsonValue)) :
    layoutEntries parent k (es ++ fs) =
      layoutEntries parent k es ++ layoutEntries parent (k + cellCountEntries es) fs := by
  induction es generalizing k with
  | nil => rfl
  | cons e es ih =>
    rw [List.cons_append, layoutEntries, ih, layoutEntries, List.append_assoc, cellCountEntries,
      Nat.add_assoc]

theorem layoutValues_append (parent k : Nat) (vs ws : List JsonValue) :
    layoutValues parent k (vs ++ ws) =
      layoutValues parent k vs ++ layoutValues parent (k + cellCountValues vs) ws := by
  induction vs generalizing k with
  | nil => rfl
  | cons v vs ih =>
    rw [List.cons_append, layoutValues, ih, layoutValues, List.append_assoc, cellCountValues,
      Nat.add_assoc]

mutual

theorem length_layout (parent : Option Nat) (k : Nat) :
    ∀ v : JsonValue, (layout parent k v).length = cellCount v
  | .object es => by
      rw [layout, List.length_cons, length_layoutEntries, cellCount]
  | .array vs => by
      rw [layout, List.length_cons, length_layoutValues, cellCount]
  | .integer _ => rfl
  | .double _ => rfl
  | .string _ => rfl
  | .boolean _ => rfl
  | .null => rfl

theorem length_layoutEntry (parent k : Nat) :
    ∀ e : Bytes × JsonValue, (layoutEntry parent k e).length = cellCountEntry e
  | (_, v) => length_layout (some parent) k v

theorem length_layoutEntries (parent k : Nat) :
    ∀ es : List (Bytes × JsonValue), (layoutEntries parent k es).length = cellCountEntries es
  | [] => rfl
  | e :: es => by
      rw [layoutEntries, List.length_append, length_layoutEntry, length_layoutEntries,
        cellCountEntries]

theorem length_layoutValues (parent k : Nat) :
    ∀ vs : List JsonValue, (layoutValues parent k vs).length = cellCountValues vs
  | [] => rfl
  | v :: vs => by
      rw [layoutValues, List.length_append, length_layout, length_layoutValues, cellCountValues]

end

/-! ## The memory of a state -/

namespace Parser

/-- What is counted in an open container. The name of an entry counts
from its end on. -/
def framePayload (named : Bool) : Frame → Measured
  | .array vs => .array vs.length
  | .object es name => .object es.length (namesSize es + if named then name.length + 1 else 0)

/-- The layouts of the children that are complete. -/
def frameCells (k : Nat) : Frame → List MeasuredCell
  | .array vs => layoutValues k (k + 1) vs
  | .object es _ => layoutEntries k (k + 1) es

mutual

/-- The cells of the open containers, and `top` between two values. -/
def stackCells : List Frame → Bool → List MeasuredCell
  | [], _ => []
  | f :: rest, named =>
    stackCells rest true ++
      ⟨stackTop rest, framePayload named f⟩ :: frameCells (stackCells rest true).length f

def stackTop : List Frame → Option Nat
  | [] => none
  | _ :: rest => some (stackCells rest true).length

end

/-- The memory with the open containers. -/
def between (st : List Frame) (named : Bool) : FirstMem := ⟨stackCells st named, stackTop st⟩

/-- The memory with a value whose layout is complete. -/
def complete (st : List Frame) (cells : List MeasuredCell) : FirstMem :=
  ⟨stackCells st true ++ cells, some (stackCells st true).length⟩

/-- The memory, in a string: the string is a name, or is a cell. -/
def within (st : List Frame) (name : Bool) : FirstMem :=
  if name then between st false else complete st [⟨stackTop st, .string 0⟩]

/-- The memory of the first pass. -/
def measured (st : List Frame) : ParsePc → FirstMem
  | .seek _ _ | .literal _ _ => between st true
  | .object _ => between st false
  | .string name _ | .escaped name _ | .hex name _ _ _ _ | .pair name _ _ _ => within st name
  | .number _ => complete st [⟨stackTop st, .integer 0⟩]
  | .done v => ⟨layout none 0 v, some 0⟩

/-- Where the first pass is. -/
def control : ParsePc → PassPc
  | .seek c k => .seek c k
  | .object c => .object c
  | .string _ acc => .string acc.length
  | .escaped _ acc => .escaped acc.length
  | .hex _ acc u k first => .hex acc.length u k first
  | .pair _ acc u slash => .pair acc.length u slash
  | .literal rest v => .literal rest v
  | .number n => .number n
  | .done _ => .done

/-- The state of the first pass. -/
def lift (p : Parser) : Pass FirstMem := ⟨measured p.stack p.pc, control p.pc⟩

/-- A name, or the place for one. -/
def naming : ParsePc → Bool
  | .object _ => true
  | .string name _ | .escaped name _ | .hex name _ _ _ _ | .pair name _ _ _ => name
  | _ => false

def isLiteral : JsonValue → Bool
  | .boolean _ | .null => true
  | _ => false

/-- Names are in objects, and what is spelled is a literal. -/
structure Sane (p : Parser) : Prop where
  named : naming p.pc = true → ∃ es name rest, p.stack = .object es name :: rest
  spelled : ∀ rest v, p.pc = .literal rest v → isLiteral v = true

/-! ## The operations -/

theorem modify_append_cons {α : Type} (l r : List α) (a : α) (f : α → α) :
    (l ++ a :: r).modify l.length f = l ++ f a :: r := by
  induction l with
  | nil => rfl
  | cons b l ih => rw [List.cons_append, List.length_cons, List.modify_succ_cons, ih]; rfl

theorem getElem_append_cons {α : Type} (l r : List α) (a : α) :
    (l ++ a :: r)[l.length]? = some a := by
  rw [List.getElem?_append_right le_rfl, Nat.sub_self, List.getElem?_cons_zero]

theorem update_top (l r : List MeasuredCell) (c : MeasuredCell) (g : Measured → Measured) :
    FirstMem.update ⟨l ++ c :: r, some l.length⟩ g =
      ⟨l ++ { c with payload := g c.payload } :: r, some l.length⟩ := by
  simp only [FirstMem.update, Option.elim_some, modify_append_cons]

theorem cell_top (l r : List MeasuredCell) (c : MeasuredCell) :
    FirstMem.cell ⟨l ++ c :: r, some l.length⟩ = some c :=
  getElem_append_cons ..

/-- `flag_next` at the root. -/
theorem next_root {mem : FirstMem} (h : mem.parent = none) :
    Pass.next firstPass mem = some ⟨mem, .done⟩ := by
  have htype : firstPass.parentType mem = none := by
    simp only [firstPass, h]
    rfl
  simp only [Pass.next, htype]

/-- `flag_next` below the root: the parent counts one more. -/
theorem next_child {l r : List MeasuredCell} {c : MeasuredCell} {top : Option Nat}
    (h : FirstMem.parent ⟨l ++ c :: r, top⟩ = some l.length) :
    Pass.next firstPass ⟨l ++ c :: r, top⟩ =
      some ⟨⟨l ++ { c with payload := FirstMem.count c.payload } :: r, some l.length⟩,
        if c.payload.type = .array then .seek true false else .object true⟩ := by
  have htype : firstPass.parentType ⟨l ++ c :: r, top⟩ = some c.payload.type := by
    simp only [firstPass, h, Option.bind_some, getElem_append_cons]
    rfl
  have hattach : firstPass.attach ⟨l ++ c :: r, top⟩ =
      some ⟨l ++ { c with payload := FirstMem.count c.payload } :: r, some l.length⟩ := by
    simp only [firstPass, h, update_top]
  simp only [Pass.next, htype, hattach]
  cases c.payload.type <;> rfl

theorem stackCells_cons (f : Frame) (rest : List Frame) (named : Bool) :
    stackCells (f :: rest) named = stackCells rest true ++
      ⟨stackTop rest, framePayload named f⟩ :: frameCells (stackCells rest true).length f := by
  rw [stackCells]

/-- A layout begins with the cell of the root. -/
theorem layout_cons (parent : Option Nat) (k : Nat) (v : JsonValue) :
    ∃ payload cells, layout parent k v = ⟨parent, payload⟩ :: cells := by
  cases v <;> exact ⟨_, _, rfl⟩

theorem complete_parent (st : List Frame) (v : JsonValue) :
    (complete st (layout (stackTop st) (stackCells st true).length v)).parent = stackTop st := by
  obtain ⟨payload, cells, hlayout⟩ := layout_cons (stackTop st) (stackCells st true).length v
  rw [hlayout, complete, FirstMem.parent, cell_top]
  rfl

theorem complete_parentType (st : List Frame) (v : JsonValue) :
    firstPass.parentType (complete st (layout (stackTop st) (stackCells st true).length v)) =
      st.head?.map fun f => (framePayload true f).type := by
  have hparent := complete_parent st v
  simp only [firstPass, hparent]
  cases st with
  | nil => rfl
  | cons f rest =>
    simp only [stackTop, Option.bind_some, complete, stackCells_cons, List.append_assoc,
      List.cons_append, getElem_append_cons, Option.map_some, List.head?_cons]

/-- `flag_next`, where a value is complete. -/
theorem next_complete (st : List Frame) (v : JsonValue) :
    Pass.next firstPass (complete st (layout (stackTop st) (stackCells st true).length v)) =
      some (lift (next v st)) := by
  have hparent := complete_parent st v
  cases st with
  | nil => exact next_root hparent
  | cons f rest =>
    rw [complete, stackCells_cons, List.append_assoc, List.cons_append] at hparent ⊢
    rw [next_child hparent]
    cases f with
    | array vs =>
      simp [next, lift, measured, control, between, stackCells, stackTop, framePayload, frameCells,
        FirstMem.count, Measured.type, layoutValues_append, layoutValues, length_layoutValues,
        Nat.add_assoc, Nat.add_comm 1]
    | object es name =>
      simp [next, lift, measured, control, between, stackCells, stackTop, framePayload, frameCells,
        FirstMem.count, Measured.type, layoutEntries_append, layoutEntries, layoutEntry,
        length_layoutEntries, namesSize, Nat.add_assoc, Nat.add_comm 1]

theorem newValue_between (st : List Frame) (v : JsonValue) :
    firstPass.newValue v (between st true) = some (complete st [⟨stackTop st, .new v⟩]) := rfl

theorem complete_type (st : List Frame) (c : MeasuredCell) (cells : List MeasuredCell) :
    firstPass.topType (complete st (c :: cells)) = some c.payload.type := by
  simp only [firstPass, complete, cell_top]
  rfl

theorem complete_update (st : List Frame) (c : MeasuredCell) (cells : List MeasuredCell)
    (g : Measured → Measured) :
    (complete st (c :: cells)).update g =
      complete st ({ c with payload := g c.payload } :: cells) :=
  update_top ..

/-- The type of the innermost container. -/
theorem between_type (f : Frame) (rest : List Frame) (named : Bool) :
    firstPass.topType (between (f :: rest) named) = some (framePayload named f).type := by
  simp only [firstPass, between, stackTop, stackCells_cons, cell_top]
  rfl

/-- A scalar that is complete. -/
theorem complete_new {v : JsonValue} (st : List Frame)
    (h : layout (stackTop st) (stackCells st true).length v = [⟨stackTop st, .new v⟩]) :
    Pass.next firstPass (complete st [⟨stackTop st, .new v⟩]) = some (lift (next v st)) := by
  rw [← h]
  exact next_complete st v

theorem closeString_lift {st : List Frame} {name : Bool} {acc : Bytes}
    (h : Sane ⟨st, .string name acc⟩) :
    Pass.closeString firstPass (within st name) acc.length =
      (closeString st name acc).map lift := by
  cases name with
  | false =>
    have hend : firstPass.endString acc.length (within st false) =
        some (complete st (layout (stackTop st) (stackCells st true).length (.string acc))) := by
      simp only [firstPass, within, Bool.false_eq_true, if_false, complete_update]
      rfl
    have htype : firstPass.topType (within st false) = some .string := complete_type ..
    simp only [Pass.closeString, htype, hend, Option.bind_some, closeString, Bool.false_eq_true,
      if_false, Option.map_some]
    exact next_complete st (.string acc)
  | true =>
    obtain ⟨es, old, rest, rfl⟩ := h.named rfl
    have htype : firstPass.topType (within (.object es old :: rest) true) = some .object :=
      between_type ..
    have hend : firstPass.endName acc.length (within (.object es old :: rest) true) =
        some (between (.object es acc :: rest) true) := by
      simp only [firstPass, within, if_true, between, stackTop, stackCells_cons, update_top]
      simp [framePayload, FirstMem.countName, frameCells]
    simp only [Pass.closeString, htype, hend, closeString, if_true, Option.map_some]
    rfl

theorem closeArray_lift (st : List Frame) :
    (if firstPass.topType (between st true) = some .array then Pass.next firstPass (between st true)
      else none) = (closeArray st).map lift := by
  cases st with
  | nil => rfl
  | cons f rest =>
    rw [between_type]
    cases f with
    | array vs => exact next_complete rest (.array vs)
    | object es name => rfl

theorem closeObject_lift (es : List (Bytes × JsonValue)) (name : Bytes) (rest : List Frame) :
    Pass.next firstPass (between (.object es name :: rest) false) =
      (closeObject (.object es name :: rest)).map lift :=
  next_complete rest (.object es)

theorem complete_openObject (st : List Frame) :
    complete st [⟨stackTop st, .object 0 0⟩] = between (.object [] [] :: st) false := by
  simp [complete, between, stackCells, stackTop, framePayload, frameCells, namesSize, layoutEntries]

theorem complete_openArray (st : List Frame) :
    complete st [⟨stackTop st, .array 0⟩] = between (.array [] :: st) true := by
  simp [complete, between, stackCells, stackTop, framePayload, frameCells, layoutValues]

theorem openValue_lift (st : List Frame) (b : UInt8) :
    Pass.openValue firstPass (between st true) b = (openValue st b).map lift := by
  have hobject : firstPass.newValue (.object []) (between st true) =
      some (between (.object [] [] :: st) false) := by
    rw [newValue_between, ← complete_openObject]
    rfl
  have harray : firstPass.newValue (.array []) (between st true) =
      some (between (.array [] :: st) true) := by
    rw [newValue_between, ← complete_openArray]
    rfl
  have hnew : firstPass.newValue (.integer 0) (between st true) =
      some (complete st [⟨stackTop st, .integer 0⟩]) := rfl
  have hfirst : firstPass.first = true := rfl
  unfold Pass.openValue openValue
  rw [hobject, harray, hnew, hfirst]
  simp only [Option.bind_some, if_true]
  split_ifs with h123 h91 h34 h116 h102 h110 hnumber h45 hdigit h45 hdigit
  · rfl
  · rfl
  · rfl
  · rfl
  · rfl
  · rfl
  · rfl
  · cases (Number.start false []).step b <;> rfl
  · exact absurd (hnumber.resolve_left h45) hdigit
  · exact absurd (Or.inl h45) hnumber
  · exact absurd (Or.inr hdigit) hnumber
  · rfl

/-! ## The loop -/

theorem addBytes_lift (st : List Frame) (name : Bool) (acc bytes : Bytes) :
    Pass.addBytes firstPass (within st name) acc.length bytes =
      some (lift ⟨st, .string name (acc ++ bytes)⟩) := by
  simp only [Pass.addBytes, firstPass, Option.map_some, lift, measured, control,
    List.length_append]

theorem feedSeek_lift (st : List Frame) (c k : Bool) (b : UInt8) :
    Pass.feedSeek firstPass (between st true) c k b = (feedSeek st c k b).map lift := by
  unfold Pass.feedSeek feedSeek
  by_cases hws : isWhitespace b = true
  · rw [if_pos hws, if_pos hws]
    rfl
  · rw [if_neg hws, if_neg hws]
    by_cases hclose : b = 93
    · rw [if_pos hclose, if_pos hclose]
      exact closeArray_lift st
    · rw [if_neg hclose, if_neg hclose]
      cases c with
      | true => by_cases h44 : b = 44 <;> simp [h44, lift, measured, control]
      | false =>
        cases k with
        | true => by_cases h58 : b = 58 <;> simp [h58, lift, measured, control]
        | false => exact openValue_lift st b

theorem feedObject_lift (es : List (Bytes × JsonValue)) (name : Bytes) (rest : List Frame)
    (c : Bool) (b : UInt8) :
    Pass.feedObject firstPass (between (.object es name :: rest) false) c b =
      (feedObject (.object es name :: rest) c b).map lift := by
  unfold Pass.feedObject feedObject
  split_ifs with hws hquote hc hclose hcomma
  · rfl
  · rfl
  · rfl
  · exact closeObject_lift es name rest
  · rfl
  · rfl

theorem feedHex_lift (st : List Frame) (name : Bool) (acc : Bytes) (u k : Nat)
    (first : Option Nat) (b : UInt8) :
    Pass.feedHex firstPass (within st name) acc.length u k first b =
      (feedHex st name acc u k first b).map lift := by
  unfold Pass.feedHex feedHex
  cases hexValue b with
  | none => rfl
  | some d =>
    cases k with
    | succ k => rfl
    | zero =>
      cases first with
      | some v => exact addBytes_lift ..
      | none =>
        dsimp only
        split_ifs
        · rfl
        · exact addBytes_lift ..

theorem feedPlain_lift {st : List Frame} {pc : ParsePc} (h : Sane ⟨st, pc⟩) (b : UInt8) :
    Pass.feedPlain firstPass (measured st pc) (control pc) b = (feedPlain st pc b).map lift := by
  cases pc with
  | seek c k => exact feedSeek_lift st c k b
  | object c =>
    obtain ⟨es, name, rest, rfl⟩ := h.named rfl
    exact feedObject_lift es name rest c b
  | string name acc =>
    simp only [measured, control, Pass.feedPlain, feedPlain]
    split_ifs
    · rfl
    · exact closeString_lift h
    · exact addBytes_lift ..
  | escaped name acc =>
    simp only [measured, control, Pass.feedPlain, feedPlain]
    split_ifs
    · rfl
    · exact addBytes_lift ..
  | hex name acc u k first => exact feedHex_lift st name acc u k first b
  | pair name acc u slash =>
    cases slash <;> simp only [measured, control, Pass.feedPlain, feedPlain] <;> split_ifs <;> rfl
  | literal rest v =>
    cases rest with
    | nil => rfl
    | cons c rest =>
      cases rest with
      | nil =>
        have hspelled := h.spelled [c] v rfl
        have hnew : layout (stackTop st) (stackCells st true).length v =
            [⟨stackTop st, .new v⟩] := by
          cases v <;> first | rfl | cases hspelled
        simp only [measured, control, Pass.feedPlain, feedPlain, newValue_between,
          Option.bind_some, complete_new st hnew]
        split_ifs <;> rfl
      | cons d rest =>
        simp only [measured, control, Pass.feedPlain, feedPlain]
        split_ifs <;> rfl
  | number n => rfl
  | done v =>
    simp only [measured, control, Pass.feedPlain, feedPlain]
    split_ifs <;> rfl

/-! The states of a run are sane. -/

theorem Sane.of_naming {p : Parser} (hname : naming p.pc = false)
    (hspell : ∀ rest v, p.pc ≠ .literal rest v) : Sane p :=
  ⟨fun h => absurd (hname.symm.trans h) Bool.false_ne_true,
    fun rest v h => absurd h (hspell rest v)⟩

theorem Sane.same {st : List Frame} {pc pc' : ParsePc} (h : Sane ⟨st, pc⟩)
    (hname : naming pc' = naming pc) (hspell : ∀ rest v, pc' ≠ .literal rest v) :
    Sane ⟨st, pc'⟩ :=
  ⟨fun hn => h.named (hname ▸ hn), fun rest v hv => absurd hv (hspell rest v)⟩

theorem sane_next (v : JsonValue) (st : List Frame) : Sane (next v st) := by
  cases st with
  | nil => exact .of_naming rfl (by simp [next])
  | cons f rest =>
    cases f with
    | array vs => exact .of_naming rfl (by simp [next])
    | object es name => exact ⟨fun _ => ⟨_, _, _, rfl⟩, by simp [next]⟩

theorem sane_openValue {st : List Frame} {b : UInt8} {p : Parser}
    (h : openValue st b = some p) : Sane p := by
  unfold openValue at h
  split_ifs at h
  · cases h
    exact ⟨fun _ => ⟨_, _, _, rfl⟩, by simp⟩
  · cases h
    exact .of_naming rfl (by simp)
  · cases h
    exact .of_naming rfl (by simp)
  · cases h
    exact ⟨by simp [naming], by simp [isLiteral]⟩
  · cases h
    exact ⟨by simp [naming], by simp [isLiteral]⟩
  · cases h
    exact ⟨by simp [naming], by simp [isLiteral]⟩
  · cases h
    exact .of_naming rfl (by simp)
  · split at h
    · cases h
      exact .of_naming rfl (by simp)
    · cases h

theorem sane_closeString {st : List Frame} {name : Bool} {acc : Bytes} {p : Parser}
    (h : closeString st name acc = some p) : Sane p := by
  unfold closeString at h
  split_ifs at h
  · split at h
    · cases h
      exact .of_naming rfl (by simp)
    · cases h
  · cases h
    exact sane_next ..

theorem sane_closeArray {st : List Frame} {p : Parser} (h : closeArray st = some p) : Sane p := by
  unfold closeArray at h
  split at h
  · cases h
    exact sane_next ..
  · cases h

theorem sane_closeObject {st : List Frame} {p : Parser} (h : closeObject st = some p) :
    Sane p := by
  unfold closeObject at h
  split at h
  · cases h
    exact sane_next ..
  · cases h

theorem sane_feedSeek {st : List Frame} {c k : Bool} {b : UInt8} {p : Parser}
    (h : feedSeek st c k b = some p) : Sane p := by
  unfold feedSeek at h
  split_ifs at h
  · cases h
    exact .of_naming rfl (by simp)
  · exact sane_closeArray h
  · cases h
    exact .of_naming rfl (by simp)
  · cases h
    exact .of_naming rfl (by simp)
  · exact sane_openValue h

theorem Sane.feedObject {st : List Frame} {c : Bool} {b : UInt8} {p : Parser}
    (h : Sane ⟨st, .object c⟩) (hfeed : feedObject st c b = some p) : Sane p := by
  unfold Parser.feedObject at hfeed
  split_ifs at hfeed
  · cases hfeed
    exact h
  · cases hfeed
    exact h.same rfl (by simp)
  · exact sane_closeObject hfeed
  · cases hfeed
    exact h.same rfl (by simp)

theorem Sane.feedHex {st : List Frame} {name : Bool} {acc : Bytes} {u k : Nat}
    {first : Option Nat} {b : UInt8} {p : Parser} (h : Sane ⟨st, .hex name acc u k first⟩)
    (hfeed : feedHex st name acc u k first b = some p) : Sane p := by
  unfold Parser.feedHex at hfeed
  split at hfeed
  · cases hfeed
  · cases hfeed
    exact h.same rfl (by simp)
  · dsimp only at hfeed
    split at hfeed
    · cases hfeed
      exact h.same rfl (by simp)
    · split_ifs at hfeed
      · cases hfeed
        exact h.same rfl (by simp)
      · cases hfeed
        exact h.same rfl (by simp)

theorem Sane.feedPlain {st : List Frame} {pc : ParsePc} {b : UInt8} {p : Parser}
    (h : Sane ⟨st, pc⟩) (hfeed : feedPlain st pc b = some p) : Sane p := by
  cases pc with
  | seek c k => exact sane_feedSeek hfeed
  | object c => exact h.feedObject hfeed
  | string name acc =>
    simp only [Parser.feedPlain] at hfeed
    split_ifs at hfeed
    · cases hfeed
      exact h.same rfl (by simp)
    · exact sane_closeString hfeed
    · cases hfeed
      exact h.same rfl (by simp)
  | escaped name acc =>
    simp only [Parser.feedPlain] at hfeed
    split_ifs at hfeed
    · cases hfeed
      exact h.same rfl (by simp)
    · cases hfeed
      exact h.same rfl (by simp)
  | hex name acc u k first => exact h.feedHex hfeed
  | pair name acc u slash =>
    cases slash <;> simp only [Parser.feedPlain] at hfeed <;> split_ifs at hfeed <;> cases hfeed <;>
      exact h.same rfl (by simp)
  | literal rest v =>
    cases rest with
    | nil => cases hfeed
    | cons c rest =>
      cases rest with
      | nil =>
        simp only [Parser.feedPlain] at hfeed
        split_ifs at hfeed
        cases hfeed
        exact sane_next ..
      | cons d rest =>
        simp only [Parser.feedPlain] at hfeed
        split_ifs at hfeed
        cases hfeed
        refine ⟨by simp [naming], fun rest' v' hv => ?_⟩
        cases hv
        exact h.spelled _ v rfl
  | number n => cases hfeed
  | done v =>
    simp only [Parser.feedPlain] at hfeed
    split_ifs at hfeed
    cases hfeed
    exact h

/-- What a number ends as is one cell. -/
theorem layout_ends {n : Number} {b : UInt8} {v : JsonValue} (h : n.step b = .ends v)
    (parent : Option Nat) (k : Nat) : layout parent k v = [⟨parent, .new v⟩] := by
  have hclose : v = n.close := by
    unfold Number.step Number.digit Number.finish at h
    split_ifs at h <;> cases h <;> rfl
  subst hclose
  unfold Number.close
  split_ifs <;> rfl

theorem setNumber_lift {st : List Frame} {n : Number} {b : UInt8} {v : JsonValue}
    (h : n.step b = .ends v) :
    firstPass.setNumber v (measured st (.number n)) =
      complete st (layout (stackTop st) (stackCells st true).length v) := by
  rw [layout_ends h]
  simp only [firstPass, measured, complete_update]

theorem feed_lift {p : Parser} (h : Sane p) (b : UInt8) :
    Pass.feed firstPass (lift p) b = (p.feed b).map lift := by
  obtain ⟨st, pc⟩ := p
  cases pc with
  | number n =>
    simp only [Pass.feed, lift, control, feed]
    cases hs : n.step b with
    | more n' => rfl
    | fails => rfl
    | ends v =>
      dsimp only
      rw [setNumber_lift hs, next_complete]
      exact feedPlain_lift (sane_next v st) b
  | seek c k => exact feedPlain_lift h b
  | object c => exact feedPlain_lift h b
  | string name acc => exact feedPlain_lift h b
  | escaped name acc => exact feedPlain_lift h b
  | hex name acc u k first => exact feedPlain_lift h b
  | pair name acc u slash => exact feedPlain_lift h b
  | literal rest v => exact feedPlain_lift h b
  | done v => exact feedPlain_lift h b

theorem Sane.feed {p p' : Parser} {b : UInt8} (h : Sane p) (hfeed : p.feed b = some p') :
    Sane p' := by
  obtain ⟨st, pc⟩ := p
  cases pc with
  | number n =>
    simp only [Parser.feed] at hfeed
    split at hfeed
    · cases hfeed
      exact .of_naming rfl (by simp)
    · exact (sane_next ..).feedPlain hfeed
    · cases hfeed
  | seek c k => exact h.feedPlain hfeed
  | object c => exact h.feedPlain hfeed
  | string name acc => exact h.feedPlain hfeed
  | escaped name acc => exact h.feedPlain hfeed
  | hex name acc u k first => exact h.feedPlain hfeed
  | pair name acc u slash => exact h.feedPlain hfeed
  | literal rest v => exact h.feedPlain hfeed
  | done v => exact h.feedPlain hfeed

theorem atEnd_lift (p : Parser) :
    Pass.atEnd firstPass (lift p) = p.atEnd.map fun v => ⟨layout none 0 v, some 0⟩ := by
  obtain ⟨st, pc⟩ := p
  cases pc with
  | number n =>
    simp only [Pass.atEnd, lift, control]
    cases hs : n.step 0 with
    | more n' => cases st <;> simp [atEnd, hs]
    | fails => cases st <;> simp [atEnd, hs]
    | ends v =>
      dsimp only
      rw [setNumber_lift hs, Pass.endRoot, complete_parentType]
      cases st with
      | nil => simp [atEnd, hs, complete, stackCells, stackTop]
      | cons f rest => rfl
  | done v => rfl
  | _ => rfl

/-- The first pass is the loop of `Parser`, and leaves the layout of the
value. -/
theorem run_lift {p : Parser} (h : Sane p) (text : Bytes) :
    Pass.run firstPass (lift p) text = (p.run text).map fun v => ⟨layout none 0 v, some 0⟩ := by
  induction text generalizing p with
  | nil => exact atEnd_lift p
  | cons b text ih =>
    rw [Pass.run, run, feed_lift h]
    by_cases hb : b = 0
    · rw [if_pos hb, if_pos hb]
      exact atEnd_lift p
    · rw [if_neg hb, if_neg hb]
      cases hfeed : p.feed b with
      | none => rfl
      | some p' => exact ih (h.feed hfeed)

end Parser

/-- The first pass of `json_parse_ex` accepts what `jsonParse` does, and
leaves the layout of its value. -/
theorem run_firstPass (text : Bytes) :
    Pass.run firstPass ⟨⟨[], none⟩, .seek false false⟩ (skipBom text) =
      (jsonParse text).map fun v => ⟨layout none 0 v, some 0⟩ :=
  Parser.run_lift (p := ⟨[], .seek false false⟩) (.of_naming rfl (by simp)) (skipBom text)

end Pyoneer.Shared
