/-
Pyoneer.Shared.JsonSerializeInt — `json_measure_ex` and
`json_serialize_ex` with the integers of C.

`JsonSerialize` counts without bounds. Here `indent_size` and `indent`
are the `int`s of the source, which may be negative and may overflow,
the four counters of `json_measure_ex` are `size_t`s, and `-integer` has
no value for the smallest `json_int_t`. What C leaves undefined is
`none`.

`Fits` is what the loops need of the options and the value in order that
nothing of that happens. `WalkRel` is a rule for two walks over one value,
and `serialized_fits_measured` is what it gives: the loops of the source are
those of `JsonSerialize`, and the buffer holds what is written.
-/
import Pyoneer.Shared.JsonSerialize

namespace Pyoneer.Shared

open Lib

/-! ## Two walks -/

mutual

/-- How deep containers that are not empty are nested. -/
def nesting : JsonValue → Nat
  | .object [] | .array [] => 0
  | .object (e :: es) => max (nestingEntry e) (nestingEntries es) + 1
  | .array (v :: vs) => max (nesting v) (nestingValues vs) + 1
  | .integer _ | .double _ | .string _ | .boolean _ | .null => 0

def nestingEntry : Bytes × JsonValue → Nat
  | (_, v) => nesting v

def nestingEntries : List (Bytes × JsonValue) → Nat
  | [] => 0
  | e :: es => max (nestingEntry e) (nestingEntries es)

def nestingValues : List JsonValue → Nat
  | [] => 0
  | v :: vs => max (nesting v) (nestingValues vs)

end

mutual

/-- `P` holds of the integers in the value. -/
def Integers (P : Int → Prop) : JsonValue → Prop
  | .object es => IntegersEntries P es
  | .array vs => IntegersValues P vs
  | .integer n => P n
  | .double _ | .string _ | .boolean _ | .null => True

def IntegersEntry (P : Int → Prop) : Bytes × JsonValue → Prop
  | (_, v) => Integers P v

def IntegersEntries (P : Int → Prop) : List (Bytes × JsonValue) → Prop
  | [] => True
  | e :: es => IntegersEntry P e ∧ IntegersEntries P es

def IntegersValues (P : Int → Prop) : List JsonValue → Prop
  | [] => True
  | v :: vs => Integers P v ∧ IntegersValues P vs

end

/-- The number of children, in a container. -/
def JsonNode.length : JsonNode → Option Nat
  | .object names => some names.length
  | .array length => some length
  | _ => none

/-- A container is no integer. -/
theorem JsonNode.integer_of_length {node : JsonNode} {n : Nat} {P : Int → Prop}
    (h : node.length = some n) : ∀ m, node = .integer m → P m := by
  rintro m rfl
  cases h

section Walks

variable {σ τ : Type}

/-- The visits keep `R k` of the data of two walks, where `k` containers
are open, up to `depth` of them. -/
structure WalkRel (visit : JsonNode → Nat → σ → σ) (visit' : JsonNode → Nat → τ → τ)
    (P : Int → Prop) (depth : Nat) (R : Nat → σ → τ → Prop) : Prop where
  leaf : ∀ {node k d d'}, node.length = none → (∀ n, node = .integer n → P n) → R k d d' →
    R k (visit node 0 d) (visit' node 0 d')
  empty : ∀ {node k d d'}, node.length = some 0 → R k d d' →
    R k (visit node 0 d) (visit' node 0 d')
  first : ∀ {node n k d d'}, node.length = some n → 0 < n → k < depth → R k d d' →
    R (k + 1) (visit node 0 d) (visit' node 0 d')
  later : ∀ {node n i k d d'}, node.length = some n → 0 < i → i < n → R (k + 1) d d' →
    R (k + 1) (visit node i d) (visit' node i d')
  last : ∀ {node n k d d'}, node.length = some n → 0 < n → R (k + 1) d d' →
    R k (visit node n d) (visit' node n d')

variable {visit : JsonNode → Nat → σ → σ} {visit' : JsonNode → Nat → τ → τ} {P : Int → Prop}
  {depth : Nat} {R : Nat → σ → τ → Prop}

mutual

/-- What the visits keep, the walk over a value keeps. -/
theorem WalkRel.walkValue (h : WalkRel visit visit' P depth R) :
    ∀ (v : JsonValue) {k : Nat} {d : σ} {d' : τ}, Integers P v → k + nesting v ≤ depth → R k d d' →
      R k (walkValue visit v d) (walkValue visit' v d')
  | .object [], _, _, _, _, _, hR => h.empty rfl hR
  | .object (e :: es), k, d, d', hP, hk, hR => by
      rw [nesting] at hk
      have hfirst : R (k + 1) (visit (.object ((e :: es).map Prod.fst)) 0 d)
          (visit' (.object ((e :: es).map Prod.fst)) 0 d') :=
        h.first rfl (by simp) (by omega) hR
      have he := h.walkEntry e hP.1 (by omega) hfirst
      exact h.walkEntries es (by decide) (by simp [Nat.add_comm]) rfl hP.2 (by omega) he
  | .array [], _, _, _, _, _, hR => h.empty rfl hR
  | .array (v :: vs), k, d, d', hP, hk, hR => by
      rw [nesting] at hk
      have hfirst : R (k + 1) (visit (.array (v :: vs).length) 0 d)
          (visit' (.array (v :: vs).length) 0 d') :=
        h.first rfl (by simp) (by omega) hR
      have hv := h.walkValue v hP.1 (by omega) hfirst
      exact h.walkValues vs (by decide) (by simp [Nat.add_comm]) rfl hP.2 (by omega) hv
  | .integer _, _, _, _, hP, _, hR => h.leaf rfl (fun _ hm => by cases hm; exact hP) hR
  | .double _, _, _, _, _, _, hR => h.leaf rfl (fun _ hm => by cases hm) hR
  | .string _, _, _, _, _, _, hR => h.leaf rfl (fun _ hm => by cases hm) hR
  | .boolean _, _, _, _, _, _, hR => h.leaf rfl (fun _ hm => by cases hm) hR
  | .null, _, _, _, _, _, hR => h.leaf rfl (fun _ hm => by cases hm) hR

theorem WalkRel.walkEntry (h : WalkRel visit visit' P depth R) :
    ∀ (e : Bytes × JsonValue) {k : Nat} {d : σ} {d' : τ}, IntegersEntry P e →
      k + nestingEntry e ≤ depth → R k d d' →
      R k (walkEntry visit e d) (walkEntry visit' e d')
  | (_, v), _, _, _, hP, hk, hR => h.walkValue v hP hk hR

/-- The walk from the second child on. -/
theorem WalkRel.walkValues (h : WalkRel visit visit' P depth R) :
    ∀ (vs : List JsonValue) {node : JsonNode} {n i k : Nat} {d : σ} {d' : τ}, 0 < i →
      i + vs.length = n → node.length = some n → IntegersValues P vs →
      k + 1 + nestingValues vs ≤ depth → R (k + 1) d d' →
      R k (walkValues visit node i vs d) (walkValues visit' node i vs d')
  | [], _, n, i, _, _, _, hi, hn, hnode, _, _, hR => by
      obtain rfl : i = n := hn
      exact h.last hnode hi hR
  | v :: vs, _, _, i, _, _, _, hi, hn, hnode, hP, hk, hR => by
      rw [List.length_cons] at hn
      rw [nestingValues] at hk
      have hlater := h.later hnode hi (by omega) hR
      have hv := h.walkValue v hP.1 (by omega) hlater
      exact h.walkValues vs (Nat.succ_pos i) (by omega) hnode hP.2 (by omega) hv

theorem WalkRel.walkEntries (h : WalkRel visit visit' P depth R) :
    ∀ (es : List (Bytes × JsonValue)) {node : JsonNode} {n i k : Nat} {d : σ} {d' : τ}, 0 < i →
      i + es.length = n → node.length = some n → IntegersEntries P es →
      k + 1 + nestingEntries es ≤ depth → R (k + 1) d d' →
      R k (walkEntries visit node i es d) (walkEntries visit' node i es d')
  | [], _, n, i, _, _, _, hi, hn, hnode, _, _, hR => by
      obtain rfl : i = n := hn
      exact h.last hnode hi hR
  | e :: es, _, _, i, _, _, _, hi, hn, hnode, hP, hk, hR => by
      rw [List.length_cons] at hn
      rw [nestingEntries] at hk
      have hlater := h.later hnode hi (by omega) hR
      have he := h.walkEntry e hP.1 (by omega) hlater
      exact h.walkEntries es (Nat.succ_pos i) (by omega) hnode hP.2 (by omega) he

end

end Walks

namespace Machine

/-- The result of an operation on `int`s, where C gives one. -/
def asInt (n : Int) : Option Int := if -2 ^ 31 ≤ n ∧ n < 2 ^ 31 then some n else none

/-- `-integer`, of a `json_int_t`. -/
def negate (n : Int) : Option Int := if -(jsonIntMax : Int) ≤ n then some (-n) else none

/-- `json_serialize_opts`, with a field for each bit of `opts`. -/
structure SerializeOpts where
  mode : SerializeMode
  crlf : Bool
  packBrackets : Bool
  noSpaceAfterComma : Bool
  noSpaceAfterColon : Bool
  useTabs : Bool
  indentSize : Int
  deriving DecidableEq, Repr

/-- The options of `JsonSerialize`, where an indent below zero is none. -/
def SerializeOpts.toNat (opts : SerializeOpts) : Shared.SerializeOpts where
  mode := opts.mode
  crlf := opts.crlf
  packBrackets := opts.packBrackets
  noSpaceAfterComma := opts.noSpaceAfterComma
  noSpaceAfterColon := opts.noSpaceAfterColon
  useTabs := opts.useTabs
  indentSize := opts.indentSize.toNat

/-- The characters of a line break. -/
def SerializeOpts.lineBreak (opts : SerializeOpts) : Nat := if opts.crlf then 2 else 1

/-! ## Measuring -/

def measureInteger (n : Int) : Option Nat :=
  if n < 0 then (negate n).map fun m => 1 + measureDigits m.toNat
  else some (measureDigits n.toNat)

/-- The variables of `json_measure_ex`. -/
structure Measure where
  total : UInt64
  newlines : UInt64
  depth : UInt64
  indents : UInt64
  deriving DecidableEq, Repr

namespace Measure

def add (m : Measure) (n : Nat) : Measure := { m with total := m.total + .ofNat n }

def deeper (m : Measure) : Measure := { m with depth := m.depth + 1 }

def shallower (m : Measure) : Measure := { m with depth := m.depth - 1 }

/-- `MEASURE_NEWLINE`. -/
def newline (m : Measure) : Measure :=
  { m with newlines := m.newlines + 1, indents := m.indents + m.depth }

/-- The sum at the end: the size of a line break is an `int`, before it
is multiplied. -/
def result (opts : SerializeOpts) (m : Measure) : Option UInt64 :=
  if opts.mode = .multiline then
    (asInt (opts.lineBreak + opts.indentSize)).map fun line =>
      m.total + m.newlines * .ofInt line + m.indents * .ofInt opts.indentSize
  else some m.total

end Measure

/-- The brackets and commas of a container with `n` children, at the
visit with the count `i`. -/
def measureContainer (flags : SerializeFlags) (n i : Nat) (m : Measure) : Measure :=
  if i = 0 ∧ n = 0 then m.add 2
  else
    let m := if i = 0 then (m.add flags.bracketSize).deeper.newline else m
    if i = n then m.shallower.newline.add flags.bracketSize
    else if 0 < i then (m.add flags.commaSize).newline
    else m

/-- The name of an entry, with its colon. -/
def measureName (flags : SerializeFlags) (name : Bytes) (m : Measure) : Measure :=
  (m.add (2 + flags.colonSize)).add (measureString name)

/-- The body of the loop of `json_measure_ex`. -/
def measureVisit (g : Bytes → Bytes) (flags : SerializeFlags) (node : JsonNode) (i : Nat)
    (m : Option Measure) : Option Measure :=
  m.bind fun m =>
    match node with
    | .array length => some (measureContainer flags length i m)
    | .object names =>
      let m := measureContainer flags names.length i m
      match names[i]? with
      | some name => some (measureName flags name m)
      | none => some m
    | .string s => some ((m.add 2).add (measureString s))
    | .integer n => (measureInteger n).map m.add
    | .double text => some ((m.add (g text).length).add 2)
    | .boolean b => some (m.add (if b then 4 else 5))
    | .null => some (m.add 4)

/-- `json_measure_ex`, for as many visits as `fuel` says. -/
def jsonMeasureEx (g : Bytes → Bytes) (opts : SerializeOpts) (mem : JsonMemory)
    (count : Nat → Nat) (a fuel : Nat) : Option (UInt64 × (Nat → Nat)) :=
  let w := Walk.steps mem.children mem.parent (fun _ => 0)
    (mem.visit (measureVisit g (getSerializeFlags opts.toNat))) fuel
    ⟨some a, count, some ⟨1, 0, 0, 0⟩⟩
  if w.pos = none then (w.data.bind (Measure.result opts)).map fun size => (size, w.count)
  else none

/-! ## Serializing -/

def serializeInteger (n : Int) : Option Bytes :=
  if n < 0 then (negate n).map fun m => 45 :: serializeNat m.toNat
  else some (serializeNat n.toNat)

/-- The variables `buf` and `indent` of `json_serialize_ex`. -/
structure Output where
  buf : Bytes
  indent : Int
  deriving DecidableEq, Repr

namespace Output

def put (o : Output) (text : Bytes) : Output := { o with buf := o.buf ++ text }

/-- `PRINT_NEWLINE`: its loop counts from 0 up to `indent`. -/
def newline (opts : SerializeOpts) (o : Output) : Output :=
  o.put (printNewline opts.toNat o.indent.toNat)

end Output

/-- The brackets and commas of a container with `n` children, at the
visit with the count `i`. -/
def serializeContainer (opts : SerializeOpts) (opening closing : UInt8) (n i : Nat) (o : Output) :
    Option Output :=
  if i = 0 ∧ n = 0 then some (o.put [opening, closing])
  else do
    let o ← if i = 0 then
        (asInt (o.indent + opts.indentSize)).map fun indent =>
          Output.newline opts { o.put (printOpening opts.toNat opening) with indent := indent }
      else some o
    if i = n then
      (asInt (o.indent - opts.indentSize)).map fun indent =>
        (Output.newline opts { o with indent := indent }).put (printClosing opts.toNat closing)
    else if 0 < i then some ((o.put (printComma opts.toNat)).newline opts)
    else some o

/-- The body of the loop of `json_serialize_ex`. -/
def serializeVisit (g : Bytes → Bytes) (opts : SerializeOpts) (node : JsonNode) (i : Nat)
    (o : Option Output) : Option Output :=
  o.bind fun o =>
    match node with
    | .array length => serializeContainer opts 91 93 length i o
    | .object names =>
      (serializeContainer opts 123 125 names.length i o).map fun o =>
        match names[i]? with
        | some name => o.put (printName opts.toNat name)
        | none => o
    | .string s => some (o.put (34 :: serializeString s ++ [34]))
    | .integer n => (serializeInteger n).map o.put
    | .double text => some (o.put (printDouble (g text)))
    | .boolean b => some (o.put (if b then ascii "true" else ascii "false"))
    | .null => some (o.put (ascii "null"))

/-- `json_serialize_ex`, for as many visits as `fuel` says: what it
writes before the NUL, and `length_iterated`. -/
def jsonSerializeEx (g : Bytes → Bytes) (opts : SerializeOpts) (mem : JsonMemory)
    (count : Nat → Nat) (a fuel : Nat) : Option (Bytes × (Nat → Nat)) :=
  let w := Walk.steps mem.children mem.parent (fun _ => 0) (mem.visit (serializeVisit g opts))
    fuel ⟨some a, count, some ⟨[], 0⟩⟩
  if w.pos = none then w.data.map fun o => (o.buf, w.count) else none

/-! ## Measuring without an overflow -/

section Measuring

variable {g : Bytes → Bytes} {opts : SerializeOpts} {flags : SerializeFlags}

/-- The counters, as `size_t`s. -/
def Measure.ofNat (m : Shared.Measure) : Measure where
  total := .ofNat m.total
  newlines := .ofNat m.newlines
  depth := .ofNat m.depth
  indents := .ofNat m.indents

@[simp] theorem Measure.ofNat_add (m : Shared.Measure) (n : Nat) :
    (ofNat m).add n = ofNat (m.add n) := by
  simp [ofNat, add, Shared.Measure.add, UInt64.ofNat_add]

@[simp] theorem Measure.ofNat_deeper (m : Shared.Measure) :
    (ofNat m).deeper = ofNat m.deeper := by
  simp [ofNat, deeper, Shared.Measure.deeper, UInt64.ofNat_add]

theorem Measure.ofNat_shallower {m : Shared.Measure} (h : 0 < m.depth) :
    (ofNat m).shallower = ofNat m.shallower := by
  have hsub := UInt64.ofNat_sub (show 1 ≤ m.depth from h)
  simp [ofNat, shallower, Shared.Measure.shallower, hsub]

@[simp] theorem Measure.ofNat_newline (m : Shared.Measure) :
    (ofNat m).newline = ofNat m.newline := by
  simp [ofNat, newline, Shared.Measure.newline, UInt64.ofNat_add]

theorem measureInteger_eq {n : Int} (h : -(jsonIntMax : Int) ≤ n) :
    measureInteger n = some (Shared.measureInteger n) := by
  unfold measureInteger Shared.measureInteger negate
  split_ifs with hneg
  · have habs : (-n).toNat = n.natAbs := by omega
    rw [Option.map_some, habs]
  · have habs : n.toNat = n.natAbs := by omega
    rw [habs, Nat.zero_add]

theorem measureContainer_ofNat {n i : Nat} {m : Shared.Measure}
    (h : i = n → 0 < n → 0 < m.depth) :
    measureContainer flags n i (.ofNat m) = .ofNat (Shared.measureContainer flags n i m) := by
  by_cases h0 : i = 0
  · subst h0
    by_cases hn : n = 0
    · simp [measureContainer, Shared.measureContainer, hn]
    · have hne : 0 ≠ n := fun h => hn h.symm
      simp [measureContainer, Shared.measureContainer, hn, hne]
  · by_cases hi : i = n
    · subst hi
      have hdepth := h rfl (Nat.pos_of_ne_zero h0)
      simp [measureContainer, Shared.measureContainer, h0, Measure.ofNat_shallower hdepth]
    · simp [measureContainer, Shared.measureContainer, h0, hi, Nat.pos_of_ne_zero h0]

theorem measureName_ofNat (name : Bytes) (m : Shared.Measure) :
    measureName flags name (.ofNat m) = .ofNat (Shared.measureName flags name m) := by
  simp [measureName, Shared.measureName]

theorem measureVisit_ofNat {node : JsonNode} {i : Nat} {m : Shared.Measure}
    (hint : ∀ n, node = .integer n → -(jsonIntMax : Int) ≤ n)
    (hdepth : ∀ n, node.length = some n → i = n → 0 < n → 0 < m.depth) :
    measureVisit g flags node i (some (.ofNat m)) =
      some (.ofNat (Shared.measureVisit g flags node i m)) := by
  cases node with
  | array length =>
    simp only [measureVisit, Shared.measureVisit, Option.bind_some,
      measureContainer_ofNat (hdepth length rfl)]
  | object names =>
    simp only [measureVisit, Shared.measureVisit, Option.bind_some,
      measureContainer_ofNat (hdepth names.length rfl)]
    cases names[i]? with
    | none => rfl
    | some name => simp only [measureName_ofNat]
  | integer n =>
    simp only [measureVisit, Shared.measureVisit, Option.bind_some, measureInteger_eq (hint n rfl),
      Option.map_some, Measure.ofNat_add]
  | double text => simp [measureVisit, Shared.measureVisit]
  | string s => simp [measureVisit, Shared.measureVisit]
  | boolean b => simp [measureVisit, Shared.measureVisit]
  | null => simp [measureVisit, Shared.measureVisit]

/-- Only the brackets of a container change the depth. -/
theorem measureVisit_depth {node : JsonNode} {n i : Nat} {m : Shared.Measure}
    (h : node.length = some n) : (Shared.measureVisit g flags node i m).depth =
      (Shared.measureContainer flags n i m).depth := by
  cases node with
  | array length =>
    obtain rfl := Option.some.inj h
    rfl
  | object names =>
    obtain rfl := Option.some.inj h
    rw [Shared.measureVisit]
    cases names[i]? <;> rfl
  | integer n => cases h
  | double text => cases h
  | string s => cases h
  | boolean b => cases h
  | null => cases h

/-- The counters of the source are those without bounds. -/
theorem measureVisit_rel (depth : Nat) :
    WalkRel (measureVisit g (getSerializeFlags opts.toNat))
      (Shared.measureVisit g (getSerializeFlags opts.toNat)) (-(jsonIntMax : Int) ≤ ·) depth
      fun k m m' => m = some (.ofNat m') ∧ m'.depth = k where
  leaf := by
    rintro node k m m' hleaf hint ⟨rfl, rfl⟩
    refine ⟨measureVisit_ofNat hint ?_, ?_⟩
    · intro n hn
      rw [hleaf] at hn
      cases hn
    · cases node with
      | array length => cases hleaf
      | object names => cases hleaf
      | _ => rfl
  empty := by
    rintro node k m m' hlen ⟨rfl, rfl⟩
    refine ⟨measureVisit_ofNat (JsonNode.integer_of_length hlen) ?_, ?_⟩
    · intro n hn h0 hpos
      omega
    · rw [measureVisit_depth hlen]
      rfl
  first := by
    rintro node n k m m' hlen hn - ⟨rfl, rfl⟩
    refine ⟨measureVisit_ofNat (JsonNode.integer_of_length hlen) ?_, ?_⟩
    · intro n hn h0 hpos
      omega
    · rw [measureVisit_depth hlen]
      exact (measureContainer_open opts.toNat 91 hn m').depth
  later := by
    rintro node n i k m m' hlen h0 hi ⟨rfl, hdepth⟩
    refine ⟨measureVisit_ofNat (JsonNode.integer_of_length hlen) ?_, ?_⟩
    · intro n _ _ _
      omega
    · rw [measureVisit_depth hlen, ← hdepth]
      exact (measureContainer_comma opts.toNat h0 hi m').depth
  last := by
    rintro node n k m m' hlen hn ⟨rfl, hdepth⟩
    refine ⟨measureVisit_ofNat (JsonNode.integer_of_length hlen) ?_, ?_⟩
    · intro n _ _ _
      omega
    · rw [measureVisit_depth hlen]
      exact (measureContainer_close 91 hn hdepth).depth

end Measuring

/-! ## Serializing without an overflow -/

section Serializing

variable {g : Bytes → Bytes} {opts : SerializeOpts}

theorem serializeInteger_eq {n : Int} (h : -(jsonIntMax : Int) ≤ n) :
    serializeInteger n = some (Shared.serializeInteger n) := by
  unfold serializeInteger Shared.serializeInteger negate
  split_ifs with hneg
  · have habs : (-n).toNat = n.natAbs := by omega
    rw [Option.map_some, habs]
  · have habs : n.toNat = n.natAbs := by omega
    rw [habs]

theorem asInt_of_natCast {n : Nat} (h : n < 2 ^ 31) : asInt n = some n :=
  if_pos ⟨by omega, by exact_mod_cast h⟩

/-- The variables with an `int`. -/
def Output.ofNat (o : Shared.Output) : Output := ⟨o.buf, o.indent⟩

@[simp] theorem Output.ofNat_put (o : Shared.Output) (text : Bytes) :
    (ofNat o).put text = ofNat (o.put text) := rfl

@[simp] theorem Output.ofNat_newline (o : Shared.Output) :
    (ofNat o).newline opts = ofNat (o.put (printNewline opts.toNat o.indent)) := rfl

/-- The indents that come up at a visit are `int`s. -/
theorem serializeContainer_ofNat {c d : UInt8} {n i : Nat} {o : Shared.Output}
    (hsize : 0 ≤ opts.indentSize)
    (hopen : i = 0 → 0 < n → o.indent + opts.toNat.indentSize < 2 ^ 31)
    (hclose : i = n → 0 < n → opts.toNat.indentSize ≤ o.indent ∧ o.indent < 2 ^ 31) :
    serializeContainer opts c d n i (.ofNat o) =
      some (.ofNat (Shared.serializeContainer opts.toNat c d n i o)) := by
  have hcast : opts.indentSize = (opts.toNat.indentSize : Int) := (Int.toNat_of_nonneg hsize).symm
  by_cases h0 : i = 0
  · subst h0
    by_cases hn : n = 0
    · simp [serializeContainer, Shared.serializeContainer, hn]
    · have hne : 0 ≠ n := fun h => hn h.symm
      have hadd : asInt (o.indent + opts.indentSize) =
          some ((o.indent : Int) + opts.toNat.indentSize) := by
        rw [hcast, ← Int.natCast_add]
        exact asInt_of_natCast (hopen rfl (Nat.pos_of_ne_zero hn))
      have hnat : ((o.indent : Int) + opts.toNat.indentSize).toNat =
          o.indent + opts.toNat.indentSize := by omega
      simp [serializeContainer, Shared.serializeContainer, hn, hne, hadd, hnat, Output.newline,
        Output.put, Output.ofNat, Shared.Output.put]
  · by_cases hi : i = n
    · subst hi
      obtain ⟨hle, hlt⟩ := hclose rfl (Nat.pos_of_ne_zero h0)
      have hsub : asInt (o.indent - opts.indentSize) =
          some ((o.indent - opts.toNat.indentSize : Nat) : Int) := by
        rw [hcast, ← Int.ofNat_sub hle]
        exact asInt_of_natCast (by omega)
      simp [serializeContainer, Shared.serializeContainer, h0, hsub, Output.newline, Output.put,
        Output.ofNat, Shared.Output.put]
    · simp [serializeContainer, Shared.serializeContainer, h0, hi, Nat.pos_of_ne_zero h0,
        Output.newline, Output.put, Output.ofNat, Shared.Output.put]

theorem serializeVisit_ofNat {node : JsonNode} {i : Nat} {o : Shared.Output}
    (hsize : 0 ≤ opts.indentSize) (hint : ∀ n, node = .integer n → -(jsonIntMax : Int) ≤ n)
    (hopen : ∀ n, node.length = some n → i = 0 → 0 < n →
      o.indent + opts.toNat.indentSize < 2 ^ 31)
    (hclose : ∀ n, node.length = some n → i = n → 0 < n →
      opts.toNat.indentSize ≤ o.indent ∧ o.indent < 2 ^ 31) :
    serializeVisit g opts node i (some (.ofNat o)) =
      some (.ofNat (Shared.serializeVisit g opts.toNat node i o)) := by
  cases node with
  | array length =>
    simp only [serializeVisit, Shared.serializeVisit, Option.bind_some,
      serializeContainer_ofNat hsize (hopen length rfl) (hclose length rfl)]
  | object names =>
    simp only [serializeVisit, Shared.serializeVisit, Option.bind_some,
      serializeContainer_ofNat hsize (hopen names.length rfl) (hclose names.length rfl),
      Option.map_some]
    cases names[i]? <;> rfl
  | integer n =>
    simp only [serializeVisit, Shared.serializeVisit, Option.bind_some,
      serializeInteger_eq (hint n rfl), Option.map_some, Output.ofNat_put]
  | double text => rfl
  | string s => rfl
  | boolean b => rfl
  | null => rfl

/-- Only the brackets of a container change the indent. -/
theorem serializeVisit_indent (g : Bytes → Bytes) (opts : Shared.SerializeOpts) (i : Nat)
    (o : Shared.Output) {node : JsonNode} {n : Nat} (h : node.length = some n) :
    ∃ c d, (Shared.serializeVisit g opts node i o).indent =
      (Shared.serializeContainer opts c d n i o).indent := by
  cases node with
  | array length =>
    obtain rfl := Option.some.inj h
    exact ⟨91, 93, rfl⟩
  | object names =>
    obtain rfl := Option.some.inj h
    refine ⟨123, 125, ?_⟩
    rw [Shared.serializeVisit]
    cases names[i]? <;> rfl
  | integer n => cases h
  | double text => cases h
  | string s => cases h
  | boolean b => cases h
  | null => cases h

/-- The indent of the source is the one without bounds. -/
theorem serializeVisit_rel {depth : Nat} (hsize : 0 ≤ opts.indentSize)
    (hdepth : depth * opts.toNat.indentSize < 2 ^ 31) :
    WalkRel (serializeVisit g opts) (Shared.serializeVisit g opts.toNat)
      (-(jsonIntMax : Int) ≤ ·) depth
      fun k o o' => o = some (.ofNat o') ∧ o'.indent = k * opts.toNat.indentSize ∧ k ≤ depth := by
  have hbound : ∀ k ≤ depth, k * opts.toNat.indentSize < 2 ^ 31 := fun k hk =>
    lt_of_le_of_lt (Nat.mul_le_mul_right _ hk) hdepth
  constructor
  case leaf =>
    rintro node k o o' hleaf hint ⟨rfl, hindent, hk⟩
    refine ⟨serializeVisit_ofNat hsize hint ?_ ?_, ?_, hk⟩
    · intro n hn
      rw [hleaf] at hn
      cases hn
    · intro n hn
      rw [hleaf] at hn
      cases hn
    · cases node with
      | array length => cases hleaf
      | object names => cases hleaf
      | _ => exact hindent
  case empty =>
    rintro node k o o' hlen ⟨rfl, hindent, hk⟩
    refine ⟨serializeVisit_ofNat hsize (JsonNode.integer_of_length hlen) ?_ ?_, ?_, hk⟩
    · intro n hn _ hpos
      rw [hlen] at hn
      cases hn
      cases hpos
    · intro n _ h0 hpos
      omega
    · obtain ⟨c, d, hcontainer⟩ := serializeVisit_indent g opts.toNat 0 o' hlen
      rw [hcontainer]
      exact hindent
  case first =>
    rintro node n k o o' hlen hn hk ⟨rfl, hindent, -⟩
    refine ⟨serializeVisit_ofNat hsize (JsonNode.integer_of_length hlen) ?_ ?_, ?_, hk⟩
    · intro n _ _ _
      rw [hindent, ← Nat.succ_mul]
      exact hbound (k + 1) hk
    · intro n _ h0 hpos
      omega
    · obtain ⟨c, d, hcontainer⟩ := serializeVisit_indent g opts.toNat 0 o' hlen
      rw [hcontainer, serializeContainer_open hn, hindent, ← Nat.succ_mul]
  case later =>
    rintro node n i k o o' hlen h0 hi ⟨rfl, hindent, hk⟩
    refine ⟨serializeVisit_ofNat hsize (JsonNode.integer_of_length hlen) ?_ ?_, ?_, hk⟩
    · intro n _ hzero
      omega
    · intro m hm hlast
      rw [hlen] at hm
      cases hm
      omega
    · obtain ⟨c, d, hcontainer⟩ := serializeVisit_indent g opts.toNat i o' hlen
      rw [hcontainer, serializeContainer_comma h0 hi, hindent]
  case last =>
    rintro node n k o ⟨buf, indent⟩ hlen hn ⟨rfl, hindent, hk⟩
    simp only [Nat.succ_mul] at hindent
    subst hindent
    refine ⟨serializeVisit_ofNat hsize (JsonNode.integer_of_length hlen) ?_ ?_, ?_,
      Nat.le_of_succ_le hk⟩
    · intro n _ hzero
      omega
    · intro _ _ _ _
      refine ⟨Nat.le_add_left _ _, ?_⟩
      rw [← Nat.succ_mul]
      exact hbound (k + 1) hk
    · obtain ⟨c, d, hcontainer⟩ := serializeVisit_indent g opts.toNat n
        ⟨buf, k * opts.toNat.indentSize + opts.toNat.indentSize⟩ hlen
      rw [hcontainer, serializeContainer_close hn]

end Serializing

/-! ## The loops -/

/-- The options and the value ask for no number that the source cannot
hold: the indents and the line breaks fit an `int`, the size fits a
`size_t`, and no integer is the smallest one. -/
structure Fits (g : Bytes → Bytes) (opts : SerializeOpts) (v : JsonValue) : Prop where
  indentSize : 0 ≤ opts.indentSize
  line : opts.lineBreak + opts.toNat.indentSize < 2 ^ 31
  indent : nesting v * opts.toNat.indentSize < 2 ^ 31
  integers : Integers (-(jsonIntMax : Int) ≤ ·) v
  size : (printValue g opts.toNat 0 v).length + 1 + slack g opts.toNat v < 2 ^ 64

theorem ofInt_natCast (n : Nat) : UInt64.ofInt n = .ofNat n := by
  have hmod : ((n : Int) % 2 ^ 64).toNat = n % 2 ^ 64 := by omega
  rw [UInt64.ofInt, hmod]
  exact UInt64.ofNat_mod_size ..

theorem Measure.ofNat_result {g : Bytes → Bytes} {opts : SerializeOpts} {v : JsonValue}
    (h : Fits g opts v) (m : Shared.Measure) :
    (ofNat m).result opts = some (.ofNat (m.result opts.toNat)) := by
  have hsize : opts.indentSize = (opts.toNat.indentSize : Int) :=
    (Int.toNat_of_nonneg h.indentSize).symm
  have hline : asInt (opts.lineBreak + opts.indentSize) =
      some ((opts.lineBreak + opts.toNat.indentSize : Nat) : Int) := by
    rw [hsize, ← Int.natCast_add]
    exact asInt_of_natCast h.line
  unfold result Shared.Measure.result
  by_cases hmode : opts.mode = .multiline
  · have hmode' : opts.toNat.mode = .multiline := hmode
    have hbreak : (if opts.toNat.crlf then 2 else 1) = opts.lineBreak := rfl
    rw [if_pos hmode, if_pos hmode', hline, hsize, hbreak, Option.map_some]
    simp only [ofInt_natCast, UInt64.ofNat_add, UInt64.ofNat_mul, ofNat]
  · have hmode' : opts.toNat.mode ≠ .multiline := hmode
    rw [if_neg hmode, if_neg hmode']
    rfl

section Loops

variable {g : Bytes → Bytes} {opts : SerializeOpts} {mem : JsonMemory} {count : Nat → Nat}
  {a : Nat} {v : JsonValue} {as : List Nat}

/-- `json_measure_ex` computes the size that it would compute without
bounds. -/
theorem jsonMeasureEx_eq (h : Holds mem none a v as) (h0 : ∀ b ∈ as, count b = 0)
    (hfit : Fits g opts v) : ∃ visits, ∀ fuel, visits ≤ fuel →
      jsonMeasureEx g opts mem count a fuel =
        (Shared.jsonMeasureEx g opts.toNat mem count a fuel).map fun x => (.ofNat x.1, x.2) := by
  obtain ⟨es, hspans, heval⟩ := h.spans
  refine ⟨es.length, fun fuel hfuel => ?_⟩
  have hwalk := hspans.walk_clear (mem.visit (measureVisit g (getSerializeFlags opts.toNat)))
    (some ⟨1, 0, 0, 0⟩) h0
  have hwalk' := hspans.walk_clear
    (mem.visit (Shared.measureVisit g (getSerializeFlags opts.toNat))) ⟨1, 0, 0, 0⟩ h0
  obtain ⟨hrel, -⟩ := (@measureVisit_rel g opts (nesting v)).walkValue v hfit.integers
    (Nat.zero_add _).le (⟨rfl, rfl⟩ :
      some (⟨1, 0, 0, 0⟩ : Measure) = some (.ofNat ⟨1, 0, 0, 0⟩) ∧ 0 = 0)
  rw [heval] at hwalk hwalk'
  rw [hrel] at hwalk
  simp only [jsonMeasureEx, Shared.jsonMeasureEx, Walk.steps_of_le _ _ _ _ hwalk rfl hfuel,
    Walk.steps_of_le _ _ _ _ hwalk' rfl hfuel, if_true, Option.bind_some,
    Measure.ofNat_result hfit, Option.map_some]

/-- `json_serialize_ex` writes what it would write without bounds. -/
theorem jsonSerializeEx_eq (h : Holds mem none a v as) (h0 : ∀ b ∈ as, count b = 0)
    (hfit : Fits g opts v) : ∃ visits, ∀ fuel, visits ≤ fuel →
      jsonSerializeEx g opts mem count a fuel =
        Shared.jsonSerializeEx g opts.toNat mem count a fuel := by
  obtain ⟨es, hspans, heval⟩ := h.spans
  refine ⟨es.length, fun fuel hfuel => ?_⟩
  have hwalk := hspans.walk_clear (mem.visit (serializeVisit g opts)) (some ⟨[], 0⟩) h0
  have hwalk' := hspans.walk_clear (mem.visit (Shared.serializeVisit g opts.toNat)) ⟨[], 0⟩ h0
  obtain ⟨hrel, -⟩ := (serializeVisit_rel (g := g) hfit.indentSize hfit.indent).walkValue v
    hfit.integers (Nat.zero_add _).le (⟨rfl, (Nat.zero_mul _).symm, Nat.zero_le _⟩ :
      some (⟨[], 0⟩ : Output) = some (.ofNat ⟨[], 0⟩) ∧ 0 = 0 * opts.toNat.indentSize ∧
        0 ≤ nesting v)
  rw [heval] at hwalk hwalk'
  rw [hrel] at hwalk
  simp only [jsonSerializeEx, Shared.jsonSerializeEx, Walk.steps_of_le _ _ _ _ hwalk rfl hfuel,
    Walk.steps_of_le _ _ _ _ hwalk' rfl hfuel, if_true, Option.map_some, Output.ofNat]

/-- Where the options and the value fit, both loops end and leave
`length_iterated` for the next, nothing overflows, and the buffer of
`json_measure_ex` holds what `json_serialize_ex` writes: what is left
over of it are the slack of the line breaks and of the doubles. -/
theorem serialized_fits_measured (h : Holds mem none a v as) (h0 : ∀ b ∈ as, count b = 0)
    (hfit : Fits g opts v) :
    ∃ visits size text, ∀ fuel, visits ≤ fuel →
      jsonMeasureEx g opts mem count a fuel = some (size, count) ∧
      jsonSerializeEx g opts mem count a fuel = some (text, count) ∧
      size.toNat = text.length + 1 + slack g opts.toNat v := by
  obtain ⟨m, hm⟩ := jsonMeasureEx_eq h h0 hfit
  obtain ⟨n, hn⟩ := jsonSerializeEx_eq h h0 hfit
  obtain ⟨k, hk⟩ := Shared.jsonMeasureEx_eq g opts.toNat h h0
  obtain ⟨l, hl⟩ := Shared.jsonSerializeEx_eq g opts.toNat h h0
  refine ⟨max (max m n) (max k l),
    .ofNat ((printValue g opts.toNat 0 v).length + 1 + slack g opts.toNat v),
    printValue g opts.toNat 0 v, fun fuel hfuel => ⟨?_, ?_, ?_⟩⟩
  · rw [hm fuel (by omega), hk fuel (by omega), Option.map_some]
  · rw [hn fuel (by omega), hl fuel (by omega)]
  · exact UInt64.toNat_ofNat_of_lt' hfit.size

/-- Lines that end in CRLF and are indented by 4. -/
def indentedOpts : SerializeOpts where
  mode := .multiline
  crlf := true
  packBrackets := false
  noSpaceAfterComma := false
  noSpaceAfterColon := false
  useTabs := false
  indentSize := 4

theorem serialized_fits_measured_indented :
    ∃ visits size text, ∀ fuel, visits ≤ fuel →
      jsonMeasureEx id indentedOpts sampleMemory (fun _ => 0) 0 fuel = some (size, fun _ => 0) ∧
      jsonSerializeEx id indentedOpts sampleMemory (fun _ => 0) 0 fuel =
        some (text, fun _ => 0) ∧
      size.toNat = text.length + 1 + slack id indentedOpts.toNat
        (.object [(ascii "a", .array [.integer 1, .string (ascii "b")])]) :=
  serialized_fits_measured holds_sampleMemory (fun _ _ => rfl)
    { indentSize := by decide
      line := by decide
      indent := by decide
      integers := ⟨⟨(by decide : -(jsonIntMax : Int) ≤ 1), trivial, trivial⟩, trivial⟩
      size := by decide +kernel }

/-- `[1]` with an indent below zero: 3 bytes are measured, and 5 and the
NUL are written. -/
example :
    let opts := { indentedOpts with crlf := false, indentSize := -1 }
    let mem : JsonMemory := fun a =>
      if a = 0 then ⟨none, true, 0, .array (some 10) [1]⟩ else ⟨some 0, true, 0, .integer 1⟩
    (jsonMeasureEx id opts mem (fun _ => 0) 0 3).map Prod.fst = some 3 ∧
      (jsonSerializeEx id opts mem (fun _ => 0) 0 3).map Prod.fst = some (ascii "[\n1\n]") := by
  decide +kernel

end Loops

end Machine

end Pyoneer.Shared
