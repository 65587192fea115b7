/-
Pyoneer.Shared.JsonSerialize — `json_measure_ex` and `json_serialize_ex`
of `shared/json-builder.c`, as the loops over the cells that they are,
with every option.

Both loops climb by `parent` and count in `length_iterated` which
child comes next. `measureVisit` and `serializeVisit` are what their
bodies do at a value, the rest of the loops is the walk of `Lib/Walk`.
What the loops amount to is `printValue`, a function on values:
`jsonSerializeEx_eq` and `jsonMeasureEx_eq`.

* `%g` is a parameter, the function from a double to its text.
* Nothing overflows: the counters have no bounds, `indent_size` is not
  negative, and the smallest `json_int_t` can be negated.
  `JsonSerializeInt` has the integers of C, and says when that makes no
  difference.
-/
import Pyoneer.Shared.JsonBuild
import Pyoneer.Shared.JsonMemory
import Pyoneer.Shared.JsonParseTheorems

namespace Pyoneer.Shared

open Lib

/-! ## Options -/

inductive SerializeMode where
  | multiline
  | singleLine
  | packed
  deriving DecidableEq, Repr

/-- `json_serialize_opts`, with a field for each bit of `opts`. -/
structure SerializeOpts where
  mode : SerializeMode
  crlf : Bool
  packBrackets : Bool
  noSpaceAfterComma : Bool
  noSpaceAfterColon : Bool
  useTabs : Bool
  indentSize : Nat
  deriving DecidableEq, Repr

/-- `default_opts`. -/
def defaultOpts : SerializeOpts where
  mode := .singleLine
  crlf := false
  packBrackets := false
  noSpaceAfterComma := false
  noSpaceAfterColon := false
  useTabs := false
  indentSize := 3

structure SerializeFlags where
  spacesAroundBrackets : Bool
  spacesAfterCommas : Bool
  spacesAfterColons : Bool
  tabs : Bool

/-- `get_serialize_flags`. -/
def getSerializeFlags (opts : SerializeOpts) : SerializeFlags :=
  match opts.mode with
  | .packed => ⟨false, false, false, false⟩
  | .multiline => ⟨false, false, !opts.noSpaceAfterColon, opts.useTabs⟩
  | .singleLine =>
    ⟨!opts.packBrackets, !opts.noSpaceAfterComma, !opts.noSpaceAfterColon, false⟩

/-! ## Measuring -/

/-- The digits that `json_measure_ex` counts. -/
def measureDigits (n : Nat) : Nat := if 10 ≤ n then measureDigits (n / 10) + 1 else 1

def measureInteger (n : Int) : Nat := (if n < 0 then 1 else 0) + measureDigits n.natAbs

/-- The variables of `json_measure_ex`. -/
structure Measure where
  total : Nat
  newlines : Nat
  depth : Nat
  indents : Nat
  deriving DecidableEq, Repr

namespace Measure

def add (m : Measure) (n : Nat) : Measure := { m with total := m.total + n }

def deeper (m : Measure) : Measure := { m with depth := m.depth + 1 }

def shallower (m : Measure) : Measure := { m with depth := m.depth - 1 }

/-- `MEASURE_NEWLINE`. -/
def newline (m : Measure) : Measure :=
  { m with newlines := m.newlines + 1, indents := m.indents + m.depth }

end Measure

def SerializeFlags.bracketSize (flags : SerializeFlags) : Nat :=
  if flags.spacesAroundBrackets then 2 else 1

def SerializeFlags.commaSize (flags : SerializeFlags) : Nat :=
  if flags.spacesAfterCommas then 2 else 1

def SerializeFlags.colonSize (flags : SerializeFlags) : Nat :=
  if flags.spacesAfterColons then 2 else 1

/-- The brackets and commas of a container with `n` children, at the
visit with the count `i`. -/
def measureContainer (flags : SerializeFlags) (n i : Nat) (m : Measure) : Measure :=
  if i = 0 ∧ n = 0 then m.add 2
  else
    let m := if i = 0 then (m.add flags.bracketSize).deeper.newline else m
    if i = n then m.shallower.newline.add flags.bracketSize
    else if 0 < i then (m.add flags.commaSize).newline
    else m

/-- The name of an entry, with its colon. -/
def measureName (flags : SerializeFlags) (name : Bytes) (m : Measure) : Measure :=
  (m.add (2 + flags.colonSize)).add (measureString name)

/-- The body of the loop of `json_measure_ex`. -/
def measureVisit (g : Bytes → Bytes) (flags : SerializeFlags) (node : JsonNode) (i : Nat)
    (m : Measure) : Measure :=
  match node with
  | .array length => measureContainer flags length i m
  | .object names =>
    let m := measureContainer flags names.length i m
    match names[i]? with
    | some name => measureName flags name m
    | none => m
  | .string s => (m.add 2).add (measureString s)
  | .integer n => m.add (measureInteger n)
  | .double text => (m.add (g text).length).add 2
  | .boolean b => m.add (if b then 4 else 5)
  | .null => m.add 4

/-- `newlines` and `indents` count only in `json_serialize_mode_multiline`. -/
def Measure.result (opts : SerializeOpts) (m : Measure) : Nat :=
  if opts.mode = .multiline then
    m.total + m.newlines * ((if opts.crlf then 2 else 1) + opts.indentSize) +
      m.indents * opts.indentSize
  else m.total

/-- `json_measure_ex`, for as many visits as `fuel` says, with
`length_iterated` in `count`. -/
def jsonMeasureEx (g : Bytes → Bytes) (opts : SerializeOpts) (mem : JsonMemory)
    (count : Nat → Nat) (a fuel : Nat) : Option (Nat × (Nat → Nat)) :=
  let w := Walk.steps mem.children mem.parent (fun _ => 0)
    (mem.visit (measureVisit g (getSerializeFlags opts))) fuel ⟨some a, count, ⟨1, 0, 0, 0⟩⟩
  if w.pos = none then some (w.data.result opts, w.count) else none

/-! ## Serializing -/

/-- The variables `buf` and `indent` of `json_serialize_ex`. -/
structure Output where
  buf : Bytes
  indent : Nat
  deriving DecidableEq, Repr

namespace Output

def put (o : Output) (text : Bytes) : Output := { o with buf := o.buf ++ text }

end Output

section Print

variable (g : Bytes → Bytes) (opts : SerializeOpts)

/-- `PRINT_NEWLINE`, where the lines have this indent. -/
def printNewline (indent : Nat) : Bytes :=
  if opts.mode = .multiline then
    (if opts.crlf then [13, 10] else [10]) ++
      List.replicate indent (if (getSerializeFlags opts).tabs then 9 else 32)
  else []

/-- `PRINT_OPENING_BRACKET`. -/
def printOpening (c : UInt8) : Bytes :=
  if (getSerializeFlags opts).spacesAroundBrackets then [c, 32] else [c]

/-- `PRINT_CLOSING_BRACKET`. -/
def printClosing (c : UInt8) : Bytes :=
  if (getSerializeFlags opts).spacesAroundBrackets then [32, c] else [c]

def printComma : Bytes := if (getSerializeFlags opts).spacesAfterCommas then [44, 32] else [44]

/-- The name of an entry, with its colon. -/
def printName (name : Bytes) : Bytes :=
  34 :: serializeString name ++
    if (getSerializeFlags opts).spacesAfterColons then [34, 58, 32] else [34, 58]

/-- The text of a double. The first comma is a decimal point of some
locales. -/
def printDouble (text : Bytes) : Bytes :=
  if 44 ∈ text then text.replace 44 46
  else if 46 ∉ text ∧ 101 ∉ text then text ++ [46, 48]
  else text

/-- The brackets and commas of a container with `n` children, at the
visit with the count `i`. -/
def serializeContainer (opening closing : UInt8) (n i : Nat) (o : Output) : Output :=
  if i = 0 ∧ n = 0 then o.put [opening, closing]
  else
    let o := if i = 0 then
      let o := { o.put (printOpening opts opening) with indent := o.indent + opts.indentSize }
      o.put (printNewline opts o.indent)
    else o
    if i = n then
      let o := { o with indent := o.indent - opts.indentSize }
      (o.put (printNewline opts o.indent)).put (printClosing opts closing)
    else if 0 < i then (o.put (printComma opts)).put (printNewline opts o.indent)
    else o

/-- The body of the loop of `json_serialize_ex`. -/
def serializeVisit (node : JsonNode) (i : Nat) (o : Output) : Output :=
  match node with
  | .array length => serializeContainer opts 91 93 length i o
  | .object names =>
    let o := serializeContainer opts 123 125 names.length i o
    match names[i]? with
    | some name => o.put (printName opts name)
    | none => o
  | .string s => o.put (34 :: serializeString s ++ [34])
  | .integer n => o.put (serializeInteger n)
  | .double text => o.put (printDouble (g text))
  | .boolean b => o.put (if b then ascii "true" else ascii "false")
  | .null => o.put (ascii "null")

/-- `json_serialize_ex`, for as many visits as `fuel` says: what it
writes before the NUL, and `length_iterated`. -/
def jsonSerializeEx (mem : JsonMemory) (count : Nat → Nat) (a fuel : Nat) :
    Option (Bytes × (Nat → Nat)) :=
  let w := Walk.steps mem.children mem.parent (fun _ => 0) (mem.visit (serializeVisit g opts))
    fuel ⟨some a, count, ⟨[], 0⟩⟩
  if w.pos = none then some (w.data.buf, w.count) else none

/-! ## What is printed -/

mutual

/-- The text of a value, in a line with this indent. -/
def printValue (indent : Nat) : JsonValue → Bytes
  | .object [] => [123, 125]
  | .object (e :: es) =>
    printOpening opts 123 ++ printNewline opts (indent + opts.indentSize) ++
      printEntry (indent + opts.indentSize) e ++ printEntries (indent + opts.indentSize) es ++
      printNewline opts indent ++ printClosing opts 125
  | .array [] => [91, 93]
  | .array (v :: vs) =>
    printOpening opts 91 ++ printNewline opts (indent + opts.indentSize) ++
      printValue (indent + opts.indentSize) v ++ printValues (indent + opts.indentSize) vs ++
      printNewline opts indent ++ printClosing opts 93
  | .integer n => serializeInteger n
  | .double text => printDouble (g text)
  | .string s => 34 :: serializeString s ++ [34]
  | .boolean b => if b then ascii "true" else ascii "false"
  | .null => ascii "null"

def printEntry (indent : Nat) : Bytes × JsonValue → Bytes
  | (name, v) => printName opts name ++ printValue indent v

/-- The entries after the first. -/
def printEntries (indent : Nat) : List (Bytes × JsonValue) → Bytes
  | [] => []
  | e :: es =>
    printComma opts ++ printNewline opts indent ++ printEntry indent e ++ printEntries indent es

/-- The values after the first. -/
def printValues (indent : Nat) : List JsonValue → Bytes
  | [] => []
  | v :: vs =>
    printComma opts ++ printNewline opts indent ++ printValue indent v ++ printValues indent vs

end

end Print

section Serialize

variable {g : Bytes → Bytes} {opts : SerializeOpts}

theorem serializeContainer_open {c d : UInt8} {n : Nat} (hn : 0 < n) (o : Output) :
    serializeContainer opts c d n 0 o =
      ⟨o.buf ++ printOpening opts c ++ printNewline opts (o.indent + opts.indentSize),
        o.indent + opts.indentSize⟩ := by
  have hn' : ¬(0 = 0 ∧ n = 0) := by omega
  have hne : 0 ≠ n := by omega
  simp [serializeContainer, Output.put, hn.ne', hne]

theorem serializeContainer_comma {c d : UInt8} {n i : Nat} (h0 : 0 < i) (hi : i < n) (o : Output) :
    serializeContainer opts c d n i o =
      ⟨o.buf ++ printComma opts ++ printNewline opts o.indent, o.indent⟩ := by
  simp [serializeContainer, Output.put, h0, h0.ne', hi.ne]

theorem serializeContainer_close {c d : UInt8} {n : Nat} (h0 : 0 < n) (buf : Bytes)
    (indent : Nat) :
    serializeContainer opts c d n n ⟨buf, indent + opts.indentSize⟩ =
      ⟨buf ++ printNewline opts indent ++ printClosing opts d, indent⟩ := by
  simp [serializeContainer, Output.put, h0.ne']

mutual

/-- The walk of `json_serialize_ex` over a value prints it, and the
indent is what it was. -/
theorem walkValue_serialize : ∀ (v : JsonValue) (buf : Bytes) (indent : Nat),
    walkValue (serializeVisit g opts) v ⟨buf, indent⟩ =
      ⟨buf ++ printValue g opts indent v, indent⟩
  | .object [], buf, indent => by
      simp [walkValue, walkEntries, serializeVisit, serializeContainer, Output.put, printValue]
  | .object ((name, v) :: es), buf, indent => by
      rw [walkValue, walkEntries, walkEntry, serializeVisit,
        serializeContainer_open (by simp)]
      simp only [List.map_cons, List.getElem?_cons_zero, Output.put]
      rw [walkValue_serialize v, walkEntries_serialize es (by simp) (by simp [Nat.add_comm]) (by simp)]
      simp [printValue, printEntry, List.append_assoc]
  | .array [], buf, indent => by
      simp [walkValue, walkValues, serializeVisit, serializeContainer, Output.put, printValue]
  | .array (v :: vs), buf, indent => by
      rw [walkValue, walkValues, serializeVisit, serializeContainer_open (by simp),
        walkValue_serialize v,
        walkValues_serialize vs (by simp) (by simp [Nat.add_comm])]
      simp [printValue, List.append_assoc]
  | .integer n, buf, indent => by simp [walkValue, serializeVisit, Output.put, printValue]
  | .double text, buf, indent => by simp [walkValue, serializeVisit, Output.put, printValue]
  | .string s, buf, indent => by simp [walkValue, serializeVisit, Output.put, printValue]
  | .boolean b, buf, indent => by simp [walkValue, serializeVisit, Output.put, printValue]
  | .null, buf, indent => by simp [walkValue, serializeVisit, Output.put, printValue]

/-- The walk from the first comma on. -/
theorem walkValues_serialize : ∀ (vs : List JsonValue) {n i : Nat} {buf : Bytes} {indent : Nat},
    0 < i → i + vs.length = n →
    walkValues (serializeVisit g opts) (.array n) i vs ⟨buf, indent + opts.indentSize⟩ =
      ⟨buf ++ printValues g opts (indent + opts.indentSize) vs ++ printNewline opts indent ++
        printClosing opts 93, indent⟩
  | [], n, i, buf, indent, h0, hn => by
      have hi : n = i := hn.symm
      subst hi
      rw [walkValues, serializeVisit, serializeContainer_close h0]
      simp [printValues]
  | v :: vs, n, i, buf, indent, h0, hn => by
      have hlt : i < n := by rw [List.length_cons] at hn; omega
      rw [walkValues, serializeVisit, serializeContainer_comma h0 hlt, walkValue_serialize v,
        walkValues_serialize vs (Nat.succ_pos i) (by rw [List.length_cons] at hn; omega)]
      simp [printValues, List.append_assoc]

theorem walkEntries_serialize : ∀ (es : List (Bytes × JsonValue)) {names : List Bytes} {i : Nat}
    {buf : Bytes} {indent : Nat}, 0 < i → i + es.length = names.length →
    names.drop i = es.map Prod.fst →
    walkEntries (serializeVisit g opts) (.object names) i es ⟨buf, indent + opts.indentSize⟩ =
      ⟨buf ++ printEntries g opts (indent + opts.indentSize) es ++ printNewline opts indent ++
        printClosing opts 125, indent⟩
  | [], names, i, buf, indent, h0, hn, _ => by
      have hi : i = names.length := hn
      subst hi
      have hnone : names[names.length]? = none := List.getElem?_eq_none le_rfl
      rw [walkEntries, serializeVisit, serializeContainer_close h0]
      simp only [hnone, printEntries, List.append_nil]
  | (name, v) :: es, names, i, buf, indent, h0, hn, hdrop => by
      have hlt : i < names.length := by rw [List.length_cons] at hn; omega
      have hname : names[i]? = some name := by
        rw [← List.head?_drop, hdrop, List.map_cons, List.head?_cons]
      have hdrop' : names.drop (i + 1) = es.map Prod.fst := by
        rw [← List.tail_drop, hdrop, List.map_cons, List.tail_cons]
      rw [walkEntries, walkEntry, serializeVisit, serializeContainer_comma h0 hlt]
      simp only [hname, Output.put]
      rw [walkValue_serialize v, walkEntries_serialize es (Nat.succ_pos i)
        (by rw [List.length_cons] at hn; omega) hdrop']
      simp [printEntries, printEntry, List.append_assoc]

end

end Serialize

/-! ## What is measured -/

theorem serializeNat_length (n : Nat) : (serializeNat n).length = measureDigits n := by
  induction n using Nat.strongRecOn with
  | _ n ih =>
    by_cases hn : 10 ≤ n
    · rw [serializeNat_ge hn, measureDigits, if_pos hn, List.length_append, List.length_singleton,
        ih (n / 10) (Nat.div_lt_self (by omega) (by decide))]
    · rw [serializeNat_lt (by omega), measureDigits, if_neg hn, List.length_singleton]

theorem serializeInteger_length (n : Int) : (serializeInteger n).length = measureInteger n := by
  unfold serializeInteger measureInteger
  split_ifs
  · rw [List.length_cons, serializeNat_length, Nat.add_comm]
  · rw [serializeNat_length, Nat.zero_add]

section Slack

variable (g : Bytes → Bytes) (opts : SerializeOpts)

/-- What `MEASURE_NEWLINE` counts too much. -/
def lineSlack : Nat := if opts.mode = .multiline then opts.indentSize else 0

mutual

/-- What `json_measure_ex` counts too much: an indent for every line
break, and the room for `.0`. -/
def slack : JsonValue → Nat
  | .object [] => 0
  | .object (e :: es) => lineSlack opts + slackEntry e + slackEntries es + lineSlack opts
  | .array [] => 0
  | .array (v :: vs) => lineSlack opts + slack v + slackValues vs + lineSlack opts
  | .double text => (g text).length + 2 - (printDouble (g text)).length
  | .integer _ | .string _ | .boolean _ | .null => 0

def slackEntry : Bytes × JsonValue → Nat
  | (_, v) => slack v

def slackEntries : List (Bytes × JsonValue) → Nat
  | [] => 0
  | e :: es => lineSlack opts + slackEntry e + slackEntries es

def slackValues : List JsonValue → Nat
  | [] => 0
  | v :: vs => lineSlack opts + slack v + slackValues vs

end

end Slack

section Measuring

variable {g : Bytes → Bytes} {opts : SerializeOpts}

/-- The walk has measured `n` bytes more, and is at the depth `d`. -/
structure Measures (opts : SerializeOpts) (m : Measure) (d n : Nat) (m' : Measure) : Prop where
  depth : m'.depth = d
  result : m'.result opts = m.result opts + n

theorem Measures.trans {m m' m'' : Measure} {d d' n n' : Nat} (h : Measures opts m d n m')
    (h' : Measures opts m' d' n' m'') : Measures opts m d' (n + n') m'' :=
  ⟨h'.depth, by rw [h'.result, h.result, Nat.add_assoc]⟩

theorem Measures.of_eq {m m' : Measure} {d n n' : Nat} (h : Measures opts m d n m')
    (hn : n = n') : Measures opts m d n' m' := hn ▸ h

theorem measures_add (m : Measure) (n : Nat) : Measures opts m m.depth n (m.add n) := by
  refine ⟨rfl, ?_⟩
  unfold Measure.result Measure.add
  split_ifs <;> dsimp only
  all_goals omega

theorem measures_deeper (m : Measure) : Measures opts m (m.depth + 1) 0 m.deeper :=
  ⟨rfl, rfl⟩

theorem measures_shallower (opts : SerializeOpts) (m : Measure) : Measures opts m (m.depth - 1) 0 m.shallower :=
  ⟨rfl, rfl⟩

theorem measures_newline (opts : SerializeOpts) (m : Measure) :
    Measures opts m m.depth
      ((printNewline opts (m.depth * opts.indentSize)).length + lineSlack opts) m.newline := by
  refine ⟨rfl, ?_⟩
  unfold Measure.result Measure.newline printNewline lineSlack
  by_cases h : opts.mode = .multiline
  · cases opts.crlf
    all_goals simp only [if_pos h, List.length_append, List.length_replicate, if_true, if_false,
      List.length_cons, List.length_nil, Bool.false_eq_true]
    all_goals ring
  · simp only [if_neg h, List.length_nil, Nat.add_zero]

theorem printOpening_length (c : UInt8) :
    (printOpening opts c).length = (getSerializeFlags opts).bracketSize := by
  unfold printOpening SerializeFlags.bracketSize
  split_ifs <;> rfl

theorem printClosing_length (c : UInt8) :
    (printClosing opts c).length = (getSerializeFlags opts).bracketSize := by
  unfold printClosing SerializeFlags.bracketSize
  split_ifs <;> rfl

theorem printComma_length : (printComma opts).length = (getSerializeFlags opts).commaSize := by
  unfold printComma SerializeFlags.commaSize
  split_ifs <;> rfl

theorem printName_length (name : Bytes) : (printName opts name).length =
    2 + (getSerializeFlags opts).colonSize + measureString name := by
  unfold printName SerializeFlags.colonSize
  simp only [List.cons_append, List.length_cons, List.length_append, length_serializeString]
  split_ifs <;> simp only [List.length_cons, List.length_nil] <;> omega

theorem printDouble_length (text : Bytes) : (printDouble text).length ≤ text.length + 2 := by
  unfold printDouble
  split_ifs
  · rw [List.length_replace]
    omega
  · rw [List.length_append]
    rfl
  · omega

theorem measureContainer_open (opts : SerializeOpts) (c : UInt8) {n : Nat} (hn : 0 < n) (m : Measure) :
    Measures opts m (m.depth + 1)
      ((printOpening opts c).length +
        ((printNewline opts ((m.depth + 1) * opts.indentSize)).length + lineSlack opts))
      (measureContainer (getSerializeFlags opts) n 0 m) := by
  have hne : 0 ≠ n := by omega
  have hrun : measureContainer (getSerializeFlags opts) n 0 m =
      (m.add (getSerializeFlags opts).bracketSize).deeper.newline := by
    simp [measureContainer, hn.ne', hne]
  rw [hrun, printOpening_length]
  exact ((measures_add m _).trans (measures_deeper _)).trans (measures_newline opts _)

theorem measureContainer_comma (opts : SerializeOpts) {n i : Nat} (h0 : 0 < i) (hi : i < n) (m : Measure) :
    Measures opts m m.depth
      ((printComma opts).length +
        ((printNewline opts (m.depth * opts.indentSize)).length + lineSlack opts))
      (measureContainer (getSerializeFlags opts) n i m) := by
  have hrun : measureContainer (getSerializeFlags opts) n i m =
      (m.add (getSerializeFlags opts).commaSize).newline := by
    simp [measureContainer, h0, h0.ne', hi.ne]
  rw [hrun, printComma_length]
  exact (measures_add m _).trans (measures_newline opts _)

theorem measureContainer_close (c : UInt8) {n d : Nat} (h0 : 0 < n) {m : Measure}
    (hd : m.depth = d + 1) :
    Measures opts m d
      ((printNewline opts (d * opts.indentSize)).length + lineSlack opts +
        (printClosing opts c).length)
      (measureContainer (getSerializeFlags opts) n n m) := by
  have hrun : measureContainer (getSerializeFlags opts) n n m =
      m.shallower.newline.add (getSerializeFlags opts).bracketSize := by
    simp [measureContainer, h0.ne']
  have hshallow : m.shallower.depth = d := by
    rw [(measures_shallower opts m).depth, hd, Nat.add_sub_cancel]
  have h := (measures_newline opts m.shallower).trans
    (measures_add _ (getSerializeFlags opts).bracketSize)
  rw [hshallow] at h
  rw [hrun, printClosing_length]
  exact ⟨hshallow, h.result⟩

theorem measures_name (opts : SerializeOpts) (m : Measure) (name : Bytes) :
    Measures opts m m.depth (printName opts name).length
      (measureName (getSerializeFlags opts) name m) := by
  rw [printName_length]
  exact (measures_add m _).trans (measures_add _ _)

mutual

/-- The walk of `json_measure_ex` over a value measures its text, and
the slack. -/
theorem walkValue_measure : ∀ (v : JsonValue) (m : Measure),
    Measures opts m m.depth
      ((printValue g opts (m.depth * opts.indentSize) v).length + slack g opts v)
      (walkValue (measureVisit g (getSerializeFlags opts)) v m)
  | .object [], m => measures_add m 2
  | .object ((name, v) :: es), m => by
      have hopen := measureContainer_open opts 123
        (n := (name :: es.map Prod.fst).length) (by simp) m
      have hname := measures_name opts
        (measureContainer (getSerializeFlags opts) (name :: es.map Prod.fst).length 0 m) name
      have hv := walkValue_measure v (measureName (getSerializeFlags opts) name
        (measureContainer (getSerializeFlags opts) (name :: es.map Prod.fst).length 0 m))
      have hes := @walkEntries_measure es (name :: es.map Prod.fst) 1 m.depth _
        (by decide) (by simp [Nat.add_comm]) rfl (hv.depth.trans (hname.depth.trans hopen.depth))
      rw [hname.depth, hopen.depth] at hv
      refine (((hopen.trans hname).trans hv).trans hes).of_eq ?_
      simp only [printValue, printEntry, slack, slackEntry, List.length_append, Nat.succ_mul]
      omega
  | .array [], m => measures_add m 2
  | .array (v :: vs), m => by
      have hopen := measureContainer_open opts 91 (n := (v :: vs).length) (by simp) m
      have hv := walkValue_measure v
        (measureContainer (getSerializeFlags opts) (v :: vs).length 0 m)
      have hvs := walkValues_measure vs (n := (v :: vs).length) (i := 1) (d := m.depth)
        (by decide) (by simp [Nat.add_comm]) (hv.depth.trans hopen.depth)
      rw [hopen.depth] at hv
      refine ((hopen.trans hv).trans hvs).of_eq ?_
      simp only [printValue, slack, List.length_append, Nat.succ_mul]
      omega
  | .integer n, m => by
      refine (measures_add m (measureInteger n)).of_eq ?_
      rw [printValue, slack, serializeInteger_length]
      rfl
  | .double text, m => by
      refine ((measures_add m (g text).length).trans (measures_add _ 2)).of_eq ?_
      have hle := printDouble_length (g text)
      rw [printValue, slack]
      omega
  | .string s, m => by
      refine ((measures_add m 2).trans (measures_add _ (measureString s))).of_eq ?_
      rw [printValue, slack, List.cons_append, List.length_cons, List.length_append,
        length_serializeString, List.length_singleton]
      omega
  | .boolean true, m => measures_add m 4
  | .boolean false, m => measures_add m 5
  | .null, m => measures_add m 4

/-- The walk from the first comma on. -/
theorem walkValues_measure : ∀ (vs : List JsonValue) {n i d : Nat} {m : Measure},
    0 < i → i + vs.length = n → m.depth = d + 1 →
    Measures opts m d
      ((printValues g opts ((d + 1) * opts.indentSize) vs).length + slackValues g opts vs +
        ((printNewline opts (d * opts.indentSize)).length + lineSlack opts +
          (printClosing opts 93).length))
      (walkValues (measureVisit g (getSerializeFlags opts)) (.array n) i vs m)
  | [], n, i, d, m, h0, hn, hd => by
      have hi : n = i := hn.symm
      subst hi
      exact (measureContainer_close 93 h0 hd).of_eq (by simp [printValues, slackValues])
  | v :: vs, n, i, d, m, h0, hn, hd => by
      have hlen : i + (vs.length + 1) = n := hn
      have hcomma := measureContainer_comma opts h0 (by omega : i < n) m
      have hv := walkValue_measure v (measureContainer (getSerializeFlags opts) n i m)
      have hvs := walkValues_measure vs (n := n) (i := i + 1) (Nat.succ_pos i) (by omega)
        (hv.depth.trans (hcomma.depth.trans hd))
      rw [hcomma.depth, hd] at hv
      rw [hd] at hcomma
      refine ((hcomma.trans hv).trans hvs).of_eq ?_
      simp only [printValues, slackValues, List.length_append]
      omega

theorem walkEntries_measure : ∀ (es : List (Bytes × JsonValue)) {names : List Bytes} {i d : Nat}
    {m : Measure}, 0 < i → i + es.length = names.length → names.drop i = es.map Prod.fst →
    m.depth = d + 1 →
    Measures opts m d
      ((printEntries g opts ((d + 1) * opts.indentSize) es).length + slackEntries g opts es +
        ((printNewline opts (d * opts.indentSize)).length + lineSlack opts +
          (printClosing opts 125).length))
      (walkEntries (measureVisit g (getSerializeFlags opts)) (.object names) i es m)
  | [], names, i, d, m, h0, hn, _, hd => by
      have hi : i = names.length := hn
      subst hi
      have hnone : names[names.length]? = none := List.getElem?_eq_none le_rfl
      rw [walkEntries, measureVisit]
      simp only [hnone]
      exact (measureContainer_close 125 h0 hd).of_eq (by simp [printEntries, slackEntries])
  | (name, v) :: es, names, i, d, m, h0, hn, hdrop, hd => by
      have hlen : i + (es.length + 1) = names.length := hn
      have hget : names[i]? = some name := by
        rw [← List.head?_drop, hdrop, List.map_cons, List.head?_cons]
      have hdrop' : names.drop (i + 1) = es.map Prod.fst := by
        rw [← List.tail_drop, hdrop, List.map_cons, List.tail_cons]
      have hcomma := measureContainer_comma opts h0 (by omega : i < names.length) m
      have hname := measures_name opts
        (measureContainer (getSerializeFlags opts) names.length i m) name
      have hv := walkValue_measure v (measureName (getSerializeFlags opts) name
        (measureContainer (getSerializeFlags opts) names.length i m))
      have hes := @walkEntries_measure es names (i + 1) d _ (Nat.succ_pos i)
        (by omega) hdrop' (hv.depth.trans (hname.depth.trans (hcomma.depth.trans hd)))
      rw [hname.depth, hcomma.depth, hd] at hv
      rw [hd] at hcomma
      rw [walkEntries, walkEntry, measureVisit]
      simp only [hget]
      refine (((hcomma.trans hname).trans hv).trans hes).of_eq ?_
      simp only [printEntries, printEntry, slackEntries, slackEntry, List.length_append]
      omega

end

end Measuring

/-! ## The loops -/

section Loops

variable {g : Bytes → Bytes} {opts : SerializeOpts} {mem : JsonMemory} {count : Nat → Nat}
  {a : Nat} {v : JsonValue} {as : List Nat}

/-- `json_serialize_ex` ends, with the text of the value, and
`length_iterated` is again what it was. -/
theorem jsonSerializeEx_eq (g : Bytes → Bytes) (opts : SerializeOpts) (h : Holds mem none a v as) (h0 : ∀ b ∈ as, count b = 0) :
    ∃ visits, ∀ fuel, visits ≤ fuel →
      jsonSerializeEx g opts mem count a fuel = some (printValue g opts 0 v, count) := by
  obtain ⟨es, hspans, heval⟩ := h.spans
  refine ⟨es.length, fun fuel hfuel => ?_⟩
  have hwalk := hspans.walk_clear (mem.visit (serializeVisit g opts)) ⟨[], 0⟩ h0
  rw [heval, walkValue_serialize, List.nil_append] at hwalk
  simp only [jsonSerializeEx, Walk.steps_of_le _ _ _ _ hwalk rfl hfuel, if_true]

/-- `json_measure_ex` ends, with the size of the text, the terminator
and the slack, and `length_iterated` is again what it was. -/
theorem jsonMeasureEx_eq (g : Bytes → Bytes) (opts : SerializeOpts) (h : Holds mem none a v as) (h0 : ∀ b ∈ as, count b = 0) :
    ∃ visits, ∀ fuel, visits ≤ fuel →
      jsonMeasureEx g opts mem count a fuel =
        some ((printValue g opts 0 v).length + 1 + slack g opts v, count) := by
  obtain ⟨es, hspans, heval⟩ := h.spans
  refine ⟨es.length, fun fuel hfuel => ?_⟩
  have hwalk := hspans.walk_clear (mem.visit (measureVisit g (getSerializeFlags opts)))
    ⟨1, 0, 0, 0⟩ h0
  have hstart : Measure.result opts ⟨1, 0, 0, 0⟩ = 1 := by
    unfold Measure.result
    split_ifs <;> simp
  have hresult := (@walkValue_measure g opts v ⟨1, 0, 0, 0⟩).result
  rw [hstart, Nat.zero_mul] at hresult
  rw [heval] at hwalk
  simp only [jsonMeasureEx, Walk.steps_of_le _ _ _ _ hwalk rfl hfuel, if_true, hresult]
  refine congrArg (fun n => some (n, count)) ?_
  omega

end Loops

/-! ## The default options -/

section Default

variable (g : Bytes → Bytes)

mutual

/-- With the default options the loop prints what `jsonSerialize`
says. -/
theorem printValue_default (indent : Nat) : ∀ v : JsonValue, Plain v →
    printValue g defaultOpts indent v = jsonSerialize v
  | .object [], _ => by simp [printValue, jsonSerialize, ascii]
  | .object (e :: es), h => by
      have he := printEntry_default (indent + defaultOpts.indentSize) e h.1
      have hes := printEntries_default (indent + defaultOpts.indentSize) es h.2
      rw [printValue, jsonSerialize, he, hes]
      simp [printOpening, printClosing, printNewline, getSerializeFlags, defaultOpts, ascii]
  | .array [], _ => by simp [printValue, jsonSerialize, ascii]
  | .array (v :: vs), h => by
      have hv := printValue_default (indent + defaultOpts.indentSize) v h.1
      have hvs := printValues_default (indent + defaultOpts.indentSize) vs h.2
      rw [printValue, jsonSerialize, hv, hvs]
      simp [printOpening, printClosing, printNewline, getSerializeFlags, defaultOpts, ascii]
  | .integer n, _ => by rw [printValue, jsonSerialize]
  | .double _, h => h.elim
  | .string s, _ => by rw [printValue, jsonSerialize]
  | .boolean true, _ => by rw [printValue, jsonSerialize]; rfl
  | .boolean false, _ => by rw [printValue, jsonSerialize]; rfl
  | .null, _ => by rw [printValue, jsonSerialize]

theorem printEntry_default (indent : Nat) : ∀ e : Bytes × JsonValue, PlainEntry e →
    printEntry g defaultOpts indent e = serializeEntry e
  | (name, v), h => by
      have hv := printValue_default indent v h.2
      rw [printEntry, serializeEntry, hv]
      simp [printName, getSerializeFlags, defaultOpts]

theorem printEntries_default (indent : Nat) : ∀ es : List (Bytes × JsonValue), PlainEntries es →
    printEntries g defaultOpts indent es = serializeEntries es
  | [], _ => rfl
  | e :: es, h => by
      have he := printEntry_default indent e h.1
      have hes := printEntries_default indent es h.2
      rw [printEntries, serializeEntries, he, hes]
      simp [printComma, printNewline, getSerializeFlags, defaultOpts, ascii]

theorem printValues_default (indent : Nat) : ∀ vs : List JsonValue, PlainValues vs →
    printValues g defaultOpts indent vs = serializeValues vs
  | [], _ => rfl
  | v :: vs, h => by
      have hv := printValue_default indent v h.1
      have hvs := printValues_default indent vs h.2
      rw [printValues, serializeValues, hv, hvs]
      simp [printComma, printNewline, getSerializeFlags, defaultOpts, ascii]

end

mutual

/-- On a line there is no slack without doubles. -/
theorem slack_line {opts : SerializeOpts} (hline : lineSlack opts = 0) : ∀ v : JsonValue, Plain v →
    slack g opts v = 0
  | .object [], _ => rfl
  | .object (e :: es), h => by
      rw [slack, slackEntry_line hline e h.1, slackEntries_line hline es h.2, hline]
  | .array [], _ => rfl
  | .array (v :: vs), h => by
      rw [slack, slack_line hline v h.1, slackValues_line hline vs h.2, hline]
  | .integer _, _ => rfl
  | .double _, h => h.elim
  | .string _, _ => rfl
  | .boolean _, _ => rfl
  | .null, _ => rfl

theorem slackEntry_line {opts : SerializeOpts} (hline : lineSlack opts = 0) :
    ∀ e : Bytes × JsonValue, PlainEntry e → slackEntry g opts e = 0
  | (_, v), h => slack_line hline v h.2

theorem slackEntries_line {opts : SerializeOpts} (hline : lineSlack opts = 0) :
    ∀ es : List (Bytes × JsonValue), PlainEntries es → slackEntries g opts es = 0
  | [], _ => rfl
  | e :: es, h => by
      rw [slackEntries, slackEntry_line hline e h.1, slackEntries_line hline es h.2, hline]

theorem slackValues_line {opts : SerializeOpts} (hline : lineSlack opts = 0) :
    ∀ vs : List JsonValue, PlainValues vs → slackValues g opts vs = 0
  | [], _ => rfl
  | v :: vs, h => by
      rw [slackValues, slack_line hline v h.1, slackValues_line hline vs h.2, hline]

end

mutual

theorem length_jsonSerialize : ∀ v : JsonValue, Plain v →
    (jsonSerialize v).length = measureValue v
  | .object [], _ => rfl
  | .object (e :: es), h => by
      have he := length_serializeEntry e h.1
      have hes := length_serializeEntries es h.2
      simp [jsonSerialize, measureValue, ascii]
      omega
  | .array [], _ => rfl
  | .array (v :: vs), h => by
      have hv := length_jsonSerialize v h.1
      have hvs := length_serializeValues vs h.2
      simp [jsonSerialize, measureValue, ascii]
      omega
  | .integer n, _ => by rw [jsonSerialize, measureValue]
  | .double _, h => h.elim
  | .string s, _ => by
      simp [jsonSerialize, measureValue, length_serializeString]
      omega
  | .boolean true, _ => rfl
  | .boolean false, _ => rfl
  | .null, _ => rfl

theorem length_serializeEntry : ∀ e : Bytes × JsonValue, PlainEntry e →
    (serializeEntry e).length = measureEntry e
  | (name, v), h => by
      have hv := length_jsonSerialize v h.2
      simp [serializeEntry, measureEntry, length_serializeString]
      omega

theorem length_serializeEntries : ∀ es : List (Bytes × JsonValue), PlainEntries es →
    (serializeEntries es).length = measureEntries es
  | [], _ => rfl
  | e :: es, h => by
      have he := length_serializeEntry e h.1
      have hes := length_serializeEntries es h.2
      simp [serializeEntries, measureEntries, ascii]
      omega

theorem length_serializeValues : ∀ vs : List JsonValue, PlainValues vs →
    (serializeValues vs).length = measureValues vs
  | [], _ => rfl
  | v :: vs, h => by
      have hv := length_jsonSerialize v h.1
      have hvs := length_serializeValues vs h.2
      simp [serializeValues, measureValues, ascii]
      omega

end

variable {mem : JsonMemory} {count : Nat → Nat} {a : Nat} {v : JsonValue} {as : List Nat}

/-- `json_serialize` and `json_measure`, as the rest of this development
has them. -/
theorem jsonSerializeEx_default (h : Holds mem none a v as) (h0 : ∀ b ∈ as, count b = 0)
    (hv : Plain v) :
    ∃ visits, ∀ fuel, visits ≤ fuel →
      jsonMeasureEx g defaultOpts mem count a fuel = some (jsonMeasure v, count) ∧
      jsonSerializeEx g defaultOpts mem count a fuel = some (jsonSerialize v, count) := by
  obtain ⟨m, hm⟩ := jsonMeasureEx_eq g defaultOpts h h0
  obtain ⟨n, hn⟩ := jsonSerializeEx_eq g defaultOpts h h0
  rw [printValue_default g 0 v hv] at hm hn
  rw [slack_line g rfl v hv, length_jsonSerialize v hv] at hm
  exact ⟨max m n, fun fuel hfuel =>
    ⟨hm fuel (le_trans (le_max_left _ _) hfuel), hn fuel (le_trans (le_max_right _ _) hfuel)⟩⟩

end Default

end Pyoneer.Shared
