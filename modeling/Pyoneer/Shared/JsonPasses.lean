/-
Pyoneer.Shared.JsonPasses — the two passes of `json_parse_ex`.

The loop of `json_parse_ex` reads the text twice. The first pass
allocates the `json_value`s, a list in the order of their first bytes
(`next_alloc`), and counts in each how much room its children or its
characters need. The second pass takes the values from that list again,
allocates exactly that room, and fills it without looking at the size.

The loop is one definition, `Pass.run`, over the operations that
differ between the passes. `firstPass` and `secondPass` are the
operations; a write behind the room that was measured, or a value where
the list is at its end, is `none` in the second.

`Parser` of `JsonParse` is the loop with the tree that it has in mind
in place of the memory; `run_firstPass` says that the first pass is
that loop, and that the memory it leaves is the layout of the value.
-/
import Pyoneer.Shared.JsonCompare
import Pyoneer.Shared.JsonMemory
import Pyoneer.Shared.JsonParse

namespace Pyoneer.Shared

/-! ## The loop -/

/-- What the loop does to the values under construction. -/
structure PassOps (M : Type) where
  /-- `state.first_pass`. -/
  first : Bool
  /-- `top->type`. -/
  topType : M → Option JsonType
  /-- `top->parent->type`. -/
  parentType : M → Option JsonType
  /-- `new_value`; the value says what is known of it at once. -/
  newValue : JsonValue → M → Option M
  /-- Bytes of the string at `string`, so many of which are there. -/
  add : Nat → Bytes → M → Option M
  /-- The quote, where `top` is a string. -/
  endString : Nat → M → Option M
  /-- The quote, where `top` is an object. -/
  endName : Nat → M → Option M
  /-- The end of a number. -/
  setNumber : JsonValue → M → M
  /-- The value goes to its parent, which is `top` then. -/
  attach : M → Option M

/-- Where the loop is, as in `ParsePc`, with `string_length` in place of
the bytes. `skip` is the `while` over the characters of a number in the
second pass. -/
inductive PassPc where
  | seek (needComma needColon : Bool)
  | object (needComma : Bool)
  | string (length : Nat)
  | escaped (length : Nat)
  | hex (length u k : Nat) (first : Option Nat)
  | pair (length u : Nat) (slash : Bool)
  | literal (rest : Bytes) (v : JsonValue)
  | number (n : Number)
  | skip
  | done

structure Pass (M : Type) where
  mem : M
  pc : PassPc

/-- The characters that the second pass takes for those of a number. -/
def isNumeric (b : UInt8) : Bool :=
  isDigit b || b == 43 || b == 45 || b == 101 || b == 69 || b == 46

namespace Pass

variable {M : Type} (ops : PassOps M)

/-- `flag_next`. -/
def next (mem : M) : Option (Pass M) :=
  match ops.parentType mem with
  | none => some ⟨mem, .done⟩
  | some .array => (ops.attach mem).map (⟨·, .seek true false⟩)
  | some _ => (ops.attach mem).map (⟨·, .object true⟩)

/-- Characters of a string. -/
def addBytes (mem : M) (length : Nat) (bytes : Bytes) : Option (Pass M) :=
  (ops.add length bytes mem).map (⟨·, .string (length + bytes.length)⟩)

/-- The quote that ends a string. -/
def closeString (mem : M) (length : Nat) : Option (Pass M) :=
  match ops.topType mem with
  | some .string => (ops.endString length mem).bind (next ops)
  | some .object => (ops.endName length mem).map (⟨·, .seek false true⟩)
  | _ => none

/-- The first byte of a value. -/
def openValue (mem : M) (b : UInt8) : Option (Pass M) :=
  if b = 123 then (ops.newValue (.object []) mem).map (⟨·, .object false⟩)
  else if b = 91 then (ops.newValue (.array []) mem).map (⟨·, .seek false false⟩)
  else if b = 34 then (ops.newValue (.string []) mem).map (⟨·, .string 0⟩)
  else if b = 116 then some ⟨mem, .literal (ascii "rue") (.boolean true)⟩
  else if b = 102 then some ⟨mem, .literal (ascii "alse") (.boolean false)⟩
  else if b = 110 then some ⟨mem, .literal (ascii "ull") .null⟩
  else if b = 45 ∨ isDigit b then
    (ops.newValue (.integer 0) mem).bind fun mem =>
      if ops.first then
        if b = 45 then some ⟨mem, .number (.start true [b])⟩
        else
          match (Number.start false []).step b with
          | .more n => some ⟨mem, .number n⟩
          | _ => none
      else some ⟨mem, .skip⟩
  else none

/-- `flag_seek_value`. -/
def feedSeek (mem : M) (needComma needColon : Bool) (b : UInt8) : Option (Pass M) :=
  if isWhitespace b then some ⟨mem, .seek needComma needColon⟩
  else if b = 93 then (if ops.topType mem = some .array then next ops mem else none)
  else if needComma then (if b = 44 then some ⟨mem, .seek false needColon⟩ else none)
  else if needColon then (if b = 58 then some ⟨mem, .seek false false⟩ else none)
  else openValue ops mem b

/-- In an object, before a name. -/
def feedObject (mem : M) (needComma : Bool) (b : UInt8) : Option (Pass M) :=
  if isWhitespace b then some ⟨mem, .object needComma⟩
  else if b = 34 then (if needComma then none else some ⟨mem, .string 0⟩)
  else if b = 125 then next ops mem
  else if b = 44 ∧ needComma then some ⟨mem, .object false⟩
  else none

/-- A digit of a `\u` escape. -/
def feedHex (mem : M) (length u k : Nat) (first : Option Nat) (b : UInt8) : Option (Pass M) :=
  match hexValue b, k with
  | none, _ => none
  | some d, k + 1 => some ⟨mem, .hex length (u * 16 + d) k first⟩
  | some d, 0 =>
    let u := u * 16 + d
    match first with
    | some v => addBytes ops mem length (encodeUchar (pairUchar v u))
    | none =>
      if isSurrogate u then some ⟨mem, .pair length u false⟩
      else addBytes ops mem length (encodeUchar u)

/-- One byte, not NUL, where no number is open. -/
def feedPlain (mem : M) (pc : PassPc) (b : UInt8) : Option (Pass M) :=
  match pc with
  | .seek needComma needColon => feedSeek ops mem needComma needColon b
  | .object needComma => feedObject ops mem needComma b
  | .string length =>
    if b = 92 then some ⟨mem, .escaped length⟩
    else if b = 34 then closeString ops mem length
    else addBytes ops mem length [b]
  | .escaped length =>
    if b = 117 then some ⟨mem, .hex length 0 3 none⟩
    else addBytes ops mem length [unescape b]
  | .hex length u k first => feedHex ops mem length u k first b
  | .pair length u false => if b = 92 then some ⟨mem, .pair length u true⟩ else none
  | .pair length u true => if b = 117 then some ⟨mem, .hex length 0 3 (some u)⟩ else none
  | .literal [] _ => none
  | .literal [c] v => if b = c then (ops.newValue v mem).bind (next ops) else none
  | .literal (c :: rest) v => if b = c then some ⟨mem, .literal rest v⟩ else none
  | .number _ => none
  | .skip => none
  | .done => if isWhitespace b then some ⟨mem, .done⟩ else none

/-- One byte, not NUL. The byte that ends a number is looked at again. -/
def feed (p : Pass M) (b : UInt8) : Option (Pass M) :=
  match p.pc with
  | .number n =>
    match n.step b with
    | .more n => some ⟨p.mem, .number n⟩
    | .ends v => (next ops (ops.setNumber v p.mem)).bind fun p => feedPlain ops p.mem p.pc b
    | .fails => none
  | .skip =>
    if isNumeric b then some ⟨p.mem, .skip⟩
    else (next ops p.mem).bind fun p => feedPlain ops p.mem p.pc b
  | pc => feedPlain ops p.mem pc b

/-- The root, where the text ends after a number. -/
def endRoot (mem : M) : Option M :=
  match ops.parentType mem with
  | none => some mem
  | some _ => none

/-- `b` is `0`. The memory is the one that the pass ends with. -/
def atEnd (p : Pass M) : Option M :=
  match p.pc with
  | .done => some p.mem
  | .number n =>
    match n.step 0 with
    | .ends v => endRoot ops (ops.setNumber v p.mem)
    | _ => none
  | .skip => endRoot ops p.mem
  | _ => none

/-- The loop over the text. -/
def run (p : Pass M) : Bytes → Option M
  | [] => atEnd ops p
  | b :: bs =>
    if b = 0 then atEnd ops p
    else
      match feed ops p b with
      | some p => run p bs
      | none => none

end Pass

/-! ## The first pass -/

/-- `type` and `u` in the first pass: of a container the `length` and
the bytes that its names take, of a string the `length`. -/
inductive Measured where
  | object (length names : Nat)
  | array (length : Nat)
  | string (length : Nat)
  | integer (n : Int)
  | double (text : Bytes)
  | boolean (b : Bool)
  | null
  deriving DecidableEq, Repr

/-- A `json_value` after the first pass. -/
structure MeasuredCell where
  parent : Option Nat
  payload : Measured
  deriving DecidableEq, Repr

def Measured.type : Measured → JsonType
  | .object .. => .object
  | .array .. => .array
  | .string .. => .string
  | .integer .. => .integer
  | .double .. => .double
  | .boolean .. => .boolean
  | .null => .null

/-- A new value. -/
def Measured.new : JsonValue → Measured
  | .object _ => .object 0 0
  | .array _ => .array 0
  | .string _ => .string 0
  | .integer n => .integer n
  | .double text => .double text
  | .boolean b => .boolean b
  | .null => .null

/-- The values in the order of `next_alloc`, and `top`. -/
structure FirstMem where
  cells : List MeasuredCell
  top : Option Nat
  deriving DecidableEq, Repr

namespace FirstMem

def cell (mem : FirstMem) : Option MeasuredCell := mem.top.bind fun a => mem.cells[a]?

def parent (mem : FirstMem) : Option Nat := mem.cell.bind MeasuredCell.parent

/-- A change of the value at `top`. -/
def update (mem : FirstMem) (f : Measured → Measured) : FirstMem :=
  { mem with cells := mem.top.elim mem.cells fun a =>
      mem.cells.modify a fun c => { c with payload := f c.payload } }

/-- `++top->parent->u.array.length`, which is `u.object.length` as
well. -/
def count : Measured → Measured
  | .object length names => .object (length + 1) names
  | .array length => .array (length + 1)
  | m => m

/-- `chars[0] += string_length + 1`. -/
def countName (size : Nat) : Measured → Measured
  | .object length names => .object length (names + (size + 1))
  | m => m

end FirstMem

def firstPass : PassOps FirstMem where
  first := true
  topType mem := mem.cell.map fun c => c.payload.type
  parentType mem := (mem.parent.bind fun a => mem.cells[a]?).map fun c => c.payload.type
  newValue v mem :=
    some ⟨mem.cells ++ [⟨mem.top, .new v⟩], some mem.cells.length⟩
  add _ _ mem := some mem
  endString length mem := some (mem.update fun _ => .string length)
  endName length mem := some (mem.update (FirstMem.countName length))
  setNumber v mem := mem.update fun _ => .new v
  attach mem := some (FirstMem.update { mem with top := mem.parent } FirstMem.count)

/-! ## The second pass -/

/-- `type` and `u` in the second pass. `room` is what was allocated,
`used` are the bytes of the names before `object_mem`, and `name` are the
bytes there. -/
inductive Built where
  | object (room nameRoom used : Nat) (name : Bytes) (entries : List (Bytes × Nat))
  | array (room : Nat) (elements : List Nat)
  | string (room : Nat) (s : Bytes)
  | integer (n : Int)
  | double (text : Bytes)
  | boolean (b : Bool)
  | null
  deriving DecidableEq, Repr

structure BuiltCell where
  parent : Option Nat
  payload : Built
  deriving DecidableEq, Repr

def Built.type : Built → JsonType
  | .object .. => .object
  | .array .. => .array
  | .string .. => .string
  | .integer .. => .integer
  | .double .. => .double
  | .boolean .. => .boolean
  | .null => .null

/-- What `new_value` allocates for a value. -/
def Measured.allocate : Measured → Built
  | .object length names => .object length names 0 [] []
  | .array length => .array length []
  | .string length => .string length []
  | .integer n => .integer n
  | .double text => .double text
  | .boolean b => .boolean b
  | .null => .null

/-- The values of the first pass, those of them that have been taken, and
`top`. -/
structure SecondMem where
  measured : List MeasuredCell
  built : List BuiltCell
  top : Option Nat
  deriving DecidableEq, Repr

namespace SecondMem

def cell (mem : SecondMem) : Option BuiltCell := mem.top.bind fun a => mem.built[a]?

def parent (mem : SecondMem) : Option Nat := mem.cell.bind BuiltCell.parent

/-- A change of the value at `top`, which may not be possible. -/
def update (mem : SecondMem) (f : Built → Option Built) : Option SecondMem :=
  mem.top.bind fun a => mem.built[a]?.bind fun c => (f c.payload).map fun payload =>
    { mem with built := mem.built.set a { c with payload := payload } }

/-- Bytes at `string`. The room has a byte for the NUL. -/
def write (bytes : Bytes) : Built → Option Built
  | .string room s =>
    if s.length + bytes.length ≤ room + 1 then some (.string room (s ++ bytes)) else none
  | .object room nameRoom used name entries =>
    if used + name.length + bytes.length ≤ nameRoom then
      some (.object room nameRoom used (name ++ bytes) entries)
    else none
  | _ => none

/-- The NUL of a string. -/
def terminate : Built → Option Built
  | .string room s => if s.length < room + 1 then some (.string room s) else none
  | _ => none

/-- The NUL of a name, whose entry has to be there. -/
def terminateName : Built → Option Built
  | .object room nameRoom used name entries =>
    if used + name.length < nameRoom ∧ entries.length < room then
      some (.object room nameRoom (used + name.length + 1) name entries)
    else none
  | _ => none

/-- `values[length] = top` and `++length`, and the next name begins. -/
def take (value : Nat) : Built → Option Built
  | .object room nameRoom used name entries =>
    if entries.length < room then
      some (.object room nameRoom used [] (entries ++ [(name, value)]))
    else none
  | .array room elements =>
    if elements.length < room then some (.array room (elements ++ [value])) else none
  | _ => none

end SecondMem

def secondPass : PassOps SecondMem where
  first := false
  topType mem := mem.cell.map fun c => c.payload.type
  parentType mem := (mem.parent.bind fun a => mem.built[a]?).map fun c => c.payload.type
  newValue _ mem := mem.measured[mem.built.length]?.map fun c =>
    { mem with
      built := mem.built ++ [⟨c.parent, c.payload.allocate⟩]
      top := some mem.built.length }
  add _ bytes mem := mem.update (SecondMem.write bytes)
  endString _ mem := mem.update SecondMem.terminate
  endName _ mem := mem.update SecondMem.terminateName
  setNumber _ mem := mem
  attach mem := mem.top.bind fun a =>
    SecondMem.update { mem with top := mem.parent } (SecondMem.take a)

/-- `json_parse_ex`: the values that the second pass leaves, the root
first. -/
def jsonParseEx (text : Bytes) : Option (List BuiltCell) :=
  (Pass.run firstPass ⟨⟨[], none⟩, .seek false false⟩ (skipBom text)).bind fun mem =>
    (Pass.run secondPass ⟨⟨mem.cells, [], none⟩, .seek false false⟩ (skipBom text)).map
      SecondMem.built

end Pyoneer.Shared
