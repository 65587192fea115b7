/-
Pyoneer.Cli.Worker — `cli/cmd/worker.go`: the payload of the `run`
command.

A Go string that is valid UTF-8 is the list of its characters; `utf8` is
its bytes. `json.Marshal` is modelled on the payload types: fields in
the order of the struct under their tags, `omitempty`, no white space,
and strings with the escapes for HTML that `Marshal` puts in by default.
-/
import Pyoneer.Shared.JsonBuild
import Mathlib.Data.List.DropRight

namespace Pyoneer.Cli

open Pyoneer.Shared

abbrev GoString := List Char

/-- The bytes of a string. -/
def utf8 (s : GoString) : Bytes := s.flatMap String.utf8EncodeChar

/-- `int`, on 64-bit machines. -/
def GoInt : Type := { n : Int // -2 ^ 63 ≤ n ∧ n < 2 ^ 63 }

/-! ## Task names -/

/-- `unicode.IsSpace`. -/
def isSpace (c : Char) : Bool :=
  let u := c.toNat
  (9 ≤ u && u ≤ 13) || u == 0x20 || u == 0x85 || u == 0xA0 || u == 0x1680 ||
    (0x2000 ≤ u && u ≤ 0x200A) || u == 0x2028 || u == 0x2029 || u == 0x202F || u == 0x205F ||
    u == 0x3000

/-- `strings.TrimSpace`. -/
def trimSpace (s : GoString) : GoString := (s.dropWhile isSpace).rdropWhile isSpace

/-- `parseTasks`: the names of the tasks. -/
def parseTasks (taskStr : GoString) : List GoString :=
  let taskStr := trimSpace taskStr
  if taskStr = [] then []
  else ((taskStr.splitOn ',').map trimSpace).filter fun name => name ≠ []

/-! ## Payloads -/

/-- `Job`, with the names of its tasks. -/
structure Job where
  id : GoInt
  tasks : List GoString
  parallel : Bool

/-- `CommandPayload`. -/
structure CommandPayload where
  command : GoString
  token : GoString
  workerID : GoInt
  job : Option Job

/-- The flags of `worker`. -/
structure Flags where
  token : GoString
  workerID : GoInt

/-- `newPayload`. -/
def newPayload (flags : Flags) (command : String) : CommandPayload :=
  { command := command.toList, token := flags.token, workerID := flags.workerID, job := none }

/-- `newRunCmd`, up to `sendPayload`; `none` where the id is refused. -/
def newRunCmd (flags : Flags) (jobID : GoInt) (tasksStr : GoString) (parallel : Bool) :
    Option CommandPayload :=
  if jobID.1 ≤ 0 then none
  else some { newPayload flags "run" with
    job := some { id := jobID, tasks := parseTasks tasksStr, parallel := parallel } }

/-! ## `json.Marshal` -/

/-- A digit of `hex`. -/
def hexDigit (d : Nat) : UInt8 := (Nat.digitChar d).toNat.toUInt8

/-- `\u` with four digits. -/
def unicodeEscape (u : Nat) : Bytes :=
  [92, 117, hexDigit (u / 4096 % 16), hexDigit (u / 256 % 16), hexDigit (u / 16 % 16),
    hexDigit (u % 16)]

/-- One character of a string. -/
def marshalChar (c : Char) : Bytes :=
  let u := c.toNat
  if u = 34 ∨ u = 92 then [92, u.toUInt8]
  else if u = 8 then [92, 98]
  else if u = 12 then [92, 102]
  else if u = 10 then [92, 110]
  else if u = 13 then [92, 114]
  else if u = 9 then [92, 116]
  else if u < 0x20 ∨ u = 60 ∨ u = 62 ∨ u = 38 ∨ u = 0x2028 ∨ u = 0x2029 then unicodeEscape u
  else String.utf8EncodeChar c

def marshalString (s : GoString) : Bytes := 34 :: s.flatMap marshalChar ++ [34]

/-- A field with its tag and its encoded value. -/
def marshalField : Bytes × Bytes → Bytes
  | (tag, text) => 34 :: tag ++ [34, 58] ++ text

/-- A struct, as the fields that are not omitted. -/
def marshalStruct : List (Bytes × Bytes) → Bytes
  | [] => ascii "\x7b\x7d"
  | f :: fs => 123 :: marshalField f ++ fs.flatMap (fun f => 44 :: marshalField f) ++ [125]

/-- A slice of encoded values. -/
def marshalSlice : List Bytes → Bytes
  | [] => ascii "[]"
  | text :: texts => 91 :: text ++ texts.flatMap (fun text => 44 :: text) ++ [93]

def marshalTask (name : GoString) : Bytes :=
  marshalStruct [(ascii "name", marshalString name)]

def marshalJob (job : Job) : Bytes :=
  marshalStruct <|
    (if job.id.1 = 0 then [] else [(ascii "id", serializeInteger job.id.1)]) ++
    (if job.tasks = [] then []
      else [(ascii "tasks", marshalSlice (job.tasks.map marshalTask))]) ++
    (if job.parallel then [(ascii "parallel", ascii "true")] else [])

def marshalPayload (payload : CommandPayload) : Bytes :=
  marshalStruct <|
    [(ascii "command", marshalString payload.command), (ascii "token", marshalString payload.token)] ++
    (if payload.workerID.1 = 0 then []
      else [(ascii "worker_id", serializeInteger payload.workerID.1)]) ++
    match payload.job with
    | none => []
    | some job => [(ascii "job", marshalJob job)]

/-- The bytes that `sendPayload` writes. -/
def sendPayload (payload : CommandPayload) : Bytes := marshalPayload payload ++ [10]

end Pyoneer.Cli
