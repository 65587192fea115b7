/-
Pyoneer.Main.Flags — `parse_flags` of `main.c`.

An argument is a C string: bytes without a NUL. The loop handles one
argument after the other and stops at the first that it does not know;
a flag that is given twice is written twice, so the last one counts.
What is missing is found after the loop, by the two fields that still
have the value `main` gave them.

`strtol` reads a prefix of its argument, clamps the number to `long`,
and the result is cut to `int`.
-/
import Pyoneer.Blueprint.Job
import Pyoneer.Shared.JsonParse

namespace Pyoneer.Main

open Pyoneer.Shared Pyoneer.Blueprint

/-- An argument of the command line. -/
def Arg : Type := { a : Bytes // (0 : UInt8) ∉ a }

/-! ## Numbers -/

/-- `isspace` in the C locale. -/
def isSpace (b : UInt8) : Bool := b == 32 || (9 ≤ b && b ≤ 13)

/-- The number that the leading digits spell. -/
def digitsValue (s : Bytes) : Nat :=
  (s.takeWhile isDigit).foldl (fun n b => n * 10 + digitValue b) 0

/-- The integer that a text denotes for `strtol` in base 10: white space,
a sign, and digits up to the first byte that is none; 0 without
digits. -/
def denoted (s : Bytes) : Int :=
  match s.dropWhile isSpace with
  | 45 :: s => -(digitsValue s : Int)
  | 43 :: s => digitsValue s
  | s => digitsValue s

/-- `strtol(s, NULL, 10)`: the number, clamped to `long`. -/
def strtol (s : Bytes) : Int := max (-2 ^ 63) (min (2 ^ 63 - 1) (denoted s))

/-! ## The configuration -/

/-- `PYONEER_WORKER` and `PYONEER_MANAGER`. -/
def pyoneerWorker : Int := 0

@[inherit_doc pyoneerWorker]
def pyoneerManager : Int := 1

/-- The log levels that `main` uses. -/
inductive LogLevel where
  | info | debug
  deriving DecidableEq, Repr

/-- `app_config`. -/
structure AppConfig where
  id : Int
  role : Int
  level : LogLevel
  name : Bytes
  tcpHost : Bytes
  tcpPort : Bytes
  unixPath : Option Bytes
  backlog : Int
  nworkers : Nat
  queueCapacity : Nat
  deriving DecidableEq, Repr

/-- What `main` hands to `parse_flags`, from `PYONEER_PORT` and
`PYONEER_SOCKET_PATH`. -/
def appConfigDefaults (port unixPath : Option Bytes) : AppConfig where
  id := 0
  role := -1
  level := .info
  name := ascii "pyoneer"
  tcpHost := ascii "0.0.0.0"
  tcpPort := port.getD (ascii "8080")
  unixPath := unixPath
  backlog := 256
  nworkers := 8
  queueCapacity := 128

/-- Why `parse_flags` returns -1. -/
inductive FlagError where
  | invalidArg (a : Bytes)
  | unknownRole (v : Bytes)
  | unknownFlag (a : Bytes)
  | missingRole
  | missingId
  deriving DecidableEq, Repr

/-! ## The flags -/

/-- `starts_with`. -/
def startsWith (s start : Bytes) : Bool := start.isPrefixOf s

/-- `after_prefix`. -/
def afterPrefix (s start : Bytes) : Bytes := s.drop start.length

/-- `--role=`. -/
def parseRole (v : Bytes) (cfg : AppConfig) : Except FlagError AppConfig :=
  if strcmpEq v (ascii "manager") then
    .ok { cfg with role := pyoneerManager, name := ascii "manager" }
  else if strcmpEq v (ascii "worker") then
    .ok { cfg with role := pyoneerWorker, name := ascii "worker" }
  else .error (.unknownRole v)

/-- The body of the loop of `parse_flags`. -/
def parseFlag (arg : Bytes) (cfg : AppConfig) : Except FlagError AppConfig :=
  if startsWith arg (ascii "--") = false then .error (.invalidArg arg)
  else
    let a := afterPrefix arg (ascii "--")
    if strcmpEq a (ascii "debug") then .ok { cfg with level := .debug }
    else if startsWith a (ascii "id=") then
      .ok { cfg with id := toCInt (strtol (afterPrefix a (ascii "id="))) }
    else if startsWith a (ascii "port=") then
      .ok { cfg with tcpPort := afterPrefix a (ascii "port=") }
    else if startsWith a (ascii "host=") then
      .ok { cfg with tcpHost := afterPrefix a (ascii "host=") }
    else if startsWith a (ascii "unix=") then
      .ok { cfg with unixPath := some (afterPrefix a (ascii "unix=")) }
    else if startsWith a (ascii "role=") then parseRole (afterPrefix a (ascii "role=")) cfg
    else .error (.unknownFlag a)

/-- The loop. -/
def parseArgs : List Arg → AppConfig → Except FlagError AppConfig
  | [], cfg => .ok cfg
  | a :: args, cfg =>
    match parseFlag a.1 cfg with
    | .ok cfg => parseArgs args cfg
    | .error e => .error e

/-- `parse_flags`; `argv[0]` is the program. -/
def parseFlags (argv : List Arg) (cfg : AppConfig) : Except FlagError AppConfig :=
  match parseArgs argv.tail cfg with
  | .error e => .error e
  | .ok cfg =>
    if cfg.role < 0 then .error .missingRole
    else if cfg.id = 0 then .error .missingId
    else .ok cfg

/-! ## What the command line says -/

/-- The value of an argument that is the flag `name=`, with its two
dashes. -/
def flagValue (name : Bytes) (a : Arg) : Option Bytes :=
  if startsWith a.1 (ascii "--" ++ name) then some (afterPrefix a.1 (ascii "--" ++ name)) else none

/-- The value of the last flag of that name. -/
def lastFlag (name : Bytes) (args : List Arg) : Option Bytes :=
  (args.filterMap (flagValue name)).getLast?

/-- The role of a name. -/
def roleNamed (v : Bytes) : Option Int :=
  if strcmpEq v (ascii "manager") then some pyoneerManager
  else if strcmpEq v (ascii "worker") then some pyoneerWorker
  else none

end Pyoneer.Main
