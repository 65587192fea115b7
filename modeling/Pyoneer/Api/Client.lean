/-
Pyoneer.Api.Client — `client_handle_fd` of `api/client.c`, with the
wrappers of `pyoneer/pyoneer.c` that it calls through.

What the handler decides before it calls the worker is a function of the
request text (`clientDecide`): either a reply, or a call. A call runs on
the worker step by step, while the other clients and the job threads
move; `Handler` is the worker with all its clients and one of them, the
one whose connections are followed here, inside `client_handle_fd`. The
others make any calls at any time, so that the worker can be in any
state that it can reach when a request is received.

`json_object_push(resp, "pyoneer", status)` dereferences `status`: with
NULL the process is gone (`crashed`). Logging and the addresses of the
peers are left out.
-/
import Pyoneer.Shared.JsonParse
import Pyoneer.Shared.JsonBuild
import Pyoneer.Runtime.Worker

namespace Pyoneer.Api

open Pyoneer.Lib Pyoneer.Shared Pyoneer.Blueprint Pyoneer.Runtime

/-- The errors of the API (`ERR_INTERNAL` … `ERR_TOKEN`). -/
inductive ApiErr where
  | internal | shuttingDown | cmd | blueprint | signal | jsonParse | jsonType | jsonMissing | token
  deriving DecidableEq, Repr

/-- `API_ERR_MSG`. -/
def apiErrMsg : ApiErr → Bytes
  | .internal => ascii "API: internal error"
  | .shuttingDown => ascii "API: shutting down"
  | .cmd => ascii "API: command error"
  | .blueprint => ascii "API: blueprint error"
  | .signal => ascii "API: signal error"
  | .jsonParse => ascii "API: invalid JSON payload"
  | .jsonType => ascii "API: invalid JSON type"
  | .jsonMissing => ascii "API: missing JSON value"
  | .token => ascii "API: invalid token"

/-- `BUFLEN`. -/
def bufLen : Nat := 4096

/-- What one `recv` stores. -/
def Received : Type := { text : Bytes // 0 < text.length ∧ text.length ≤ bufLen }

/-! ## Requests -/

/-- Which allocations succeed while a request is looked at: of the
response, of the parsed tree, of the blueprint. -/
structure Memory where
  resp : Bool
  parse : Bool
  blueprint : Bool
  deriving DecidableEq, Repr

/-- Nothing fails. -/
def Memory.enough : Memory := { resp := true, parse := true, blueprint := true }

/-- What the handler does with a request: it sends the text for a
response that could not be allocated, it sends an error, or it calls. -/
inductive Decision where
  | noResponse
  | error (e : ApiErr)
  | call (r : Request)

/-- `pyoneer_blueprint_decode`, of a worker. -/
def pyoneerBlueprintDecode (m : Memory) (req : JsonValue) : Option Decoded :=
  match jsonObjectGetValue req (ascii "job") with
  | none => none
  | some obj =>
    match h : jobDecode obj with
    | some job => if m.blueprint then some ⟨job, jobDecode_ready h⟩ else none
    | none => none

/-- `token && strcmp(tok->u.string.ptr, token) != 0`. -/
def tokenRefused (token : Option Bytes) (tok : Bytes) : Bool :=
  match token with
  | none => false
  | some t => !strcmpEq tok t

/-- The commands, in the order of the tests. -/
def runCommand (m : Memory) (req : JsonValue) (cmd : Bytes) : Decision :=
  if strcmpEq cmd (ascii "run") then
    match pyoneerBlueprintDecode m req with
    | none => .error .blueprint
    | some job => .call (.run job)
  else if strcmpEq cmd (ascii "get_status") then .call .getStatus
  else if strcmpEq cmd (ascii "assign") then
    match pyoneerBlueprintDecode m req with
    | none => .error .blueprint
    | some job => .call (.assign job)
  else if strcmpEq cmd (ascii "restart") then .call .restart
  else if strcmpEq cmd (ascii "start") then .call .start
  else if strcmpEq cmd (ascii "stop") then .call .stop
  else .error .cmd

/-- From the request text to the decision. -/
def clientDecide (token : Option Bytes) (m : Memory) (text : Bytes) : Decision :=
  if m.resp = false then .noResponse
  else if m.parse = false then .error .jsonParse
  else
    match jsonParse text with
    | none => .error .jsonParse
    | some (.object entries) =>
      match jsonObjectGetValue (.object entries) (ascii "command") with
      | some (.string cmd) =>
        match jsonObjectGetValue (.object entries) (ascii "token") with
        | some (.string tok) =>
          if tokenRefused token tok then .error .token
          else runCommand m (.object entries) cmd
        | _ => .error .jsonMissing
      | _ => .error .jsonMissing
    | some _ => .error .jsonType

/-! ## Replies -/

/-- The text for a response that is missing or too long. -/
def internalErrorText : Bytes := ascii "\x7b\"Error\":" ++ apiErrMsg .internal ++ ascii "\x7d"

/-- The bytes sent for a response. -/
def sendResp (resp : JsonValue) : Bytes :=
  cstr (if jsonMeasure resp > bufLen then internalErrorText else jsonSerialize resp)

/-- A response with an error. -/
def errorResp (e : ApiErr) : JsonValue :=
  jsonObjectPush (.object []) (ascii "Error") (.string (cstr (apiErrMsg e)))

/-- What the wrappers of `pyoneer.c` add to the status that the worker
returned; they pass NULL on. -/
def pyoneerStatus (id : Int) (status : Option JsonValue) : Option JsonValue :=
  jsonObjectPushInteger (jsonObjectPushString status (ascii "role") (ascii "worker"))
    (ascii "id") id

/-! ## Handling -/

/-- The token of the server, the id of the worker, and the client whose
requests are followed. -/
structure Config where
  token : Option Bytes
  id : Int
  client : Nat

/-- Where `client_handle_fd` is: before the first request, in a call of
the worker, after a reply, or past a NULL dereference. -/
inductive HandlerPc where
  | closed
  | calling (r : Request)
  | sent (reply : Bytes)
  | crashed
  deriving DecidableEq

/-- The worker, its clients, and the handler of one of them. -/
structure Handler where
  clients : Clients
  pc : HandlerPc

/-- What a call has returned; a command that could not take the lock has
returned NULL. -/
def CallPc.result : CallPc → Option (Option Report)
  | .idle => some none
  | .returned _ report => some report
  | _ => none

/-- The end of the handler, once the call has returned. -/
def afterCall (id : Int) (r : Request) (report : Option Report) : HandlerPc :=
  if r.isCommand then
    match pyoneerStatus id (report.map encodeReport) with
    | none => .crashed
    | some status => .sent (sendResp (jsonObjectPush (.object []) (ascii "pyoneer") status))
  else .sent (sendResp (.object []))

namespace Handler

/-- What can happen: a request is received and decided on, the worker or
one of its clients takes a step, the handler goes on after its call. -/
inductive Label where
  | recv (text : Received) (m : Memory)
  | server (l : Clients.Label)
  | reply

/-- A call of client `i`. The followed client makes the calls of its
requests, and no others. -/
def isCallOf (i : Nat) : Clients.Label → Bool
  | .call k _ => k == i
  | _ => false

/-- A request, between two connections. -/
def request (cfg : Config) (s : Handler) (text : Received) (m : Memory) : Option Handler :=
  match clientDecide cfg.token m text.1 with
  | .noResponse => some { s with pc := .sent internalErrorText }
  | .error e => some { s with pc := .sent (sendResp (errorResp e)) }
  | .call r =>
    match s.clients.step (.call cfg.client r) with
    | some clients => some { clients := clients, pc := .calling r }
    | none => none

def step (cfg : Config) (s : Handler) : Label → Option Handler
  | .recv text m =>
    match s.pc with
    | .closed | .sent _ => s.request cfg text m
    | _ => none
  | .server l =>
    match s.pc with
    | .crashed => none
    | _ =>
      if isCallOf cfg.client l then none
      else
        match s.clients.step l with
        | some clients => some { s with clients := clients }
        | none => none
  | .reply =>
    match s.pc with
    | .calling r =>
      match CallPc.result (s.clients.pcs cfg.client) with
      | some report => some { s with pc := afterCall cfg.id r report }
      | none => none
    | _ => none

/-- The server has started, with `n` clients. -/
def create (n : Nat) : Handler := { clients := .create n, pc := .closed }

end Handler

end Pyoneer.Api
