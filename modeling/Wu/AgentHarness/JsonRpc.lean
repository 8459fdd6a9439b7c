import Mathlib.Logic.Relation
import Wu.AgentHarness.Value

/-!
# The JSON-RPC client

Callers that make requests, the reader of the peer's lines, and the owner of the receiver of what is not a response. Each of
them goes on by steps, and the steps come in any order. How lines are parsed and values are printed is a parameter.
-/

namespace Wu

/-- The JSON parser and printer. -/
structure Serde where
  parse : String → Option Value
  print : Value → String

/-- What the reader hands to the owner of the receiver. -/
inductive Incoming where
  | notification (method : String) (params : Value)
  | request (id : Value) (method : String) (params : Value)
  | eof

namespace JsonRpc

/-! ## Lines -/

/-- The `i64` nearest to an integer. -/
def saturate (n : Int) : Int := max Strings.minI64 (min n Strings.maxI64)

/-- The id of a response. Servers may echo our numeric ids re-encoded as `"5"` or `5.0`. -/
def responseId (id : Value) : Option Int :=
  match id.asI64 with
  | some n => some n
  | none =>
    match id with
    | .string s => Strings.parseI64 s
    | .float x => if x.den = 1 then some (saturate x.num) else none
    | .int n => some (saturate n)
    | _ => none

variable (serde : Serde)

/-- The message of a response's error. -/
def responseError (error : Value) : String :=
  match (error.get "message").bind Value.asStr with
  | none => serde.print error
  | some message =>
    let rendered :=
      match (error.get "code").bind Value.asI64 with
      | some code => message ++ " (code " ++ toString code ++ ")"
      | none => message
    match (error.get "data").filter fun data => !data.isNull with
    | some data =>
      let detail := (data.asStr).getD (serde.print data)
      if detail.isEmpty then rendered else rendered ++ ": " ++ detail
    | none => rendered

/-- What a line is to the reader. -/
inductive Frame where
  | skipped
  | response (id : Int) (outcome : Except String Value)
  | incoming (message : Incoming)

/-- What a parsed line is to the reader. -/
def frameOf (msg : Value) : Frame :=
  if !msg.isObject || (msg.get "jsonrpc").any (fun version => !version.isString "2.0") then .skipped
  else
    match (msg.get "method").bind Value.asStr, msg.get "id" with
    | none, some id =>
      if (msg.get "result").isNone && (msg.get "error").isNone then .skipped
      else
        match responseId id with
        | none => .skipped
        | some id =>
          .response id
            (match msg.get "error" with
            | some error => .error (responseError serde error)
            | none => .ok ((msg.get "result").getD .null))
    | some method, some id => .incoming (.request id method ((msg.get "params").getD .null))
    | some method, none => .incoming (.notification method ((msg.get "params").getD .null))
    | none, none => .skipped

/-- What a line is to the reader; the line with the link to authenticate is for the observer. -/
def readLine (line : String) : Frame :=
  let line := Strings.trim line
  if (Strings.stripPrefix "Open the following link to authenticate the ACP server: " line).isSome then .skipped
  else if line.isEmpty then .skipped
  else
    match serde.parse line with
    | none => .skipped
    | some msg => frameOf serde msg

/-- A parser of two lines, for runs on fixed inputs. -/
def demoSerde : Serde where
  parse line :=
    if line = "\x7b\"method\":\"initialized\"\x7d" then some (.object [("method", .string "initialized")])
    else if line = "\x7b\"id\":\"1\",\"result\":true\x7d" then some (.object [("id", .string "1"), ("result", .bool true)])
    else none
  print _ := ""

/-! ## The state -/

/-- What has come through the channel of a request; `gone` when its sender has been dropped before. -/
inductive Slot where
  | empty
  | filled (outcome : Except String Value)
  | gone

/-- How far a caller is with a request. -/
inductive Phase where
  | called
  | registered
  | waiting
  | abandoned
  | failed (message : String)

/-- A request of a caller. -/
structure Request where
  method : String
  params : Value
  id : Int
  phase : Phase
  slot : Slot

/-- What a caller's future is ready with. -/
def Request.outcome (self : Request) : Option (Except String Value) :=
  match self.phase with
  | .failed message => some (.error (self.method ++ message))
  | .waiting =>
    match self.slot with
    | .filled (.ok result) => some (.ok result)
    | .filled (.error message) => some (.error (self.method ++ ": " ++ message))
    | .gone => some (.error (self.method ++ ": app-server exited before responding"))
    | .empty => none
  | _ => none

/-- The line of a request. -/
def Request.line (self : Request) : Value :=
  .object [("jsonrpc", .string "2.0"), ("id", .int self.id), ("method", .string self.method), ("params", self.params)]

/-- What the reader does. -/
inductive Reader where
  | reading
  | delivering (request : Nat) (outcome : Except String Value)
  | forwarding (message : Incoming)
  | closing
  | sendingEof
  | returned

/-- What is said about a run: requests that have been registered, and responses that have been read. -/
inductive Event where
  | registered (request : Nat) (id : Int)
  | response (id : Int) (outcome : Except String Value)

/-- The client, its callers, the reader and the channel of what is not a response. `log` and `gaveUp` are records of the run:
what has happened, and whether the reader has returned because the receiver was dropped. -/
structure Client where
  nextId : Int
  pending : Int → Option Nat
  closed : Bool
  writer : Bool
  lines : List Value
  requests : Nat → Option Request
  reader : Reader
  incoming : List Incoming
  receiver : Bool
  log : List Event
  gaveUp : Bool

/-- How many messages the channel holds. -/
def incomingCapacity : Nat := 256

namespace Client

/-- A new client. -/
def new : Client where
  nextId := 0
  pending _ := none
  closed := false
  writer := true
  lines := []
  requests _ := none
  reader := .reading
  incoming := []
  receiver := true
  log := []
  gaveUp := false

/-- Change a request. -/
def modify (self : Client) (request : Nat) (f : Request → Request) : Client :=
  { self with requests := Function.update self.requests request ((self.requests request).map f) }

/-- The sender of a request is dropped. -/
def dropSender (self : Client) (request : Nat) : Client :=
  self.modify request fun r => { r with slot := .gone }

/-- The entry of an id is removed, with its sender. -/
def removePending (self : Client) (id : Int) : Client :=
  match self.pending id with
  | some request => { self.dropSender request with pending := Function.update self.pending id none }
  | none => self

/-- The next id; the counter wraps around. -/
def wrappedSucc (n : Int) : Int := Int.bmod (n + 1) (2 ^ 64)

/-! ## Callers -/

/-- A caller takes an id. -/
def call (self : Client) (request : Nat) (method : String) (params : Value) : Client :=
  let id := wrappedSucc self.nextId
  { self with
    nextId := id
    requests := Function.update self.requests request (some ⟨method, params, id, .called, .empty⟩) }

/-- A caller takes the lock: the request is rejected when the client is closed, and is pending otherwise. -/
def register (self : Client) (request : Nat) (id : Int) : Client :=
  if self.closed then
    self.modify request fun r => { r with phase := .failed ": app-server exited before responding" }
  else
    let self := self.removePending id
    let self := self.modify request fun r => { r with phase := .registered }
    { self with
      pending := Function.update self.pending id (some request)
      log := self.log ++ [Event.registered request id] }

/-- A caller queues its line; without a writer the request is no longer pending. -/
def write (self : Client) (request : Nat) (r : Request) : Client :=
  if self.writer then { self.modify request fun r => { r with phase := .waiting } with lines := self.lines ++ [r.line] }
  else
    (self.removePending r.id).modify request fun r => { r with phase := .failed ": app-server stdin closed" }

/-- A caller gives up a request that is not ready. -/
def abandon (self : Client) (request : Nat) : Client := self.modify request fun r => { r with phase := .abandoned }

/-! ## The reader -/

/-- The reader reads a line. -/
def read (self : Client) (line : String) : Client :=
  match readLine serde line with
  | .skipped => self
  | .response id outcome =>
    let self := { self with log := self.log ++ [Event.response id outcome] }
    match self.pending id with
    | some request =>
      { self with pending := Function.update self.pending id none, reader := .delivering request outcome }
    | none => self
  | .incoming message => { self with reader := .forwarding message }

/-- The outcome of a response goes through the channel of its request. -/
def deliver (self : Client) (request : Nat) (outcome : Except String Value) : Client :=
  { self.modify request fun r => { r with slot := .filled outcome } with reader := .reading }

/-- The lines have ended. -/
def endLines (self : Client) : Client := { self with closed := true, reader := .closing }

/-- Nothing is pending any more. -/
def clear (self : Client) : Client :=
  { self with
    pending := fun _ => none
    requests := fun request =>
      (self.requests request).map fun r => if self.pending r.id = some request then { r with slot := .gone } else r
    reader := .sendingEof }

/-- One step of a run. -/
inductive Step (self : Client) : Client → Prop where
  | call (request : Nat) (method : String) (params : Value) (fresh : self.requests request = none) :
      Step self (self.call request method params)
  | register (request : Nat) (r : Request) (requested : self.requests request = some r) (called : r.phase = .called) :
      Step self (self.register request r.id)
  | write (request : Nat) (r : Request) (requested : self.requests request = some r) (registered : r.phase = .registered) :
      Step self (self.write request r)
  | abandon (request : Nat) (r : Request) (requested : self.requests request = some r) (waiting : r.phase = .waiting)
      (unanswered : r.outcome = none) : Step self (self.abandon request)
  | closeWriter : Step self { self with writer := false }
  | read (line : String) (reading : self.reader = .reading) : Step self (self.read serde line)
  | endLines (reading : self.reader = .reading) : Step self self.endLines
  | clear (closing : self.reader = .closing) : Step self self.clear
  | deliver (request : Nat) (outcome : Except String Value) (delivering : self.reader = .delivering request outcome) :
      Step self (self.deliver request outcome)
  | forward (message : Incoming) (forwarding : self.reader = .forwarding message) (open_ : self.receiver = true)
      (room : self.incoming.length < incomingCapacity) :
      Step self { self with incoming := self.incoming ++ [message], reader := .reading }
  | giveUp (message : Incoming) (forwarding : self.reader = .forwarding message) (dropped : self.receiver = false) :
      Step self { self with reader := .returned, gaveUp := true }
  | sendEof (sending : self.reader = .sendingEof) (open_ : self.receiver = true)
      (room : self.incoming.length < incomingCapacity) :
      Step self { self with incoming := self.incoming ++ [.eof], reader := .returned }
  | skipEof (sending : self.reader = .sendingEof) (dropped : self.receiver = false) :
      Step self { self with reader := .returned }
  | receive (message : Incoming) (messages : List Incoming) (open_ : self.receiver = true)
      (received : self.incoming = message :: messages) : Step self { self with incoming := messages }
  | dropReceiver : Step self { self with receiver := false, incoming := [] }

/-- The steps of a run, any number of them. -/
abbrev Steps : Client → Client → Prop := Relation.ReflTransGen (Step serde)

/-- The clients that a run from a new client leads to. -/
def Reachable (self : Client) : Prop := Steps serde new self

end Client

end JsonRpc

end Wu
