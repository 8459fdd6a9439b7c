import Wu.Lsp.Framing
import Wu.Lsp.Outgoing

/-!
# Requests to a language server

Callers register a handler for the answer to a request, queue the request for the writer, and wait for the answer or for a timer. A
reader takes messages from what the server writes: it queues notifications and requests for a dispatcher, and hands a response to its
handler. When the dispatcher or the writer ends, the handlers are dropped.
-/

namespace Wu.Lsp

inductive RequestId where
  | int (id : Int32)
  | str (id : String)
  deriving DecidableEq

/-- An incoming notification or request. -/
structure NotificationOrRequest where
  id : Option RequestId
  method : String
  params : Option String

structure ResponseError where
  code : Int
  message : String
  data : Option String

/-- An incoming response, with its result as it stands. -/
structure AnyResponse where
  id : RequestId
  error : Option ResponseError
  result : Option String

/-- What a body stands for, as JSON. -/
structure Serde where
  notificationOrRequest : List UInt8 → Option NotificationOrRequest
  anyResponse : List UInt8 → Option AnyResponse

/-- How the result of a request is read. -/
structure ResultType (V : Type) where
  isUnit : Bool
  fromStr : String → Except String V

/-- `deserialize_result`. -/
def ResultType.deserializeResult {V : Type} (resultType : ResultType V) (result : String) : Except String V :=
  if resultType.isUnit then resultType.fromStr "null" else resultType.fromStr result

/-- What the handler of a request makes of a response. -/
def ResultType.answer {V : Type} (resultType : ResultType V) (response : AnyResponse) : Except String V :=
  match response.error with
  | some error => .error error.message
  | none =>
    match resultType.deserializeResult (response.result.getD "null") with
    | .ok value => .ok value
    | .error _ => .error "failed to deserialize response"

/-- How a request ends. -/
inductive ConnectionResult (V : Type) where
  | timeout
  | connectionReset
  | result (result : Except String V)

/-- The future of a request. -/
structure LspRequest (V : Type) where
  id : Int32
  resultType : ResultType V
  /-- Whether there was a map of handlers to put the handler into. -/
  registered : Bool
  /-- Whether the message could be queued, once that has been tried. -/
  sent : Option Bool
  /-- What the handler has sent to the future. -/
  received : Option (Except String V)
  outcome : Option (ConnectionResult V)
  /-- How many responses had been handed to handlers when the request was registered. -/
  responsesBefore : Nat

/-- What the reader of stdout is at. It waits for the queue of the dispatcher, and for the task that reads a result. -/
inductive Reader where
  | reading
  | offering (message : NotificationOrRequest)
  | flushing
  | answering (request : Nat) (response : AnyResponse)
  | stopped

structure LanguageServer (V : Type) where
  /-- What has arrived from the server and has not been read. -/
  input : List UInt8
  eof : Bool
  reader : Reader
  /-- The queue between the reader and the dispatcher. -/
  incoming : List NotificationOrRequest
  dispatcherOver : Bool
  responseHandlers : Option (RequestId → Option Nat)
  requests : Nat → LspRequest V
  nextId : Nat
  outgoing : Outgoing
  /-- All that has arrived from the server. -/
  arrived : List UInt8
  /-- The bodies that have been read. -/
  bodies : List (List UInt8)
  /-- The responses that have been looked up. -/
  responses : List AnyResponse
  /-- The notifications and requests that the dispatcher has taken. -/
  dispatched : List NotificationOrRequest

namespace LanguageServer

variable {V : Type}

/-- The message of a request, with the parameters that matter here left out. -/
def requestMessage (id : Int32) (method params : String) : Message := .request id.toInt method params

def cancelMessage (id : Int32) : Message := .notification "$/cancelRequest" (toString id.toInt)

def new (requests : Nat → LspRequest V) : LanguageServer V where
  input := []
  eof := false
  reader := .reading
  incoming := []
  dispatcherOver := false
  responseHandlers := some fun _ => none
  requests := requests
  nextId := 0
  outgoing := .new
  arrived := []
  bodies := []
  responses := []
  dispatched := []

variable (server : LanguageServer V)

def setRequest (request : Nat) (value : LspRequest V) : LanguageServer V :=
  { server with requests := Function.update server.requests request value }

/-- `AtomicI32::fetch_add`, and the handler is inserted if there is a map of handlers. -/
def register (resultType : ResultType V) : LanguageServer V :=
  let id := Int32.ofNat server.nextId
  { server with
    nextId := server.nextId + 1
    responseHandlers := server.responseHandlers.map fun handlers => Function.update handlers (.int id) (some server.nextId)
    requests := Function.update server.requests server.nextId {
      id
      resultType
      registered := server.responseHandlers.isSome
      sent := none
      received := none
      outcome := none
      responsesBefore := server.responses.length } }

/-- The message of a request is queued for the writer. -/
def send (request : Nat) (method params : String) : LanguageServer V :=
  let value := server.requests request
  match server.outgoing.trySend (requestMessage value.id method params) with
  | some outgoing => { server with outgoing }.setRequest request { value with sent := some true }
  | none => server.setRequest request { value with sent := some false }

/-- What the reader does with a body. -/
def handleBody (serde : Serde) (body : List UInt8) : LanguageServer V :=
  match serde.notificationOrRequest body with
  | some message => { server with reader := .offering message }
  | none =>
    match serde.anyResponse body with
    | some response =>
      let handler := server.responseHandlers.bind fun handlers => handlers response.id
      { server with
        responseHandlers := server.responseHandlers.map fun handlers => Function.update handlers response.id none
        responses := server.responses ++ [response]
        reader := match handler with
          | some request => .answering request response
          | none => .reading }
    | none =>
      -- the warning shows the body as text
      match fromUtf8 body with
      | some _ => server
      | none => { server with reader := .stopped }

/-- The reader takes the next message. -/
def read (serde : Serde) : LanguageServer V :=
  match readMessage server.eof server.input with
  | .done body rest => { server with input := rest, bodies := server.bodies ++ [body] }.handleBody serde body
  | .failed => { server with reader := .stopped }
  | .pending => server

/-- The reader puts a message into the queue of the dispatcher. -/
def offer : LanguageServer V :=
  match server.reader with
  | .offering message =>
    if server.dispatcherOver then { server with reader := .stopped }
    else { server with incoming := server.incoming ++ [message], reader := .flushing }
  | _ => server

/-- The task that reads a result sends it to the future of its request. -/
def deserialize : LanguageServer V :=
  match server.reader with
  | .answering request response =>
    let value := server.requests request
    { server.setRequest request { value with received := some (value.resultType.answer response) } with reader := .reading }
  | _ => server

/-- The dispatcher takes a message. -/
def dispatch : LanguageServer V :=
  match server.incoming with
  | message :: rest => { server with incoming := rest, dispatched := server.dispatched ++ [message] }
  | [] => server

/-- Whether the handler of a request is there, or its task. -/
def Answerable (request : Nat) : Prop :=
  (∃ handlers, server.responseHandlers = some handlers ∧ handlers (.int (server.requests request).id) = some request) ∨
    ∃ response, server.reader = .answering request response

/-- The future of a request is ready for another reason than its timer. The sender of the answer has been dropped when the request is
not answerable. -/
inductive Ready (request : Nat) : ConnectionResult V → Prop
  | notRegistered : (server.requests request).registered = false → Ready request (.result (.error "server shut down"))
  | notSent : (server.requests request).registered = true → (server.requests request).sent = some false →
      Ready request (.result (.error "failed to write to language server's stdin"))
  | received {answer : Except String V} : (server.requests request).registered = true →
      (server.requests request).sent = some true → (server.requests request).received = some answer →
      Ready request (.result answer)
  | canceled : (server.requests request).registered = true → (server.requests request).sent = some true →
      (server.requests request).received = none → ¬ server.Answerable request → Ready request .connectionReset

/-- The timer of a request is over. Its guard queues the cancellation. -/
def expire (request : Nat) : LanguageServer V :=
  let value := server.requests request
  let message := cancelMessage value.id
  let outgoing := (server.outgoing.notify message).getD server.outgoing
  match server.responseHandlers with
  | some handlers =>
    { server with
      responseHandlers := some (Function.update handlers (.int value.id) none)
      outgoing }.setRequest request { value with outcome := some .timeout }
  | none =>
    { server with outgoing }.setRequest request { value with outcome := some (.result (.error "server shut down")) }

inductive Move (V : Type) where
  | register (resultType : ResultType V)
  | send (request : Nat) (method params : String)
  | finish (request : Nat) (result : ConnectionResult V)
  | expire (request : Nat)
  | arrive (piece : List UInt8)
  | close
  | read
  | offer
  | flush
  | deserialize
  | dispatch
  | dispatcherEnds
  | notify (method params : String)
  | outgoing (move : Outgoing.Move)

/-- A step that needs no message from the server, no caller and no timer. -/
def Move.isInner : Move V → Bool
  | send .. | finish .. | read | offer | flush | deserialize | dispatch | dispatcherEnds => true
  | _ => false

def apply (serde : Serde) : Move V → LanguageServer V
  | .register resultType => server.register resultType
  | .send request method params => server.send request method params
  | .finish request result => server.setRequest request { server.requests request with outcome := some result }
  | .expire request => server.expire request
  | .arrive piece => { server with input := server.input ++ piece, arrived := server.arrived ++ piece }
  | .close => { server with eof := true }
  | .read => server.read serde
  | .offer => server.offer
  | .flush => { server with reader := .reading }
  | .deserialize => server.deserialize
  | .dispatch => server.dispatch
  | .dispatcherEnds => { server with dispatcherOver := true, responseHandlers := none }
  | .notify method params =>
    { server with outgoing := (server.outgoing.notify (.notification method params)).getD server.outgoing }
  | .outgoing .writeFails => { server with outgoing := server.outgoing.writeFails, responseHandlers := none }
  | .outgoing move => { server with outgoing := server.outgoing.apply move }

/-- Whether a request has been made and has not ended. -/
def Waiting (request : Nat) : Prop := request < server.nextId ∧ (server.requests request).outcome = none

/-- When a move can be made. The reader goes on from a message that it has put into the queue when the queue is not over its
capacity. -/
def Allowed (capacity : Nat) : Move V → Prop
  | .register _ => True
  | .send request _ _ => server.Waiting request ∧ (server.requests request).sent = none
  | .finish request result =>
    server.Waiting request ∧ (server.requests request).sent ≠ none ∧ server.Ready request result
  | .expire request =>
    server.Waiting request ∧ (server.requests request).registered = true ∧ (server.requests request).sent = some true
  | .arrive _ | .close => server.eof = false
  | .read => server.reader = .reading ∧ readMessage server.eof server.input ≠ .pending
  | .offer => (∃ message, server.reader = .offering message) ∧ server.incoming.length ≤ capacity
  | .flush => server.reader = .flushing ∧ server.incoming.length ≤ capacity
  | .deserialize => ∃ request response, server.reader = .answering request response
  | .dispatch => server.dispatcherOver = false ∧ server.incoming ≠ []
  | .dispatcherEnds => server.dispatcherOver = false ∧ server.incoming = [] ∧ server.reader = .stopped
  | .notify .. => True
  | .outgoing move => move.isTask = true ∧ server.outgoing.Allowed move

/-- A body that is neither a message nor text does not come. -/
def Careful (serde : Serde) : Move V → Prop
  | .read => ∀ body rest, readMessage server.eof server.input = .done body rest →
    serde.notificationOrRequest body = none → serde.anyResponse body = none → fromUtf8 body ≠ none
  | _ => True

/-- The states that are reached by moves that meet a condition. -/
inductive Reach (serde : Serde) (capacity : Nat) (condition : LanguageServer V → Move V → Prop) : LanguageServer V → Prop
  | start (requests : Nat → LspRequest V) : Reach serde capacity condition (.new requests)
  | move {server : LanguageServer V} (move : Move V) : Reach serde capacity condition server →
      server.Allowed capacity move → condition server move → Reach serde capacity condition (server.apply serde move)

/-! ## What the server and the callers may rely on -/

/-- The reader or the writer has ended. -/
def Ended : Prop := server.reader = .stopped ∨ server.outgoing.writerOver = true

/-- Whatever the inner steps are, the request ends, and no message has to come for it. -/
inductive Settles (serde : Serde) (capacity : Nat) (request : Nat) : LanguageServer V → Prop
  | ended {server : LanguageServer V} : (server.requests request).outcome ≠ none → Settles serde capacity request server
  | step {server : LanguageServer V} : (∃ move : Move V, move.isInner = true ∧ server.Allowed capacity move) →
      (∀ move : Move V, move.isInner = true → server.Allowed capacity move →
        Settles serde capacity request (server.apply serde move)) → Settles serde capacity request server

/-- The first of the responses with an id. -/
def firstResponse (id : Int32) (responses : List AnyResponse) : Option AnyResponse :=
  responses.find? fun response => response.id = .int id

/-- The messages among bodies that have been read. -/
def messages (serde : Serde) (bodies : List (List UInt8)) : List NotificationOrRequest :=
  bodies.filterMap serde.notificationOrRequest

/-- What a state shows of the messages and the requests. The bodies are those of the messages that were framed. A request ends with the
first response with its id that comes after it was registered, or for another reason, and once. Messages are dispatched in their order,
and all of them. When the reader or the writer has ended, no request waits for ever. -/
structure Exact (serde : Serde) (capacity : Nat) : Prop where
  framed : Framed server.arrived server.bodies server.input
  all : server.reader = .stopped ∨ (server.reader = .reading ∧ ¬ server.Allowed capacity .read) → ∀ header body more,
    IsHeader header body.length → server.input ≠ header ++ body ++ more
  answered : ∀ request < server.nextId, ∀ result, (server.requests request).outcome = some (.result result) →
    result = .error "server shut down" ∨ result = .error "failed to write to language server's stdin" ∨
      ∃ response, firstResponse (server.requests request).id
        (server.responses.drop (server.requests request).responsesBefore) = some response ∧
        result = (server.requests request).resultType.answer response
  canceled : ∀ request < server.nextId, (server.requests request).outcome = some .timeout →
    cancelMessage (server.requests request).id ∈ server.outgoing.issued
  once : ∀ move, server.Allowed capacity move → ∀ request < server.nextId, ∀ outcome,
    (server.requests request).outcome = some outcome → ((server.apply serde move).requests request).outcome = some outcome
  inOrder : server.dispatched <+: messages serde server.bodies
  delivered : (∀ move : Move V, move.isInner = true → ¬ server.Allowed capacity move) →
    server.dispatched = messages serde server.bodies
  settles : server.Ended → ∀ request < server.nextId, server.Settles serde capacity request

end LanguageServer

end Wu.Lsp
