import Mathlib.Data.List.Basic

/-!
# Two parties that exchange messages over a link that breaks

A party takes an id for a message, notes the last id that it has received, keeps the message in its buffer and puts it on the link,
each in a step of its own. What is acknowledged leaves the buffer. After a break the client asks for what the peer has buffered, and
sends what it has buffered itself.
-/

namespace Wu.Remote

/-- What an envelope holds. Responses and what is asked for are messages alike. -/
inductive Payload where
  | remoteStarted
  | flushBufferedMessages
  | ack
  | message
  deriving DecidableEq

structure Envelope where
  id : Nat
  ackId : Option Nat
  respondingTo : Option Nat
  payload : Payload
  deriving DecidableEq

/-- The ids of the messages among envelopes. -/
def messageIds (envelopes : List Envelope) : List Nat :=
  (envelopes.filter fun envelope => envelope.payload = .message).map Envelope.id

/-- How far an envelope is that is being sent: its id is taken, the last received id is noted, or it is ready for the link. -/
inductive Stage where
  | taken
  | loaded
  | ready
  deriving DecidableEq

structure Sending where
  envelope : Envelope
  stage : Stage
  deriving DecidableEq

/-- The client's resync: it waits for the answer to its request, or has it. -/
inductive Resync where
  | idle
  | waiting (id : Nat)
  | answered
  deriving DecidableEq

/-- A party. `taken`, `pushed` and `dispatched` are records that nothing reads: the ids that were taken for messages, the messages
that were put into the buffer, and those that were handed to the dispatch. -/
structure ChannelClient where
  nextMessageId : Nat
  maxReceived : Nat
  buffer : List Envelope
  sending : List Sending
  resync : Resync
  taken : List Nat
  pushed : List Nat
  dispatched : List Nat

namespace ChannelClient

def new : ChannelClient where
  nextMessageId := 0
  maxReceived := 0
  buffer := []
  sending := []
  resync := .idle
  taken := []
  pushed := []
  dispatched := []

/-- Take an id for an envelope. -/
def start (self : ChannelClient) (payload : Payload) (respondingTo : Option Nat) (stage : Stage) : ChannelClient :=
  let envelope := { id := self.nextMessageId, ackId := none, respondingTo, payload : Envelope }
  { self with
    nextMessageId := self.nextMessageId + 1
    sending := self.sending ++ [{ envelope, stage }]
    taken := if payload = .message then self.taken ++ [self.nextMessageId] else self.taken }

/-- Note the last received id in an envelope. Only messages go into the buffer. -/
def load (self : ChannelClient) (sending : Sending) : ChannelClient :=
  let stage := if sending.envelope.payload = .message then Stage.loaded else .ready
  let envelope := { sending.envelope with ackId := some self.maxReceived }
  { self with sending := self.sending.erase sending ++ [{ envelope, stage }] }

/-- Put a message into the buffer. -/
def push (self : ChannelClient) (sending : Sending) : ChannelClient :=
  { self with
    buffer := self.buffer ++ [sending.envelope]
    sending := self.sending.erase sending ++ [{ sending with stage := .ready }]
    pushed := self.pushed ++ [sending.envelope.id] }

/-- What an acknowledgement names leaves the buffer. -/
def acknowledge (self : ChannelClient) (ackId : Option Nat) : ChannelClient :=
  match ackId with
  | none => self
  | some ackId => { self with buffer := self.buffer.dropWhile fun message => message.id ≤ ackId }

/-- The answer to the client's request lets its resync go on. -/
def respond (self : ChannelClient) (respondingTo : Option Nat) : ChannelClient :=
  match respondingTo, self.resync with
  | some request, .waiting id => if request = id then { self with resync := .answered } else self
  | _, _ => self

/-- Take an envelope of the other party: what is sent back at once is what was buffered. -/
def handle (self : ChannelClient) (incoming : Envelope) : ChannelClient × List Envelope :=
  let self := self.acknowledge incoming.ackId
  match incoming.payload with
  | .flushBufferedMessages => (self.start .ack (some incoming.id) .ready, self.buffer)
  | .remoteStarted => (self.start .ack (some incoming.id) .ready, [])
  | .ack => ({ self with maxReceived := incoming.id }.respond incoming.respondingTo, [])
  | .message =>
    let self := { self with maxReceived := incoming.id }.respond incoming.respondingTo
    ({ self with dispatched := self.dispatched ++ [incoming.id] }, [])

end ChannelClient

/-! ## Both parties -/

inductive Side where
  | client
  | peer
  deriving DecidableEq

def Side.other : Side → Side
  | client => peer
  | peer => client

/-- How far the client is since the last break: it has called for no resync, for one that is under way, or one has completed. -/
inductive Phase where
  | broken
  | resyncing
  | complete
  deriving DecidableEq

/-- The parties, what each has under way to the other, and whether there is a link. `phase` is a record that nothing reads. -/
structure System where
  parties : Side → ChannelClient
  links : Side → List Envelope
  up : Bool
  phase : Phase

def Envelope.started : Envelope where
  id := 0
  ackId := none
  respondingTo := none
  payload := .remoteStarted

inductive Move where
  | start (side : Side) (respondingTo : Option Nat)
  | load (side : Side) (sending : Sending)
  | push (side : Side) (sending : Sending)
  | queue (side : Side) (sending : Sending)
  | deliver (side : Side)
  | break
  | reconnect
  | resync
  | replay
  | timeout

namespace System

/-- Both parties have started. -/
def new : System where
  parties := fun _ => .new
  links := fun _ => [.started]
  up := true
  phase := .complete

def setParty (system : System) (side : Side) (party : ChannelClient) : System :=
  { system with parties := Function.update system.parties side party }

/-- Put envelopes on the link. Without one they are lost. -/
def send (system : System) (side : Side) (envelopes : List Envelope) : System :=
  if system.up then { system with links := Function.update system.links side (system.links side ++ envelopes) } else system

/-- A party takes the next envelope of the other. -/
def deliver (system : System) (side : Side) : System :=
  match system.links side.other with
  | [] => system
  | incoming :: rest =>
    let (party, envelopes) := (system.parties side).handle incoming
    ({ system with links := Function.update system.links side.other rest }.setParty side party).send side envelopes

/-- The client starts over on a fresh link. -/
def reconnect (system : System) : System :=
  { system with
    up := true
    links := fun side => if side = .client then [.started] else [] }

/-- The client asks for what the peer has buffered. -/
def resync (system : System) : System :=
  let client := system.parties .client
  let client := { client with resync := .waiting client.nextMessageId }.start .flushBufferedMessages none .taken
  { system.setParty .client client with phase := .resyncing }

/-- The client has its answer and sends what it has buffered. -/
def replay (system : System) : System :=
  let client := system.parties .client
  let system := (system.setParty .client { client with resync := .idle }).send .client client.buffer
  { system with phase := if system.phase = .broken then .broken else .complete }

def apply (system : System) : Move → System
  | .start side respondingTo => system.setParty side ((system.parties side).start .message respondingTo .taken)
  | .load side sending => system.setParty side ((system.parties side).load sending)
  | .push side sending => system.setParty side ((system.parties side).push sending)
  | .queue side sending =>
    let party := system.parties side
    (system.setParty side { party with sending := party.sending.erase sending }).send side [sending.envelope]
  | .deliver side => system.deliver side
  | .break => { system with up := false, links := fun _ => [], phase := .broken }
  | .reconnect => system.reconnect
  | .resync => system.resync
  | .replay => system.replay
  | .timeout => system.setParty .client { system.parties .client with resync := .idle }

/-- The moves that the parties and the link can make. -/
def Allowed (system : System) : Move → Prop
  | .start _ _ => True
  | .load side sending => sending ∈ (system.parties side).sending ∧ sending.stage = .taken
  | .push side sending => sending ∈ (system.parties side).sending ∧ sending.stage = .loaded
  | .queue side sending => sending ∈ (system.parties side).sending ∧ sending.stage = .ready
  | .deliver side => system.up = true ∧ system.links side.other ≠ []
  | .break => system.up = true
  | .reconnect => system.up = false
  | .resync => system.up = true ∧ (system.parties .client).resync = .idle
  | .replay => (system.parties .client).resync = .answered
  | .timeout => (system.parties .client).resync ≠ .idle

/-! ## When messages are not reordered, doubled or lost -/

/-- A message of a party has been received, or is on the link. -/
def Arrives (system : System) (side : Side) (id : Nat) : Prop :=
  id ∈ (system.parties side.other).dispatched ∨ id ∈ messageIds (system.links side)

/-- The envelopes that a party is sending, has buffered, or has on the link. -/
def Holds (system : System) (side : Side) (envelope : Envelope) : Prop :=
  (∃ sending ∈ (system.parties side).sending, sending.envelope = envelope) ∨
    envelope ∈ (system.parties side).buffer ∨ envelope ∈ system.links side

/-- An id is taken that nobody has acknowledged. The last received id is noted when every message up to it was received. Messages
go into the buffer in the order of their ids, and on the link once, after those before. What is sent again has not been received
and is not on the link. -/
def Careful (system : System) : Move → Prop
  | .start side _ => ∀ envelope, system.Holds side.other envelope → ∀ ackId, envelope.ackId = some ackId →
    ackId < (system.parties side).nextMessageId
  | .load side _ => ∀ id ∈ (system.parties side.other).taken, id ≤ (system.parties side).maxReceived →
    id ∈ (system.parties side).dispatched
  | .push side sending => ∀ other ∈ (system.parties side).sending, other.envelope.payload = .message → other.stage ≠ .ready →
    sending.envelope.id ≤ other.envelope.id
  | .queue side sending => sending.envelope.payload = .message → system.up = true →
    ¬ system.Arrives side sending.envelope.id ∧ ∀ message ∈ (system.parties side).buffer,
      message.id < sending.envelope.id → system.Arrives side message.id
  | .deliver side => ∀ incoming ∈ (system.links side.other).head?, incoming.payload = .flushBufferedMessages →
    ∀ message ∈ ((system.parties side).acknowledge incoming.ackId).buffer, ¬ system.Arrives side message.id
  | .replay => system.up = true → ∀ message ∈ (system.parties .client).buffer, ¬ system.Arrives .client message.id
  | _ => True

/-- The states that are reached by moves that meet a condition. -/
inductive Reach (condition : System → Move → Prop) : System → Prop
  | start : Reach condition .new
  | move {system : System} (move : Move) : Reach condition system → system.Allowed move → condition system move →
      Reach condition (system.apply move)

end System

end Wu.Remote
