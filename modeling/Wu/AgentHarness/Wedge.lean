import Wu.AgentHarness.RpcRuns
import Wu.AgentHarness.Steering

/-!
# The session loop and the reader

The session waits for a response without taking what the reader forwards, and the reader does not read on while the channel
between them is full. They wait for each other when more messages than the channel holds come before the response, and only
then.
-/

namespace Wu.Codex

open List Option

open JsonRpc

/-! ## The system -/

/-- A request is made at once: its line is queued before anything else happens. -/
def requestNow (client : Client) (n : Nat) (method : String) (params : Value) : Client :=
  let called := client.call n method params
  let registered := called.register n called.nextId
  match registered.requests n with
  | some ⟨method, params, id, .registered, slot⟩ => registered.write n ⟨method, params, id, .registered, slot⟩
  | _ => registered

/-- The session, its client, and the lines of the app-server that have not been read. `awaited` is the request that the
session waits for. -/
structure System where
  client : Client
  session : Session
  unread : List String
  ended : Bool
  awaited : Option Nat

namespace System

/-- What the session has become; the request that it waits for now is made. -/
def goOn (self : System) (session : Session) (n : Nat) : System :=
  match session.phase with
  | .awaiting _ method params =>
    { self with session := session, client := requestNow self.client n method params, awaited := some n }
  | _ => { self with session := session, awaited := none }

/-- The session has been interrupted; the app-server is asked to interrupt the active turn. -/
def interruptTurn (self : System) (session : Session) (n : Nat) : System :=
  match self.session.router.active with
  | some turn =>
    { self with
      session := session
      client := requestNow self.client n "turn/interrupt"
        (.object [("threadId", .string self.session.threadId), ("turnId", .string turn)])
      awaited := none }
  | none => { self with session := session, awaited := none }

/-- A step of the reader after it has read a line, or after the end of the lines. -/
inductive ReaderStep (client : Client) : Client → Prop where
  | clear (closing : client.reader = .closing) : ReaderStep client client.clear
  | deliver (n : Nat) (outcome : Except String Value) (delivering : client.reader = .delivering n outcome) :
      ReaderStep client (client.deliver n outcome)
  | forward (message : Incoming) (forwarding : client.reader = .forwarding message) (open_ : client.receiver = true)
      (room : client.incoming.length < incomingCapacity) :
      ReaderStep client { client with incoming := client.incoming ++ [message], reader := .reading }
  | giveUp (message : Incoming) (forwarding : client.reader = .forwarding message) (dropped : client.receiver = false) :
      ReaderStep client { client with reader := .returned, gaveUp := true }
  | sendEof (sending : client.reader = .sendingEof) (open_ : client.receiver = true)
      (room : client.incoming.length < incomingCapacity) :
      ReaderStep client { client with incoming := client.incoming ++ [.eof], reader := .returned }
  | skipEof (sending : client.reader = .sendingEof) (dropped : client.receiver = false) :
      ReaderStep client { client with reader := .returned }

variable (serde : Serde) (request : RunRequest)

/-- The system when the session makes its first request. -/
def new : System :=
  goOn { client := .new, session := .new request, unread := [], ended := false, awaited := none } (.new request) 0

/-- One step of the system. -/
inductive Step (self : System) : System → Prop where
  | write (line : String) (open_ : self.ended = false) : Step self { self with unread := self.unread ++ [line] }
  | close : Step self { self with ended := true }
  | read (line : String) (rest : List String) (unread : self.unread = line :: rest)
      (reading : self.client.reader = .reading) :
      Step self { self with client := self.client.read serde line, unread := rest }
  | endLines (unread : self.unread = []) (ended : self.ended = true) (reading : self.client.reader = .reading) :
      Step self { self with client := self.client.endLines }
  | reader (client : Client) (step : ReaderStep self.client client) : Step self { self with client := client }
  | closeWriter : Step self { self with client := { self.client with writer := false } }
  | respond (await : Await) (method : String) (params : Value)
      (awaiting : self.session.phase = .awaiting await method params) (n : Nat) (awaited : self.awaited = some n)
      (r : Request) (requested : self.client.requests n = some r) (outcome : Except String Value)
      (ready : r.outcome = some outcome) (m : Nat) (fresh : self.client.requests m = none) :
      Step self (self.goOn (self.session.respond request await outcome) m)
  | receive (selecting : self.session.phase = .selecting) (message : Incoming) (messages : List Incoming)
      (received : self.client.incoming = message :: messages) (open_ : self.client.receiver = true) (talks : Bool) (m : Nat)
      (fresh : self.client.requests m = none) :
      Step self ({ self with client := { self.client with incoming := messages } }.goOn
        (self.session.incoming serde request message talks) m)
  | steer (selecting : self.session.phase = .selecting) (open_ : self.session.steeringOpen = true)
      (quiet : self.session.interrupted = false) (message : SteerMessage) (m : Nat) (fresh : self.client.requests m = none) :
      Step self (self.goOn (self.session.steer request message) m)
  | closeSteering (selecting : self.session.phase = .selecting) (open_ : self.session.steeringOpen = true)
      (quiet : self.session.interrupted = false) : Step self { self with session := self.session.closeSteering request }
  | interrupt (selecting : self.session.phase = .selecting) (once : self.session.interruptSent = false) (m : Nat)
      (fresh : self.client.requests m = none) : Step self (self.interruptTurn (self.session.interrupt request) m)
  | interruptSetup (await : Await) (method : String) (params : Value)
      (awaiting : self.session.phase = .awaiting await method params) (setup : await.isSetup = true) :
      Step self { self with session := self.session.endWith (.done .interrupted none none), awaited := none }
  | stopListening : Step self { self with session := { self.session with listening := false } }
  | unheard (selecting : self.session.phase = .selecting) (gone : self.session.listening = false) :
      Step self { self with session := self.session.finish request }
  | dropReceiver (exited : self.session.phase = .exited) :
      Step self { self with client := { self.client with receiver := false, incoming := [] } }

/-- The systems that runs lead to. -/
def Reachable : System → Prop := Relation.ReflTransGen (Step serde request) (new request)

/-! ## Waiting -/

/-- Whether a line is forwarded to the session. -/
def isForwarded (line : String) : Bool :=
  match readLine serde line with
  | .incoming _ => true
  | _ => false

/-- Whether a line is a response with an id. -/
def isResponse (id : Int) (line : String) : Bool :=
  match readLine serde line with
  | .response id' _ => id' == id
  | _ => false

/-- How many lines are forwarded before the first response with an id. -/
def forwardsBefore (id : Int) (lines : List String) : Nat :=
  ((lines.takeWhile fun line => !isResponse serde id line).filter (isForwarded serde)).length

/-- How many messages the reader has in hand. -/
def inHand (client : Client) : Nat :=
  match client.reader with
  | .forwarding _ => 1
  | _ => 0

/-- How many messages the session has to take before the reader comes to the first response with an id. -/
def backlog (self : System) (id : Int) : Nat :=
  self.client.incoming.length + inHand self.client + forwardsBefore serde id self.unread

/-- The session waits for a response with an id, which the reader has not read. -/
structure Expects (system : System) (id : Int) : Prop where
  awaiting : ∃ await method params, system.session.phase = .awaiting await method params
  pending : ∃ n r, system.awaited = some n ∧ system.client.requests n = some r ∧ r.outcome = none ∧ system.client.pending id = some n

/-- The session waits for a response that is written and not read. -/
def Owed (self : System) (id : Int) : Prop := self.Expects id ∧ self.unread.any (isResponse serde id) = true

/-- The session waits for a response that is written and not read, and the reader for the session to take a message. -/
def Wedged (self : System) : Prop :=
  ∃ id message, self.Owed serde id ∧ self.client.reader = .forwarding message ∧ self.client.receiver = true ∧
    self.client.incoming.length = incomingCapacity

/-- When a response has come to be owed by a step, no more messages are to be taken before it than the channel holds. -/
def Fits (before after : System) : Prop :=
  ∀ id, ¬before.Owed serde id → after.Owed serde id → after.backlog serde id ≤ incomingCapacity

end System

/-! ## The client of a system -/

section Client

variable {serde : Serde} {client client' : Client}

/-- What a request leaves as it is. -/
theorem requestNow_spec (client : Client) (n : Nat) (method : String) (params : Value) :
    (requestNow client n method params).reader = client.reader ∧ (requestNow client n method params).incoming = client.incoming ∧
      (requestNow client n method params).receiver = client.receiver ∧
      (requestNow client n method params).closed = client.closed ∧
      (requestNow client n method params).gaveUp = client.gaveUp := by
  have hrem : ∀ (client : Client) (id : Int), (client.removePending id).incoming = client.incoming := by
    intro client id
    unfold Client.removePending
    split <;> rfl
  have hreg : ∀ (client : Client) (id : Int), (client.register n id).reader = client.reader ∧
      (client.register n id).incoming = client.incoming ∧ (client.register n id).receiver = client.receiver ∧
      (client.register n id).closed = client.closed ∧ (client.register n id).gaveUp = client.gaveUp := by
    intro client id
    unfold Client.register
    split
    · exact ⟨rfl, rfl, rfl, rfl, rfl⟩
    · obtain ⟨-, -, hread, hclsd, hgaveU, hrecv⟩ := Client.removePending_spec _ id
      exact ⟨hread, hrem _ id, hrecv, hclsd, hgaveU⟩
  have hwri : ∀ (client : Client) (r : Request), (client.write n r).reader = client.reader ∧
      (client.write n r).incoming = client.incoming ∧ (client.write n r).receiver = client.receiver ∧
      (client.write n r).closed = client.closed ∧ (client.write n r).gaveUp = client.gaveUp := by
    intro client r
    unfold Client.write
    split
    · exact ⟨rfl, rfl, rfl, rfl, rfl⟩
    · obtain ⟨-, -, hread, hclsd, hgaveU, hrecv⟩ := Client.removePending_spec _ r.id
      exact ⟨hread, hrem _ r.id, hrecv, hclsd, hgaveU⟩
  obtain ⟨hread, hinc, hrecv, hclsd, hgaveU⟩ :=
    hreg _ _
  unfold requestNow
  dsimp only
  split
  · obtain ⟨hread', hinc', hrecv', hclsd', hgaveU'⟩ :=
      hwri _ _
    exact ⟨hread'.trans hread, hinc'.trans hinc, hrecv'.trans hrecv, hclsd'.trans hclsd, hgaveU'.trans hgaveU⟩
  · exact ⟨hread, hinc, hrecv, hclsd, hgaveU⟩

theorem requestNow_steps {n : Nat} (fresh : client.requests n = none) (method : String) (params : Value) :
    Client.Steps serde client (requestNow client n method params) := by
  have hcall : Client.Step serde client (client.call n method params) := .call n _ _ fresh
  have hreqs := Client.requests_call client n n method params
  rw [if_pos rfl] at hreqs
  have hreg : Client.Step serde (client.call n method params)
      ((client.call n method params).register n (client.call n method params).nextId) := .register n _ hreqs rfl
  have hstep := (Relation.ReflTransGen.single hcall).tail hreg
  unfold requestNow
  dsimp only
  split
  · rename_i method' params' id slot hr
    exact hstep.tail (.write n _ hr rfl)
  · exact hstep

theorem System.ReaderStep.step (h : System.ReaderStep client client') : Client.Step serde client client' := by
  cases h with
  | clear closing => exact .clear closing
  | deliver n outcome delivering => exact .deliver n _ delivering
  | forward message forwarding open_ room => exact .forward _ forwarding open_ room
  | giveUp message forwarding dropped => exact .giveUp _ forwarding dropped
  | sendEof sending open_ room => exact .sendEof sending open_ room
  | skipEof sending dropped => exact .skipEof sending dropped

end Client

namespace System

variable {serde : Serde} {request : RunRequest} {self self' : System} {id : Int}

theorem goOn_spec (self : System) (session : Session) (n : Nat) :
    (self.goOn session n).session = session ∧ (self.goOn session n).unread = self.unread ∧ (self.goOn session n).ended = self.ended ∧
      ((self.goOn session n).client = self.client ∨
        ∃ method params, (self.goOn session n).client = requestNow self.client n method params) := by
  unfold goOn
  split
  · exact ⟨rfl, rfl, rfl, .inr ⟨_, _, rfl⟩⟩
  · exact ⟨rfl, rfl, rfl, .inl rfl⟩

theorem interruptTurn_spec (self : System) (session : Session) (n : Nat) :
    (self.interruptTurn session n).session = session ∧ (self.interruptTurn session n).unread = self.unread ∧
      (self.interruptTurn session n).ended = self.ended ∧
      ((self.interruptTurn session n).client = self.client ∨
        ∃ method params, (self.interruptTurn session n).client = requestNow self.client n method params) := by
  unfold interruptTurn
  split
  · exact ⟨rfl, rfl, rfl, .inr ⟨_, _, rfl⟩⟩
  · exact ⟨rfl, rfl, rfl, .inl rfl⟩

/-! ## The invariant -/

/-- What holds in every run. -/
structure Inv (system : System) : Prop where
  client : system.client.Inv
  alive : system.session.phase ≠ .exited → system.client.receiver = true ∧ system.client.gaveUp = false
  capacity : system.client.incoming.length ≤ incomingCapacity
  closed : system.client.closed = true → system.unread = [] ∧ system.ended = true

/-- A request that is made keeps what holds. -/
theorem Inv.made (inv : Inv self) {n : Nat} (fresh : self.client.requests n = none)
    (hcli : self'.client = self.client ∨ ∃ method params, self'.client = requestNow self.client n method params)
    (hunr : self'.unread = self.unread) (hended : self'.ended = self.ended)
    (hphase : self.session.phase ≠ .exited) : Inv self' := by
  rcases hcli with h | ⟨method, params, h⟩
  · refine ⟨h ▸ inv.client, fun _ => ?_, ?_, fun hclsd => ?_⟩
    · rw [h]
      exact inv.alive hphase
    · rw [h]
      exact inv.capacity
    · rw [h] at hclsd
      rw [hunr, hended]
      exact inv.closed hclsd
  · obtain ⟨-, hinc, hrecv, hclsd', hgaveU⟩ := requestNow_spec _ n _ _
    refine ⟨?_, fun _ => ?_, ?_, fun hclsd => ?_⟩
    · have hstep : Client.Steps ⟨fun _ => none, fun _ => ""⟩ self.client (requestNow self.client n method params) :=
        requestNow_steps fresh _ _
      rw [h]
      exact inv.client.steps hstep
    · rw [h, hrecv, hgaveU]
      exact inv.alive hphase
    · rw [h, hinc]
      exact inv.capacity
    · rw [h, hclsd'] at hclsd
      rw [hunr, hended]
      exact inv.closed hclsd

theorem inv_new : Inv (new request) := by
  have inv : Inv { client := .new, session := .new request, unread := [], ended := false, awaited := none } :=
    ⟨Client.inv_new, fun _ => ⟨rfl, rfl⟩, Nat.zero_le _, nofun⟩
  obtain ⟨-, hunr, hended, hcli⟩ := goOn_spec _ _ 0
  exact inv.made rfl hcli hunr hended nofun

/-- What reading a line leaves as it is. -/
theorem read_spec (serde : Serde) (client : Client) (line : String) :
    (client.read serde line).incoming = client.incoming ∧ (client.read serde line).receiver = client.receiver ∧
      (client.read serde line).closed = client.closed ∧ (client.read serde line).gaveUp = client.gaveUp ∧
      (client.read serde line).requests = client.requests := by
  unfold Client.read
  split
  · exact ⟨rfl, rfl, rfl, rfl, rfl⟩
  · dsimp only
    split <;> exact ⟨rfl, rfl, rfl, rfl, rfl⟩
  · exact ⟨rfl, rfl, rfl, rfl, rfl⟩

theorem Inv.reader (inv : Inv self) {client : Client} (h : ReaderStep self.client client) : Inv { self with client := client } := by
  have hstep : Client.Step ⟨fun _ => none, fun _ => ""⟩ self.client client := h.step
  have hcli := inv.client.step hstep
  cases h with
  | clear closing => exact ⟨hcli, inv.alive, inv.capacity, inv.closed⟩
  | deliver n outcome delivering => exact ⟨hcli, inv.alive, inv.capacity, inv.closed⟩
  | forward message forwarding open_ room =>
    refine ⟨hcli, inv.alive, ?_, inv.closed⟩
    rw [length_append]
    exact room
  | giveUp message forwarding dropped =>
    refine ⟨hcli, fun hphase => ?_, inv.capacity, inv.closed⟩
    have := (inv.alive hphase).1
    rw [dropped] at this
    nomatch this
  | sendEof sending open_ room =>
    refine ⟨hcli, inv.alive, ?_, inv.closed⟩
    rw [length_append]
    exact room
  | skipEof sending dropped => exact ⟨hcli, inv.alive, inv.capacity, inv.closed⟩

theorem Inv.read (inv : Inv self) {line : String} {rest : List String} (hunr : self.unread = line :: rest)
    (hrdg : self.client.reader = .reading) :
    Inv { self with client := self.client.read serde line, unread := rest } := by
  obtain ⟨hinc, hrecv, hclsd', hgaveU, -⟩ := read_spec serde self.client line
  have hcli : (self.client.read serde line).Inv := inv.client.read line hrdg
  constructor
  · dsimp only
    exact hcli
  · exact fun hphase => ⟨hrecv.trans (inv.alive hphase).1, hgaveU.trans (inv.alive hphase).2⟩
  · exact (congrArg _ hinc).trans_le inv.capacity
  · intro hclsd
    have := (inv.closed (hclsd'.symm.trans hclsd)).1
    rw [hunr] at this
    nomatch this

theorem Inv.endLines (inv : Inv self) (hunr : self.unread = []) (hended : self.ended = true)
    (hrdg : self.client.reader = .reading) : Inv { self with client := self.client.endLines } := by
  have hcli : self.client.endLines.Inv := inv.client.endLines hrdg
  constructor
  · exact hcli
  · exact inv.alive
  · exact inv.capacity
  · exact fun _ => ⟨hunr, hended⟩

theorem Inv.step (inv : Inv self) (h : Step serde request self self') : Inv self' := by
  cases h with
  | write line open_ =>
    refine ⟨inv.client, inv.alive, inv.capacity, fun hclsd => ?_⟩
    have := (inv.closed hclsd).2
    rw [open_] at this
    nomatch this
  | close => exact ⟨inv.client, inv.alive, inv.capacity, fun hclsd => ⟨(inv.closed hclsd).1, rfl⟩⟩
  | read line rest unread reading =>
    exact inv.read unread reading
  | endLines unread ended reading => exact inv.endLines unread ended reading
  | reader client step => exact inv.reader step
  | closeWriter =>
    have hstep : Client.Step serde self.client { self.client with writer := false } := .closeWriter
    exact ⟨inv.client.step hstep, inv.alive, inv.capacity, inv.closed⟩
  | respond await method params awaiting n awaited r requested outcome ready m fresh =>
    obtain ⟨-, hunr, hended, hcli⟩ := goOn_spec self _ m
    exact inv.made fresh hcli hunr hended (by rw [awaiting]; nofun)
  | receive selecting message messages received open_ talks m fresh =>
    have hstep : Client.Step serde self.client { self.client with incoming := messages } :=
      .receive _ _ open_ received
    have hcap : messages.length ≤ incomingCapacity := by
      have := inv.capacity
      rw [received, length_cons] at this
      omega
    have hnext : Inv { self with client := { self.client with incoming := messages } } :=
      ⟨inv.client.step hstep, inv.alive, hcap, inv.closed⟩
    obtain ⟨-, hunr, hended, hcli⟩ := goOn_spec _ _ m
    exact hnext.made fresh hcli hunr hended (by rw [selecting]; nofun)
  | steer selecting open_ quiet message m fresh =>
    obtain ⟨-, hunr, hended, hcli⟩ := goOn_spec self _ m
    exact inv.made fresh hcli hunr hended (by rw [selecting]; nofun)
  | closeSteering selecting open_ quiet =>
    exact ⟨inv.client, fun _ => inv.alive (by rw [selecting]; nofun), inv.capacity, inv.closed⟩
  | interrupt selecting once m fresh =>
    obtain ⟨-, hunr, hended, hcli⟩ := interruptTurn_spec self _ m
    exact inv.made fresh hcli hunr hended (by rw [selecting]; nofun)
  | interruptSetup await method params awaiting setup =>
    exact ⟨inv.client, fun hphase => absurd rfl hphase, inv.capacity, inv.closed⟩
  | stopListening => exact ⟨inv.client, inv.alive, inv.capacity, inv.closed⟩
  | unheard selecting gone =>
    exact ⟨inv.client, fun _ => inv.alive (by rw [selecting]; nofun), inv.capacity, inv.closed⟩
  | dropReceiver exited =>
    have hstep : Client.Step serde self.client { self.client with receiver := false, incoming := [] } := .dropReceiver
    exact ⟨inv.client.step hstep, fun hphase => absurd exited hphase, Nat.zero_le _, inv.closed⟩

theorem Reachable.inv (h : Reachable serde request self) : Inv self := by
  induction h with
  | refl => exact inv_new
  | tail _ hstep ih => exact ih.step hstep

/-! ## The backlog -/

theorem forwardsBefore_cons_response {line : String} {rest : List String} (h : isResponse serde id line = true) :
    forwardsBefore serde id (line :: rest) = 0 := by
  unfold forwardsBefore
  rw [takeWhile_cons_of_neg (by rw [h]; exact Bool.false_ne_true)]
  rfl

theorem forwardsBefore_cons {line : String} {rest : List String} (h : isResponse serde id line = false) :
    forwardsBefore serde id (line :: rest) = (if isForwarded serde line then 1 else 0) + forwardsBefore serde id rest := by
  unfold forwardsBefore
  rw [takeWhile_cons_of_pos (by rw [h]; rfl), filter_cons]
  split
  · rw [length_cons, Nat.add_comm]
  · rw [Nat.zero_add]

/-- What is written after the response does not come before it. -/
theorem forwardsBefore_append {lines more : List String} (h : lines.any (isResponse serde id) = true) :
    forwardsBefore serde id (lines ++ more) = forwardsBefore serde id lines := by
  induction lines with
  | nil => nomatch h
  | cons line lines ih =>
    rw [cons_append]
    cases hline : isResponse _ id line with
    | true => rw [forwardsBefore_cons_response hline, forwardsBefore_cons_response hline]
    | false =>
      rw [any_cons, hline] at h
      rw [forwardsBefore_cons hline, forwardsBefore_cons hline, ih h]

theorem inHand_read {client : Client} (hrdg : client.reader = .reading) (line : String) :
    inHand (client.read serde line) = if isForwarded serde line then 1 else 0 := by
  unfold Client.read isForwarded inHand
  cases readLine _ line with
  | skipped =>
    rw [hrdg]
    rfl
  | response id' outcome =>
    dsimp only
    cases client.pending id' with
    | some n => rfl
    | none =>
      rw [hrdg]
      rfl
  | incoming message => rfl

theorem pending_read (client : Client) (line : String) (id : Int) :
    (client.read serde line).pending id = if isResponse serde id line then none else client.pending id := by
  cases hfra : readLine _ line with
  | skipped =>
    unfold Client.read isResponse
    rw [hfra]
    rfl
  | response id' outcome =>
    have hresp : isResponse serde id line = (id' == id) := by
      unfold isResponse
      rw [hfra]
    rw [hresp]
    unfold Client.read
    rw [hfra]
    dsimp only
    by_cases h : id' = id
    · rw [h, beq_self_eq_true]
      split
      · exact Function.update_self _ _ _
      · rename_i hfree
        exact hfree
    · rw [beq_false_of_ne h]
      split
      · exact Function.update_of_ne (Ne.symm h) _ _
      · rfl
  | incoming message =>
    unfold Client.read isResponse
    rw [hfra]
    rfl

/-- The reader comes nearer to the response by reading a line that is not it. -/
theorem backlog_read {line : String} {rest : List String} (hunr : self.unread = line :: rest)
    (hrdg : self.client.reader = .reading) (hoth : isResponse serde id line = false) :
    backlog serde { self with client := self.client.read serde line, unread := rest } id = backlog serde self id := by
  obtain ⟨hinc, -⟩ := read_spec _ _ line
  have hbef : inHand self.client = 0 := by
    unfold inHand
    rw [hrdg]
  unfold backlog
  dsimp only
  rw [hinc, inHand_read hrdg, hunr, forwardsBefore_cons hoth]
  omega

theorem Expects.read {line : String} {rest : List String} (expects : self.Expects id) (hoth : isResponse serde id line = false) :
    Expects { self with client := self.client.read serde line, unread := rest } id := by
  obtain ⟨-, -, -, -, hreqs⟩ := read_spec _ _ line
  obtain ⟨n, r, hawa, hr, houtc, hpend⟩ := expects.pending
  refine ⟨expects.awaiting, n, r, hawa, ?_, houtc, ?_⟩
  · rw [hreqs]
    exact hr
  · rw [pending_read, hoth, if_neg Bool.false_ne_true]
    exact hpend

/-- While the session waits for a response, it comes to no more messages before it. -/
theorem Step.backlog_le (h : Step serde request self self') (inv : Inv self) (owed : self.Owed serde id)
    (expects' : self'.Expects id) : self'.Owed serde id ∧ self'.backlog serde id ≤ self.backlog serde id := by
  obtain ⟨expects, hansd⟩ := owed
  obtain ⟨await', method', params', hawa⟩ := expects.awaiting
  obtain ⟨n', r', hawai, hr, houtc, hpend⟩ := expects.pending
  have hsel : self.session.phase ≠ .selecting := by
    rw [hawa]
    nofun
  cases h with
  | write line open_ =>
    refine ⟨⟨expects', ?_⟩, ?_⟩
    · rw [any_append, hansd, Bool.true_or]
    · unfold backlog
      rw [forwardsBefore_append hansd]
  | close => exact ⟨⟨expects', hansd⟩, le_rfl⟩
  | read line rest unread reading =>
    cases hline : isResponse _ id line with
    | true =>
      obtain ⟨_, _, _, _, _, hpend'⟩ := expects'.pending
      dsimp only at hpend'
      rw [pending_read, hline] at hpend'
      nomatch hpend'
    | false =>
      refine ⟨⟨expects', ?_⟩, Nat.le_of_eq (backlog_read unread reading hline)⟩
      rw [unread, any_cons, hline] at hansd
      exact hansd
  | endLines unread ended reading =>
    rw [unread] at hansd
    nomatch hansd
  | reader client step =>
    refine ⟨⟨expects', hansd⟩, ?_⟩
    refine Nat.add_le_add_right ?_ _
    cases step with
    | clear closing =>
      obtain ⟨_, _, _, _, _, hpend'⟩ := expects'.pending
      nomatch hpend'
    | deliver n outcome delivering =>
      unfold inHand
      rw [delivering]
      exact le_rfl
    | forward message forwarding open_ room =>
      unfold inHand
      rw [forwarding]
      exact Nat.le_of_eq length_append
    | giveUp message forwarding dropped => exact Nat.add_le_add_left (Nat.zero_le _) _
    | sendEof sending open_ room =>
      have := inv.client.cleared (.inl sending) id
      rw [hpend] at this
      nomatch this
    | skipEof sending dropped => exact Nat.add_le_add_left (Nat.zero_le _) _
  | closeWriter => exact ⟨⟨expects', hansd⟩, le_rfl⟩
  | respond await method params awaiting n awaited r requested outcome ready m fresh =>
    rw [hawai] at awaited
    obtain rfl := some.inj awaited
    rw [hr] at requested
    obtain rfl := some.inj requested
    rw [houtc] at ready
    nomatch ready
  | receive selecting message messages received open_ talks m fresh => exact absurd selecting hsel
  | steer selecting open_ quiet message m fresh => exact absurd selecting hsel
  | closeSteering selecting open_ quiet => exact absurd selecting hsel
  | interrupt selecting once m fresh => exact absurd selecting hsel
  | interruptSetup await method params awaiting setup =>
    obtain ⟨_, _, hnone, -⟩ := expects'.pending
    nomatch hnone
  | stopListening => exact ⟨⟨expects', hansd⟩, le_rfl⟩
  | unheard selecting gone => exact absurd selecting hsel
  | dropReceiver exited =>
    rw [hawa] at exited
    nomatch exited

/-- A system in which session and reader wait for each other has more messages before the response than the channel holds. -/
theorem Wedged.crowded (h : Wedged serde self) : ∃ id, self.Owed serde id ∧ incomingCapacity < self.backlog serde id := by
  obtain ⟨id, message, howed, hfwd, -, hfull⟩ := h
  refine ⟨id, howed, ?_⟩
  unfold backlog inHand
  rw [hfwd]
  dsimp only
  omega

/-! ## Wedges -/

/-- How much the reader has to do before it comes to the end of what is written. -/
def toRead (self : System) : Nat :=
  2 * self.unread.length +
    match self.client.reader with
    | .reading => 0
    | _ => 1

/-- The reader goes on to the response, or waits for the session. -/
theorem Inv.progress (inv : Inv self) (owed : self.Owed serde id) (hcro : incomingCapacity < self.backlog serde id) :
    self.Wedged serde ∨ ∃ next, Step serde request self next ∧ next.Owed serde id ∧
      next.backlog serde id = self.backlog serde id ∧ next.toRead < self.toRead := by
  obtain ⟨expects, hansd⟩ := owed
  obtain ⟨await, method, params, hawai⟩ := expects.awaiting
  obtain ⟨n, r, hawa, hr, houtc, hpend⟩ := expects.pending
  obtain ⟨hrecv, hgaveU⟩ := inv.alive (by rw [hawai]; nofun)
  have hopen : self.client.closed ≠ true := by
    intro hclsd
    rw [(inv.closed hclsd).1] at hansd
    nomatch hansd
  cases hread : self.client.reader with
  | reading =>
    cases hunr : self.unread with
    | nil =>
      rw [hunr] at hansd
      nomatch hansd
    | cons line rest =>
      cases hline : isResponse _ id line with
      | true =>
        have := inv.capacity
        unfold backlog inHand at hcro
        rw [hunr, forwardsBefore_cons_response hline, hread] at hcro
        dsimp only at hcro
        omega
      | false =>
        refine .inr ⟨_, .read line rest hunr hread, ⟨expects.read hline, ?_⟩, backlog_read hunr hread hline, ?_⟩
        · rw [hunr, any_cons, hline] at hansd
          exact hansd
        · unfold toRead
          dsimp only
          rw [hunr, length_cons]
          split <;> omega
  | delivering other outcome =>
    have hne : n ≠ other := by
      rintro rfl
      obtain ⟨_, _, _, _, _, hnone⟩ := inv.client.pending id n hpend
      obtain ⟨-, hsome⟩ := inv.client.delivering n _ hread
      rw [hnone] at hsome
      nomatch hsome
    refine .inr ⟨_, .reader _ (.deliver _ _ hread), ⟨⟨expects.awaiting, n, r, hawa, ?_, houtc, hpend⟩, hansd⟩, ?_, ?_⟩
    · refine (Client.requests_modify ..).trans ?_
      rw [if_neg hne]
      exact hr
    · unfold backlog inHand
      rw [hread]
      rfl
    · unfold toRead
      rw [hread]
      exact Nat.lt_succ_self _
  | forwarding message =>
    by_cases hroom : self.client.incoming.length < incomingCapacity
    · refine .inr ⟨_, .reader _ (.forward _ hread hrecv hroom), ⟨⟨expects.awaiting, n, r, hawa, hr, houtc, hpend⟩, hansd⟩, ?_, ?_⟩
      · unfold backlog inHand
        rw [hread]
        rw [length_append]
        rfl
      · unfold toRead
        rw [hread]
        exact Nat.lt_succ_self _
    · exact .inl ⟨id, message, ⟨expects, hansd⟩, hread, hrecv, Nat.le_antisymm inv.capacity (Nat.not_lt.mp hroom)⟩
  | closing => exact absurd (inv.client.closed.mpr (.inl hread)) hopen
  | sendingEof => exact absurd (inv.client.closed.mpr (.inr (.inl hread))) hopen
  | returned => exact absurd (inv.client.closed.mpr (.inr (.inr ⟨hread, hgaveU⟩))) hopen

/-- The steps while the session waits for a response. -/
def Waits (serde : Serde) (request : RunRequest) (id : Int) : System → System → Prop :=
  Relation.ReflTransGen fun before after => Step serde request before after ∧ after.Expects id

theorem Inv.wedges (inv : Inv self) (owed : self.Owed serde id) (hcro : incomingCapacity < self.backlog serde id) :
    ∃ later, Waits serde request id self later ∧ later.Wedged serde := by
  induction htoR : self.toRead using Nat.strong_induction_on generalizing self with
  | _ left ih =>
    have hpro : self.Wedged serde ∨ ∃ next, Step serde request self next ∧ next.Owed serde id ∧
        next.backlog serde id = self.backlog serde id ∧ next.toRead < self.toRead := inv.progress owed hcro
    rcases hpro with h | ⟨next, hstep, howed, hbac, hless⟩
    · exact ⟨self, .refl, h⟩
    · obtain ⟨later, hwait, hwedg⟩ :=
        ih _ (htoR ▸ hless) (inv.step hstep) howed (hbac ▸ hcro) rfl
      exact ⟨later, .head ⟨hstep, howed.1⟩ hwait, hwedg⟩

theorem Waits.backlog_le (h : Waits serde request id self self') (inv : Inv self) (owed : self.Owed serde id) :
    Inv self' ∧ self'.Owed serde id ∧ self'.backlog serde id ≤ self.backlog serde id := by
  induction h with
  | refl => exact ⟨inv, owed, le_rfl⟩
  | tail _ hstep ih =>
    obtain ⟨inv', owed', hle⟩ := ih
    obtain ⟨owed'', hle'⟩ := hstep.1.backlog_le inv' owed' hstep.2
    exact ⟨inv'.step hstep.1, owed'', hle'.trans hle⟩

/-- In a run in which every response that comes to be owed fits, none that is owed has more messages before it than the
channel holds. -/
theorem backlog_le_of_fits
    (run : Relation.ReflTransGen (fun before after => Step serde request before after ∧ Fits serde before after)
      (new request) self) : Inv self ∧ ∀ id, self.Owed serde id → self.backlog serde id ≤ incomingCapacity := by
  induction run with
  | refl => exact ⟨inv_new, fun id howed => nomatch howed.2⟩
  | @tail before after _ hstep ih =>
    obtain ⟨hstep, hfits⟩ := hstep
    obtain ⟨inv, hle⟩ := ih
    refine ⟨inv.step hstep, fun id howed => ?_⟩
    by_cases h : before.Owed serde id
    · exact (hstep.backlog_le inv h howed.1).2.trans (hle id h)
    · exact hfits id h howed

/-- Session and reader do not wait for each other in a run in which every response that comes to be owed fits into the
channel with the messages before it. They come to wait for each other while a response is owed exactly when it does not. -/
theorem session_wedges_iff (serde : Serde) (request : RunRequest) :
    (∀ system, Relation.ReflTransGen (fun before after => Step serde request before after ∧ Fits serde before after)
      (new request) system → ¬system.Wedged serde) ∧
    ∀ system id, Reachable serde request system → system.Owed serde id →
      ((∃ later, Waits serde request id system later ∧ later.Wedged serde) ↔
        incomingCapacity < system.backlog serde id) := by
  refine ⟨fun system run hwedged => ?_, fun system id hreachable howed => ⟨?_, hreachable.inv.wedges howed⟩⟩
  · obtain ⟨id, howed, hcrowded⟩ := hwedged.crowded
    have hle := (backlog_le_of_fits run).2 id howed
    omega
  · rintro ⟨later, hwaits, hwedged⟩
    obtain ⟨inv, howed', hle⟩ := hwaits.backlog_le hreachable.inv howed
    obtain ⟨id', howed'', hcrowded⟩ := hwedged.crowded
    obtain ⟨n, r, hawaited, -, -, hpending⟩ := howed'.1.pending
    obtain ⟨n', r', hawaited', -, -, hpending'⟩ := howed''.1.pending
    have hid : id' = id := by
      rw [hawaited] at hawaited'
      obtain rfl := Option.some.inj hawaited'
      obtain ⟨r, hr, hid, -⟩ := inv.client.pending id n hpending
      obtain ⟨r', hr', hid', -⟩ := inv.client.pending id' n hpending'
      rw [hr] at hr'
      obtain rfl := Option.some.inj hr'
      exact hid'.symm.trans hid
    rw [hid] at hcrowded
    omega

/-- Lines that the app-server writes. -/
theorem writes_reachable (h : Reachable serde request self) (hopen : self.ended = false) (lines : List String) :
    Reachable serde request { self with unread := self.unread ++ lines } := by
  induction lines generalizing self with
  | nil =>
    rw [append_nil]
    exact h
  | cons line lines ih =>
    have hnext := ih (h.tail (.write line hopen)) hopen
    rw [append_assoc] at hnext
    exact hnext

theorem forwardsBefore_replicate {line : String} (hoth : isResponse serde id line = false)
    (hfor : isForwarded serde line = true) (k : Nat) (rest : List String) :
    forwardsBefore serde id (replicate k line ++ rest) = k + forwardsBefore serde id rest := by
  induction k with
  | zero => rw [Nat.zero_add, replicate_zero, nil_append]
  | succ k ih =>
    rw [replicate_succ, cons_append, forwardsBefore_cons hoth, if_pos hfor]
    omega

/-- The app-server has written more notifications than the channel holds, and then the response to the first request. -/
def demoCrowded : System :=
  { new Session.demoRequest with
    unread := (new Session.demoRequest).unread ++
      (replicate 257 "\x7b\"method\":\"initialized\"\x7d" ++ ["\x7b\"id\":\"1\",\"result\":true\x7d"]) }

theorem reachable_demoCrowded : Reachable demoSerde Session.demoRequest demoCrowded :=
  writes_reachable .refl rfl _

theorem owed_demoCrowded : demoCrowded.Owed demoSerde 1 := by
  refine ⟨⟨⟨_, _, _, rfl⟩, 0, _, rfl, rfl, rfl, rfl⟩, ?_⟩
  unfold demoCrowded
  rw [any_append, any_append]
  have hresp : isResponse demoSerde 1 "\x7b\"id\":\"1\",\"result\":true\x7d" = true := by decide
  rw [any_cons, hresp, Bool.true_or, Bool.or_true, Bool.or_true]

theorem crowded_demoCrowded : incomingCapacity < demoCrowded.backlog demoSerde 1 := by
  have hfor : forwardsBefore demoSerde 1 demoCrowded.unread = 257 + 0 :=
    forwardsBefore_replicate (by decide) (by decide) 257 _
  unfold backlog
  rw [hfor]
  decide

/-- Session and reader come to wait for each other. -/
theorem session_wedges : ∃ system, Reachable demoSerde Session.demoRequest system ∧ system.Wedged demoSerde := by
  obtain ⟨later, hwaits, hwedged⟩ := reachable_demoCrowded.inv.wedges owed_demoCrowded crowded_demoCrowded
  exact ⟨later, reachable_demoCrowded.trans (Relation.ReflTransGen.mono (fun _ _ h => h.1) _ _ hwaits), hwedged⟩

/-- They do not wait for each other before anything is written, and come to when too much is. -/
theorem session_wedges_iff_crowded : ¬(new Session.demoRequest).Wedged demoSerde ∧
    ∃ later, Waits demoSerde Session.demoRequest 1 demoCrowded later ∧ later.Wedged demoSerde :=
  ⟨(session_wedges_iff demoSerde Session.demoRequest).1 _ .refl,
    ((session_wedges_iff demoSerde Session.demoRequest).2 _ 1 reachable_demoCrowded owed_demoCrowded).mpr
      crowded_demoCrowded⟩

end System

end Wu.Codex
