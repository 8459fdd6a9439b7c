import Wu.AgentHarness.JsonRpc
import Wu.AgentHarness.TurnRouter

/-!
# The session loop of Codex

A session makes the requests that start a turn, and then takes what comes: notifications and requests of the app-server,
messages that steer, and the end of each. While it waits for a response it takes nothing else. What text, tools and
subagents of a turn lead to is an event like any other here.
-/

namespace Wu

/-- A skill that a message refers to. -/
structure SkillRef where
  name : String
  path : String
  deriving DecidableEq

/-- A message that steers a run. -/
structure SteerMessage where
  prompt : String
  messageId : Option String
  attachments : List String
  skills : List SkillRef
  deriving DecidableEq

/-- How a run or a turn has ended. -/
inductive DoneStatus where
  | completed
  | interrupted
  | errored
  deriving DecidableEq

namespace Codex

/-! ## Commands -/

/-- The command that a text begins with, and what follows its name. -/
def leadingCommand (text : String) : Option (String × String) :=
  let isBlank := fun c => c == ' ' || c == '\t' || c == '\r' || c == '\n'
  let trimmed := text.toList.dropWhile isBlank
  let indent := (text.toList.takeWhile isBlank).reverse.takeWhile fun c => c != '\n' && c != '\r'
  if indent.contains '\t' || 4 ≤ indent.length then none
  else
    match trimmed with
    | '/' :: rest =>
      let name := rest.takeWhile fun c => !Strings.isWhitespace c
      if name.isEmpty then none
      else some (String.ofList name, Strings.trim (String.ofList ((rest.drop name.length).drop 1)))
    | _ => none

/-- The commands of the terminal that are not available. -/
def unavailableCommands : List String :=
  ["model", "permissions", "approvals", "new", "clear", "resume", "fork", "status", "diff", "mention", "mcp", "skills",
    "plan", "fast", "logout", "quit", "exit", "init", "rename", "feedback", "ps", "stop", "clean", "archive", "delete"]

/-- The request that a text makes when it is a command. -/
def commandRequest (text threadId : String) : Except String (Option (String × Value)) :=
  match leadingCommand text with
  | none => .ok none
  | some (name, args) =>
    if name = "compact" then
      if args.isEmpty then .ok (some ("thread/compact/start", .object [("threadId", .string threadId)]))
      else .error "/compact takes no arguments; send other text separately"
    else if name = "review" then
      let target :=
        if args.isEmpty then Value.object [("type", .string "uncommittedChanges")]
        else .object [("type", .string "custom"), ("instructions", .string args)]
      .ok (some ("review/start", .object [("threadId", .string threadId), ("delivery", .string "inline"), ("target", target)]))
    else if name ∈ unavailableCommands then
      .error ("/" ++ name ++ " is not available here. Available commands: /compact and /review.")
    else .ok none

/-- Whether a text is a command that makes a request. -/
def isNative (text threadId : String) : Bool :=
  match commandRequest text threadId with
  | .ok (some _) => true
  | _ => false

/-- Whether a text is not a command. -/
def isPlain (text threadId : String) : Bool :=
  match commandRequest text threadId with
  | .ok none => true
  | _ => false

/-- The input of a turn. The text item must stay first. -/
def promptInput (message : SteerMessage) : List Value :=
  [.object [("type", .string "text"), ("text", .string message.prompt)]] ++
    (message.skills.eraseDups.map fun skill =>
      .object [("type", .string "skill"), ("name", .string skill.name), ("path", .string skill.path)]) ++
    message.attachments.map fun path => .object [("type", .string "localImage"), ("path", .string path)]

/-! ## Notifications -/

/-- The value at the first of some keys that has one. -/
def fieldOf (value : Value) (keys : List String) : Option Value := keys.findSome? value.get

/-- The string at the first of some keys that has a value. -/
def strField (value : Value) (keys : List String) : String := ((fieldOf value keys).bind Value.asStr).getD ""

/-- The id of the turn of a notification. -/
def turnIdOf (params : Value) : String := ((params.get "turn").map fun t => strField t ["id"]).getD ""

/-- The error of the turn of a notification. -/
def turnErrorMessage (serde : Serde) (params : Value) : Option String :=
  (((params.get "turn").bind fun t => t.get "error").filter fun e => !e.isNull).map fun e =>
    let msg := strField e ["message"]
    if msg.isEmpty then serde.print e else msg

/-- The thread of a notification. -/
def notificationThreadId (method : String) (params : Value) : Option String :=
  if method = "thread/started" then ((params.get "thread").bind fun t => t.get "id").bind Value.asStr
  else (fieldOf params ["threadId", "thread_id"]).bind Value.asStr

/-- The notifications of a child that its parent takes no notice of. -/
def childMethods : List String :=
  ["item/started", "item/completed", "item/agentMessage/delta", "item/reasoning/textDelta",
    "item/reasoning/summaryTextDelta", "item/reasoning/summaryPartAdded", "turn/started", "turn/completed", "turn/failed", "turn/aborted", "error",
    "thread/closed", "thread/status/changed", "thread/tokenUsage/updated", "item/commandExecution/outputDelta",
    "item/fileChange/outputDelta", "item/fileChange/patchUpdated", "item/plan/delta", "turn/plan/updated",
    "turn/diff/updated", "thread/name/updated", "thread/settings/updated", "rawResponseItem/completed", "thread/archived",
    "thread/unarchived", "thread/compacted", "thread/started"]

/-- Whether a notification is a child's. -/
def isChildNotification (threadId method : String) (params : Value) : Bool :=
  (notificationThreadId method params).any (fun id => !id.isEmpty && id != threadId) && childMethods.contains method

/-! ## The session -/

/-- What the run of a session is asked for. `version` is the one of the client, `crash` the message when the app-server has
exited; `startEntries` and `turnEntries` are what else the requests for a thread and a turn have. -/
structure RunRequest where
  message : SteerMessage
  resume : Option String
  fork : Option String
  version : String
  startEntries : List (String × Value)
  turnEntries : List (String × Value)
  crash : String

/-- What a session tells the chat. -/
inductive AgentEvent where
  | sessionStarted (sessionId : String)
  | steered
  | error (message : String)
  | done (status : DoneStatus) (error : Option String) (sessionId : Option String)
  | other
  deriving DecidableEq

/-- What the session does with a response. -/
inductive Await where
  | handshake
  | resume
  | fork
  | startThread
  | firstTurn
  | steer (message : SteerMessage) (expected : String)
  | newTurn (message : SteerMessage)
  deriving DecidableEq

/-- Whether the requests of the setup are not over. -/
def Await.isSetup : Await → Bool
  | .handshake | .resume | .fork | .startThread => true
  | _ => false

/-- What the session does: it waits for a response, takes what comes, or has ended. -/
inductive Phase where
  | awaiting (await : Await) (method : String) (params : Value)
  | selecting
  | exited

/-- A session. `received` and `submitted` are records of the run: the messages that have come, and those that have become a
part of a turn or a turn of their own. -/
structure Session where
  phase : Phase
  threadId : String
  router : TurnRouter
  queuedSteers : List SteerMessage
  steeringOpen : Bool
  interrupted : Bool
  interruptSent : Bool
  doneCurrent : Bool
  currentNative : Bool
  doneAfterInterrupt : Bool
  listening : Bool
  events : List AgentEvent
  received : List SteerMessage
  submitted : List SteerMessage

/-- How an error of the protocol is shown. -/
def displayError (message : String) : String := "harness protocol error: " ++ message

/-- The request that starts a turn. -/
def startTurn (request : RunRequest) (threadId : String) (message : SteerMessage) : Except String (String × Value) :=
  match commandRequest message.prompt threadId with
  | .error e => .error e
  | .ok native =>
    if native.isSome && 1 < (promptInput message).length then
      .error "Codex commands cannot include skills or attachments; send them in a separate prompt"
    else
      .ok (native.getD ("turn/start",
        .object ([("threadId", .string threadId), ("input", .array (promptInput message))] ++ request.turnEntries)))

/-- The id of the turn that a response says has started. -/
def startedTurn (started : Value) : String := ((started.pointer ["turn", "id"]).bind Value.asStr).getD ""

namespace Session

variable (serde : Serde) (request : RunRequest)

/-- The session at its first request. -/
def new : Session where
  phase := .awaiting .handshake "initialize" (.object
      [("clientInfo", .object [("name", .string "wu"), ("title", .string "Wu"), ("version", .string request.version)]),
        ("capabilities", .object [("experimentalApi", .bool true)])])
  threadId := ""
  router := .new
  queuedSteers := []
  steeringOpen := true
  interrupted := false
  interruptSent := false
  doneCurrent := false
  currentNative := false
  doneAfterInterrupt := false
  listening := true
  events := []
  received := []
  submitted := []

/-- An event is sent, when somebody listens. -/
def sendFinal (self : Session) (event : AgentEvent) : Session :=
  if self.listening then { self with events := self.events ++ [event] } else self

/-- The session has ended, with an event before. -/
def endWith (self : Session) (event : AgentEvent) : Session := { self.sendFinal event with phase := .exited }

/-- The loop has ended. -/
def finish (self : Session) : Session :=
  if self.interrupted && !self.doneAfterInterrupt then self.endWith (.done .interrupted none (some self.threadId))
  else if !self.interrupted && !self.doneCurrent then
    self.endWith (.done .errored (some request.crash) (some self.threadId))
  else { self with phase := .exited }

/-- An event is sent, and the loop goes on when somebody listens. -/
def send (self : Session) (event : AgentEvent) (next : Session → Session) : Session :=
  if self.listening then next (self.sendFinal event) else self.finish request

/-- The setup has failed. -/
def setupFailed (self : Session) (message : String) : Session :=
  self.endWith (.done .errored (some (displayError message)) none)

/-- The thread is requested. -/
def requestThread (self : Session) : Session :=
  match request.resume, request.fork with
  | some id, _ =>
    { self with
      phase := .awaiting .resume "thread/resume" (.object (Value.insertEntry "threadId" (.string id) request.startEntries)) }
  | none, some id =>
    { self with
      phase := .awaiting .fork "thread/fork" (.object (Value.insertEntry "threadId" (.string id) request.startEntries)) }
  | none, none => { self with phase := .awaiting .startThread "thread/start" (.object request.startEntries) }

/-- The thread is there: its first turn is requested. -/
def threadStarted (self : Session) (thread : Value) : Session :=
  let self := { self with threadId := ((thread.pointer ["thread", "id"]).bind Value.asStr).getD "" }
  if self.listening then
    let self := self.sendFinal (.sessionStarted self.threadId)
    match startTurn request self.threadId request.message with
    | .ok (method, params) => { self with phase := .awaiting .firstTurn method params }
    | .error e => self.endWith (.done .errored (some (displayError e)) (some self.threadId))
  else { self with phase := .exited }

/-- A message becomes a turn of its own. -/
def steerAsNewTurn (self : Session) (message : SteerMessage) : Session :=
  let self := { self with currentNative := isNative message.prompt self.threadId }
  match startTurn request self.threadId message with
  | .ok (method, params) => { self with phase := .awaiting (.newTurn message) method params }
  | .error e => (self.sendFinal (.error ("Steering failed: " ++ displayError e))).finish request

/-- What the session does with the response that it has waited for. -/
def respond (self : Session) (await : Await) (outcome : Except String Value) : Session :=
  match await, outcome with
  | .handshake, .ok _ => self.requestThread request
  | .handshake, .error e => self.setupFailed e
  | .resume, .ok thread => self.threadStarted request thread
  | .resume, .error e =>
    match commandRequest request.message.prompt (request.resume.getD "") with
    | .error e => self.setupFailed e
    | .ok (some _) => self.setupFailed e
    | .ok none => { self with phase := .awaiting .startThread "thread/start" (.object request.startEntries) }
  | .fork, .ok thread => self.threadStarted request thread
  | .fork, .error e => self.setupFailed e
  | .startThread, .ok thread => self.threadStarted request thread
  | .startThread, .error e => self.setupFailed e
  | .firstTurn, .ok started =>
    { self with
      phase := .selecting
      router := self.router.adoptStarted (startedTurn started)
      currentNative := isNative request.message.prompt self.threadId }
  | .firstTurn, .error e => self.endWith (.done .errored (some (displayError e)) (some self.threadId))
  | .steer message _, .ok _ =>
    { self with phase := .selecting, submitted := self.submitted ++ [message] }.send request .steered id
  | .steer message expected, .error _ =>
    if self.router.active = some expected && !self.router.isCompleted expected then
      { self with phase := .selecting, queuedSteers := self.queuedSteers ++ [message] }
    else { self with phase := .selecting }.steerAsNewTurn request message
  | .newTurn message, .ok started =>
    { self with
      phase := .selecting
      router := self.router.adoptStarted (startedTurn started)
      doneCurrent := false
      submitted := self.submitted ++ [message] }.send request .steered id
  | .newTurn _, .error e => (self.sendFinal (.error ("Steering failed: " ++ displayError e))).finish request

/-- What follows a turn that has completed: the first message that waits becomes a turn. -/
def afterTurn (self : Session) : Session :=
  if self.interrupted then { self with doneAfterInterrupt := true }.finish request
  else
    let self := { self with currentNative := false }
    match self.queuedSteers with
    | message :: rest => { self with queuedSteers := rest }.steerAsNewTurn request message
    | [] => if self.steeringOpen then self else self.finish request

/-- A turn has completed. -/
def turnCompleted (self : Session) (params : Value) : Session :=
  let self := { self with router := self.router.noteCompleted (turnIdOf params) }
  let failed := (params.pointer ["turn", "status"]).any fun status => status.isString "failed"
  let error := (turnErrorMessage serde params).or (if failed then some "Codex turn failed" else none)
  let status : DoneStatus :=
    if self.interrupted then .interrupted else if error.isSome then .errored else .completed
  { self with doneCurrent := true }.send request (.done status error (some self.threadId)) (afterTurn request)

/-- A turn has ended otherwise: the loop ends. -/
def turnEnded (self : Session) (params : Value) (status : DoneStatus) (error : Option String) : Session :=
  let self :=
    { self with
      router := self.router.noteCompleted (turnIdOf params)
      doneCurrent := true
      doneAfterInterrupt := self.doneAfterInterrupt || self.interrupted }
  (self.sendFinal (.done status error (some self.threadId))).finish request

/-- The message of a notification of an error. -/
def errorMessage (params : Value) : String :=
  (((params.pointer ["error", "message"]).bind Value.asStr).or ((params.get "message").bind Value.asStr)).getD "Codex error"

/-- What the session does with a notification; `talks` says whether text, tools or subagents lead to an event. -/
def notified (self : Session) (method : String) (params : Value) (talks : Bool) : Session :=
  if isChildNotification self.threadId method params then if talks then self.send request .other id else self
  else if method = "turn/started" then { self with router := self.router.noteStarted (turnIdOf params) }
  else if method = "turn/completed" then self.turnCompleted serde request params
  else if method = "turn/failed" then
    self.turnEnded request params (if self.interrupted then .interrupted else .errored)
      (some ((turnErrorMessage serde params).getD "Codex turn failed"))
  else if method = "turn/aborted" then self.turnEnded request params .interrupted none
  else if method = "error" then self.send request (.error (errorMessage params)) id
  else if talks then self.send request .other id
  else self

/-- What the session does with what comes from the app-server. A request is replied to by another task. -/
def incoming (self : Session) (message : Incoming) (talks : Bool) : Session :=
  match message with
  | .notification method params => self.notified serde request method params talks
  | .request _ _ _ => self
  | .eof => self.finish request

/-- What the session does with a message that steers. Nothing may overtake a queued command. -/
def steer (self : Session) (message : SteerMessage) : Session :=
  let self := { self with received := self.received ++ [message] }
  if !self.doneCurrent &&
      (!self.queuedSteers.isEmpty || self.currentNative || !isPlain message.prompt self.threadId) then
    { self with queuedSteers := self.queuedSteers ++ [message] }
  else
    match self.router.active with
    | some expected =>
      { self with
        phase := .awaiting (.steer message expected) "turn/steer" (.object
            [("threadId", .string self.threadId), ("expectedTurnId", .string expected),
              ("input", .array (promptInput message))]) }
    | none => self.steerAsNewTurn request message

/-- The messages that steer have ended. -/
def closeSteering (self : Session) : Session :=
  let self := { self with steeringOpen := false }
  if self.doneCurrent && self.router.active.isNone && self.queuedSteers.isEmpty then self.finish request else self

/-- The run is interrupted: the app-server is asked to interrupt the active turn; without one the loop ends. -/
def interrupt (self : Session) : Session :=
  let self := { self with interruptSent := true, interrupted := true }
  if self.router.active.isSome then self else self.finish request

/-- What comes to a session. -/
inductive Action where
  | respond (outcome : Except String Value)
  | incoming (message : Incoming) (talks : Bool)
  | steer (message : SteerMessage)
  | closeSteering
  | interrupt
  | stopListening
  | unheard

/-- One step of a session. -/
inductive Step (self : Session) : Action → Session → Prop where
  | respond (await : Await) (method : String) (params : Value) (awaiting : self.phase = .awaiting await method params)
      (outcome : Except String Value) : Step self (.respond outcome) (self.respond request await outcome)
  | incoming (selecting : self.phase = .selecting) (message : Incoming) (talks : Bool) :
      Step self (.incoming message talks) (self.incoming serde request message talks)
  | steer (selecting : self.phase = .selecting) (open_ : self.steeringOpen = true) (quiet : self.interrupted = false)
      (message : SteerMessage) : Step self (.steer message) (self.steer request message)
  | closeSteering (selecting : self.phase = .selecting) (open_ : self.steeringOpen = true)
      (quiet : self.interrupted = false) : Step self .closeSteering (self.closeSteering request)
  | interrupt (selecting : self.phase = .selecting) (once : self.interruptSent = false) :
      Step self .interrupt (self.interrupt request)
  | interruptSetup (await : Await) (method : String) (params : Value) (awaiting : self.phase = .awaiting await method params)
      (setup : await.isSetup = true) : Step self .interrupt (self.endWith (.done .interrupted none none))
  | stopListening : Step self .stopListening { self with listening := false }
  | unheard (selecting : self.phase = .selecting) (gone : self.listening = false) :
      Step self .unheard (self.finish request)

end Session

end Codex

end Wu
