import Wu.AgentHarness.CodexSession
import Wu.AgentHarness.ServerRequests

/-!
# A chat with an agent

A chat starts a run of its agent with a prompt, and hands it what is sent later by the run's steering channel, or keeps it in a
queue. What the user, the agent and the run do are functions on the state of the chat.
-/

namespace Wu.AgentChat

/-- The agents. -/
inductive AgentKind where
  | claude
  | codex
  | opencode
  deriving DecidableEq

/-- What an agent may do without asking. -/
inductive PermissionMode where
  | ask
  | acceptEdits
  | auto
  | dontAsk
  | readOnly
  | approveForMe
  | fullAccess
  deriving DecidableEq

/-! ## Prompts -/

/-- A prompt. `sends` is a record that nothing reads: it names the messages the prompt comes from. -/
structure Prompt where
  text : String
  attachments : List String
  skills : List SkillRef
  sends : List Nat
  deriving DecidableEq

namespace Prompt

/-- Whether there is nothing to send. -/
def isEmpty (self : Prompt) : Bool := (Strings.trim self.text).isEmpty && self.attachments.isEmpty

/-- One prompt of two. -/
def merge (self other : Prompt) : Prompt where
  text :=
    if (Strings.trim other.text).isEmpty then self.text
    else if (Strings.trim self.text).isEmpty then self.text ++ other.text
    else self.text ++ "\n\n" ++ other.text
  attachments := self.attachments ++ other.attachments
  skills := self.skills ++ other.skills
  sends := self.sends ++ other.sends

/-- Whether a prompt is a slash command. -/
def isCommand (self : Prompt) : Bool := (Codex.leadingCommand self.text).isSome

/-- A prompt without the white space around its text. -/
def trimmed (self : Prompt) : Prompt := { self with text := Strings.trim self.text }

end Prompt

/-- A prompt that waits. -/
structure QueuedMessage where
  id : Nat
  prompt : Prompt
  deriving DecidableEq

/-! ## The transcript -/

/-- How far a tool is. -/
inductive ToolStatus where
  | running
  | completed
  | failed
  | canceled
  deriving DecidableEq

/-- An entry of the transcript. -/
inductive Entry where
  | user (prompt : Prompt) (undelivered : Bool)
  | assistant (text : String)
  | thinking (text : String)
  | tool (id : String) (status : ToolStatus)
  | notice (text : String) (isError : Bool)
  | image (path : String)
  deriving DecidableEq

/-- What a chat shows. -/
structure Transcript where
  entries : List Entry
  textBlockOpen : Bool

namespace Transcript

/-- An entry is added that closes the block of text. -/
def push (self : Transcript) (entry : Entry) : Transcript where
  entries := self.entries ++ [entry]
  textBlockOpen := false

/-- Text of the agent: it extends the last entry when that is of the same kind and its block is open. -/
def appendText (self : Transcript) (text : String) (thinking : Bool) : Transcript :=
  if text.isEmpty then self
  else
    match self.textBlockOpen, self.entries.getLast?, thinking with
    | true, some (.assistant before), false =>
      { self with entries := self.entries.dropLast ++ [.assistant (before ++ text)] }
    | true, some (.thinking before), true =>
      { self with entries := self.entries.dropLast ++ [.thinking (before ++ text)] }
    | _, _, _ =>
      { entries := self.entries ++ [if thinking then .thinking text else .assistant text], textBlockOpen := true }

/-- A message of the user. -/
def pushUser (self : Transcript) (prompt : Prompt) : Transcript := self.push (.user prompt false)

def pushNotice (self : Transcript) (text : String) (isError : Bool) : Transcript := self.push (.notice text isError)

/-- Whether an entry is the tool with an id. -/
def isTool (id : String) : Entry → Bool
  | .tool id' _ => id' = id
  | _ => false

/-- A tool has started: a tool that is there is not added again. -/
def startTool (self : Transcript) (id : String) : Transcript :=
  if self.entries.any (isTool id) then { self with textBlockOpen := false } else self.push (.tool id .running)

/-- The first tool with an id gets a status. -/
def setStatus (id : String) (status : ToolStatus) : List Entry → List Entry
  | [] => []
  | entry :: rest => if isTool id entry then .tool id status :: rest else entry :: setStatus id status rest

/-- A tool has finished: the last one with its id. -/
def finishTool (self : Transcript) (id : String) (isError : Bool) : Transcript :=
  let status : ToolStatus := if isError then .failed else .completed
  { self with entries := (setStatus id status self.entries.reverse).reverse }

/-- A tool that runs is canceled. -/
def cancelTool : Entry → Entry
  | .tool id .running => .tool id .canceled
  | entry => entry

def cancelRunningTools (self : Transcript) : Transcript := { self with entries := self.entries.map cancelTool }

/-- The last entry is marked as not delivered when it is the user's. -/
def markUndelivered (self : Transcript) : Transcript :=
  match self.entries.getLast? with
  | some (.user prompt _) => { self with entries := self.entries.dropLast ++ [.user prompt true] }
  | _ => self

end Transcript

/-! ## Runs -/

/-- What a run is asked for. -/
structure RunRequest where
  prompt : String
  attachments : List String
  skills : List SkillRef
  permission : PermissionMode
  resume : Option String
  fork : Option String
  sends : List Nat

/-- A message in the steering channel. -/
structure Steer where
  message : SteerMessage
  sends : List Nat

/-- The messages that the steering channel takes. -/
def steeringCapacity : Nat := 32

/-- A run of the agent. `steering` are the messages that it has not read, `listening` says whether it still reads, `started`
whether there is a stream of its events, and `interrupted` whether it is to stop. -/
structure ActiveRun where
  request : RunRequest
  steering : List Steer
  listening : Bool
  started : Bool
  interrupted : Bool

/-- A message is put in the steering channel, when that is neither full nor closed. -/
def ActiveRun.trySend (self : ActiveRun) (steer : Steer) : Option ActiveRun :=
  if self.listening && self.steering.length < steeringCapacity then
    some { self with steering := self.steering ++ [steer] }
  else none

theorem ActiveRun.eq_of_trySend {self after : ActiveRun} {steer : Steer} (h : self.trySend steer = some after) :
    after = { self with steering := self.steering ++ [steer] } ∧ self.listening = true ∧ self.steering.length < steeringCapacity := by
  unfold trySend at h
  split at h
  · rename_i hroom
    simp only [Bool.and_eq_true, decide_eq_true_eq] at hroom
    exact ⟨(Option.some.inj h).symm, hroom⟩
  · nomatch h

/-- Questions of the agent that wait for an answer. -/
structure PendingQuestion where
  questions : List UserInputQuestion

/-- The id of the first question. -/
def PendingQuestion.id (self : PendingQuestion) : String := (self.questions.head?.map UserInputQuestion.id).getD ""

/-- What an agent tells. -/
inductive AgentEvent where
  | sessionStarted (sessionId : String)
  | permissionModeReported (mode : String)
  | textDelta (text : String)
  | reasoningDelta (text : String)
  | assistantMessageCompleted
  | steered
  | toolCall (id : String)
  | toolResult (id : String) (isError : Bool)
  | error (message : String)
  | done (status : DoneStatus) (error : Option String) (sessionId : Option String)
  | generatedImage (path : String)
  | compacting (active : Bool)
  | compacted (manual : Bool)
  | other

/-! ## The chat -/

/-- A chat. The last four fields are records of what has happened: the prompts that were accepted and those that were handed to
a run, in order, and the messages that a run has received and those that the user has removed. -/
structure AgentSession where
  kind : AgentKind
  permission : PermissionMode
  nativeSessionId : Option String
  forkContext : Option String
  forkSource : Option String
  transcript : Transcript
  runFailed : Bool
  restartOnNextSend : Bool
  nativeForkPrompt : Option Prompt
  nativeForkFailed : Bool
  nativeForkErrors : List String
  working : Bool
  compacting : Bool
  run : Option ActiveRun
  promptAfterStop : Option Prompt
  userStopped : Bool
  queue : List QueuedMessage
  nextQueueId : Nat
  editingQueued : Option Nat
  deleted : Bool
  pendingQuestions : List PendingQuestion
  noticedAutoUnavailable : Bool
  accepted : List Prompt
  handed : List Prompt
  received : List Nat
  removed : List Nat

/-- What is known of a chat before it is opened. -/
structure SessionMetadata where
  kind : AgentKind
  permission : PermissionMode
  nativeSessionId : Option String
  forkContext : Option String
  forkSource : Option String

namespace AgentSession

/-- The first id that a queued message can get is one more. -/
def firstQueueId : Nat := 9223372036854775807

/-- A chat that is opened with what was saved. -/
def new (metadata : SessionMetadata) (transcript : Transcript) (saved : List Prompt) : AgentSession where
  kind := metadata.kind
  permission := metadata.permission
  nativeSessionId := metadata.nativeSessionId
  forkContext := metadata.forkContext
  forkSource := metadata.forkSource
  transcript := transcript
  runFailed := false
  restartOnNextSend := false
  nativeForkPrompt := none
  nativeForkFailed := false
  nativeForkErrors := []
  working := false
  compacting := false
  run := none
  promptAfterStop := none
  userStopped := false
  queue := saved.zipIdx.map fun (prompt, index) => ⟨index, prompt⟩
  nextQueueId := firstQueueId
  editingQueued := none
  deleted := false
  pendingQuestions := []
  noticedAutoUnavailable := false
  accepted := []
  handed := []
  received := []
  removed := []

/-- Whether the run has been told to stop. -/
def stopping (self : AgentSession) : Bool := self.run.any ActiveRun.interrupted

/-- Whether a prompt can be steered. Claude reads a slash command sent into a running turn as plain text. -/
def canSteer (self : AgentSession) (prompt : Prompt) : Bool :=
  self.working && !(self.kind = .claude && prompt.isCommand)

/-! ### The queue -/

/-- Whether a queued message is not being edited. -/
def sendable (self : AgentSession) (queued : QueuedMessage) : Bool := some queued.id != self.editingQueued

def hasSendableQueued (self : AgentSession) : Bool := self.queue.any self.sendable

/-- The first queued message that is not being edited is taken out. -/
def takeNextQueued (self : AgentSession) : Option (QueuedMessage × AgentSession) :=
  (self.queue.find? self.sendable).map fun next => (next, { self with queue := self.queue.eraseP self.sendable })

/-- A prompt is queued behind the others. -/
def enqueue (self : AgentSession) (prompt : Prompt) : AgentSession :=
  { self with
    nextQueueId := self.nextQueueId + 1
    queue := self.queue ++ [⟨self.nextQueueId + 1, prompt⟩] }

/-- A prompt is queued before the others. -/
def enqueueFirst (self : AgentSession) (prompt : Prompt) : AgentSession :=
  { self with
    nextQueueId := self.nextQueueId + 1
    queue := ⟨self.nextQueueId + 1, prompt⟩ :: self.queue }

/-- The edit of a queued message is over. -/
def closeEdit (self : AgentSession) (id : Nat) : AgentSession :=
  if self.editingQueued = some id then { self with editingQueued := none } else self

/-- The queued message with an id is taken out. -/
def takeQueued (self : AgentSession) (id : Nat) : Option (Prompt × AgentSession) :=
  (self.queue.find? fun queued => queued.id == id).map fun queued =>
    (queued.prompt, { self.closeEdit id with queue := self.queue.eraseP fun queued => queued.id == id })

/-- A queued message is removed. -/
def removeQueued (self : AgentSession) (id : Nat) : AgentSession :=
  match self.takeQueued id with
  | some (prompt, self) => { self with removed := self.removed ++ prompt.sends }
  | none => self

/-- A queued message is moved. -/
def moveQueued (self : AgentSession) (id toIndex : Nat) : AgentSession :=
  match self.queue.find? fun queued => queued.id == id with
  | some queued =>
    let rest := self.queue.eraseP fun queued => queued.id == id
    { self with queue := rest.insertIdx (min toIndex rest.length) queued }
  | none => self

/-- The user begins to edit a queued message. -/
def beginQueuedEdit (self : AgentSession) (id : Nat) : AgentSession :=
  if self.queue.any fun queued => queued.id == id then { self with editingQueued := some id } else self

/-- The first queued message with an id gets another prompt. -/
def setPrompt (id : Nat) (prompt : Prompt) : List QueuedMessage → List QueuedMessage
  | [] => []
  | queued :: rest =>
    if queued.id == id then { queued with prompt := prompt } :: rest else queued :: setPrompt id prompt rest

/-- An edit is finished: what was edited is replaced, or queued when it is there no more. -/
def finishQueuedEdit (self : AgentSession) (id : Nat) (edited : Option Prompt) : AgentSession :=
  let self := self.closeEdit id
  match edited.filter fun prompt => !prompt.isEmpty with
  | some prompt =>
    match self.queue.find? fun queued => queued.id == id with
    | some queued =>
      { self with queue := setPrompt id prompt self.queue, removed := self.removed ++ queued.prompt.sends }
    | none => self.enqueue prompt
  | none => self

/-! ### Delivery -/

/-- The text of the request for a run, and the context that is left: the first prompt carries the conversation before it, unless
the agent copies that itself or the prompt is a command. -/
def requestText (context fork : Option String) (prompt : Prompt) : String × Option String :=
  match context with
  | some text =>
    if fork.isSome || prompt.isCommand then (prompt.text, some text)
    else
      ("Continue this conversation using the following prior conversation as context.\n<conversation>\n" ++ text ++
        "\n</conversation>\n\n" ++ prompt.text, none)
  | none => (prompt.text, none)

/-- A run is started with a prompt. -/
def startRun (self : AgentSession) (prompt : Prompt) : AgentSession :=
  let fork := if self.nativeSessionId.isNone then self.forkSource else none
  let (text, context) := requestText self.forkContext fork prompt
  { self with
    restartOnNextSend := false
    nativeForkPrompt := if fork.isSome then some prompt else none
    nativeForkErrors := []
    forkContext := context
    run := some
      { request :=
          { prompt := text
            attachments := prompt.attachments
            skills := prompt.skills
            permission := self.permission
            resume := self.nativeSessionId
            fork := fork
            sends := prompt.sends }
        steering := []
        listening := true
        started := false
        interrupted := false }
    handed := self.handed ++ [prompt] }

/-- Whether a prompt must wait for the turn to end: it is a command that the run cannot take, or one that would be merged.
Merging would turn the other message into the command's arguments. -/
def mustWait (self : AgentSession) (prompt : Prompt) : Bool :=
  let steeringCommand := self.run.isSome && !self.stopping && !self.canSteer prompt
  let mergingCommand := self.stopping && self.promptAfterStop.any fun pending => pending.isCommand || prompt.isCommand
  self.working && (steeringCommand || mergingCommand)

/-- A run that is to be restarted is dropped. -/
def dropRestarting (self : AgentSession) : AgentSession :=
  if self.restartOnNextSend && !self.working then { self with run := none, restartOnNextSend := false } else self

/-- A prompt is shown, and the chat works. -/
def showUser (self : AgentSession) (prompt : Prompt) : AgentSession :=
  { self with transcript := self.transcript.pushUser prompt, working := true, runFailed := false }

/-- A prompt is handed to the run, or to a new one. -/
def handOver (self : AgentSession) (prompt : Prompt) : AgentSession :=
  match self.run with
  | some run =>
    if run.interrupted then
      { self with
        promptAfterStop :=
          match self.promptAfterStop with
          | some pending => some (pending.merge prompt)
          | none => some prompt }
    else
      let steer : Steer :=
        { message :=
            { prompt := prompt.text
              messageId := none
              attachments := prompt.attachments
              skills := prompt.skills }
          sends := prompt.sends }
      match run.trySend steer with
      | some run => { self with run := some run, handed := self.handed ++ [prompt] }
      | none => { self with run := none }.startRun prompt
  | none => self.startRun prompt

/-- A prompt is delivered, or waits before the others. -/
def deliver (self : AgentSession) (prompt : Prompt) : AgentSession :=
  if self.mustWait prompt then self.enqueueFirst prompt
  else (({ self with userStopped := false }.dropRestarting).showUser prompt).handOver prompt

/-- A prompt that was accepted is steered or queued while the agent works, and does not go before those that wait.
`steerWhileWorking` is the setting. -/
def sendAccepted (self : AgentSession) (steerWhileWorking : Bool) (prompt : Prompt) : AgentSession :=
  if self.working && self.run.isSome && !self.stopping then
    if steerWhileWorking then self.deliver prompt else self.enqueue prompt
  else if !self.stopping && self.hasSendableQueued then
    let self := self.enqueue prompt
    match self.takeNextQueued with
    | some (next, self) => self.deliver next.prompt
    | none => self
  else self.deliver prompt

/-- A message is sent, unless it is blank. -/
def sendMessage (self : AgentSession) (steerWhileWorking : Bool) (prompt : Prompt) : AgentSession :=
  let prompt := prompt.trimmed
  if prompt.isEmpty || self.deleted then self
  else { self with accepted := self.accepted ++ [prompt] }.sendAccepted steerWhileWorking prompt

/-- A queued message is steered. -/
def steerQueued (self : AgentSession) (id : Nat) : AgentSession :=
  match self.takeQueued id with
  | some (prompt, self) => self.deliver prompt
  | none => self

/-- The run is told to stop. -/
def interruptRun (self : AgentSession) : AgentSession :=
  { self with run := self.run.map fun run => { run with interrupted := true } }

/-- A queued message is sent at once. -/
def sendQueuedNow (self : AgentSession) (id : Nat) : AgentSession :=
  match self.takeQueued id with
  | some (prompt, self) => (if self.working then self.interruptRun else self).deliver prompt
  | none => self

/-- The user stops the agent. -/
def stop (self : AgentSession) : AgentSession :=
  let self := { self with promptAfterStop := none, userStopped := true }
  if self.run.isSome then self.interruptRun else { self with working := false }

/-- A question of the agent is answered. -/
def answer (self : AgentSession) (id : String) : AgentSession :=
  { self with pendingQuestions := self.pendingQuestions.eraseP fun pending => pending.id == id }

/-- The agent asks. -/
def pushQuestion (self : AgentSession) (questions : List UserInputQuestion) : AgentSession :=
  if questions.isEmpty then self else { self with pendingQuestions := self.pendingQuestions ++ [⟨questions⟩] }

/-! ### The end of a run -/

/-- The first queued message is sent, when the agent does not work. -/
def sendNextQueued (self : AgentSession) : AgentSession :=
  if self.working || self.deleted then self
  else
    match self.takeNextQueued with
    | some (next, self) => self.deliver next.prompt
    | none => self

def pushNotice (self : AgentSession) (text : String) (isError : Bool) : AgentSession :=
  { self with transcript := self.transcript.pushNotice text isError }

def cancelRunningTools (self : AgentSession) : AgentSession :=
  { self with transcript := self.transcript.cancelRunningTools }

/-- What of a run is over. -/
def clearRun (self : AgentSession) : AgentSession :=
  { self with
    run := none
    pendingQuestions := [] }.cancelRunningTools

/-- A run that was to copy a session is started again without. -/
def retryFork (self : AgentSession) (prompt : Prompt) : AgentSession :=
  { self with nativeForkErrors := [], forkSource := none, working := true }.startRun prompt

/-- What follows a run: the prompt that has come while it stopped, or what is queued. -/
def afterRun (self : AgentSession) : AgentSession :=
  let pending := self.promptAfterStop
  let self := { self with promptAfterStop := none }
  match pending.filter fun _ => !self.deleted with
  | some prompt => { self with working := true }.startRun prompt
  | none =>
    let self := { self with working := false }
    if self.userStopped then self else self.sendNextQueued

/-- A run has ended. -/
def runEnded (self : AgentSession) : AgentSession :=
  let self := self.clearRun
  let failed := self.nativeForkFailed
  let self := { self with nativeForkFailed := false }
  if failed then
    let forked := self.nativeForkPrompt
    let self := { self with nativeForkPrompt := none }
    match forked.filter fun _ => !self.deleted with
    | some prompt => self.retryFork prompt
    | none => self.afterRun
  else self.afterRun

/-- Whether the run is to copy a session, and has not told that it did. -/
def nativeForkPending (self : AgentSession) : Bool := self.nativeForkPrompt.isSome && self.nativeSessionId.isNone

/-- A run could not be started. -/
def failRun (self : AgentSession) (message : String) : AgentSession :=
  if self.nativeForkPending then { self with nativeForkFailed := true }.runEnded
  else
    ({ self with runFailed := true, transcript := self.transcript.markUndelivered }.pushNotice message true).runEnded

/-! ### Events -/

/-- The agent can start a turn on its own after a background command or subagent finishes. -/
def resumeWorking (self : AgentSession) : AgentSession := { self with working := true }

/-- The session of the agent is known. -/
def setNativeSessionId (self : AgentSession) (sessionId : String) : AgentSession :=
  if self.nativeSessionId = some sessionId then self
  else
    let self := { self with nativeSessionId := some sessionId }
    if self.nativeForkPrompt.isSome then
      let errors := self.nativeForkErrors
      let self :=
        { self with nativeForkPrompt := none, forkSource := none, forkContext := none, nativeForkErrors := [] }
      errors.foldl (fun self message => self.pushNotice message true) self
    else self

/-- The session that an event names, when it names one. -/
def noteSessionId (self : AgentSession) (sessionId : Option String) : AgentSession :=
  match sessionId.filter fun id => !id.isEmpty with
  | some id => self.setNativeSessionId id
  | none => self

/-- The notice that auto mode is not available. -/
def autoUnavailable : String :=
  "Auto mode isn't available here, so Claude will ask before acting. It's off with fast mode, and on some plans and models."

/-- A turn is over. -/
def turnDone (self : AgentSession) (status : DoneStatus) (error sessionId : Option String) : AgentSession :=
  let self := self.noteSessionId sessionId
  let self := { self with working := self.promptAfterStop.isSome, compacting := false }
  let self := { self with transcript := { self.transcript with textBlockOpen := false } }.cancelRunningTools
  let self :=
    match status with
    | .errored => { self with runFailed := true }.pushNotice (error.getD "The agent stopped with an error.") true
    | _ => self
  if status = .interrupted then self else self.sendNextQueued

/-- What the chat does with an event. -/
def applyEvent (self : AgentSession) : AgentEvent → AgentSession
  | .sessionStarted sessionId => self.noteSessionId (some sessionId)
  | .permissionModeReported mode =>
    if self.kind = .claude && self.permission = .auto && mode != "auto" && !self.noticedAutoUnavailable then
      { self with noticedAutoUnavailable := true }.pushNotice autoUnavailable false
    else self
  | .textDelta text => { self.resumeWorking with transcript := self.transcript.appendText text false }
  | .reasoningDelta text => { self.resumeWorking with transcript := self.transcript.appendText text true }
  | .assistantMessageCompleted => { self with transcript := { self.transcript with textBlockOpen := false } }
  | .steered => { self.resumeWorking with transcript := { self.transcript with textBlockOpen := false } }
  | .toolCall id => { self.resumeWorking with transcript := self.transcript.startTool id }
  | .toolResult id isError => { self with transcript := self.transcript.finishTool id isError }
  | .error message =>
    if self.nativeForkPending then { self with nativeForkErrors := self.nativeForkErrors ++ [message] }
    else self.pushNotice message true
  | .done status error sessionId =>
    if status = .errored && self.nativeForkPending then { self with nativeForkFailed := true }
    else self.turnDone status error sessionId
  | .generatedImage path => { self with transcript := self.transcript.push (.image path) }
  | .compacting active => { (if active then self.resumeWorking else self) with compacting := active }
  | .compacted manual =>
    { self with
      compacting := false
      restartOnNextSend := (manual && self.kind == AgentKind.claude) || self.restartOnNextSend }.pushNotice "Context compacted." false
  | .other => self

/-! ### Steps -/

/-- What happens to a chat. -/
inductive Action where
  | sendMessage (steerWhileWorking : Bool) (prompt : Prompt)
  | steerQueued (id : Nat)
  | sendQueuedNow (id : Nat)
  | removeQueued (id : Nat)
  | moveQueued (id toIndex : Nat)
  | beginQueuedEdit (id : Nat)
  | finishQueuedEdit (id : Nat) (edited : Option Prompt)
  | stop
  | answer (id : String)
  | runStarted
  | readSteering
  | closeSteering
  | event (event : AgentEvent)
  | streamError (message : String)
  | question (questions : List UserInputQuestion)
  | runFailed (message : String)
  | runEnded

/-- The stream of the events of a run is there: the run has received its request. -/
def runStarted (self : AgentSession) (run : ActiveRun) : AgentSession :=
  { self with run := some { run with started := true }, received := self.received ++ run.request.sends }

/-- The run reads a message. -/
def readSteering (self : AgentSession) (run : ActiveRun) (steer : Steer) (rest : List Steer) : AgentSession :=
  { self with run := some { run with steering := rest }, received := self.received ++ steer.sends }

/-- The run reads no more messages. -/
def closeSteering (self : AgentSession) (run : ActiveRun) : AgentSession :=
  { self with run := some { run with listening := false } }

/-- One step of a chat. What a run does ends when the chat drops it. -/
inductive Step (self : AgentSession) : Action → AgentSession → Prop where
  | sendMessage (steerWhileWorking : Bool) (prompt : Prompt) :
      Step self (.sendMessage steerWhileWorking prompt) (self.sendMessage steerWhileWorking prompt)
  | steerQueued (id : Nat) : Step self (.steerQueued id) (self.steerQueued id)
  | sendQueuedNow (id : Nat) : Step self (.sendQueuedNow id) (self.sendQueuedNow id)
  | removeQueued (id : Nat) : Step self (.removeQueued id) (self.removeQueued id)
  | moveQueued (id toIndex : Nat) : Step self (.moveQueued id toIndex) (self.moveQueued id toIndex)
  | beginQueuedEdit (id : Nat) : Step self (.beginQueuedEdit id) (self.beginQueuedEdit id)
  | finishQueuedEdit (id : Nat) (edited : Option Prompt) :
      Step self (.finishQueuedEdit id edited) (self.finishQueuedEdit id edited)
  | stop : Step self .stop self.stop
  | answer (id : String) : Step self (.answer id) (self.answer id)
  | runStarted (run : ActiveRun) (live : self.run = some run) (starting : run.started = false) :
      Step self .runStarted (self.runStarted run)
  | readSteering (run : ActiveRun) (live : self.run = some run) (listening : run.listening = true) (steer : Steer)
      (rest : List Steer) (unread : run.steering = steer :: rest) :
      Step self .readSteering (self.readSteering run steer rest)
  | closeSteering (run : ActiveRun) (live : self.run = some run) : Step self .closeSteering (self.closeSteering run)
  | event (run : ActiveRun) (live : self.run = some run) (started : run.started = true) (event : AgentEvent) :
      Step self (.event event) (self.applyEvent event)
  | streamError (run : ActiveRun) (live : self.run = some run) (started : run.started = true) (message : String) :
      Step self (.streamError message) (self.pushNotice message true)
  | question (run : ActiveRun) (live : self.run = some run) (started : run.started = true)
      (questions : List UserInputQuestion) : Step self (.question questions) (self.pushQuestion questions)
  | runFailed (run : ActiveRun) (live : self.run = some run) (starting : run.started = false) (message : String) :
      Step self (.runFailed message) (self.failRun message)
  | runEnded (run : ActiveRun) (live : self.run = some run) (started : run.started = true) :
      Step self .runEnded self.runEnded

/-- The states of a chat that runs lead to in which each step is allowed. -/
inductive Run (allowed : AgentSession → Action → Prop) (start : AgentSession) : AgentSession → Prop where
  | start : Run allowed start start
  | step {before after : AgentSession} {action : Action} (run : Run allowed start before)
      (step : Step before action after) (ok : allowed before action) : Run allowed start after

/-- A chat of Claude. -/
def claudeChat : AgentSession := new ⟨.claude, .auto, none, none, none⟩ ⟨[], false⟩ []

/-- A message of text only. -/
def message (text : String) (send : Nat) : Prompt := ⟨text, [], [], [send]⟩

end AgentSession

end Wu.AgentChat
