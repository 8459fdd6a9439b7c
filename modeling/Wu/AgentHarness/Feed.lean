import Wu.AgentHarness.Value
import Wu.Rope.Str

/-!
# The feed of an OpenCode session

The parts of a session's messages arrive as snapshots and as deltas, and the roles of the messages beside them. A feed keeps how
much of each part has been emitted, and the parts whose message's role is not known yet.
-/

namespace Wu.OpenCode

def outputCap : Nat := 4096

/-- The events that a part gives. A tool call is given by the tool's name and its input. -/
inductive AgentEvent where
  | textDelta (text : Str)
  | reasoningDelta (text : Str)
  | userMessage (text : Str)
  | toolCall (id tool : String) (input : Value)
  | toolResult (id : String) (isError : Bool) (output : Option Str)

/-- What the feed knows of a part. -/
structure PartState where
  kind : String
  emitted : Nat := 0
  toolStarted : Bool := false
  toolDone : Bool := false

/-- A part of a message: what is read of it. -/
structure Part where
  id : Option String
  messageId : Option String
  kind : String
  text : Str
  tool : String
  callId : Option String
  status : String
  input : Value
  output : Option Str

structure SessionFeed where
  messageIsAssistant : String → Option Bool := fun _ => none
  partsAwaitingRole : List Part := []
  parts : String → Option PartState := fun _ => none

/-! ## Reading parts -/

/-- The string of a key. -/
def strField (value : Value) (key : String) : Option String := (value.get key).bind Value.asStr

def Part.ofValue (part : Value) : Part where
  id := strField part "id"
  messageId := strField part "messageID"
  kind := (strField part "type").getD ""
  text := ((strField part "text").getD "").toList
  tool := (strField part "tool").getD ""
  callId := strField part "callID"
  status := ((part.get "state").bind fun state => strField state "status").getD ""
  input := ((part.get "state").bind fun state => state.get "input").getD .null
  output := (part.get "state").bind fun state =>
    (((state.get "output").or (state.get "error")).bind Value.asStr).map String.toList

/-- A text, cut at the last boundary before a number of bytes where it is longer. -/
def capText (text : Str) (cap : Nat) : Str :=
  if text.len ≤ cap then text
  else (((Str.splitAt text ((Str.seekDown (Str.isCharBoundary text) cap).getD 0)).map Prod.fst).getD []) ++ ['…']

/-- `text.get(start..)`. -/
def getFrom (text : Str) (start : Nat) : Option Str := (Str.splitAt text start).map Prod.snd

def isSpawnTool (tool : String) : Bool := tool == "task" || tool == "subagent"

namespace SessionFeed

/-- What the feed knows of a part, or what it knows of a new one of a kind. -/
def entry (feed : SessionFeed) (partId kind : String) : PartState := (feed.parts partId).getD { kind }

def setPart (feed : SessionFeed) (partId : String) (state : PartState) : SessionFeed :=
  { feed with parts := Function.update feed.parts partId (some state) }

/-- Hold a part back until its message's role is known: its first snapshot stays. -/
def holdPart (feed : SessionFeed) (part : Part) (partId : String) : SessionFeed :=
  if feed.partsAwaitingRole.any fun held => held.id == some partId then feed
  else { feed with partsAwaitingRole := feed.partsAwaitingRole ++ [part] }

/-! ## Parts -/

/-- A user's text: on the main feed it is the echo of the prompt, in a child it is the prompt sent to it. -/
def userText (feed : SessionFeed) (part : Part) (partId : String) (isMain : Bool) : SessionFeed × List AgentEvent :=
  if isMain then (feed, [])
  else if part.text.all Strings.isWhitespace then (feed, [])
  else
    let entry := feed.entry partId part.kind
    if 0 < entry.emitted then (feed.setPart partId entry, [])
    else (feed.setPart partId { entry with emitted := part.text.len }, [.userMessage part.text])

/-- A text of the agent's, or of its reasoning: what has not been emitted of it is. -/
def assistantText (feed : SessionFeed) (part : Part) (partId : String) : SessionFeed × List AgentEvent :=
  let entry := feed.entry partId part.kind
  match (getFrom part.text entry.emitted).filter fun suffix => !suffix.isEmpty with
  | none => (feed.setPart partId entry, [])
  | some suffix =>
    (feed.setPart partId { entry with emitted := part.text.len },
      [if entry.kind == "reasoning" then .reasoningDelta suffix else .textDelta suffix])

/-- A tool: its call when it has started, and its result when it is over. -/
def toolSnapshot (feed : SessionFeed) (part : Part) (partId : String) (isMain : Bool) : SessionFeed × List AgentEvent :=
  let callId := if isSpawnTool part.tool && isMain then partId else (part.callId.filter fun id => !id.isEmpty).getD partId
  let entry := feed.entry partId "tool"
  let hasInput := part.input.asObject.any fun input => !input.isEmpty
  let starts := !entry.toolStarted && (hasInput || ["running", "completed", "error"].contains part.status)
  let entry := { entry with toolStarted := entry.toolStarted || starts }
  let calls := if starts then [AgentEvent.toolCall callId part.tool part.input] else []
  let ends := entry.toolStarted && !entry.toolDone && ["completed", "error"].contains part.status
  let entry := { entry with toolDone := entry.toolDone || ends }
  let output := (part.output.filter fun text => !text.isEmpty).map fun text => capText text outputCap
  let results := if ends then [AgentEvent.toolResult callId (part.status == "error") output] else []
  (feed.setPart partId entry, calls ++ results)

def partSnapshotEvents (feed : SessionFeed) (part : Part) (isMain : Bool) : SessionFeed × List AgentEvent :=
  match part.id with
  | none => (feed, [])
  | some partId =>
    let role := feed.messageIsAssistant (part.messageId.getD "")
    if part.kind == "text" || part.kind == "reasoning" then
      if part.kind == "text" && role.isNone then (feed.holdPart part partId, [])
      else if part.kind == "text" && role == some false then feed.userText part partId isMain
      else if role != some true then
        if part.kind == "reasoning" then (feed.holdPart part partId, []) else (feed, [])
      else feed.assistantText part partId
    else if part.kind == "tool" then feed.toolSnapshot part partId isMain
    else (feed, [])

def partDeltaEvents (feed : SessionFeed) (messageId partId : String) (delta : Str) : SessionFeed × List AgentEvent :=
  if delta.isEmpty then (feed, [])
  else if feed.messageIsAssistant messageId != some true then (feed, [])
  else
    let entry := feed.entry partId "text"
    if entry.kind == "tool" then (feed.setPart partId entry, [])
    else
      (feed.setPart partId { entry with emitted := entry.emitted + delta.len },
        [if entry.kind == "reasoning" then .reasoningDelta delta else .textDelta delta])

/-! ## What reaches a feed -/

/-- The snapshots of parts, one after another. Each event comes with the id of its part, a record that nothing reads. -/
def snapshots (isMain : Bool) (feed : SessionFeed) : List Part → SessionFeed × List (String × AgentEvent)
  | [] => (feed, [])
  | part :: parts =>
    let (feed, events) := feed.partSnapshotEvents part isMain
    let (feed, later) := feed.snapshots isMain parts
    (feed, events.map (part.id.getD "", ·) ++ later)

/-- Take the parts of a message whose role is known now. -/
def replayPending (feed : SessionFeed) (message : String) (isMain : Bool) : SessionFeed × List (String × AgentEvent) :=
  let (held, kept) := feed.partsAwaitingRole.partition fun part => part.messageId == some message
  ({ feed with partsAwaitingRole := kept } : SessionFeed).snapshots isMain held

/-- What comes of a session. -/
inductive Update where
  | messageUpdated (message role : String)
  | partUpdated (part : Part)
  | partDelta (messageId partId : String) (delta : Str)

/-- The role of a message is the first that is announced. -/
def announce (feed : SessionFeed) (message role : String) : SessionFeed :=
  { feed with
    messageIsAssistant := Function.update feed.messageIsAssistant message
      (some ((feed.messageIsAssistant message).getD (role == "assistant"))) }

def handle (isMain : Bool) (feed : SessionFeed) : Update → SessionFeed × List (String × AgentEvent)
  | .messageUpdated message role => (feed.announce message role).replayPending message isMain
  | .partUpdated part =>
    let (feed, events) := feed.partSnapshotEvents part isMain
    (feed, events.map (part.id.getD "", ·))
  | .partDelta messageId partId delta =>
    let (feed, events) := feed.partDeltaEvents messageId partId delta
    (feed, events.map (partId, ·))

def run (isMain : Bool) (feed : SessionFeed) : List Update → SessionFeed × List (String × AgentEvent)
  | [] => (feed, [])
  | update :: updates =>
    let (feed, events) := feed.handle isMain update
    let (feed, later) := feed.run isMain updates
    (feed, events ++ later)

/-- The update that a bus event's payload is, for the session's own feed. -/
def Update.ofPayload (sessionId : String) (payload : Value) : Option Update :=
  let properties := (payload.get "properties").getD .null
  match strField payload "type" with
  | some "message.updated" => do
    let info := (properties.get "info").getD .null
    let session ← strField info "sessionID"
    let message ← strField info "id"
    let role ← strField info "role"
    if session == sessionId then some (.messageUpdated message role) else none
  | some "message.part.updated" => do
    let part := (properties.get "part").getD .null
    let session ← strField part "sessionID"
    if session == sessionId then some (.partUpdated (Part.ofValue part)) else none
  | some "message.part.delta" => do
    let session ← strField properties "sessionID"
    let partId ← strField properties "partID"
    let delta ← strField properties "delta"
    if strField properties "field" == some "text" && session == sessionId then
      some (.partDelta ((strField properties "messageID").getD "") partId delta.toList)
    else none
  | _ => none

end SessionFeed

end Wu.OpenCode
