import Mathlib.Data.List.Infix
import Wu.Assoc
import Wu.AgentHarness.CodexSession

/-!
# The frames of Claude Code

The frames that Claude Code writes, and the events that a run gives for them. A subagent's events carry the id of the tool call
that spawned it.
-/

namespace Wu.Claude

/-! ## Frames -/

structure WireBackgroundTask where
  taskId : String := ""
  taskType : Option String := none
  description : String := ""
  ambient : Bool := false

structure SystemFrame where
  subtype : String := ""
  permissionMode : Option String := none
  model : String := ""
  tools : List String := []
  cwd : String := ""
  sessionId : String := ""
  toolUseId : Option String := none
  status : Option String := none
  taskId : Option String := none
  subagentType : Option String := none
  compactMetadata : Option Value := none
  description : Option String := none
  taskType : Option String := none
  tasks : List WireBackgroundTask := []
  compactResult : Option String := none
  compactError : Option String := none

structure StreamEventFrame where
  parentToolUseId : Option String := none
  kind : String := ""
  deltaKind : String := ""
  text : String := ""
  thinking : String := ""

structure ContentBlock where
  kind : String := ""
  text : String := ""
  id : String := ""
  name : String := ""
  input : Value := .null
  toolUseId : String := ""
  isError : Option Bool := none

/-- A message: its blocks are those of the content that can be read. -/
structure MessageFrame where
  uuid : Option String := none
  parentToolUseId : Option String := none
  model : Option String := none
  usage : Option Value := none
  blocks : List ContentBlock := []
  error : Option String := none

structure RateLimitFrame where
  status : String := ""
  rateLimitType : Option String := none

/-- The end of a turn. The usage of the models is in the order of their names. -/
structure ResultFrame where
  modelUsage : List (String × Value) := []
  subtype : String := ""
  result : Option String := none
  errors : List Value := []
  inputTokens : Nat := 0
  outputTokens : Nat := 0
  sessionId : Option String := none

structure ControlRequestFrame where
  requestId : String := ""
  subtype : String := ""
  toolName : String := ""
  input : Value := .null

inductive Frame where
  | system (frame : SystemFrame)
  | streamEvent (frame : StreamEventFrame)
  | assistant (frame : MessageFrame)
  | user (frame : MessageFrame)
  | rateLimit (frame : RateLimitFrame)
  | result (frame : ResultFrame)
  | controlRequest (frame : ControlRequestFrame)
  | other

/-! ## Events -/

inductive BackgroundTaskKind where
  | agent
  | shell
  | other

structure BackgroundTaskInfo where
  taskId : String
  kind : BackgroundTaskKind
  description : String

/-- The events of a run. A tool call is given by the tool's name and its input. -/
inductive AgentEvent where
  | sessionStarted (model : String) (tools : List String) (cwd sessionId assistantMessageId : String)
  | permissionModeReported (mode : String)
  | textDelta (text : String)
  | reasoningDelta (text : String)
  | userMessage (text : String)
  | toolCall (id name : String) (input : Value)
  | toolResult (id : String) (isError : Bool)
  | subagent (parentToolUseId : String) (event : AgentEvent)
  | taskStarted (taskId : String) (toolUseId : Option String) (kind : BackgroundTaskKind) (description : String)
  | taskFinished (taskId : String) (status : DoneStatus)
  | backgroundTasksChanged (tasks : List BackgroundTaskInfo)
  | compacting (active : Bool)
  | compacted (tokens : Option Nat) (manual : Bool)
  | contextUsage (tokens window : Option Nat)
  | usage (inputTokens outputTokens : Nat)
  | assistantMessageCompleted (assistantMessageId : String)
  | steered (assistantMessageId nextAssistantMessageId : String)
  | error (message : String)
  | done (status : DoneStatus) (result error sessionId : Option String)

/-- Whether an event ends a turn of the run itself. -/
def AgentEvent.isDone : AgentEvent → Bool
  | done .. => true
  | _ => false

def assistantErrorText (code : String) : String :=
  if code = "authentication_failed" then "Authentication failed. Sign in to Claude again."
  else if code = "oauth_org_not_allowed" then "This organization isn't allowed to use Claude here."
  else if code = "billing_error" then "Billing error. Check your Claude plan or payment method."
  else if code = "rate_limit" then "Claude usage limit reached. Try again after the limit resets."
  else if code = "overloaded" then "Claude is overloaded right now. Try again shortly."
  else if code = "invalid_request" then "The request was rejected as invalid."
  else if code = "model_not_found" then "The selected model isn't available."
  else if code = "server_error" then "Claude had a server error. Try again."
  else if code = "max_output_tokens" then "The reply hit the maximum output length."
  else if code = "unknown" then "Claude returned an unspecified error."
  else "Claude error: " ++ code

def rateWindowLabel (kind : String) : String :=
  if kind = "five_hour" then "5-hour"
  else if kind = "seven_day" ∨ kind = "seven_day_overage_included" then "weekly"
  else if kind = "seven_day_opus" then "weekly (Opus)"
  else if kind = "seven_day_sonnet" then "weekly (Sonnet)"
  else if kind = "overage" then "overage"
  else "usage"

def resultErrorText (subtype : String) : String :=
  if subtype = "error_max_turns" then "The run hit the maximum number of turns."
  else if subtype = "error_max_budget_usd" then "The run hit its cost budget."
  else if subtype = "error_max_structured_output_retries" then "The run exhausted its structured-output retries."
  else "The run ended with an error."

/-- Whether a text has another in it. -/
def containsText (part text : String) : Bool := decide (part.toList <:+: text.toList)

def isInternalDiagnostic (message : String) : Bool := containsText "[ede_diagnostic]" message

def taskKind (taskType : Option String) (isSubagent : Bool) : BackgroundTaskKind :=
  if isSubagent then .agent
  else
    match taskType with
    | some kind =>
      if containsText "agent" kind then .agent
      else if containsText "bash" kind || containsText "shell" kind then .shell
      else .other
    | none => .other

def isSyntheticUserText (text : String) : Bool :=
  let text := (Strings.trimStart text).toList
  "<system-reminder>".toList.isPrefixOf text || "[Request interrupted".toList.isPrefixOf text

/-- A number that is a `u64`. -/
def asU64 : Value → Option Nat
  | .int value => if 0 ≤ value then some value.toNat else none
  | _ => none

/-- The value of the first of two keys that has one. -/
def firstOf (input : Value) (keys : List String) : Option Value := keys.findSome? input.get

/-- A string that is not empty. -/
def nonEmpty (text : Option String) : Option String := text.filter fun text => text ≠ ""

/-- How a background task has ended. -/
def notificationStatus (status : String) : Option DoneStatus :=
  if status ∈ ["completed", "complete", "succeeded", "success"] then some .completed
  else if status ∈ ["failed", "errored", "error"] then some .errored
  else if status ∈ ["killed", "cancelled", "canceled", "stopped", "interrupted"] then some .interrupted
  else none

/-! ## The normalizer -/

/-- The state of a run's normalizer. The ids of messages are made one after another. -/
structure Normalizer where
  sawInit : Bool := false
  compacting : Bool := false
  lastModel : Option String := none
  spawnByTaskId : List (String × String) := []
  spawnByToolId : List (String × String) := []
  spawnToolIds : List String := []
  assistantMessage : Nat := 0
  sessionId : Option String := none

/-- What the code takes from libraries: the text of a value, and the ids that are made. -/
structure Libraries where
  serde : Serde
  messageId : Nat → String

namespace Normalizer

variable (lib : Libraries)

/-- Begin another message: the ids of the message that ends and of the one that begins. -/
def rotateForSteer (n : Normalizer) : Normalizer × String × String :=
  ({ n with assistantMessage := n.assistantMessage + 1 }, lib.messageId n.assistantMessage, lib.messageId (n.assistantMessage + 1))

def normalizeSystem (n : Normalizer) (f : SystemFrame) : Normalizer × List AgentEvent :=
  if f.subtype = "task_notification" then
    match notificationStatus (f.status.getD "") with
    | none => (n, [])
    | some status =>
      let finished := (nonEmpty f.taskId).toList.map fun task => AgentEvent.taskFinished task status
      let parent := (f.taskId.bind fun task => Assoc.get task n.spawnByTaskId).or (nonEmpty f.toolUseId)
      -- Background shell tasks share this subtype and must not settle as subagents.
      let done := (parent.filter fun parent => parent ∈ n.spawnToolIds).toList.map fun parent =>
        AgentEvent.subagent parent (.done status none none none)
      (n, finished ++ done)
  else if f.subtype = "background_tasks_changed" then
    let tasks := (f.tasks.filter fun task => !task.ambient && task.taskId ≠ "").map fun task =>
      { taskId := task.taskId, kind := taskKind task.taskType false, description := task.description }
    (n, [.backgroundTasksChanged tasks])
  else if f.subtype = "task_started" then
    match nonEmpty f.taskId with
    | none => (n, [])
    | some task =>
      let tool := nonEmpty f.toolUseId
      let n :=
        match f.subagentType, tool with
        | some _, some tool =>
          let spawn := (Assoc.get task n.spawnByTaskId).getD tool
          { n with
            spawnByTaskId := Assoc.update task (fun found => found.getD tool) n.spawnByTaskId
            spawnToolIds := n.spawnToolIds.insert spawn
            spawnByToolId := Assoc.update tool (fun _ => spawn) n.spawnByToolId }
        | _, _ => n
      (n, [.taskStarted task tool (taskKind f.taskType f.subagentType.isSome) ((f.description.or f.subagentType).getD "")])
  else if f.subtype = "status" then
    if f.status = some "compacting" then
      if n.compacting then (n, []) else ({ n with compacting := true }, [.compacting true])
    else
      let ended := if n.compacting then [AgentEvent.compacting false] else []
      let failed :=
        if f.compactResult = some "failed" then
          [AgentEvent.error ("Couldn't compact the conversation: " ++ f.compactError.getD "unknown error")]
        else []
      ({ n with compacting := false }, ended ++ failed)
  else if f.subtype = "compact_boundary" then
    let metadata := f.compactMetadata.getD .null
    let tokens := ["post_tokens", "postTokens"].findSome? fun key => (metadata.get key).bind asU64
    ({ n with compacting := false }, [.compacted tokens ((metadata.get "trigger").bind Value.asStr == some "manual")])
  else if f.subtype ≠ "init" ∨ n.sawInit then (n, [])
  else
    ({ n with sawInit := true, sessionId := some f.sessionId },
      .sessionStarted f.model f.tools f.cwd f.sessionId (lib.messageId n.assistantMessage) ::
        f.permissionMode.toList.map AgentEvent.permissionModeReported)

def normalizeStreamEvent (n : Normalizer) (f : StreamEventFrame) : List AgentEvent :=
  if f.kind ≠ "content_block_delta" then []
  else
    match f.parentToolUseId with
    | some parent =>
      let parent := (Assoc.get parent n.spawnByToolId).getD parent
      if f.deltaKind = "text_delta" then [.subagent parent (.textDelta f.text)]
      else if f.deltaKind = "thinking_delta" ∧ f.thinking ≠ "" then [.subagent parent (.reasoningDelta f.thinking)]
      else []
    | none =>
      if f.deltaKind = "text_delta" then [.textDelta f.text]
      else if f.deltaKind = "thinking_delta" then [.reasoningDelta f.thinking]
      else if f.deltaKind = "input_json_delta" then [.reasoningDelta ""]
      else []

/-- Whether a tool spawns a subagent. -/
def isSpawn (name : String) : Bool := name = "Agent" || name = "Task"

/-- The events of a tool call: the call, the prompt that a spawn gives its subagent, and a message to a subagent. -/
def toolUseEvents (n : Normalizer) (b : ContentBlock) : List AgentEvent :=
  let opening :=
    if isSpawn b.name then
      (((b.input.get "prompt").bind Value.asStr).filter fun prompt => Strings.trim prompt ≠ "").toList.map fun prompt =>
        AgentEvent.subagent b.id (.userMessage prompt)
    else []
  let steer :=
    if b.name = "SendMessage" then
      match ((firstOf b.input ["to", "recipient"]).bind Value.asStr).bind fun task => Assoc.get task n.spawnByTaskId,
          ((firstOf b.input ["message", "content"]).bind Value.asStr).filter fun text => Strings.trim text ≠ "" with
      | some spawn, some text => [AgentEvent.subagent spawn (.userMessage text)]
      | _, _ => []
    else []
  .toolCall b.id b.name b.input :: opening ++ steer

/-- The largest `u64`. -/
def maxU64 : Nat := 18446744073709551615

def usageFields : List String := ["input_tokens", "cache_read_input_tokens", "cache_creation_input_tokens"]

def normalizeAssistant (n : Normalizer) (f : MessageFrame) : Normalizer × List AgentEvent :=
  match f.parentToolUseId with
  | some parent =>
    let parent := (Assoc.get parent n.spawnByToolId).getD parent
    let blocks := f.blocks.flatMap fun b =>
      if b.kind = "text" ∧ b.text ≠ "" then [AgentEvent.subagent parent (.textDelta (Strings.trimEnd b.text ++ "\n\n"))]
      else if b.kind = "tool_use" then [AgentEvent.subagent parent (.toolCall b.id b.name b.input)]
      else []
    (n, blocks ++ f.error.toList.map fun code => AgentEvent.subagent parent (.error (assistantErrorText code)))
  | none =>
    -- A task can finish before its start is reported.
    let spawned := (f.blocks.filter fun b => b.kind = "tool_use" && isSpawn b.name).map fun b => b.id
    let n := { n with spawnToolIds := spawned.foldl (fun ids id => ids.insert id) n.spawnToolIds }
    let tools := (f.blocks.filter fun b => b.kind = "tool_use").flatMap n.toolUseEvents
    let n := { n with lastModel := f.model.or n.lastModel }
    let counts := match f.usage with
      | some usage => usageFields.filterMap fun key => (usage.get key).bind asU64
      | none => []
    let usage :=
      if counts.isEmpty then []
      else [AgentEvent.contextUsage (some (counts.foldl (fun total count => min (total + count) maxU64) 0)) none]
    let errors := f.error.toList.map fun code => AgentEvent.error (assistantErrorText code)
    let (n, prev, _) := n.rotateForSteer lib
    (n, tools ++ usage ++ errors ++ [.assistantMessageCompleted prev])

def normalizeUser (n : Normalizer) (f : MessageFrame) : List AgentEvent :=
  let results := (f.blocks.filter fun b => b.kind = "tool_result").map fun b =>
    AgentEvent.toolResult b.toolUseId (b.isError.getD false)
  match f.parentToolUseId with
  | some parent =>
    let parent := (Assoc.get parent n.spawnByToolId).getD parent
    let texts := f.blocks.filter fun b => b.kind = "text" && Strings.trim b.text ≠ "" && !isSyntheticUserText b.text
    (results.map (.subagent parent)) ++ texts.map fun b => .subagent parent (.userMessage b.text)
  | none => results

/-- The context window of the model of a turn. -/
def windowOf (n : Normalizer) (f : ResultFrame) : Option Nat :=
  let ofModel := n.lastModel.bind fun model =>
    (Assoc.get model f.modelUsage).or
      ((f.modelUsage.map Prod.snd).find? fun entry => (entry.get "canonicalModel").bind Value.asStr == some model)
  let only := match f.modelUsage with
    | [entry] => some entry.2
    | _ => none
  (((ofModel.or only).bind fun entry => entry.get "contextWindow").bind asU64).filter fun window => 0 < window

/-- The end of a turn: what the result says, or that the run was interrupted. -/
def doneOf (f : ResultFrame) (interrupted : Bool) : AgentEvent :=
  if f.subtype = "success" then
    .done (if interrupted then .interrupted else .completed) f.result none f.sessionId
  else
    let messages := f.errors.map fun error => error.asStr.getD (lib.serde.print error)
    let errors := messages.filter fun message => !isInternalDiagnostic message
    let error :=
      if !errors.isEmpty then some ("; ".intercalate errors)
      else if f.subtype ∈ ["error_max_turns", "error_max_budget_usd", "error_max_structured_output_retries"] then
        some (resultErrorText f.subtype)
      else if messages.any isInternalDiagnostic then none
      else some (resultErrorText f.subtype)
    .done (if interrupted then .interrupted else .errored) none error f.sessionId

def normalizeResult (n : Normalizer) (f : ResultFrame) (interrupted : Bool) : Normalizer × List AgentEvent :=
  let window := (n.windowOf f).toList.map fun window => AgentEvent.contextUsage none (some window)
  ({ n with sessionId := f.sessionId.or n.sessionId }, window ++ [.usage f.inputTokens f.outputTokens, doneOf lib f interrupted])

/-- The events of a frame. -/
def normalize (n : Normalizer) (frame : Frame) (interrupted : Bool) : Normalizer × List AgentEvent :=
  match frame with
  | .system f => n.normalizeSystem lib f
  | .streamEvent f => (n, n.normalizeStreamEvent f)
  | .assistant f => n.normalizeAssistant lib f
  | .user f => (n, n.normalizeUser f)
  | .rateLimit f =>
    if f.status ≠ "rejected" then (n, [])
    else (n, [.error ("Claude " ++ rateWindowLabel (f.rateLimitType.getD "") ++
      " limit reached and the turn was blocked. Try again after it resets.")])
  | .result f => n.normalizeResult lib f interrupted
  | .controlRequest _ => (n, [])
  | .other => (n, [])

end Normalizer

end Wu.Claude
