import Wu.AgentHarness.CodexSession
import Wu.Assoc

/-!
# The subagents of a Codex run

The parent's items tell which of its calls has spawned which child, and the children's own notifications come beside them, in any
order. What is emitted for a child is tagged with the call that owns it, and waits in a buffer until there is one. What the
children's notifications are mapped to, and the parent's items that spawn nothing, are a parameter.
-/

namespace Wu.Codex

/-- What is emitted for a parent: calls and their results, and the events of its children. `child` is a record that nothing reads:
the child that the event is of. -/
inductive ParentEvent (E : Type) where
  | toolCall (id name : String) (input : Value)
  | toolResult (id : String) (isError : Bool)
  | subagent (child parentToolUseId : String) (event : E)
  | other (event : E)

/-- Whether an item starts or is over. -/
inductive ItemPhase where
  | started
  | completed
  deriving DecidableEq

/-- What a child's notifications are mapped to, the length of an event in JSON, and what the parent's other items are mapped to. -/
structure Mapping (E S : Type) where
  start : S
  map : S → String → String → Value → S × List E
  size : E → Option Nat
  mapOther : ItemPhase → Value → List (ParentEvent E)

/-! ## Items -/

def itemType (item : Value) : String := ((item.get "type").bind Value.asStr).getD ""

def isCollab (item : Value) : Bool := ["collabAgentToolCall", "collab_agent_tool_call"].contains (itemType item)

def isActivity (item : Value) : Bool := ["subAgentActivity", "sub_agent_activity"].contains (itemType item)

def isCollabSpawn (item : Value) : Bool :=
  isCollab item && ((item.get "tool").bind Value.asStr).any fun tool => ["spawnAgent", "spawn_agent"].contains tool

/-- The child that a call has spawned, where the call has not failed and has one. -/
def collabSpawnChild (item : Value) : Option String :=
  if !isCollabSpawn item || ((item.get "status").bind Value.asStr).any fun status => ["failed", "errored"].contains status then
    none
  else
    match (fieldOf item ["receiverThreadIds", "receiver_thread_ids"]).bind Value.asArray with
    | some [child] => child.asStr.filter fun id => !id.isEmpty
    | _ => none

/-- Whether an activity is the start of a child. -/
def startsChild (item : Value) : Bool :=
  ((item.get "kind").bind Value.asStr).any fun kind => ["started", "spawned"].contains kind

/-- The last part of a path that is not empty. -/
def pathLeaf (path : String) : Option String :=
  ((path.toList.splitOn '/').reverse.find? fun part => !part.isEmpty).map String.ofList

/-- Whether a call's name is that of the spawn of a subagent. -/
def isSubagentSpawn (name : String) : Bool := name == "Agent" || (Strings.stripPrefix "Agent: " name).isSome

variable {E S : Type}

/-- A call when it starts, and the call with its result when it is over. -/
def toolLifecycle (phase : ItemPhase) (id name : String) (input : Value) (isError : Bool) : List (ParentEvent E) :=
  match phase with
  | .started => [.toolCall id name input]
  | .completed => [.toolCall id name input, .toolResult id isError]

def collabName (item : Value) : String :=
  if isCollabSpawn item then "Agent"
  else
    let tool := strField item ["tool"]
    if ["sendInput", "send_input"].contains tool then "Send agent message"
    else if tool == "wait" then "Wait for agents"
    else if ["closeAgent", "close_agent"].contains tool then "Close agent"
    else if ["resumeAgent", "resume_agent"].contains tool then "Resume agent"
    else "Agent control: " ++ tool

def activityName (item : Value) : String :=
  ((pathLeaf (strField item ["agentPath"])).map fun leaf => "Agent: " ++ leaf).getD "Agent"

/-- What an item is mapped to. -/
def mapItem (mapping : Mapping E S) (phase : ItemPhase) (item : Value) : List (ParentEvent E) :=
  let id := strField item ["id"]
  if isCollab item then
    toolLifecycle phase id (collabName item) item (["failed", "errored"].contains (strField item ["status"]))
  else if isActivity item then
    if startsChild item then
      toolLifecycle phase id (activityName item) item (["failed", "errored"].contains (strField item ["kind"]))
    else []
  else mapping.mapOther phase item

/-- The child of an item, or nothing where the item is left out. -/
def childOf (item : Value) : Option (Option String) :=
  if isActivity item then
    if ["/", "/root"].contains (((item.get "agentPath").bind Value.asStr).getD "") then none
    else if startsChild item then some ((item.get "agentThreadId").bind Value.asStr)
    else none
  else some (collabSpawnChild item)

/-- An item under another id. -/
def withId (item : Value) (id : String) : Value :=
  match item with
  | .object entries => .object (Value.insertEntry "id" (.string id) entries)
  | _ => item

/-! ## Routing -/

def maxPendingBytes : Nat := 4 * 1024 * 1024

/-- What waits for a child's owner. -/
structure Pending (E : Type) where
  events : List E
  bytes : Nat

/-- The subagents of a parent. The ids that have been emitted and resolved are in the order in which they have been. -/
structure Subagents (E S : Type) where
  root : String
  spawns : String → Option String
  pending : List (String × Pending E)
  pendingBytes : Nat
  warnedOverflow : Bool
  streams : String → Option S
  emittedSpawns : List String
  resolvedSpawns : List String

namespace Subagents

def new (root : String) : Subagents E S where
  root
  spawns := fun _ => none
  pending := []
  pendingBytes := 0
  warnedOverflow := false
  streams := fun _ => none
  emittedSpawns := []
  resolvedSpawns := []

/-- The events of a child, tagged with its owner. -/
def tag (child owner : String) (events : List E) : List (ParentEvent E) := events.map (.subagent child owner)

/-- An event waits for its child's owner, unless too much does. -/
def buffer (mapping : Mapping E S) (self : Subagents E S) (child : String) (event : E) : Subagents E S :=
  let bytes := (mapping.size event).getD maxPendingBytes
  if maxPendingBytes < self.pendingBytes + bytes then { self with warnedOverflow := true }
  else
    { self with
      pendingBytes := self.pendingBytes + bytes
      pending := Assoc.update child
        (fun pending =>
          let pending := pending.getD ⟨[], 0⟩
          ⟨pending.events ++ [event], pending.bytes + bytes⟩)
        self.pending }

def route (mapping : Mapping E S) (self : Subagents E S) (child : String) (events : List E) : Subagents E S × List (ParentEvent E) :=
  if child.isEmpty || child == self.root then (self, [])
  else
    match self.spawns child with
    | some owner => (self, tag child owner events)
    | none => (events.foldl (fun self event => self.buffer mapping child event) self, [])

/-- Bind a child to the call that spawned it, where it has no owner yet, and let go of what waits for one. -/
def bind (self : Subagents E S) (child spawn : String) : Subagents E S × List (ParentEvent E) :=
  if child.isEmpty || child == self.root || spawn.isEmpty then (self, [])
  else
    let owner := (self.spawns child).getD spawn
    let self := { self with spawns := Function.update self.spawns child (some owner) }
    match Assoc.get child self.pending with
    | none => (self, [])
    | some pending =>
      ({ self with pending := Assoc.erase child self.pending, pendingBytes := self.pendingBytes - pending.bytes },
        tag child owner pending.events)

def notification (mapping : Mapping E S) (self : Subagents E S) (child method : String) (params : Value) :
    Subagents E S × List (ParentEvent E) :=
  let (stream, events) := mapping.map ((self.streams child).getD mapping.start) child method params
  ({ self with streams := Function.update self.streams child (some stream) } : Subagents E S).route mapping child events

/-- Leave out what has been emitted: an item that is over repeats its call. -/
def keepFirst (self : Subagents E S) : List (ParentEvent E) → Subagents E S × List (ParentEvent E)
  | [] => (self, [])
  | event :: events =>
    let (self, kept) : Subagents E S × Bool :=
      match event with
      | .toolCall id name _ =>
        if isSubagentSpawn name then
          if self.emittedSpawns.contains id then (self, false)
          else ({ self with emittedSpawns := self.emittedSpawns ++ [id] }, true)
        else (self, true)
      | .toolResult id _ =>
        if self.emittedSpawns.contains id then
          if self.resolvedSpawns.contains id then (self, false)
          else ({ self with resolvedSpawns := self.resolvedSpawns ++ [id] }, true)
        else (self, true)
      | _ => (self, true)
    let (self, later) := self.keepFirst events
    (self, if kept then event :: later else later)

def parentItem (mapping : Mapping E S) (self : Subagents E S) (phase : ItemPhase) (item : Value) :
    Subagents E S × List (ParentEvent E) :=
  match childOf item with
  | none => (self, [])
  | some none => self.keepFirst (mapItem mapping phase item)
  | some (some child) =>
    if child = self.root then (self, [])
    else
      let call := ((item.get "id").bind Value.asStr).getD ""
      let (self, buffered) := self.bind child call
      let item := ((self.spawns child).map (withId item)).getD item
      let (self, events) := self.keepFirst (mapItem mapping phase item)
      (self, events ++ buffered)

end Subagents

end Wu.Codex
