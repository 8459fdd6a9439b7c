import Wu.AgentHarness.ClaudeNormalizer

/-!
# The session loop of Claude Code

A run queues its first message on the process's standard input and then takes what comes: lines, messages that steer, an
interrupt, and the time at which a held end of a turn is let go. A line that steers is confirmed when the process replays it. The
consumer of the events stays. The log of a session is what has been queued and emitted, in order.
-/

namespace Wu.Claude

inductive Line where
  | blank
  | unparseable
  | frame (frame : Frame)

/-- A line that steers. It is immediate only when no tool is open. -/
structure SteerLine where
  id : String
  prompt : String
  immediate : Bool

/-- What has happened in a run. -/
inductive Entry where
  | prompted
  | queued (line : SteerLine)
  | steered (id : String) (event : AgentEvent)
  | emitted (event : AgentEvent)
  | failed
  | interrupted

structure Session where
  norm : Normalizer
  pendingSteers : List String
  openTools : List String
  steeringOpen : Bool
  interrupted : Bool
  interruptSent : Bool
  anyDone : Bool
  heldDone : Option AgentEvent
  doneAfterInterrupt : Bool
  log : List Entry

/-- What a session waits for. Of a message that steers, it comes with the id that is made for it, the problems of its images, and
whether the writer of the standard input still takes lines. -/
inductive Arrival where
  | line (line : Line)
  | eof
  | failure
  | steer (message : SteerMessage) (id : String) (imageProblems : List String) (sent : Bool)
  | steeringClosed
  | interrupt
  | heldTimeout

namespace Session

variable (lib : Libraries)

/-- A run that has queued its first message. -/
def start (norm : Normalizer) (imageProblems : List String) : Session where
  norm := norm
  pendingSteers := []
  openTools := []
  steeringOpen := true
  interrupted := false
  interruptSent := false
  anyDone := false
  heldDone := none
  doneAfterInterrupt := false
  log := .prompted :: imageProblems.map fun problem => .emitted (.error problem)

def record (s : Session) (entry : Entry) : Session := { s with log := s.log ++ [entry] }

/-- Confirm the oldest steers that are pending. -/
def confirm (s : Session) : Nat → Session
  | 0 => s
  | count + 1 =>
    match s.pendingSteers with
    | [] => s
    | id :: rest =>
      let (norm, prev, next) := s.norm.rotateForSteer lib
      ({ s with norm, pendingSteers := rest }.record (.steered id (.steered prev next))).confirm count

/-- A replay confirms every steer up to it: steers that are superseded are never replayed. -/
def onUser (s : Session) (user : MessageFrame) : Session :=
  match user.parentToolUseId, user.uuid.bind fun id => s.pendingSteers.idxOf? id with
  | none, some index => s.confirm lib (index + 1)
  | _, _ => s

/-- The tools that are open after an event. -/
def openToolsAfter (openTools : List String) : AgentEvent → List String
  | .toolCall id _ _ => openTools.insert id
  | .toolResult id _ => openTools.filter fun other => other ≠ id
  | .done .. => []
  | _ => openTools

/-- Pass an event on, and whether the loop goes on. The end of a turn is held while steers are pending. -/
def onEvent (s : Session) (event : AgentEvent) : Session × Bool :=
  let s := { s with openTools := openToolsAfter s.openTools event }
  if event.isDone then
    if !s.interrupted && !s.pendingSteers.isEmpty then ({ s with heldDone := some event }, true)
    else
      let s := { s with heldDone := none, anyDone := true }.record (.emitted event)
      if s.interrupted then ({ s with doneAfterInterrupt := true }, false) else (s, true)
  else (s.record (.emitted event), true)

def onEvents (s : Session) : List AgentEvent → Session × Bool
  | [] => (s, true)
  | event :: events =>
    match s.onEvent event with
    | (s, true) => s.onEvents events
    | (s, false) => (s, false)

/-- Requests of the process are answered on its standard input, and by nothing else. -/
def onFrame (s : Session) (frame : Frame) : Session × Bool :=
  match frame with
  | .controlRequest _ => (s, true)
  | .user user =>
    let s := s.onUser lib user
    let (norm, events) := s.norm.normalize lib frame s.interrupted
    { s with norm }.onEvents events
  | _ =>
    let (norm, events) := s.norm.normalize lib frame s.interrupted
    { s with norm }.onEvents events

/-- Whether the loop waits for an arrival. -/
def awaits (s : Session) : Arrival → Bool
  | .steer .. => s.steeringOpen && !s.interrupted
  | .steeringClosed => s.steeringOpen && !s.interrupted
  | .interrupt => !s.interruptSent
  | .heldTimeout => s.heldDone.isSome
  | _ => true

/-- Take an arrival, and whether the loop goes on. -/
def take (s : Session) : Arrival → Session × Bool
  | .line (.frame frame) => s.onFrame lib frame
  | .line _ => (s, true)
  | .eof => (s, false)
  | .failure => (s.record .failed, false)
  | .steer message id imageProblems sent =>
    let s := { s with log := s.log ++ imageProblems.map fun problem => Entry.emitted (.error problem) }
    let s := { s with pendingSteers := s.pendingSteers ++ [id] }
    if sent then (s.record (.queued { id, prompt := message.prompt, immediate := s.openTools.isEmpty }), true)
    else (s, false)
  | .steeringClosed => ({ s with steeringOpen := false }, true)
  | .interrupt => ({ s with interruptSent := true, interrupted := true }.record .interrupted, true)
  | .heldTimeout =>
    let s := s.confirm lib s.pendingSteers.length
    match s.heldDone with
    | some done => ({ s with heldDone := none, anyDone := true }.record (.emitted done), true)
    | none => (s, true)

/-- Let go of a held end of a turn. -/
def release (s : Session) : Session :=
  match s.heldDone with
  | some done => { s with heldDone := none, anyDone := true }.record (.emitted done)
  | none => s

/-- What is emitted after the loop. -/
def finish (s : Session) (crash : String) : Session :=
  let s := s.release
  if s.interrupted && !s.doneAfterInterrupt then s.record (.emitted (.done .interrupted none none s.norm.sessionId))
  else if !s.interrupted && !s.anyDone then s.record (.emitted (.done .errored none (some crash) s.norm.sessionId))
  else s

end Session

end Wu.Claude
