import Wu.AgentHarness.CodexSession

/-!
# The run loop of OpenCode

A run posts a prompt to the server and takes what comes: events of the bus, answers to the question whether the session is
running, and messages that steer. A turn settles when an idle is confirmed, or when the session is said not to run. Times are in
milliseconds.
-/

namespace Wu.OpenCode

def retryReportAttempt : Nat := 3

def retryAbortAttempt : Nat := 8

structure QueuedSteer where
  prompt : String
  nativeCommandSelected : Bool
  attachments : List String

/-- The prompt of a message, with the skills that it refers to. A single skill that the text begins with is a command. -/
def planPrompt (prompt : String) (skills : List SkillRef) (attachments : List String) : String × Bool :=
  let names := (skills.map fun skill => skill.name).eraseDups
  let command : Option String :=
    match names, attachments with
    | [only], [] =>
      (Strings.stripPrefix "$" (Strings.trimStart prompt)).bind fun rest =>
        let name := String.ofList (rest.toList.takeWhile fun c => !Strings.isWhitespace c)
        if name = only then some ("/" ++ only ++ String.ofList (rest.toList.dropWhile fun c => !Strings.isWhitespace c))
        else none
    | _, _ => none
  match names, command with
  | [], _ => (prompt, false)
  | _, some command => (command, true)
  | names, none =>
    let list := ", ".intercalate (names.map fun name => "`" ++ name ++ "`")
    (prompt ++ "\n\nBefore you start, load these skills with the `skill` tool: " ++ list ++ ".", false)

structure TurnState where
  active : Bool
  /-- An idle settles this turn only after its own busy or retry, or after it was aborted. -/
  idleReady : Bool
  idleConfirmations : Nat
  statusPoll : Option Nat
  statusBackoff : Nat
  sawContent : Bool
  error : Option String
  retryReported : Bool
  abortedForRetry : Bool
  openTools : List String
  /-- Aborted to deliver a steer. -/
  preempted : Bool

def TurnState.begin : TurnState where
  active := true
  idleReady := false
  idleConfirmations := 0
  statusPoll := none
  statusBackoff := 100
  sawContent := false
  error := none
  retryReported := false
  abortedForRetry := false
  openTools := []
  preempted := false

/-! ## Events of the bus -/

/-- The two encodings of an idle. -/
inductive Idle where
  | session
  | status
  deriving DecidableEq

/-- What the events of a part say of a tool, and whether they are text or a tool call. -/
structure Content where
  opened : List String
  closed : List String
  isContent : Bool

/-- The events of the bus: those of the session, errors that name no session, and those that are not its own. -/
inductive BusEvent where
  | interrupted
  | idle (encoding : Idle)
  | busy
  | retry (attempt : Nat) (message : String)
  | error (own : Bool) (name message : String)
  | content (content : Content)
  | other (own : Bool)

/-- Whether an event is the session's own. -/
def BusEvent.isOurs : BusEvent → Bool
  | error own _ _ => own
  | other own => own
  | _ => true

def BusEvent.isIdle : BusEvent → Bool
  | idle _ => true
  | _ => false

inductive BusOutcome where
  | goesOn
  | turnIdle
  | turnInterrupted
  deriving DecidableEq

namespace TurnState

/-- An event of its own that is no idle: the session is running. -/
def noteOwn (turn : TurnState) : TurnState :=
  if turn.active then { turn with idleConfirmations := 0, statusPoll := none, statusBackoff := 100 } else turn

/-- What the events of a part mark in the turn. -/
def markContent (turn : TurnState) (content : Content) : TurnState :=
  { turn with
    openTools := (content.opened.foldl (fun tools id => tools.insert id) turn.openTools).filter fun id => id ∉ content.closed
    sawContent := turn.sawContent || (turn.active && content.isContent) }

/-- An idle: it confirms the end of a turn that is ready for it, and has the server asked in any case. -/
def onIdle (turn : TurnState) (now : Nat) : TurnState × BusOutcome :=
  let confirms := turn.idleReady || turn.error.isSome
  let turn := if confirms then { turn with idleConfirmations := turn.idleConfirmations + 1 } else turn
  if confirms && decide (2 ≤ turn.idleConfirmations) then (turn, .turnIdle)
  else ({ turn with statusPoll := some (now + turn.statusBackoff) }, .goesOn)

/-- A retry of the provider; at the last attempt the turn is aborted. -/
def onRetry (turn : TurnState) (attempt : Nat) (message : String) : TurnState × Bool :=
  let turn := { turn with idleReady := true }
  if retryAbortAttempt ≤ attempt ∧ turn.abortedForRetry = false then
    ({ turn with
      abortedForRetry := true
      error := some ("the provider kept failing after " ++ toString attempt ++ " attempts: " ++ message) }, true)
  else if retryReportAttempt ≤ attempt ∧ turn.retryReported = false then ({ turn with retryReported := true }, false)
  else (turn, false)

/-- Take an event of the bus: the turn after it, the outcome, and whether the session is aborted. -/
def handleBusEvent (turn : TurnState) (event : BusEvent) (now : Nat) : TurnState × BusOutcome × Bool :=
  match event with
  | .interrupted => (turn, .turnInterrupted, false)
  | .idle _ =>
    let (turn, outcome) := turn.onIdle now
    (turn, outcome, false)
  | event =>
    let turn := if event.isOurs then turn.noteOwn else turn
    match event with
    | .busy => ({ turn with idleReady := true }, .goesOn, false)
    | .retry attempt message =>
      let (turn, aborts) := turn.onRetry attempt message
      (turn, .goesOn, aborts)
    | .error _ name message =>
      if name = "MessageAbortedError" then (turn, .goesOn, false)
      else ({ turn with error := some message }, .goesOn, false)
    | .content content => (turn.markContent content, .goesOn, false)
    | _ => (turn, .goesOn, false)

end TurnState

/-! ## The loop -/

/-- What a run has done. -/
inductive Note where
  | settled (generation : Nat)
  | posted (generation : Nat) (prompt : String) (attachments : List String)
  | steered
  | messageCompleted
  | error (message : String)
  | done (status : DoneStatus) (error : Option String)

structure Run where
  turn : TurnState
  generation : Nat
  queuedSteers : List QueuedSteer
  steeringOpen : Bool
  interruptRequested : Bool
  ended : Bool
  log : List Note

/-- What a run asks of the server. -/
inductive Request where
  | prompt (generation : Nat)
  | abort

namespace Run

def note (run : Run) (notes : List Note) : Run := { run with log := run.log ++ notes }

/-- The last of a turn that no steer follows. -/
def complete (run : Run) : Run :=
  let errored := run.turn.abortedForRetry || (run.turn.error.isSome && !run.turn.sawContent)
  if errored then { run.note [.messageCompleted, .done .errored run.turn.error] with ended := true }
  else if !run.steeringOpen then { run.note [.messageCompleted, .done .completed none] with ended := true }
  else run.note [.messageCompleted, .done .completed none]

/-- The steers that are delivered together: a command goes alone. -/
def batchOf (first : QueuedSteer) (rest : List QueuedSteer) : List QueuedSteer :=
  if first.nativeCommandSelected then [first] else first :: rest.takeWhile fun steer => !steer.nativeCommandSelected

/-- Begin the turn of a prompt that is posted, and acknowledge the steers in it. -/
def beginTurn (run : Run) (prompt : String) (attachments : List String) (steers : Nat) : Run × List Request :=
  let generation := run.generation + 1
  ({ run.note (.posted generation prompt attachments :: List.replicate steers .steered) with
    turn := .begin
    generation }, [.prompt generation])

/-- The turn is active no more. -/
def closeTurn (run : Run) : Run :=
  { run with turn := { run.turn with active := false } }.note [.settled run.generation]

/-- The turn ends with the error of a prompt that could not be posted. -/
def failPost (run : Run) (error : String) : Run :=
  let run := { run with
    generation := run.generation + 1
    turn := { run.turn with error := some error, abortedForRetry := true } }
  (run.note [.error error]).complete

/-- Settle the turn, and deliver what has been queued. A prompt that cannot be posted is an error. -/
def settleIdle (run : Run) (postError : Option String) : Run × List Request :=
  if !run.turn.active then (run, [])
  else
    let run := run.closeTurn
    if run.interruptRequested then ({ run.note [.done .interrupted none] with ended := true }, [])
    else
      match run.queuedSteers with
      | [] => (run.complete, [])
      | first :: rest =>
        let batch := batchOf first rest
        let run := { run with queuedSteers := rest.drop (batch.length - 1) }
        match postError with
        | none =>
          run.beginTurn ("\n\n".intercalate (batch.map fun steer => steer.prompt))
            (batch.flatMap fun steer => steer.attachments) batch.length
        | some error => (run.failPost error, [])

/-- Abort the turn to deliver a steer, when no tool is open. -/
def maybePreempt (run : Run) : Run × List Request :=
  if run.turn.active && !run.turn.preempted && !run.interruptRequested && !run.queuedSteers.isEmpty &&
      run.turn.openTools.isEmpty then
    ({ run with turn := { run.turn with preempted := true, idleReady := true } }, [.abort])
  else (run, [])

/-- A message that steers: it is queued while a turn is active. -/
def onSteer (run : Run) (message : SteerMessage) (postError : Option String) : Run × List Request :=
  let (prompt, nativeCommandSelected) := planPrompt message.prompt message.skills message.attachments
  if run.turn.active then
    let steer := { prompt, nativeCommandSelected, attachments := message.attachments : QueuedSteer }
    { run with queuedSteers := run.queuedSteers ++ [steer] }.maybePreempt
  else
    match postError with
    | none => run.beginTurn prompt message.attachments 1
    | some error =>
      ({ run.note [.error error, .done .errored (some error)] with generation := run.generation + 1, ended := true }, [])

def onSteeringClosed (run : Run) : Run := { run with steeringOpen := false, ended := run.ended || !run.turn.active }

/-- The answer to the question whether the session is running, when there is one in time. -/
def onPoll (run : Run) (running : Option Bool) (now : Nat) (postError : Option String) : Run × List Request :=
  if running = some false then run.settleIdle postError
  else
    let backoff := min (run.turn.statusBackoff * 2) 2000
    ({ run with turn := { run.turn with statusBackoff := backoff, statusPoll := some (now + backoff) } }, [])

/-- The bus is connected again: an idle may have been lost meanwhile. -/
def onConnected (run : Run) (running : Option Bool) (postError : Option String) : Run × List Request :=
  if run.turn.active && !running.getD true then run.settleIdle postError else (run, [])

def onEvent (run : Run) (event : BusEvent) (now : Nat) (postError : Option String) : Run × List Request :=
  if run.interruptRequested then
    match event with
    | .idle _ => run.settleIdle postError
    | .interrupted => run.settleIdle postError
    | _ => (run, [])
  else
    let (turn, outcome, aborts) := run.turn.handleBusEvent event now
    let run := { run with turn }
    let aborted := if aborts then [Request.abort] else []
    match outcome with
    | .goesOn =>
      let (run, requests) := run.maybePreempt
      (run, aborted ++ requests)
    | .turnIdle => run.settleIdle postError
    | .turnInterrupted =>
      if turn.preempted || turn.abortedForRetry then run.settleIdle postError
      else { run with interruptRequested := true }.settleIdle postError

end Run

end Wu.OpenCode
