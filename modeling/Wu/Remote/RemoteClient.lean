import Mathlib.Logic.Function.Basic

/-!
# The client of a remote server

A client connects to a proxy, watches for the end of the proxy and for missed heartbeats, and reconnects. Its tasks are steps on one
state, made in any order. A connection stands for its proxy with the tasks that watch it.
-/

namespace Wu.Remote

def maxReconnectAttempts : Nat := 3

def maxMissedHeartbeats : Nat := 5

inductive ProxyLaunchError where
  | serverNotRunning

def ProxyLaunchError.fromExitCode (exitCode : Int) : Option ProxyLaunchError :=
  if exitCode = 90 then some .serverNotRunning else none

inductive State where
  | connecting
  | connected (remoteConnection : Nat)
  | heartbeatMissed (missedHeartbeats remoteConnection : Nat)
  | reconnecting
  | reconnectFailed (remoteConnection attempts : Nat)
  | reconnectExhausted
  | serverNotRunning
  deriving DecidableEq

namespace State

def display : State → String
  | connecting => "connecting"
  | connected _ => "connected"
  | reconnecting => "reconnecting"
  | reconnectFailed .. => "reconnect failed"
  | reconnectExhausted => "reconnect exhausted"
  | heartbeatMissed .. => "heartbeat missed"
  | serverNotRunning => "server not running"

def canReconnect : State → Bool
  | connected _ | heartbeatMissed .. | reconnectFailed .. => true
  | connecting | reconnecting | reconnectExhausted | serverNotRunning => false

def isReconnectFailed : State → Bool
  | reconnectFailed .. => true
  | _ => false

def isReconnecting : State → Bool
  | reconnecting => true
  | _ => false

def heartbeatRecovered : State → State
  | heartbeatMissed _ remoteConnection => connected remoteConnection
  | state => state

def heartbeatMissedOnce : State → State
  | connected remoteConnection => heartbeatMissed 1 remoteConnection
  | heartbeatMissed missedHeartbeats remoteConnection => heartbeatMissed (missedHeartbeats + 1) remoteConnection
  | state => state

/-- The connection whose tasks a state holds. -/
def tasks : State → Option Nat
  | connected remoteConnection | heartbeatMissed _ remoteConnection => some remoteConnection
  | _ => none

end State

/-- The process of a proxy. Its output is closed before its end is known. It ends with an exit code, or with an error. -/
inductive Proxy where
  | unstarted
  | running
  | closing
  | ended (result : Option Int)

/-- How far a connection is set up: it waits for the remote's start, and then for the answer to a ping. -/
inductive Setup where
  | starting
  | pinging
  | finished
  deriving DecidableEq

/-- How far an attempt to reconnect is. -/
inductive ReconnectStage where
  | killing
  | connecting
  | resyncing
  | failed
  | resynced
  deriving DecidableEq

structure Reconnect where
  attempts : Nat
  remoteConnection : Nat
  stage : ReconnectStage
  deriving DecidableEq

/-- The state that the attempt returns. -/
def Reconnect.newState (reconnect : Reconnect) : Option State :=
  match reconnect.stage with
  | .failed => some (.reconnectFailed reconnect.remoteConnection reconnect.attempts)
  | .resynced => some (.connected reconnect.remoteConnection)
  | _ => none

/-- The client and its tasks. -/
structure RemoteClient where
  state : Option State
  setup : Setup
  reconnects : List Reconnect
  /-- The connections whose tasks a shutdown keeps until it is over. -/
  shutdowns : List Nat
  proxies : Nat → Proxy
  /-- The monitors that wait for the end of a proxy. -/
  monitors : Nat → Bool
  /-- The heartbeats missed in a row, as long as the heartbeat task runs. -/
  heartbeats : Nat → Option Nat
  nextConnection : Nat
  /-- The attempts to reconnect since the last connection. -/
  attemptsMade : Nat
  /-- A handler has unwrapped a state that was not there. -/
  crashed : Bool

namespace RemoteClient

variable (client : RemoteClient)

/-- The first proxy has been started. -/
def new : RemoteClient where
  state := some .connecting
  setup := .starting
  reconnects := []
  shutdowns := []
  proxies := Function.update (fun _ => .unstarted) 0 .running
  monitors _ := false
  heartbeats _ := none
  nextConnection := 1
  attemptsMade := 0
  crashed := false

/-- The tasks of a connection are dropped. -/
def dropTasks (remoteConnection : Nat) : RemoteClient :=
  { client with
    monitors := Function.update client.monitors remoteConnection false
    heartbeats := Function.update client.heartbeats remoteConnection none }

/-- A state is dropped with the tasks it holds. -/
def dropState (state : Option State) : RemoteClient :=
  match state.bind State.tasks with
  | some remoteConnection => client.dropTasks remoteConnection
  | none => client

def setState (state : State) : RemoteClient := { client.dropState client.state with state := some state }

/-- The end of `reconnect`: a new attempt is made, or none is left. -/
def startAttempt (attempts remoteConnection : Nat) : RemoteClient :=
  if attempts + 1 > maxReconnectAttempts then client.setState .reconnectExhausted
  else
    { client.setState .reconnecting with
      reconnects := client.reconnects ++ [{ attempts := attempts + 1, remoteConnection, stage := .killing }]
      attemptsMade := client.attemptsMade + 1 }

def reconnect : Except String RemoteClient :=
  let message := "aborting reconnect, because not in state that allows reconnecting: "
  match client.state with
  | none => .error (message ++ "no state set")
  | some state =>
    if state.canReconnect then
      let taken := { client with state := none }
      match state with
      | .connected remoteConnection | .heartbeatMissed _ remoteConnection =>
        .ok ((taken.dropTasks remoteConnection).startAttempt 0 remoteConnection)
      | .reconnectFailed remoteConnection attempts => .ok (taken.startAttempt attempts remoteConnection)
      -- unreachable in the source
      | _ => .ok { taken with crashed := true }
    else .error (message ++ state.display)

/-- The callers log the error or leave it. -/
def tryReconnect : RemoteClient :=
  match client.reconnect with
  | .ok after => after
  | .error _ => client

/-- Whether the heartbeat task is to end. -/
def handleHeartbeatResult (missedHeartbeats : Nat) : RemoteClient × Bool :=
  match client.state with
  | none => ({ client with crashed := true }, true)
  | some state =>
    let nextState := if missedHeartbeats > 0 then state.heartbeatMissedOnce else state.heartbeatRecovered
    let client := { client with state := none }.setState nextState
    if missedHeartbeats ≥ maxMissedHeartbeats then (client.tryReconnect, true) else (client, false)

/-- The heartbeat task of a connection hands over a result. -/
def beat (remoteConnection missedHeartbeats : Nat) : RemoteClient :=
  let client := { client with heartbeats := Function.update client.heartbeats remoteConnection (some missedHeartbeats) }
  let (client, isBreak) := client.handleHeartbeatResult missedHeartbeats
  if isBreak then { client with heartbeats := Function.update client.heartbeats remoteConnection none } else client

/-- What a monitor does with the end of its proxy. -/
def monitor (remoteConnection : Nat) (result : Option Int) : RemoteClient :=
  let client := { client with monitors := Function.update client.monitors remoteConnection false }
  match result.bind ProxyLaunchError.fromExitCode with
  | some .serverNotRunning => client.setState .serverNotRunning
  | none => client.tryReconnect

/-- The result of an attempt is taken over, if the client still reconnects. -/
def settle (reconnect : Reconnect) (newState : State) : RemoteClient :=
  let client := { client with reconnects := client.reconnects.erase reconnect }
  let client :=
    if client.state.any State.isReconnecting then
      { client with
        state := some newState
        attemptsMade := if newState.tasks.isSome then 0 else client.attemptsMade }
    else client.dropState (some newState)
  if client.state.any State.isReconnectFailed then client.tryReconnect else client

/-- The future that `shutdown_processes` returns keeps the tasks of a connected state. -/
def shutdownProcesses : RemoteClient :=
  match client.state with
  | some (.connected remoteConnection) => { client with state := none, shutdowns := client.shutdowns ++ [remoteConnection] }
  | state => { client.dropState state with state := none }

/-- An attempt gets to another stage. -/
def advance (reconnect after : Reconnect) : RemoteClient :=
  { client with reconnects := client.reconnects.erase reconnect ++ [after] }

/-- The attempt starts the proxy of a new connection, and its monitor. -/
def startProxy (reconnect : Reconnect) : RemoteClient :=
  { client.advance reconnect { reconnect with remoteConnection := client.nextConnection, stage := .resyncing } with
    proxies := Function.update client.proxies client.nextConnection .running
    monitors := Function.update client.monitors client.nextConnection true
    nextConnection := client.nextConnection + 1 }

inductive Move where
  | setupStarted
  | setupFails
  | setupPong
  | killFails (reconnect : Reconnect)
  | killed (reconnect : Reconnect)
  | connectFails (reconnect : Reconnect)
  | connects (reconnect : Reconnect)
  | resyncFails (reconnect : Reconnect)
  | resynced (reconnect : Reconnect)
  | settle (reconnect : Reconnect) (newState : State)
  | monitor (remoteConnection : Nat) (result : Option Int)
  | beatMissed (remoteConnection missedHeartbeats : Nat)
  | beatRecovered (remoteConnection : Nat)
  | beatStops (remoteConnection : Nat)
  | shutdownDone (remoteConnection : Nat)
  | shutdown
  | linkCloses (remoteConnection : Nat)
  | proxyEnds (remoteConnection : Nat) (result : Option Int)

/-- A step of one of the client's tasks: the rest is done by its owner or outside. -/
def Move.isTask : Move → Bool
  | shutdown | linkCloses _ | proxyEnds .. => false
  | _ => true

def apply : Move → RemoteClient
  | .setupStarted => { client with setup := .pinging, monitors := Function.update client.monitors 0 true }
  -- the client is released, and nothing reads its state again
  | .setupFails => { client.dropTasks 0 with setup := .finished }
  | .setupPong =>
    { client.dropState client.state with
      state := some (.connected 0)
      setup := .finished
      heartbeats := Function.update (client.dropState client.state).heartbeats 0 (some 0)
      attemptsMade := 0 }
  | .killFails reconnect => client.advance reconnect { reconnect with stage := .failed }
  | .killed reconnect => client.advance reconnect { reconnect with stage := .connecting }
  | .connectFails reconnect => client.advance reconnect { reconnect with stage := .failed }
  | .connects reconnect => client.startProxy reconnect
  | .resyncFails reconnect =>
    (client.dropTasks reconnect.remoteConnection).advance reconnect { reconnect with stage := .failed }
  | .resynced reconnect =>
    { client.advance reconnect { reconnect with stage := .resynced } with
      heartbeats := Function.update client.heartbeats reconnect.remoteConnection (some 0) }
  | .settle reconnect newState => client.settle reconnect newState
  | .monitor remoteConnection result => client.monitor remoteConnection result
  | .beatMissed remoteConnection missedHeartbeats => client.beat remoteConnection (missedHeartbeats + 1)
  | .beatRecovered remoteConnection => client.beat remoteConnection 0
  | .beatStops remoteConnection =>
    { client with heartbeats := Function.update client.heartbeats remoteConnection none }
  | .shutdownDone remoteConnection =>
    { client.dropTasks remoteConnection with shutdowns := client.shutdowns.erase remoteConnection }
  | .shutdown => client.shutdownProcesses
  | .linkCloses remoteConnection =>
    { client with proxies := Function.update client.proxies remoteConnection .closing }
  | .proxyEnds remoteConnection result =>
    { client with proxies := Function.update client.proxies remoteConnection (.ended result) }

/-- When a move can be made. A closed output counts as activity, so that no heartbeat is missed any more. -/
def Allowed : Move → Prop
  | .setupStarted => client.setup = .starting
  | .setupFails => client.setup ≠ .finished
  | .setupPong => client.setup = .pinging
  | .killFails reconnect | .killed reconnect => reconnect ∈ client.reconnects ∧ reconnect.stage = .killing
  | .connectFails reconnect | .connects reconnect => reconnect ∈ client.reconnects ∧ reconnect.stage = .connecting
  | .resyncFails reconnect | .resynced reconnect => reconnect ∈ client.reconnects ∧ reconnect.stage = .resyncing
  | .settle reconnect newState => reconnect ∈ client.reconnects ∧ reconnect.newState = some newState
  | .monitor remoteConnection result =>
    client.monitors remoteConnection = true ∧ client.proxies remoteConnection = .ended result
  | .beatMissed remoteConnection missedHeartbeats =>
    client.heartbeats remoteConnection = some missedHeartbeats ∧ client.proxies remoteConnection = .running
  | .beatRecovered remoteConnection =>
    ∃ missedHeartbeats, client.heartbeats remoteConnection = some missedHeartbeats ∧ 0 < missedHeartbeats
  | .beatStops remoteConnection =>
    client.heartbeats remoteConnection ≠ none ∧ client.proxies remoteConnection ≠ .running
  | .shutdownDone remoteConnection => remoteConnection ∈ client.shutdowns
  | .shutdown => True
  | .linkCloses remoteConnection => client.proxies remoteConnection = .running
  | .proxyEnds remoteConnection _ =>
    client.proxies remoteConnection = .running ∨ client.proxies remoteConnection = .closing

/-- The end of a proxy has not been reported when the client gets connected to it, and no heartbeat hands over a result between a
shutdown and the drop of the tasks that the shutdown, or an attempt that it left behind, keeps. -/
def Careful : Move → Prop
  | .setupPong => client.monitors 0 = true
  | .settle _ newState => client.state = some .reconnecting → ∀ remoteConnection, newState = .connected remoteConnection →
    client.monitors remoteConnection = true
  | .beatMissed remoteConnection _ | .beatRecovered remoteConnection => client.state = none →
    remoteConnection ∉ client.shutdowns ∧ ∀ reconnect ∈ client.reconnects, reconnect.newState ≠ some (.connected remoteConnection)
  | _ => True

/-- The states that are reached by moves that meet a condition. -/
inductive Reach (condition : RemoteClient → Move → Prop) : RemoteClient → Prop
  | start : Reach condition .new
  | move {client : RemoteClient} (move : Move) : Reach condition client → client.Allowed move → condition client move →
      Reach condition (client.apply move)

/-- No task can make a further step. -/
def Idle : Prop := ∀ move, move.isTask = true → ¬ client.Allowed move

/-- The proxy has not ended. -/
def Runs (remoteConnection : Nat) : Prop :=
  client.proxies remoteConnection = .running ∨ client.proxies remoteConnection = .closing

/-- A state that no step of a task leaves. -/
def Final (state : State) : Prop := state = .reconnectExhausted ∨ state = .serverNotRunning

/-- A client that moves on under a condition: it is not stuck with a proxy that has ended, makes few attempts, one at a time, does not
leave a final state unless it is shut down, and has not unwrapped a missing state. -/
structure Live (condition : RemoteClient → Move → Prop) : Prop where
  notStuck : client.Idle → ∀ remoteConnection, client.state.bind State.tasks = some remoteConnection → client.Runs remoteConnection
  attempts : client.attemptsMade ≤ maxReconnectAttempts
  single : client.reconnects.length ≤ 1
  stays : ∀ state, client.state = some state → Final state → ∀ move, client.Allowed move → condition client move →
    (client.apply move).state = some state ∨ move = .shutdown ∧ (client.apply move).state = none
  notCrashed : client.crashed = false

end RemoteClient

end Wu.Remote
