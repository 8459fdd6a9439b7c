import Mathlib.Data.List.Nodup
import Wu.AgentHarness.OpenCodeIdle
import Wu.Runs

/-!
# A run of OpenCode and its server

The server starts a posted prompt at some later time, reports what the prompt that is running does, and reports each completion
in one or both encodings, arbitrarily late. A turn settles after the server is done with its prompt, or after it was aborted, in
every run in which the server has started the prompt whenever it answers that the session is not running, and in which one of the
idles that confirm the end of a turn is the turn's own.
-/

namespace Wu.OpenCode

open List Run

/-- An event of the bus, with the turn that it reports. -/
structure Report where
  turn : Nat
  event : BusEvent

inductive BusMessage where
  | connected
  | report (report : Report)

/-- What the server does with the prompts of the session. -/
structure Server where
  /-- The prompts that are not started. -/
  posted : List Nat
  running : Option Nat
  started : List Nat
  finished : List Nat
  aborted : List Nat
  /-- The idles that are still to be reported. -/
  owed : List (Nat × Idle)

/-- How the requests of a step fare. An abort that reaches the server may be reported as idle. -/
structure Net where
  postError : Option String
  abortReaches : Bool
  reported : List Idle

namespace Server

/-- The server is done with a turn. -/
def Over (server : Server) (generation : Nat) : Prop := generation ∈ server.finished ∨ generation ∈ server.aborted

def owing (generation : Nat) (encodings : List Idle) : List (Nat × Idle) := encodings.map fun encoding => (generation, encoding)

/-- Take a request of a run whose turn has the given generation. -/
def take (server : Server) (generation : Nat) (net : Net) : Request → Server
  | .prompt generation => { server with posted := server.posted ++ [generation] }
  | .abort =>
    if net.abortReaches then
      { server with
        aborted := generation :: (server.running.toList ++ server.aborted)
        owed := server.owed ++ owing generation net.reported }
    else server

def start (server : Server) (generation : Nat) : Server :=
  { server with
    posted := server.posted.erase generation
    running := some generation
    started := generation :: server.started }

def finish (server : Server) (generation : Nat) (encodings : List Idle) : Server :=
  { server with
    running := none
    finished := generation :: server.finished
    owed := server.owed ++ owing generation encodings }

end Server

/-- A run and its server, the messages of the bus that are under way, and the reports that were delivered. -/
structure System where
  run : Run
  server : Server
  bus : List BusMessage
  delivered : List Report

/-- What a server says of the prompt that it is running: no error, and no end. -/
def BusEvent.isProgress : BusEvent → Bool
  | busy => true
  | retry .. => true
  | content _ => true
  | other _ => true
  | _ => false

inductive Move where
  | start (generation : Nat)
  | progress (event : BusEvent)
  | finish (encodings : List Idle)
  | idle (generation : Nat) (encoding : Idle)
  | reconnect (kept : Nat)
  | steer (message : SteerMessage)
  | steeringClosed
  | poll (now : Nat) (inTime : Bool)
  | deliver (now : Nat) (inTime : Bool)

namespace System

/-- A session, with its first prompt posted. -/
def initial (prompt : String) (attachments : List String) : System where
  run := {
    turn := .begin
    generation := 0
    queuedSteers := []
    steeringOpen := true
    interruptRequested := false
    ended := false
    log := [.posted 0 prompt attachments] }
  server := { posted := [0], running := none, started := [], finished := [], aborted := [], owed := [] }
  bus := []
  delivered := []

/-- A step of the run, with what it asks of the server. -/
def advance (system : System) (net : Net) (step : Run × List Request) : System :=
  { system with
    run := step.1
    server := step.2.foldl (fun server request => server.take system.run.generation net request) system.server }

/-- What the server answers to the question whether the session is running. -/
def answer (system : System) (inTime : Bool) : Option Bool :=
  if inTime then some system.server.running.isSome else none

def apply (system : System) (net : Net) : Move → System
  | .start generation => { system with server := system.server.start generation }
  | .progress event =>
    match system.server.running with
    | some generation => { system with bus := system.bus ++ [.report ⟨generation, event⟩] }
    | none => { system with bus := system.bus ++ [.report ⟨system.run.generation, event⟩] }
  | .finish encodings =>
    match system.server.running with
    | some generation => { system with server := system.server.finish generation encodings }
    | none => system
  | .idle generation encoding =>
    { system with
      server := { system.server with owed := system.server.owed.erase (generation, encoding) }
      bus := system.bus ++ [.report ⟨generation, .idle encoding⟩] }
  | .reconnect kept => { system with bus := system.bus.take kept ++ [.connected] }
  | .steer message => system.advance net (system.run.onSteer message net.postError)
  | .steeringClosed => { system with run := system.run.onSteeringClosed }
  | .poll now inTime => system.advance net (system.run.onPoll (system.answer inTime) now net.postError)
  | .deliver now inTime =>
    match system.bus with
    | [] => system
    | .connected :: bus => { system with bus }.advance net (system.run.onConnected (system.answer inTime) net.postError)
    | .report report :: bus =>
      { system with bus, delivered := report :: system.delivered }.advance net (system.run.onEvent report.event now net.postError)

/-- The moves that the server, the bus and the run can make. Events of other sessions may come at any time. -/
def Allowed (system : System) : Move → Prop
  | .start generation => generation ∈ system.server.posted ∧ system.server.running = none
  | .progress event => event.isProgress = true ∧ (event.isOurs = true → system.server.running.isSome = true)
  | .finish encodings => system.server.running.isSome = true ∧ encodings ≠ [] ∧ encodings.Nodup
  | .idle generation encoding => (generation, encoding) ∈ system.server.owed
  | .reconnect _ => True
  | .steer _ => system.run.ended = false ∧ system.run.steeringOpen = true
  | .steeringClosed => system.run.ended = false ∧ system.run.steeringOpen = true
  | .poll now _ =>
    system.run.ended = false ∧ system.run.turn.active = true ∧ ∃ time ∈ system.run.turn.statusPoll, time ≤ now
  | .deliver _ _ => system.run.ended = false ∧ system.bus ≠ []

/-- The server has started the prompt of the turn, or the turn was aborted. -/
def TurnStarted (system : System) : Prop :=
  system.run.generation ∈ system.server.started ∨ system.run.generation ∈ system.server.aborted

/-- An idle of the turn, or an idle after one, or an idle of a turn that was aborted. -/
def OwnIdle (system : System) (report : Report) : Prop :=
  report.turn = system.run.generation ∨
    (∃ earlier ∈ system.delivered, earlier.turn = system.run.generation ∧ earlier.event.isIdle = true) ∨
    system.run.generation ∈ system.server.aborted

/-- An answer that the session is not running comes after the prompt of the turn has started, and of the idles that confirm the
end of the turn one is the turn's own. -/
def Timely (system : System) : Move → Prop
  | .poll _ inTime => system.answer inTime = some false → system.TurnStarted
  | .deliver _ inTime =>
    match system.bus with
    | [] => True
    | .connected :: _ => system.run.turn.active = true → system.answer inTime = some false → system.TurnStarted
    | .report report :: _ =>
      system.run.turn.active = true → report.event.isIdle = true → system.run.confirms = true → system.OwnIdle report
  | _ => True

/-- The states that are reached from a session's start by moves that meet a condition. -/
inductive Reach (condition : System → Move → Prop) (prompt : String) (attachments : List String) : System → Prop
  | start : Reach condition prompt attachments (.initial prompt attachments)
  | move {system : System} (net : Net) (move : Move) : Reach condition prompt attachments system → system.Allowed move →
      condition system move → Reach condition prompt attachments (system.apply net move)

end System

/-! ### What holds of a server -/

/-- A prompt that was started is running or over, and idles are owed for turns that are over. -/
structure Server.Sound (server : Server) : Prop where
  started : ∀ generation ∈ server.started, server.running = some generation ∨ server.Over generation
  owed : ∀ owed ∈ server.owed, server.Over owed.1

/-- What is over stays over. -/
def Server.Later (server later : Server) : Prop := ∀ generation, server.Over generation → later.Over generation

namespace Server

open List

variable {generation : Nat} {server : Server}

theorem mem_owing {encodings : List Idle} {owed : Nat × Idle} (h : owed ∈ owing generation encodings) : owed.1 = generation := by
  obtain ⟨-, -, rfl⟩ := mem_map.mp h
  rfl

theorem take_later (server : Server) (generation : Nat) (net : Net) (request : Request) :
    server.Later (server.take generation net request) := by
  intro other hover
  cases request with
  | prompt posted => exact hover
  | abort =>
    unfold take
    dsimp only
    split
    · refine hover.imp_right fun habo => ?_
      exact .tail _ (mem_append_right _ habo)
    · exact hover

theorem Sound.take (h : Sound server) (generation : Nat) (net : Net) (request : Request) :
    Sound (server.take generation net request) := by
  have hlat := server.take_later generation net request
  cases request with
  | prompt posted => exact ⟨h.started, h.owed⟩
  | abort =>
    unfold Server.take at hlat ⊢
    dsimp only at hlat ⊢
    split
    · rename_i hrea
      rw [if_pos hrea] at hlat
      refine ⟨fun other hstd => (h.started _ hstd).imp_right (hlat _), fun owed howed => ?_⟩
      rcases mem_append.mp howed with howed | howed
      · exact hlat _ (h.owed owed howed)
      · rw [mem_owing howed]
        exact .inr (mem_cons_self ..)
    · exact h

theorem takes_later (server : Server) (generation : Nat) (net : Net) (requests : List Request) :
    server.Later (requests.foldl (fun server request => server.take generation net request) server) := by
  induction requests generalizing server with
  | nil => exact fun _ h => h
  | cons request requests ih =>
    intro other hover
    exact ih _ _ (server.take_later _ net _ _ hover)

theorem Sound.takes (h : Sound server) (generation : Nat) (net : Net) (requests : List Request) :
    Sound (requests.foldl (fun server request => server.take generation net request) server) := by
  induction requests generalizing server with
  | nil => exact h
  | cons request requests ih => exact ih (h.take _ net _)

theorem Sound.start (h : Sound server) (hidle : server.running = none) : Sound (server.start generation) := by
  refine ⟨fun other hstd => ?_, h.owed⟩
  rcases mem_cons.mp hstd with rfl | hstd
  · exact .inl rfl
  · rcases h.started _ hstd with hrun | hover
    · rw [hidle] at hrun
      nomatch hrun
    · exact .inr hover

theorem finish_later (server : Server) (generation : Nat) (encodings : List Idle) :
    server.Later (server.finish generation encodings) :=
  fun _ hover => hover.imp_left fun hfin => .tail _ hfin

theorem Sound.finish (h : Sound server) (hrun : server.running = some generation)
    (encodings : List Idle) : Sound (server.finish generation encodings) := by
  have hlat := server.finish_later generation encodings
  have hover : (server.finish generation encodings).Over generation := .inl (mem_cons_self ..)
  refine ⟨fun other hstd => .inr ?_, fun owed howed => ?_⟩
  · rcases h.started _ hstd with hoth | hoth
    · obtain rfl : generation = other := Option.some.inj (hrun.symm.trans hoth)
      exact hover
    · exact hlat _ hoth
  · rcases mem_append.mp howed with howed | howed
    · exact hlat _ (h.owed owed howed)
    · rw [mem_owing howed]
      exact hover

end Server

/-! ### What holds of a session -/

/-- A report of an idle is that of a turn that is over. -/
def Server.Reports (server : Server) (report : Report) : Prop :=
  report.event ≠ .interrupted ∧ (report.event.isIdle = true → server.Over report.turn)

theorem Server.Reports.later {server later : Server} {report : Report} (h : server.Reports report)
    (hlat : server.Later later) : later.Reports report :=
  h.imp_right fun hidle his => hlat _ (hidle his)

namespace System

open List

structure Sound (system : System) : Prop where
  server : system.server.Sound
  bus : ∀ report, .report report ∈ system.bus → system.server.Reports report
  delivered : ∀ report ∈ system.delivered, system.server.Reports report
  settled : ∀ generation, Settled system.run.log generation → system.server.Over generation
  tidy : system.run.Tidy
  uninterrupted : system.run.interruptRequested = false

variable {system : System} {bus : List BusMessage}

/-- A step of the run that settles only what is over. -/
theorem Sound.advance (h : Sound system) (net : Net) {step : Run × List Request}
    (hsett : ∀ generation, Settled step.1.log generation → system.server.Over generation) (htidy : step.1.Tidy)
    (huni : step.1.interruptRequested = false) : Sound (system.advance net step) := by
  have hlat := system.server.takes_later system.run.generation net step.2
  refine ⟨h.server.takes _ net _, ?_, ?_, ?_, htidy, huni⟩
  · intro report hmem
    exact (h.bus _ hmem).later hlat
  · intro report hmem
    exact (h.delivered _ hmem).later hlat
  · intro generation hgen
    exact hlat _ (hsett _ hgen)

/-- A step of the server alone. -/
theorem Sound.serve (h : Sound system) {server : Server} (hserv : server.Sound)
    (hlat : system.server.Later server) : Sound { system with server } := by
  refine ⟨hserv, ?_, ?_, ?_, h.tidy, h.uninterrupted⟩
  · intro report hmem
    exact (h.bus _ hmem).later hlat
  · intro report hmem
    exact (h.delivered _ hmem).later hlat
  · intro generation hgen
    exact hlat _ (h.settled _ hgen)

/-- Messages of the bus that report what is so. -/
theorem Sound.send (h : Sound system)
    (hbus : ∀ report, .report report ∈ bus → system.server.Reports report) : Sound { system with bus } :=
  ⟨h.server, hbus, h.delivered, h.settled, h.tidy, h.uninterrupted⟩

/-- A started turn is over when the session is not running. -/
theorem Sound.over_of_started (h : Sound system) {inTime : Bool} (hstd : system.TurnStarted)
    (hans : system.answer inTime = some false) : system.server.Over system.run.generation := by
  rcases hstd with hstd | habo
  · rcases h.server.started _ hstd with hrun | hover
    · unfold System.answer at hans
      rw [hrun] at hans
      split at hans <;> simp at hans
    · exact hover
  · exact .inr habo

/-- An idle of the turn itself tells that the turn is over. -/
theorem Sound.over_of_idle (h : Sound system) {report : Report}
    (hbus : system.bus = .report report :: bus) (hidle : report.event.isIdle = true) (hown : system.OwnIdle report) :
    system.server.Over system.run.generation := by
  rcases hown with hturn | ⟨earlier, hmem, hturn, hidle⟩ | habo
  · have hrep := h.bus _ (by rw [hbus]; exact mem_cons_self ..)
    rw [← hturn]
    exact hrep.2 hidle
  · rw [← hturn]
    exact (h.delivered _ hmem).2 hidle
  · exact .inr habo

theorem sound_initial (prompt : String) (attachments : List String) : Sound (initial prompt attachments) := by
  have hlog : [Note.posted 0 prompt attachments] = [] ++ [.posted 0 prompt attachments] := rfl
  refine ⟨⟨nofun, nofun⟩, nofun, nofun, ?_, ?_, rfl⟩
  · intro generation hsett
    nomatch mem_singleton.mp hsett
  · refine ⟨?_, ?_⟩
    · change Orderly [.posted 0 prompt attachments]
      rw [hlog]
      refine Orderly.push ?_ fun _ generation hpost => ?_
      · intro before note hbef
        exact absurd (prefix_nil.mp hbef) (by simp)
      · obtain ⟨_, _, hmem⟩ := hpost
        nomatch hmem
    · intro generation hpost
      obtain ⟨prompt', attachments', hmem⟩ := hpost
      exact .inr ⟨rfl, (Note.posted.inj (mem_singleton.mp hmem)).1⟩

/-- What a move does, one case for each. Only polls, connections and idles settle a turn. -/
theorem Sound.apply (h : Sound system) (net : Net) {move : Move} (halw : system.Allowed move)
    (htim : system.Timely move) : Sound (system.apply net move) := by
  cases move with
  | start generation => exact h.serve (h.server.start halw.2) fun _ h => h
  | progress event =>
    have hpro : ∀ turn, system.server.Reports ⟨turn, event⟩ := by
      intro turn
      refine ⟨?_, ?_⟩
      · rintro rfl
        nomatch halw.1
      · intro hidle
        cases event with
        | idle encoding => nomatch halw.1
        | _ => nomatch hidle
    have hsend : ∀ turn, Sound { system with bus := system.bus ++ [.report ⟨turn, event⟩] } := by
      intro turn
      refine h.send fun report hmem => ?_
      rcases mem_append.mp hmem with hmem | hmem
      · exact h.bus _ hmem
      · rw [BusMessage.report.inj (mem_singleton.mp hmem)]
        exact hpro turn
    unfold System.apply
    dsimp only
    split
    · exact hsend _
    · exact hsend _
  | finish encodings =>
    unfold System.apply
    dsimp only
    split
    · rename_i generation hrun
      exact h.serve (h.server.finish hrun _) (system.server.finish_later _ _)
    · exact h
  | idle generation encoding =>
    have hover : system.server.Over generation := h.server.owed _ halw
    have hserv : Sound
        { system with
          server := { system.server with owed := system.server.owed.erase (generation, encoding) } } := by
      refine h.serve ⟨h.server.started, ?_⟩ fun _ h => h
      intro owed howed
      exact h.server.owed owed (mem_of_mem_erase howed)
    refine hserv.send fun report hmem => ?_
    rcases mem_append.mp hmem with hmem | hmem
    · exact h.bus _ hmem
    · rw [BusMessage.report.inj (mem_singleton.mp hmem)]
      exact ⟨BusEvent.noConfusion, fun _ => hover⟩
  | reconnect kept =>
    refine h.send fun report hmem => ?_
    rcases mem_append.mp hmem with hmem | hmem
    · exact h.bus _ (mem_of_mem_take hmem)
    · nomatch mem_singleton.mp hmem
  | steer message =>
    refine h.advance net (fun generation hsett => ?_) (h.tidy.onSteer _ _) ?_
    · exact h.settled _ (settled_onSteer hsett)
    · exact (onSteer_interrupt _ _ _).trans h.uninterrupted
  | steeringClosed =>
    exact ⟨h.server, h.bus, h.delivered, h.settled, h.tidy.congr _ rfl rfl rfl, h.uninterrupted⟩
  | poll now inTime =>
    refine h.advance net (fun generation hsett => ?_) (h.tidy.onPoll _ now _) ?_
    · rcases settled_onPoll hsett with hsett | ⟨hans, -, rfl⟩
      · exact h.settled _ hsett
      · exact h.over_of_started (htim hans) hans
    · exact (onPoll_interrupt ..).trans h.uninterrupted
  | deliver now inTime =>
    unfold System.apply
    unfold System.Timely at htim
    dsimp only at htim ⊢
    split
    · exact h
    · rename_i bus hbus
      rw [hbus] at htim
      have hrest : Sound { system with bus } := h.send fun report hmem => h.bus _ (by
        rw [hbus]
        exact .tail _ hmem)
      refine hrest.advance net (fun generation hsett => ?_) (h.tidy.onConnected _ _) ?_
      · rcases settled_onConnected hsett with hsett | ⟨hans, hact, rfl⟩
        · exact h.settled _ hsett
        · exact h.over_of_started (htim hact hans) hans
      · exact (onConnected_interrupt ..).trans h.uninterrupted
    · rename_i report bus hbus
      rw [hbus] at htim
      have hrep : system.server.Reports report := h.bus _ (by
        rw [hbus]
        exact mem_cons_self ..)
      have hrest : Sound { system with bus, delivered := report :: system.delivered } := by
        refine ⟨h.server, fun other hmem => h.bus _ ?_, ?_, h.settled, h.tidy, h.uninterrupted⟩
        · rw [hbus]
          exact .tail _ hmem
        · intro other hmem
          rcases mem_cons.mp hmem with rfl | hmem
          · exact hrep
          · exact h.delivered _ hmem
      refine hrest.advance net (fun generation hsett => ?_) (h.tidy.onEvent _ now _) ?_
      · rcases settled_onEvent h.uninterrupted hrep.1 hsett with hsett | ⟨hact, rfl, hidle, hcon⟩
        · exact h.settled _ hsett
        · exact h.over_of_idle hbus hidle (htim hact hidle hcon)
      · exact onEvent_interrupt now _ h.uninterrupted hrep.1

theorem Reach.sound {prompt : String} {attachments : List String} (h : Reach Timely prompt attachments system) : Sound system := by
  induction h with
  | start => exact sound_initial _ _
  | move net move _ halw htim ih => exact ih.apply net halw htim

end System

/-- A turn is settled only after the server is done with its prompt or it was aborted, and no prompt is posted and no turn completes
before the turns before are settled. -/
theorem idles_settle_own_turns {prompt : String} {attachments : List String} {system : System}
    (h : System.Reach System.Timely prompt attachments system) :
    (∀ generation, Settled system.run.log generation → system.server.Over generation) ∧ Orderly system.run.log :=
  ⟨h.sound.settled, h.sound.tidy.orderly⟩

namespace System

open List

/-- The moves are made one after another, with the requests of each faring in one way. -/
def Follows (condition : System → Move → Prop) (net : Net) : System → List Move → Prop :=
  Wu.Follows (fun system move => system.apply net move) fun system move => system.Allowed move ∧ condition system move

variable {condition : System → Move → Prop} {system : System} {moves : List Move}

/-- Moves that meet a condition are moves. -/
theorem Follows.forget {net : Net} (h : Follows condition net system moves) : Follows (fun _ _ => True) net system moves :=
  Wu.Follows.weaken (fun _ _ hmove => ⟨hmove.1, trivial⟩) h

theorem Reach.follow {prompt : String} {attachments : List String} (h : Reach condition prompt attachments system) (net : Net)
    (hfoll : Follows condition net system moves) :
    Reach condition prompt attachments (moves.foldl (fun system move => system.apply net move) system) :=
  Wu.Follows.keeps (fun _ move hrch hmove => hrch.move net move hmove.1 hmove.2) h hfoll

end System

def demoNet : Net where
  postError := none
  abortReaches := true
  reported := []

def demoSteer : SteerMessage where
  prompt := "more"
  messageId := none
  attachments := []
  skills := []

/-- A turn that ends in both encodings, of which the first is delivered and leads to the question whether the session is running. -/
def demoTurn : List Move :=
  [.start 0, .progress .busy, .deliver 0 true, .finish [.session, .status], .idle 0 .session, .deliver 10 true, .poll 110 true]

def demoRun (moves : List Move) : System :=
  moves.foldl (fun system move => system.apply demoNet move) (.initial "first" [])

theorem demoTurn_follows : System.Follows System.Timely demoNet (.initial "first" []) demoTurn := by
  refine ⟨⟨⟨.head _, rfl⟩, trivial⟩, ⟨⟨rfl, fun _ => rfl⟩, trivial⟩, ⟨⟨rfl, cons_ne_nil _ _⟩, ?_⟩,
    ⟨⟨rfl, cons_ne_nil _ _, by decide⟩, trivial⟩, ⟨mem_cons_self .., trivial⟩,
    ⟨⟨rfl, cons_ne_nil _ _⟩, ?_⟩, ⟨⟨rfl, rfl, 110, rfl, le_rfl⟩, ?_⟩, trivial⟩
  · exact fun _ hidle => nomatch hidle
  · exact fun _ _ _ => .inl rfl
  · exact fun _ => .inl (.head _)

/-- The turn is settled, and it is over. -/
theorem idles_settle_own_turns_demo :
    (∀ generation, Settled (demoRun demoTurn).run.log generation → (demoRun demoTurn).server.Over generation) ∧
      Orderly (demoRun demoTurn).run.log :=
  idles_settle_own_turns (System.Reach.start.follow demoNet demoTurn_follows)

/-- The second idle of a turn comes after the next prompt is posted: the server has not started that prompt, and says so when it
is asked, and the turn that waits for it is settled. -/
theorem leftover_idle_settles : ¬ ∀ prompt attachments system,
    System.Reach (fun _ _ => True) prompt attachments system →
      (∀ generation, Settled system.run.log generation → system.server.Over generation) ∧ Orderly system.run.log := by
  intro hall
  have hfollows : System.Follows (fun _ _ => True) demoNet (demoRun demoTurn)
      [.steer demoSteer, .idle 0 .status, .deliver 200 true, .poll 300 true] := by
    refine ⟨⟨⟨rfl, rfl⟩, trivial⟩, ⟨?_, trivial⟩, ⟨⟨rfl, cons_ne_nil _ _⟩, trivial⟩,
      ⟨⟨rfl, rfl, 300, rfl, le_rfl⟩, trivial⟩, trivial⟩
    exact mem_singleton_self _
  have hreach := (System.Reach.start.follow demoNet demoTurn_follows.forget).follow demoNet hfollows
  obtain ⟨hsettles, -⟩ := hall "first" [] _ hreach
  have hsettled : Note.settled 1 ∈
      [Note.posted 0 "first" [], .settled 0, .messageCompleted, .done .completed none, .posted 1 "more" [], .steered,
        .settled 1, .messageCompleted, .done .completed none] := by
    simp
  rcases hsettles 1 hsettled with hfinished | haborted
  · nomatch mem_singleton.mp hfinished
  · nomatch haborted

end Wu.OpenCode
