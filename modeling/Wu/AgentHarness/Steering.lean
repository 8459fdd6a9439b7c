import Wu.AgentHarness.CodexSession

/-!
# Steering a Codex session

A message that steers becomes a part of the turn that is active or a turn of its own, or waits. Messages are submitted in the
order in which they have come, and each is when the session ends, unless an error is told. It takes that no message is
rejected after a turn has completed and before the next one starts, and that no turn is aborted while messages wait.
-/

namespace Wu.Codex

open List

/-- An event that tells an error. -/
def AgentEvent.isFailure : AgentEvent → Bool
  | .error _ => true
  | .done _ (some _) _ => true
  | _ => false

namespace Session

variable {serde : Serde} {request : RunRequest} {self : Session} {message : SteerMessage}

/-- The message that is on its way. -/
def inFlight (self : Session) : List SteerMessage :=
  match self.phase with
  | .awaiting (.steer message _) _ _ => [message]
  | .awaiting (.newTurn message) _ _ => [message]
  | _ => []

/-- An error has been told. -/
def Failed (self : Session) : Prop := ∃ event ∈ self.events, event.isFailure = true

/-- How many messages have been told to be submitted. -/
def steeredEvents (self : Session) : Nat := (self.events.filter fun event => event = .steered).length

/-- A message is rejected after a turn has completed and before the next one starts, or a turn is aborted while messages
wait. -/
def Slip (self : Session) (action : Action) : Prop :=
  (self.doneCurrent = true ∧
    (∃ message expected method params, self.phase = .awaiting (.steer message expected) method params) ∧ ∃ e, action = .respond (.error e)) ∨
  (self.queuedSteers ≠ [] ∧ ∃ params talks, action = .incoming (.notification "turn/aborted" params) talks ∧
    isChildNotification self.threadId "turn/aborted" params = false)

/-- The sessions that runs lead to in which each step is allowed. -/
inductive Run (serde : Serde) (request : RunRequest) (allowed : Session → Action → Prop) : Session → Prop where
  | new : Run serde request allowed (new request)
  | step {before after : Session} {action : Action} (run : Run serde request allowed before)
      (step : Step serde request before action after) (ok : allowed before action) : Run serde request allowed after

/-- The run is not interrupted, and its events are listened to. -/
def Quiet (action : Action) : Prop := action ≠ .interrupt ∧ action ≠ .stopListening

/-- A step of a run that is not interrupted, and no slip. -/
def Orderly (before : Session) (action : Action) : Prop := Quiet action ∧ ¬before.Slip action

/-- What holds while somebody listens. -/
structure Heard (session : Session) : Prop where
  listening : session.listening = true
  quiet : session.interrupted = false
  steered : session.steeredEvents = session.submitted.length

/-- What holds in these runs. -/
structure Inv (session : Session) : Prop where
  heard : session.Heard
  order : session.phase ≠ .exited → session.received = session.submitted ++ session.inFlight ++ session.queuedSteers
  exited : session.phase = .exited → session.submitted <+: session.received ∧ (session.Failed ∨ session.submitted = session.received)
  idle : session.phase = .selecting → session.doneCurrent = true → session.queuedSteers = []
  direct : ∀ message expected method params, session.phase = .awaiting (.steer message expected) method params →
    session.queuedSteers = []
  setup : ∀ await method params, session.phase = .awaiting await method params →
    (∃ message expected, await = .steer message expected) ∨ (∃ message, await = .newTurn message) ∨ session.received = []

/-! ## Ends -/

variable {event : AgentEvent} {await : Await} {method : String} {params : Value}

theorem Heard.sendFinal (heard : self.Heard) (heve : event ≠ .steered) : (self.sendFinal event).Heard := by
  unfold Session.sendFinal
  rw [if_pos heard.listening]
  refine ⟨heard.listening, heard.quiet, ?_⟩
  unfold steeredEvents
  rw [filter_append, filter_singleton, decide_eq_false heve]
  simpa [steeredEvents] using heard.steered

theorem failed_sendFinal (hlis : self.listening = true)
    (h : self.Failed ∨ event.isFailure = true) : (self.sendFinal event).Failed := by
  unfold Session.sendFinal
  rw [if_pos hlis]
  rcases h with ⟨told, hmem, hfai⟩ | hfai
  · exact ⟨told, mem_append_left _ hmem, hfai⟩
  · exact ⟨event, mem_append_right _ (.head _), hfai⟩

theorem sendFinal_records (self : Session) (event : AgentEvent) :
    (self.sendFinal event).received = self.received ∧ (self.sendFinal event).submitted = self.submitted ∧
      (self.sendFinal event).queuedSteers = self.queuedSteers ∧ (self.sendFinal event).doneCurrent = self.doneCurrent ∧
      (self.sendFinal event).phase = self.phase := by
  unfold Session.sendFinal
  split <;> exact ⟨rfl, rfl, rfl, rfl, rfl⟩

section

variable (heard : self.Heard) (hsent : self.submitted <+: self.received)
include heard hsent

/-- The session ends, and every message has been submitted or an error is told. -/
theorem Heard.exit (h : self.Failed ∨ self.submitted = self.received) : Inv { self with phase := .exited } where
  heard := ⟨heard.listening, heard.quiet, heard.steered⟩
  order hne := absurd rfl hne
  exited _ := ⟨hsent, h⟩
  idle hphase := nomatch hphase
  direct _ _ _ _ hphase := nomatch hphase
  setup _ _ _ hphase := nomatch hphase

theorem Heard.endWith (heve : event ≠ .steered) (h : self.Failed ∨ event.isFailure = true ∨ self.submitted = self.received) :
    Inv (self.endWith event) := by
  obtain ⟨hrecv, hsub, -⟩ := sendFinal_records self _
  refine (heard.sendFinal heve).exit ?_ ?_
  · rw [hrecv, hsub]
    exact hsent
  · rcases h with h | h | h
    · exact .inl (failed_sendFinal heard.listening (.inl h))
    · exact .inl (failed_sendFinal heard.listening (.inr h))
    · rw [hrecv, hsub]
      exact .inr h

theorem Heard.finish (h : self.Failed ∨ self.doneCurrent = false ∨ self.submitted = self.received) : Inv (self.finish request) := by
  unfold Session.finish
  have hqui : (self.interrupted && !self.doneAfterInterrupt) = false := by rw [heard.quiet, Bool.false_and]
  have hdone : (!self.interrupted && !self.doneCurrent) = !self.doneCurrent := by
    rw [heard.quiet, Bool.not_false, Bool.true_and]
  rw [hqui, hdone, if_neg Bool.false_ne_true]
  split
  · exact heard.endWith hsent nofun (.inr (.inl rfl))
  · rename_i hcur
    refine heard.exit hsent ?_
    rcases h with h | h | h
    · exact .inl h
    · rw [h] at hcur
      exact absurd rfl hcur
    · exact .inr h

end

/-- The session ends after an event that tells an error, or while no message waits. -/
theorem Heard.tell (heard : self.Heard) {waiting : List SteerMessage} (hord : self.received = self.submitted ++ waiting)
    (heve : event ≠ .steered) (h : event.isFailure = true ∨ waiting = []) :
    Inv ((self.sendFinal event).finish request) := by
  obtain ⟨hrecv, hsub, -⟩ := sendFinal_records self _
  refine (heard.sendFinal heve).finish ?_ ?_
  · rw [hrecv, hsub]
    exact ⟨waiting, hord.symm⟩
  · rcases h with hfai | hwait
    · exact .inl (failed_sendFinal heard.listening (.inr hfai))
    · rw [hwait, append_nil] at hord
      rw [hrecv, hsub]
      exact .inr (.inr hord.symm)

/-! ## Submissions -/

/-- A message becomes a turn of its own: it is on its way, or an error is told. -/
theorem Heard.steerAsNewTurn (heard : self.Heard) (hord : self.received = self.submitted ++ message :: self.queuedSteers) :
    Inv (self.steerAsNewTurn request message) := by
  unfold Session.steerAsNewTurn
  dsimp only
  split
  · refine ⟨⟨heard.listening, heard.quiet, heard.steered⟩, fun _ => ?_, nofun, nofun, nofun, ?_⟩
    · rw [hord, append_assoc]
      rfl
    · rintro - - - ⟨⟩
      exact .inr (.inl ⟨message, rfl⟩)
  · rename_i e hst
    have hhea : Heard { self with currentNative := isNative message.prompt self.threadId } :=
      ⟨heard.listening, heard.quiet, heard.steered⟩
    have heve : AgentEvent.error ("Steering failed: " ++ displayError e) ≠ .steered := nofun
    exact hhea.tell hord heve (.inl rfl)

/-- A message has been submitted, and this is told. -/
theorem Heard.submit (heard : self.Heard) (hsel : self.phase = .selecting)
    (hord : self.received = self.submitted ++ message :: self.queuedSteers)
    (hidle : self.doneCurrent = true → self.queuedSteers = []) :
    Inv ({ self with submitted := self.submitted ++ [message] }.send request .steered id) := by
  unfold Session.send Session.sendFinal
  dsimp only [id]
  rw [if_pos heard.listening, if_pos heard.listening]
  refine ⟨⟨heard.listening, heard.quiet, ?_⟩, fun _ => ?_, ?_, fun _ => hidle, ?_, ?_⟩
  · have hste := heard.steered
    unfold steeredEvents at hste ⊢
    rw [filter_append, length_append, length_append, hste]
    rfl
  · unfold inFlight
    rw [hsel, hord]
    simp
  · intro hexit
    rw [hsel] at hexit
    nomatch hexit
  · intro _ _ _ _ hawa
    rw [hsel] at hawa
    nomatch hawa
  · intro _ _ _ hawa
    rw [hsel] at hawa
    nomatch hawa

/-! ## The setup -/

/-- A session that has received nothing. -/
structure Fresh (session : Session) : Prop where
  heard : session.Heard
  received : session.received = []
  submitted : session.submitted = []
  queued : session.queuedSteers = []

theorem Fresh.selecting (fresh : self.Fresh) (hphase : self.phase = .selecting) : Inv self where
  heard := fresh.heard
  order _ := by
    unfold inFlight
    rw [hphase, fresh.received, fresh.submitted, fresh.queued]
    rfl
  exited h := nomatch hphase.symm.trans h
  idle _ _ := fresh.queued
  direct _ _ _ _ h := nomatch hphase.symm.trans h
  setup _ _ _ h := nomatch hphase.symm.trans h

theorem Fresh.awaiting (fresh : self.Fresh)
    (hphase : self.phase = .awaiting await method params) (hnone : self.inFlight = []) : Inv self where
  heard := fresh.heard
  order _ := by
    rw [hnone, fresh.received, fresh.submitted, fresh.queued]
    rfl
  exited h := nomatch hphase.symm.trans h
  idle _ _ := fresh.queued
  direct _ _ _ _ _ := fresh.queued
  setup _ _ _ _ := .inr (.inr fresh.received)

theorem Fresh.endWith (fresh : self.Fresh) (heve : event ≠ .steered) : Inv (self.endWith event) := by
  refine fresh.heard.endWith ?_ heve (.inr (.inr ?_))
  · rw [fresh.submitted]
    exact ⟨_, nil_append _⟩
  · rw [fresh.submitted, fresh.received]

theorem Fresh.requestThread (fresh : self.Fresh) : Inv (self.requestThread request) := by
  unfold Session.requestThread
  have hfre : ∀ phase, Fresh { self with phase := phase } := fun _ =>
    ⟨⟨fresh.heard.listening, fresh.heard.quiet, fresh.heard.steered⟩, fresh.received, fresh.submitted, fresh.queued⟩
  split
  · exact (hfre _).awaiting rfl rfl
  · exact (hfre _).awaiting rfl rfl
  · exact (hfre _).awaiting rfl rfl

theorem Fresh.threadStarted (fresh : self.Fresh) (thread : Value) : Inv (self.threadStarted request thread) := by
  unfold Session.threadStarted
  dsimp only
  rw [if_pos fresh.heard.listening]
  generalize ((thread.pointer ["thread", "id"]).bind Value.asStr).getD "" = threadId
  have heard : Heard { self with threadId := threadId } :=
    ⟨fresh.heard.listening, fresh.heard.quiet, fresh.heard.steered⟩
  have hne : AgentEvent.sessionStarted threadId ≠ .steered := nofun
  have hhea := heard.sendFinal hne
  obtain ⟨hrecv, hsub, hqueued, -⟩ :=
    sendFinal_records _ _
  generalize sendFinal { self with threadId := threadId } (.sessionStarted threadId) = started at hhea hrecv hsub hqueued
  have hfre : ∀ phase, Fresh { started with phase := phase } := fun _ =>
    ⟨⟨hhea.listening, hhea.quiet, hhea.steered⟩, hrecv.trans fresh.received, hsub.trans fresh.submitted, hqueued.trans fresh.queued⟩
  split
  · exact (hfre _).awaiting rfl rfl
  · exact (hfre _).endWith nofun

/-! ## Steps -/

theorem Inv.fresh (inv : Inv self) (hphase : self.phase = .awaiting await method params)
    (hawa : (∀ message expected, await ≠ .steer message expected) ∧ ∀ message, await ≠ .newTurn message) : self.Fresh := by
  have hrecv : self.received = [] := by
    rcases inv.setup _ _ _ hphase with ⟨message, expected, h⟩ | ⟨message, h⟩ | h
    · exact absurd h (hawa.1 _ _)
    · exact absurd h (hawa.2 _)
    · exact h
  have hord := inv.order (by rw [hphase]; nofun)
  rw [hrecv] at hord
  obtain ⟨hleft, hqueued⟩ := append_eq_nil_iff.mp hord.symm
  exact ⟨inv.heard, hrecv, (append_eq_nil_iff.mp hleft).1, hqueued⟩

theorem Inv.respond (inv : Inv self) (hphase : self.phase = .awaiting await method params) (outcome : Except String Value)
    (horde : ¬self.Slip (.respond outcome)) : Inv (self.respond request await outcome) := by
  have hord := inv.order (by rw [hphase]; nofun)
  unfold inFlight at hord
  rw [hphase] at hord
  unfold Session.respond
  split
  · exact (inv.fresh hphase ⟨nofun, nofun⟩).requestThread
  · exact (inv.fresh hphase ⟨nofun, nofun⟩).endWith nofun
  · exact (inv.fresh hphase ⟨nofun, nofun⟩).threadStarted _
  · have fresh := inv.fresh hphase ⟨nofun, nofun⟩
    split
    · exact fresh.endWith nofun
    · exact fresh.endWith nofun
    · have hfre : ∀ phase, Fresh { self with phase := phase } := fun _ =>
        ⟨⟨fresh.heard.listening, fresh.heard.quiet, fresh.heard.steered⟩, fresh.received, fresh.submitted, fresh.queued⟩
      exact (hfre _).awaiting rfl rfl
  · exact (inv.fresh hphase ⟨nofun, nofun⟩).threadStarted _
  · exact (inv.fresh hphase ⟨nofun, nofun⟩).endWith nofun
  · exact (inv.fresh hphase ⟨nofun, nofun⟩).threadStarted _
  · exact (inv.fresh hphase ⟨nofun, nofun⟩).endWith nofun
  · have fresh := inv.fresh hphase ⟨nofun, nofun⟩
    exact Fresh.selecting ⟨⟨fresh.heard.listening, fresh.heard.quiet, fresh.heard.steered⟩, fresh.received, fresh.submitted,
      fresh.queued⟩ rfl
  · exact (inv.fresh hphase ⟨nofun, nofun⟩).endWith nofun
  · rename_i message expected value
    have hqueued := inv.direct _ _ _ _ hphase
    have heard : Heard { self with phase := .selecting } := ⟨inv.heard.listening, inv.heard.quiet, inv.heard.steered⟩
    exact heard.submit rfl (hord.trans (append_assoc ..)) fun _ => hqueued
  · rename_i message expected e
    have hqueued := inv.direct _ _ _ _ hphase
    have heard : ∀ queued, Heard { self with phase := .selecting, queuedSteers := queued } := fun _ =>
      ⟨inv.heard.listening, inv.heard.quiet, inv.heard.steered⟩
    split
    · refine ⟨heard _, fun _ => ?_, nofun, fun _ hdone => ?_, nofun, nofun⟩
      · change self.received = self.submitted ++ [] ++ (self.queuedSteers ++ [message])
        rw [hord, hqueued]
        simp
      · exact absurd (.inl ⟨hdone, ⟨message, expected, method, params, hphase⟩, e, rfl⟩) horde
    · exact (heard _).steerAsNewTurn (hord.trans (append_assoc ..))
  · rename_i message started
    have heard : Heard { self with
        phase := .selecting
        router := self.router.adoptStarted (startedTurn started)
        doneCurrent := false } := ⟨inv.heard.listening, inv.heard.quiet, inv.heard.steered⟩
    exact heard.submit rfl (hord.trans (append_assoc ..)) nofun
  · rename_i message e
    have heve : AgentEvent.error ("Steering failed: " ++ displayError e) ≠ .steered := nofun
    exact inv.heard.tell (hord.trans (append_assoc ..)) heve (.inl rfl)

theorem Heard.selecting (heard : self.Heard) (hphase : self.phase = .selecting)
    (hord : self.received = self.submitted ++ self.queuedSteers)
    (hidle : self.doneCurrent = true → self.queuedSteers = []) : Inv self where
  heard := heard
  order _ := by
    unfold inFlight
    rw [hphase, hord]
    simp
  exited h := nomatch hphase.symm.trans h
  idle _ := hidle
  direct _ _ _ _ h := nomatch hphase.symm.trans h
  setup _ _ _ h := nomatch hphase.symm.trans h

/-- While the session takes what comes, what has not been submitted waits. -/
theorem Inv.order_selecting (inv : Inv self) (hphase : self.phase = .selecting) :
    self.received = self.submitted ++ self.queuedSteers := by
  have hord := inv.order (by rw [hphase]; nofun)
  unfold inFlight at hord
  rw [hphase] at hord
  rw [hord]
  simp

theorem Inv.send (inv : Inv self) (hphase : self.phase = .selecting) (heve : event ≠ .steered) :
    Inv (self.send request event id) := by
  obtain ⟨hrecv, hsub, hqueued, hdone, hpha'⟩ := sendFinal_records self _
  unfold Session.send
  rw [if_pos inv.heard.listening]
  refine (inv.heard.sendFinal heve).selecting (hpha'.trans hphase) ?_ ?_
  · rw [hrecv, hsub, hqueued]
    exact inv.order_selecting hphase
  · rw [hdone, hqueued]
    exact inv.idle hphase

theorem Heard.afterTurn (heard : self.Heard) (hphase : self.phase = .selecting)
    (hord : self.received = self.submitted ++ self.queuedSteers) : Inv (self.afterTurn request) := by
  unfold Session.afterTurn
  rw [if_neg (by rw [heard.quiet]; exact Bool.false_ne_true)]
  dsimp only
  split
  · rename_i message rest hste
    have hnext : Heard { self with currentNative := false, queuedSteers := rest } :=
      ⟨heard.listening, heard.quiet, heard.steered⟩
    refine hnext.steerAsNewTurn ?_
    rw [hste] at hord
    exact hord
  · rename_i hste
    have hnext : Heard { self with currentNative := false } := ⟨heard.listening, heard.quiet, heard.steered⟩
    split
    · exact hnext.selecting hphase hord fun _ => hste
    · rw [hste, append_nil] at hord
      exact hnext.finish ⟨[], (append_nil _).trans hord.symm⟩ (.inr (.inr hord.symm))

section

variable (inv : Inv self) (hphase : self.phase = .selecting)
include inv hphase

theorem Inv.turnCompleted (params : Value) : Inv (self.turnCompleted serde request params) := by
  unfold Session.turnCompleted Session.send
  rw [if_pos inv.heard.listening]
  generalize (turnErrorMessage serde params).or _ = error
  generalize (if self.interrupted = true then DoneStatus.interrupted else _) = status
  have heard : Heard { self with router := self.router.noteCompleted (turnIdOf params), doneCurrent := true } :=
    ⟨inv.heard.listening, inv.heard.quiet, inv.heard.steered⟩
  have heve : AgentEvent.done status error (some self.threadId) ≠ .steered := nofun
  obtain ⟨hrecv, hsub, hqueued, -, hpha'⟩ := sendFinal_records _ _
  refine (heard.sendFinal heve).afterTurn (hpha'.trans hphase) ?_
  rw [hrecv, hsub, hqueued]
  exact inv.order_selecting hphase

/-- A turn has ended otherwise, with an error or while no message waits. -/
theorem Inv.turnEnded (params : Value) (status : DoneStatus)
    {error : Option String} (h : error.isSome = true ∨ self.queuedSteers = []) :
    Inv (self.turnEnded request params status error) := by
  have heard : Heard { self with
      router := self.router.noteCompleted (turnIdOf params)
      doneCurrent := true
      doneAfterInterrupt := self.doneAfterInterrupt || self.interrupted } :=
    ⟨inv.heard.listening, inv.heard.quiet, inv.heard.steered⟩
  have heve : AgentEvent.done status error (some self.threadId) ≠ .steered := nofun
  refine heard.tell (inv.order_selecting hphase) heve (h.imp (fun hsome => ?_) id)
  obtain ⟨-, rfl⟩ := Option.isSome_iff_exists.mp hsome
  rfl

theorem Inv.notified (method : String) (params : Value) (talks : Bool)
    (hord : ¬self.Slip (.incoming (.notification method params) talks)) :
    Inv (self.notified serde request method params talks) := by
  have hoth : AgentEvent.other ≠ .steered := nofun
  unfold Session.notified
  split
  · split
    · exact inv.send hphase hoth
    · exact inv
  · rename_i hchd
    split
    · have heard : Heard { self with router := self.router.noteStarted (turnIdOf params) } :=
        ⟨inv.heard.listening, inv.heard.quiet, inv.heard.steered⟩
      exact heard.selecting hphase (inv.order_selecting hphase) (inv.idle hphase)
    · split
      · exact inv.turnCompleted hphase _
      · split
        · exact inv.turnEnded hphase _ _ (.inl rfl)
        · split
          · rename_i hmet
            refine inv.turnEnded hphase _ _ (.inr ?_)
            by_contra hqueued
            rw [hmet] at hchd hord
            exact hord (.inr ⟨hqueued, params, talks, rfl, Bool.eq_false_iff.mpr hchd⟩)
          · split
            · have herr : AgentEvent.error (errorMessage params) ≠ .steered := nofun
              exact inv.send hphase herr
            · split
              · exact inv.send hphase hoth
              · exact inv

theorem Inv.finish : Inv (self.finish request) := by
  have hord := inv.order_selecting hphase
  refine inv.heard.finish ⟨_, hord.symm⟩ (.inr ?_)
  cases hdone : self.doneCurrent with
  | false => exact .inl rfl
  | true =>
    rw [inv.idle hphase hdone, append_nil] at hord
    exact .inr hord.symm

theorem Inv.incoming (message : Incoming) (talks : Bool)
    (hord : ¬self.Slip (.incoming message talks)) : Inv (self.incoming serde request message talks) := by
  cases message with
  | notification method params => exact inv.notified hphase _ _ _ hord
  | request id method params => exact inv
  | eof => exact inv.finish hphase

theorem Inv.steer (message : SteerMessage) : Inv (self.steer request message) := by
  have hord := inv.order_selecting hphase
  have heard : Heard { self with received := self.received ++ [message] } :=
    ⟨inv.heard.listening, inv.heard.quiet, inv.heard.steered⟩
  unfold Session.steer
  dsimp only
  split
  · rename_i hwait
    have hnext : Heard { self with
        received := self.received ++ [message]
        queuedSteers := self.queuedSteers ++ [message] } :=
      ⟨inv.heard.listening, inv.heard.quiet, inv.heard.steered⟩
    refine hnext.selecting hphase ?_ fun hdone => ?_
    · rw [hord, append_assoc]
    · rw [hdone] at hwait
      exact absurd hwait Bool.false_ne_true
  · rename_i hwait
    have hqueued : self.queuedSteers = [] := by
      cases hdone : self.doneCurrent with
      | true => exact inv.idle hphase hdone
      | false =>
        rw [hdone] at hwait
        cases hqueued : self.queuedSteers with
        | nil => rfl
        | cons other rest =>
          rw [hqueued] at hwait
          exact absurd rfl hwait
    rw [hqueued, append_nil] at hord
    split
    · rename_i expected hact
      refine ⟨⟨heard.listening, heard.quiet, heard.steered⟩, fun _ => ?_, nofun, nofun, fun _ _ _ _ _ => hqueued, ?_⟩
      · change self.received ++ [message] = self.submitted ++ [message] ++ self.queuedSteers
        rw [hqueued, hord, append_nil]
      · rintro - - - ⟨⟩
        exact .inl ⟨message, expected, rfl⟩
    · refine heard.steerAsNewTurn ?_
      rw [hqueued, hord]

theorem Inv.closeSteering : Inv (self.closeSteering request) := by
  have heard : Heard { self with steeringOpen := false } := ⟨inv.heard.listening, inv.heard.quiet, inv.heard.steered⟩
  have hnext : Inv { self with steeringOpen := false } :=
    heard.selecting hphase (inv.order_selecting hphase) (inv.idle hphase)
  unfold Session.closeSteering
  dsimp only
  split
  · exact hnext.finish hphase
  · exact hnext

end

theorem inv_new : Inv (new request) :=
  Fresh.awaiting ⟨⟨rfl, rfl, rfl⟩, rfl, rfl, rfl⟩ rfl rfl

theorem Run.inv (run : Run serde request Orderly self) : Inv self := by
  induction run with
  | new => exact inv_new
  | step run step ok ih =>
    obtain ⟨⟨hinterrupt, hlis⟩, hslip⟩ := ok
    cases step with
    | respond await method params awaiting outcome => exact ih.respond awaiting _ hslip
    | incoming selecting message talks => exact ih.incoming selecting _ _ hslip
    | steer selecting open_ quiet message => exact ih.steer selecting _
    | closeSteering selecting open_ quiet => exact ih.closeSteering selecting
    | interrupt selecting once => exact absurd rfl hinterrupt
    | interruptSetup await method params awaiting setup => exact absurd rfl hinterrupt
    | stopListening => exact absurd rfl hlis
    | unheard selecting gone => exact nomatch ih.heard.listening.symm.trans gone

theorem finish_phase (self : Session) : (self.finish request).phase = .exited := by
  unfold Session.finish Session.endWith
  split
  · rfl
  · split <;> rfl

theorem steerAsNewTurn_phase (self : Session) (message : SteerMessage) :
    (self.steerAsNewTurn request message).phase ≠ .selecting := by
  unfold Session.steerAsNewTurn
  dsimp only
  split
  · nofun
  · rw [finish_phase]
    nofun

theorem afterTurn_idle (self : Session) (h : (self.afterTurn request).phase = .selecting) :
    (self.afterTurn request).queuedSteers = [] := by
  unfold Session.afterTurn at h ⊢
  split at h
  · rw [finish_phase] at h
    nomatch h
  · rename_i hqui
    rw [if_neg hqui]
    dsimp only at h ⊢
    split at h
    · exact absurd h (steerAsNewTurn_phase _ _)
    · rename_i hqueued
      split at h
      · rename_i hopen
        rw [if_pos hopen]
        exact hqueued
      · rw [finish_phase] at h
        nomatch h

/-- When a turn has completed and no other one has been requested, no message waits. -/
theorem turnCompleted_idle (self : Session) (params : Value) (h : (self.turnCompleted serde request params).phase = .selecting) :
    (self.turnCompleted serde request params).queuedSteers = [] := by
  unfold Session.turnCompleted Session.send at h ⊢
  dsimp only at h ⊢
  split at h
  · rename_i hlis
    rw [if_pos hlis]
    exact afterTurn_idle _ h
  · rw [finish_phase] at h
    nomatch h

theorem incoming_turnCompleted (self : Session) (params : Value) (talks : Bool)
    (h : isChildNotification self.threadId "turn/completed" params = false) :
    self.incoming serde request (.notification "turn/completed" params) talks = self.turnCompleted serde request params := by
  unfold Session.incoming Session.notified
  dsimp only
  rw [h, if_neg Bool.false_ne_true, if_neg (by decide), if_pos rfl]

/-- Messages are submitted in the order in which they have come, each once at most, and this is told each time; each has
been submitted when the session has ended, unless an error is told; and none waits when a turn has completed and no other one
has been requested. -/
theorem steering_keeps_order (serde : Serde) (request : RunRequest) (session : Session)
    (run : Run serde request Orderly session) :
    session.submitted <+: session.received ∧ session.steeredEvents = session.submitted.length ∧
    (session.phase = .exited → session.Failed ∨ session.submitted = session.received) ∧
    ∀ params talks, session.phase = .selecting → isChildNotification session.threadId "turn/completed" params = false →
      (session.incoming serde request (.notification "turn/completed" params) talks).phase = .selecting →
      (session.incoming serde request (.notification "turn/completed" params) talks).queuedSteers = [] := by
  have inv := run.inv
  refine ⟨?_, inv.heard.steered, fun hexited => (inv.exited hexited).2, fun params talks hphase hchild hidle => ?_⟩
  · by_cases hexited : session.phase = .exited
    · exact (inv.exited hexited).1
    · exact ⟨_, ((inv.order hexited).trans (append_assoc ..)).symm⟩
  · rw [incoming_turnCompleted session params talks hchild] at hidle ⊢
    exact turnCompleted_idle session params hidle

/-- A message of a word. -/
def demoMessage (prompt : String) : SteerMessage := ⟨prompt, none, [], []⟩

/-- What the runs below are asked for. -/
def demoRequest : RunRequest := ⟨demoMessage "begin", none, none, "1", [], [], "exited"⟩

/-- The session whose first turn has started. -/
def demoStarted : Session :=
  (((new demoRequest).respond demoRequest .handshake (.ok .null)).respond demoRequest .startThread
    (.ok (.object [("thread", .object [("id", .string "t")])]))).respond demoRequest .firstTurn
    (.ok (.object [("turn", .object [("id", .string "1")])]))

theorem run_demoStarted {allowed : Session → Action → Prop}
    (halw : ∀ before outcome, before.doneCurrent = false → allowed before (.respond outcome)) :
    Run JsonRpc.demoSerde demoRequest allowed demoStarted := by
  have hnew : Run JsonRpc.demoSerde demoRequest allowed (new demoRequest) := .new
  have hhan := hnew.step (.respond _ _ _ rfl (.ok .null)) (halw _ _ rfl)
  have hthr := hhan.step
    (.respond _ _ _ rfl (.ok (.object [("thread", .object [("id", .string "t")])]))) (halw _ _ rfl)
  exact hthr.step (.respond _ _ _ rfl _) (halw _ _ rfl)

/-- A message that is accepted. -/
theorem steering_keeps_order_accepted :
    let session := (demoStarted.steer demoRequest (demoMessage "more")).respond demoRequest (.steer (demoMessage "more") "1")
      (.ok .null)
    session.submitted <+: session.received ∧ session.steeredEvents = session.submitted.length := by
  intro session
  have horderly : ∀ (before : Session) (outcome : Except String Value), before.doneCurrent = false →
      Orderly before (.respond outcome) := by
    intro before outcome hdone
    refine ⟨⟨nofun, nofun⟩, ?_⟩
    rintro (⟨h, -⟩ | ⟨-, _, _, h, -⟩)
    · exact nomatch hdone.symm.trans h
    · nomatch h
  have hsteer : Run JsonRpc.demoSerde demoRequest Orderly (demoStarted.steer demoRequest (demoMessage "more")) := by
    refine (run_demoStarted horderly).step (.steer rfl rfl rfl _) ⟨⟨nofun, nofun⟩, ?_⟩
    rintro (⟨h, -⟩ | ⟨h, -⟩)
    · nomatch h
    · exact h rfl
  have hrun := hsteer.step (.respond (.steer (demoMessage "more") "1") _ _ rfl (.ok .null)) (horderly _ _ rfl)
  obtain ⟨hsubmitted, hsteered, -⟩ := steering_keeps_order JsonRpc.demoSerde demoRequest session hrun
  exact ⟨hsubmitted, hsteered⟩

/-- A turn completes under no id, so that its own is still active. Of two messages the first is rejected and the second
accepted; then the app-server ends. -/
theorem steering_loses_message : ∃ session, Run JsonRpc.demoSerde demoRequest (fun _ action => Quiet action) session ∧
    session.received = [demoMessage "first", demoMessage "second"] ∧ session.submitted = [demoMessage "second"] ∧
    session.phase = .exited ∧ ¬session.Failed := by
  have hstarted : Run JsonRpc.demoSerde demoRequest (fun _ action => Quiet action) demoStarted :=
    run_demoStarted fun _ _ _ => ⟨nofun, nofun⟩
  have hcompleted := hstarted.step
    (.incoming rfl (.notification "turn/completed" (.object [])) false) ⟨nofun, nofun⟩
  have hfirst := hcompleted.step (.steer rfl rfl rfl (demoMessage "first")) ⟨nofun, nofun⟩
  have hrejected := hfirst.step (.respond (.steer (demoMessage "first") "1") _ _ rfl (.error "no turn")) ⟨nofun, nofun⟩
  have hsecond := hrejected.step (.steer rfl rfl rfl (demoMessage "second")) ⟨nofun, nofun⟩
  have haccepted := hsecond.step (.respond (.steer (demoMessage "second") "1") _ _ rfl (.ok .null)) ⟨nofun, nofun⟩
  have heof := haccepted.step (.incoming rfl .eof false) ⟨nofun, nofun⟩
  refine ⟨_, heof, rfl, rfl, rfl, ?_⟩
  unfold Failed
  decide

end Session

end Wu.Codex
