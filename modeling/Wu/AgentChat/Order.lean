import Wu.AgentChat.Session

/-!
# The order of the prompts of a chat

Prompts are handed to the agent in the order in which they were sent, while nobody stops the agent or takes up the queue. It
takes that no prompt is steered past one that waits in the queue: a command that Claude cannot take in a turn.
-/

namespace Wu.AgentChat.AgentSession

open List

variable {self : AgentSession} {line accepted : List Prompt} {prompt : Prompt}

/-- An action that neither stops the agent nor takes up the queue. -/
def Plain : Action → Prop
  | .stop | .steerQueued _ | .sendQueuedNow _ | .removeQueued _ | .moveQueued _ _ | .beginQueuedEdit _ => False
  | .finishQueuedEdit _ _ => False
  | _ => True

/-- A prompt is sent to an agent that works, to be steered, while another waits in the queue. -/
def Overtakes (self : AgentSession) : Action → Prop
  | .sendMessage steerWhileWorking prompt =>
    steerWhileWorking = true ∧ prompt.trimmed.isEmpty = false ∧ self.working = true ∧ self.run.isSome = true ∧ self.queue ≠ []
  | _ => False

/-- A chat that is neither stopped nor a fork, and whose queue is not edited. `line` are the prompts that were handed to the
agent and, behind them, those that wait. -/
structure Orderly (line accepted : List Prompt) (session : AgentSession) : Prop where
  running : ∀ run, session.run = some run → run.interrupted = false
  afterStop : session.promptAfterStop = none
  forkSource : session.forkSource = none
  forkPrompt : session.nativeForkPrompt = none
  editing : session.editingQueued = none
  live : session.working = true → session.run.isSome = true
  kept : session.deleted = false
  inLine : session.handed ++ session.queue.map QueuedMessage.prompt = line
  accepted : session.accepted = accepted

namespace Orderly

theorem stopping_eq (h : Orderly line accepted self) : self.stopping = false := by
  unfold stopping
  cases hrun : self.run with
  | none => rfl
  | some run => exact h.running run hrun

/-! ## The queue -/

theorem sendable_eq (h : Orderly line accepted self) (queued : QueuedMessage) : self.sendable queued = true := by
  unfold sendable
  rw [h.editing]
  rfl

/-- The first of the queue is taken. -/
theorem takeNextQueued_cons (h : Orderly line accepted self) {next : QueuedMessage} {rest : List QueuedMessage}
    (hque : self.queue = next :: rest) : self.takeNextQueued = some (next, { self with queue := rest }) := by
  unfold takeNextQueued
  rw [hque, List.find?_cons_of_pos (h.sendable_eq next), eraseP_cons_of_pos (h.sendable_eq next)]
  rfl

theorem takeNextQueued_nil (hque : self.queue = []) : self.takeNextQueued = none := by
  unfold takeNextQueued
  rw [hque]
  rfl

theorem queue_eq_nil (h : Orderly line accepted self) (hnone : ¬self.hasSendableQueued = true) : self.queue = [] := by
  cases hque : self.queue with
  | nil => rfl
  | cons next rest =>
    refine absurd ?_ hnone
    unfold hasSendableQueued
    rw [hque, any_cons, h.sendable_eq, Bool.true_or]

theorem enqueue (h : Orderly line accepted self) (prompt : Prompt) : Orderly (line ++ [prompt]) accepted (self.enqueue prompt) :=
  { h with
    inLine := by
      have hline := h.inLine
      unfold AgentSession.enqueue
      simp only [map_append, map_cons, map_nil]
      rw [← append_assoc, hline] }

/-! ## Delivery -/

section

variable (h : Orderly line accepted self)
include h

/-- A prompt that is shown starts a run. -/
theorem startRun (prompt : Prompt) (transcript : Transcript) (failed : Bool) (run : Option ActiveRun) :
    Orderly (self.handed ++ prompt :: self.queue.map QueuedMessage.prompt) accepted
      ({ self with transcript := transcript, working := true, runFailed := failed, run := run }.startRun prompt) where
  running run hrun := by
    cases hrun
    rfl
  afterStop := h.afterStop
  forkSource := h.forkSource
  forkPrompt := by
    unfold AgentSession.startRun
    rw [h.forkSource, ite_self]
    rfl
  editing := h.editing
  live _ := rfl
  kept := h.kept
  inLine := by
    change self.handed ++ [prompt] ++ self.queue.map QueuedMessage.prompt = _
    rw [append_assoc, singleton_append]
  accepted := h.accepted

theorem handOver (prompt : Prompt) : Orderly (self.handed ++ prompt :: self.queue.map QueuedMessage.prompt) accepted
      ((self.showUser prompt).handOver prompt) := by
  unfold AgentSession.handOver showUser
  cases hrun : self.run with
  | none => exact h.startRun _ _ _ none
  | some run =>
    dsimp only
    rw [h.running run hrun, if_neg Bool.false_ne_true]
    generalize hsent : run.trySend _ = sent
    cases sent with
    | none => exact h.startRun _ _ _ none
    | some run' =>
      exact
        { h with
          running := by
            intro live hlive
            cases hlive
            rw [(ActiveRun.eq_of_trySend hsent).1]
            exact h.running run hrun
          live := fun _ => rfl
          inLine := by
            change self.handed ++ [prompt] ++ self.queue.map QueuedMessage.prompt = _
            rw [append_assoc, singleton_append] }

theorem dropRestarting : Orderly line accepted self.dropRestarting := by
  unfold AgentSession.dropRestarting
  split
  · rename_i hres
    have hidle : self.working = false := by simpa using (Bool.and_eq_true_iff.mp hres).2
    exact
      { h with
        running := nofun
        live := fun hwork => absurd (hidle.symm.trans hwork) Bool.false_ne_true }
  · exact h

/-- A prompt that is delivered comes before those that wait. -/
theorem deliver (prompt : Prompt) :
    Orderly (self.handed ++ prompt :: self.queue.map QueuedMessage.prompt) accepted (self.deliver prompt) := by
  unfold AgentSession.deliver
  split
  · exact { h with inLine := rfl }
  · have hline := (({ h with } : Orderly line accepted { self with userStopped := false }).dropRestarting).handOver prompt
    have hsame : ∀ session : AgentSession, session.dropRestarting.handed = session.handed ∧
        session.dropRestarting.queue = session.queue := by
      intro session
      unfold AgentSession.dropRestarting
      split <;> exact ⟨rfl, rfl⟩
    rw [(hsame _).1, (hsame _).2] at hline
    exact hline

/-- A prompt that is delivered while no other waits comes last. -/
theorem deliver_last (hemp : self.queue = []) (prompt : Prompt) : Orderly (line ++ [prompt]) accepted (self.deliver prompt) := by
  have hline : self.handed ++ prompt :: self.queue.map QueuedMessage.prompt = line ++ [prompt] := by
    rw [← h.inLine, hemp, map_nil, append_nil]
  rw [← hline]
  exact h.deliver _

/-- The first of the queue is delivered. -/
theorem deliver_next {next : QueuedMessage} {rest : AgentSession}
    (htake : self.takeNextQueued = some (next, rest)) : Orderly line accepted (rest.deliver next.prompt) := by
  cases hque : self.queue with
  | nil =>
    rw [takeNextQueued_nil hque] at htake
    nomatch htake
  | cons first others =>
    rw [h.takeNextQueued_cons hque] at htake
    obtain ⟨rfl, rfl⟩ := Prod.mk.inj (Option.some.inj htake)
    have hoth : Orderly (self.handed ++ others.map QueuedMessage.prompt) accepted { self with queue := others } :=
      { h with inLine := rfl }
    have hline : self.handed ++ first.prompt :: others.map QueuedMessage.prompt = line := by
      rw [← h.inLine, hque, map_cons]
    rw [← hline]
    exact hoth.deliver _

theorem sendNextQueued : Orderly line accepted self.sendNextQueued := by
  unfold AgentSession.sendNextQueued
  split
  · exact h
  · split
    · rename_i htake
      exact h.deliver_next htake
    · exact h

/-- A prompt that overtakes no other is sent behind them. -/
theorem sendAccepted {steerWhileWorking : Bool}
    (hovertakes : steerWhileWorking = true → self.working = true → self.run.isSome = true → self.queue = []) :
    Orderly (line ++ [prompt]) accepted (self.sendAccepted steerWhileWorking prompt) := by
  unfold AgentSession.sendAccepted
  rw [h.stopping_eq]
  split
  · rename_i hlive
    simp only [Bool.not_false, Bool.and_true, Bool.and_eq_true] at hlive
    split
    · rename_i hste
      exact h.deliver_last (hovertakes hste hlive.1 hlive.2) _
    · exact h.enqueue _
  · split
    · have hqueued := h.enqueue prompt
      dsimp only
      split
      · rename_i htake
        exact hqueued.deliver_next htake
      · exact hqueued
    · rename_i hnone
      exact h.deliver_last (h.queue_eq_nil (by simpa using hnone)) _

/-- A message is sent that overtakes no other. -/
theorem sendMessage {steerWhileWorking : Bool} (hovertakes : ¬self.Overtakes (.sendMessage steerWhileWorking prompt)) :
    ∃ sent, Orderly (line ++ sent) (accepted ++ sent) (self.sendMessage steerWhileWorking prompt) := by
  unfold AgentSession.sendMessage
  dsimp only
  split
  · refine ⟨[], ?_⟩
    rw [append_nil, append_nil]
    exact h
  · rename_i hsend
    obtain ⟨hfull, -⟩ := Bool.or_eq_false_iff.mp (Bool.eq_false_iff.mpr hsend)
    refine ⟨[prompt.trimmed], ?_⟩
    have hnow : Orderly line (accepted ++ [prompt.trimmed])
        { self with accepted := self.accepted ++ [prompt.trimmed] } :=
      { h with accepted := congrArg (· ++ [prompt.trimmed]) h.accepted }
    refine hnow.sendAccepted ?_
    intro hste hwork hlive
    by_contra hque
    exact hovertakes ⟨hste, hfull, hwork, hlive, hque⟩

end

/-! ## Runs and their events -/

/-- What follows a run, once it is over. -/
theorem afterRun (h : Orderly line accepted { self with working := false }) : Orderly line accepted self.afterRun := by
  have hnone : self.promptAfterStop = none := h.afterStop
  have hidle : Orderly line accepted { self with promptAfterStop := none, working := false } := { h with afterStop := rfl }
  unfold AgentSession.afterRun
  rw [hnone]
  dsimp only [Option.filter]
  split
  · exact hidle
  · exact hidle.sendNextQueued

section

variable (h : Orderly line accepted self)
include h

/-- A run has ended; which it was, what it was asked and what it left in the transcript does not matter. -/
theorem runEnded (transcript : Transcript) (failed forkFailed : Bool) : Orderly line accepted
      { self with transcript := transcript, runFailed := failed, nativeForkFailed := forkFailed }.runEnded := by
  have hnone : self.nativeForkPrompt = none := h.forkPrompt
  unfold AgentSession.runEnded AgentSession.clearRun AgentSession.cancelRunningTools
  dsimp only
  rw [hnone]
  split
  · exact afterRun { h with running := nofun, forkPrompt := rfl, live := nofun }
  · exact afterRun { h with running := nofun, forkPrompt := rfl, live := nofun }

theorem failRun (message : String) : Orderly line accepted (self.failRun message) := by
  have hpend : self.nativeForkPending = false := by
    unfold AgentSession.nativeForkPending
    rw [h.forkPrompt]
    rfl
  unfold AgentSession.failRun
  rw [hpend]
  exact h.runEnded _ true _

theorem noteSessionId (sessionId : Option String) : Orderly line accepted (self.noteSessionId sessionId) := by
  unfold AgentSession.noteSessionId
  split
  · unfold AgentSession.setNativeSessionId
    split
    · exact h
    · rw [h.forkPrompt, if_neg (by exact Bool.false_ne_true)]
      exact { h with forkPrompt := rfl }
  · exact h

theorem turnDone (status : DoneStatus) (error sessionId : Option String) :
    Orderly line accepted (self.turnDone status error sessionId) := by
  have hnot := h.noteSessionId sessionId
  have hdone : ∀ (compacting failed : Bool) (transcript : Transcript), Orderly line accepted
      { self.noteSessionId sessionId with
        working := (self.noteSessionId sessionId).promptAfterStop.isSome
        compacting := compacting
        runFailed := failed
        transcript := transcript } := by
    intro compacting failed transcript
    refine { hnot with live := ?_ }
    rw [hnot.afterStop]
    exact nofun
  cases status with
  | completed => exact (hdone _ _ _).sendNextQueued
  | interrupted => exact hdone _ _ _
  | errored => exact (hdone _ true _).sendNextQueued

theorem applyEvent (hlive : self.run.isSome = true) (event : AgentEvent) : Orderly line accepted (self.applyEvent event) := by
  have hres : ∀ transcript, Orderly line accepted { self.resumeWorking with transcript := transcript } := by
    intro transcript
    exact { h with live := fun _ => hlive }
  cases event with
  | sessionStarted sessionId => exact h.noteSessionId _
  | permissionModeReported mode =>
    unfold AgentSession.applyEvent
    dsimp only
    split
    · exact { h with }
    · exact h
  | textDelta text => exact hres _
  | reasoningDelta text => exact hres _
  | assistantMessageCompleted => exact { h with }
  | steered => exact hres _
  | toolCall id => exact hres _
  | toolResult id isError => exact { h with }
  | error message =>
    unfold AgentSession.applyEvent
    dsimp only
    split
    · exact { h with }
    · exact { h with }
  | done status error sessionId =>
    unfold AgentSession.applyEvent
    dsimp only
    split
    · exact { h with }
    · exact h.turnDone _ _ _
  | generatedImage path => exact { h with }
  | compacting active =>
    cases active with
    | true => exact { h with live := fun _ => hlive }
    | false => exact { h with }
  | compacted manual => exact { h with }
  | other => exact h

/-- What a plain step that overtakes no prompt keeps. -/
theorem step {action : Action} {after : AgentSession} (hstep : Step self action after)
    (hpln : Plain action) (hovertakes : ¬self.Overtakes action) :
    ∃ sent, Orderly (line ++ sent) (accepted ++ sent) after := by
  have hsame : ∀ {after : AgentSession}, Orderly line accepted after →
      ∃ sent, Orderly (line ++ sent) (accepted ++ sent) after := by
    intro after haft
    refine ⟨[], ?_⟩
    rw [append_nil, append_nil]
    exact haft
  cases hstep with
  | sendMessage steerWhileWorking prompt => exact h.sendMessage hovertakes
  | steerQueued | sendQueuedNow | removeQueued | moveQueued | beginQueuedEdit | finishQueuedEdit | stop =>
    exact absurd hpln id
  | answer id => exact hsame { h with }
  | runStarted run live starting =>
    refine hsame { h with running := ?_, live := fun _ => rfl }
    intro started hstd
    cases hstd
    exact h.running run live
  | readSteering run live listening steer rest unread =>
    refine hsame { h with running := ?_, live := fun _ => rfl }
    intro reading hrdg
    cases hrdg
    exact h.running run live
  | closeSteering run live =>
    refine hsame { h with running := ?_, live := fun _ => rfl }
    intro closed hclsd
    cases hclsd
    exact h.running run live
  | event run live started event =>
    have hlive : self.run.isSome = true := by
      rw [live]
      rfl
    exact hsame (h.applyEvent hlive _)
  | streamError run live started message => exact hsame { h with }
  | question run live started questions =>
    unfold pushQuestion
    split
    · exact hsame h
    · exact hsame { h with }
  | runFailed run live starting message => exact hsame (h.failRun _)
  | runEnded run live started => exact hsame (h.runEnded _ _ _)

end

end Orderly

variable {metadata : SessionMetadata} {transcript : Transcript} {saved : List Prompt}

/-- A chat that is opened: what was saved of its queue waits. -/
theorem orderly_new (hfork : metadata.forkSource = none) : Orderly saved [] (new metadata transcript saved) where
  running := nofun
  afterStop := rfl
  forkSource := hfork
  forkPrompt := rfl
  editing := rfl
  live := nofun
  kept := rfl
  inLine := by
    unfold new
    rw [nil_append, map_map]
    exact zipIdx_map_fst 0 _
  accepted := rfl

theorem orderly_run (hfork : metadata.forkSource = none) {session : AgentSession}
    (run : Run (fun before action => Plain action ∧ ¬before.Overtakes action) (new metadata transcript saved) session) :
    Orderly (saved ++ session.accepted) session.accepted session := by
  induction run with
  | start =>
    have hnew := @orderly_new _ transcript saved hfork
    change Orderly (saved ++ []) [] _
    rw [append_nil]
    exact hnew
  | @step before after action _ hstep hok ih =>
    obtain ⟨sent, haft⟩ := ih.step hstep hok.1 hok.2
    rw [append_assoc, ← haft.accepted] at haft
    exact haft

/-- The prompts are handed to the agent in the order in which they were sent, behind those that were saved, in each run of a chat
in which nobody stops the agent or takes up the queue and no prompt overtakes another. -/
theorem prompts_in_order (hfork : metadata.forkSource = none) {session : AgentSession}
    (run : Run (fun before action => Plain action ∧ ¬before.Overtakes action) (new metadata transcript saved) session) :
    session.handed <+: saved ++ session.accepted := by
  have h := orderly_run hfork run
  exact ⟨session.queue.map QueuedMessage.prompt, h.inLine⟩

/-- A command that waits for the turn to end. -/
theorem prompts_in_order_command :
    ((claudeChat.sendMessage true (message "hello" 0)).sendMessage true (message "/compact" 1)).handed <+:
      [] ++ ((claudeChat.sendMessage true (message "hello" 0)).sendMessage true (message "/compact" 1)).accepted :=
  prompts_in_order rfl
    (.step
      (.step .start (.sendMessage true (message "hello" 0)) ⟨trivial, fun h => absurd h.2.2.1 (by decide)⟩)
      (.sendMessage true (message "/compact" 1)) ⟨trivial, fun h => h.2.2.2.2 (by decide)⟩)

/-- A message that is steered overtakes a command that waits. -/
theorem prompts_out_of_order :
    ¬∀ (metadata : SessionMetadata) (transcript : Transcript) (session : AgentSession), metadata.forkSource = none →
      Run (fun _ action => Plain action) (new metadata transcript []) session → session.handed <+: session.accepted := by
  intro h
  have hrun : Run (fun _ action => Plain action) claudeChat
      (((claudeChat.sendMessage true (message "hello" 0)).sendMessage true (message "/compact" 1)).sendMessage true
        (message "more" 2)) :=
    .step
      (.step (.step .start (.sendMessage true (message "hello" 0)) trivial)
        (.sendMessage true (message "/compact" 1)) trivial)
      (.sendMessage true (message "more" 2)) trivial
  exact absurd (h _ _ _ rfl hrun) (by decide)

end Wu.AgentChat.AgentSession
