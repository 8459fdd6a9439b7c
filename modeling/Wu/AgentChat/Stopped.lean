import Wu.AgentChat.Session

/-!
# A chat that was stopped

After a stop nothing goes on by itself: no run starts, no queued prompt is sent, and the chat does not work once the run has
ended. It takes that no turn ends otherwise than by the interrupt while a queued prompt could be sent, and that the stopped run
was not one whose native fork fails: a turn that ends sends what is queued next without asking whether the user stopped, and a
run whose fork failed is started again.
-/

namespace Wu.AgentChat.AgentSession

/-- The user hands a prompt to the agent. -/
def Action.Sends : Action → Prop
  | .sendMessage .. | .steerQueued _ | .sendQueuedNow _ => True
  | _ => False

/-- The user changes what is queued. -/
def Action.EditsQueue : Action → Prop
  | .removeQueued _ | .moveQueued .. | .finishQueuedEdit .. => True
  | _ => False

/-- What a stop must not meet: a turn that ends on its own while a queued prompt can be sent, and the end of a run whose fork has
failed. -/
def GoesOn (self : AgentSession) : Action → Prop
  | .event (.done status _ _) =>
    self.deleted = false ∧ self.hasSendableQueued = true ∧ status ≠ .interrupted ∧
      ¬(status = .errored ∧ self.nativeForkPending = true)
  | .runEnded => self.deleted = false ∧ self.nativeForkFailed = true ∧ self.nativeForkPrompt.isSome = true
  | .runFailed _ =>
    self.deleted = false ∧ (self.nativeForkPending = true ∨ self.nativeForkFailed = true ∧ self.nativeForkPrompt.isSome = true)
  | _ => False

/-- What holds of a chat `after` the stop of `session`. -/
structure Stopped (session after : AgentSession) : Prop where
  userStopped : after.userStopped = true
  promptAfterStop : after.promptAfterStop = none
  handed : after.handed = session.handed
  /-- The run is the one that was stopped. -/
  run : ∀ run, after.run = some run → run.interrupted = true ∧ ∃ stopped, session.run = some stopped ∧ run.request = stopped.request
  idle : after.run = none → after.working = false

/-- The fields that a stop is about, but for `working`. -/
def stopFields (self : AgentSession) :=
  (self.userStopped, self.promptAfterStop, self.handed, self.run)

variable {self before after : AgentSession}

namespace Stopped

theorem stop (session : AgentSession) : Stopped session session.stop := by
  unfold AgentSession.stop
  by_cases hsome : session.run.isSome = true
  · rw [if_pos hsome]
    obtain ⟨stopped, hrun⟩ := Option.isSome_iff_exists.mp hsome
    have hlive : (interruptRun { session with promptAfterStop := none, userStopped := true }).run =
        some { stopped with interrupted := true } := by simp [interruptRun, hrun]
    refine ⟨rfl, rfl, rfl, ?_, ?_⟩
    · intro run hlive'
      obtain rfl := Option.some.inj (hlive.symm.trans hlive')
      exact ⟨rfl, stopped, hrun, rfl⟩
    · intro hnone
      nomatch hlive.symm.trans hnone
  · rw [if_neg hsome]
    refine ⟨rfl, rfl, rfl, ?_, fun _ => rfl⟩
    intro run hlive
    exact absurd (Option.isSome_iff_exists.mpr ⟨run, hlive⟩) hsome

/-- A step that only changes other fields, and lets the chat work only while there is a run. -/
theorem of_fields (h : Stopped self before) (hfie : after.stopFields = before.stopFields)
    (hidle : before.run = none → before.working = false → after.working = false) : Stopped self after := by
  obtain ⟨huser, hfie⟩ := Prod.mk.inj hfie
  obtain ⟨hpend, hfie⟩ := Prod.mk.inj hfie
  obtain ⟨hhand, hrun⟩ := Prod.mk.inj hfie
  refine ⟨huser.trans h.userStopped, hpend.trans h.promptAfterStop, hhand.trans h.handed, ?_, ?_⟩
  · intro run hlive
    exact h.run run (hrun ▸ hlive)
  · intro hnone
    exact hidle (hrun ▸ hnone) (h.idle (hrun ▸ hnone))

/-- As long as there is a run, the chat may work. -/
theorem of_live (h : Stopped self before) {run : ActiveRun} (live : before.run = some run)
    (hfie : after.stopFields = before.stopFields) : Stopped self after := by
  refine h.of_fields hfie ?_
  intro hnone
  nomatch hnone.symm.trans live

end Stopped

/-- The fields that a stop is about are the same, and what tells which queued prompts can be sent. -/
structure StopSame (before after : AgentSession) : Prop where
  fields : after.stopFields = before.stopFields
  queue : after.queue = before.queue
  editing : after.editingQueued = before.editingQueued
  deleted : after.deleted = before.deleted

theorem foldl_pushNotice_same (messages : List String) (self : AgentSession) :
    self.StopSame (messages.foldl (fun self message => self.pushNotice message true) self) := by
  induction messages generalizing self with
  | nil => exact ⟨rfl, rfl, rfl, rfl⟩
  | cons message rest ih =>
    obtain ⟨hfie, hque, hedit, hdel⟩ := ih _
    exact ⟨hfie, hque, hedit, hdel⟩

theorem noteSessionId_same (self : AgentSession) (sessionId : Option String) : self.StopSame (self.noteSessionId sessionId) := by
  unfold noteSessionId
  split
  · unfold setNativeSessionId
    split
    · exact ⟨rfl, rfl, rfl, rfl⟩
    · dsimp only
      split
      · obtain ⟨hfie, hque, hedit, hdel⟩ := foldl_pushNotice_same _ _
        exact ⟨hfie, hque, hedit, hdel⟩
      · exact ⟨rfl, rfl, rfl, rfl⟩
  · exact ⟨rfl, rfl, rfl, rfl⟩

theorem StopSame.hasSendableQueued (h : before.StopSame after) : after.hasSendableQueued = before.hasSendableQueued := by
  unfold AgentSession.hasSendableQueued AgentSession.sendable
  rw [h.queue, h.editing]

/-- Nothing is sent when nothing can be. -/
theorem sendNextQueued_eq (h : self.deleted = true ∨ self.hasSendableQueued = false) : self.sendNextQueued = self := by
  unfold sendNextQueued
  split
  · rfl
  · have hdel : self.deleted = false := by simp_all
    have hnone : self.queue.find? self.sendable = none := by
      rcases h with h | h
      · exact nomatch h.symm.trans hdel
      · rw [List.find?_eq_none]
        intro queued hmem hsend
        have hany : self.hasSendableQueued = true := List.any_eq_true.mpr ⟨queued, hmem, hsend⟩
        nomatch h.symm.trans hany
    simp [takeNextQueued, hnone]

namespace Stopped

variable {session : AgentSession}

/-- The end of a turn of the stopped run. -/
theorem turnDone (h : Stopped session self) {run : ActiveRun} (live : self.run = some run) {status : DoneStatus}
    (hstay : self.deleted = true ∨ self.hasSendableQueued = false ∨ status = .interrupted)
    (error sessionId : Option String) :
    Stopped session (self.turnDone status error sessionId) ∧ (self.turnDone status error sessionId).queue = self.queue := by
  have hleft : ∀ left, self.StopSame left →
      Stopped session (if status = .interrupted then left else left.sendNextQueued) ∧
        (if status = .interrupted then left else left.sendNextQueued).queue = self.queue := by
    intro left hsame
    have heq : (if status = .interrupted then left else left.sendNextQueued) = left := by
      split
      · rfl
      · rename_i hstat
        refine sendNextQueued_eq ?_
        rw [hsame.deleted, hsame.hasSendableQueued]
        rcases hstay with hdel | hnone | hinterrupted
        · exact .inl hdel
        · exact .inr hnone
        · exact absurd hinterrupted hstat
    rw [heq]
    exact ⟨h.of_live live hsame.fields, hsame.queue⟩
  have hsame := self.noteSessionId_same sessionId
  refine hleft _ ?_
  cases status <;> exact ⟨hsame.fields, hsame.queue, hsame.editing, hsame.deleted⟩

/-- What the agent tells changes neither the queue nor what a stop is about. -/
theorem applyEvent (h : Stopped session self) {run : ActiveRun} (live : self.run = some run) (event : AgentEvent)
    (hstay : ¬self.GoesOn (.event event)) :
    Stopped session (self.applyEvent event) ∧ (self.applyEvent event).queue = self.queue := by
  cases event with
  | sessionStarted sessionId =>
    have hsame := self.noteSessionId_same (some sessionId)
    exact ⟨h.of_live live hsame.fields, hsame.queue⟩
  | permissionModeReported mode | error message =>
    unfold AgentSession.applyEvent
    dsimp only
    split <;> exact ⟨h.of_live live rfl, rfl⟩
  | done status error sessionId =>
    unfold AgentSession.applyEvent
    dsimp only
    split
    · exact ⟨h.of_live live rfl, rfl⟩
    · rename_i hfork
      refine h.turnDone live ?_ _ _
      by_contra hgoes
      simp only [not_or, Bool.not_eq_true, Bool.not_eq_false] at hgoes
      refine hstay ⟨hgoes.1, hgoes.2.1, hgoes.2.2, ?_⟩
      intro hfail
      exact hfork (by simpa using hfail)
  | compacting active =>
    unfold AgentSession.applyEvent
    dsimp only
    split <;> exact ⟨h.of_live live rfl, rfl⟩
  | _ => exact ⟨h.of_live live rfl, rfl⟩

/-- After the stopped run nothing waits for it, and the queue is not asked. -/
theorem afterRun (hfie : self.stopFields = (true, none, session.handed, none)) :
    Stopped session self.afterRun ∧ self.afterRun.queue = self.queue := by
  obtain ⟨huser, hfie⟩ := Prod.mk.inj hfie
  obtain ⟨hpend, hfie⟩ := Prod.mk.inj hfie
  obtain ⟨hhand, hrun⟩ := Prod.mk.inj hfie
  unfold AgentSession.afterRun
  simp only [hpend, Option.filter_none, huser, if_true]
  refine ⟨⟨rfl, rfl, hhand, ?_, fun _ => rfl⟩, trivial⟩
  intro run hlive
  nomatch hrun.symm.trans hlive

theorem runEnded (h : Stopped session self) (transcript : Transcript) (failed forkFailed : Bool)
    (hstay : self.deleted = true ∨ forkFailed = false ∨ self.nativeForkPrompt = none) :
    Stopped session { self with transcript := transcript, runFailed := failed, nativeForkFailed := forkFailed }.runEnded ∧
      { self with transcript := transcript, runFailed := failed, nativeForkFailed := forkFailed }.runEnded.queue =
        self.queue := by
  have hfie : ∀ prompt : Option Prompt, ({ ({ self with
        transcript := transcript, runFailed := failed, nativeForkFailed := forkFailed }.clearRun) with
        nativeForkFailed := false, nativeForkPrompt := prompt } : AgentSession).stopFields =
      (true, none, session.handed, none) := by
    intro prompt
    simp only [stopFields, clearRun, AgentSession.cancelRunningTools, h.userStopped, h.promptAfterStop, h.handed]
  unfold AgentSession.runEnded
  dsimp only
  split
  · rename_i hfork
    have hnone : Option.filter (fun _ => !self.deleted) self.nativeForkPrompt = none := by
      rcases hstay with hdel | hfal | hnone
      · cases hpro : self.nativeForkPrompt <;> simp [hdel]
      · exact nomatch hfork.symm.trans hfal
      · rw [hnone]
        rfl
    have hfilt : Option.filter
        (fun _ => !({ self with
          transcript := transcript, runFailed := failed, nativeForkFailed := forkFailed } : AgentSession).clearRun.deleted)
        ({ self with
          transcript := transcript
          runFailed := failed
          nativeForkFailed := forkFailed } : AgentSession).clearRun.nativeForkPrompt = none := hnone
    simp only [hfilt]
    exact afterRun (hfie none)
  · exact afterRun (hfie _)

theorem failRun (h : Stopped session self) (message : String) (hstay : ¬self.GoesOn (.runFailed message)) :
    Stopped session (self.failRun message) ∧ (self.failRun message).queue = self.queue := by
  have hqui : self.deleted = true ∨ self.nativeForkPending = false ∧
      (self.nativeForkFailed = false ∨ self.nativeForkPrompt = none) := by
    unfold GoesOn at hstay
    cases hdel : self.deleted <;> cases hfail : self.nativeForkFailed <;>
      cases hpend : self.nativeForkPending <;> cases hpro : self.nativeForkPrompt <;> simp_all
  unfold AgentSession.failRun
  split
  · rename_i hpend
    refine h.runEnded _ _ true ?_
    rcases hqui with hdel | ⟨hnone, -⟩
    · exact .inl hdel
    · nomatch hnone.symm.trans hpend
  · refine h.runEnded _ true _ ?_
    rcases hqui with hdel | ⟨-, hnone⟩
    · exact .inl hdel
    · exact .inr hnone

/-- The run goes on, with the request that it has, and is to stop. -/
theorem of_run (h : Stopped session self) {run : ActiveRun} (next : ActiveRun) (live : self.run = some run)
    (hfie : after.stopFields = (self.userStopped, self.promptAfterStop, self.handed, some next))
    (hreq : next.request = run.request) (hinterrupted : next.interrupted = true) : Stopped session after := by
  obtain ⟨huser, hfie⟩ := Prod.mk.inj hfie
  obtain ⟨hpend, hfie⟩ := Prod.mk.inj hfie
  obtain ⟨hhand, hrun⟩ := Prod.mk.inj hfie
  refine ⟨huser.trans h.userStopped, hpend.trans h.promptAfterStop, hhand.trans h.handed, ?_, ?_⟩
  · intro run' hlive
    obtain rfl := Option.some.inj (hrun.symm.trans hlive)
    rw [hreq]
    exact ⟨hinterrupted, (h.run run live).2⟩
  · intro hnone
    nomatch hrun.symm.trans hnone

/-- The queue is edited. -/
theorem of_edit (h : Stopped session self) (hfie : after.stopFields = self.stopFields)
    (hwork : after.working = self.working) : Stopped session after := by
  refine h.of_fields hfie ?_
  intro _ hidle
  rw [hwork, hidle]

end Stopped

theorem closeEdit_stopFields (self : AgentSession) (id : Nat) :
    (self.closeEdit id).stopFields = self.stopFields ∧ (self.closeEdit id).working = self.working := by
  unfold closeEdit
  split <;> exact ⟨rfl, rfl⟩

namespace Stopped

variable {session : AgentSession}

/-- A step of a stopped chat in which the user hands over no prompt and nothing goes on: only the user changes the queue. -/
theorem step (h : Stopped session self) {action : Action} (hstep : Step self action after) (hsend : ¬action.Sends)
    (hstay : ¬self.GoesOn action) : Stopped session after ∧ (¬action.EditsQueue → after.queue = self.queue) := by
  cases hstep with
  | sendMessage steerWhileWorking prompt => exact absurd trivial hsend
  | steerQueued id => exact absurd trivial hsend
  | sendQueuedNow id => exact absurd trivial hsend
  | removeQueued id =>
    refine ⟨?_, fun hedit => absurd trivial hedit⟩
    obtain ⟨hfie, hwork⟩ := self.closeEdit_stopFields id
    unfold AgentSession.removeQueued takeQueued
    cases self.queue.find? _ with
    | none => exact h
    | some queued => exact h.of_edit hfie hwork
  | moveQueued id toIndex =>
    refine ⟨?_, fun hedit => absurd trivial hedit⟩
    unfold AgentSession.moveQueued
    split <;> exact h.of_edit rfl rfl
  | beginQueuedEdit id =>
    unfold AgentSession.beginQueuedEdit
    split <;> exact ⟨h.of_edit rfl rfl, fun _ => rfl⟩
  | finishQueuedEdit id edited =>
    refine ⟨?_, fun hedit => absurd trivial hedit⟩
    obtain ⟨hfie, hwork⟩ := self.closeEdit_stopFields id
    unfold AgentSession.finishQueuedEdit
    dsimp only
    split
    · split <;> exact h.of_edit hfie hwork
    · exact h.of_edit hfie hwork
  | stop =>
    unfold AgentSession.stop
    dsimp only
    split
    · rename_i hsome
      obtain ⟨run, live⟩ := Option.isSome_iff_exists.mp hsome
      refine ⟨h.of_run { run with interrupted := true } live ?_ rfl rfl, fun _ => rfl⟩
      simp [stopFields, interruptRun, live, h.userStopped, h.promptAfterStop]
    · refine ⟨h.of_fields ?_ fun _ _ => rfl, fun _ => rfl⟩
      simp [stopFields, h.userStopped, h.promptAfterStop]
  | answer id => exact ⟨h.of_edit rfl rfl, fun _ => rfl⟩
  | runStarted run live starting =>
    exact ⟨h.of_run _ live rfl rfl (h.run run live).1, fun _ => rfl⟩
  | readSteering run live listening steer rest unread =>
    exact ⟨h.of_run _ live rfl rfl (h.run run live).1, fun _ => rfl⟩
  | closeSteering run live =>
    exact ⟨h.of_run _ live rfl rfl (h.run run live).1, fun _ => rfl⟩
  | event run live started event =>
    obtain ⟨hstpd, hque⟩ := h.applyEvent live _ hstay
    exact ⟨hstpd, fun _ => hque⟩
  | streamError run live started message => exact ⟨h.of_edit rfl rfl, fun _ => rfl⟩
  | question run live started questions =>
    unfold pushQuestion
    split <;> exact ⟨h.of_edit rfl rfl, fun _ => rfl⟩
  | runFailed run live starting message =>
    obtain ⟨hstpd, hque⟩ := h.failRun _ hstay
    exact ⟨hstpd, fun _ => hque⟩
  | runEnded run live started =>
    have hqui : self.deleted = true ∨ self.nativeForkFailed = false ∨ self.nativeForkPrompt = none := by
      unfold GoesOn at hstay
      cases hdel : self.deleted <;> cases hfail : self.nativeForkFailed <;>
        cases hpro : self.nativeForkPrompt <;> simp_all
    obtain ⟨hstpd, hque⟩ := h.runEnded _ _ _ hqui
    exact ⟨hstpd, fun _ => hque⟩

end Stopped

theorem stopped_run {session : AgentSession}
    (run : Run (fun before action => ¬action.Sends ∧ ¬before.GoesOn action) session.stop after) : Stopped session after := by
  induction run with
  | start => exact Stopped.stop _
  | step _ hstep hok ih => exact (ih.step hstep hok.1 hok.2).1

/-! ### Steps that go on -/

/-! ### Runs -/

/-- After a stop, whatever the agent and its run do and whatever the user does but hand over a prompt: no prompt is handed to a
run, the run is the one that was stopped, no prompt waits for it to end, only the user changes the queue, and the chat does not
work once the run has ended. So it is in each run in which no step goes on. -/
theorem stop_stays_stopped {session : AgentSession}
    (run : Run (fun before action => ¬action.Sends ∧ ¬before.GoesOn action) session.stop after) :
    Stopped session after ∧ ∀ action next, Step after action next → ¬action.Sends → ¬after.GoesOn action →
      ¬action.EditsQueue → next.queue = after.queue := by
  have hstopped := stopped_run run
  refine ⟨hstopped, ?_⟩
  intro action next hstep hsends hstays hedits
  exact (hstopped.step hstep hsends hstays).2 hedits

/-- A chat with a queued message whose run has started. -/
def chatting : AgentSession :=
  let sent := claudeChat.sendMessage false (message "hello" 0)
  (sent.run.elim sent sent.runStarted).sendMessage false (message "more" 1)

theorem run_chatting : Run (fun _ _ => True) claudeChat chatting :=
  .step (.step (.step .start (.sendMessage _ (message "hello" 0)) trivial) (.runStarted _ rfl rfl) trivial)
    (.sendMessage false (message "more" 1)) trivial

/-- The run of a chat is stopped, and ends its turn by the interrupt. -/
theorem stop_stays_stopped_interrupted :
    Stopped chatting (chatting.stop.applyEvent (.done .interrupted none none)) ∧
      ∀ action next, Step (chatting.stop.applyEvent (.done .interrupted none none)) action next → ¬action.Sends →
        ¬(chatting.stop.applyEvent (.done .interrupted none none)).GoesOn action → ¬action.EditsQueue →
          next.queue = (chatting.stop.applyEvent (.done .interrupted none none)).queue :=
  stop_stays_stopped (.step .start (.event _ rfl rfl (.done .interrupted none none)) ⟨id, fun h => h.2.2.1 rfl⟩)

/-- A turn that had completed when the run was stopped sends what is queued. -/
theorem stop_goes_on :
    ¬∀ (metadata : SessionMetadata) (transcript : Transcript) (saved : List Prompt) (session after : AgentSession),
      Run (fun _ _ => True) (new metadata transcript saved) session →
        Run (fun _ action => ¬action.Sends) session.stop after → Stopped session after := by
  intro h
  have hdone : Run (fun _ action => ¬action.Sends) chatting.stop (chatting.stop.applyEvent (.done .completed none none)) :=
    .step .start (.event _ rfl rfl (.done .completed none none)) id
  have hstopped := h _ _ _ chatting _ run_chatting hdone
  exact absurd hstopped.promptAfterStop (by decide)

end Wu.AgentChat.AgentSession
