import Wu.AgentChat.Session

/-!
# What becomes of the prompts of a chat

A prompt that was accepted waits in the queue or for the run to stop, is received by a run or can be read by the one that is
live, or is shown as not delivered, unless the user removes it. It takes that no run is dropped with messages that it has not
read, that the user does not stop the agent while a prompt waits for the run to stop, and that a run that fails has shown its
prompt last.
-/

namespace Wu.AgentChat

open List Option Transcript Bool

/-- A message that a run has not received, and can. -/
inductive ActiveRun.Readable (run : ActiveRun) (send : Nat) : Prop where
  | request (starting : run.started = false) (mem : send ∈ run.request.sends)
  | steering (listening : run.listening = true) (steer : Steer) (unread : steer ∈ run.steering) (mem : send ∈ steer.sends)

/-- What is shown as not delivered is shown so after. -/
def Transcript.Shows (before after : Transcript) : Prop :=
  ∀ prompt, Entry.user prompt true ∈ before.entries → Entry.user prompt true ∈ after.entries

namespace Transcript

variable {self : Transcript}

theorem shows_push (self : Transcript) (entry : Entry) : self.Shows (self.push entry) := by
  intro prompt hmem
  exact mem_append_left _ hmem

theorem shows_pushUser (self : Transcript) (prompt : Prompt) : self.Shows (self.pushUser prompt) := self.shows_push _

theorem shows_pushNotice (self : Transcript) (text : String) (isError : Bool) : self.Shows (self.pushNotice text isError) :=
  self.shows_push _

/-- What is not the last entry is before it. -/
theorem mem_dropLast {entry last : Entry} {entries : List Entry} (hmem : entry ∈ entries)
    (hlast : entries.getLast? = some last) (hne : entry ≠ last) : entry ∈ entries.dropLast := by
  obtain ⟨before, rfl⟩ := getLast?_eq_some_iff.mp hlast
  rw [dropLast_concat]
  rcases mem_append.mp hmem with h | h
  · exact h
  · exact absurd (mem_singleton.mp h) hne

theorem shows_appendText (self : Transcript) (text : String) (thinking : Bool) : self.Shows (self.appendText text thinking) := by
  intro prompt hmem
  unfold appendText
  split
  · exact hmem
  · split
    · rename_i hlast
      exact mem_append_left _ (mem_dropLast hmem hlast nofun)
    · rename_i hlast
      exact mem_append_left _ (mem_dropLast hmem hlast nofun)
    · exact mem_append_left _ hmem

theorem shows_startTool (self : Transcript) (id : String) : self.Shows (self.startTool id) := by
  intro prompt hmem
  unfold startTool
  split
  · exact hmem
  · exact mem_append_left _ hmem

theorem mem_setStatus {id : String} {status : ToolStatus} {prompt : Prompt} {entries : List Entry}
    (hmem : Entry.user prompt true ∈ entries) : Entry.user prompt true ∈ setStatus id status entries := by
  induction entries with
  | nil => exact hmem
  | cons entry rest ih =>
    unfold setStatus
    split
    · rename_i htool
      rcases mem_cons.mp hmem with h | h
      · rw [← h] at htool
        exact absurd htool false_ne_true
      · exact .tail _ h
    · rcases mem_cons.mp hmem with h | h
      · exact mem_cons.mpr (.inl h)
      · exact .tail _ (ih h)

theorem shows_finishTool (self : Transcript) (id : String) (isError : Bool) : self.Shows (self.finishTool id isError) := by
  intro prompt hmem
  exact mem_reverse.mpr (mem_setStatus (mem_reverse.mpr hmem))

theorem shows_cancelRunningTools (self : Transcript) : self.Shows self.cancelRunningTools := by
  intro prompt hmem
  exact mem_map.mpr ⟨_, hmem, rfl⟩

theorem shows_markUndelivered (self : Transcript) : self.Shows self.markUndelivered := by
  intro prompt hmem
  unfold markUndelivered
  split
  · rename_i last _ hlast
    by_cases hsame : Entry.user prompt true = .user last true
    · rw [hsame]
      exact mem_append_right _ (.head _)
    · refine mem_append_left _ (mem_dropLast hmem hlast ?_)
      rintro heq
      cases heq
      exact hsame rfl
  · exact hmem

/-- The last entry is shown as not delivered. -/
theorem mem_markUndelivered {prompt : Prompt} {undelivered : Bool} (hlast : self.entries.getLast? = some (.user prompt undelivered)) :
    Entry.user prompt true ∈ self.markUndelivered.entries := by
  unfold markUndelivered
  rw [hlast]
  exact mem_append_right _ (.head _)

end Transcript

namespace AgentSession

variable {self before after : AgentSession} {send : Nat} {prompt : Prompt}

/-- Where a message is that is not lost. -/
inductive Kept (session : AgentSession) (send : Nat) : Prop where
  | queued (queued : QueuedMessage) (waits : queued ∈ session.queue) (mem : send ∈ queued.prompt.sends)
  | afterStop (pending : Prompt) (waits : session.promptAfterStop = some pending) (mem : send ∈ pending.sends)
  | received (mem : send ∈ session.received)
  | readable (run : ActiveRun) (live : session.run = some run) (mem : run.Readable send)
  | undelivered (prompt : Prompt) (shown : Entry.user prompt true ∈ session.transcript.entries) (mem : send ∈ prompt.sends)

/-- A message that is kept is kept after when the queue, what was received and what is shown are, and the others are. -/
theorem Kept.imp (h : before.Kept send) (hque : ∀ queued ∈ before.queue, queued ∈ after.queue)
    (hstop : ∀ pending, before.promptAfterStop = some pending → send ∈ pending.sends → after.Kept send)
    (hrecv : before.received ⊆ after.received)
    (hread : ∀ run, before.run = some run → run.Readable send → after.Kept send)
    (hshow : before.transcript.Shows after.transcript) : after.Kept send := by
  cases h with
  | queued queued waits mem => exact .queued _ (hque _ waits) mem
  | afterStop pending waits mem => exact hstop _ waits mem
  | received mem => exact .received (hrecv mem)
  | readable run live mem => exact hread run live mem
  | undelivered prompt shown mem => exact .undelivered _ (hshow _ shown) mem

/-- A message is the prompt of a fork that has failed and will be tried again. -/
def AwaitsRetry (self : AgentSession) (send : Nat) : Prop :=
  self.nativeForkFailed = true ∧ ∃ prompt, self.nativeForkPrompt = some prompt ∧ send ∈ prompt.sends

/-- What a run that starts is asked for is the prompt of its fork. -/
def Forked (self : AgentSession) : Prop :=
  ∀ prompt run, self.nativeForkPrompt = some prompt → self.run = some run → run.started = false → run.request.sends ⊆ prompt.sends

/-- What is kept of one chat by another. -/
structure Keeps (before after : AgentSession) : Prop where
  accepted : after.accepted = before.accepted
  removed : before.removed ⊆ after.removed
  deleted : after.deleted = before.deleted
  forked : before.Forked → after.Forked
  kept : ∀ send, before.Kept send → send ∈ after.removed ∨ after.Kept send

namespace Keeps

theorem refl (self : AgentSession) : self.Keeps self where
  accepted := rfl
  removed := List.Subset.refl _
  deleted := rfl
  forked h := h
  kept _ h := .inr h

theorem trans {middle : AgentSession} (h : before.Keeps middle) (h' : middle.Keeps after) : before.Keeps after where
  accepted := h'.accepted.trans h.accepted
  removed := List.Subset.trans h.removed h'.removed
  deleted := h'.deleted.trans h.deleted
  forked hfork := h'.forked (h.forked hfork)
  kept send hkept := by
    rcases h.kept send hkept with hrem | hkept
    · exact .inl (h'.removed hrem)
    · exact h'.kept send hkept

end Keeps

/-- What holds messages, but for the transcript and the prompt of a fork. -/
def holders (self : AgentSession) :=
  ((self.queue, self.promptAfterStop, self.received, self.run), (self.accepted, self.removed, self.deleted))

/-- What holds messages is the same, and the transcript shows what it did; the prompt of a fork may be forgotten. -/
theorem keeps_of_holders (h : after.holders = before.holders)
    (hfork : after.nativeForkPrompt = before.nativeForkPrompt ∨ after.nativeForkPrompt = none)
    (hshow : before.transcript.Shows after.transcript) : before.Keeps after := by
  obtain ⟨hwait, hrest⟩ := Prod.mk.inj h
  obtain ⟨hque, hwait⟩ := Prod.mk.inj hwait
  obtain ⟨hstop, hwait⟩ := Prod.mk.inj hwait
  obtain ⟨hrecv, hrun⟩ := Prod.mk.inj hwait
  obtain ⟨hacc, hrest⟩ := Prod.mk.inj hrest
  obtain ⟨hrem, hdel⟩ := Prod.mk.inj hrest
  refine ⟨hacc, ?_, hdel, ?_, ?_⟩
  · rw [hrem]
    exact List.Subset.refl _
  · intro hfor prompt run hpro hlive
    rcases hfork with hsame | hnone
    · exact hfor _ run (hsame ▸ hpro) (hrun ▸ hlive)
    · nomatch hnone.symm.trans hpro
  · intro send hkept
    refine .inr (hkept.imp ?_ ?_ ?_ ?_ hshow)
    · rw [hque]
      exact fun _ h => h
    · intro pending waits mem
      exact .afterStop _ (hstop ▸ waits) mem
    · rw [hrecv]
      exact List.Subset.refl _
    · intro run live mem
      exact .readable run (hrun ▸ live) mem

/-! ## The queue -/

/-- What is not found first stays. -/
theorem eq_or_mem_eraseP {test : QueuedMessage → Bool} {queue : List QueuedMessage} {queued other : QueuedMessage}
    (hfind : queue.find? test = some queued) (hmem : other ∈ queue) : other = queued ∨ other ∈ queue.eraseP test := by
  induction queue with
  | nil => nomatch hmem
  | cons first rest ih =>
    cases htest : test _ with
    | true =>
      rw [List.find?_cons_of_pos htest] at hfind
      rw [eraseP_cons_of_pos htest]
      cases hfind
      exact mem_cons.mp hmem
    | false =>
      rw [List.find?_cons_of_neg (Bool.eq_false_iff.mp htest)] at hfind
      rw [eraseP_cons_of_neg (Bool.eq_false_iff.mp htest)]
      rcases mem_cons.mp hmem with h | h
      · exact .inr (mem_cons.mpr (.inl h))
      · exact (ih hfind h).imp_right (mem_cons_of_mem _)

/-- The queue changes, and a message that was in it is in it or kept otherwise. -/
theorem keeps_taken {queue : List QueuedMessage} {nextQueueId : Nat} {editing : Option Nat}
    (haft : { self with queue := queue, nextQueueId := nextQueueId, editingQueued := editing }.Keeps after)
    (hque : ∀ queued ∈ self.queue, queued ∈ queue ∨ ∀ send ∈ queued.prompt.sends, send ∈ after.removed ∨ after.Kept send) :
    self.Keeps after where
  accepted := haft.accepted
  removed := haft.removed
  deleted := haft.deleted
  forked h := haft.forked h
  kept send hkept := by
    cases hkept with
    | queued queued waits mem =>
      rcases hque _ waits with hstay | hkept
      · exact haft.kept send (.queued _ hstay mem)
      · exact hkept send mem
    | afterStop pending waits mem => exact haft.kept send (.afterStop _ waits mem)
    | received mem => exact haft.kept send (.received mem)
    | readable run live mem => exact haft.kept send (.readable run live mem)
    | undelivered prompt shown mem => exact haft.kept send (.undelivered _ shown mem)

/-- The queue changes, and nothing of it is lost. -/
theorem keeps_queue {queue : List QueuedMessage} (nextQueueId : Nat) (editing : Option Nat)
    (hque : ∀ queued ∈ self.queue, queued ∈ queue) :
    self.Keeps { self with queue := queue, nextQueueId := nextQueueId, editingQueued := editing } :=
  keeps_taken (Keeps.refl _) fun queued hmem => .inl (hque queued hmem)

theorem keeps_enqueue (self : AgentSession) (prompt : Prompt) : self.Keeps (self.enqueue prompt) :=
  keeps_queue _ _ fun _ hmem => mem_append_left _ hmem

theorem keeps_enqueueFirst (self : AgentSession) (prompt : Prompt) : self.Keeps (self.enqueueFirst prompt) :=
  keeps_queue _ _ fun _ hmem => .tail _ hmem

/-! ## Delivery -/

/-- The run has messages that it has not received, and can. -/
def Unread (self : AgentSession) : Prop :=
  ∃ run, self.run = some run ∧ (run.started = false ∨ run.listening = true ∧ run.steering ≠ [])

/-- The run is dropped when a prompt is handed over: it is to be restarted, or its steering channel is full or closed. -/
def DropsRun (self : AgentSession) : Prop :=
  (self.restartOnNextSend = true ∧ self.working = false) ∨ ∃ run, self.run = some run ∧ run.interrupted = false ∧
      (run.listening = false ∨ steeringCapacity ≤ run.steering.length)

/-- What can be read of a run with nothing unread: nothing. -/
theorem not_readable (h : ¬self.Unread) {run : ActiveRun} (hlive : self.run = some run) : ¬run.Readable send := by
  intro hread
  refine h ⟨run, hlive, ?_⟩
  cases hread with
  | request starting _ => exact .inl starting
  | steering listening steer unread _ => exact .inr ⟨listening, ne_nil_of_mem unread⟩

/-- The run is dropped. -/
theorem keeps_dropRun (h : ¬self.Unread) (restart : Bool) :
    self.Keeps { self with run := none, restartOnNextSend := restart } where
  accepted := rfl
  removed := List.Subset.refl _
  deleted := rfl
  forked _ _ _ _ hlive := nomatch hlive
  kept send hkept := by
    refine .inr (hkept.imp (fun _ h => h) (fun _ waits mem => .afterStop _ waits mem) (List.Subset.refl _) ?_ fun _ h => h)
    intro run live mem
    exact absurd mem (not_readable h live)

/-- A run is started when there is none. -/
theorem keeps_startRun (h : self.run = none) (prompt : Prompt) : self.Keeps (self.startRun prompt) where
  accepted := rfl
  removed := List.Subset.refl _
  deleted := rfl
  forked _ forked run hpro hlive _ := by
    cases hlive
    have hsame : ∀ fork : Option String, (if fork.isSome = true then some prompt else none) = some forked → prompt = forked := by
      intro fork h
      split at h
      · exact some.inj h
      · nomatch h
    cases hsame _ hpro
    exact List.Subset.refl _
  kept send hkept := by
    refine .inr (hkept.imp (fun _ h => h) (fun _ waits mem => .afterStop _ waits mem) (List.Subset.refl _) ?_ fun _ h => h)
    intro run live
    exact absurd (h.symm.trans live) nofun

/-- The prompt that a run is started with can be read. -/
theorem kept_startRun (hmem : send ∈ prompt.sends) : (self.startRun prompt).Kept send :=
  .readable _ rfl (.request rfl hmem)

/-- The prompt that has come while the run stops is merged with the one before. -/
theorem keeps_merge (self : AgentSession) (later : Prompt)
    (hlat : ∀ pending, self.promptAfterStop = some pending → pending.sends ⊆ later.sends) :
    self.Keeps { self with promptAfterStop := some later } where
  accepted := rfl
  removed := List.Subset.refl _
  deleted := rfl
  forked h := h
  kept send hkept := by
    refine .inr (hkept.imp (fun _ h => h) ?_ (List.Subset.refl _) (fun _ live mem => .readable _ live mem) fun _ h => h)
    intro pending waits mem
    exact .afterStop _ rfl (hlat _ waits mem)

/-- A message is put in the steering channel. -/
theorem keeps_steer {run : ActiveRun} (hlive : self.run = some run) (steer : Steer) (handed : List Prompt) :
    self.Keeps { self with run := some { run with steering := run.steering ++ [steer] }, handed := handed } where
  accepted := rfl
  removed := List.Subset.refl _
  deleted := rfl
  forked h prompt run' hpro hlive' hstg := by
    cases hlive'
    exact h _ run hpro hlive hstg
  kept send hkept := by
    refine .inr (hkept.imp (fun _ h => h) (fun _ waits mem => .afterStop _ waits mem) (List.Subset.refl _) ?_ fun _ h => h)
    intro run' live mem
    cases hlive.symm.trans live
    refine .readable _ rfl ?_
    cases mem with
    | request starting mem => exact .request starting mem
    | steering listening steer unread mem => exact .steering listening _ (mem_append_left _ unread) mem

/-- A prompt is handed over to a chat that does not drop its run with something unread. -/
theorem keeps_handOver (hsafe : self.DropsRun → ¬self.Unread) (prompt : Prompt) :
    self.Keeps (self.handOver prompt) ∧ ∀ send ∈ prompt.sends, (self.handOver prompt).Kept send := by
  unfold handOver
  split
  · rename_i run hrun
    split
    · cases hpend : self.promptAfterStop with
      | none =>
        refine ⟨self.keeps_merge _ ?_, fun send hmem => .afterStop _ rfl hmem⟩
        intro pending hsome
        nomatch hpend.symm.trans hsome
      | some pending =>
        refine ⟨self.keeps_merge _ ?_, fun send hmem => .afterStop _ rfl ?_⟩
        · intro pending' hsome
          cases hpend.symm.trans hsome
          exact subset_append_left _ _
        · exact mem_append_right _ hmem
    · rename_i hinterrupted
      dsimp only
      split
      · rename_i sent hsent
        obtain ⟨rfl, hlis, -⟩ := ActiveRun.eq_of_trySend hsent
        refine ⟨keeps_steer hrun _ _, fun send hmem => .readable _ rfl ?_⟩
        exact .steering hlis _ (mem_append_right _ (.head _)) hmem
      · rename_i hfull
        have hdrop : self.DropsRun := by
          refine .inr ⟨run, hrun, Bool.eq_false_iff.mpr hinterrupted, ?_⟩
          unfold ActiveRun.trySend at hfull
          split at hfull
          · nomatch hfull
          · rename_i hroom
            rw [and_eq_true, decide_eq_true_eq, not_and_or, not_eq_true, Nat.not_lt] at hroom
            exact hroom
        refine ⟨(keeps_dropRun (hsafe hdrop) _).trans (keeps_startRun rfl _), ?_⟩
        exact fun send hmem => kept_startRun hmem
  · rename_i hnone
    exact ⟨keeps_startRun hnone _, fun send hmem => kept_startRun hmem⟩

/-- A prompt is delivered to a chat that does not drop its run with something unread. -/
theorem keeps_deliver (hsafe : self.mustWait prompt = false → self.DropsRun → ¬self.Unread) :
    self.Keeps (self.deliver prompt) ∧ ∀ send ∈ prompt.sends, (self.deliver prompt).Kept send := by
  unfold deliver
  split
  · exact ⟨self.keeps_enqueueFirst _, fun send hmem => .queued _ mem_cons_self hmem⟩
  · rename_i hwait
    have hsafe := hsafe (Bool.eq_false_iff.mpr hwait)
    have hdrop : self.Keeps ({ self with userStopped := false }.dropRestarting) := by
      unfold dropRestarting
      split
      · rename_i hres
        simp only [and_eq_true, not_eq_true'] at hres
        exact (keeps_dropRun (hsafe (.inl hres)) false).trans (keeps_of_holders rfl (.inl rfl) fun _ h => h)
      · exact keeps_of_holders rfl (.inl rfl) fun _ h => h
    have hshow : ∀ session : AgentSession, session.Keeps (session.showUser prompt) := by
      intro session
      exact keeps_of_holders rfl (.inl rfl) (session.transcript.shows_pushUser _)
    have hover : (({ self with userStopped := false }.dropRestarting).showUser prompt).DropsRun →
        ¬(({ self with userStopped := false }.dropRestarting).showUser prompt).Unread := by
      unfold dropRestarting
      split
      · rintro - ⟨run, hlive, -⟩
        nomatch hlive
      · rintro (⟨-, hwork⟩ | hdro) hunr
        · nomatch hwork
        · exact hsafe (.inr hdro) hunr
    obtain ⟨hkeep, hpro⟩ := keeps_handOver hover _
    exact ⟨(hdrop.trans (hshow _)).trans hkeep, hpro⟩

/-- The first of the queue is delivered. -/
theorem keeps_deliver_next {next : QueuedMessage} {rest : AgentSession} (htake : self.takeNextQueued = some (next, rest))
    (hsafe : self.mustWait next.prompt = false → self.DropsRun → ¬self.Unread) :
    self.Keeps (rest.deliver next.prompt) := by
  obtain ⟨found, hfind, heq⟩ := map_eq_some_iff.mp htake
  obtain ⟨rfl, rfl⟩ := Prod.mk.inj heq
  obtain ⟨hkeep, hpro⟩ :=
    @keeps_deliver { self with queue := self.queue.eraseP _ } _ hsafe
  refine keeps_taken hkeep ?_
  intro queued hmem
  rcases eq_or_mem_eraseP hfind hmem with rfl | hrest
  · exact .inr fun send hsend => .inr (hpro send hsend)
  · exact .inl hrest

theorem keeps_sendNextQueued (hsafe : self.working = false → self.hasSendableQueued = true → self.DropsRun → ¬self.Unread) :
    self.Keeps self.sendNextQueued := by
  unfold sendNextQueued
  split
  · exact Keeps.refl _
  · rename_i hidle
    have hwork : self.working = false := (Bool.or_eq_false_iff.mp (Bool.eq_false_iff.mpr hidle)).1
    split
    · rename_i next rest htake
      refine keeps_deliver_next htake fun _ => hsafe hwork ?_
      obtain ⟨found, hfind, -⟩ := map_eq_some_iff.mp htake
      exact any_eq_true.mpr ⟨found, List.mem_of_find?_eq_some hfind, List.find?_some hfind⟩
    · exact Keeps.refl _

/-! ## What the user does -/

theorem closeEdit_eq (self : AgentSession) (id : Nat) : ∃ editing, self.closeEdit id = { self with editingQueued := editing } := by
  unfold closeEdit
  split
  · exact ⟨none, rfl⟩
  · exact ⟨self.editingQueued, rfl⟩

/-- What is taken out of the queue. -/
theorem takeQueued_eq {id : Nat} {rest : AgentSession} (h : self.takeQueued id = some (prompt, rest)) :
    ∃ queued editing, (self.queue.find? fun queued => queued.id == id) = some queued ∧ prompt = queued.prompt ∧
      rest = { self with
        queue := self.queue.eraseP fun queued => queued.id == id
        editingQueued := editing } := by
  obtain ⟨queued, hfind, heq⟩ := map_eq_some_iff.mp h
  obtain ⟨hpro, hrest⟩ := Prod.mk.inj heq
  obtain ⟨editing, hedit⟩ := self.closeEdit_eq id
  rw [hedit] at hrest
  exact ⟨queued, editing, hfind, hpro.symm, hrest.symm⟩

/-- A queued message is taken and delivered. -/
theorem keeps_takeQueued {id : Nat} {queued : QueuedMessage} {editing : Option Nat}
    (hfind : (self.queue.find? fun queued => queued.id == id) = some queued)
    (hkeep : { self with
        queue := self.queue.eraseP fun queued => queued.id == id
        editingQueued := editing }.Keeps after)
    (hpro : ∀ send ∈ queued.prompt.sends, send ∈ after.removed ∨ after.Kept send) : self.Keeps after := by
  refine keeps_taken hkeep ?_
  intro other hmem
  rcases eq_or_mem_eraseP hfind hmem with rfl | hrest
  · exact .inr hpro
  · exact .inl hrest

theorem keeps_steerQueued {id : Nat} (hsafe : ∀ queued, (self.queue.find? fun queued => queued.id == id) = some queued →
      self.mustWait queued.prompt = false → self.DropsRun → ¬self.Unread) : self.Keeps (self.steerQueued id) := by
  unfold steerQueued
  split
  · rename_i prompt rest htake
    obtain ⟨queued, editing, hfind, rfl, rfl⟩ := takeQueued_eq htake
    obtain ⟨hkeep, hpro⟩ := @keeps_deliver { self with queue := self.queue.eraseP _, editingQueued := editing } _ (hsafe _ hfind)
    exact keeps_takeQueued hfind hkeep fun send hsend => .inr (hpro send hsend)
  · exact Keeps.refl _

/-- The run is told to stop, and keeps what it has. -/
theorem keeps_interruptRun (self : AgentSession) : self.Keeps self.interruptRun where
  accepted := rfl
  removed := List.Subset.refl _
  deleted := rfl
  forked h prompt run hpro hlive hstg := by
    obtain ⟨before, hbef, rfl⟩ := map_eq_some_iff.mp hlive
    exact h _ before hpro hbef hstg
  kept send hkept := by
    refine .inr (hkept.imp (fun _ h => h) (fun _ waits mem => .afterStop _ waits mem) (List.Subset.refl _) ?_ fun _ h => h)
    intro run live mem
    refine .readable _ (map_eq_some_iff.mpr ⟨run, live, rfl⟩) ?_
    cases mem with
    | request starting mem => exact .request starting mem
    | steering listening steer unread mem => exact .steering listening _ unread mem

/-- The run that is told to stop is not dropped. -/
theorem not_dropsRun_interruptRun (hwork : self.working = true) : ¬self.interruptRun.DropsRun := by
  rintro (⟨-, hidle⟩ | ⟨run, hlive, hrun, -⟩)
  · exact false_ne_true (hidle.symm.trans hwork)
  · obtain ⟨before, -, rfl⟩ := map_eq_some_iff.mp hlive
    nomatch hrun

theorem keeps_sendQueuedNow {id : Nat} (hsafe : (∃ queued, (self.queue.find? fun queued => queued.id == id) = some queued) →
      self.working = false → self.DropsRun → ¬self.Unread) : self.Keeps (self.sendQueuedNow id) := by
  unfold sendQueuedNow
  split
  · rename_i prompt rest htake
    obtain ⟨queued, editing, hfind, rfl, rfl⟩ := takeQueued_eq htake
    split
    · rename_i hwork
      obtain ⟨hkeep, hpro⟩ :=
        @keeps_deliver _ _ fun _ hdrop => absurd hdrop (not_dropsRun_interruptRun hwork)
      exact keeps_takeQueued hfind ((keeps_interruptRun _).trans hkeep) fun send hsend => .inr (hpro send hsend)
    · rename_i hidle
      obtain ⟨hkeep, hpro⟩ := @keeps_deliver { self with queue := self.queue.eraseP _, editingQueued := editing }
        _ fun _ => hsafe ⟨queued, hfind⟩ (Bool.eq_false_iff.mpr hidle)
      exact keeps_takeQueued hfind hkeep fun send hsend => .inr (hpro send hsend)
  · exact Keeps.refl _

/-- Messages that the user removes are gone. -/
theorem keeps_remove (self : AgentSession) (sends : List Nat) : self.Keeps { self with removed := self.removed ++ sends } where
  accepted := rfl
  removed := subset_append_left _ _
  deleted := rfl
  forked h := h
  kept _ hkept :=
    .inr (hkept.imp (fun _ h => h) (fun _ waits mem => .afterStop _ waits mem) (List.Subset.refl _)
      (fun _ live mem => .readable _ live mem) fun _ h => h)

theorem keeps_removeQueued (self : AgentSession) (id : Nat) : self.Keeps (self.removeQueued id) := by
  unfold removeQueued
  split
  · rename_i prompt rest htake
    obtain ⟨queued, -, hfind, rfl, rfl⟩ := takeQueued_eq htake
    exact keeps_takeQueued hfind (keeps_remove _ _) fun send hsend => .inl (mem_append_right _ hsend)
  · exact Keeps.refl _

theorem keeps_moveQueued (self : AgentSession) (id toIndex : Nat) : self.Keeps (self.moveQueued id toIndex) := by
  unfold moveQueued
  split
  · rename_i queued hfind
    refine keeps_queue _ _ ?_
    intro other hmem
    refine (mem_insertIdx (Nat.min_le_right _ _)).mpr ?_
    exact eq_or_mem_eraseP hfind hmem
  · exact Keeps.refl _

theorem keeps_beginQueuedEdit (self : AgentSession) (id : Nat) : self.Keeps (self.beginQueuedEdit id) := by
  unfold beginQueuedEdit
  split
  · exact keeps_queue _ _ fun _ h => h
  · exact Keeps.refl _

/-- What does not get another prompt stays. -/
theorem eq_or_mem_setPrompt {id : Nat} {queue : List QueuedMessage} {queued other : QueuedMessage}
    (hfind : (queue.find? fun queued => queued.id == id) = some queued) (hmem : other ∈ queue) :
    other = queued ∨ other ∈ setPrompt id prompt queue := by
  induction queue with
  | nil => nomatch hmem
  | cons first rest ih =>
    unfold setPrompt
    split
    · rename_i hid
      rw [List.find?_cons_of_pos (p := fun queued : QueuedMessage => queued.id == id) hid] at hfind
      cases hfind
      exact (mem_cons.mp hmem).imp_right (mem_cons_of_mem _)
    · rename_i hid
      rw [List.find?_cons_of_neg (p := fun queued : QueuedMessage => queued.id == id) hid] at hfind
      rcases mem_cons.mp hmem with h | h
      · exact .inr (mem_cons.mpr (.inl h))
      · exact (ih hfind h).imp_right (mem_cons_of_mem _)

theorem keeps_finishQueuedEdit (self : AgentSession) (id : Nat) (edited : Option Prompt) :
    self.Keeps (self.finishQueuedEdit id edited) := by
  unfold finishQueuedEdit
  obtain ⟨editing, hedit⟩ := self.closeEdit_eq id
  rw [hedit]
  have hclo : self.Keeps { self with editingQueued := editing } := keeps_queue _ _ fun _ h => h
  dsimp only
  split
  · rename_i prompt _
    split
    · rename_i queued hfind
      have hrem := keeps_remove { self with queue := setPrompt id prompt self.queue, editingQueued := editing }
        queued.prompt.sends
      refine keeps_taken hrem ?_
      intro other hmem
      rcases eq_or_mem_setPrompt hfind hmem with rfl | hstay
      · exact .inr fun send hsend => .inl (mem_append_right _ hsend)
      · exact .inl hstay
    · exact hclo.trans (keeps_enqueue _ _)
  · exact hclo

theorem keeps_stop (hsafe : self.promptAfterStop = none) : self.Keeps self.stop := by
  have hstop : ∀ working : Bool,
      self.Keeps { self with promptAfterStop := none, userStopped := true, working := working } := by
    intro working
    refine keeps_of_holders ?_ (.inl rfl) fun _ h => h
    unfold holders
    rw [hsafe]
  unfold stop
  dsimp only
  split
  · exact (hstop _).trans (keeps_interruptRun _)
  · exact hstop _

/-! ## The end of a run -/

/-- What a run that is over leaves: all that it has received. -/
theorem kept_clearRun (h : self.Kept send) : (∃ run, self.run = some run ∧ run.Readable send) ∨ self.clearRun.Kept send := by
  by_cases hread : ∃ run, self.run = some run ∧ run.Readable send
  · exact .inl hread
  · refine .inr (h.imp (fun _ h => h) (fun _ waits mem => .afterStop _ waits mem) (List.Subset.refl _) ?_
      self.transcript.shows_cancelRunningTools)
    intro run live mem
    exact absurd ⟨run, live, mem⟩ hread

theorem not_unread_of_none (h : self.run = none) : ¬self.Unread := by
  rintro ⟨run, hlive, -⟩
  nomatch h.symm.trans hlive

/-- The prompt that has come while the run stopped starts the next. -/
theorem afterRun_pending {pending : Prompt} (hpend : self.promptAfterStop = some pending) (hdel : self.deleted = false) :
    self.afterRun = { self with promptAfterStop := none, working := true }.startRun pending := by
  have hfilt : self.promptAfterStop.filter (fun _ => !self.deleted) = some pending := by
    rw [hpend, hdel]
    rfl
  unfold afterRun
  dsimp only
  rw [hfilt]

/-- What follows a run keeps what is left. -/
theorem keeps_afterRun (hrun : self.run = none) (hdel : self.deleted = false) : self.Keeps self.afterRun := by
  cases hpend : self.promptAfterStop with
  | none =>
    have hidle : self.Keeps { self with promptAfterStop := none, working := false } := by
      refine keeps_of_holders ?_ (.inl rfl) fun _ h => h
      unfold holders
      rw [hpend]
    unfold afterRun
    rw [hpend]
    dsimp only [Option.filter]
    split
    · exact hidle
    · exact hidle.trans (keeps_sendNextQueued fun _ _ _ => not_unread_of_none hrun)
  | some pending =>
    rw [afterRun_pending hpend hdel]
    have hst := @keeps_startRun _ hrun pending
    refine ⟨hst.accepted, hst.removed, hst.deleted, hst.forked, ?_⟩
    intro send hkept
    refine .inr (hkept.imp (fun _ h => h) ?_ (List.Subset.refl _) ?_ fun _ h => h)
    · intro pending' waits mem
      cases hpend.symm.trans waits
      exact kept_startRun mem
    · intro run live
      nomatch hrun.symm.trans live

/-- What follows the end of a run keeps what is left. -/
theorem keeps_clearRun (hdel : self.deleted = false) : self.clearRun.Keeps self.runEnded := by
  unfold runEnded
  dsimp only
  split
  · split
    · rename_i prompt _
      have hret : self.clearRun.Keeps
          { self.clearRun with
            nativeForkFailed := false
            nativeForkPrompt := none
            nativeForkErrors := []
            forkSource := none
            working := true } := keeps_of_holders rfl (.inr rfl) fun _ h => h
      exact hret.trans (keeps_startRun rfl _)
    · have hfor : self.clearRun.Keeps { self.clearRun with nativeForkFailed := false, nativeForkPrompt := none } :=
        keeps_of_holders rfl (.inr rfl) fun _ h => h
      exact hfor.trans (keeps_afterRun rfl hdel)
  · have hsame : self.clearRun.Keeps { self.clearRun with nativeForkFailed := false } :=
      keeps_of_holders rfl (.inl rfl) fun _ h => h
    exact hsame.trans (keeps_afterRun rfl hdel)

/-- A run ends whose messages are kept when it could still read them. -/
theorem keeps_runEnded (hdel : self.deleted = false) (hread : ∀ run send, self.run = some run → run.Readable send →
      send ∈ self.runEnded.removed ∨ self.runEnded.Kept send) : self.Keeps self.runEnded where
  accepted := (keeps_clearRun hdel).accepted
  removed := (keeps_clearRun hdel).removed
  deleted := (keeps_clearRun hdel).deleted
  forked _ := (keeps_clearRun hdel).forked fun _ _ _ hlive => nomatch hlive
  kept send hkept := by
    rcases kept_clearRun hkept with ⟨run, hlive, hrea⟩ | hleft
    · exact hread run send hlive hrea
    · exact (keeps_clearRun hdel).kept send hleft

/-- The run has messages in its steering channel that it can read. -/
def SteeringUnread (self : AgentSession) : Prop := ∃ run, self.run = some run ∧ run.listening = true ∧ run.steering ≠ []

/-- The last entry of the transcript is the prompt that the run was started with. -/
def ShownLast (self : AgentSession) : Prop :=
  ∀ run, self.run = some run → ∃ prompt undelivered,
    self.transcript.entries.getLast? = some (.user prompt undelivered) ∧ run.request.sends ⊆ prompt.sends

/-- What can be read of a run without messages is what it was asked for. -/
theorem readable_request (h : ¬self.SteeringUnread) {run : ActiveRun} (hlive : self.run = some run)
    (hread : run.Readable send) : run.started = false ∧ send ∈ run.request.sends := by
  cases hread with
  | request starting mem => exact ⟨starting, mem⟩
  | steering listening steer unread mem => exact absurd ⟨run, hlive, listening, ne_nil_of_mem unread⟩ h

/-- A run fails that has nothing in its steering channel, and its prompt is tried again or shown as not delivered. -/
theorem keeps_failRun (hdel : self.deleted = false) (hfork : self.Forked) (hste : ¬self.SteeringUnread)
    (hsho : self.nativeForkPending = false → self.ShownLast) (message : String) : self.Keeps (self.failRun message) := by
  unfold failRun
  split
  · rename_i hpend
    have hfail : self.Keeps { self with nativeForkFailed := true } := keeps_of_holders rfl (.inl rfl) fun _ h => h
    refine hfail.trans (keeps_runEnded hdel ?_)
    intro run send hlive hread
    obtain ⟨hstg, hmem⟩ := readable_request hste hlive hread
    obtain ⟨prompt, hpro⟩ := isSome_iff_exists.mp (Bool.and_eq_true_iff.mp hpend).1
    have hsend : send ∈ prompt.sends := hfork _ run hpro hlive hstg hmem
    unfold runEnded clearRun AgentSession.cancelRunningTools
    dsimp only
    rw [hpro, hdel]
    exact .inr (kept_startRun hsend)
  · rename_i hpend
    have hsho := hsho (Bool.eq_false_iff.mpr hpend)
    have hmark : self.Keeps
        ({ self with runFailed := true, transcript := self.transcript.markUndelivered }.pushNotice message true) := by
      refine keeps_of_holders rfl (.inl rfl) ?_
      intro prompt hmem
      exact shows_pushNotice _ _ true _ (self.transcript.shows_markUndelivered _ hmem)
    refine hmark.trans (keeps_runEnded hdel ?_)
    intro run send hlive hread
    obtain ⟨-, hmem⟩ := @readable_request self send hste run hlive hread
    obtain ⟨prompt, undelivered, hlast, hsub⟩ := hsho run hlive
    have hmarkD : ({ self with runFailed := true, transcript := self.transcript.markUndelivered }.pushNotice
        message true).deleted = false := hdel
    refine (keeps_clearRun hmarkD).kept send (.undelivered _ ?_ (hsub hmem))
    exact shows_cancelRunningTools _ _ (shows_pushNotice _ _ true _ (mem_markUndelivered hlast))

/-! ## Events -/

/-- Notices change the transcript only. -/
theorem pushNotices_eq (messages : List String) (self : AgentSession) :
    ∃ transcript, messages.foldl (fun self message => self.pushNotice message true) self =
      { self with transcript := transcript } ∧ self.transcript.Shows transcript := by
  induction messages generalizing self with
  | nil => exact ⟨self.transcript, rfl, fun _ h => h⟩
  | cons message rest ih =>
    obtain ⟨transcript, heq, hshow⟩ := ih _
    refine ⟨transcript, heq, ?_⟩
    intro prompt hmem
    exact hshow _ (shows_pushNotice _ _ true _ hmem)

/-- What an event that names a session changes. -/
theorem noteSessionId_eq (self : AgentSession) (sessionId : Option String) : ∃ native context source prompt errors transcript,
      self.noteSessionId sessionId =
        { self with
          nativeSessionId := native
          forkContext := context
          forkSource := source
          nativeForkPrompt := prompt
          nativeForkErrors := errors
          transcript := transcript } ∧
      (prompt = self.nativeForkPrompt ∨ prompt = none) ∧ self.transcript.Shows transcript := by
  unfold noteSessionId
  split
  · rename_i id _
    unfold setNativeSessionId
    split
    · exact ⟨_, _, _, _, _, _, rfl, .inl rfl, fun _ h => h⟩
    · dsimp only
      split
      · obtain ⟨transcript, heq, hshow⟩ := pushNotices_eq _ _
        exact ⟨some id, none, none, none, [], transcript, heq, .inr rfl, hshow⟩
      · exact ⟨some id, self.forkContext, self.forkSource, self.nativeForkPrompt, self.nativeForkErrors, self.transcript, rfl,
          .inl rfl, fun _ h => h⟩
  · exact ⟨_, _, _, _, _, _, rfl, .inl rfl, fun _ h => h⟩

theorem keeps_noteSessionId (self : AgentSession) (sessionId : Option String) : self.Keeps (self.noteSessionId sessionId) := by
  obtain ⟨native, context, source, prompt, errors, transcript, heq, hfork, hshow⟩ := self.noteSessionId_eq _
  rw [heq]
  exact keeps_of_holders rfl hfork hshow

/-- The first of the queue is delivered by a chat that has the same run. -/
theorem keeps_next (hkeep : self.Keeps after) (hrun : after.run = self.run) (hres : after.restartOnNextSend = self.restartOnNextSend)
    (hsafe : after.working = false → after.hasSendableQueued = true → { self with working := false }.DropsRun →
      ¬self.Unread) : self.Keeps after.sendNextQueued := by
  refine hkeep.trans (keeps_sendNextQueued ?_)
  intro hidle hqueued hdro hunr
  refine hsafe hidle hqueued ?_ ?_
  · rcases hdro with ⟨hdrop, -⟩ | ⟨run, hlive, hfull⟩
    · exact .inl ⟨hres ▸ hdrop, rfl⟩
    · exact .inr ⟨run, hrun ▸ hlive, hfull⟩
  · obtain ⟨run, hlive, hleft⟩ := hunr
    exact ⟨run, hrun ▸ hlive, hleft⟩

/-- A turn is over, and no run is dropped with something unread. -/
theorem keeps_turnDone {status : DoneStatus} (hsafe : status ≠ .interrupted → self.promptAfterStop = none →
      self.hasSendableQueued = true → { self with working := false }.DropsRun → ¬self.Unread)
    (error sessionId : Option String) : self.Keeps (self.turnDone status error sessionId) := by
  obtain ⟨native, context, source, prompt, errors, transcript, heq, hfork, hshow⟩ := self.noteSessionId_eq _
  have hcan : self.transcript.Shows { transcript with textBlockOpen := false }.cancelRunningTools := by
    intro prompt hmem
    exact shows_cancelRunningTools _ _ (hshow _ hmem)
  have hidle : self.promptAfterStop.isSome = false → self.promptAfterStop = none := by
    intro h
    exact not_isSome_iff_eq_none.mp (Bool.eq_false_iff.mp h)
  unfold turnDone
  rw [heq]
  cases status with
  | completed =>
    refine keeps_next (keeps_of_holders rfl hfork hcan) rfl rfl ?_
    intro hwork
    exact hsafe nofun (hidle hwork)
  | interrupted => exact keeps_of_holders rfl hfork hcan
  | errored =>
    refine keeps_next (keeps_of_holders rfl hfork ?_) rfl rfl ?_
    · intro prompt hmem
      exact shows_pushNotice _ _ true _ (hcan _ hmem)
    · intro hwork
      exact hsafe nofun (hidle hwork)

/-- A turn is over that lets the queue go on, and the run is dropped with something unread. -/
def TurnDrops (self : AgentSession) (status : DoneStatus) : Prop :=
  status ≠ .interrupted ∧ ¬(status = .errored ∧ self.nativeForkPending = true) ∧ self.promptAfterStop = none ∧
    self.hasSendableQueued = true ∧ { self with working := false }.DropsRun ∧ self.Unread

theorem keeps_applyEvent {event : AgentEvent}
    (hsafe : ∀ status error sessionId, event = .done status error sessionId → ¬self.TurnDrops status) :
    self.Keeps (self.applyEvent event) := by
  have hsho : ∀ later, self.transcript.Shows later → self.Keeps { self.resumeWorking with transcript := later } := by
    intro later hlat
    exact keeps_of_holders rfl (.inl rfl) hlat
  cases event with
  | sessionStarted sessionId => exact self.keeps_noteSessionId _
  | permissionModeReported mode =>
    unfold applyEvent
    dsimp only
    split
    · exact keeps_of_holders rfl (.inl rfl) (self.transcript.shows_pushNotice _ _)
    · exact Keeps.refl _
  | textDelta text => exact hsho _ (self.transcript.shows_appendText text _)
  | reasoningDelta text => exact hsho _ (self.transcript.shows_appendText text true)
  | assistantMessageCompleted => exact keeps_of_holders rfl (.inl rfl) fun _ h => h
  | steered => exact hsho _ fun _ h => h
  | toolCall id => exact hsho _ (self.transcript.shows_startTool id)
  | toolResult id isError => exact keeps_of_holders rfl (.inl rfl) (self.transcript.shows_finishTool id _)
  | error message =>
    unfold applyEvent
    dsimp only
    split
    · exact keeps_of_holders rfl (.inl rfl) fun _ h => h
    · exact keeps_of_holders rfl (.inl rfl) (self.transcript.shows_pushNotice _ true)
  | done status error sessionId =>
    have hturn := hsafe _ _ _ rfl
    unfold applyEvent
    dsimp only
    split
    · exact keeps_of_holders rfl (.inl rfl) fun _ h => h
    · rename_i hfork
      refine keeps_turnDone ?_ _ _
      intro hstat hstop hqueued hdrop hunr
      refine hturn ⟨hstat, ?_, hstop, hqueued, hdrop, hunr⟩
      simpa using hfork
  | generatedImage path => exact keeps_of_holders rfl (.inl rfl) (self.transcript.shows_push _)
  | compacting active =>
    cases active with
    | true => exact keeps_of_holders rfl (.inl rfl) fun _ h => h
    | false => exact keeps_of_holders rfl (.inl rfl) fun _ h => h
  | compacted manual => exact keeps_of_holders rfl (.inl rfl) (self.transcript.shows_pushNotice _ _)
  | other => exact Keeps.refl _

/-! ## The steps of a run -/

/-- The stream of a run's events is there. -/
theorem keeps_runStarted {run : ActiveRun} (hlive : self.run = some run) : self.Keeps (self.runStarted run) where
  accepted := rfl
  removed := List.Subset.refl _
  deleted := rfl
  forked _ _ _ _ hlive' hstg := by
    cases hlive'
    nomatch hstg
  kept send hkept := by
    refine .inr (hkept.imp (fun _ h => h) (fun _ waits mem => .afterStop _ waits mem) (subset_append_left _ _) ?_ fun _ h => h)
    intro run' live mem
    cases hlive.symm.trans live
    cases mem with
    | request starting mem => exact .received (mem_append_right _ mem)
    | steering listening steer unread mem => exact .readable _ rfl (.steering listening _ unread mem)

theorem keeps_readSteering {run : ActiveRun} {steer : Steer} {rest : List Steer} (hlive : self.run = some run)
    (hunr : run.steering = steer :: rest) : self.Keeps (self.readSteering run steer rest) where
  accepted := rfl
  removed := List.Subset.refl _
  deleted := rfl
  forked h prompt run' hpro hlive' hstg := by
    cases hlive'
    exact h _ run hpro hlive hstg
  kept send hkept := by
    refine .inr (hkept.imp (fun _ h => h) (fun _ waits mem => .afterStop _ waits mem) (subset_append_left _ _) ?_ fun _ h => h)
    intro run' live mem
    cases hlive.symm.trans live
    cases mem with
    | request starting mem => exact .readable _ rfl (.request starting mem)
    | steering listening steer' unread mem =>
      rw [hunr] at unread
      rcases mem_cons.mp unread with rfl | hrest
      · exact .received (mem_append_right _ mem)
      · exact .readable _ rfl (.steering listening _ hrest mem)

theorem keeps_closeSteering {run : ActiveRun} (hlive : self.run = some run) (hsafe : ¬self.SteeringUnread) :
    self.Keeps (self.closeSteering run) where
  accepted := rfl
  removed := List.Subset.refl _
  deleted := rfl
  forked h prompt run' hpro hlive' hstg := by
    cases hlive'
    exact h _ run hpro hlive hstg
  kept send hkept := by
    refine .inr (hkept.imp (fun _ h => h) (fun _ waits mem => .afterStop _ waits mem) (List.Subset.refl _) ?_ fun _ h => h)
    intro run' live mem
    cases hlive.symm.trans live
    obtain ⟨hstg, hmem⟩ := readable_request hsafe hlive mem
    exact .readable _ rfl (.request hstg hmem)

/-- A prompt that was accepted is kept. -/
theorem keeps_sendAccepted {steerWhileWorking : Bool}
    (hsafe : (self.working = true → steerWhileWorking = true) → self.mustWait prompt = false → self.DropsRun → ¬self.Unread) :
    self.Keeps (self.sendAccepted steerWhileWorking prompt) ∧
      ∀ send ∈ prompt.sends, send ∈ (self.sendAccepted steerWhileWorking prompt).removed ∨
        (self.sendAccepted steerWhileWorking prompt).Kept send := by
  have hqueued : ∀ send ∈ prompt.sends, (self.enqueue prompt).Kept send := by
    intro send hsend
    exact .queued _ (mem_append_right _ (.head _)) hsend
  have hdel : (self.working = true → steerWhileWorking = true) →
      self.Keeps (self.deliver prompt) ∧ ∀ send ∈ prompt.sends, send ∈ (self.deliver prompt).removed ∨
        (self.deliver prompt).Kept send := by
    intro hste
    obtain ⟨hkeep, hpro⟩ := keeps_deliver (hsafe hste)
    exact ⟨hkeep, fun send hsend => .inr (hpro send hsend)⟩
  -- a run that is stopping is not dropped while the agent works
  have hnow : ¬(self.working && self.run.isSome && !self.stopping) = true → self.DropsRun → ¬self.Unread := by
    intro hnot hdrop
    cases hwork : self.working with
    | true =>
      rcases hdrop with ⟨-, hidle⟩ | ⟨run, hlive, hrun, -⟩
      · exact absurd (hidle.symm.trans hwork) false_ne_true
      · refine absurd ?_ hnot
        unfold stopping
        rw [hwork, hlive, any_some, hrun]
        rfl
    | false =>
      refine hsafe ?_ ?_ hdrop
      · intro h
        exact absurd (hwork.symm.trans h) false_ne_true
      · unfold mustWait
        rw [hwork, Bool.false_and]
  unfold sendAccepted
  split
  · split
    · rename_i hste
      exact hdel fun _ => hste
    · exact ⟨self.keeps_enqueue _, fun send hsend => .inr (hqueued send hsend)⟩
  · rename_i hnot
    split
    · dsimp only
      split
      · rename_i next rest htake
        have hnext := keeps_deliver_next htake fun _ => hnow hnot
        refine ⟨(self.keeps_enqueue _).trans hnext, ?_⟩
        intro send hsend
        exact hnext.kept send (hqueued send hsend)
      · exact ⟨self.keeps_enqueue _, fun send hsend => .inr (hqueued send hsend)⟩
    · obtain ⟨hkeep, hpro⟩ := @keeps_deliver self _ fun _ => hnow hnot
      exact ⟨hkeep, fun send hsend => .inr (hpro send hsend)⟩

/-- A prompt is accepted, and kept. -/
theorem keeps_accepted {steerWhileWorking : Bool}
    (hsafe : (self.working = true → steerWhileWorking = true) → self.mustWait prompt = false → self.DropsRun → ¬self.Unread) :
    { self with accepted := self.accepted ++ [prompt] }.Keeps
        ({ self with accepted := self.accepted ++ [prompt] }.sendAccepted steerWhileWorking prompt) ∧
      ∀ send ∈ prompt.sends,
        send ∈ ({ self with accepted := self.accepted ++ [prompt] }.sendAccepted steerWhileWorking prompt).removed ∨
          ({ self with accepted := self.accepted ++ [prompt] }.sendAccepted steerWhileWorking prompt).Kept send :=
  keeps_sendAccepted hsafe

/-- A message is sent: it is accepted, unless it is blank, and kept. -/
theorem keeps_sendMessage {steerWhileWorking : Bool}
    (hsafe : prompt.trimmed.isEmpty = false → (self.working = true → steerWhileWorking = true) →
      self.mustWait prompt.trimmed = false → self.DropsRun → ¬self.Unread) :
    ∃ sent, { self with accepted := self.accepted ++ sent }.Keeps (self.sendMessage steerWhileWorking prompt) ∧
      ∀ prompt' ∈ sent, ∀ send ∈ prompt'.sends, send ∈ (self.sendMessage steerWhileWorking prompt).removed ∨
        (self.sendMessage steerWhileWorking prompt).Kept send := by
  by_cases hsend : (prompt.trimmed.isEmpty || self.deleted) = true
  · have hbla : self.sendMessage steerWhileWorking prompt = self := by
      unfold sendMessage
      rw [if_pos hsend]
    refine ⟨[], ?_, nofun⟩
    rw [append_nil, hbla]
    exact Keeps.refl _
  · have hsent : self.sendMessage steerWhileWorking prompt =
        { self with accepted := self.accepted ++ [prompt.trimmed] }.sendAccepted steerWhileWorking prompt.trimmed := by
      unfold sendMessage
      rw [if_neg hsend]
    obtain ⟨hfull, -⟩ := Bool.or_eq_false_iff.mp (Bool.eq_false_iff.mpr hsend)
    obtain ⟨hkeep, hpro⟩ := keeps_accepted (hsafe hfull)
    refine ⟨[prompt.trimmed], ?_, ?_⟩
    · rw [hsent]
      exact hkeep
    · intro prompt' hmem send hsend
      rw [mem_singleton.mp hmem] at hsend
      rw [hsent]
      exact hpro send hsend

/-- A message is lost: a run is dropped or ends that has not read what it can, the user stops the agent while a prompt waits for
the run to stop, or a run fails whose prompt is not the last that was shown. -/
def Loses (self : AgentSession) : Action → Prop
  | .sendMessage steerWhileWorking prompt =>
    prompt.trimmed.isEmpty = false ∧ (self.working = true → steerWhileWorking = true) ∧
      self.mustWait prompt.trimmed = false ∧ self.DropsRun ∧ self.Unread
  | .steerQueued id =>
    ∃ queued, (self.queue.find? fun queued => queued.id == id) = some queued ∧ self.mustWait queued.prompt = false ∧
      self.DropsRun ∧ self.Unread
  | .sendQueuedNow id =>
    (∃ queued, (self.queue.find? fun queued => queued.id == id) = some queued) ∧ self.working = false ∧ self.DropsRun ∧ self.Unread
  | .stop => self.promptAfterStop ≠ none
  | .closeSteering => self.SteeringUnread
  | .event (.done status _ _) => self.TurnDrops status
  | .runFailed _ => self.SteeringUnread ∨ (self.nativeForkPending = false ∧ ¬self.ShownLast)
  | .runEnded => self.Unread
  | _ => False

/-- What holds of a chat in which no message was lost. -/
structure NoneLost (session : AgentSession) : Prop where
  kept : ∀ prompt ∈ session.accepted, ∀ send ∈ prompt.sends, send ∈ session.removed ∨ session.Kept send
  forked : session.Forked
  present : session.deleted = false

namespace NoneLost

theorem of_keeps (h : self.NoneLost) (hkeep : self.Keeps after) : after.NoneLost where
  kept prompt hmem send hsend := by
    rw [hkeep.accepted] at hmem
    rcases h.kept _ hmem send hsend with hrem | hkept
    · exact .inl (hkeep.removed hrem)
    · exact hkeep.kept send hkept
  forked := hkeep.forked h.forked
  present := hkeep.deleted.trans h.present

/-- What a step keeps that loses no message. -/
theorem step (h : self.NoneLost) {action : Action} (hstep : Step self action after) (hsafe : ¬self.Loses action) :
    after.NoneLost := by
  cases hstep with
  | sendMessage steerWhileWorking prompt =>
    obtain ⟨sent, hkeep, hsent⟩ := @keeps_sendMessage self _ _
      fun hfull hste hwait hdrop hunr => hsafe ⟨hfull, hste, hwait, hdrop, hunr⟩
    refine ⟨?_, hkeep.forked h.forked, hkeep.deleted.trans h.present⟩
    intro prompt' hmem send hsend
    rw [hkeep.accepted] at hmem
    rcases mem_append.mp hmem with hbef | hnow
    · rcases h.kept _ hbef send hsend with hrem | hkept
      · exact .inl (hkeep.removed hrem)
      · refine hkeep.kept send (hkept.imp (fun _ h => h) (fun _ waits mem => .afterStop _ waits mem)
          (List.Subset.refl _) (fun _ live mem => .readable _ live mem) fun _ h => h)
    · exact hsent _ hnow send hsend
  | steerQueued id =>
    refine h.of_keeps (keeps_steerQueued ?_)
    intro queued hfind hwait hdrop hunr
    exact hsafe ⟨queued, hfind, hwait, hdrop, hunr⟩
  | sendQueuedNow id =>
    refine h.of_keeps (keeps_sendQueuedNow ?_)
    intro hfind hidle hdrop hunr
    exact hsafe ⟨hfind, hidle, hdrop, hunr⟩
  | removeQueued id => exact h.of_keeps (self.keeps_removeQueued id)
  | moveQueued id toIndex => exact h.of_keeps (self.keeps_moveQueued id _)
  | beginQueuedEdit id => exact h.of_keeps (self.keeps_beginQueuedEdit id)
  | finishQueuedEdit id edited => exact h.of_keeps (self.keeps_finishQueuedEdit id _)
  | stop => exact h.of_keeps (keeps_stop (not_not.mp hsafe))
  | answer id => exact h.of_keeps (keeps_of_holders rfl (.inl rfl) fun _ h => h)
  | runStarted run live starting => exact h.of_keeps (keeps_runStarted live)
  | readSteering run live listening steer rest unread => exact h.of_keeps (keeps_readSteering live unread)
  | closeSteering run live => exact h.of_keeps (keeps_closeSteering live hsafe)
  | event run live started event =>
    refine h.of_keeps (keeps_applyEvent ?_)
    rintro status error sessionId rfl
    exact hsafe
  | streamError run live started message =>
    exact h.of_keeps (keeps_of_holders rfl (.inl rfl) (self.transcript.shows_pushNotice _ true))
  | question run live started questions =>
    unfold pushQuestion
    split
    · exact h
    · exact h.of_keeps (keeps_of_holders rfl (.inl rfl) fun _ h => h)
  | runFailed run live starting message =>
    refine h.of_keeps (keeps_failRun h.present h.forked ?_ ?_ _)
    · intro hunr
      exact hsafe (.inl hunr)
    · intro hpend
      by_contra hsho
      exact hsafe (.inr ⟨hpend, hsho⟩)
  | runEnded run live started =>
    refine h.of_keeps (keeps_runEnded h.present ?_)
    intro run send hlive hread
    exact absurd hread (not_readable hsafe hlive)

end NoneLost

variable {metadata : SessionMetadata} {transcript : Transcript} {saved : List Prompt}

theorem noneLost_run {session : AgentSession}
    (run : Run (fun before action => ¬before.Loses action) (new metadata transcript saved) session) : session.NoneLost := by
  induction run with
  | start => exact ⟨nofun, nofun, rfl⟩
  | @step before after action _ hstep hsafe ih => exact ih.step hstep hsafe

/-- A message that was accepted has been removed by the user, or is kept: it waits in the queue, for the run to stop or to be
tried again, was received by a run or can be read by the one that is live, or is shown as not delivered. So it is in each run of
a chat in which no step loses a message. -/
theorem prompts_kept {session : AgentSession}
    (run : Run (fun before action => ¬before.Loses action) (new metadata transcript saved) session)
    (accepted : prompt ∈ session.accepted) (mem : send ∈ prompt.sends) :
    send ∈ session.removed ∨ session.Kept send ∨ session.AwaitsRetry send := by
  rcases (noneLost_run run).kept prompt accepted send mem with hremoved | hkept
  · exact .inl hremoved
  · exact .inr (.inl hkept)

/-- A message that starts a run. -/
theorem prompts_kept_started :
    0 ∈ (claudeChat.sendMessage true (message "hello" 0)).removed ∨
      (claudeChat.sendMessage true (message "hello" 0)).Kept 0 ∨
      (claudeChat.sendMessage true (message "hello" 0)).AwaitsRetry 0 := by
  have hsafe : ¬claudeChat.Loses (.sendMessage true (message "hello" 0)) := by
    rintro ⟨-, -, -, ⟨hrestart, -⟩ | ⟨run, hlive, -⟩, -⟩
    · nomatch hrestart
    · nomatch hlive
  have haccepted : message "hello" 0 ∈ (claudeChat.sendMessage true (message "hello" 0)).accepted := by decide
  exact prompts_kept (.step .start (.sendMessage true (message "hello" 0)) hsafe) haccepted (by decide)

/-- Messages that are sent one after the other, to be steered. -/
def sendAll (self : AgentSession) (prompts : List Prompt) : AgentSession :=
  prompts.foldl (fun self prompt => self.sendMessage true prompt) self

theorem run_sendAll (prompts : List Prompt) {start : AgentSession} (run : Run (fun _ _ => True) start self) :
    Run (fun _ _ => True) start (self.sendAll prompts) := by
  induction prompts generalizing self with
  | nil => exact run
  | cons prompt rest ih =>
    have hsent := ih (.step run (.sendMessage true prompt) trivial)
    unfold sendAll
    rw [foldl_cons]
    exact hsent

/-- Messages that overflow the steering channel of a run that reads none. -/
def overflow : List Prompt := (List.range (steeringCapacity + 2)).map (message "more")

/-- A run is dropped, with all that it has not read, when its steering channel is full. -/
theorem prompts_lost :
    ¬∀ (metadata : SessionMetadata) (transcript : Transcript) (session : AgentSession) (prompt : Prompt) (send : Nat),
      Run (fun _ _ => True) (new metadata transcript []) session → prompt ∈ session.accepted → send ∈ prompt.sends →
        send ∈ session.removed ∨ session.Kept send ∨ session.AwaitsRetry send := by
  intro h
  have hrun := run_sendAll overflow (.start : Run (fun _ _ => True) claudeChat claudeChat)
  generalize hsession : claudeChat.sendAll overflow = session at hrun
  obtain ⟨haccepted, hqueue, hstop, hreceived, hremoved, hfailed, hentries, hlive⟩ :
      message "more" 1 ∈ session.accepted ∧ session.queue = [] ∧ session.promptAfterStop = none ∧ session.received = [] ∧
        session.removed = [] ∧ session.nativeForkFailed = false ∧
        session.transcript.entries = overflow.map (fun prompt => Entry.user prompt false) ∧
        session.run.map (fun run => (run.request.sends, run.steering.length)) = some ([33], 0) := by
    rw [← hsession]
    decide +kernel
  rcases h _ _ session (message "more" 1) 1 hrun haccepted (by decide) with hgone | hkept | hretry
  · rw [hremoved] at hgone
    nomatch hgone
  · cases hkept with
    | queued queued waits mem =>
      rw [hqueue] at waits
      nomatch waits
    | afterStop pending waits mem => nomatch hstop.symm.trans waits
    | received mem =>
      rw [hreceived] at mem
      nomatch mem
    | readable run live mem =>
      rw [live] at hlive
      obtain ⟨hsends, hlength⟩ := Prod.mk.inj (some.inj hlive)
      cases mem with
      | request starting mem =>
        rw [hsends] at mem
        exact absurd mem (by decide)
      | steering listening steer unread mem =>
        rw [length_eq_zero_iff.mp hlength] at unread
        nomatch unread
    | undelivered prompt shown mem =>
      rw [hentries] at shown
      obtain ⟨prompt', -, heq⟩ := mem_map.mp shown
      nomatch heq
  · nomatch hfailed.symm.trans hretry.1

end AgentSession

end Wu.AgentChat
