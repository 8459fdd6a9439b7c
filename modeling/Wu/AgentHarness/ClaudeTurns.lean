import Wu.AgentHarness.ClaudeSession

/-!
# The turns of Claude Code end

Steers are confirmed once each, in order, and while the loop of a session goes on no end of a turn is emitted while a steer is
pending. What is emitted after the loop is right exactly when it was left by an interrupt, or when no steer was unconfirmed and
there was an end of a turn still to emit, or had been since the last prompt.
-/

namespace Wu.Claude

open List

/-! ### Logs -/

/-- The steers that have been queued. -/
def queuedSteers (log : List Entry) : List String :=
  log.filterMap fun entry =>
    match entry with
    | .queued line => some line.id
    | _ => none

/-- The steers that have been confirmed. -/
def confirmedSteers (log : List Entry) : List String :=
  log.filterMap fun entry =>
    match entry with
    | .steered id _ => some id
    | _ => none

/-- Whether an entry is a line of a prompt that is queued. -/
def Entry.isPrompt : Entry → Bool
  | prompted => true
  | queued _ => true
  | _ => false

def Entry.isInterrupted : Entry → Bool
  | interrupted => true
  | _ => false

/-- Whether an entry is the end of a turn. -/
def Entry.isDone : Entry → Bool
  | emitted event => event.isDone
  | _ => false

/-- The end of a turn has been emitted after the last prompt was queued. -/
def Ended (log : List Entry) : Prop :=
  ∃ before entry after, log = before ++ entry :: after ∧ entry.isDone = true ∧ ∀ later ∈ after, later.isPrompt = false

/-- At each moment the confirmed steers are the first of those that were queued. -/
def InOrder (log : List Entry) : Prop := ∀ before, before <+: log → confirmedSteers before <+: queuedSteers before

/-- Before an interrupt, each end of a turn comes when every steer has been confirmed. -/
def NoneOpen (log : List Entry) : Prop :=
  ∀ before entry, before ++ [entry] <+: log → entry.isDone = true → (∀ earlier ∈ before, earlier.isInterrupted = false) →
    confirmedSteers before = queuedSteers before

theorem queuedSteers_append (log log' : List Entry) :
    queuedSteers (log ++ log') = queuedSteers log ++ queuedSteers log' := filterMap_append

theorem confirmedSteers_append (log log' : List Entry) :
    confirmedSteers (log ++ log') = confirmedSteers log ++ confirmedSteers log' := filterMap_append

variable {log : List Entry} {lib : Libraries} {norm : Normalizer} {imageProblems : List String} {s : Session}

theorem InOrder.push (h : InOrder log) {entry : Entry}
    (hent : confirmedSteers (log ++ [entry]) <+: queuedSteers (log ++ [entry])) : InOrder (log ++ [entry]) := by
  intro before hbef
  rcases prefix_concat_iff.mp hbef with rfl | hbef
  · exact hent
  · exact h _ hbef

theorem NoneOpen.push (h : NoneOpen log) {entry : Entry}
    (hent : entry.isDone = true → (∀ earlier ∈ log, earlier.isInterrupted = false) →
      confirmedSteers log = queuedSteers log) : NoneOpen (log ++ [entry]) := by
  intro before other hbef hdone hinterrupted
  rcases prefix_concat_iff.mp hbef with heq | hbef
  · obtain ⟨rfl, hoth⟩ := append_inj' heq rfl
    obtain rfl : other = entry := singleton_injective hoth
    exact hent hdone hinterrupted
  · exact h _ _ hbef hdone hinterrupted

/-- An end of a turn that comes last is after the last prompt. -/
theorem Ended.of_last (log : List Entry) {entry : Entry} (h : entry.isDone = true) : Ended (log ++ [entry]) :=
  ⟨log, entry, [], rfl, h, fun _ hmem => (nomatch hmem)⟩

theorem Ended.push (h : Ended log) {entry : Entry} (hent : entry.isPrompt = false) : Ended (log ++ [entry]) := by
  obtain ⟨before, done, after, rfl, hdone, haft⟩ := h
  refine ⟨before, done, after ++ [entry], by simp, hdone, fun later hlat => ?_⟩
  rcases mem_append.mp hlat with hlat | hlat
  · exact haft _ hlat
  · rw [mem_singleton.mp hlat]
    exact hent

/-- A prompt that comes last has had no turn end. -/
theorem not_ended_of_prompt (log : List Entry) {entry : Entry} (h : entry.isPrompt = true) : ¬Ended (log ++ [entry]) := by
  rintro ⟨before, done, after, heq, hdone, haft⟩
  rcases eq_nil_or_concat after with rfl | ⟨front, last, rfl⟩
  · obtain ⟨-, hlast⟩ := append_inj' heq rfl
    obtain rfl : entry = done := singleton_injective hlast
    cases entry with
    | emitted event => nomatch h
    | _ => nomatch hdone
  · have hlast : (before ++ done :: front) ++ [last] = log ++ [entry] := by
      rw [heq]
      simp
    obtain ⟨-, hsame⟩ := append_inj' hlast rfl
    obtain rfl : last = entry := singleton_injective hsame
    rw [haft last (by simp)] at h
    nomatch h

theorem queuedSteers_eq_nil (h : ∀ entry ∈ log, entry.isPrompt = false) : queuedSteers log = [] := by
  unfold queuedSteers
  rw [filterMap_eq_nil_iff]
  intro entry hent
  have hpro := h _ hent
  cases entry with
  | queued line => nomatch hpro
  | _ => rfl

/-- Once the turn of the last prompt has ended, every steer has been confirmed. -/
theorem Ended.confirmed (h : Ended log) (hopen : NoneOpen log) (hord : InOrder log)
    (hinterrupted : ∀ entry ∈ log, entry.isInterrupted = false) : confirmedSteers log = queuedSteers log := by
  obtain ⟨before, done, after, rfl, hdone, haft⟩ := h
  have hbef : confirmedSteers before = queuedSteers before := by
    refine hopen _ done ⟨after, by simp⟩ hdone fun earlier hear => ?_
    exact hinterrupted _ (mem_append_left _ hear)
  have hpre := hord _ (prefix_refl _)
  have hnone : queuedSteers (done :: after) = [] := by
    refine queuedSteers_eq_nil fun entry hent => ?_
    rcases mem_cons.mp hent with rfl | hent
    · cases entry with
      | emitted event => rfl
      | _ => nomatch hdone
    · exact haft _ hent
  rw [confirmedSteers_append, queuedSteers_append, hnone, append_nil] at hpre ⊢
  rw [hbef] at hpre ⊢
  have hlen := hpre.length_le
  rw [length_append] at hlen
  rw [eq_nil_of_length_eq_zero (by omega : (confirmedSteers (done :: after)).length = 0), append_nil]

namespace Session

variable (lib : Libraries)

/-! ### What the loop keeps -/

/-- What holds of a session while its loop goes on, but for the order of its steers. -/
structure Sound (s : Session) : Prop where
  inOrder : InOrder s.log
  noneOpen : NoneOpen s.log
  mark : (∃ entry ∈ s.log, entry.isInterrupted = true) ↔ s.interrupted = true
  held : ∀ done, s.heldDone = some done → done.isDone = true
  answered : s.doneAfterInterrupt = true → Ended s.log

/-- What holds of a session while its loop goes on. -/
structure Going (s : Session) : Prop extends Sound s where
  pending : queuedSteers s.log = confirmedSteers s.log ++ s.pendingSteers

/-- The loop has not been left by an interrupt's end of the turn. -/
def Unanswered (s : Session) : Prop := s.doneAfterInterrupt = false

variable {s : Session}

theorem Sound.not_interrupted (h : Sound s) (hno : ∀ entry ∈ s.log, entry.isInterrupted = false) : s.interrupted = false := by
  rw [← Bool.not_eq_true, ← h.mark]
  rintro ⟨entry, hent, hinterrupted⟩
  rw [hno _ hent] at hinterrupted
  nomatch hinterrupted

/-- An entry that is no interrupt leaves the mark of one as it is. -/
theorem mark_push {log : List Entry} {entry : Entry} (h : entry.isInterrupted = false) :
    (∃ other ∈ log ++ [entry], other.isInterrupted = true) ↔ ∃ other ∈ log, other.isInterrupted = true := by
  constructor
  · rintro ⟨other, hoth, hinterrupted⟩
    rcases mem_append.mp hoth with hoth | hoth
    · exact ⟨other, hoth, hinterrupted⟩
    · rw [mem_singleton.mp hoth, h] at hinterrupted
      nomatch hinterrupted
  · rintro ⟨other, hoth, hinterrupted⟩
    exact ⟨other, mem_append_left _ hoth, hinterrupted⟩

/-- Recording what is neither a steer nor an interrupt; an end of a turn only when every steer has been confirmed. -/
theorem Going.plain (h : Going s) {entry : Entry} (hque : queuedSteers [entry] = [])
    (hconf : confirmedSteers [entry] = []) (hinterrupt : entry.isInterrupted = false) (hpro : entry.isPrompt = false)
    (hent : entry.isDone = true → s.interrupted = false → s.pendingSteers = []) : Going (s.record entry) := by
  have hqueued : queuedSteers (s.log ++ [entry]) = queuedSteers s.log := by
    rw [queuedSteers_append, hque, append_nil]
  have hcon : confirmedSteers (s.log ++ [entry]) = confirmedSteers s.log := by
    rw [confirmedSteers_append, hconf, append_nil]
  refine ⟨⟨?_, ?_, (mark_push hinterrupt).trans h.mark, h.held, fun hdone => (h.answered hdone).push hpro⟩, ?_⟩
  · refine h.inOrder.push ?_
    rw [hqueued, hcon]
    exact h.inOrder _ (prefix_refl _)
  · refine h.noneOpen.push fun hdone hno => ?_
    rw [h.pending, hent hdone (h.not_interrupted hno), append_nil]
  · change queuedSteers (s.log ++ _) = confirmedSteers (s.log ++ _) ++ s.pendingSteers
    rw [hqueued, hcon, h.pending]

/-- Passing an event on, when it is no end of a turn or every steer has been confirmed. -/
theorem Going.emit (h : Going s) {event : AgentEvent}
    (heve : event.isDone = true → s.interrupted = false → s.pendingSteers = []) : Going (s.record (.emitted event)) :=
  h.plain rfl rfl rfl rfl heve

/-- Confirming the oldest steer. -/
theorem Going.steered (h : Going s) {id : String} {rest : List String} (hpend : s.pendingSteers = id :: rest)
    (norm : Normalizer) (event : AgentEvent) :
    Going ({ s with norm, pendingSteers := rest }.record (.steered id event)) := by
  have hqueued : queuedSteers (s.log ++ [.steered id event]) = queuedSteers s.log := by
    rw [queuedSteers_append]
    exact append_nil _
  have hcon : confirmedSteers (s.log ++ [.steered id event]) = confirmedSteers s.log ++ [id] :=
    confirmedSteers_append _ _
  have hall : queuedSteers s.log = confirmedSteers s.log ++ [id] ++ rest := by
    rw [h.pending, hpend]
    simp
  refine ⟨⟨?_, h.noneOpen.push fun hdone => (nomatch hdone), (mark_push rfl).trans h.mark, h.held,
    fun hdone => (h.answered hdone).push rfl⟩, ?_⟩
  · refine h.inOrder.push ?_
    rw [hqueued, hcon, hall]
    exact prefix_append _ _
  · change queuedSteers (s.log ++ _) = confirmedSteers (s.log ++ _) ++ rest
    rw [hqueued, hcon, hall]

/-- What neither the log nor the steers of a session see. -/
theorem Going.congr (h : Going s) (s' : Session) (hlog : s'.log = s.log) (hpend : s'.pendingSteers = s.pendingSteers)
    (hinterrupted : s'.interrupted = s.interrupted) (hheld : ∀ done, s'.heldDone = some done → done.isDone = true)
    (hansd : s'.doneAfterInterrupt = true → Ended s.log) : Going s' := by
  refine ⟨⟨?_, ?_, ?_, hheld, ?_⟩, ?_⟩
  · rw [hlog]
    exact h.inOrder
  · rw [hlog]
    exact h.noneOpen
  · rw [hlog, hinterrupted]
    exact h.mark
  · rw [hlog]
    exact hansd
  · rw [hlog, hpend]
    exact h.pending

theorem Going.confirm (h : Going s) (hunanswered : Unanswered s) (count : Nat) :
    Going (s.confirm lib count) ∧ Unanswered (s.confirm lib count) := by
  induction count generalizing s with
  | zero => exact ⟨h, hunanswered⟩
  | succ count ih =>
    unfold Session.confirm
    split
    · exact ⟨h, hunanswered⟩
    · rename_i id rest hpend
      exact ih (h.steered hpend _ _) hunanswered

/-- Confirming as many steers as there are leaves none pending. -/
theorem confirm_all (s : Session) : (s.confirm lib s.pendingSteers.length).pendingSteers = [] := by
  generalize hpend : s.pendingSteers = pending
  induction pending generalizing s with
  | nil => exact hpend
  | cons id rest ih =>
    unfold Session.confirm
    rw [hpend]
    exact ih _ rfl

section

variable (h : Going s) (hunanswered : Unanswered s)
include h hunanswered

theorem Going.onUser (user : MessageFrame) : Going (s.onUser lib user) ∧ Unanswered (s.onUser lib user) := by
  unfold Session.onUser
  split
  · exact h.confirm lib hunanswered _
  · exact ⟨h, hunanswered⟩

/-- An event keeps what holds; the loop is left only with the end of the turn of an interrupt. -/
theorem Going.onEvent (event : AgentEvent) :
    Going (s.onEvent event).1 ∧ ((s.onEvent event).2 = true → Unanswered (s.onEvent event).1) := by
  have hnev : s.doneAfterInterrupt = true → Ended s.log := fun hdone => by
    rw [hunanswered] at hdone
    nomatch hdone
  unfold Session.onEvent
  dsimp only
  split
  · rename_i hdone
    split
    · exact ⟨h.congr _ rfl rfl rfl (fun done heq => Option.some.inj heq ▸ hdone) hnev, fun _ => hunanswered⟩
    · rename_i hrel
      have hpend : s.interrupted = false → s.pendingSteers = [] := by
        intro hinterrupted
        simpa [hinterrupted] using hrel
      have hgoi : Going ({ s with
          openTools := openToolsAfter s.openTools event, heldDone := none, anyDone := true }.record (.emitted event)) :=
        (h.congr { s with openTools := openToolsAfter _ _, heldDone := none, anyDone := true }
          rfl rfl rfl (fun done heq => (nomatch heq)) hnev).emit fun _ => hpend
      split
      · refine ⟨hgoi.congr _ rfl rfl rfl hgoi.held fun _ => ?_, fun hgoes => (nomatch hgoes)⟩
        exact Ended.of_last _ hdone
      · exact ⟨hgoi, fun _ => hunanswered⟩
  · rename_i hdone
    exact ⟨(h.congr { s with openTools := openToolsAfter _ _ } rfl rfl rfl h.held hnev).emit
      fun heve => absurd heve hdone, fun _ => hunanswered⟩

theorem Going.onEvents (events : List AgentEvent) :
    Going (s.onEvents events).1 ∧ ((s.onEvents events).2 = true → Unanswered (s.onEvents events).1) := by
  induction events generalizing s with
  | nil => exact ⟨h, fun _ => hunanswered⟩
  | cons event events ih =>
    obtain ⟨hgoi, hgoes⟩ := h.onEvent hunanswered _
    unfold Session.onEvents
    split
    · rename_i s' heq
      rw [heq] at hgoi hgoes
      exact ih hgoi (hgoes rfl)
    · rename_i s' heq
      rw [heq] at hgoi
      exact ⟨hgoi, fun hfal => (nomatch hfal)⟩

theorem Going.onFrame (frame : Frame) :
    Going (s.onFrame lib frame).1 ∧ ((s.onFrame lib frame).2 = true → Unanswered (s.onFrame lib frame).1) := by
  have heve : ∀ {s : Session}, Going s → Unanswered s → ∀ norm events,
      Going ({ s with norm }.onEvents events).1 ∧
        (({ s with norm }.onEvents events).2 = true → Unanswered ({ s with norm }.onEvents events).1) := by
    intro s h hunanswered norm events
    exact (h.congr { s with norm } rfl rfl rfl h.held h.answered).onEvents hunanswered _
  unfold Session.onFrame
  split
  · exact ⟨h, fun _ => hunanswered⟩
  · rename_i user
    obtain ⟨hgoi, hsti⟩ := h.onUser lib hunanswered user
    exact heve hgoi hsti _ _
  · exact heve h hunanswered _ _

end

/-- The problems of a steer's images are passed on. -/
theorem Going.problems (h : Going s) (problems : List String) :
    Going { s with log := s.log ++ problems.map fun problem => Entry.emitted (.error problem) } := by
  induction problems generalizing s with
  | nil => exact h.congr _ (append_nil _) rfl rfl h.held h.answered
  | cons problem problems ih =>
    have hfst : Going (s.record (.emitted (.error problem))) := h.emit fun hdone => (nomatch hdone)
    have hrest := ih hfst
    refine hrest.congr _ ?_ rfl rfl hrest.held hrest.answered
    change s.log ++ _ :: _ = (s.log ++ [_]) ++ _
    rw [append_assoc]
    rfl

/-- Queueing a steer. -/
theorem Going.queued (h : Going s) (hunanswered : Unanswered s) (line : SteerLine) :
    Going ({ s with pendingSteers := s.pendingSteers ++ [line.id] }.record (.queued line)) := by
  have hqueued : queuedSteers (s.log ++ [.queued line]) = queuedSteers s.log ++ [line.id] := queuedSteers_append _ _
  have hcon : confirmedSteers (s.log ++ [.queued line]) = confirmedSteers s.log := by
    rw [confirmedSteers_append]
    exact append_nil _
  refine ⟨⟨?_, h.noneOpen.push fun hdone => (nomatch hdone), (mark_push rfl).trans h.mark, h.held, fun hdone => ?_⟩, ?_⟩
  · refine h.inOrder.push ?_
    rw [hqueued, hcon]
    exact (h.inOrder _ (prefix_refl _)).trans (prefix_append _ _)
  · have hnot : s.doneAfterInterrupt = false := hunanswered
    rw [show s.doneAfterInterrupt = true from hdone] at hnot
    nomatch hnot
  · change queuedSteers (s.log ++ _) = confirmedSteers (s.log ++ _) ++ (s.pendingSteers ++ [line.id])
    rw [hqueued, hcon, h.pending, append_assoc]

theorem Going.interrupt (h : Going s) (hunanswered : Unanswered s) :
    Going ({ s with interruptSent := true, interrupted := true }.record .interrupted) := by
  have hqueued : queuedSteers (s.log ++ [.interrupted]) = queuedSteers s.log := by
    rw [queuedSteers_append]
    exact append_nil _
  have hcon : confirmedSteers (s.log ++ [.interrupted]) = confirmedSteers s.log := by
    rw [confirmedSteers_append]
    exact append_nil _
  refine ⟨⟨?_, h.noneOpen.push fun hdone => (nomatch hdone), ?_, h.held, fun hdone => ?_⟩, ?_⟩
  · refine h.inOrder.push ?_
    rw [hqueued, hcon]
    exact h.inOrder _ (prefix_refl _)
  · exact ⟨fun _ => rfl, fun _ => ⟨.interrupted, mem_append_right _ (.head _), rfl⟩⟩
  · have hnot : s.doneAfterInterrupt = false := hunanswered
    rw [show s.doneAfterInterrupt = true from hdone] at hnot
    nomatch hnot
  · change queuedSteers (s.log ++ _) = confirmedSteers (s.log ++ _) ++ s.pendingSteers
    rw [hqueued, hcon, h.pending]

/-- Taking an arrival keeps what holds; when the loop is left, its steers may be out of step with what was queued. -/
theorem Going.take (h : Going s) (hunanswered : Unanswered s) (arrival : Arrival) : Sound (s.take lib arrival).1 ∧
      ((s.take lib arrival).2 = true → Going (s.take lib arrival).1 ∧ Unanswered (s.take lib arrival).1) := by
  cases arrival with
  | line line =>
    cases line with
    | frame frame =>
      obtain ⟨hgoi, hgoes⟩ := h.onFrame lib hunanswered _
      exact ⟨hgoi.toSound, fun htrue => ⟨hgoi, hgoes htrue⟩⟩
    | blank => exact ⟨h.toSound, fun _ => ⟨h, hunanswered⟩⟩
    | unparseable => exact ⟨h.toSound, fun _ => ⟨h, hunanswered⟩⟩
  | eof => exact ⟨h.toSound, fun hgoes => (nomatch hgoes)⟩
  | failure =>
    have hgoi : Going (s.record .failed) := h.plain rfl rfl rfl rfl fun hdone => (nomatch hdone)
    exact ⟨hgoi.toSound, fun hgoes => (nomatch hgoes)⟩
  | steer message id imageProblems sent =>
    have hpro := h.problems imageProblems
    cases sent with
    | true =>
      have hgoi := hpro.queued hunanswered
        { id, prompt := message.prompt, immediate := s.openTools.isEmpty }
      exact ⟨hgoi.toSound, fun _ => ⟨hgoi, hunanswered⟩⟩
    | false =>
      exact ⟨⟨hpro.inOrder, hpro.noneOpen, hpro.mark, hpro.held, hpro.answered⟩, fun hgoes => (nomatch hgoes)⟩
  | steeringClosed =>
    have hgoi : Going { s with steeringOpen := false } := h.congr _ rfl rfl rfl h.held h.answered
    exact ⟨hgoi.toSound, fun _ => ⟨hgoi, hunanswered⟩⟩
  | interrupt =>
    have hgoi := h.interrupt hunanswered
    exact ⟨hgoi.toSound, fun _ => ⟨hgoi, hunanswered⟩⟩
  | heldTimeout =>
    obtain ⟨hgoi, hsti⟩ := h.confirm lib hunanswered _
    have hnone := confirm_all lib s
    unfold Session.take
    dsimp only
    split
    · rename_i done hdone
      have hrel : Going ({ s.confirm lib s.pendingSteers.length with
          heldDone := none, anyDone := true }.record (.emitted done)) :=
        (hgoi.congr { s.confirm lib _ with heldDone := none, anyDone := true }
          rfl rfl rfl (fun done heq => (nomatch heq)) hgoi.answered).emit fun _ _ => hnone
      exact ⟨hrel.toSound, fun _ => ⟨hrel, hsti⟩⟩
    · exact ⟨hgoi.toSound, fun _ => ⟨hgoi, hsti⟩⟩

theorem start_going (norm : Normalizer) (imageProblems : List String) :
    Going (start norm imageProblems) ∧ Unanswered (start norm imageProblems) := by
  refine ⟨?_, rfl⟩
  have hfst : Going { start norm [] with log := [.prompted] } := by
    refine ⟨⟨?_, ?_, ⟨?_, fun h => (nomatch h)⟩, fun done h => (nomatch h), fun h => (nomatch h)⟩, rfl⟩
    · have hnil : InOrder [] := by
        intro before hbef
        rw [prefix_nil.mp hbef]
        exact prefix_refl _
      exact hnil.push (prefix_refl _)
    · have hnil : NoneOpen [] := fun before entry hbef => absurd (prefix_nil.mp hbef) (by simp)
      exact hnil.push fun hdone => (nomatch hdone)
    · rintro ⟨entry, hent, hinterrupted⟩
      rw [mem_singleton.mp hent] at hinterrupted
      nomatch hinterrupted
  exact hfst.problems _

end Session

/-! ### Runs -/

/-- The sessions whose loop goes on. -/
inductive Running (lib : Libraries) (norm : Normalizer) (imageProblems : List String) : Session → Prop
  | start : Running lib norm imageProblems (Session.start norm imageProblems)
  | take {s : Session} (arrival : Arrival) : Running lib norm imageProblems s → s.awaits arrival = true →
    (s.take lib arrival).2 = true → Running lib norm imageProblems (s.take lib arrival).1

/-- The sessions whose loop has been left. -/
def Left (lib : Libraries) (norm : Normalizer) (imageProblems : List String) (s : Session) : Prop :=
  ∃ before arrival, Running lib norm imageProblems before ∧ before.awaits arrival = true ∧ before.take lib arrival = (s, false)

theorem Running.going (h : Running lib norm imageProblems s) : s.Going ∧ s.Unanswered := by
  induction h with
  | start => exact Session.start_going norm _
  | take _ _ _ hgoes ih => exact (ih.1.take lib ih.2 _).2 hgoes

theorem Left.sound (h : Left lib norm imageProblems s) : s.Sound := by
  obtain ⟨before, arrival, hrun, -, heq⟩ := h
  obtain ⟨hgoi, hsti⟩ := hrun.going
  have hsou := (hgoi.take lib hsti arrival).1
  rw [heq] at hsou
  exact hsou

/-- A log in which no turn ends silently. -/
structure Faithful (log : List Entry) : Prop where
  ended : Ended log
  inOrder : InOrder log
  noneOpen : NoneOpen log

/-- The state in which the loop is left well: by an interrupt, or with every steer confirmed, and either an end of a turn still to
emit or one emitted after the last prompt. -/
def Session.LeftWell (s : Session) : Prop :=
  s.interrupted = true ∨ (confirmedSteers s.log = queuedSteers s.log ∧ (s.heldDone.isSome = true ∨ s.anyDone = false ∨ Ended s.log))

/-- An end of a turn that is emitted after an interrupt, or when every steer has been confirmed. -/
theorem push_done (hord : InOrder log) (hopen : NoneOpen log) (event : AgentEvent)
    (heve : (∀ entry ∈ log, entry.isInterrupted = false) → confirmedSteers log = queuedSteers log) :
    InOrder (log ++ [.emitted event]) ∧ NoneOpen (log ++ [.emitted event]) := by
  refine ⟨hord.push ?_, hopen.push fun _ => heve⟩
  rw [confirmedSteers_append, queuedSteers_append]
  exact (append_nil _).symm ▸ (append_nil _).symm ▸ hord _ (prefix_refl _)

namespace Session

variable {s : Session}

theorem Sound.no_mark (h : Sound s) (hinterrupted : s.interrupted = false) : ∀ entry ∈ s.log, entry.isInterrupted = false := by
  intro entry hent
  rw [← Bool.not_eq_true]
  intro hmark
  rw [h.mark.mp ⟨entry, hent, hmark⟩] at hinterrupted
  nomatch hinterrupted

/-- Without an interrupt, what is emitted last is right exactly when every steer has been confirmed. -/
theorem Sound.faithful_last (h : Sound s) (hinterrupted : s.interrupted = false) {event : AgentEvent} (heve : event.isDone = true) :
    Faithful (s.log ++ [.emitted event]) ↔ confirmedSteers s.log = queuedSteers s.log := by
  constructor
  · intro hfai
    exact hfai.noneOpen _ _ (prefix_refl _) heve (h.no_mark hinterrupted)
  · intro hcon
    obtain ⟨hord, hopen⟩ := push_done h.inOrder h.noneOpen _ fun _ => hcon
    exact ⟨Ended.of_last _ heve, hord, hopen⟩

/-- After an interrupt, the end of the turn is emitted. -/
theorem Sound.faithful_interrupted (h : Sound s) (hinterrupted : s.interrupted = true) (crash : String) :
    Faithful (s.finish crash).log := by
  obtain ⟨mark, hmark, hmar⟩ := h.mark.mpr hinterrupted
  -- What is emitted after the mark of the interrupt may come at any time.
  have haft : ∀ {log : List Entry}, InOrder log ∧ NoneOpen log → mark ∈ log → ∀ event,
      InOrder (log ++ [.emitted event]) ∧ NoneOpen (log ++ [.emitted event]) := by
    intro log hlog hmem event
    refine push_done hlog.1 hlog.2 _ fun hno => ?_
    rw [hno mark hmem] at hmar
    nomatch hmar
  have hrel : ∃ s', s.release = s' ∧ (InOrder s'.log ∧ NoneOpen s'.log) ∧ mark ∈ s'.log ∧ s'.interrupted = true ∧
      (s'.doneAfterInterrupt = true → Ended s'.log) := by
    unfold release
    split
    · rename_i done hdone
      refine ⟨_, rfl, haft ⟨h.inOrder, h.noneOpen⟩ hmark done, mem_append_left _ hmark, hinterrupted, fun _ => ?_⟩
      exact Ended.of_last _ (h.held done hdone)
    · exact ⟨_, rfl, ⟨h.inOrder, h.noneOpen⟩, hmark, hinterrupted, h.answered⟩
  obtain ⟨s', heq, hlog, hmem, hsti, hansd⟩ := hrel
  unfold finish
  dsimp only
  rw [heq, hsti]
  cases hdone : s'.doneAfterInterrupt with
  | true => exact ⟨hansd hdone, hlog.1, hlog.2⟩
  | false =>
    obtain ⟨hord, hopen⟩ := haft hlog hmem _
    exact ⟨Ended.of_last _ rfl, hord, hopen⟩

end Session

/-- When a run returns, a turn has ended after the last prompt, steers have been confirmed once and in order, and no turn has
ended outside an interrupt while a steer was unconfirmed, exactly when the loop was left well. -/
theorem turns_end_iff {lib : Libraries} {norm : Normalizer} {imageProblems : List String} {s : Session}
    (h : Left lib norm imageProblems s) (crash : String) : Faithful (s.finish crash).log ↔ s.LeftWell := by
  have hs := h.sound
  cases hinterrupted : s.interrupted with
  | true => exact ⟨fun _ => .inl hinterrupted, fun _ => hs.faithful_interrupted hinterrupted crash⟩
  | false =>
    have hno : ¬s.interrupted = true := by simp [hinterrupted]
    unfold Session.LeftWell
    rw [or_iff_right hno]
    cases hheld : s.heldDone with
    | some done =>
      have hlog : (s.finish crash).log = s.log ++ [.emitted done] := by
        simp [Session.finish, Session.release, hheld, Session.record, hinterrupted]
      rw [hlog, hs.faithful_last hinterrupted (hs.held done hheld)]
      simp
    | none =>
      cases hany : s.anyDone with
      | false =>
        have hlog : (s.finish crash).log = s.log ++ [.emitted (.done .errored none (some crash) s.norm.sessionId)] := by
          simp [Session.finish, Session.release, hheld, Session.record, hinterrupted, hany]
        rw [hlog, hs.faithful_last hinterrupted rfl]
        simp
      | true =>
        have hlog : (s.finish crash).log = s.log := by
          simp [Session.finish, Session.release, hheld, hinterrupted, hany]
        rw [hlog]
        constructor
        · intro hfaithful
          exact ⟨hfaithful.ended.confirmed hs.noneOpen hs.inOrder (hs.no_mark hinterrupted), .inr (.inr hfaithful.ended)⟩
        · rintro ⟨-, hheld | hany' | hended⟩
          · nomatch hheld
          · nomatch hany'
          · exact ⟨hended, hs.inOrder, hs.noneOpen⟩

/-! ### Two runs -/

def demoLibraries : Libraries where
  serde := { parse := fun _ => none, print := fun _ => "" }
  messageId n := toString n

def demoResult : Arrival := .line (.frame (.result { subtype := "success", sessionId := some "s1" }))

def demoSteer : Arrival := .steer { prompt := "redirect please", messageId := none, attachments := [], skills := [] } "u1" [] true

/-- The session after some arrivals. -/
def demoSession (arrivals : List Arrival) : Session :=
  arrivals.foldl (fun s arrival => (s.take demoLibraries arrival).1) (Session.start {} [])

/-- A steer is replayed, its turn ends, and then the process. -/
theorem turns_end_replayed :
    Faithful ((demoSession [demoSteer, .line (.frame (.user { uuid := some "u1" })), demoResult, .eof]).finish "gone").log := by
  have hsteered : Running demoLibraries {} [] (demoSession [demoSteer]) := .take demoSteer .start rfl rfl
  have hreplayed : Running demoLibraries {} [] (demoSession [demoSteer, .line (.frame (.user { uuid := some "u1" }))]) :=
    .take (.line (.frame (.user { uuid := some "u1" }))) hsteered rfl rfl
  have hended : Running demoLibraries {} []
      (demoSession [demoSteer, .line (.frame (.user { uuid := some "u1" })), demoResult]) :=
    .take demoResult hreplayed rfl rfl
  have hlast : Ended (demoSession [demoSteer, .line (.frame (.user { uuid := some "u1" })), demoResult, .eof]).log :=
    Ended.of_last (demoSession [demoSteer, .line (.frame (.user { uuid := some "u1" })), demoResult, .eof]).log.dropLast rfl
  exact (turns_end_iff ⟨_, .eof, hended, rfl, rfl⟩ "gone").mpr (.inr ⟨rfl, .inr (.inr hlast)⟩)

/-- The first turn ends, a message steers, and the process ends: the run returns without an end of the second turn. -/
theorem turn_ends_silently :
    Left demoLibraries {} [] (demoSession [demoResult, demoSteer, .eof]) ∧
      ¬Ended ((demoSession [demoResult, demoSteer, .eof]).finish "gone").log := by
  have hended : Running demoLibraries {} [] (demoSession [demoResult]) := .take demoResult .start rfl rfl
  have hsteered : Running demoLibraries {} [] (demoSession [demoResult, demoSteer]) := .take demoSteer hended rfl rfl
  refine ⟨⟨_, .eof, hsteered, rfl, rfl⟩, ?_⟩
  have hprompt : (Entry.queued { id := "u1", prompt := "redirect please", immediate := true }).isPrompt = true := rfl
  exact not_ended_of_prompt (demoSession [demoResult]).log hprompt

end Wu.Claude
