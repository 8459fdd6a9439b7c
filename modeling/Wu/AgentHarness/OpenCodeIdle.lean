import Mathlib.Data.List.Infix
import Wu.AgentHarness.OpenCodeTurn

/-!
# Idles settle their own turns

A run beside a server that starts a posted prompt at some later time, reports what the prompt that is running does, and reports
each completion in one or both encodings, arbitrarily late. A turn settles after the server is done with its prompt, or after it
was aborted, as long as the server has started the prompt whenever it answers that the session is not running, and of the idles
that confirm the end of a turn one is the turn's own.
-/

namespace Wu.OpenCode

open List

/-! ### What a run settles -/

/-- The log says that a turn is settled. -/
def Settled (log : List Note) (generation : Nat) : Prop := Note.settled generation ∈ log

/-- The log says that a prompt was posted for a turn. -/
def Posted (log : List Note) (generation : Nat) : Prop := ∃ prompt attachments, Note.posted generation prompt attachments ∈ log

/-- Whether a note is a prompt that is posted, or a turn that has completed. -/
def Note.goesOn : Note → Bool
  | posted .. => true
  | done .completed _ => true
  | _ => false

/-- A prompt is posted, and a turn completes, only when every turn before has been settled. -/
def Orderly (log : List Note) : Prop :=
  ∀ before note, before ++ [note] <+: log → note.goesOn = true → ∀ generation, Posted before generation → Settled before generation

variable {log notes : List Note} {generation : Nat}

theorem Posted.append : Posted (log ++ notes) generation ↔ Posted log generation ∨ Posted notes generation := by
  constructor
  · rintro ⟨prompt, attachments, hmem⟩
    rcases mem_append.mp hmem with hmem | hmem
    · exact .inl ⟨prompt, attachments, hmem⟩
    · exact .inr ⟨prompt, attachments, hmem⟩
  · rintro (⟨prompt, attachments, hmem⟩ | ⟨prompt, attachments, hmem⟩)
    · exact ⟨prompt, attachments, mem_append_left _ hmem⟩
    · exact ⟨prompt, attachments, mem_append_right _ hmem⟩

theorem Orderly.push (h : Orderly log) {note : Note}
    (hnote : note.goesOn = true → ∀ generation, Posted log generation → Settled log generation) : Orderly (log ++ [note]) := by
  intro before other hbef hgoes generation hpost
  rcases prefix_concat_iff.mp hbef with heq | hbef
  · obtain ⟨rfl, hoth⟩ := append_inj' heq rfl
    obtain rfl : other = note := singleton_injective hoth
    exact hnote hgoes _ hpost
  · exact h _ _ hbef hgoes _ hpost

/-- Notes of which none goes on. -/
theorem Orderly.quiet (h : Orderly log) (hnote : ∀ note ∈ notes, note.goesOn = false) : Orderly (log ++ notes) := by
  induction notes generalizing log with
  | nil =>
    rw [append_nil]
    exact h
  | cons note notes ih =>
    rw [append_cons]
    refine ih (h.push fun hgoes => ?_) fun other hoth => hnote _ (.tail _ hoth)
    rw [hnote note (mem_cons_self ..)] at hgoes
    nomatch hgoes

/-- Only what is a prompt is posted. -/
theorem posted_of_goesOn (h : Posted notes generation) : ∃ note ∈ notes, note.goesOn = true := by
  obtain ⟨prompt, attachments, hmem⟩ := h
  exact ⟨_, hmem, rfl⟩

namespace Run

/-- The notes of a run go together with its turn: what was posted is settled, but for the turn that is active. -/
structure Tidy (run : Run) : Prop where
  orderly : Orderly run.log
  posted : ∀ generation, Posted run.log generation → Settled run.log generation ∨
    (run.turn.active = true ∧ generation = run.generation)

variable {notes : List Note} {generation now : Nat} {postError : Option String} {running : Option Bool} {event : BusEvent}

/-- Notes that neither post nor complete. -/
theorem Tidy.quiet {run : Run} (h : Tidy run) (hnote : ∀ note ∈ notes, note.goesOn = false) : Tidy (run.note notes) := by
  refine ⟨h.orderly.quiet hnote, fun generation hpost => ?_⟩
  rcases Posted.append.mp hpost with hpost | hpost
  · rcases h.posted _ hpost with hsett | hact
    · exact .inl (mem_append_left _ hsett)
    · exact .inr hact
  · obtain ⟨note, hmem, hgoes⟩ := posted_of_goesOn hpost
    rw [hnote note hmem] at hgoes
    nomatch hgoes

/-- What of a run the notes do not see. -/
theorem Tidy.congr {run : Run} (h : Tidy run) (run' : Run) (hlog : run'.log = run.log)
    (hact : run'.turn.active = run.turn.active) (hgen : run'.generation = run.generation) : Tidy run' := by
  refine ⟨?_, ?_⟩
  · rw [hlog]
    exact h.orderly
  · rw [hlog, hact, hgen]
    exact h.posted

/-- Without an active turn, every turn has been settled. -/
theorem Tidy.all_settled {run : Run} (h : Tidy run) (hina : run.turn.active = false) (generation : Nat)
    (hpost : Posted run.log generation) : Settled run.log generation := by
  rcases h.posted _ hpost with hsett | ⟨hact, -⟩
  · exact hsett
  · rw [hina] at hact
    nomatch hact

theorem Tidy.of_settled {run : Run} (hord : Orderly run.log)
    (hall : ∀ generation, Posted run.log generation → Settled run.log generation) : Tidy run :=
  ⟨hord, fun generation hpost => .inl (hall generation hpost)⟩

theorem quiet_singleton (note : Note) (h : note.goesOn = false) : ∀ other ∈ [note], other.goesOn = false := by
  intro other hmem
  rw [mem_singleton.mp hmem]
  exact h

section

variable {run : Run} (h : Tidy run)
include h

/-- The end of a turn that is reported when no turn is active. -/
theorem Tidy.done (hina : run.turn.active = false) (status : DoneStatus)
    (error : Option String) : Tidy (run.note [.messageCompleted, .done status error]) := by
  have hfst : Tidy (run.note [.messageCompleted]) := h.quiet (quiet_singleton _ rfl)
  have hall := hfst.all_settled hina
  have hlog : (run.note [.messageCompleted, .done status error]).log =
      (run.note [.messageCompleted]).log ++ [.done status error] := by
    simp [note]
  refine Tidy.of_settled ?_ fun generation hpost => ?_
  · rw [hlog]
    exact hfst.orderly.push fun _ => hall
  · rw [hlog] at hpost ⊢
    rcases Posted.append.mp hpost with hpost | ⟨prompt, attachments, hmem⟩
    · exact mem_append_left _ (hall _ hpost)
    · nomatch mem_singleton.mp hmem

theorem Tidy.complete (hina : run.turn.active = false) : Tidy run.complete := by
  unfold Run.complete
  dsimp only
  split
  · exact (h.done hina _ _).congr _ rfl rfl rfl
  · split
    · exact (h.done hina _ none).congr _ rfl rfl rfl
    · exact h.done hina _ none

/-- Posting a prompt when no turn is active. -/
theorem Tidy.beginTurn (hina : run.turn.active = false) (prompt : String)
    (attachments : List String) (steers : Nat) : Tidy (run.beginTurn prompt attachments steers).1 := by
  have hall := h.all_settled hina
  have hste : ∀ note ∈ replicate steers Note.steered, note.goesOn = false := by
    intro note hmem
    rw [eq_of_mem_replicate hmem]
    rfl
  have hpos : Orderly (run.log ++ [.posted (run.generation + 1) prompt attachments]) := h.orderly.push fun _ => hall
  refine ⟨?_, fun generation hpost => ?_⟩
  · change Orderly (run.log ++ _ :: _)
    rw [append_cons]
    exact hpos.quiet hste
  · rcases Posted.append.mp hpost with hpost | ⟨prompt', attachments', hmem⟩
    · exact .inl (mem_append_left _ (hall _ hpost))
    · rcases mem_cons.mp hmem with heq | hmem
      · exact .inr ⟨rfl, (Note.posted.inj heq).1⟩
      · nomatch eq_of_mem_replicate hmem

/-- The turn that is active is settled. -/
theorem Tidy.closeTurn : Tidy run.closeTurn := by
  refine Tidy.of_settled (h.orderly.quiet (quiet_singleton _ rfl)) fun generation hpost => ?_
  rcases Posted.append.mp hpost with hpost | ⟨prompt, attachments, hmem⟩
  · rcases h.posted _ hpost with hsett | ⟨-, rfl⟩
    · exact mem_append_left _ hsett
    · exact mem_append_right _ (.head _)
  · nomatch mem_singleton.mp hmem

/-- The error of a prompt that cannot be posted, when no turn is active. -/
theorem Tidy.failPost (hina : run.turn.active = false) (error : String) : Tidy (run.failPost error) := by
  unfold Run.failPost
  refine Tidy.complete (Tidy.quiet (Tidy.of_settled ?_ ?_) (quiet_singleton _ rfl)) hina
  · exact h.orderly
  · exact h.all_settled hina

theorem Tidy.settleIdle (postError : Option String) : Tidy (run.settleIdle postError).1 := by
  have hclsd := h.closeTurn
  unfold Run.settleIdle
  split
  · exact h
  · dsimp only
    split
    · exact Tidy.congr (hclsd.quiet (quiet_singleton _ rfl)) _ rfl rfl rfl
    · split
      · exact hclsd.complete rfl
      · rename_i first rest hqueued
        have hrest : Tidy { run.closeTurn with queuedSteers := rest.drop ((batchOf first rest).length - 1) } :=
          hclsd.congr _ rfl rfl rfl
        split
        · exact hrest.beginTurn rfl _ _ _
        · exact hrest.failPost rfl _

theorem Tidy.maybePreempt : Tidy run.maybePreempt.1 := by
  unfold Run.maybePreempt
  split
  · exact h.congr _ rfl rfl rfl
  · exact h

theorem Tidy.onSteer (message : SteerMessage) (postError : Option String) : Tidy (run.onSteer message postError).1 := by
  unfold Run.onSteer
  dsimp only
  split
  · refine Tidy.maybePreempt (Tidy.congr h _ ?_ ?_ ?_) <;> rfl
  · rename_i hina
    rw [Bool.not_eq_true] at hina
    split
    · exact h.beginTurn hina _ _ _
    · rename_i error
      have hqui : Tidy (run.note [.error error, .done .errored (some error)]) := by
        refine h.quiet fun note hmem => ?_
        rcases mem_cons.mp hmem with rfl | hmem
        · rfl
        · rw [mem_singleton.mp hmem]
          rfl
      exact Tidy.of_settled hqui.orderly (hqui.all_settled hina)

theorem Tidy.onPoll (running : Option Bool) (now : Nat) (postError : Option String) : Tidy (run.onPoll running now postError).1 := by
  unfold Run.onPoll
  split
  · exact h.settleIdle _
  · exact h.congr _ rfl rfl rfl

theorem Tidy.onConnected (running : Option Bool) (postError : Option String) : Tidy (run.onConnected running postError).1 := by
  unfold Run.onConnected
  split
  · exact h.settleIdle _
  · exact h

end

theorem onRetry_active (turn : TurnState) (attempt : Nat) (message : String) :
    (turn.onRetry attempt message).1.active = turn.active := by
  unfold TurnState.onRetry
  dsimp only
  split
  · rfl
  · split <;> rfl

/-- An event of the bus does not make the turn inactive. -/
theorem handleBusEvent_active (turn : TurnState) (event : BusEvent) (now : Nat) :
    (turn.handleBusEvent event now).1.active = turn.active := by
  have hown : turn.noteOwn.active = turn.active := by
    unfold TurnState.noteOwn
    split <;> rfl
  have hboth : ∀ own : Bool, (if own then turn.noteOwn else turn).active = turn.active := by
    intro own
    cases own
    · rfl
    · exact hown
  unfold TurnState.handleBusEvent
  cases event with
  | interrupted => rfl
  | idle encoding =>
    unfold TurnState.onIdle
    dsimp only
    split <;> split <;> rfl
  | busy => exact hboth true
  | retry attempt message => exact (onRetry_active _ _ _).trans (hboth true)
  | error own name message =>
    dsimp only
    split
    · exact hboth own
    · exact hboth own
  | content content => exact hboth true
  | other own => exact hboth own

theorem Tidy.onEvent {run : Run} (h : Tidy run) (event : BusEvent) (now : Nat) (postError : Option String) :
    Tidy (run.onEvent event now postError).1 := by
  have hturn : ∀ turn : TurnState, turn.active = run.turn.active → Tidy { run with turn } :=
    fun turn hact => h.congr _ rfl hact rfl
  have hact := handleBusEvent_active run.turn event now
  unfold Run.onEvent
  split
  · split
    · exact h.settleIdle _
    · exact h.settleIdle _
    · exact h
  · dsimp only
    split
    · exact (hturn _ hact).maybePreempt
    · exact (hturn _ hact).settleIdle _
    · split
      · exact (hturn _ hact).settleIdle _
      · refine Tidy.settleIdle (Tidy.congr (hturn _ hact) _ ?_ ?_ ?_) _ <;> rfl

/-! ### Which turn is settled -/

theorem settled_note {run : Run} (h : Settled (run.note notes).log generation) :
    Settled run.log generation ∨ .settled generation ∈ notes := mem_append.mp h

theorem settled_complete {run : Run} (h : Settled run.complete.log generation) : Settled run.log generation := by
  have hnote : ∀ status error, Settled (run.note [.messageCompleted, .done status error]).log generation →
      Settled run.log generation := by
    intro status error hsett
    rcases settled_note hsett with hsett | hmem
    · exact hsett
    · simp at hmem
  unfold Run.complete at h
  dsimp only at h
  split at h
  · exact hnote _ _ h
  · split at h
    · exact hnote _ _ h
    · exact hnote _ _ h

theorem settled_beginTurn {run : Run} {prompt : String} {attachments : List String} {steers : Nat}
    (h : Settled (run.beginTurn prompt attachments steers).1.log generation) : Settled run.log generation := by
  rcases mem_append.mp h with hsett | hmem
  · exact hsett
  · rcases mem_cons.mp hmem with heq | hmem
    · nomatch heq
    · nomatch eq_of_mem_replicate hmem

theorem settled_failPost {run : Run} {error : String}
    (h : Settled (run.failPost error).log generation) : Settled run.log generation := by
  rcases settled_note (settled_complete h) with hsett | hmem
  · exact hsett
  · nomatch mem_singleton.mp hmem

/-- Only the active turn is settled. -/
theorem settled_settleIdle {run : Run} (h : Settled (run.settleIdle postError).1.log generation) :
    Settled run.log generation ∨ (run.turn.active = true ∧ generation = run.generation) := by
  have hclsd : Settled run.closeTurn.log generation → Settled run.log generation ∨ generation = run.generation := by
    intro hsett
    rcases settled_note hsett with hsett | hmem
    · exact .inl hsett
    · exact .inr (Note.settled.inj (mem_singleton.mp hmem))
  unfold Run.settleIdle at h
  split at h
  · exact .inl h
  · rename_i hact
    have hact : run.turn.active = true := by simpa using hact
    refine Or.imp_right (fun heq => ⟨hact, heq⟩) (hclsd ?_)
    dsimp only at h
    split at h
    · rcases settled_note h with hsett | hmem
      · exact hsett
      · nomatch mem_singleton.mp hmem
    · split at h
      · exact settled_complete h
      · split at h
        · exact settled_beginTurn h
        · exact settled_failPost h

theorem settled_onSteer {run : Run} {message : SteerMessage}
    (h : Settled (run.onSteer message postError).1.log generation) : Settled run.log generation := by
  unfold Run.onSteer at h
  dsimp only at h
  split at h
  · unfold Run.maybePreempt at h
    split at h <;> exact h
  · split at h
    · exact settled_beginTurn h
    · rcases settled_note h with hsett | hmem
      · exact hsett
      · simp at hmem

/-- Only the answer that the session is not running settles the turn. -/
theorem settled_onPoll {run : Run} (h : Settled (run.onPoll running now postError).1.log generation) :
    Settled run.log generation ∨ (running = some false ∧ run.turn.active = true ∧ generation = run.generation) := by
  unfold Run.onPoll at h
  split at h
  · rename_i hrun
    exact (settled_settleIdle h).imp_right fun hact => ⟨hrun, hact⟩
  · exact .inl h

theorem settled_onConnected {run : Run} (h : Settled (run.onConnected running postError).1.log generation) :
    Settled run.log generation ∨ (running = some false ∧ run.turn.active = true ∧ generation = run.generation) := by
  unfold Run.onConnected at h
  split at h
  · rename_i hrun
    obtain ⟨-, hrun⟩ := Bool.and_eq_true_iff.mp hrun
    refine (settled_settleIdle h).imp_right fun hact => ⟨?_, hact⟩
    cases running with
    | none => nomatch hrun
    | some running =>
      cases running with
      | true => nomatch hrun
      | false => rfl
  · exact .inl h

/-- Whether an idle confirms the end of the turn for the second time. -/
def confirms (run : Run) : Bool :=
  (run.turn.idleReady || run.turn.error.isSome) && decide (1 ≤ run.turn.idleConfirmations)

theorem onIdle_outcome (turn : TurnState) (now : Nat) (h : (turn.onIdle now).2 ≠ .goesOn) :
    ((turn.idleReady || turn.error.isSome) && decide (1 ≤ turn.idleConfirmations)) = true := by
  unfold TurnState.onIdle at h
  cases hready : (turn.idleReady || turn.error.isSome) with
  | false =>
    rw [hready] at h
    simp at h
  | true =>
    rw [hready] at h
    by_cases hcnt : 1 ≤ turn.idleConfirmations
    · simp [hcnt]
    · have hzero : turn.idleConfirmations = 0 := by omega
      simp [hzero] at h

/-- Without an interrupt, only an idle that confirms settles the turn. -/
theorem settled_onEvent {run : Run} (hrun : run.interruptRequested = false) (heve : event ≠ .interrupted)
    (h : Settled (run.onEvent event now postError).1.log generation) :
    Settled run.log generation ∨
      (run.turn.active = true ∧ generation = run.generation ∧ event.isIdle = true ∧ run.confirms = true) := by
  have hact := handleBusEvent_active run.turn event now
  have hgoes : event.isIdle = false → (run.turn.handleBusEvent event now).2.1 = .goesOn := by
    intro hidle
    unfold TurnState.handleBusEvent
    cases event with
    | interrupted => exact absurd rfl heve
    | idle encoding => nomatch hidle
    | error own name message =>
      dsimp only
      split <;> rfl
    | _ => rfl
  have hcon : (run.turn.handleBusEvent event now).2.1 ≠ .goesOn → event.isIdle = true ∧ run.confirms = true := by
    intro hout
    cases event with
    | idle encoding => exact ⟨rfl, onIdle_outcome _ now hout⟩
    | interrupted => exact absurd rfl heve
    | _ => exact absurd (hgoes rfl) hout
  unfold Run.onEvent at h
  rw [hrun] at h
  dsimp only at h
  cases hout : (run.turn.handleBusEvent _ now).2.1 with
  | goesOn =>
    rw [hout] at h
    refine .inl ?_
    dsimp only at h
    unfold Run.maybePreempt at h
    rw [if_neg Bool.false_ne_true] at h
    split at h <;> exact h
  | turnIdle =>
    rw [hout] at h
    obtain ⟨hidle, hready⟩ := hcon (by rw [hout]; exact BusOutcome.noConfusion)
    rcases settled_settleIdle h with hsett | ⟨hsti, hgen⟩
    · exact .inl hsett
    · exact .inr ⟨hact.symm.trans hsti, hgen, hidle, hready⟩
  | turnInterrupted =>
    rw [hout] at h
    rw [if_neg Bool.false_ne_true] at h
    obtain ⟨hidle, hready⟩ := hcon (by rw [hout]; exact BusOutcome.noConfusion)
    dsimp only at h
    split at h
    · rcases settled_settleIdle h with hsett | ⟨hsti, hgen⟩
      · exact .inl hsett
      · exact .inr ⟨hact.symm.trans hsti, hgen, hidle, hready⟩
    · rcases settled_settleIdle h with hsett | ⟨hsti, hgen⟩
      · exact .inl hsett
      · exact .inr ⟨hact.symm.trans hsti, hgen, hidle, hready⟩

/-! ### No interrupt -/

theorem complete_interrupt (run : Run) : run.complete.interruptRequested = run.interruptRequested := by
  unfold Run.complete
  dsimp only
  split
  · rfl
  · split <;> rfl

theorem settleIdle_interrupt (run : Run) (postError : Option String) :
    (run.settleIdle postError).1.interruptRequested = run.interruptRequested := by
  unfold Run.settleIdle
  split
  · rfl
  · dsimp only
    split
    · rfl
    · split
      · exact complete_interrupt _
      · split
        · rfl
        · exact complete_interrupt _

theorem maybePreempt_interrupt (run : Run) : run.maybePreempt.1.interruptRequested = run.interruptRequested := by
  unfold Run.maybePreempt
  split <;> rfl

theorem onSteer_interrupt (run : Run) (message : SteerMessage) (postError : Option String) :
    (run.onSteer message postError).1.interruptRequested = run.interruptRequested := by
  unfold Run.onSteer
  dsimp only
  split
  · exact maybePreempt_interrupt _
  · split <;> rfl

theorem onPoll_interrupt (run : Run) (running : Option Bool) (now : Nat) (postError : Option String) :
    (run.onPoll running now postError).1.interruptRequested = run.interruptRequested := by
  unfold Run.onPoll
  split
  · exact settleIdle_interrupt _ _
  · rfl

theorem onConnected_interrupt (run : Run) (running : Option Bool) (postError : Option String) :
    (run.onConnected running postError).1.interruptRequested = run.interruptRequested := by
  unfold Run.onConnected
  split
  · exact settleIdle_interrupt _ _
  · rfl

theorem handleBusEvent_interrupted {turn : TurnState}
    (h : (turn.handleBusEvent event now).2.1 = .turnInterrupted) : event = .interrupted := by
  cases event with
  | interrupted => rfl
  | idle encoding =>
    unfold TurnState.handleBusEvent TurnState.onIdle at h
    dsimp only at h
    split at h <;> split at h <;> nomatch h
  | error own name message =>
    unfold TurnState.handleBusEvent at h
    dsimp only at h
    split at h <;> nomatch h
  | _ => nomatch h

theorem onEvent_interrupt {run : Run} (now : Nat) (postError : Option String)
    (hrun : run.interruptRequested = false) (heve : event ≠ .interrupted) :
    (run.onEvent event now postError).1.interruptRequested = false := by
  unfold Run.onEvent
  rw [hrun, if_neg Bool.false_ne_true]
  dsimp only
  split
  · exact maybePreempt_interrupt _
  · exact settleIdle_interrupt _ _
  · rename_i hout
    exact absurd (handleBusEvent_interrupted hout) heve

end Run

end Wu.OpenCode
