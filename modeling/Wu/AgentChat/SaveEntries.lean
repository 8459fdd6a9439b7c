import Wu.AgentChat.SavedSession

/-!
# The newest transcript

A session is saved some time after it was asked to be, by a task that waits, takes what is to be written and has it written in the
background. Being asked again replaces the task: it waits anew, while a write that has begun goes on.
-/

namespace Wu.Saves

open List Option SavedTranscript AgentSession

/-- What has become of `save_entries_task`. -/
inductive SaveTask where
  | ready
  | timer
  | spawned (saved : SavedTranscript)
  | writing (write : Nat)

/-- A write that has begun. -/
structure Write where
  id : Nat
  json : Value

/-- A session with its tasks and its files. `requested` is the session as it was when it was last asked to be saved, which nothing
reads. -/
structure Saver (M : Type) where
  session : AgentSession
  metadata : M
  saveEntriesTask : SaveTask
  /-- What the tasks of `save_metadata` are still to write, each after the one before. -/
  metadataWrites : List M
  /-- The task for the entries that `close_for_deletion` has returned. -/
  closed : SaveTask
  writes : List Write
  nextWrite : Nat
  entriesFile : Option Value
  metadataFile : Option M
  requested : Option AgentSession

inductive SaverMove (M : Type) where
  | change (change : Change)
  | updateMetadata (metadata : M)
  | saveEntries
  | saveMetadata
  | fireTimer
  | beginWrite
  | fireClosedTimer
  | beginClosedWrite
  | finishWrite (write : Nat)
  | finishMetadataWrite
  | closeForDeletion
  | removeFiles

variable {M : Type}

/-- The timer is over: what is to be written is taken from the session, unless it is deleted. -/
def SaveTask.fire (session : AgentSession) : SaveTask → SaveTask
  | timer => if session.deleted then ready else spawned session.savedTranscript
  | task => task

def SaveTask.finish (write : Nat) : SaveTask → SaveTask
  | writing other => if other = write then ready else writing other
  | task => task

namespace Saver

variable (self : Saver M)

/-- What a task has become, with the writes that have begun. -/
def begin : SaveTask → SaveTask × List Write
  | .spawned saved =>
    match saved.toVec with
    | some json => (.writing self.nextWrite, self.writes ++ [⟨self.nextWrite, json⟩])
    | none => (.ready, self.writes)
  | task => (task, self.writes)

/-- `save_entries`: the task of before is dropped. -/
def saveEntries : Saver M :=
  if self.session.deleted then self else { self with saveEntriesTask := .timer, requested := some self.session }

/-- `write_atomically`, for the entries. -/
def finishWrite (write : Nat) : Saver M :=
  match self.writes.find? fun other => other.id = write with
  | none => self
  | some found =>
    { self with
      entriesFile := some found.json
      writes := self.writes.filter fun other => other.id ≠ write
      saveEntriesTask := self.saveEntriesTask.finish write
      closed := self.closed.finish write }

def apply : SaverMove M → Saver M
  | .change change => { self with session := self.session.change change }
  | .updateMetadata metadata => { self with metadata }
  | .saveEntries => self.saveEntries
  | .saveMetadata => if self.session.deleted then self else { self with metadataWrites := self.metadataWrites ++ [self.metadata] }
  | .fireTimer => { self with saveEntriesTask := self.saveEntriesTask.fire self.session }
  | .beginWrite =>
    { self with
      saveEntriesTask := (self.begin self.saveEntriesTask).1
      writes := (self.begin self.saveEntriesTask).2
      nextWrite := self.nextWrite + 1 }
  | .fireClosedTimer => { self with closed := self.closed.fire self.session }
  | .beginClosedWrite =>
    { self with closed := (self.begin self.closed).1, writes := (self.begin self.closed).2, nextWrite := self.nextWrite + 1 }
  | .finishWrite write => self.finishWrite write
  | .finishMetadataWrite =>
    match self.metadataWrites with
    | [] => self
    | metadata :: rest => { self with metadataFile := some metadata, metadataWrites := rest }
  | .closeForDeletion =>
    { self with session := { self.session with deleted := true }, closed := self.saveEntriesTask, saveEntriesTask := .ready }
  | .removeFiles => { self with entriesFile := none, metadataFile := none }

/-- The store closes a session once, and removes its files when the returned tasks have finished. -/
def Allowed : SaverMove M → Prop
  | .closeForDeletion => self.session.deleted = false
  | .removeFiles => self.session.deleted = true ∧ self.closed = .ready ∧ self.metadataWrites = []
  | _ => True

/-- A session that is opened, with the files that are there. -/
def start (session : AgentSession) (metadata : M) (entriesFile : Option Value) (metadataFile : Option M) : Saver M where
  session
  metadata
  saveEntriesTask := .ready
  metadataWrites := []
  closed := .ready
  writes := []
  nextWrite := 0
  entriesFile
  metadataFile
  requested := none

/-- The sessions that are reached by moves that meet a condition. -/
inductive Reach (condition : Saver M → SaverMove M → Prop) : Saver M → Prop
  | start (saved : SavedTranscript) (metadata : M) (entriesFile : Option Value) (metadataFile : Option M) :
      Reach condition (start (.new saved) metadata entriesFile metadataFile)
  | move {saver : Saver M} (move : SaverMove M) : Reach condition saver → saver.Allowed move → condition saver move →
      Reach condition (saver.apply move)

/-- When nothing is being saved, the file has the session as it was when it was last asked to be saved, and it can be opened from it.
When a session has been closed, and the returned tasks have finished, its files are not written any more. -/
structure NewestWins (saver : Saver M) : Prop where
  newest : saver.session.deleted = false → saver.saveEntriesTask = .ready → saver.writes = [] →
    ∀ session, saver.requested = some session → ∃ json, saver.entriesFile = some json ∧ session.savedTranscript.toVec = some json ∧
      (SavedTranscript.fromSlice json).map AgentSession.new = some session.reopened
  silent : saver.session.deleted = true → saver.closed = .ready → saver.metadataWrites = [] → ∀ moves : List (SaverMove M),
    ((moves.foldl apply saver).entriesFile = saver.entriesFile ∨ (moves.foldl apply saver).entriesFile = none) ∧
      ((moves.foldl apply saver).metadataFile = saver.metadataFile ∨ (moves.foldl apply saver).metadataFile = none)

/-- A session is saved with paths that are text and no null inputs, and it is not changed without being saved while the timer runs. No
write replaces the file before an older one, and the session is closed when none but that of its task is left. -/
def InOrder : SaverMove M → Prop
  | .saveEntries => self.session.savedTranscript.Plain
  | .fireTimer => self.saveEntriesTask = .timer → ∀ session, self.requested = some session →
      session.savedTranscript = self.session.savedTranscript
  | .finishWrite write => ∀ other ∈ self.writes.head?, other.id = write
  | .closeForDeletion => ∀ write ∈ self.writes, self.saveEntriesTask = .writing write.id
  | _ => True

/-! ### What the moves keep -/

/-- What the file has, or will have when the last write has finished. -/
def newest : Option Value := (self.writes.getLast?.map Write.json).or self.entriesFile

/-- The file is, or will be, what was asked for last, unless the timer is to take it still. -/
structure Ordered (saver : Saver M) : Prop where
  sound : saver.session.Sound
  plain : ∀ session, saver.requested = some session → session.Sound ∧ session.savedTranscript.Plain
  ids : saver.writes.Pairwise fun a b => a.id < b.id
  given : ∀ write ∈ saver.writes, write.id < saver.nextWrite
  spawned : ∀ saved, saver.saveEntriesTask = .spawned saved → ∀ session, saver.requested = some session → saved = session.savedTranscript
  newest : saver.session.deleted = false → saver.saveEntriesTask ≠ .timer → (∀ saved, saver.saveEntriesTask ≠ .spawned saved) →
    ∀ session, saver.requested = some session → saver.newest = session.savedTranscript.toVec
  deleted : saver.session.deleted = true → saver.saveEntriesTask = .ready ∧ ∀ write ∈ saver.writes, saver.closed = .writing write.id
  live : saver.session.deleted = false → saver.closed = .ready

end Saver

theorem AgentSession.deleted_change (session : AgentSession) (change : Change) : (session.change change).deleted = session.deleted := by
  cases change with
  | moveQueued id toIndex =>
    show (session.moveQueued id _).deleted = session.deleted
    unfold AgentSession.moveQueued
    split <;> rfl
  | transcript | subagent | addSubagent | subagentDone | endSubagents | enqueue | enqueueFirst | takeQueued | editQueued => rfl

namespace Saver

variable {saver : Saver M}

theorem ordered_start (session : AgentSession) (hsou : session.Sound) (hdel : session.deleted = false) (metadata : M)
    (entriesFile : Option Value) (metadataFile : Option M) : (start session metadata entriesFile metadataFile).Ordered where
  sound := hsou
  plain := nofun
  ids := List.Pairwise.nil
  given := nofun
  spawned := nofun
  newest := fun _ _ _ _ h => nomatch h
  deleted := fun h => absurd (hdel.symm.trans h) Bool.false_ne_true
  live := fun _ => rfl

section

variable (h : saver.Ordered)
include h

theorem Ordered.change (change : Change) : Ordered { saver with session := saver.session.change change } where
  sound := h.sound.change _
  plain := h.plain
  ids := h.ids
  given := h.given
  spawned := h.spawned
  newest := fun hdel => h.newest ((saver.session.deleted_change _).symm.trans hdel)
  deleted := fun hdel => h.deleted ((saver.session.deleted_change _).symm.trans hdel)
  live := fun hdel => h.live ((saver.session.deleted_change _).symm.trans hdel)

theorem Ordered.saveEntries (hpln : saver.session.savedTranscript.Plain) : saver.saveEntries.Ordered := by
  unfold Saver.saveEntries
  split
  · exact h
  · rename_i hlive
    refine ⟨h.sound, fun session hsess => ?_, h.ids, h.given, nofun, fun _ hnot => absurd rfl hnot, fun hdel => absurd hdel hlive,
      h.live⟩
    rw [← some.inj hsess]
    exact ⟨h.sound, hpln⟩

theorem Ordered.fireTimer (hsame : saver.saveEntriesTask = .timer → ∀ session, saver.requested = some session →
    session.savedTranscript = saver.session.savedTranscript) :
    Ordered { saver with saveEntriesTask := saver.saveEntriesTask.fire saver.session } := by
  cases htask : saver.saveEntriesTask with
  | timer =>
    cases hdel : saver.session.deleted with
    | true => exact absurd (htask.symm.trans (h.deleted hdel).1) nofun
    | false =>
      unfold SaveTask.fire
      rw [hdel]
      refine ⟨h.sound, h.plain, h.ids, h.given, fun saved hsav session hsess => ?_, fun _ _ hnot => absurd rfl (hnot _),
        fun hdel' => absurd (hdel.symm.trans hdel') Bool.false_ne_true, h.live⟩
      rw [← SaveTask.spawned.inj hsav]
      exact (hsame htask _ hsess).symm
  | ready | spawned | writing =>
    unfold SaveTask.fire
    dsimp only
    rw [← htask]
    exact h

/-- A write begins as the last one. -/
theorem ordered_write {write : Write} (hid : write.id = saver.nextWrite) :
    (saver.writes ++ [write]).Pairwise (fun a b => a.id < b.id) ∧ ∀ other ∈ saver.writes ++ [write], other.id < saver.nextWrite + 1 := by
  refine ⟨pairwise_append.mpr ⟨h.ids, pairwise_singleton _ _, fun other hoth last hlast => ?_⟩, fun other hoth => ?_⟩
  · rw [mem_singleton.mp hlast, hid]
    exact h.given _ hoth
  · rcases mem_append.mp hoth with hoth | hoth
    · exact (h.given _ hoth).trans (Nat.lt_succ_self _)
    · rw [mem_singleton.mp hoth, hid]
      exact Nat.lt_succ_self _

theorem Ordered.beginWrite : (saver.apply .beginWrite).Ordered := by
  have hgiv : ∀ write ∈ saver.writes, write.id < saver.nextWrite + 1 := fun write hwri =>
    (h.given _ hwri).trans (Nat.lt_succ_self _)
  unfold Saver.apply
  cases htask : saver.saveEntriesTask with
  | spawned saved =>
    have hlive : saver.session.deleted = true → False := fun hdel => nomatch htask.symm.trans (h.deleted hdel).1
    unfold Saver.begin
    dsimp only
    cases hjson : saved.toVec with
    | some json =>
      have hwri : (⟨saver.nextWrite, json⟩ : Write).id = saver.nextWrite := rfl
      obtain ⟨hids, hgiv⟩ := ordered_write h hwri
      refine ⟨h.sound, h.plain, hids, hgiv, nofun, fun _ _ _ session hsess => ?_, fun hdel => (hlive hdel).elim, h.live⟩
      unfold Saver.newest
      rw [getLast?_concat, ← h.spawned _ htask _ hsess, hjson]
      rfl
    | none =>
      refine ⟨h.sound, h.plain, h.ids, hgiv, nofun, fun _ _ _ session hsess => ?_, fun hdel => (hlive hdel).elim, h.live⟩
      -- what was asked for can be written
      obtain ⟨json, hsome⟩ := toVec_plain _ (h.plain _ hsess).2
      rw [← h.spawned _ htask _ hsess, hjson] at hsome
      nomatch hsome
  | ready | timer | writing =>
    unfold Saver.begin
    dsimp only
    rw [← htask]
    exact ⟨h.sound, h.plain, h.ids, hgiv, h.spawned, h.newest, h.deleted, h.live⟩

/-- The returned task goes on when the session has been closed. -/
theorem Ordered.fireClosedTimer : Ordered { saver with closed := saver.closed.fire saver.session } := by
  refine ⟨h.sound, h.plain, h.ids, h.given, h.spawned, h.newest, fun hdel => ⟨(h.deleted hdel).1, fun write hwri => ?_⟩,
    fun hlive => ?_⟩
  · rw [(h.deleted hdel).2 _ hwri]
    rfl
  · rw [h.live hlive]
    rfl

theorem Ordered.beginClosedWrite : (saver.apply .beginClosedWrite).Ordered := by
  have hgiv : ∀ write ∈ saver.writes, write.id < saver.nextWrite + 1 := fun write hwri =>
    (h.given _ hwri).trans (Nat.lt_succ_self _)
  unfold Saver.apply
  cases htask : saver.closed with
  | spawned saved =>
    have hdel : saver.session.deleted = true := by
      cases hlive : saver.session.deleted with
      | true => rfl
      | false => nomatch htask.symm.trans (h.live hlive)
    have hnotL : saver.session.deleted = false → False := fun hlive => Bool.false_ne_true (hlive.symm.trans hdel)
    -- no other write is left
    have hnone : saver.writes = [] :=
      eq_nil_iff_forall_not_mem.mpr fun write hwri => nomatch htask.symm.trans ((h.deleted hdel).2 _ hwri)
    unfold Saver.begin
    dsimp only
    cases hjson : saved.toVec with
    | some json =>
      have hwri : (⟨saver.nextWrite, json⟩ : Write).id = saver.nextWrite := rfl
      obtain ⟨hids, hgiv⟩ := ordered_write h hwri
      refine ⟨h.sound, h.plain, hids, hgiv, h.spawned, fun hlive => (hnotL hlive).elim,
        fun _ => ⟨(h.deleted hdel).1, fun write hwri => ?_⟩, fun hlive => (hnotL hlive).elim⟩
      dsimp only at hwri
      rw [hnone] at hwri
      rw [mem_singleton.mp hwri]
    | none =>
      refine ⟨h.sound, h.plain, h.ids, hgiv, h.spawned, fun hlive => (hnotL hlive).elim,
        fun _ => ⟨(h.deleted hdel).1, fun write hwri => ?_⟩, fun hlive => (hnotL hlive).elim⟩
      dsimp only at hwri
      rw [hnone] at hwri
      nomatch hwri
  | ready | timer | writing =>
    unfold Saver.begin
    dsimp only
    rw [← htask]
    exact ⟨h.sound, h.plain, h.ids, hgiv, h.spawned, h.newest, h.deleted, h.live⟩

/-- The oldest write finishes: the file is, or will be, what it would have been. -/
theorem Ordered.finishWrite {write : Nat} (hfst : ∀ other ∈ saver.writes.head?, other.id = write) :
    (saver.finishWrite write).Ordered := by
  unfold Saver.finishWrite
  split
  · exact h
  · rename_i found hfnd
    cases hwrit : saver.writes with
    | nil =>
      rw [hwrit] at hfnd
      nomatch hfnd
    | cons first rest =>
      have hid : first.id = write := hfst _ (by rw [hwrit]; rfl)
      have hids := h.ids
      rw [hwrit] at hids hfnd
      obtain ⟨hlat, hrest⟩ := pairwise_cons.mp hids
      have hhead : (first :: rest).find? (fun other => decide (other.id = write)) = some first := by simp [hid]
      obtain rfl : first = found := some.inj (hhead.symm.trans hfnd)
      have hfilt : (first :: rest).filter (fun other => decide (other.id ≠ write)) = rest := by
        rw [filter_cons_of_neg (by simpa using hid), filter_eq_self.mpr]
        intro other hoth
        exact decide_eq_true (hid ▸ (hlat _ hoth).ne')
      have hsub : ∀ other ∈ rest, other ∈ saver.writes := fun other hoth => hwrit ▸ .tail _ hoth
      -- a task that is over was writing, or was over
      have htask : ∀ {task : SaveTask}, task.finish write ≠ .timer → (∀ saved, task.finish write ≠ .spawned saved) →
          task ≠ .timer ∧ ∀ saved, task ≠ .spawned saved := by
        intro task htim hspa
        cases task with
        | timer => exact absurd rfl htim
        | spawned saved => exact absurd rfl (hspa _)
        | ready | writing => exact ⟨nofun, nofun⟩
      rw [hfilt]
      refine ⟨h.sound, h.plain, hrest, fun other hoth => h.given _ (hsub _ hoth), fun saved hsav => ?_,
        fun hlive htim hspa session hsess => ?_, fun hdel => ?_, fun hlive => ?_⟩
      · refine h.spawned _ ?_
        generalize saver.saveEntriesTask = task at hsav
        cases task with
        | spawned => exact hsav
        | ready | timer => nomatch hsav
        | writing other =>
          dsimp only [SaveTask.finish] at hsav
          split at hsav <;> nomatch hsav
      · obtain ⟨htim, hspa⟩ := htask htim hspa
        rw [← h.newest hlive htim hspa _ hsess]
        unfold Saver.newest
        rw [hwrit]
        cases rest with
        | nil => rfl
        | cons second rest =>
          rw [getLast?_cons_cons]
          cases hlast : (second :: rest).getLast? with
          | none => nomatch getLast?_eq_none_iff.mp hlast
          | some last => rfl
      · obtain ⟨hready, hclsd⟩ := h.deleted hdel
        -- all writes are that of the returned task, so that no other is left
        have hnone : rest = [] := by
          refine eq_nil_iff_forall_not_mem.mpr fun other hoth => ?_
          have hsame := (hclsd _ (hsub _ hoth)).symm.trans (hclsd _ (hwrit ▸ mem_cons_self))
          exact absurd (SaveTask.writing.inj hsame) (hlat _ hoth).ne'
        refine ⟨?_, fun other hoth => ?_⟩
        · rw [hready]
          rfl
        · rw [hnone] at hoth
          nomatch hoth
      · rw [h.live hlive]
        rfl

theorem Ordered.closeForDeletion (hwrit : ∀ write ∈ saver.writes, saver.saveEntriesTask = .writing write.id) :
    (saver.apply .closeForDeletion).Ordered where
  sound := ⟨h.sound.transcript, h.sound.subagents, h.sound.ids⟩
  plain := h.plain
  ids := h.ids
  given := h.given
  spawned := nofun
  newest := fun hlive => nomatch hlive
  deleted := fun _ => ⟨rfl, hwrit⟩
  live := fun hlive => nomatch hlive

/-- Every move in order keeps what the file is, or will be. -/
theorem Ordered.apply (move : SaverMove M) (halw : saver.Allowed move) (hord : saver.InOrder move) : (saver.apply move).Ordered := by
  cases move with
  | change change => exact h.change _
  | updateMetadata metadata => exact ⟨h.sound, h.plain, h.ids, h.given, h.spawned, h.newest, h.deleted, h.live⟩
  | saveEntries => exact h.saveEntries hord
  | saveMetadata =>
    unfold Saver.apply
    dsimp only
    split
    · exact h
    · exact ⟨h.sound, h.plain, h.ids, h.given, h.spawned, h.newest, h.deleted, h.live⟩
  | fireTimer => exact h.fireTimer hord
  | beginWrite => exact h.beginWrite
  | fireClosedTimer => exact h.fireClosedTimer
  | beginClosedWrite => exact h.beginClosedWrite
  | finishWrite write => exact h.finishWrite hord
  | finishMetadataWrite =>
    unfold Saver.apply
    dsimp only
    split
    · exact h
    · exact ⟨h.sound, h.plain, h.ids, h.given, h.spawned, h.newest, h.deleted, h.live⟩
  | closeForDeletion => exact h.closeForDeletion hord
  | removeFiles =>
    refine ⟨h.sound, h.plain, h.ids, h.given, h.spawned, fun hlive => ?_, h.deleted, h.live⟩
    exact absurd (hlive.symm.trans halw.1) Bool.false_ne_true

end

/-! ### Closed sessions -/

/-- Nothing is left to be written. -/
structure Quiet (saver : Saver M) : Prop where
  deleted : saver.session.deleted = true
  task : saver.saveEntriesTask = .ready
  closed : saver.closed = .ready
  writes : saver.writes = []
  metadataWrites : saver.metadataWrites = []

/-- Whatever is done to a session after that, its files stay, or are removed. -/
theorem Quiet.apply (h : saver.Quiet) (move : SaverMove M) : (saver.apply move).Quiet ∧
    ((saver.apply move).entriesFile = saver.entriesFile ∨ (saver.apply move).entriesFile = none) ∧
      ((saver.apply move).metadataFile = saver.metadataFile ∨ (saver.apply move).metadataFile = none) := by
  have hbeg : saver.begin .ready = (.ready, saver.writes) := rfl
  cases move with
  | change change =>
    exact ⟨⟨(saver.session.deleted_change _).trans h.deleted, h.task, h.closed, h.writes, h.metadataWrites⟩, .inl rfl, .inl rfl⟩
  | updateMetadata metadata => exact ⟨⟨h.deleted, h.task, h.closed, h.writes, h.metadataWrites⟩, .inl rfl, .inl rfl⟩
  | saveEntries =>
    unfold Saver.apply Saver.saveEntries
    rw [if_pos h.deleted]
    exact ⟨h, .inl rfl, .inl rfl⟩
  | saveMetadata =>
    unfold Saver.apply
    rw [if_pos h.deleted]
    exact ⟨h, .inl rfl, .inl rfl⟩
  | fireTimer =>
    refine ⟨⟨h.deleted, ?_, h.closed, h.writes, h.metadataWrites⟩, .inl rfl, .inl rfl⟩
    show saver.saveEntriesTask.fire _ = .ready
    rw [h.task]
    rfl
  | fireClosedTimer =>
    refine ⟨⟨h.deleted, h.task, ?_, h.writes, h.metadataWrites⟩, .inl rfl, .inl rfl⟩
    show saver.closed.fire _ = .ready
    rw [h.closed]
    rfl
  | beginWrite =>
    unfold Saver.apply
    rw [h.task, hbeg]
    exact ⟨⟨h.deleted, rfl, h.closed, h.writes, h.metadataWrites⟩, .inl rfl, .inl rfl⟩
  | beginClosedWrite =>
    unfold Saver.apply
    rw [h.closed, hbeg]
    exact ⟨⟨h.deleted, h.task, rfl, h.writes, h.metadataWrites⟩, .inl rfl, .inl rfl⟩
  | finishWrite write =>
    unfold Saver.apply Saver.finishWrite
    rw [h.writes]
    exact ⟨h, .inl rfl, .inl rfl⟩
  | finishMetadataWrite =>
    unfold Saver.apply
    rw [h.metadataWrites]
    exact ⟨h, .inl rfl, .inl rfl⟩
  | closeForDeletion => exact ⟨⟨rfl, rfl, h.task, h.writes, h.metadataWrites⟩, .inl rfl, .inl rfl⟩
  | removeFiles => exact ⟨⟨h.deleted, h.task, h.closed, h.writes, h.metadataWrites⟩, .inr rfl, .inr rfl⟩

theorem Quiet.run (h : saver.Quiet) (moves : List (SaverMove M)) :
    ((moves.foldl Saver.apply saver).entriesFile = saver.entriesFile ∨ (moves.foldl Saver.apply saver).entriesFile = none) ∧
      ((moves.foldl Saver.apply saver).metadataFile = saver.metadataFile ∨ (moves.foldl Saver.apply saver).metadataFile = none) := by
  induction moves generalizing saver with
  | nil => exact ⟨.inl rfl, .inl rfl⟩
  | cons move moves ih =>
    obtain ⟨hqui, hents, hmeta⟩ := h.apply move
    obtain ⟨hentsR, hmetaR⟩ := ih hqui
    refine ⟨hentsR.elim (fun heq => ?_) .inr, hmetaR.elim (fun heq => ?_) .inr⟩
    · exact hents.imp heq.trans heq.trans
    · exact hmeta.imp heq.trans heq.trans

/-- In every run in which writes finish in order, and what is saved is not changed behind the timer, the newest transcript wins. -/
theorem newest_wins (h : Reach InOrder saver) : saver.NewestWins := by
  have hordered : saver.Ordered := by
    induction h with
    | start saved metadata entriesFile metadataFile =>
      exact ordered_start _ (sound_new saved) rfl metadata entriesFile metadataFile
    | move move _ hallowed horder ih => exact ih.apply move hallowed horder
  refine ⟨fun hlive htask hnone session hsession => ?_, fun hdeleted hclosed hmetadata => ?_⟩
  · obtain ⟨hsound, hplain⟩ := hordered.plain session hsession
    obtain ⟨json, hjson⟩ := toVec_plain _ hplain
    have hnewest := hordered.newest hlive (by rw [htask]; exact nofun) (by rw [htask]; exact nofun) session hsession
    unfold Saver.newest at hnewest
    rw [hnone, hjson] at hnewest
    refine ⟨json, hnewest, hjson, ?_⟩
    rw [fromSlice_toVec _ hplain json hjson, map_some, new_savedTranscript hsound]
  · obtain ⟨htask, hwrites⟩ := hordered.deleted hdeleted
    have hnone : saver.writes = [] :=
      eq_nil_iff_forall_not_mem.mpr fun write hwrite => nomatch hclosed.symm.trans (hwrites write hwrite)
    exact Quiet.run ⟨hdeleted, htask, hclosed, hnone, hmetadata⟩

/-- A session is saved after a message has been put in. -/
theorem newest_wins_notice : ∃ saver : Saver Unit, saver.entriesFile ≠ none ∧ saver.NewestWins := by
  have h0 : Reach InOrder (start (.new (.entriesOnly [])) () none none) := .start (.entriesOnly []) () none none
  have h1 := h0.move (.change (.transcript (.pushNotice "Context compacted." false))) trivial trivial
  have h2 := h1.move .saveEntries trivial
    (by
      refine ⟨fun entry hentry => ?_, nofun, nofun⟩
      rw [mem_singleton.mp hentry]
      trivial)
  have h3 := h2.move .fireTimer trivial
    (by
      intro _ session hsession
      rw [← some.inj hsession]
      rfl)
  have h4 := h3.move .beginWrite trivial trivial
  have h5 := h4.move (.finishWrite 0) trivial
    (by
      intro write hwrite
      rw [← some.inj hwrite]
      rfl)
  exact ⟨_, some_ne_none _, newest_wins h5⟩

/-- The first write is slow: it replaces the file after the second one. -/
theorem older_transcript_wins : ∃ saver : Saver Unit, Reach (fun _ _ => True) saver ∧ ¬ saver.NewestWins := by
  have h0 : Reach (fun _ _ => True) (start (.new (.entriesOnly [])) () none none) := .start (.entriesOnly []) () none none
  have h1 := h0.move .saveEntries trivial trivial
  have h2 := h1.move .fireTimer trivial trivial
  have h3 := h2.move .beginWrite trivial trivial
  have h4 := h3.move (.change (.transcript (.pushNotice "Context compacted." false))) trivial trivial
  have h5 := h4.move .saveEntries trivial trivial
  have h6 := h5.move .fireTimer trivial trivial
  have h7 := h6.move .beginWrite trivial trivial
  have h8 := h7.move (.finishWrite 1) trivial trivial
  have h9 := h8.move (.finishWrite 0) trivial trivial
  refine ⟨_, h9, fun hwins => ?_⟩
  obtain ⟨json, hfile, hjson, -⟩ := hwins.newest rfl rfl rfl _ rfl
  have hsame := some.inj (hfile.trans hjson.symm)
  nomatch hsame

end Saver

end Wu.Saves
