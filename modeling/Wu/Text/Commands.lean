import Mathlib.Data.List.Dedup
import Wu.Text.Network

/-!
# What commands do to a buffer

A command changes the snapshot only through the operations it makes. `Produces` says how a buffer makes one operation,
`Emits` how it makes several; the steps between leave everything alone that other replicas can see. The edits that an undo
operation counts are edits of the buffer's own stacks.
-/

namespace Wu

open List History

namespace History

/-- The edits of both stacks. -/
def editIds (self : History) : List Lamport :=
  (self.undoStack ++ self.redoStack).flatMap fun entry => entry.transaction.editIds

theorem mem_editIds {self : History} {id : Lamport} :
    id ∈ self.editIds ↔ ∃ entry, (entry ∈ self.undoStack ∨ entry ∈ self.redoStack) ∧ id ∈ entry.transaction.editIds := by
  rw [editIds, mem_flatMap]
  simp

variable {stack above below : List HistoryEntry} {transactionId : Lamport}

/-- An entry of a stack whose top has been changed. -/
theorem mem_modifyTop {f : HistoryEntry → HistoryEntry} {entry : HistoryEntry}
    (h : entry ∈ modifyTop f stack) : entry ∈ stack ∨ ∃ top ∈ stack, entry = f top := by
  unfold modifyTop at h
  split at h
  · rename_i top htop
    rcases mem_append.mp h with h | h
    · exact .inl (dropLast_subset _ h)
    · exact .inr ⟨top, List.mem_of_getLast? htop, mem_singleton.mp h⟩
  · nomatch h

section

variable (self : History)
include self

theorem editIds_startTransaction (start : Global) (now : Nat) (clock : Lamport) :
    ∀ id ∈ (self.startTransaction start now clock).1.editIds, id ∈ self.editIds := by
  intro id hid
  unfold startTransaction at hid
  simp only at hid
  split at hid
  · obtain ⟨entry, he, hm⟩ := mem_editIds.mp hid
    rcases he with he | he
    · rcases mem_append.mp he with he | he
      · exact mem_editIds.mpr ⟨entry, .inl he, hm⟩
      · rw [mem_singleton.mp he] at hm
        nomatch hm
    · exact mem_editIds.mpr ⟨entry, .inr he, hm⟩
  · exact hid

theorem editIds_endTransaction (now : Nat) : ∀ id ∈ (self.endTransaction now).1.editIds, id ∈ self.editIds := by
  intro id hid
  unfold endTransaction at hid
  simp only at hid
  split at hid
  · split at hid
    · rename_i top htop
      split at hid
      · obtain ⟨entry, he, hm⟩ := mem_editIds.mp hid
        exact mem_editIds.mpr ⟨entry, he.imp_left fun h => dropLast_subset _ h, hm⟩
      · obtain ⟨entry, he, hm⟩ := mem_editIds.mp hid
        rcases he with he | he
        · rcases mem_append.mp he with he | he
          · exact mem_editIds.mpr ⟨entry, .inl (dropLast_subset _ he), hm⟩
          · rw [mem_singleton.mp he] at hm
            exact mem_editIds.mpr ⟨top, .inl (List.mem_of_getLast? htop), hm⟩
        · nomatch he
    · exact hid
  · exact hid

theorem editIds_groupTrailing (n : Nat) : ∀ id ∈ (self.groupTrailing n).1.editIds, id ∈ self.editIds := by
  intro id hid
  obtain ⟨entry, he, hm⟩ := mem_editIds.mp hid
  rcases he with he | he
  · rcases mem_modifyTop he with he | ⟨top, ht, rfl⟩
    · exact mem_editIds.mpr ⟨entry, .inl (mem_of_mem_take he), hm⟩
    · rcases mem_append.mp hm with hm | hm
      · exact mem_editIds.mpr ⟨top, .inl (mem_of_mem_take ht), hm⟩
      · obtain ⟨e, he, hm⟩ := mem_flatMap.mp hm
        exact mem_editIds.mpr ⟨e, .inl (mem_of_mem_drop he), hm⟩
  · exact mem_editIds.mpr ⟨entry, .inr he, hm⟩

theorem editIds_group : ∀ id ∈ self.group.1.editIds, id ∈ self.editIds := by
  unfold group
  split
  · exact editIds_groupTrailing self _
  · exact editIds_groupTrailing self _

theorem editIds_groupUntil (transactionId : Lamport) : ∀ id ∈ (self.groupUntil transactionId).editIds, id ∈ self.editIds := by
  unfold groupUntil
  split
  · exact editIds_groupTrailing self _
  · exact fun id hid => hid

theorem editIds_finalizeLastTransaction : ∀ id ∈ self.finalizeLastTransaction.editIds, id ∈ self.editIds := by
  intro id hid
  obtain ⟨entry, he, hm⟩ := mem_editIds.mp hid
  rcases he with he | he
  · rcases mem_modifyTop he with he | ⟨top, ht, rfl⟩
    · exact mem_editIds.mpr ⟨entry, .inl he, hm⟩
    · exact mem_editIds.mpr ⟨top, .inl ht, hm⟩
  · exact mem_editIds.mpr ⟨entry, .inr he, hm⟩

theorem editIds_pushUndo (opId : Lamport) : ∀ id ∈ (self.pushUndo opId).editIds, id ∈ self.editIds ∨ id = opId := by
  intro id hid
  unfold pushUndo at hid
  split at hid
  · obtain ⟨entry, he, hm⟩ := mem_editIds.mp hid
    rcases he with he | he
    · rcases mem_modifyTop he with he | ⟨top, ht, rfl⟩
      · exact .inl (mem_editIds.mpr ⟨entry, .inl he, hm⟩)
      · rcases mem_append.mp hm with hm | hm
        · exact .inl (mem_editIds.mpr ⟨top, .inl ht, hm⟩)
        · exact .inr (mem_singleton.mp hm)
    · exact .inl (mem_editIds.mpr ⟨entry, .inr he, hm⟩)
  · exact .inl hid

end

/-- What `splitAt` finds. -/
theorem splitAt_eq_some {entry : HistoryEntry} (h : splitAt transactionId stack = some (above, entry, below)) :
    stack = above ++ entry :: below ∧ entry.transaction.id = transactionId := by
  induction stack generalizing above with
  | nil => nomatch h
  | cons e es ih =>
    unfold splitAt at h
    split at h
    · rename_i heq
      obtain ⟨-, -, -⟩ := h
      exact ⟨rfl, heq⟩
    · obtain ⟨⟨a, f, b⟩, hs, heq⟩ := Option.map_eq_some_iff.mp h
      obtain ⟨-, -, -⟩ := heq
      obtain ⟨rfl, hid⟩ := ih hs
      exact ⟨rfl, hid⟩

/-- A stack that `splitAt` splits from the top. -/
theorem eq_of_splitAt_reverse {entry : HistoryEntry} (h : splitAt transactionId stack.reverse = some (above, entry, below)) :
    stack = below.reverse ++ entry :: above.reverse := by
  have := congrArg reverse (splitAt_eq_some h).1
  simpa using this

end History

namespace BufferSnapshot

/-- The effect of an own operation: an edit with ranges in order, or an undo of edits that are known. -/
inductive Effect (self : BufferSnapshot) (editIds : List Lamport) (timestamp : Lamport) :
    Operation → BufferSnapshot → Prop where
  | edit (edits : List (Span × Text)) (sorted : SortedRanges self.visibleText.length 0 (edits.map (·.1)))
      (valid : ∀ edit ∈ edits, Text.Valid edit.2) :
      Effect self editIds timestamp (.edit (self.applyEditInternal edits timestamp).2.1)
        { (self.applyEditInternal edits timestamp).1 with
          version := (self.applyEditInternal edits timestamp).1.version.observe timestamp }
  | undo (counts : List (Lamport × Nat)) (nodup : (counts.map (·.1)).Nodup)
      (counted : ∀ count ∈ counts, count.1 ∈ editIds ∧ count.2 = UndoMap.undoCount self.undoMap count.1 + 1) :
      Effect self editIds timestamp (.undo ⟨timestamp, self.version, counts⟩)
        ({ self with version := self.version.observe timestamp }.applyUndo ⟨timestamp, self.version, counts⟩).1

theorem Effect.timestamp_eq {self new : BufferSnapshot} {editIds : List Lamport} {t : Lamport} {op : Operation}
    (h : Effect self editIds t op new) : op.timestamp = t ∧ op.version = self.version := by
  cases h with
  | edit edits =>
    unfold applyEditInternal
    split
    · exact ⟨rfl, rfl⟩
    · exact ⟨rfl, rfl⟩
  | undo counts => exact ⟨rfl, rfl⟩

end BufferSnapshot

namespace Buffer

/-- The replica's timestamp and what it shares with others stay as they are; only the clock may go on. -/
structure Quiet (old new : Buffer) : Prop where
  snapshot : new.snapshot = old.snapshot
  deferredOps : new.deferredOps = old.deferredOps
  deferredReplicas : new.deferredReplicas = old.deferredReplicas
  replicaId : new.lamportClock.replicaId = old.lamportClock.replicaId
  clock : old.lamportClock.value ≤ new.lamportClock.value
  editIds : ∀ id ∈ new.history.editIds, id ∈ old.history.editIds

theorem Quiet.refl (self : Buffer) : self.Quiet self :=
  ⟨rfl, rfl, rfl, rfl, le_rfl, fun _ h => h⟩

theorem Quiet.trans {a b c : Buffer} (h : a.Quiet b) (h' : b.Quiet c) : a.Quiet c where
  snapshot := h'.snapshot.trans h.snapshot
  deferredOps := h'.deferredOps.trans h.deferredOps
  deferredReplicas := h'.deferredReplicas.trans h.deferredReplicas
  replicaId := h'.replicaId.trans h.replicaId
  clock := h.clock.trans h'.clock
  editIds id hid := h.editIds id (h'.editIds id hid)

variable {history : History} {self : Buffer} {edits : List (Span × Text)}

/-- A buffer with another history that has no other edits. -/
theorem quiet_history (self : Buffer) (h : ∀ id ∈ history.editIds, id ∈ self.history.editIds) :
    self.Quiet { self with history := history } :=
  ⟨rfl, rfl, rfl, rfl, le_rfl, h⟩

theorem quiet_startTransactionAt (self : Buffer) (now : Nat) : self.Quiet (self.startTransactionAt now) where
  snapshot := rfl
  deferredOps := rfl
  deferredReplicas := rfl
  replicaId := by
    unfold startTransactionAt History.startTransaction
    simp only
    split <;> rfl
  clock := by
    unfold startTransactionAt History.startTransaction
    simp only
    split
    · exact Nat.le_succ _
    · exact le_rfl
  editIds := editIds_startTransaction _ _ _ _

theorem quiet_endTransactionAt (self : Buffer) (now : Nat) : self.Quiet (self.endTransactionAt now) := by
  have hend := editIds_endTransaction self.history now
  unfold endTransactionAt
  split
  · rename_i history entry heq
    rw [heq] at hend
    exact self.quiet_history fun id hid => hend id (editIds_group _ id hid)
  · rename_i history heq
    rw [heq] at hend
    exact self.quiet_history hend

/-- A buffer makes an operation at the time of its clock. -/
structure Produces (old : Buffer) (op : Operation) (new : Buffer) : Prop where
  effect : old.snapshot.Effect old.history.editIds old.lamportClock op new.snapshot
  deferredOps : new.deferredOps = old.deferredOps
  deferredReplicas : new.deferredReplicas = old.deferredReplicas
  replicaId : new.lamportClock.replicaId = old.lamportClock.replicaId
  clock : old.lamportClock.value < new.lamportClock.value
  editIds : ∀ id ∈ new.history.editIds, id ∈ old.history.editIds ∨ op.isEdit = true ∧ id = op.timestamp

/-- A buffer makes operations, one after the other. -/
inductive Emits : Buffer → List Operation → Buffer → Prop where
  | quiet {self new : Buffer} (quiet : self.Quiet new) : Emits self [] new
  | cons {self ready next new : Buffer} {op : Operation} {ops : List Operation} (quiet : self.Quiet ready)
      (produces : ready.Produces op next) (rest : Emits next ops new) : Emits self (op :: ops) new

/-- One operation, and nothing that others see after it. -/
theorem Emits.single {ready next new : Buffer} {op : Operation} (quiet : self.Quiet ready)
    (produces : ready.Produces op next) (after : next.Quiet new) : Emits self [op] new :=
  .cons quiet produces (.quiet after)

/-- What others do not see may come before. -/
theorem Emits.after {old new : Buffer} {ops : List Operation} (h : Emits self ops new) (hq : old.Quiet self) : Emits old ops new := by
  cases h with
  | quiet q => exact .quiet (hq.trans q)
  | cons q p rest => exact .cons (hq.trans q) p rest

/-- A transaction whose edits are in the stacks is undone or redone. -/
theorem produces_undoOrRedo (self : Buffer) {transaction : Transaction} (h : ∀ id ∈ transaction.editIds, id ∈ self.history.editIds) :
    self.Produces (self.undoOrRedo transaction).2 (self.undoOrRedo transaction).1 where
  effect := by
    refine BufferSnapshot.Effect.undo _ ?_ ?_
    · rw [map_map]
      exact (map_id _).symm ▸ nodup_dedup _
    · intro count hm
      obtain ⟨id, hid, rfl⟩ := mem_map.mp hm
      exact ⟨h id (mem_dedup.mp hid), rfl⟩
  deferredOps := rfl
  deferredReplicas := rfl
  replicaId := rfl
  clock := Nat.lt_succ_self _
  editIds id hid := .inl hid

theorem editIds_undoOrRedo (self : Buffer) (transaction : Transaction) :
    (self.undoOrRedo transaction).1.history.editIds = self.history.editIds := rfl

theorem emits_undoOrRedoAll {transactions : List Transaction} : ∀ {self : Buffer},
    (∀ transaction ∈ transactions, ∀ id ∈ transaction.editIds, id ∈ self.history.editIds) →
    Emits self (undoOrRedoAll transactions self).2 (undoOrRedoAll transactions self).1 := by
  induction transactions with
  | nil => intro self _; exact .quiet (Quiet.refl self)
  | cons t ts ih =>
    intro self h
    refine .cons (Quiet.refl self) (self.produces_undoOrRedo (h t (by simp))) (ih ?_)
    intro t' ht' id hid
    rw [editIds_undoOrRedo]
    exact h t' (by simp [ht']) id hid

/-- Offsets at characters are not moved. -/
theorem map_floorCharBoundary {from_ : Nat} (hs : SortedRanges self.text.length from_ (edits.map (·.1)))
    (hb : ∀ edit ∈ edits, Text.isCharBoundary self.text edit.1.start = true ∧ Text.isCharBoundary self.text edit.1.stop = true) :
    edits.map (fun edit => ((⟨self.text.floorCharBoundary edit.1.start, self.text.floorCharBoundary edit.1.stop⟩ : Span),
      edit.2)) = edits := by
  induction edits generalizing from_ with
  | nil => rfl
  | cons e es ih =>
    obtain ⟨-, h2, h3, h4⟩ := hs
    obtain ⟨hst, hstop⟩ := hb e (by simp)
    rw [map_cons, ih h4 fun edit he => hb edit (by simp [he]),
      Text.floorCharBoundary_eq (h2.trans h3) hst, Text.floorCharBoundary_eq h3 hstop]

/-- The part of an edit inside its transaction. -/
def editCore (self : Buffer) (edits : List (Span × Text)) : Buffer × Operation :=
  let (timestamp, clock) := self.lamportClock.tick
  let (self, op) := { self with lamportClock := clock }.applyLocalEdit edits timestamp
  let self := { self with history := (self.history.push (.edit op)).pushUndo op.timestamp }
  ({ self with snapshot := { self.snapshot with version := self.snapshot.version.observe op.timestamp } }, .edit op)

/-- What an edit makes, when its offsets are at characters. -/
theorem editCore_eq (self : Buffer) (hs : SortedRanges self.text.length 0 (edits.map (·.1)))
    (hb : ∀ edit ∈ edits, Text.isCharBoundary self.text edit.1.start = true ∧ Text.isCharBoundary self.text edit.1.stop = true) :
    (self.editCore edits).2 = .edit (self.snapshot.applyEditInternal edits self.lamportClock).2.1 ∧ (self.editCore edits).1.snapshot =
        { (self.snapshot.applyEditInternal edits self.lamportClock).1 with
          version := (self.snapshot.applyEditInternal edits self.lamportClock).1.version.observe
            (self.snapshot.applyEditInternal edits self.lamportClock).2.1.timestamp } ∧
      (self.editCore edits).1.history =
        (self.history.push (.edit (self.snapshot.applyEditInternal edits self.lamportClock).2.1)).pushUndo
          (self.snapshot.applyEditInternal edits self.lamportClock).2.1.timestamp := by
  have hmap := map_floorCharBoundary hs hb
  simp only [editCore, applyLocalEdit, Lamport.tick_fst, text] at hmap ⊢
  rw [hmap]
  exact ⟨rfl, rfl, rfl⟩

theorem produces_editCore (self : Buffer) (hs : SortedRanges self.text.length 0 (edits.map (·.1)))
    (hb : ∀ edit ∈ edits, Text.isCharBoundary self.text edit.1.start = true ∧
      Text.isCharBoundary self.text edit.1.stop = true ∧ Text.Valid edit.2) :
    self.Produces (self.editCore edits).2 (self.editCore edits).1 := by
  obtain ⟨hop, hsnap, hhist⟩ := self.editCore_eq hs fun edit he => ⟨(hb edit he).1, (hb edit he).2.1⟩
  have heff : self.snapshot.Effect self.history.editIds self.lamportClock _ _ :=
    .edit _ hs fun edit he => (hb edit he).2.2
  have htime : (self.snapshot.applyEditInternal edits self.lamportClock).2.1.timestamp = self.lamportClock :=
    heff.timestamp_eq.1
  constructor
  · rw [hop, hsnap, htime]
    exact heff
  · rfl
  · rfl
  · rfl
  · exact Nat.lt_succ_self _
  · intro id hid
    rw [hhist] at hid
    rw [hop]
    rcases editIds_pushUndo _ _ id hid with hid | rfl
    · exact .inl hid
    · exact .inr ⟨rfl, rfl⟩

theorem emits_edit (self : Buffer) {started ended : Nat} (h : self.Allows (.edit edits started ended)) :
    Emits self [(self.edit edits started ended).2] (self.edit edits started ended).1 := by
  exact .single (self.quiet_startTransactionAt _) (produces_editCore _ h.1 h.2) (quiet_endTransactionAt _ _)

/-- A transaction of a stack that moves to the other one is undone or redone. -/
theorem emits_move (self : Buffer) {entry : HistoryEntry} (hids : ∀ id ∈ history.editIds, id ∈ self.history.editIds)
    (hent : entry ∈ history.undoStack ∨ entry ∈ history.redoStack) :
    Emits self [({ self with history := history }.undoOrRedo entry.transaction).2]
      ({ self with history := history }.undoOrRedo entry.transaction).1 :=
  .single (self.quiet_history hids) (produces_undoOrRedo _ fun _ hid => History.mem_editIds.mpr ⟨entry, hent, hid⟩) (Quiet.refl _)

/-- The transactions of a stack that move to the other one are undone or redone. -/
theorem emits_moveAll (self : Buffer) {entries : List HistoryEntry} (hids : ∀ id ∈ history.editIds, id ∈ self.history.editIds)
    (hents : ∀ entry ∈ entries, entry ∈ history.undoStack ∨ entry ∈ history.redoStack) :
    Emits self (undoOrRedoAll (entries.map (·.transaction)) { self with history := history }).2
      (undoOrRedoAll (entries.map (·.transaction)) { self with history := history }).1 := by
  have hall : ∀ transaction ∈ entries.map (·.transaction), ∀ id ∈ transaction.editIds,
      id ∈ ({ self with history := history } : Buffer).history.editIds := by
    intro t ht id hid
    obtain ⟨entry, he, rfl⟩ := mem_map.mp ht
    exact History.mem_editIds.mpr ⟨entry, hents _ he, hid⟩
  exact (emits_undoOrRedoAll hall).after (self.quiet_history hids)

/-- The edits of a history whose entries are all from another one. -/
theorem editIds_of_entries {old new : History}
    (h : ∀ entry, entry ∈ new.undoStack ∨ entry ∈ new.redoStack → entry ∈ old.undoStack ∨ entry ∈ old.redoStack) :
    ∀ id ∈ new.editIds, id ∈ old.editIds := by
  intro id hid
  obtain ⟨entry, he, hm⟩ := History.mem_editIds.mp hid
  exact History.mem_editIds.mpr ⟨entry, h _ he, hm⟩

/-- The last entry of a stack, and the rest. -/
theorem eq_dropLast_append {stack : List HistoryEntry} {entry : HistoryEntry} (h : stack.getLast? = some entry) :
    stack = stack.dropLast ++ [entry] := by
  rw [getLast?_eq_some_iff] at h
  obtain ⟨-, rfl⟩ := h
  rw [dropLast_concat]

theorem emits_undo (self : Buffer) : Emits self self.undo.2.toList self.undo.1 := by
  unfold undo History.popUndo
  cases htop : self.history.undoStack.getLast? with
  | none => exact .quiet (Quiet.refl self)
  | some entry =>
    refine self.emits_move (editIds_of_entries ?_) (.inr (by simp))
    intro e he
    rw [eq_dropLast_append htop]
    rcases he with he | he
    · exact .inl (mem_append_left _ he)
    · rcases mem_append.mp he with he | he
      · exact .inr he
      · exact .inl (mem_append_right _ he)

theorem emits_redo (self : Buffer) : Emits self self.redo.2.toList self.redo.1 := by
  unfold redo History.popRedo
  cases htop : self.history.redoStack.getLast? with
  | none => exact .quiet (Quiet.refl self)
  | some entry =>
    refine self.emits_move (editIds_of_entries ?_) (.inl (by simp))
    intro e he
    rw [eq_dropLast_append htop]
    rcases he with he | he
    · rcases mem_append.mp he with he | he
      · exact .inl he
      · exact .inr (mem_append_right _ he)
    · exact .inr (mem_append_left _ he)

theorem emits_undoTransaction (self : Buffer) (transactionId : Lamport) :
    Emits self (self.undoTransaction transactionId).2.toList (self.undoTransaction transactionId).1 := by
  unfold undoTransaction History.removeFromUndo
  cases hspl : History.splitAt _ _ with
  | none => exact .quiet (Quiet.refl self)
  | some found =>
    have hsta := eq_of_splitAt_reverse hspl
    refine self.emits_move (editIds_of_entries ?_) (.inr (by simp))
    intro e he
    rw [hsta]
    simp only [mem_append, mem_cons, not_mem_nil, or_false] at he ⊢
    tauto

theorem emits_undoToTransaction (self : Buffer) (transactionId : Lamport) :
    Emits self (self.undoToTransaction transactionId).2 (self.undoToTransaction transactionId).1 := by
  unfold undoToTransaction History.removeFromUndoUntil
  cases hspl : History.splitAt _ _ with
  | none => exact self.emits_moveAll (fun _ h => h) (fun _ h => nomatch h)
  | some found =>
    have hsta := eq_of_splitAt_reverse hspl
    refine self.emits_moveAll (editIds_of_entries ?_) fun e he => .inr (mem_append_right _ he)
    intro e he
    rw [hsta]
    simp only [mem_append, mem_cons, mem_reverse, not_mem_nil, or_false] at he ⊢
    tauto

theorem emits_redoToTransaction (self : Buffer) (transactionId : Lamport) :
    Emits self (self.redoToTransaction transactionId).2 (self.redoToTransaction transactionId).1 := by
  unfold redoToTransaction History.removeFromRedo
  cases hspl : History.splitAt _ _ with
  | none => exact self.emits_moveAll (fun _ h => h) (fun _ h => nomatch h)
  | some found =>
    have hsta := eq_of_splitAt_reverse hspl
    refine self.emits_moveAll (editIds_of_entries ?_) fun e he => .inl (mem_append_right _ he)
    intro e he
    rw [hsta]
    simp only [mem_append, mem_cons, mem_reverse, not_mem_nil, or_false] at he ⊢
    tauto

/-- Every command makes its operations one after the other. -/
theorem emits_perform (self : Buffer) {command : Command} (h : self.Allows command) :
    Emits self (self.perform command).2 (self.perform command).1 := by
  cases command with
  | edit edits started ended => exact self.emits_edit h
  | startTransaction now => exact .quiet (self.quiet_startTransactionAt now)
  | endTransaction now => exact .quiet (self.quiet_endTransactionAt now)
  | undo => exact self.emits_undo
  | redo => exact self.emits_redo
  | undoTransaction transactionId => exact self.emits_undoTransaction _
  | undoToTransaction transactionId => exact self.emits_undoToTransaction _
  | redoToTransaction transactionId => exact self.emits_redoToTransaction _
  | undoOrRedo transaction =>
    refine .single (Quiet.refl self) (self.produces_undoOrRedo fun id hid => ?_) (Quiet.refl _)
    obtain ⟨entry, he, rfl⟩ := mem_map.mp h
    exact History.mem_editIds.mpr ⟨entry, mem_append.mp he, hid⟩
  | groupUntilTransaction transactionId =>
    exact .quiet (self.quiet_history (editIds_groupUntil _ _))
  | finalizeLastTransaction => exact .quiet (self.quiet_history (editIds_finalizeLastTransaction _))
  | subscribe => exact .quiet ⟨rfl, rfl, rfl, rfl, le_rfl, fun _ h => h⟩

end Buffer

end Wu
