import Wu.Text.Commands

/-!
# The edits of a history

The commands of the history move entries from one stack to the other or merge them. All but one keep every edit:
`mergeTransactions` takes the transaction out before it looks for the destination, and its edits are lost when there is none.
-/

namespace Wu.History

open List Option

/-- The edits of the entries of a stack. -/
abbrev editsOf (stack : List HistoryEntry) : List Lamport := stack.flatMap fun entry => entry.transaction.editIds

/-- The transactions of the entries of a stack. -/
abbrev idsOf (stack : List HistoryEntry) : List Lamport := stack.map fun entry => entry.transaction.id

/-- An entry with the ones above it that are merged into it. -/
def merged (merge : List HistoryEntry) (entry : HistoryEntry) : HistoryEntry :=
  { entry with
    transaction := { entry.transaction with editIds := entry.transaction.editIds ++ editsOf merge }
    lastEditAt := match merge.getLast? with | some last => last.lastEditAt | none => entry.lastEditAt }

theorem groupTrailing_eq {self : History} {front merge : List HistoryEntry} {entry : HistoryEntry}
    (hsta : self.undoStack = front ++ entry :: merge) :
    self.groupTrailing merge.length = ({ self with undoStack := front ++ [merged merge entry] }, some entry.transaction.id) := by
  have hlen : self.undoStack.length - merge.length = (front ++ [entry]).length := by
    rw [hsta]
    simp
    omega
  have hspl : self.undoStack = (front ++ [entry]) ++ merge := by
    rw [hsta, append_assoc]
    rfl
  unfold groupTrailing modifyTop
  rw [hlen, hspl]
  dsimp only
  rw [take_left, drop_left, getLast?_concat, dropLast_concat]
  rw [getLast?_concat]
  rfl

theorem groupCount_le (groupInterval : Nat) (entry : HistoryEntry) (entries : List HistoryEntry) :
    groupCount groupInterval entry entries ≤ entries.length := by
  induction entries generalizing entry with
  | nil => exact le_rfl
  | cons prev entries ih =>
    rw [groupCount]
    split
    · exact Nat.succ_le_succ (ih prev)
    · exact Nat.zero_le _

/-- Each edit is in the stacks as often as it was. -/
def KeepsEdits (old new : History) : Prop := new.editIds.Perm old.editIds

/-- The transactions of both stacks. -/
def transactionIds (self : History) : List Lamport := idsOf (self.undoStack ++ self.redoStack)

/-- No command loses edits, and a merge into a transaction that does not exist changes no stack. -/
def LosesNoEdits (self : History) (transaction destination : Lamport) : Prop :=
  KeepsEdits self (self.mergeTransactions transaction destination) ∧ (destination ∉ self.transactionIds →
      (self.mergeTransactions transaction destination).undoStack = self.undoStack ∧
        (self.mergeTransactions transaction destination).redoStack = self.redoStack) ∧
    KeepsEdits self self.group.1 ∧ KeepsEdits self (self.groupUntil transaction) ∧
    KeepsEdits self (self.removeFromUndo transaction).1 ∧ KeepsEdits self (self.removeFromUndoUntil transaction).1 ∧
    KeepsEdits self (self.removeFromRedo transaction).1 ∧ KeepsEdits self self.popUndo.1 ∧ KeepsEdits self self.popRedo.1

/-- The destination is still there when the transaction has been taken out, or there are no edits to lose. -/
def CanMerge (self : History) (transaction destination : Lamport) : Prop :=
  transaction ∉ self.transactionIds ∨ destination ∈ self.transactionIds.erase transaction ∨
    destination = transaction ∧ ∀ found ∈ self.transaction transaction, found.editIds = []

section Stacks

variable {self : History} {transactionId : Lamport} {above below : List HistoryEntry} {entry : HistoryEntry}

theorem KeepsEdits.refl (self : History) : KeepsEdits self self := List.Perm.refl _

/-- Moving entries keeps the edits. -/
theorem keepsEdits_of_perm {new : History} (h : (new.undoStack ++ new.redoStack).Perm (self.undoStack ++ self.redoStack)) :
    KeepsEdits self new :=
  h.flatMap_right _

theorem keepsEdits_popUndo (self : History) : KeepsEdits self self.popUndo.1 := by
  unfold popUndo
  split
  · rename_i entry hent
    obtain ⟨front, hsta⟩ := getLast?_eq_some_iff.mp hent
    refine keepsEdits_of_perm (perm_iff_count.mpr fun a => ?_)
    simp only [hsta, dropLast_concat, count_append]
    omega
  · exact KeepsEdits.refl self

theorem keepsEdits_popRedo (self : History) : KeepsEdits self self.popRedo.1 := by
  unfold popRedo
  split
  · rename_i entry hent
    obtain ⟨front, hsta⟩ := getLast?_eq_some_iff.mp hent
    refine keepsEdits_of_perm (perm_iff_count.mpr fun a => ?_)
    simp only [hsta, dropLast_concat, count_append]
    omega
  · exact KeepsEdits.refl self

theorem keepsEdits_removeFromUndo (self : History) (transactionId : Lamport) :
    KeepsEdits self (self.removeFromUndo transactionId).1 := by
  unfold removeFromUndo
  split
  · rename_i above entry below hspl
    refine keepsEdits_of_perm (perm_iff_count.mpr fun a => ?_)
    simp only [eq_of_splitAt_reverse hspl, count_append, count_cons, count_reverse, count_nil]
    omega
  · exact KeepsEdits.refl self

theorem keepsEdits_removeFromUndoUntil (self : History) (transactionId : Lamport) :
    KeepsEdits self (self.removeFromUndoUntil transactionId).1 := by
  unfold removeFromUndoUntil
  split
  · rename_i above entry below hspl
    refine keepsEdits_of_perm (perm_iff_count.mpr fun a => ?_)
    simp only [eq_of_splitAt_reverse hspl, count_append, count_cons, count_reverse, count_nil]
    omega
  · exact KeepsEdits.refl self

theorem keepsEdits_removeFromRedo (self : History) (transactionId : Lamport) :
    KeepsEdits self (self.removeFromRedo transactionId).1 := by
  unfold removeFromRedo
  split
  · rename_i above entry below hspl
    refine keepsEdits_of_perm (perm_iff_count.mpr fun a => ?_)
    simp only [eq_of_splitAt_reverse hspl, count_append, count_cons, count_reverse, count_nil]
    omega
  · exact KeepsEdits.refl self

/-! ### Grouping -/

/-- Merging entries into the one below them keeps the edits, as long as there is one below them. -/
theorem keepsEdits_groupTrailing (self : History) {n : Nat} (h : n < self.undoStack.length) :
    KeepsEdits self (self.groupTrailing n).1 := by
  obtain ⟨below, merge, hsta, rfl⟩ : ∃ below merge, self.undoStack = below ++ merge ∧ n = merge.length :=
    ⟨self.undoStack.take (self.undoStack.length - n), self.undoStack.drop _, (take_append_drop _ _).symm, by rw [length_drop]; omega⟩
  rcases eq_nil_or_concat below with rfl | ⟨front, entry, rfl⟩
  · rw [hsta] at h
    exact absurd h (lt_irrefl _)
  · rw [concat_eq_append, append_assoc, singleton_append] at hsta
    rw [groupTrailing_eq hsta]
    unfold KeepsEdits editIds
    rw [hsta]
    simp [merged, flatMap_append]

variable {stack : List HistoryEntry}

/-- There is an entry below the ones that are grouped. -/
theorem groupUntilCount_lt {count : Nat} (h : groupUntilCount transactionId stack = some count) : count < stack.length := by
  induction stack generalizing count with
  | nil => nomatch h
  | cons entry stack ih =>
    rw [groupUntilCount] at h
    split at h
    · obtain rfl := some.inj h
      exact Nat.zero_lt_succ _
    · split at h
      · nomatch h
      · obtain ⟨smaller, hsmlr, rfl⟩ := map_eq_some_iff.mp h
        exact Nat.succ_lt_succ (ih hsmlr)

theorem keepsEdits_groupUntil (self : History) (transactionId : Lamport) : KeepsEdits self (self.groupUntil transactionId) := by
  unfold groupUntil
  split
  · rename_i count hcnt
    have hlt := groupUntilCount_lt hcnt
    rw [length_reverse] at hlt
    exact keepsEdits_groupTrailing self hlt
  · exact KeepsEdits.refl self

theorem keepsEdits_group (self : History) : KeepsEdits self self.group.1 := by
  unfold group
  split
  · rename_i entry entries hsta
    have hle := groupCount_le self.groupInterval entry entries
    have hlen := congrArg List.length hsta
    rw [length_reverse, length_cons] at hlen
    exact keepsEdits_groupTrailing self (by omega)
  · rename_i hsta
    have hemp : self.undoStack = [] := reverse_eq_nil_iff.mp hsta
    unfold KeepsEdits groupTrailing editIds
    simp [hemp, modifyTop]

/-! ### Merging -/

/-- A transaction that is not found has no entry. -/
theorem ne_of_splitAt (h : splitAt transactionId stack = none) : ∀ entry ∈ stack, entry.transaction.id ≠ transactionId := by
  induction stack with
  | nil => exact forall_mem_nil _
  | cons top stack ih =>
    rw [splitAt] at h
    split at h
    · cases h
    · rename_i htop
      exact forall_mem_cons.mpr ⟨htop, ih (map_eq_none_iff.mp h)⟩

theorem notMem_of_splitAt_reverse (h : splitAt transactionId stack.reverse = none) : transactionId ∉ idsOf stack := by
  intro hmem
  obtain ⟨entry, hent, hid⟩ := mem_map.mp hmem
  exact ne_of_splitAt h _ (mem_reverse.mpr hent) hid

/-- Taking out a transaction: its edits are gone, and its entry. -/
theorem forget_spec (self : History) (transactionId : Lamport) :
    transactionId ∉ self.transactionIds ∧ self.forget transactionId = (self, none) ∨
      ∃ found, self.transaction transactionId = some found ∧ (self.forget transactionId).2 = some found ∧
        self.editIds.Perm (found.editIds ++ (self.forget transactionId).1.editIds) ∧
        self.transactionIds.Perm (transactionId :: (self.forget transactionId).1.transactionIds) := by
  unfold forget transaction
  cases hundo : splitAt _ _ with
  | some parts =>
    obtain ⟨above, entry, below⟩ := parts
    have hid := (splitAt_eq_some hundo).2
    refine .inr ⟨entry.transaction, rfl, rfl, perm_iff_count.mpr fun a => ?_, perm_iff_count.mpr fun a => ?_⟩
    · simp only [editIds, eq_of_splitAt_reverse hundo, flatMap_append, flatMap_cons, count_append]
      omega
    · simp only [transactionIds, idsOf, eq_of_splitAt_reverse hundo, map_append, map_cons, count_append, count_cons, hid]
      omega
  | none =>
    cases hredo : splitAt _ _ with
    | some parts =>
      obtain ⟨above, entry, below⟩ := parts
      have hid := (splitAt_eq_some hredo).2
      refine .inr ⟨entry.transaction, rfl, rfl, perm_iff_count.mpr fun a => ?_, perm_iff_count.mpr fun a => ?_⟩
      · simp only [editIds, eq_of_splitAt_reverse hredo, flatMap_append, flatMap_cons, count_append]
        omega
      · simp only [transactionIds, idsOf, eq_of_splitAt_reverse hredo, map_append, map_cons, count_append, count_cons, hid]
        omega
    | none =>
      refine .inl ⟨?_, rfl⟩
      rw [transactionIds, idsOf, map_append, mem_append, not_or]
      exact ⟨notMem_of_splitAt_reverse hundo, notMem_of_splitAt_reverse hredo⟩

/-- What a transaction is given is in the stacks, where there is the transaction. -/
theorem transactionMut_spec (self : History) (transactionId : Lamport) (ids : List Lamport) :
    let f := fun found : Transaction => { found with editIds := found.editIds ++ ids }
    transactionId ∉ self.transactionIds ∧ self.transactionMut transactionId f = self ∨
      transactionId ∈ self.transactionIds ∧ (self.transactionMut transactionId f).editIds.Perm (ids ++ self.editIds) := by
  intro f
  unfold transactionMut modifyFound
  cases hundo : splitAt _ _ with
  | some parts =>
    have hid := (splitAt_eq_some hundo).2
    have hsta := eq_of_splitAt_reverse hundo
    refine .inr ⟨?_, perm_iff_count.mpr fun a => ?_⟩
    · simp [transactionIds, idsOf, hsta, hid]
    · simp only [editIds, hsta, map_some, f, flatMap_append, flatMap_cons, count_append]
      omega
  | none =>
    cases hredo : splitAt _ _ with
    | some parts =>
      have hid := (splitAt_eq_some hredo).2
      have hsta := eq_of_splitAt_reverse hredo
      refine .inr ⟨?_, perm_iff_count.mpr fun a => ?_⟩
      · simp [transactionIds, idsOf, hsta, hid]
      · simp only [editIds, hsta, map_some, map_none, f, flatMap_append, flatMap_cons, count_append]
        omega
    | none =>
      refine .inl ⟨?_, rfl⟩
      rw [transactionIds, idsOf, map_append, mem_append, not_or]
      exact ⟨notMem_of_splitAt_reverse hundo, notMem_of_splitAt_reverse hredo⟩

/-- A merge keeps the edits exactly when there is a transaction that they can go to. -/
theorem keepsEdits_mergeTransactions (self : History) (transaction destination : Lamport) :
    (KeepsEdits self (self.mergeTransactions transaction destination) ∧ (destination ∉ self.transactionIds →
        (self.mergeTransactions transaction destination).undoStack = self.undoStack ∧
          (self.mergeTransactions transaction destination).redoStack = self.redoStack)) ↔
      self.CanMerge transaction destination := by
  rcases self.forget_spec _ with ⟨hnone, hfor⟩ | ⟨found, hfnd, hsome, hedit, hids⟩
  · have hmer : self.mergeTransactions transaction destination = self := by rw [mergeTransactions, hfor]
    rw [hmer]
    exact ⟨fun _ => .inl hnone, fun _ => ⟨KeepsEdits.refl self, fun _ => ⟨rfl, rfl⟩⟩⟩
  · have hmem : transaction ∈ self.transactionIds := hids.mem_iff.mpr mem_cons_self
    have hrest : (self.transactionIds.erase transaction).Perm (self.forget transaction).1.transactionIds := by
      simpa using hids.erase transaction
    have hmer : self.mergeTransactions transaction destination =
        (self.forget transaction).1.transactionMut destination fun entry =>
          { entry with editIds := entry.editIds ++ found.editIds } := by
      have hfor : self.forget transaction = ((self.forget transaction).1, some found) := Prod.ext rfl hsome
      rw [mergeTransactions, hfor]
    rcases (self.forget _).1.transactionMut_spec _ _ with
      ⟨hmiss, hsame⟩ | ⟨hpre, hperm⟩
    · rw [hmer, hsame]
      constructor
      · rintro ⟨hkept, hsta⟩
        have hemp : found.editIds = [] := by
          have hlen := hedit.length_eq
          rw [length_append, ← hkept.length_eq] at hlen
          exact length_eq_zero_iff.mp (by omega)
        have hdes : destination ∈ self.transactionIds := by
          by_contra hnot
          obtain ⟨hundo, hredo⟩ := hsta hnot
          have hlen := hids.length_eq
          rw [transactionIds, transactionIds, hundo, hredo, length_cons] at hlen
          omega
        rcases mem_cons.mp (hids.mem_iff.mp hdes) with rfl | hin
        · refine .inr (.inr ⟨rfl, fun other hoth => ?_⟩)
          obtain rfl := some.inj (hfnd.symm.trans hoth)
          exact hemp
        · exact absurd hin hmiss
      · rintro (hnone | hin | ⟨rfl, hemp⟩)
        · exact absurd hmem hnone
        · exact absurd (hrest.mem_iff.mp hin) hmiss
        · rw [hemp _ hfnd] at hedit
          exact ⟨hedit.symm, fun hnot => absurd hmem hnot⟩
    · have hdes : destination ∈ self.transactionIds := hids.mem_iff.mpr (.tail _ hpre)
      rw [hmer]
      exact ⟨fun _ => .inr (.inl (hrest.mem_iff.mpr hpre)), fun _ => ⟨hperm.trans hedit.symm, fun hnot => absurd hdes hnot⟩⟩

end Stacks

/-- The commands lose no edits exactly when a merge has a transaction to merge into. -/
theorem loses_no_edits_iff (self : History) (transaction destination : Lamport) :
    self.LosesNoEdits transaction destination ↔ self.CanMerge transaction destination := by
  rw [← self.keepsEdits_mergeTransactions transaction destination]
  constructor
  · rintro ⟨hmerge, hstacks, -⟩
    exact ⟨hmerge, hstacks⟩
  · rintro ⟨hmerge, hstacks⟩
    exact ⟨hmerge, hstacks, self.keepsEdits_group, self.keepsEdits_groupUntil transaction,
      self.keepsEdits_removeFromUndo transaction, self.keepsEdits_removeFromUndoUntil transaction,
      self.keepsEdits_removeFromRedo transaction, self.keepsEdits_popUndo, self.keepsEdits_popRedo⟩

/-- The history of an empty buffer after a transaction with one edit. -/
def oneEdit : History :=
  let clock : Lamport := ⟨1, .localReplica⟩
  let (started, clock, _) := (new [] 300).startTransaction .new 0 clock
  let op : Operation := .edit ⟨clock, .new, [⟨0, 0⟩], [[97]]⟩
  ((started.push op).pushUndo clock).endTransaction 0 |>.1

/-- The edit is in no stack any more when its transaction is merged into one that does not exist. -/
theorem merge_into_nothing_loses_edits : ¬ oneEdit.LosesNoEdits ⟨1, .localReplica⟩ ⟨5, .localReplica⟩ := by
  intro h
  have hlength := h.1.length_eq
  revert hlength
  decide

end Wu.History
