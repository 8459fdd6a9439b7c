import Wu.Text.History

/-!
# Buffers

A buffer is a replica's snapshot with its clock, its history, the operations it cannot apply yet and the patches of its
subscriptions.
-/

namespace Wu

/-- A replica of a text. -/
structure Buffer where
  snapshot : BufferSnapshot
  history : History
  deferredOps : OperationQueue
  deferredReplicas : List ReplicaId
  lamportClock : Lamport
  subscriptions : List Patch
  deriving Repr

namespace Buffer

/-! ## Creation -/

/-- The fragments of the base text, from the lengths of its parts. -/
def baseFragments (timestamp : Lamport) : List Nat → Nat → Locator → List Fragment
  | [], _, _ => []
  | chunkLen :: chunks, insertionOffset, prevLocator =>
    let fragmentId := Locator.between prevLocator Locator.max
    { id := fragmentId
      timestamp := timestamp
      insertionOffset := insertionOffset
      len := chunkLen
      visible := true
      deletions := []
      maxUndos := Global.new } :: baseFragments timestamp chunks (insertionOffset + chunkLen) fragmentId

/-- A buffer with a text whose line endings are normal. -/
def newNormalized (replicaId : ReplicaId) (groupInterval : Nat) (normalized : Text) : Buffer :=
  let insertionTimestamp := Lamport.new ReplicaId.localReplica
  let fragments := baseFragments insertionTimestamp (chunkLens normalized normalized.length 0) 0 Locator.min
  { snapshot :=
      { visibleText := normalized
        deletedText := []
        fragments := fragments
        insertions := fragments.map InsertionFragment.new
        insertionSlices := []
        undoMap := []
        version := if normalized.isEmpty then Global.new else Global.new.observe insertionTimestamp }
    history := History.new normalized groupInterval
    deferredOps := []
    deferredReplicas := []
    lamportClock :=
      if normalized.isEmpty then Lamport.new replicaId else (Lamport.new replicaId).observe insertionTimestamp
    subscriptions := [] }

/-- A new buffer. -/
def new (replicaId : ReplicaId) (groupInterval : Nat) (baseText : Text) : Buffer :=
  newNormalized replicaId groupInterval baseText.normalize

/-- The version of a buffer. -/
def version (self : Buffer) : Global := self.snapshot.version

/-- The visible text. -/
def text (self : Buffer) : Text := self.snapshot.visibleText

/-! ## Subscriptions -/

/-- Subscribe to the edits from now on. -/
def subscribe (self : Buffer) : Buffer := { self with subscriptions := self.subscriptions ++ [[]] }

/-- Every subscription's patch goes on with the edits. -/
def publish (self : Buffer) (edits : Patch) : Buffer :=
  { self with subscriptions := self.subscriptions.map fun patch => Patch.compose patch edits }

/-! ## Operations of other replicas -/

/-- Whether an operation can be applied: no operation of its replica is deferred, and its version is observed. -/
def canApplyOp (self : Buffer) (op : Operation) : Bool :=
  if self.deferredReplicas.contains op.replicaId then false else self.version.observedAll op.version

/-- The version and the clock observe a timestamp. -/
def observe (self : Buffer) (timestamp : Lamport) : Buffer :=
  { self with
    snapshot := { self.snapshot with version := self.snapshot.version.observe timestamp }
    lamportClock := self.lamportClock.observe timestamp }

/-- Apply the edit of another replica. -/
def applyRemoteEdit (self : Buffer) (edit : EditOperation) : Buffer :=
  let (snapshot, patch) := self.snapshot.applyRemoteEdit edit.version edit.ranges edit.newText edit.timestamp
  { self with snapshot := snapshot }.publish patch

/-- Apply an undo operation. -/
def applyUndo (self : Buffer) (undo : UndoOperation) : Buffer :=
  let (snapshot, patch) := self.snapshot.applyUndo undo
  { self with snapshot := snapshot }.publish patch

/-- Apply an operation, unless its timestamp has been observed. -/
def applyOp (self : Buffer) (op : Operation) : Buffer :=
  match op with
  | .edit edit =>
    if !self.version.observed edit.timestamp then (self.applyRemoteEdit edit).observe edit.timestamp else self
  | .undo undo => if !self.version.observed undo.timestamp then (self.applyUndo undo).observe undo.timestamp else self

/-- Record an operation in the history. -/
def pushHistory (self : Buffer) (op : Operation) : Buffer := { self with history := self.history.push op }

/-- An operation of the replica is deferred. -/
def deferReplica (self : Buffer) (op : Operation) : Buffer :=
  { self with deferredReplicas := op.replicaId :: self.deferredReplicas }

/-- The loop over received operations: apply what can be applied, and give back the rest. -/
def receiveLoop : List Operation → Buffer → Buffer × List Operation
  | [], self => (self, [])
  | op :: ops, self =>
    let self := self.pushHistory op
    if self.canApplyOp op then receiveLoop ops (self.applyOp op)
    else
      let (self, deferred) := receiveLoop ops (self.deferReplica op)
      (self, op :: deferred)

/-- The loop over the deferred operations. -/
def flushLoop : List Operation → Buffer → Buffer × List Operation
  | [], self => (self, [])
  | op :: ops, self =>
    if self.canApplyOp op then flushLoop ops (self.applyOp op)
    else
      let (self, deferred) := flushLoop ops (self.deferReplica op)
      (self, op :: deferred)

/-- Apply the deferred operations that can be applied now. -/
def flushDeferredOps (self : Buffer) : Buffer :=
  let queue := self.deferredOps
  let (self, deferred) := flushLoop queue { self with deferredReplicas := [], deferredOps := [] }
  { self with deferredOps := OperationQueue.insert self.deferredOps deferred }

/-- Receive operations of other replicas. -/
def applyOps (self : Buffer) (ops : List Operation) : Buffer :=
  let (self, deferred) := receiveLoop ops self
  { self with deferredOps := OperationQueue.insert self.deferredOps deferred }.flushDeferredOps

/-! ## Transactions -/

/-- Start a transaction. -/
def startTransactionAt (self : Buffer) (now : Nat) : Buffer :=
  let (history, clock, _) := self.history.startTransaction self.version now self.lamportClock
  { self with history := history, lamportClock := clock }

/-- End a transaction, and group it with the ones before. -/
def endTransactionAt (self : Buffer) (now : Nat) : Buffer :=
  match self.history.endTransaction now with
  | (history, some _) => { self with history := history.group.1 }
  | (history, none) => { self with history := history }

/-- The last transaction is not grouped with later ones. -/
def finalizeLastTransaction (self : Buffer) : Buffer := { self with history := self.history.finalizeLastTransaction }

/-- Group the last transactions down to one. -/
def groupUntilTransaction (self : Buffer) (transactionId : Lamport) : Buffer :=
  { self with history := self.history.groupUntil transactionId }

/-! ## Local edits -/

/-- Edit the text. The offsets go back to boundaries of characters. -/
def applyLocalEdit (self : Buffer) (edits : List (Span × Text)) (timestamp : Lamport) : Buffer × EditOperation :=
  let toOffset := self.text.floorCharBoundary
  let edits := edits.map fun edit => (⟨toOffset edit.1.start, toOffset edit.1.stop⟩, edit.2)
  let (snapshot, op, patch) := self.snapshot.applyEditInternal edits timestamp
  ({ self with snapshot := snapshot }.publish patch, op)

/-- Edit the text in a transaction; `started` and `ended` are the times when it starts and ends. -/
def edit (self : Buffer) (edits : List (Span × Text)) (started ended : Nat) : Buffer × Operation :=
  let self := self.startTransactionAt started
  let (timestamp, clock) := self.lamportClock.tick
  let (self, op) := { self with lamportClock := clock }.applyLocalEdit edits timestamp
  let self := { self with history := (self.history.push (.edit op)).pushUndo op.timestamp }
  let self := { self with snapshot := { self.snapshot with version := self.snapshot.version.observe op.timestamp } }
  (self.endTransactionAt ended, .edit op)

/-! ## Undo and redo -/

/-- Undo or redo edits: each gets the given count. -/
def undoOperations (self : Buffer) (counts : List (Lamport × Nat)) : Buffer × Operation :=
  let (timestamp, clock) := self.lamportClock.tick
  let version := self.version
  let self :=
    { self with
      lamportClock := clock
      snapshot := { self.snapshot with version := self.snapshot.version.observe timestamp } }
  let undo : UndoOperation := ⟨timestamp, version, counts⟩
  (self.applyUndo undo, .undo undo)

/-- Undo a transaction, or redo it when it is undone. -/
def undoOrRedo (self : Buffer) (transaction : Transaction) : Buffer × Operation :=
  let counts := transaction.editIds.dedup.map fun editId => (editId, UndoMap.undoCount self.snapshot.undoMap editId + 1)
  let (self, op) := self.undoOperations counts
  (self.pushHistory op, op)

/-- Undo or redo transactions one by one. -/
def undoOrRedoAll : List Transaction → Buffer → Buffer × List Operation
  | [], self => (self, [])
  | transaction :: transactions, self =>
    let (self, op) := self.undoOrRedo transaction
    let (self, ops) := undoOrRedoAll transactions self
    (self, op :: ops)

/-- Undo the last transaction. -/
def undo (self : Buffer) : Buffer × Option Operation :=
  match self.history.popUndo with
  | (history, some entry) =>
    let (self, op) := { self with history := history }.undoOrRedo entry.transaction
    (self, some op)
  | (history, none) => ({ self with history := history }, none)

/-- Redo the transaction that was undone last. -/
def redo (self : Buffer) : Buffer × Option Operation :=
  match self.history.popRedo with
  | (history, some entry) =>
    let (self, op) := { self with history := history }.undoOrRedo entry.transaction
    (self, some op)
  | (history, none) => ({ self with history := history }, none)

/-- Undo a transaction. -/
def undoTransaction (self : Buffer) (transactionId : Lamport) : Buffer × Option Operation :=
  match self.history.removeFromUndo transactionId with
  | (history, some entry) =>
    let (self, op) := { self with history := history }.undoOrRedo entry.transaction
    (self, some op)
  | (history, none) => ({ self with history := history }, none)

/-- Undo the last transactions down to one. -/
def undoToTransaction (self : Buffer) (transactionId : Lamport) : Buffer × List Operation :=
  let (history, entries) := self.history.removeFromUndoUntil transactionId
  undoOrRedoAll (entries.map (·.transaction)) { self with history := history }

/-- Redo transactions down to one. -/
def redoToTransaction (self : Buffer) (transactionId : Lamport) : Buffer × List Operation :=
  let (history, entries) := self.history.removeFromRedo transactionId
  undoOrRedoAll (entries.map (·.transaction)) { self with history := history }

end Buffer

end Wu
