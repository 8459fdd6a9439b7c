import Wu.Text.Buffer

/-!
# Networks of replicas

Replicas of one base text take commands of their users, which make operations, and are handed operations that others have
made, in any order and any number of times. `sent`, `received` and `applied` are records of the run for what is said about
it; no buffer reads them.
-/

namespace Wu

/-! ## What takes effect -/

namespace Buffer

/-- Whether `apply_op` changes the text: the timestamp has not been observed. -/
def takesEffect (self : Buffer) (op : Operation) : Bool := !self.version.observed op.timestamp

/-- An application of an operation: the version before it, and the operation. -/
abbrev Applied := Global × Operation

/-- The operations that take effect in the loop over received operations. -/
def receiveLog : List Operation → Buffer → List Applied
  | [], _ => []
  | op :: ops, self =>
    let self := self.pushHistory op
    if self.canApplyOp op then
      (if self.takesEffect op then [(self.version, op)] else []) ++ receiveLog ops (self.applyOp op)
    else receiveLog ops (self.deferReplica op)

/-- The operations that take effect in the loop over the deferred operations. -/
def flushLog : List Operation → Buffer → List Applied
  | [], _ => []
  | op :: ops, self =>
    if self.canApplyOp op then
      (if self.takesEffect op then [(self.version, op)] else []) ++ flushLog ops (self.applyOp op)
    else flushLog ops (self.deferReplica op)

/-- The operations that take effect when operations are received. -/
def applyOpsLog (self : Buffer) (ops : List Operation) : List Applied :=
  let (received, deferred) := receiveLoop ops self
  let queue := OperationQueue.insert received.deferredOps deferred
  receiveLog ops self ++ flushLog queue { received with deferredReplicas := [], deferredOps := [] }

end Buffer

/-! ## Commands -/

/-- What the user of a replica does. -/
inductive Command where
  | edit (edits : List (Span × Text)) (started ended : Nat)
  | startTransaction (now : Nat)
  | endTransaction (now : Nat)
  | undo
  | redo
  | undoTransaction (transactionId : Lamport)
  | undoToTransaction (transactionId : Lamport)
  | redoToTransaction (transactionId : Lamport)
  | undoOrRedo (transaction : Transaction)
  | groupUntilTransaction (transactionId : Lamport)
  | finalizeLastTransaction
  | subscribe

/-- Ranges in order, each one inside the text and after the one before it. -/
def SortedRanges (len : Nat) : Nat → List Span → Prop
  | _, [] => True
  | from_, range :: ranges =>
    from_ ≤ range.start ∧ range.start ≤ range.stop ∧ range.stop ≤ len ∧ SortedRanges len range.stop ranges

instance decidableSortedRanges (len : Nat) : ∀ from_ ranges, Decidable (SortedRanges len from_ ranges)
  | _, [] => isTrue trivial
  | from_, range :: ranges =>
    have := decidableSortedRanges len range.stop ranges
    inferInstanceAs (Decidable (from_ ≤ range.start ∧ range.start ≤ range.stop ∧ range.stop ≤ len ∧ _))

namespace Buffer

/-- The transactions of both stacks. -/
def transactions (self : Buffer) : List Transaction :=
  (self.history.undoStack ++ self.history.redoStack).map (·.transaction)

/-- What the code asks of a command: sorted ranges that start and end at characters of the text, a transaction that is open
or none that is. -/
def Allows (self : Buffer) : Command → Prop
  | .edit edits _ _ =>
    SortedRanges self.text.length 0 (edits.map (·.1)) ∧ ∀ edit ∈ edits, Text.isCharBoundary self.text edit.1.start = true ∧
        Text.isCharBoundary self.text edit.1.stop = true ∧ Text.Valid edit.2
  | .startTransaction _ => True
  | .endTransaction _ => 0 < self.history.transactionDepth
  | .undo => self.history.transactionDepth = 0
  | .redo => self.history.transactionDepth = 0
  | .undoTransaction _ => self.history.transactionDepth = 0
  | .undoToTransaction _ => self.history.transactionDepth = 0
  | .redoToTransaction _ => self.history.transactionDepth = 0
  | .undoOrRedo transaction => transaction ∈ self.transactions
  | .groupUntilTransaction _ => True
  | .finalizeLastTransaction => True
  | .subscribe => True

/-- Take a command: the buffer after it, and the operations it makes. -/
def perform (self : Buffer) : Command → Buffer × List Operation
  | .edit edits started ended =>
    let (self, op) := self.edit edits started ended
    (self, [op])
  | .startTransaction now => (self.startTransactionAt now, [])
  | .endTransaction now => (self.endTransactionAt now, [])
  | .undo =>
    let (self, op) := self.undo
    (self, op.toList)
  | .redo =>
    let (self, op) := self.redo
    (self, op.toList)
  | .undoTransaction transactionId =>
    let (self, op) := self.undoTransaction transactionId
    (self, op.toList)
  | .undoToTransaction transactionId => self.undoToTransaction transactionId
  | .redoToTransaction transactionId => self.redoToTransaction transactionId
  | .undoOrRedo transaction =>
    let (self, op) := self.undoOrRedo transaction
    (self, [op])
  | .groupUntilTransaction transactionId => (self.groupUntilTransaction transactionId, [])
  | .finalizeLastTransaction => (self.finalizeLastTransaction, [])
  | .subscribe => (self.subscribe, [])

end Buffer

/-! ## Runs -/

/-- A buffer for each replica, and what has happened: the operations made so far, those each replica has been handed, and
those that have taken effect there, its own among them. -/
structure Network where
  buffers : ReplicaId → Buffer
  sent : List Operation
  received : ReplicaId → List Operation
  applied : ReplicaId → List Operation

namespace Network

/-- New replicas of a base text. -/
def init (baseText : Text) (groupInterval : ReplicaId → Nat) : Network where
  buffers replicaId := Buffer.new replicaId (groupInterval replicaId) baseText
  sent := []
  received _ := []
  applied _ := []

/-- A replica takes a command. -/
def perform (self : Network) (replicaId : ReplicaId) (command : Command) : Network :=
  let (buffer, ops) := (self.buffers replicaId).perform command
  { buffers := Function.update self.buffers replicaId buffer
    sent := self.sent ++ ops
    received := self.received
    applied := Function.update self.applied replicaId (self.applied replicaId ++ ops) }

/-- A replica is handed operations. -/
def deliver (self : Network) (replicaId : ReplicaId) (ops : List Operation) : Network :=
  { buffers := Function.update self.buffers replicaId ((self.buffers replicaId).applyOps ops)
    sent := self.sent
    received := Function.update self.received replicaId (self.received replicaId ++ ops)
    applied :=
      Function.update self.applied replicaId
        (self.applied replicaId ++ ((self.buffers replicaId).applyOpsLog ops).map (·.2)) }

/-- One step of a run. -/
inductive Step (self : Network) : Network → Prop where
  | perform (replicaId : ReplicaId) (command : Command) (allowed : (self.buffers replicaId).Allows command) :
      Step self (self.perform replicaId command)
  | deliver (replicaId : ReplicaId) (ops : List Operation) (sent : ∀ op ∈ ops, op ∈ self.sent) :
      Step self (self.deliver replicaId ops)

/-- The steps of a run, any number of them. -/
abbrev Steps : Network → Network → Prop := Relation.ReflTransGen Step

/-- The networks that a run from new replicas of a base text leads to. -/
def Reachable (baseText : Text) (self : Network) : Prop :=
  ∃ groupInterval, Steps (init baseText groupInterval) self

end Network

end Wu
