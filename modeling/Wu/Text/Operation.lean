import Wu.Clock
import Wu.KeyedList
import Wu.Text.Str

/-!
# Operations, the undo map and the queue of deferred operations

The operations that replicas send each other. An undo operation carries a count for each edit; the undo map keeps every
count, and an edit is undone when the largest of its counts is odd. The queue keeps operations in Lamport order.
-/

namespace Wu

/-- A half-open range. -/
@[ext] structure Span where
  start : Nat
  stop : Nat
  deriving DecidableEq, Repr

/-- An edit: the ranges to delete, as offsets among everything the version has observed, and the text for each. -/
structure EditOperation where
  timestamp : Lamport
  version : Global
  ranges : List Span
  newText : List Text
  deriving DecidableEq, Repr

/-- An undo or a redo: the new count of each edit. -/
structure UndoOperation where
  timestamp : Lamport
  version : Global
  counts : List (Lamport × Nat)
  deriving DecidableEq, Repr

/-- What replicas send each other. -/
inductive Operation where
  | edit (operation : EditOperation)
  | undo (operation : UndoOperation)
  deriving DecidableEq, Repr

namespace Operation

/-- The operation's own timestamp. -/
def timestamp : Operation → Lamport
  | edit operation => operation.timestamp
  | undo operation => operation.timestamp

/-- What the operation's replica had observed before it. -/
def version : Operation → Global
  | edit operation => operation.version
  | undo operation => operation.version

/-- The replica that made the operation. -/
def replicaId (self : Operation) : ReplicaId := self.timestamp.replicaId

/-- Whether the operation is an edit. -/
def isEdit : Operation → Bool
  | edit _ => true
  | undo _ => false

end Operation

/-! ## The undo map -/

/-- A count of an edit, from an undo operation. -/
structure UndoMapEntry where
  editId : Lamport
  undoId : Lamport
  undoCount : Nat
  deriving DecidableEq, Repr

/-- Entries are sorted by the edit and then by the undo operation. -/
def UndoMapEntry.key (self : UndoMapEntry) : Lex (Lamport × Lamport) := toLex (self.editId, self.undoId)

/-- The counts of all edits. -/
abbrev UndoMap := List UndoMapEntry

namespace UndoMap

/-- The entries of an undo operation. -/
def entries (undo : UndoOperation) : List UndoMapEntry :=
  undo.counts.map fun count => ⟨count.1, undo.timestamp, count.2⟩

/-- Keep the counts of an undo operation. -/
def insert (self : UndoMap) (undo : UndoOperation) : UndoMap := KeyedList.edit UndoMapEntry.key (entries undo) self

/-- The entries of an edit. -/
def entriesOf (self : UndoMap) (editId : Lamport) : List UndoMapEntry :=
  (KeyedList.iterFrom UndoMapEntry.key (toLex (editId, Lamport.min)) self).takeWhile fun entry => entry.editId = editId

/-- The largest count of an edit. -/
def undoCount (self : UndoMap) (editId : Lamport) : Nat :=
  (entriesOf self editId).foldl (fun count entry => max count entry.undoCount) 0

/-- Whether an edit is undone. -/
def isUndone (self : UndoMap) (editId : Lamport) : Bool := undoCount self editId % 2 == 1

/-- The largest count of an edit that a version had observed. -/
def undoCountAt (self : UndoMap) (editId : Lamport) (version : Global) : Nat :=
  (entriesOf self editId).foldl (fun count entry => if version.observed entry.undoId then max count entry.undoCount else count) 0

/-- Whether an edit was undone at a version. -/
def wasUndone (self : UndoMap) (editId : Lamport) (version : Global) : Bool := undoCountAt self editId version % 2 == 1

end UndoMap

/-! ## The queue of deferred operations -/

/-- The deferred operations. -/
abbrev OperationQueue := List Operation

namespace OperationQueue

/-- The operations without those that have the timestamp of the one before. -/
def dedup : List Operation → List Operation
  | [] => []
  | op :: ops =>
    match dedup ops with
    | [] => [op]
    | next :: rest => if op.timestamp = next.timestamp then op :: rest else op :: next :: rest

/-- Queue operations. -/
def insert (self : OperationQueue) (ops : List Operation) : OperationQueue :=
  KeyedList.edit Operation.timestamp (dedup (KeyedList.sort Operation.timestamp ops)) self

/-- A queue is sorted. -/
def Sorted (self : OperationQueue) : Prop := KeyedList.Sorted Operation.timestamp self

end OperationQueue

end Wu
