import Wu.Text.Snapshot

/-!
# The undo history

The stacks of transactions that can be undone and redone. Instants are numbers; a transaction is grouped with the one before
when it starts less than the group interval after that one's last edit.
-/

namespace Wu

/-- A transaction: the edits that are undone together. -/
structure Transaction where
  id : Lamport
  editIds : List Lamport
  start : Global
  deriving DecidableEq, Repr

/-- An entry of the undo or the redo stack. -/
structure HistoryEntry where
  transaction : Transaction
  firstEditAt : Nat
  lastEditAt : Nat
  suppressGrouping : Bool
  deriving DecidableEq, Repr

/-- The history of a buffer; a stack's last entry is its top. -/
structure History where
  baseText : Text
  operations : List Operation
  undoStack : List HistoryEntry
  redoStack : List HistoryEntry
  transactionDepth : Nat
  groupInterval : Nat
  deriving Repr

namespace History

/-- The history of a new buffer. -/
def new (baseText : Text) (groupInterval : Nat) : History := ⟨baseText, [], [], [], 0, groupInterval⟩

/-- Record an operation. -/
def push (self : History) (op : Operation) : History :=
  { self with operations := KeyedList.edit Operation.timestamp [op] self.operations }

/-- Start a transaction, unless one is open. -/
def startTransaction (self : History) (start : Global) (now : Nat) (clock : Lamport) : History × Lamport × Option Lamport :=
  let self := { self with transactionDepth := self.transactionDepth + 1 }
  if self.transactionDepth = 1 then
    let (id, clock) := clock.tick
    ({ self with undoStack := self.undoStack ++ [⟨⟨id, [], start⟩, now, now, false⟩] }, clock, some id)
  else (self, clock, none)

/-- The stack with its top changed. -/
def modifyTop (f : HistoryEntry → HistoryEntry) (stack : List HistoryEntry) : List HistoryEntry :=
  match stack.getLast? with
  | some entry => stack.dropLast ++ [f entry]
  | none => []

/-- End a transaction; there is one that is open. The redo stack is cleared when the outermost one has edits. -/
def endTransaction (self : History) (now : Nat) : History × Option HistoryEntry :=
  let self := { self with transactionDepth := self.transactionDepth - 1 }
  if self.transactionDepth = 0 then
    match self.undoStack.getLast? with
    | some entry =>
      if entry.transaction.editIds.isEmpty then ({ self with undoStack := self.undoStack.dropLast }, none)
      else
        let entry := { entry with lastEditAt := now }
        ({ self with redoStack := [], undoStack := self.undoStack.dropLast ++ [entry] }, some entry)
    | none => (self, none)
  else (self, none)

/-- Merge the last entries of the undo stack into the one before them. -/
def groupTrailing (self : History) (n : Nat) : History × Option Lamport :=
  let newLen := self.undoStack.length - n
  let keep := self.undoStack.take newLen
  let merge := self.undoStack.drop newLen
  let undoStack :=
    modifyTop (fun entry =>
      { entry with
        transaction :=
          { entry.transaction with
            editIds := entry.transaction.editIds ++ merge.flatMap fun entry => entry.transaction.editIds }
        lastEditAt := match merge.getLast? with | some last => last.lastEditAt | none => entry.lastEditAt }) keep
  ({ self with undoStack := undoStack }, undoStack.getLast?.map fun entry => entry.transaction.id)

/-- How many entries are grouped: `entries` are the ones below `entry`, the top one first. -/
def groupCount (groupInterval : Nat) : HistoryEntry → List HistoryEntry → Nat
  | _, [] => 0
  | entry, prev :: entries =>
    if !prev.suppressGrouping && entry.firstEditAt - prev.lastEditAt < groupInterval then
      groupCount groupInterval prev entries + 1
    else 0

/-- Group the last transaction with the ones shortly before it. -/
def group (self : History) : History × Option Lamport :=
  match self.undoStack.reverse with
  | entry :: entries => self.groupTrailing (groupCount self.groupInterval entry entries)
  | [] => self.groupTrailing 0

/-- How many entries are above the transaction, the top one first. -/
def groupUntilCount (transactionId : Lamport) : List HistoryEntry → Option Nat
  | [] => none
  | entry :: entries =>
    if entry.transaction.id = transactionId then some 0
    else if entry.suppressGrouping then none
    else (groupUntilCount transactionId entries).map (· + 1)

/-- Group the last transactions down to one. -/
def groupUntil (self : History) (transactionId : Lamport) : History :=
  match groupUntilCount transactionId self.undoStack.reverse with
  | some count => (self.groupTrailing count).1
  | none => self

/-- The last transaction is not grouped with later ones. -/
def finalizeLastTransaction (self : History) : History :=
  { self with undoStack := modifyTop (fun entry => { entry with suppressGrouping := true }) self.undoStack }

/-- Record an edit in the open transaction. -/
def pushUndo (self : History) (opId : Lamport) : History :=
  match KeyedList.find? Operation.timestamp opId self.operations with
  | some (.edit _) =>
    { self with
      undoStack := modifyTop (fun entry =>
        { entry with transaction := { entry.transaction with editIds := entry.transaction.editIds ++ [opId] } })
        self.undoStack }
  | _ => self

/-- Move the top of the undo stack to the redo stack. -/
def popUndo (self : History) : History × Option HistoryEntry :=
  match self.undoStack.getLast? with
  | some entry => ({ self with undoStack := self.undoStack.dropLast, redoStack := self.redoStack ++ [entry] }, some entry)
  | none => (self, none)

/-- Move the top of the redo stack to the undo stack. -/
def popRedo (self : History) : History × Option HistoryEntry :=
  match self.redoStack.getLast? with
  | some entry => ({ self with redoStack := self.redoStack.dropLast, undoStack := self.undoStack ++ [entry] }, some entry)
  | none => (self, none)

/-- Split a stack, the top first, at the topmost entry of a transaction: the entries above it, the entry, and those below. -/
def splitAt (transactionId : Lamport) : List HistoryEntry → Option (List HistoryEntry × HistoryEntry × List HistoryEntry)
  | [] => none
  | entry :: entries =>
    if entry.transaction.id = transactionId then some ([], entry, entries)
    else (splitAt transactionId entries).map fun (above, found, below) => (entry :: above, found, below)

/-- Move a transaction from the undo stack to the redo stack. -/
def removeFromUndo (self : History) (transactionId : Lamport) : History × Option HistoryEntry :=
  match splitAt transactionId self.undoStack.reverse with
  | some (above, entry, below) =>
    ({ self with undoStack := below.reverse ++ above.reverse, redoStack := self.redoStack ++ [entry] }, some entry)
  | none => (self, none)

/-- Move the transactions from the top of the undo stack down to one to the redo stack. -/
def removeFromUndoUntil (self : History) (transactionId : Lamport) : History × List HistoryEntry :=
  match splitAt transactionId self.undoStack.reverse with
  | some (above, entry, below) =>
    ({ self with undoStack := below.reverse, redoStack := self.redoStack ++ (above ++ [entry]) }, above ++ [entry])
  | none => (self, [])

/-- Move the transactions from the top of the redo stack down to one to the undo stack. -/
def removeFromRedo (self : History) (transactionId : Lamport) : History × List HistoryEntry :=
  match splitAt transactionId self.redoStack.reverse with
  | some (above, entry, below) =>
    ({ self with redoStack := below.reverse, undoStack := self.undoStack ++ (above ++ [entry]) }, above ++ [entry])
  | none => (self, [])

/-- Remove a transaction from the stack that it is in. -/
def forget (self : History) (transactionId : Lamport) : History × Option Transaction :=
  match splitAt transactionId self.undoStack.reverse with
  | some (above, entry, below) => ({ self with undoStack := below.reverse ++ above.reverse }, some entry.transaction)
  | none =>
    match splitAt transactionId self.redoStack.reverse with
    | some (above, entry, below) => ({ self with redoStack := below.reverse ++ above.reverse }, some entry.transaction)
    | none => (self, none)

/-- The transaction with an id, where it is in one of the stacks. -/
def transaction (self : History) (transactionId : Lamport) : Option Transaction :=
  match splitAt transactionId self.undoStack.reverse with
  | some (_, entry, _) => some entry.transaction
  | none => (splitAt transactionId self.redoStack.reverse).map fun (_, entry, _) => entry.transaction

/-- A stack with its topmost entry of a transaction changed. -/
def modifyFound (transactionId : Lamport) (f : Transaction → Transaction) (stack : List HistoryEntry) : Option (List HistoryEntry) :=
  (splitAt transactionId stack.reverse).map fun (above, entry, below) =>
    below.reverse ++ { entry with transaction := f entry.transaction } :: above.reverse

/-- Change a transaction, where it is in one of the stacks. -/
def transactionMut (self : History) (transactionId : Lamport) (f : Transaction → Transaction) : History :=
  match modifyFound transactionId f self.undoStack with
  | some undoStack => { self with undoStack := undoStack }
  | none =>
    match modifyFound transactionId f self.redoStack with
    | some redoStack => { self with redoStack := redoStack }
    | none => self

/-- Forget a transaction; another one gets its edits. -/
def mergeTransactions (self : History) (transaction destination : Lamport) : History :=
  match self.forget transaction with
  | (self, some transaction) =>
    self.transactionMut destination fun destination =>
      { destination with editIds := destination.editIds ++ transaction.editIds }
  | (self, none) => self

end History

end Wu
