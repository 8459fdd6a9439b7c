import Mathlib.Data.List.AList
import Mathlib.Data.Finset.Basic
import Wu.SumTree.Summary
import Wu.Text.Buffer

/-!
# The state of a buffer beside its text

A buffer of the editor is a text buffer with diagnostics of language servers, the selections of its peers, the triggers of completions
and the line ending. Replicas send each other operations on these as on the text. An operation with anchors that cannot be resolved yet
is deferred.
-/

namespace Wu.Language

/-- A position in a text that is known by the insertion it is in. -/
structure Anchor where
  timestamp : Lamport
  offset : Nat
  bias : Bias
  bufferId : Nat
  deriving DecidableEq

/-- The largest `u16` and the largest `u32`. -/
def maxTimestamp : Lamport := ⟨4294967295, ⟨65535⟩⟩

def Anchor.minForBuffer (bufferId : Nat) : Anchor := ⟨Lamport.min, 0, .left, bufferId⟩

def Anchor.maxForBuffer (bufferId : Nat) : Anchor := ⟨maxTimestamp, 4294967295, .right, bufferId⟩

def Anchor.isMin (self : Anchor) : Bool := self.timestamp = Lamport.min ∧ self.offset = 0 ∧ self.bias = .left

def Anchor.isMax (self : Anchor) : Bool :=
  self.timestamp = maxTimestamp ∧ self.offset = 4294967295 ∧ self.bias = .right

structure DiagnosticEntry where
  start : Anchor
  stop : Anchor
  diagnostic : String
  deriving DecidableEq

/-- The diagnostics of one language server, in their order. -/
abbrev DiagnosticSet := List DiagnosticEntry

structure Selection where
  id : Nat
  start : Anchor
  stop : Anchor
  reversed : Bool
  deriving DecidableEq

inductive CursorShape where
  | bar
  | block
  | underline
  | hollow
  deriving DecidableEq

inductive LineEnding where
  | unix
  | windows
  deriving DecidableEq

structure SelectionSet where
  lineMode : Bool
  cursorShape : CursorShape
  selections : List Selection
  lamportTimestamp : Lamport
  deriving DecidableEq

/-- The operations that are not about the text. -/
inductive StateOperation where
  | updateDiagnostics (serverId : Nat) (diagnostics : List DiagnosticEntry) (lamportTimestamp : Lamport)
  | updateSelections (selections : List Selection) (lamportTimestamp : Lamport) (lineMode : Bool) (cursorShape : CursorShape)
  | updateCompletionTriggers (triggers : List String) (lamportTimestamp : Lamport) (serverId : Nat)
  | updateLineEnding (lineEnding : LineEnding) (lamportTimestamp : Lamport)
  deriving DecidableEq

inductive Operation where
  | buffer (op : Wu.Operation)
  | state (op : StateOperation)

def StateOperation.lamportTimestamp : StateOperation → Lamport
  | .updateDiagnostics _ _ lamportTimestamp => lamportTimestamp
  | .updateSelections _ lamportTimestamp _ _ => lamportTimestamp
  | .updateCompletionTriggers _ lamportTimestamp _ => lamportTimestamp
  | .updateLineEnding _ lamportTimestamp => lamportTimestamp

def Operation.lamportTimestamp : Operation → Lamport
  | .buffer op => op.timestamp
  | .state op => op.lamportTimestamp

structure Buffer where
  text : Wu.Buffer
  remoteId : Nat
  diagnostics : AList fun _ : Nat => DiagnosticSet
  diagnosticsTimestamp : Lamport
  remoteSelections : AList fun _ : ReplicaId => SelectionSet
  completionTriggers : Finset String
  completionTriggersPerLanguageServer : AList fun _ : Nat => Finset String
  lineEnding : LineEnding
  /-- Sorted by the timestamps. -/
  deferredOps : List StateOperation

namespace Buffer

/-- A new buffer around a text. -/
def new (text : Wu.Buffer) (remoteId : Nat) (lineEnding : LineEnding) : Buffer where
  text := text
  remoteId := remoteId
  diagnostics := ∅
  diagnosticsTimestamp := Lamport.min
  remoteSelections := ∅
  completionTriggers := ∅
  completionTriggersPerLanguageServer := ∅
  lineEnding := lineEnding
  deferredOps := []

variable (self : Buffer)

def canResolve (anchor : Anchor) : Bool :=
  self.remoteId = anchor.bufferId && (anchor.isMin || anchor.isMax || self.text.version.observed anchor.timestamp)

def canApplyOp : StateOperation → Bool
  | .updateDiagnostics _ diagnostics _ =>
    diagnostics.all fun diagnostic => self.canResolve diagnostic.start && self.canResolve diagnostic.stop
  | .updateSelections selections _ _ _ => selections.all fun s => self.canResolve s.start && self.canResolve s.stop
  | .updateCompletionTriggers .. | .updateLineEnding .. => true

/-- The clock of the text moves past a timestamp. -/
def observe (lamportTimestamp : Lamport) : Buffer :=
  { self with text := { self.text with lamportClock := self.text.lamportClock.observe lamportTimestamp } }

/-- An update that is not newer than the last one is stale, of whatever server that one was. -/
def applyDiagnosticUpdate (serverId : Nat) (diagnostics : DiagnosticSet) (lamportTimestamp : Lamport) : Buffer :=
  if self.diagnosticsTimestamp < lamportTimestamp then
    { self with
      diagnostics :=
        if diagnostics.isEmpty then self.diagnostics.erase serverId else self.diagnostics.insert serverId diagnostics
      diagnosticsTimestamp := lamportTimestamp }.observe lamportTimestamp
  else self

/-- The triggers of all servers. -/
def allTriggers (triggers : AList fun _ : Nat => Finset String) : Finset String :=
  triggers.entries.foldr (fun entry all => entry.2 ∪ all) ∅

def applyOp : StateOperation → Buffer
  | .updateDiagnostics serverId diagnostics lamportTimestamp =>
    self.applyDiagnosticUpdate serverId diagnostics lamportTimestamp
  | .updateSelections selections lamportTimestamp lineMode cursorShape =>
    let set : SelectionSet := ⟨lineMode, cursorShape, selections, lamportTimestamp⟩
    let found := self.remoteSelections.lookup lamportTimestamp.replicaId
    if found.any fun set => lamportTimestamp < set.lamportTimestamp then self
    else { self with remoteSelections := self.remoteSelections.insert lamportTimestamp.replicaId set }.observe lamportTimestamp
  | .updateCompletionTriggers triggers lamportTimestamp serverId =>
    let perServer :=
      if triggers.isEmpty then self.completionTriggersPerLanguageServer.erase serverId
      else self.completionTriggersPerLanguageServer.insert serverId triggers.toFinset
    { self with
      completionTriggersPerLanguageServer := perServer
      completionTriggers := allTriggers perServer }.observe lamportTimestamp
  | .updateLineEnding lineEnding lamportTimestamp => { self with lineEnding := lineEnding }.observe lamportTimestamp

/-- The loop over received operations: those on the state are applied or deferred, and those on the text are given back. -/
def receiveLoop : List Operation → Buffer → Buffer × List Wu.Operation × List StateOperation
  | [], self => (self, [], [])
  | .buffer op :: ops, self =>
    let (self, bufferOps, deferred) := receiveLoop ops self
    (self, op :: bufferOps, deferred)
  | .state op :: ops, self =>
    if self.canApplyOp op then receiveLoop ops (self.applyOp op)
    else
      let (self, bufferOps, deferred) := receiveLoop ops self
      (self, bufferOps, op :: deferred)

/-- The loop over the deferred operations. -/
def flushLoop : List StateOperation → Buffer → Buffer × List StateOperation
  | [], self => (self, [])
  | op :: ops, self =>
    if self.canApplyOp op then flushLoop ops (self.applyOp op)
    else
      let (self, deferred) := flushLoop ops self
      (self, op :: deferred)

/-- Deferred operations are put into the queue. -/
def defer (ops : List StateOperation) : Buffer :=
  { self with deferredOps := KeyedList.insertAll StateOperation.lamportTimestamp ops self.deferredOps }

def flushDeferredOps : Buffer :=
  let (self, deferred) := flushLoop self.deferredOps { self with deferredOps := [] }
  self.defer deferred

/-- The text takes its operations, and what could not be applied is queued. -/
def takeText (bufferOps : List Wu.Operation) (deferred : List StateOperation) : Buffer :=
  { self with text := self.text.applyOps bufferOps }.defer deferred

/-- Operations of other replicas are received. -/
def applyOps (ops : List Operation) : Buffer :=
  let (self, bufferOps, deferred) := receiveLoop ops self
  (self.takeText bufferOps deferred).flushDeferredOps

end Buffer

end Wu.Language
