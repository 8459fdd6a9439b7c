import Mathlib.Data.String.Basic
import Wu.KeyedEdits

/-!
# The copy of a worktree on a guest

A snapshot holds entries sorted by their paths, and for each id the path that it stands for. The host tells a guest what has changed in
messages, cut into chunks. The guest also puts an entry in, or takes one out, when a response to one of its own requests comes.
-/

namespace Wu.Worktree

/-- The components of a path. -/
abbrev RelPath := List String

/-- An entry, with what else messages tell of it. -/
structure Entry (D : Type) where
  id : Nat
  path : RelPath
  isIgnored : Bool
  details : D
  deriving DecidableEq

structure PathEntry where
  id : Nat
  path : RelPath
  isIgnored : Bool
  scanId : Nat
  deriving DecidableEq

inductive PathChange where
  | added
  | removed
  | updated
  | addedOrUpdated
  | loaded
  deriving DecidableEq

structure UpdateWorktree (D : Type) where
  updatedEntries : List (Entry D)
  removedEntries : List Nat
  scanId : Nat
  isLastUpdate : Bool

structure Snapshot (D : Type) where
  /-- Sorted by the paths. -/
  entriesByPath : List (Entry D)
  /-- Sorted by the ids. -/
  entriesById : List PathEntry
  scanId : Nat
  completedScanId : Nat

variable {D : Type}

/-- What is kept of an entry under its id. -/
def Entry.pathEntry (entry : Entry D) : PathEntry := ⟨entry.id, entry.path, entry.isIgnored, 0⟩

namespace Snapshot

def new : Snapshot D := ⟨[], [], 0, 0⟩

variable (self : Snapshot D)

def entryForPath (path : RelPath) : Option (Entry D) := KeyedList.find? Entry.path path self.entriesByPath

def entryForId (id : Nat) : Option (Entry D) :=
  (KeyedList.find? PathEntry.id id self.entriesById).bind fun entry => self.entryForPath entry.path

/-- The entry that was known by the id leaves its path, and the entry that had the path is replaced, but its id is kept. -/
def insertEntry (entry : Entry D) : Snapshot D :=
  let oldEntry := KeyedList.find? PathEntry.id entry.id self.entriesById
  let entriesByPath := match oldEntry with
    | some oldEntry => KeyedList.remove Entry.path oldEntry.path self.entriesByPath
    | none => self.entriesByPath
  { self with
    entriesById := KeyedList.insertOrReplace PathEntry.id entry.pathEntry self.entriesById
    entriesByPath := KeyedList.insertOrReplace Entry.path entry entriesByPath }

/-- The entry of an id leaves, with the entries below it. -/
def deleteEntry (entryId : Nat) : Snapshot D :=
  match KeyedList.find? PathEntry.id entryId self.entriesById with
  | none => self
  | some removedEntry =>
    let slice := self.entriesByPath.takeWhile fun entry => entry.path < removedEntry.path
    let rest := self.entriesByPath.dropWhile fun entry => entry.path < removedEntry.path
    let below := rest.takeWhile fun entry => removedEntry.path.isPrefixOf entry.path
    let suffix := rest.dropWhile fun entry => removedEntry.path.isPrefixOf entry.path
    { self with
      entriesById := below.foldl (fun entriesById entry => KeyedList.remove PathEntry.id entry.id entriesById)
        (KeyedList.remove PathEntry.id entryId self.entriesById)
      entriesByPath := slice ++ suffix }

/-- The edits of `entries_by_path`, as the snapshot is before the message. -/
def pathEdits (update : UpdateWorktree D) : List (KeyedList.Edit (Entry D) RelPath) :=
  (update.removedEntries.flatMap fun entryId => ((self.entryForId entryId).map fun entry => KeyedList.Edit.remove entry.path).toList) ++
    update.updatedEntries.flatMap fun entry =>
      ((KeyedList.find? PathEntry.id entry.id self.entriesById).map fun old => KeyedList.Edit.remove old.path).toList ++ [.insert entry]

/-- The edits of `entries_by_id`. -/
def idEdits (update : UpdateWorktree D) : List (KeyedList.Edit PathEntry Nat) :=
  update.removedEntries.map KeyedList.Edit.remove ++
    update.updatedEntries.flatMap fun entry =>
      (((KeyedList.find? Entry.path entry.path self.entriesByPath).filter fun old => old.id ≠ entry.id).map
        fun old => KeyedList.Edit.remove old.id).toList ++ [.insert entry.pathEntry]

def applyRemoteUpdate (update : UpdateWorktree D) : Snapshot D where
  entriesByPath := KeyedList.editBatch Entry.path (self.pathEdits update) self.entriesByPath
  entriesById := KeyedList.editBatch PathEntry.id (self.idEdits update) self.entriesById
  scanId := update.scanId
  completedScanId := if update.isLastUpdate then update.scanId else self.completedScanId

end Snapshot

/-! ## The host -/

/-- A snapshot of the host: entries with different paths and different ids. -/
structure HostSnapshot (D : Type) where
  entries : List (Entry D)
  scanId : Nat
  completedScanId : Nat
  sorted : KeyedList.Sorted Entry.path entries
  distinct : (entries.map Entry.id).Nodup

namespace HostSnapshot

def new : HostSnapshot D := ⟨[], 0, 0, List.Pairwise.nil, List.nodup_nil⟩

variable (self : HostSnapshot D)

def entryForId (id : Nat) : Option (Entry D) := self.entries.find? fun entry => entry.id = id

def buildInitialUpdate : UpdateWorktree D where
  updatedEntries := KeyedList.sort Entry.id self.entries
  removedEntries := []
  scanId := self.scanId
  isLastUpdate := self.completedScanId = self.scanId

/-- A change that an entry has gone is told by its id, unless the id is told again; another one by what its id stands for now. -/
def buildUpdate (entryChanges : List (RelPath × Nat × PathChange)) : UpdateWorktree D :=
  let updatedEntries := KeyedList.sort Entry.id (entryChanges.filterMap fun change =>
    if change.2.2 = .removed then none else self.entryForId change.2.1)
  let removedEntries := KeyedList.sort id (entryChanges.filterMap fun change =>
    if change.2.2 = .removed then some change.2.1 else none)
  { updatedEntries
    removedEntries := removedEntries.filter fun entryId => ¬ updatedEntries.any fun entry => entry.id = entryId
    scanId := self.scanId
    isLastUpdate := self.completedScanId = self.scanId }

end HostSnapshot

def maxWorktreeUpdateMaxChunkSize : Nat := 256

/-- The chunks that are cut from a message until nothing is left of it. -/
def splitLoop : Nat → UpdateWorktree D → List (UpdateWorktree D)
  | 0, _ => []
  | fuel + 1, message =>
    let rest := { message with
      updatedEntries := message.updatedEntries.drop maxWorktreeUpdateMaxChunkSize
      removedEntries := message.removedEntries.drop maxWorktreeUpdateMaxChunkSize }
    let done := rest.updatedEntries.isEmpty && rest.removedEntries.isEmpty
    { message with
      updatedEntries := message.updatedEntries.take maxWorktreeUpdateMaxChunkSize
      removedEntries := message.removedEntries.take maxWorktreeUpdateMaxChunkSize
      isLastUpdate := done && message.isLastUpdate } :: if done then [] else splitLoop fuel rest

/-- Each chunk but the last takes something away, so that there are no more of them than this. -/
def splitWorktreeUpdate (message : UpdateWorktree D) : List (UpdateWorktree D) :=
  splitLoop (message.updatedEntries.length + message.removedEntries.length + 1) message

/-- A change list tells all that has changed between two snapshots: what has gone by its old id and path, and what is new, or is not as
it was, by its new ones, once. -/
structure Complete (old new : HostSnapshot D) (entryChanges : List (RelPath × Nat × PathChange)) : Prop where
  removed : ∀ path entryId, (path, entryId, PathChange.removed) ∈ entryChanges ↔
    (∃ entry ∈ old.entries, entry.path = path ∧ entry.id = entryId) ∧ ¬ ∃ entry ∈ new.entries, entry.path = path ∧ entry.id = entryId
  present : ∀ path entryId change, (path, entryId, change) ∈ entryChanges → change ≠ .removed →
    ∃ entry ∈ new.entries, entry.path = path ∧ entry.id = entryId
  listed : ∀ entry ∈ new.entries, entry ∉ old.entries → ∃ change, change ≠ .removed ∧ (entry.path, entry.id, change) ∈ entryChanges
  once : ((entryChanges.filter fun change => change.2.2 ≠ .removed).map (·.1)).Nodup

/-! ## A host and its guest -/

structure System (D : Type) where
  mirror : Snapshot D
  /-- The snapshot that the message that is being applied was made from. -/
  target : HostSnapshot D
  /-- The chunks of this message that have not been applied. -/
  pending : List (UpdateWorktree D)
  /-- The later messages, each with its snapshot. -/
  later : List (HostSnapshot D × List (UpdateWorktree D))
  /-- The last snapshot of the host. -/
  host : HostSnapshot D

inductive Move (D : Type) where
  | publish (snapshot : HostSnapshot D) (entryChanges : List (RelPath × Nat × PathChange))
  | deliver
  | insert (entry : Entry D) (scanId : Nat)
  | delete (entryId : Nat) (scanId : Nat)

namespace System

/-- The host begins to be observed. -/
def start (host : HostSnapshot D) : System D where
  mirror := .new
  target := .new
  pending := []
  later := [(host, splitWorktreeUpdate host.buildInitialUpdate)]
  host := host

variable (self : System D)

/-- The guest applies the next chunk. -/
def deliver : System D :=
  match self.pending, self.later with
  | update :: pending, _ => { self with mirror := self.mirror.applyRemoteUpdate update, pending }
  | [], (target, update :: pending) :: later =>
    { self with mirror := self.mirror.applyRemoteUpdate update, target, pending, later }
  | [], _ => self

def apply : Move D → System D
  | .publish snapshot entryChanges =>
    { self with
      later := self.later ++ [(snapshot, splitWorktreeUpdate (snapshot.buildUpdate entryChanges))]
      host := snapshot }
  | .deliver => self.deliver
  | .insert entry _ => { self with mirror := self.mirror.insertEntry entry }
  | .delete entryId _ => { self with mirror := self.mirror.deleteEntry entryId }

/-- A response waits until its scan has been applied. -/
def Allowed : Move D → Prop
  | .publish snapshot entryChanges => Complete self.host snapshot entryChanges
  | .deliver => True
  | .insert _ scanId | .delete _ scanId => scanId ≤ self.mirror.completedScanId

/-- The entries that the chunks to come tell. -/
def pendingEntries : List (Entry D) := self.pending.flatMap UpdateWorktree.updatedEntries

/-- The ids that the chunks to come take away. -/
def pendingIds : List Nat := self.pending.flatMap UpdateWorktree.removedEntries

/-- An entry that is put in is one of the snapshot that is being sent, or its id is still to be told. What it displaces is not in this
snapshot, or is still to be told, and no other id has its path. What is deleted is not in this snapshot, or is still to be told. -/
def Careful : Move D → Prop
  | .insert entry _ =>
    (entry ∈ self.target.entries ∨ entry.id ∈ self.pendingIds ∨ ∃ told ∈ self.pendingEntries, told.id = entry.id) ∧
      (∀ other ∈ self.target.entries, other ≠ entry → other.id = entry.id → other ∈ self.pendingEntries) ∧
      ∀ other ∈ self.mirror.entriesByPath, other.path = entry.path → other.id = entry.id
  | .delete entryId _ =>
    ∀ found ∈ self.mirror.entriesById, found.id = entryId →
      ∀ entry ∈ self.mirror.entriesByPath, found.path <+: entry.path → entry ∈ self.target.entries → entry ∈ self.pendingEntries
  | _ => True

/-- The systems that are reached by moves that meet a condition. -/
inductive Reach (condition : System D → Move D → Prop) : System D → Prop
  | start (host : HostSnapshot D) : Reach condition (start host)
  | move {system : System D} (move : Move D) : Reach condition system → system.Allowed move → condition system move →
      Reach condition (system.apply move)

end System

/-- Both sides of a snapshot hold the same pairs of an id and a path, and none twice. -/
structure Snapshot.Consistent (snapshot : Snapshot D) : Prop where
  same : ∀ id path, (∃ entry ∈ snapshot.entriesByPath, entry.id = id ∧ entry.path = path) ↔
    ∃ entry ∈ snapshot.entriesById, entry.id = id ∧ entry.path = path
  pathsOnce : (snapshot.entriesByPath.map Entry.path).Nodup
  idsOnce : (snapshot.entriesByPath.map Entry.id).Nodup
  pathsOnceById : (snapshot.entriesById.map PathEntry.path).Nodup
  idsOnceById : (snapshot.entriesById.map PathEntry.id).Nodup

/-- A guest's copy is consistent, and when all messages have been applied it has the entries of the host. -/
structure System.Mirrors (system : System D) : Prop where
  consistent : system.mirror.Consistent
  same : system.pending = [] → system.later = [] → system.mirror.entriesByPath = system.host.entries

end Wu.Worktree
