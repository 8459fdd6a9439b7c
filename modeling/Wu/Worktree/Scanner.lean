import Wu.SortedVec
import Wu.Worktree.RemovedEntries

/-!
# The background scanner of a local worktree

Workers list directories and compute flags outside the lock, from a clone of the snapshot or from what the file system answers, and put
in what they have found when they hold it. What the file system, the settings and the ignore files say of a path is given with each
step. A step is one section under the lock, or what one worker does between two of them.
-/

namespace Wu.Worktree

variable {R : Type}

/-- `PathKey` order: the rest of a path below another one. -/
def stripPrefix : RelPath → RelPath → Option RelPath
  | [], path => some path
  | _ :: _, [] => none
  | component :: base, component' :: path => if component = component' then stripPrefix base path else none

/-- What the file system tells of a path, with what settings and ignore files make of it. -/
structure Metadata (R : Type) where
  isDir : Bool
  inode : Nat
  mtime : Nat
  isIgnored : Bool
  isExternal : Bool
  isAlwaysIncluded : Bool
  rest : R

/-- `Entry::new`, with the flags that are set next. -/
def Entry.new (path : RelPath) (metadata : Metadata R) (id : Nat) : LocalEntry R where
  id
  path
  isIgnored := metadata.isIgnored
  details :=
    { kind := if metadata.isDir then .pendingDir else .file
      inode := metadata.inode
      mtime := some metadata.mtime
      isExternal := metadata.isExternal
      isAlwaysIncluded := metadata.isAlwaysIncluded
      rest := metadata.rest }

def Entry.isDir (entry : LocalEntry R) : Bool := entry.details.kind.isDir

def Entry.withKind (entry : LocalEntry R) (kind : EntryKind) : LocalEntry R :=
  { entry with details := { entry.details with kind } }

/-- `Err`, `Ok(None)` or `Ok(Some(_))`, this with whether the path is in a repository. -/
inductive Answer (R : Type) where
  | error
  | gone
  | found (metadata : Metadata R) (inRepo : Bool)

structure Settings where
  fileScanDepth : Option Nat
  scanSymlinksAlways : Bool
  isPathExcluded : RelPath → Bool
  /-- The root is a directory `.git`, and repositories are tracked. -/
  rootIsDotGit : Bool

/-- The directories that are scanned whatever is ignored. -/
def alwaysScanned : List String := [".git", ".wu", ".zed", ".vscode"]

structure EventRoot where
  path : RelPath
  wasRescanned : Bool
  deriving DecidableEq

namespace Snapshot

variable (self : Snapshot (LocalDetails R))

/-- A pending directory is of the kind that the entry at its path has. -/
def withExistingKind (entry : LocalEntry R) : LocalEntry R :=
  match self.entryForPath entry.path with
  | some existing => if entry.details.kind = .pendingDir then entry.withKind existing.details.kind else entry
  | none => entry

/-- The ids, without that of another entry that is replaced. -/
def withoutReplaced (entry : LocalEntry R) : List PathEntry :=
  match self.entryForPath entry.path with
  | some removed => if removed.id ≠ entry.id then KeyedList.remove PathEntry.id removed.id self.entriesById else self.entriesById
  | none => self.entriesById

/-- `LocalSnapshot::insert_entry`. -/
def insertLocalEntry (entry : LocalEntry R) : Snapshot (LocalDetails R) :=
  let entry := self.withExistingKind entry
  { self with
    entriesByPath := KeyedList.insertOrReplace Entry.path entry self.entriesByPath
    entriesById := KeyedList.insertOrReplace PathEntry.id { entry.pathEntry with scanId := self.scanId } (self.withoutReplaced entry) }

/-- The loop of `ChildEntriesIter`: what is below the last child is skipped. -/
def siblings (parent : RelPath) : Option RelPath → List (LocalEntry R) → List (LocalEntry R)
  | _, [] => []
  | last, entry :: entries =>
    if last.any fun path => path.isPrefixOf entry.path then siblings parent last entries
    else if parent.isPrefixOf entry.path then entry :: siblings parent (some entry.path) entries
    else []

def childEntries (parent : RelPath) : List (LocalEntry R) :=
  siblings parent none (self.entriesByPath.dropWhile fun entry => entry.path ≤ parent)

end Snapshot

structure BackgroundScannerState (R : Type) where
  snapshot : Snapshot (LocalDetails R)
  externalCanonicalToRelative : List (RelPath × RelPath)
  scannedDirs : List Nat
  pathPrefixesToScan : List RelPath
  pathsToScan : List RelPath
  removedEntries : RemovedEntries R
  changedPaths : List RelPath
  prevSnapshot : Snapshot (LocalDetails R)
  scanningEnabled : Bool

namespace BackgroundScannerState

variable (self : BackgroundScannerState R)

def shouldScanDirectory (settings : Settings) (entry : LocalEntry R) (inRepo : Bool) : Bool :=
  let beyondScanDepth := !inRepo && settings.fileScanDepth.any fun depth => entry.path.length ≥ depth
  let scannable := self.scanningEnabled && (!entry.details.isExternal || settings.scanSymlinksAlways) &&
    (!(entry.isIgnored || beyondScanDepth) || entry.details.isAlwaysIncluded)
  scannable || entry.path.getLast?.any (alwaysScanned.contains ·) || self.scannedDirs.contains entry.id ||
    self.pathsToScan.any (entry.path.isPrefixOf ·) || self.pathPrefixesToScan.any (·.isPrefixOf entry.path)

/-- The entries at a path and below it are removed, and kept for the ids. -/
def removePathFromSnapshot (path : RelPath) : BackgroundScannerState R :=
  let before := self.snapshot.entriesByPath.takeWhile fun entry => entry.path < path
  let rest := self.snapshot.entriesByPath.dropWhile fun entry => entry.path < path
  let removed := rest.takeWhile fun entry => path.isPrefixOf entry.path
  let suffix := rest.dropWhile fun entry => path.isPrefixOf entry.path
  let removedIds := removed.foldl (fun removedIds entry => SortedVec.searchInsert entry.id removedIds) []
  { self with
    snapshot := { self.snapshot with
      entriesByPath := before ++ suffix
      entriesById := KeyedList.editBatch PathEntry.id (removedIds.map .remove) self.snapshot.entriesById }
    removedEntries := removed.foldl RemovedEntries.insert self.removedEntries }

def unwatchPath (path : RelPath) : BackgroundScannerState R :=
  { self with
    externalCanonicalToRelative := self.externalCanonicalToRelative.filter fun watched => ¬ path.isPrefixOf watched.2 }

def removePathFromSnapshotAndUnwatch (path : RelPath) : BackgroundScannerState R :=
  (self.removePathFromSnapshot path).unwatchPath path

/-- The id of an entry that was removed from the path, or that had the inode and looks the same, or that is at the path. -/
def reusedEntryId (path : RelPath) (inode mtime : Nat) : Option Nat × BackgroundScannerState R :=
  match self.removedEntries.takeByPath path inode with
  | some (removedEntry, removedEntries) => (some removedEntry.id, { self with removedEntries })
  | none =>
    match self.removedEntries.takeByInode inode with
    | some (removedEntry, removedEntries) =>
      (if removedEntry.details.mtime = some mtime ∨ removedEntry.path = path then some removedEntry.id else none,
        { self with removedEntries })
    | none => ((self.snapshot.entryForPath path).map Entry.id, self)

def reuseEntryId (entry : LocalEntry R) : LocalEntry R × BackgroundScannerState R :=
  match entry.details.mtime with
  | none => (entry, self)
  | some mtime =>
    let (reused, state) := self.reusedEntryId entry.path entry.details.inode mtime
    ({ entry with id := reused.getD entry.id }, state)

/-- A directory that is not to be scanned is left unloaded, and what was loaded of it is removed. -/
def placeEntry (settings : Settings) (inRepo : Bool) (entry : LocalEntry R) : LocalEntry R × BackgroundScannerState R :=
  let (entry, state) := self.reuseEntryId entry
  if entry.isDir && !state.shouldScanDirectory settings entry inRepo then
    (entry.withKind .unloadedDir,
      if !entry.isIgnored && !entry.details.isExternal && !(state.snapshot.childEntries entry.path).isEmpty
        then state.removePathFromSnapshotAndUnwatch entry.path else state)
  else (entry, state)

/-- The loop over the entries that `scan_dir` has listed. -/
def placeEntries (settings : Settings) (inRepo : Bool) :
    BackgroundScannerState R → List (LocalEntry R) → List (LocalEntry R) × BackgroundScannerState R
  | self, [] => ([], self)
  | self, entry :: entries =>
    let (placed, state) := self.placeEntry settings inRepo entry
    let (rest, state) := placeEntries settings inRepo state entries
    (placed :: rest, state)

/-- The directory is marked as loaded, and its entries are put in, unless it is no directory any more. -/
def populateDir (parentPath : RelPath) (entries : List (LocalEntry R)) : BackgroundScannerState R :=
  match self.snapshot.entryForPath parentPath with
  | none => self
  | some parentEntry =>
    if parentEntry.isDir then
      let parentEntry := if parentEntry.details.kind = .dir then parentEntry else parentEntry.withKind .dir
      { self with
        snapshot := { self.snapshot with
          entriesByPath := KeyedList.editBatch Entry.path ((parentEntry :: entries).map .insert) self.snapshot.entriesByPath
          entriesById := KeyedList.editBatch PathEntry.id
            (entries.map fun entry => .insert { entry.pathEntry with scanId := self.snapshot.scanId }) self.snapshot.entriesById }
        scannedDirs := parentEntry.id :: self.scannedDirs
        changedPaths := SortedVec.searchInsert parentPath self.changedPaths }
    else self

/-- The last section of `scan_dir` that changes entries. -/
def finishScan (settings : Settings) (inRepo : Bool) (path : RelPath) (newEntries : List (LocalEntry R)) : BackgroundScannerState R :=
  let (entries, state) := self.placeEntries settings inRepo newEntries
  state.populateDir path entries

/-! ### Refreshed paths -/

/-- The paths that have gone are removed, and in an update of whole trees those that are there. -/
def removeRefreshed (recursive : Bool) : BackgroundScannerState R → List (RelPath × Answer R) → BackgroundScannerState R
  | self, [] => self
  | self, (path, .gone) :: paths => removeRefreshed recursive (self.removePathFromSnapshot path) paths
  | self, (path, .error) :: paths | self, (path, .found _ _) :: paths =>
    removeRefreshed recursive (if recursive then self.removePathFromSnapshot path else self) paths

/-- `entry_id_for`, with the next id that is free. -/
def entryIdFor (nextEntryId : Nat) (path : RelPath) (metadata : Metadata R) : Nat × Nat × BackgroundScannerState R :=
  match self.reusedEntryId path metadata.inode metadata.mtime with
  | (some id, state) => (id, nextEntryId, state)
  | (none, state) => (nextEntryId, nextEntryId + 1, state)

/-- The entry of a path that is there. -/
def refreshEntry (settings : Settings) (recursive inRepo : Bool) (entry : LocalEntry R) : LocalEntry R :=
  if recursive && entry.isDir && !(self.shouldScanDirectory settings entry inRepo || settings.rootIsDotGit && entry.path.isEmpty)
    then entry.withKind .unloadedDir else entry

/-- What is put in for one path. -/
def insertRefreshed (settings : Settings) (recursive : Bool) (nextEntryId : Nat) (path : RelPath) :
    Answer R → BackgroundScannerState R × Nat
  | .error | .gone => (self.unwatchPath path, nextEntryId)
  | .found metadata inRepo =>
    let (id, nextEntryId, state) := self.entryIdFor nextEntryId path metadata
    ({ state with
      snapshot := state.snapshot.insertLocalEntry (state.refreshEntry settings recursive inRepo (Entry.new path metadata id)) },
      nextEntryId)

def insertAllRefreshed (settings : Settings) (recursive : Bool) :
    BackgroundScannerState R → Nat → List (RelPath × Answer R) → BackgroundScannerState R × Nat
  | self, nextEntryId, [] => (self, nextEntryId)
  | self, nextEntryId, (path, answer) :: paths =>
    let (state, nextEntryId) := self.insertRefreshed settings recursive nextEntryId path answer
    insertAllRefreshed settings recursive state nextEntryId paths

/-- The section of `reload_entries_for_paths`. -/
def reloadEntriesForPaths (settings : Settings) (recursive : Bool) (nextEntryId : Nat) (paths : List (RelPath × Answer R)) :
    BackgroundScannerState R × Nat :=
  let (state, nextEntryId) := (self.removeRefreshed recursive paths).insertAllRefreshed settings recursive nextEntryId paths
  ({ state with changedPaths := SortedVec.extendSorted (paths.map Prod.fst) state.changedPaths }, nextEntryId)

/-- The nearest ancestors that have no entry, unless the one above them is a file, or is not loaded. -/
def missingAncestors : List RelPath → List RelPath → List RelPath
  | candidates, [] => candidates
  | candidates, ancestor :: ancestors =>
    match self.snapshot.entryForPath ancestor with
    | some entry => if entry.details.kind = .unloadedDir ∨ entry.details.kind = .file then [] else candidates
    | none => missingAncestors (candidates ++ [ancestor]) ancestors

/-- The paths that `process_scan_request` refreshes. -/
def requestedPaths (relativePaths : List RelPath) : List RelPath :=
  let missing := relativePaths.flatMap fun path => self.missingAncestors [] (path.inits.reverse.drop 1)
  ((relativePaths ++ missing).insertionSort (· ≤ ·)).dedup

/-! ### Events -/

structure PathEvent where
  path : RelPath
  isRescan : Bool

/-- An event at a path, or below it, is one with the event before. -/
def dedupEvents : List PathEvent → List PathEvent → List PathEvent
  | kept, [] => kept.reverse
  | [], event :: events => dedupEvents [event] events
  | last :: kept, event :: events =>
    if last.path.isPrefixOf event.path
      then dedupEvents ({ last with isRescan := last.isRescan || event.isRescan } :: kept) events
      else dedupEvents (event :: last :: kept) events

/-- Where an absolute path is in the worktree. -/
def relativePath (rootCanonicalPath rootPath : RelPath) (absPath : RelPath) : Option RelPath :=
  (stripPrefix rootCanonicalPath absPath).or <| (stripPrefix rootPath absPath).or <|
    self.externalCanonicalToRelative.findSome? fun (canonical, relative) => (stripPrefix canonical absPath).map (relative ++ ·)

/-- The paths that `process_events` goes on with: the events are sorted before their paths are translated. -/
def eventRoots (settings : Settings) (rootCanonicalPath rootPath : RelPath) (events : List PathEvent) : List EventRoot :=
  (dedupEvents [] (KeyedList.sort PathEvent.path events)).filterMap fun event =>
    (self.relativePath rootCanonicalPath rootPath event.path).bind fun path =>
      let parentDirIsLoaded := path.isEmpty ||
        (self.snapshot.entryForPath path.dropLast).any fun entry => entry.details.kind = .dir
      if parentDirIsLoaded && !settings.isPathExcluded path then some ⟨path, event.isRescan⟩ else none

/-! ### Ignore statuses -/

/-- The children of a directory, as they were in a clone, whose flag is another one now. -/
def reflagged (clone : Snapshot (LocalDetails R)) (path : RelPath) (ignored : RelPath → Bool → Bool) : List (LocalEntry R) :=
  ((clone.childEntries path).filter fun entry => ignored entry.path entry.isDir ≠ entry.isIgnored).map
    fun entry => { entry with isIgnored := ignored entry.path entry.isDir }

/-- The flags under the ids that the clone has. -/
def flagEdits (clone : Snapshot (LocalDetails R)) (entries : List (LocalEntry R)) : List (KeyedList.Edit PathEntry Nat) :=
  entries.flatMap fun entry => ((KeyedList.find? PathEntry.id entry.id clone.entriesById).map fun found =>
    .insert { found with scanId := clone.scanId, isIgnored := entry.isIgnored }).toList

/-- The last section of `update_ignore_status`. -/
def updateIgnoreStatus (clone : Snapshot (LocalDetails R)) (path : RelPath) (ignored : RelPath → Bool → Bool) :
    BackgroundScannerState R :=
  let entries := reflagged clone path ignored
  { self with
    changedPaths := entries.foldl (fun changedPaths entry => SortedVec.searchInsert entry.path changedPaths) self.changedPaths
    snapshot := { self.snapshot with
      entriesByPath := KeyedList.editBatch Entry.path (entries.map .insert) self.snapshot.entriesByPath
      entriesById := KeyedList.editBatch PathEntry.id (flagEdits clone entries) self.snapshot.entriesById } }

end BackgroundScannerState

end Wu.Worktree
