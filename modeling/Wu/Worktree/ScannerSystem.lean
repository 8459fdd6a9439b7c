import Wu.Worktree.Diff

/-!
# The workers of the scanner

Each move is one section of a worker under the lock, or what it does between two sections. The directories that are being listed, the
clones of the snapshot that ignore statuses are computed from, the requests and the batches of events are what the workers hold.
-/

namespace Wu.Worktree

variable {R : Type}

/-- A directory that a worker is listing. -/
structure ScanningDir (R : Type) where
  path : RelPath
  newEntries : List (LocalEntry R)
  /-- The paths where entries were changed for this scan, which only its end records. -/
  unrecorded : List RelPath

/-- A child that is excluded is to be recorded if entries of it were removed. -/
def ScanningDir.exclude (scan : ScanningDir R) (child : RelPath) (removed : Bool) : ScanningDir R :=
  { scan with unrecorded := if removed then child :: scan.unrecorded else scan.unrecorded }

def ScanningDir.list (scan : ScanningDir R) (entry : LocalEntry R) : ScanningDir R :=
  { scan with newEntries := scan.newEntries ++ [entry] }

/-- There are entries at a path, or below it. -/
def Snapshot.hasBelow {D : Type} (snapshot : Snapshot D) (path : RelPath) : Bool :=
  snapshot.entriesByPath.any fun entry => path.isPrefixOf entry.path

/-- `ScanState::Updated`, with the snapshot that was sent before, and the roots. -/
structure Sent (R : Type) where
  phase : BackgroundScannerPhase
  eventRoots : List EventRoot
  old : Snapshot (LocalDetails R)
  new : Snapshot (LocalDetails R)
  changes : List (RelPath × Nat × PathChange)

structure BackgroundScanner (R : Type) where
  state : BackgroundScannerState R
  nextEntryId : Nat
  phase : BackgroundScannerPhase
  scans : List (ScanningDir R)
  clones : List (Snapshot (LocalDetails R))
  requests : List (List RelPath)
  batches : List (List EventRoot)
  sent : List (Sent R)

inductive ScannerMove (R : Type) where
  | startRoot (ignored : Bool)
  | startScan (path : RelPath)
  | listChild (scan : Nat) (name : String) (metadata : Metadata R)
  | excludeChild (scan : Nat) (name : String)
  | failScan (scan : Nat)
  | finishScan (scan : Nat) (inRepo : Bool)
  | watchExternal (canonical relative : RelPath)
  | loadPaths (paths : List RelPath)
  | takePathsToScan
  | addPathPrefix (path : RelPath)
  | cloneSnapshot
  | updateIgnoreStatus (clone : Nat) (path : RelPath) (ignored : RelPath → Bool → Bool)
  | receiveRequest (relativePaths : List RelPath)
  | receiveEvents (rootCanonicalPath rootPath : RelPath) (events : List BackgroundScannerState.PathEvent)
  | bumpScanId (forRequest : Bool)
  | reloadRequest (request : Nat) (answers : List (Answer R))
  | recordRequest (request : Nat)
  | reloadEvents (batch : Nat) (answers : List (Answer R))
  | completeEvents
  | setPhase (phase : BackgroundScannerPhase)
  | sendStatusUpdate (scanning barrier : Bool) (eventRoots : List EventRoot)

namespace BackgroundScanner

/-- A scanner that begins with a snapshot. -/
def start (snapshot : Snapshot (LocalDetails R)) (nextEntryId : Nat) (scanningEnabled : Bool) : BackgroundScanner R where
  state :=
    { snapshot
      externalCanonicalToRelative := []
      scannedDirs := []
      pathPrefixesToScan := []
      pathsToScan := []
      removedEntries := .new
      changedPaths := []
      prevSnapshot := snapshot
      scanningEnabled }
  nextEntryId
  phase := .initialScan
  scans := []
  clones := []
  requests := []
  batches := []
  sent := []

variable (settings : Settings) (self : BackgroundScanner R)

/-- The root is flagged, and its scan is enqueued. -/
def startRoot (ignored : Bool) : BackgroundScanner R :=
  match self.state.snapshot.entryForPath [] with
  | none => self
  | some rootEntry =>
    let (entry, state) := self.state.reuseEntryId { rootEntry with isIgnored := true }
    { self with
      state := if ignored then { state with snapshot := state.snapshot.insertLocalEntry entry } else self.state
      scans := if rootEntry.isDir && self.state.scanningEnabled
        then self.scans ++ [⟨[], [], if ignored && !rootEntry.isIgnored then [[]] else []⟩] else self.scans }

def listChild (scan : ScanningDir R) (ix : Nat) (name : String) (metadata : Metadata R) : BackgroundScanner R :=
  { self with
    scans := self.scans.set ix (scan.list (Entry.new (scan.path ++ [name]) metadata self.nextEntryId))
    nextEntryId := self.nextEntryId + 1 }

def excludeChild (scan : ScanningDir R) (ix : Nat) (name : String) : BackgroundScanner R :=
  { self with
    state := self.state.removePathFromSnapshotAndUnwatch (scan.path ++ [name])
    scans := self.scans.set ix (scan.exclude (scan.path ++ [name]) (self.state.snapshot.hasBelow (scan.path ++ [name]))) }

/-- `send_status_update`: while scanning, an update without a change is not sent. -/
def sendStatusUpdate [DecidableEq R] (scanning barrier : Bool) (eventRoots : List EventRoot) : BackgroundScanner R :=
  if self.state.changedPaths.isEmpty && eventRoots.isEmpty && scanning && !barrier then self
  else
    { self with
      state := { self.state with changedPaths := [], prevSnapshot := self.state.snapshot }
      sent := self.sent ++
        [{ phase := self.phase
           eventRoots
           old := self.state.prevSnapshot
           new := self.state.snapshot
           changes := buildDiff self.phase self.state.prevSnapshot.entriesByPath self.state.snapshot.entriesByPath
             (mergeEventRoots self.state.changedPaths eventRoots) }] }

/-- The paths of a refresh with what the file system answers of them. -/
def reload (recursive : Bool) (paths : List RelPath) (answers : List (Answer R)) : BackgroundScanner R :=
  let (state, nextEntryId) := self.state.reloadEntriesForPaths settings recursive self.nextEntryId (paths.zip answers)
  { self with state, nextEntryId }

def apply [DecidableEq R] : ScannerMove R → BackgroundScanner R
  | .startRoot ignored => self.startRoot ignored
  | .startScan path => { self with scans := self.scans ++ [⟨path, [], []⟩] }
  | .listChild ix name metadata =>
    match self.scans[ix]? with
    | some scan => self.listChild scan ix name metadata
    | none => self
  | .excludeChild ix name =>
    match self.scans[ix]? with
    | some scan => self.excludeChild scan ix name
    | none => self
  | .failScan ix => { self with scans := self.scans.eraseIdx ix }
  | .finishScan ix inRepo =>
    match self.scans[ix]? with
    | some scan =>
      { self with
        state := self.state.finishScan settings inRepo scan.path scan.newEntries
        scans := self.scans.eraseIdx ix }
    | none => self
  | .watchExternal canonical relative =>
    { self with state := { self.state with
        externalCanonicalToRelative :=
          KeyedList.insertOrReplace Prod.fst (canonical, relative) self.state.externalCanonicalToRelative } }
  | .loadPaths paths => { self with state := { self.state with pathsToScan := paths ++ self.state.pathsToScan } }
  | .takePathsToScan => { self with state := { self.state with pathsToScan := [] } }
  | .addPathPrefix path => { self with state := { self.state with pathPrefixesToScan := path :: self.state.pathPrefixesToScan } }
  | .cloneSnapshot => { self with clones := self.clones ++ [self.state.snapshot] }
  | .updateIgnoreStatus ix path ignored =>
    match self.clones[ix]? with
    | some clone => { self with state := self.state.updateIgnoreStatus clone path ignored }
    | none => self
  | .receiveRequest relativePaths => { self with requests := self.requests ++ [self.state.requestedPaths relativePaths] }
  | .receiveEvents rootCanonicalPath rootPath events =>
    { self with batches := self.batches ++ [self.state.eventRoots settings rootCanonicalPath rootPath events] }
  | .bumpScanId forRequest =>
    let snapshot := self.state.snapshot
    { self with state := { self.state with snapshot := { snapshot with
        scanId := snapshot.scanId + 1
        completedScanId := if forRequest ∧ snapshot.completedScanId = snapshot.scanId
          then snapshot.scanId + 1 else snapshot.completedScanId } } }
  | .reloadRequest ix answers =>
    match self.requests[ix]? with
    | some paths => self.reload settings false paths answers
    | none => self
  | .recordRequest ix =>
    match self.requests[ix]? with
    | some paths => { self with state := { self.state with
        changedPaths := paths.foldl (fun changedPaths path => SortedVec.searchInsert path changedPaths) self.state.changedPaths } }
    | none => self
  | .reloadEvents ix answers =>
    match self.batches[ix]? with
    | some eventRoots => self.reload settings true (eventRoots.map EventRoot.path) answers
    | none => self
  | .completeEvents =>
    let (dropped, removedEntries) := self.state.removedEntries.rotate
    { self with state := { self.state with
        snapshot := { self.state.snapshot with completedScanId := self.state.snapshot.scanId }
        removedEntries
        scannedDirs := self.state.scannedDirs.filter fun id => ¬ dropped.any fun entry => entry.id = id } }
  | .setPhase phase => { self with phase }
  | .sendStatusUpdate scanning barrier eventRoots => self.sendStatusUpdate scanning barrier eventRoots

/-- The root is flagged first of all. A directory is listed with each name once, and an update is sent with the roots of a batch, or with
none. -/
def Allowed : ScannerMove R → Prop
  | .startRoot _ => self.state.removedEntries = .new ∧ self.scans = [] ∧ self.sent = []
  | .startScan path => settings.isPathExcluded path = false
  | .listChild ix name _ => ∀ scan, self.scans[ix]? = some scan →
      settings.isPathExcluded (scan.path ++ [name]) = false ∧ ∀ entry ∈ scan.newEntries, entry.path ≠ scan.path ++ [name]
  | .excludeChild ix name => ∀ scan, self.scans[ix]? = some scan → settings.isPathExcluded (scan.path ++ [name]) = true
  | .failScan ix => ∀ scan, self.scans[ix]? = some scan → scan.newEntries = []
  | .reloadRequest ix answers => ∀ paths, self.requests[ix]? = some paths → answers.length = paths.length
  | .reloadEvents ix answers => ∀ roots, self.batches[ix]? = some roots → answers.length = roots.length
  | .sendStatusUpdate _ _ eventRoots => eventRoots = [] ∨ eventRoots ∈ self.batches
  | _ => True

end BackgroundScanner

/-! ## What holds of the entries -/

/-- Each entry but the root is in a directory that has an entry. -/
def Snapshot.Rooted {D : Type} (snapshot : Snapshot D) : Prop :=
  ∀ entry ∈ snapshot.entriesByPath, entry.path ≠ [] → ∃ parent ∈ snapshot.entriesByPath, parent.path = entry.path.dropLast

/-- The snapshots that a scanner can begin with. -/
structure Snapshot.Ready (snapshot : Snapshot (LocalDetails R)) (nextEntryId : Nat) : Prop where
  byPath : KeyedList.Sorted Entry.path snapshot.entriesByPath
  byId : KeyedList.Sorted PathEntry.id snapshot.entriesById
  consistent : snapshot.Consistent
  rooted : snapshot.Rooted
  ids : ∀ entry ∈ snapshot.entriesByPath, entry.id < nextEntryId

namespace BackgroundScanner

/-- The scanners that are reached by moves that meet a condition. -/
inductive Reach [DecidableEq R] (settings : Settings) (condition : BackgroundScanner R → ScannerMove R → Prop) :
    BackgroundScanner R → Prop
  | start {snapshot : Snapshot (LocalDetails R)} {nextEntryId : Nat} (scanningEnabled : Bool) (h : snapshot.Ready nextEntryId) :
      Reach settings condition (start snapshot nextEntryId scanningEnabled)
  | move {scanner : BackgroundScanner R} (move : ScannerMove R) : Reach settings condition scanner → scanner.Allowed settings move →
      condition scanner move → Reach settings condition (scanner.apply settings move)

/-- Both trees hold the same pairs and no id twice, each entry's directory has an entry, and no id of a removed entry is in use. -/
structure Consistent (scanner : BackgroundScanner R) : Prop where
  consistent : scanner.state.snapshot.Consistent
  rooted : scanner.state.snapshot.Rooted
  spare : ∀ removed, scanner.state.removedEntries.Holds removed →
    ∀ entry ∈ scanner.state.snapshot.entriesByPath, entry.id ≠ removed.id

end BackgroundScanner

/-- An entry apart from its flag. -/
def Entry.unflagged {D : Type} (entry : Entry D) : Entry D := { entry with isIgnored := false }

/-- No entry has come, gone or changed, apart from flags. -/
def OnlyFlags {D : Type} (before after : Snapshot D) : Prop :=
  ∀ path, (after.entryForPath path).map Entry.unflagged = (before.entryForPath path).map Entry.unflagged

namespace BackgroundScannerState

variable (settings : Settings) (inRepo : Bool)

/-- What is loaded of a directory is removed because it is not to be scanned. -/
def PutsOff (self : BackgroundScannerState R) (entry : LocalEntry R) : Prop :=
  let placed := self.reuseEntryId entry
  placed.1.isDir = true ∧ placed.2.shouldScanDirectory settings placed.1 inRepo = false ∧ placed.1.isIgnored = false ∧
    placed.1.details.isExternal = false ∧ (placed.2.snapshot.childEntries placed.1.path).isEmpty = false

/-- An entry that is listed where one is already gets its id just when this one stays: no removed entry is found for it, unless what is
loaded there is put off. -/
def KeepsIds : BackgroundScannerState R → List (LocalEntry R) → Prop
  | _, [] => True
  | self, entry :: entries =>
    ((∃ old ∈ self.snapshot.entriesByPath, old.path = entry.path) →
      (self.removedEntries.knows entry.path entry.details.inode = true ↔ self.PutsOff settings inRepo entry)) ∧
      KeepsIds (self.placeEntry settings inRepo entry).2 entries

/-- No loaded directory of a listing is put off. -/
def PutsOffNone : BackgroundScannerState R → List (LocalEntry R) → Prop
  | _, [] => True
  | self, entry :: entries => ¬ self.PutsOff settings inRepo entry ∧ PutsOffNone (self.placeEntry settings inRepo entry).2 entries

/-- What is put in for a refresh is in a directory that has an entry. -/
def KeepsRooted (recursive : Bool) : BackgroundScannerState R → Nat → List (RelPath × Answer R) → Prop
  | _, _, [] => True
  | self, nextEntryId, (path, answer) :: paths =>
    (∀ metadata inRepo, answer = .found metadata inRepo → path = [] ∨
      ∃ parent ∈ self.snapshot.entriesByPath, parent.path = path.dropLast) ∧
      KeepsRooted recursive (self.insertRefreshed settings recursive nextEntryId path answer).1
        (self.insertRefreshed settings recursive nextEntryId path answer).2 paths

/-- The entries whose flag is about to be changed are, apart from the flag, those of the clone. -/
def KeepsRefreshed (self : BackgroundScannerState R) (clone : Snapshot (LocalDetails R)) (path : RelPath) (ignored : RelPath → Bool → Bool) :
    Prop :=
  ∀ entry ∈ reflagged clone path ignored, ∃ found ∈ self.snapshot.entriesByPath, found.unflagged = entry.unflagged

end BackgroundScannerState

namespace BackgroundScanner

variable (settings : Settings)

/-- Ids stay with what stays, what is refreshed is put in a directory that has an entry, and ignore statuses are written to entries that
have not been refreshed since. -/
def KeepsEntries (self : BackgroundScanner R) : ScannerMove R → Prop
  | .finishScan ix inRepo => ∀ scan, self.scans[ix]? = some scan → self.state.KeepsIds settings inRepo scan.newEntries
  | .reloadRequest ix answers => ∀ paths, self.requests[ix]? = some paths →
      (self.state.removeRefreshed false (paths.zip answers)).KeepsRooted settings false self.nextEntryId (paths.zip answers)
  | .reloadEvents ix answers => ∀ roots, self.batches[ix]? = some roots →
      (self.state.removeRefreshed true ((roots.map EventRoot.path).zip answers)).KeepsRooted settings true self.nextEntryId
        ((roots.map EventRoot.path).zip answers)
  | .updateIgnoreStatus ix path ignored => ∀ clone, self.clones[ix]? = some clone → self.state.KeepsRefreshed clone path ignored
  | _ => True

/-- The paths of a batch leave the recorded paths sorted, and a scan that has changed entries, or changes them at its end, records them
before anything is sent, in a directory that is one still. -/
def Records (self : BackgroundScanner R) : ScannerMove R → Prop
  | .startRoot ignored => ∀ rootEntry, self.state.snapshot.entryForPath [] = some rootEntry → ignored = true → rootEntry.isIgnored = false →
      rootEntry.isDir = true ∧ self.state.scanningEnabled = true
  | .failScan ix => ∀ scan, self.scans[ix]? = some scan → scan.unrecorded = []
  | .finishScan ix inRepo => ∀ scan, self.scans[ix]? = some scan →
      (∃ parent ∈ self.state.snapshot.entriesByPath, parent.path = scan.path ∧ parent.isDir = true) ∨
        scan.unrecorded = [] ∧ self.state.PutsOffNone settings inRepo scan.newEntries
  | .reloadEvents ix _ => ∀ roots, self.batches[ix]? = some roots →
      SortedVec.Sorted (SortedVec.extendSorted (roots.map EventRoot.path) self.state.changedPaths)
  | .sendStatusUpdate _ _ _ => ∀ scan ∈ self.scans, scan.unrecorded = []
  | _ => True

end BackgroundScanner

/-! ## What holds of the updates -/

/-- A change as an edit of the entries. -/
def changeEdit (new : Snapshot (LocalDetails R)) (change : RelPath × Nat × PathChange) : List (KeyedList.Edit (LocalEntry R) RelPath) :=
  if change.2.2 = .removed then [.remove change.1] else ((new.entryForPath change.1).map .insert).toList

/-- The changes of an update come in the order of the paths, tell what has changed and nothing else, but for paths that were rescanned or
that raced with the first scan, and turn the entries that were sent before into those that are sent. -/
structure Sent.Exact (sent : Sent R) : Prop where
  ordered : sent.changes.Pairwise Before
  right : ∀ change ∈ sent.changes, Told (Diff.MayRepeat sent.phase sent.eventRoots change.1)
    (sent.old.entryForPath change.1) (sent.new.entryForPath change.1) change
  listed : ∀ path, Lists (sent.old.entryForPath path) (sent.new.entryForPath path) path sent.changes
  applied : KeyedList.editBatch Entry.path (sent.changes.flatMap (changeEdit sent.new)) sent.old.entriesByPath = sent.new.entriesByPath

/-- Each update tells the changes since the one before. -/
structure BackgroundScanner.Tells (scanner : BackgroundScanner R) : Prop where
  exact : ∀ sent ∈ scanner.sent, sent.Exact
  chained : scanner.sent.IsChain fun sent next => next.old = sent.new
  last : ∀ sent, scanner.sent.getLast? = some sent → scanner.state.prevSnapshot = sent.new

end Wu.Worktree
