import Wu.Worktree.ScannerSystem

/-!
# What the sections of the scanner change

Which paths each section can change, and what it leaves as it is.
-/

namespace Wu.Worktree

open List Snapshot KeyedList SortedVec

variable {R : Type}

/-- Sorted lists with the same entries at a path. -/
theorem find_congr {entries entries' : List (LocalEntry R)} (hs : KeyedList.Sorted Entry.path entries)
    (hs' : KeyedList.Sorted Entry.path entries') {path : RelPath} (h : ∀ entry, entry.path = path → (entry ∈ entries' ↔ entry ∈ entries)) :
    KeyedList.find? Entry.path path entries' = KeyedList.find? Entry.path path entries := by
  refine Option.ext fun entry => ?_
  rw [KeyedList.find?_eq_some hs', KeyedList.find?_eq_some hs]
  exact and_congr_left fun hpath => h _ hpath

namespace Snapshot

/-- The children are some of the entries, in their order, and lie below their parent. -/
theorem siblings_spec {parent : RelPath} {entries : List (LocalEntry R)} : ∀ {last : Option RelPath},
    (siblings parent last entries).Sublist entries ∧ ∀ entry ∈ siblings parent last entries, parent <+: entry.path := by
  induction entries with
  | nil => exact fun {last} => ⟨List.Sublist.refl _, nofun⟩
  | cons first entries ih =>
    intro last
    unfold siblings
    split
    · exact ⟨ih.1.cons _, ih.2⟩
    · split
      · rename_i hbel
        refine ⟨ih.1.cons_cons _, fun entry hmem => ?_⟩
        rcases mem_cons.mp hmem with rfl | hmem
        · exact isPrefixOf_iff_prefix.mp hbel
        · exact ih.2 _ hmem
      · exact ⟨nil_sublist _, nofun⟩

theorem childEntries_sublist (snapshot : Snapshot (LocalDetails R)) (parent : RelPath) :
    (snapshot.childEntries parent).Sublist snapshot.entriesByPath := siblings_spec.1.trans (dropWhile_sublist _)

end Snapshot

namespace BackgroundScannerState

variable {self : BackgroundScannerState R} {settings : Settings} {inRepo : Bool}

/-! ### Removed paths -/

/-- The ids of removed entries, sorted. -/
theorem mem_removedIds {removed : List (LocalEntry R)} {id : Nat} : ∀ {ids : List Nat},
    id ∈ removed.foldl (fun removedIds entry => SortedVec.searchInsert entry.id removedIds) ids ↔
      id ∈ ids ∨ ∃ entry ∈ removed, entry.id = id := by
  induction removed with
  | nil => exact fun {ids} => ⟨.inl, fun h => h.resolve_right nofun⟩
  | cons first removed ih =>
    intro ids
    rw [foldl_cons, ih, mem_searchInsert, exists_mem_cons_iff]
    refine ⟨?_, ?_⟩
    · rintro ((rfl | h) | h)
      · exact .inr (.inl rfl)
      · exact .inl h
      · exact .inr (.inr h)
    · rintro (h | rfl | h)
      · exact .inl (.inr h)
      · exact .inl (.inl rfl)
      · exact .inr h

/-- What is removed are the entries at a path and below it. -/
theorem removePath_spec (hs : KeyedList.Sorted Entry.path self.snapshot.entriesByPath) (path : RelPath) :
    ∃ removed : List (LocalEntry R), removed.Sublist self.snapshot.entriesByPath ∧
      (∀ entry, entry ∈ removed ↔ entry ∈ self.snapshot.entriesByPath ∧ path <+: entry.path) ∧
      KeyedList.Sorted Entry.path (self.removePathFromSnapshot path).snapshot.entriesByPath ∧
      (∀ entry, entry ∈ (self.removePathFromSnapshot path).snapshot.entriesByPath ↔
        entry ∈ self.snapshot.entriesByPath ∧ ¬ path <+: entry.path) ∧
      (self.removePathFromSnapshot path).removedEntries = removed.foldl RemovedEntries.insert self.removedEntries ∧
      (self.removePathFromSnapshot path).snapshot.entriesById = KeyedList.editBatch PathEntry.id
        ((removed.foldl (fun removedIds entry => SortedVec.searchInsert entry.id removedIds) []).map .remove)
        self.snapshot.entriesById := by
  obtain ⟨small, rest, htake, hdrop, hitems, hsma, hrest, -, hsortR⟩ :=
    hs.split path fun entry : LocalEntry R => (decide_eq_true_iff : decide (entry.path < path) = true ↔ _)
  have hbel : ∀ {entry : LocalEntry R}, entry ∈ rest.takeWhile (fun entry => path.isPrefixOf entry.path) ↔
      entry ∈ rest ∧ path <+: entry.path := mem_takeWhile_below hsortR hrest
  have hsuf : ∀ {entry : LocalEntry R}, entry ∈ rest.dropWhile (fun entry => path.isPrefixOf entry.path) ↔
      entry ∈ rest ∧ ¬ path <+: entry.path := mem_dropWhile_below hsortR hrest
  have hsmaN : ∀ entry ∈ small, ¬ path <+: entry.path :=
    fun entry hmem habo => absurd (hsma _ hmem) (not_lt.mpr (le_of_isAbove habo))
  have hkept : (small ++ rest.dropWhile fun entry => path.isPrefixOf entry.path).Sublist self.snapshot.entriesByPath :=
    hitems ▸ (List.Sublist.refl _).append (dropWhile_sublist _)
  unfold removePathFromSnapshot
  rw [htake, hdrop]
  refine ⟨_, hitems ▸ ((takeWhile_sublist _).trans (sublist_append_right _ rest)), fun entry => ?_, hs.sublist hkept,
    fun entry => ?_, rfl, rfl⟩
  · rw [hbel, hitems, mem_append]
    constructor
    · exact fun ⟨hmem, habo⟩ => ⟨.inr hmem, habo⟩
    · rintro ⟨hmem | hmem, habo⟩
      · exact absurd habo (hsmaN _ hmem)
      · exact ⟨hmem, habo⟩
  · rw [mem_append, hsuf, hitems, mem_append]
    constructor
    · rintro (hmem | ⟨hmem, hnot⟩)
      · exact ⟨.inl hmem, hsmaN _ hmem⟩
      · exact ⟨.inr hmem, hnot⟩
    · rintro ⟨hmem | hmem, hnot⟩
      · exact .inl hmem
      · exact .inr ⟨hmem, hnot⟩

/-! ### What is touched -/

/-- The entries are sorted, only those of some paths may be others, and no change is recorded or sent. -/
structure Touches (touched : RelPath → Prop) (before after : BackgroundScannerState R) : Prop where
  sorted : KeyedList.Sorted Entry.path before.snapshot.entriesByPath → KeyedList.Sorted Entry.path after.snapshot.entriesByPath
  same : KeyedList.Sorted Entry.path before.snapshot.entriesByPath →
    ∀ path, ¬ touched path → after.snapshot.entryForPath path = before.snapshot.entryForPath path
  changedPaths : after.changedPaths = before.changedPaths
  prevSnapshot : after.prevSnapshot = before.prevSnapshot

variable {touched touched' : RelPath → Prop} {before middle after : BackgroundScannerState R}

theorem Touches.refl (touched : RelPath → Prop) (state : BackgroundScannerState R) : Touches touched state state where
  sorted := id
  same := fun _ _ _ => rfl
  changedPaths := rfl
  prevSnapshot := rfl

theorem Touches.trans (h : Touches touched before middle) (h' : Touches touched middle after) : Touches touched before after where
  sorted := fun hs => h'.sorted (h.sorted hs)
  same := fun hs path hnot => (h'.same (h.sorted hs) path hnot).trans (h.same hs path hnot)
  changedPaths := h'.changedPaths.trans h.changedPaths
  prevSnapshot := h'.prevSnapshot.trans h.prevSnapshot

theorem Touches.mono (h : Touches touched before after) (hmono : ∀ path, touched path → touched' path) : Touches touched' before after where
  sorted := h.sorted
  same := fun hs path hnot => h.same hs path fun ht => hnot (hmono path ht)
  changedPaths := h.changedPaths
  prevSnapshot := h.prevSnapshot

theorem touches_removePath (self : BackgroundScannerState R) (path : RelPath) :
    Touches (path <+: ·) self (self.removePathFromSnapshot path) where
  sorted := fun hs => by
    obtain ⟨_, -, -, hsort, -⟩ := removePath_spec hs path
    exact hsort
  same := fun hs other hnot => by
    obtain ⟨_, -, -, hsort, hmem, -⟩ := removePath_spec hs path
    refine find_congr hs hsort fun entry hpath => ?_
    rw [hmem]
    exact and_iff_left (hpath ▸ hnot)
  changedPaths := rfl
  prevSnapshot := rfl

/-- Nothing but a removed entry is used up for an id. -/
theorem reusedEntryId_spec (self : BackgroundScannerState R) (path : RelPath) (inode mtime : Nat) :
    ∃ reused removedEntries, self.reusedEntryId path inode mtime = (reused, { self with removedEntries }) := by
  unfold reusedEntryId
  split
  · exact ⟨_, _, rfl⟩
  · split
    · exact ⟨_, _, rfl⟩
    · exact ⟨_, self.removedEntries, rfl⟩

theorem reuseEntryId_spec (self : BackgroundScannerState R) (entry : LocalEntry R) :
    ∃ id removedEntries, self.reuseEntryId entry = ({ entry with id }, { self with removedEntries }) := by
  unfold reuseEntryId
  split
  · exact ⟨entry.id, self.removedEntries, rfl⟩
  · rename_i mtime _
    obtain ⟨reused, removedEntries, hreus⟩ := self.reusedEntryId_spec _ _ _
    rw [hreus]
    exact ⟨_, removedEntries, rfl⟩

/-- At the start there are no removed entries, so that an entry has the id of the one at its path. -/
theorem reuseEntryId_new {entry existing : LocalEntry R} (hnew : self.removedEntries = .new)
    (hexi : self.snapshot.entryForPath entry.path = some existing) (hid : existing.id = entry.id) :
    self.reuseEntryId entry = (entry, self) := by
  unfold reuseEntryId
  split
  · rfl
  · have hreus : ∀ mtime, self.reusedEntryId entry.path entry.details.inode mtime = (some existing.id, self) := by
      intro mtime
      unfold reusedEntryId
      rw [hnew, hexi]
      rfl
    rw [hreus, hid]
    rfl

theorem placeEntry_path (settings : Settings) (inRepo : Bool) (self : BackgroundScannerState R) (entry : LocalEntry R) :
    (self.placeEntry settings inRepo entry).1.path = entry.path := by
  obtain ⟨id, removedEntries, hreu⟩ := self.reuseEntryId_spec _
  unfold placeEntry
  rw [hreu]
  dsimp only
  split <;> rfl

theorem touches_placeEntry (settings : Settings) (inRepo : Bool) (self : BackgroundScannerState R) (entry : LocalEntry R) :
    Touches (entry.path <+: ·) self (self.placeEntry settings inRepo entry).2 := by
  obtain ⟨id, removedEntries, hreu⟩ := self.reuseEntryId_spec _
  have hreus : Touches (entry.path <+: ·) self { self with removedEntries } := ⟨fun hs => hs, fun _ _ _ => rfl, rfl, rfl⟩
  unfold placeEntry
  rw [hreu]
  dsimp only
  split
  · split
    · have hrem := touches_removePath { self with removedEntries } entry.path
      exact hreus.trans ⟨hrem.sorted, hrem.same, hrem.changedPaths, hrem.prevSnapshot⟩
    · exact hreus
  · exact hreus

/-- The loop places entries at the paths that were listed. -/
theorem placeEntries_paths (settings : Settings) (inRepo : Bool) (entries : List (LocalEntry R)) : ∀ (self : BackgroundScannerState R),
    (placeEntries settings inRepo self entries).1.map Entry.path = entries.map Entry.path := by
  induction entries with
  | nil => exact fun _ => rfl
  | cons entry entries ih =>
    intro self
    unfold placeEntries
    rw [map_cons, map_cons, self.placeEntry_path, ih]

theorem touches_placeEntries (settings : Settings) (inRepo : Bool) (entries : List (LocalEntry R)) : ∀ (self : BackgroundScannerState R),
    Touches (fun path => ∃ entry ∈ entries, entry.path <+: path) self (placeEntries settings inRepo self entries).2 := by
  induction entries with
  | nil => exact fun self => Touches.refl _ self
  | cons entry entries ih =>
    intro self
    have hpla := self.touches_placeEntry settings inRepo entry
    have hrest := ih (self.placeEntry settings inRepo entry).2
    exact (hpla.mono fun path h => ⟨entry, mem_cons_self, h⟩).trans
      (hrest.mono fun path ⟨other, hoth, h⟩ => ⟨other, .tail _ hoth, h⟩)

/-- What is not put off changes no entry. -/
theorem placeEntry_snapshot {entry : LocalEntry R} (h : ¬ self.PutsOff settings inRepo entry) :
    (self.placeEntry settings inRepo entry).2.snapshot = self.snapshot := by
  obtain ⟨id, removedEntries, hreu⟩ := self.reuseEntryId_spec _
  unfold PutsOff at h
  unfold placeEntry
  rw [hreu] at h ⊢
  dsimp only at h ⊢
  split
  · rename_i hscan
    split
    · rename_i hput
      rw [Bool.and_eq_true, Bool.not_eq_true'] at hscan
      rw [Bool.and_eq_true, Bool.and_eq_true, Bool.not_eq_true', Bool.not_eq_true', Bool.not_eq_true'] at hput
      exact absurd ⟨hscan.1, hscan.2, hput.1.1, hput.1.2, hput.2⟩ h
    · rfl
  · rfl

theorem placeEntries_snapshot (entries : List (LocalEntry R)) : ∀ (self : BackgroundScannerState R),
    self.PutsOffNone settings inRepo entries → (placeEntries settings inRepo self entries).2.snapshot = self.snapshot := by
  induction entries with
  | nil => exact fun _ _ => rfl
  | cons entry entries ih =>
    intro self h
    exact (ih _ h.2).trans (placeEntry_snapshot h.1)

/-! ### Listings that are put in -/

theorem populateDir_of_not {parentPath : RelPath} {entries : List (LocalEntry R)}
    (h : ∀ parent ∈ self.snapshot.entriesByPath, parent.path = parentPath → parent.isDir = false) :
    self.populateDir parentPath entries = self := by
  unfold populateDir
  split
  · rfl
  · rename_i parent hpar
    obtain ⟨hmem, hpath⟩ := of_find? hpar
    rw [h _ hmem hpath]
    rfl

/-- The directory keeps its id and its path, and what is listed replaces what is at its paths. -/
theorem populateDir_of_dir (hs : KeyedList.Sorted Entry.path self.snapshot.entriesByPath) {parent : LocalEntry R}
    (hmem : parent ∈ self.snapshot.entriesByPath) (hdir : parent.isDir = true) (entries : List (LocalEntry R)) :
    ∃ parent' : LocalEntry R, parent'.id = parent.id ∧ parent'.path = parent.path ∧ self.populateDir parent.path entries =
      { self with
        snapshot := { self.snapshot with
          entriesByPath := KeyedList.editBatch Entry.path ((parent' :: entries).map .insert) self.snapshot.entriesByPath
          entriesById := KeyedList.editBatch PathEntry.id
            (entries.map fun entry => .insert { entry.pathEntry with scanId := self.snapshot.scanId }) self.snapshot.entriesById }
        scannedDirs := parent'.id :: self.scannedDirs
        changedPaths := SortedVec.searchInsert parent.path self.changedPaths } := by
  have hfind : self.snapshot.entryForPath parent.path = some parent := (KeyedList.find?_eq_some hs).mpr ⟨hmem, rfl⟩
  refine ⟨if parent.details.kind = .dir then parent else parent.withKind .dir, ?_, ?_, ?_⟩
  · split <;> rfl
  · split <;> rfl
  · unfold populateDir
    rw [hfind]
    dsimp only
    rw [if_pos hdir]

/-- What a listing changes lies at the directory or at its children. -/
theorem populateDir_same (hs : KeyedList.Sorted Entry.path self.snapshot.entriesByPath) {parent : LocalEntry R}
    (hmem : parent ∈ self.snapshot.entriesByPath) (hdir : parent.isDir = true) {entries : List (LocalEntry R)}
    (hpat : (entries.map Entry.path).Nodup) (hchn : ∀ entry ∈ entries, entry.path ≠ parent.path) :
    KeyedList.Sorted Entry.path (self.populateDir parent.path entries).snapshot.entriesByPath ∧
      (∀ path, path ≠ parent.path → path ∉ entries.map Entry.path →
        (self.populateDir parent.path entries).snapshot.entryForPath path = self.snapshot.entryForPath path) ∧
      (self.populateDir parent.path entries).changedPaths = SortedVec.searchInsert parent.path self.changedPaths ∧
      (self.populateDir parent.path entries).prevSnapshot = self.prevSnapshot := by
  obtain ⟨parent', -, hpath, hpop⟩ := populateDir_of_dir hs hmem hdir _
  have hnod : ((parent' :: entries).map Entry.path).Nodup := by
    refine nodup_cons.mpr ⟨fun h => ?_, hpat⟩
    obtain ⟨entry, hent, heq⟩ := mem_map.mp h
    exact hchn _ hent (heq.trans hpath)
  obtain ⟨hsort, hbat⟩ := editBatch_inserts hs hnod
  rw [hpop]
  refine ⟨hsort, fun path hnot hnotC => ?_, rfl, rfl⟩
  refine find_congr hs hsort fun entry hent => ?_
  have hnew : entry.path ∉ (parent' :: entries).map Entry.path := by
    rw [map_cons, mem_cons, hpath, hent]
    exact fun h => h.elim hnot hnotC
  rw [hbat]
  exact ⟨fun h => (h.resolve_left fun hin => hnew (mem_map_of_mem hin)).1, fun h => .inr ⟨h, hnew⟩⟩

/-! ### Refreshed paths -/

theorem touches_removeRefreshed (recursive : Bool) (paths : List (RelPath × Answer R)) : ∀ (self : BackgroundScannerState R),
    Touches (fun path => ∃ root ∈ paths.map Prod.fst, root <+: path) self (self.removeRefreshed recursive paths) := by
  induction paths with
  | nil => exact fun self => Touches.refl _ self
  | cons first paths ih =>
    intro self
    obtain ⟨root, answer⟩ := first
    have hrest : ∀ state : BackgroundScannerState R, Touches (fun path => ∃ other ∈ ((root, answer) :: paths).map Prod.fst, other <+: path)
        state (state.removeRefreshed recursive paths) :=
      fun state => (ih _).mono fun path ⟨other, hoth, h⟩ => ⟨other, .tail _ hoth, h⟩
    have hrem : Touches (fun path => ∃ other ∈ ((root, answer) :: paths).map Prod.fst, other <+: path) self
        (self.removePathFromSnapshot root) :=
      (self.touches_removePath root).mono fun path h => ⟨root, mem_cons_self, h⟩
    cases answer with
    | gone => exact hrem.trans (hrest _)
    | error =>
      cases recursive with
      | true => exact hrem.trans (hrest _)
      | false => exact hrest self
    | found =>
      cases recursive with
      | true => exact hrem.trans (hrest _)
      | false => exact hrest self

theorem refreshEntry_path (settings : Settings) (recursive inRepo : Bool) (self : BackgroundScannerState R) (entry : LocalEntry R) :
    (self.refreshEntry settings recursive inRepo entry).path = entry.path ∧
      (self.refreshEntry settings recursive inRepo entry).id = entry.id := by
  unfold refreshEntry
  split <;> exact ⟨rfl, rfl⟩

end BackgroundScannerState

theorem Snapshot.withExistingKind_same (snapshot : Snapshot (LocalDetails R)) (entry : LocalEntry R) :
    (snapshot.withExistingKind entry).id = entry.id ∧ (snapshot.withExistingKind entry).path = entry.path := by
  unfold Snapshot.withExistingKind
  split
  · split <;> exact ⟨rfl, rfl⟩
  · exact ⟨rfl, rfl⟩

theorem Snapshot.withExistingKind_of_kind {snapshot : Snapshot (LocalDetails R)} {entry existing : LocalEntry R}
    (hexi : snapshot.entryForPath entry.path = some existing) (hkind : existing.details.kind = entry.details.kind) :
    snapshot.withExistingKind entry = entry := by
  unfold Snapshot.withExistingKind
  rw [hexi]
  dsimp only
  rw [hkind]
  split <;> rfl

/-- An entry is put in at its path. -/
theorem Snapshot.insertLocalEntry_spec {snapshot : Snapshot (LocalDetails R)} (hs : KeyedList.Sorted Entry.path snapshot.entriesByPath)
    (entry : LocalEntry R) : KeyedList.Sorted Entry.path (snapshot.insertLocalEntry entry).entriesByPath ∧
      ∀ other, other ∈ (snapshot.insertLocalEntry entry).entriesByPath ↔
        other = snapshot.withExistingKind entry ∨ other ∈ snapshot.entriesByPath ∧ other.path ≠ entry.path := by
  obtain ⟨hsort, hmem⟩ := insertOrReplace_spec hs _
  refine ⟨hsort, fun other => ?_⟩
  rw [← (snapshot.withExistingKind_same entry).2]
  exact hmem _

namespace BackgroundScannerState

variable {self : BackgroundScannerState R} {settings : Settings} {recursive : Bool}

/-- An id is found for a path: one that was in use, or the next one. -/
theorem entryIdFor_spec (self : BackgroundScannerState R) (nextEntryId : Nat) (path : RelPath) (metadata : Metadata R) :
    ∃ id nextEntryId' removedEntries, self.entryIdFor nextEntryId path metadata = (id, nextEntryId', { self with removedEntries }) ∧
      (nextEntryId' = nextEntryId + 1 ∧ id = nextEntryId ∨ nextEntryId' = nextEntryId) := by
  obtain ⟨reused, removedEntries, hreus⟩ := self.reusedEntryId_spec path _ _
  unfold entryIdFor
  rw [hreus]
  cases reused with
  | none => exact ⟨_, _, removedEntries, rfl, .inl ⟨rfl, rfl⟩⟩
  | some id => exact ⟨id, nextEntryId, removedEntries, rfl, .inr rfl⟩

theorem touches_insertRefreshed (settings : Settings) (recursive : Bool) (self : BackgroundScannerState R) (nextEntryId : Nat) (path : RelPath) (answer : Answer R) :
    Touches (path <+: ·) self (self.insertRefreshed settings recursive nextEntryId path answer).1 := by
  cases answer with
  | error => exact ⟨fun hs => hs, fun _ _ _ => rfl, rfl, rfl⟩
  | gone => exact ⟨fun hs => hs, fun _ _ _ => rfl, rfl, rfl⟩
  | found metadata inRepo =>
    obtain ⟨id, nextEntryId', removedEntries, hid, -⟩ := self.entryIdFor_spec _ path _
    unfold insertRefreshed
    dsimp only
    rw [hid]
    obtain ⟨hpath, -⟩ := refreshEntry_path _ _ _ _ _
    refine ⟨fun hs => ?_, fun hs other hnot => ?_, rfl, rfl⟩
    · exact (insertLocalEntry_spec hs _).1
    · obtain ⟨hsort, hmem⟩ := insertLocalEntry_spec hs _
      refine find_congr hs hsort fun entry hent => ?_
      have hne : entry.path ≠ path := fun heq => hnot (hent ▸ heq ▸ prefix_refl _)
      rw [hmem]
      constructor
      · rintro (rfl | h)
        · exact absurd ((withExistingKind_same _ _).2.trans hpath) hne
        · exact h.1
      · exact fun h => .inr ⟨h, fun heq => hne (heq.trans hpath)⟩

theorem touches_insertAllRefreshed (settings : Settings) (recursive : Bool) (paths : List (RelPath × Answer R)) : ∀ (self : BackgroundScannerState R) (nextEntryId : Nat),
    Touches (fun path => ∃ root ∈ paths.map Prod.fst, root <+: path) self
      (self.insertAllRefreshed settings recursive nextEntryId paths).1 := by
  induction paths with
  | nil => exact fun self _ => Touches.refl _ self
  | cons first paths ih =>
    intro self nextEntryId
    obtain ⟨path, answer⟩ := first
    have hins := self.touches_insertRefreshed settings recursive nextEntryId path answer
    refine (hins.mono fun other h => ⟨path, mem_cons_self, h⟩).trans ((ih _ _).mono ?_)
    exact fun other ⟨root, hroot, h⟩ => ⟨root, .tail _ hroot, h⟩

/-- A reload changes what lies at its paths or below them, and records them. -/
theorem reload_spec (settings : Settings) (recursive : Bool) (self : BackgroundScannerState R) (nextEntryId : Nat) (paths : List (RelPath × Answer R)) :
    ∃ middle, Touches (fun path => ∃ root ∈ paths.map Prod.fst, root <+: path) self middle ∧
      (self.reloadEntriesForPaths settings recursive nextEntryId paths).1 =
        { middle with changedPaths := SortedVec.extendSorted (paths.map Prod.fst) self.changedPaths } := by
  have hrem := self.touches_removeRefreshed recursive paths
  have hins := (self.removeRefreshed recursive paths).touches_insertAllRefreshed settings recursive paths
    nextEntryId
  refine ⟨_, hrem.trans hins, ?_⟩
  rw [← (hrem.trans hins).changedPaths]
  rfl

/-! ### Ignore statuses -/

variable {clone : Snapshot (LocalDetails R)} {path : RelPath}

theorem mem_reflagged {ignored : RelPath → Bool → Bool} {entry : LocalEntry R} :
    entry ∈ reflagged clone path ignored ↔ ∃ child ∈ clone.childEntries path, ignored child.path child.isDir ≠ child.isIgnored ∧
      entry = { child with isIgnored := ignored child.path child.isDir } := by
  unfold reflagged
  rw [mem_map]
  refine exists_congr fun child => ?_
  rw [mem_filter, decide_eq_true_iff, and_assoc]
  exact and_congr_right fun _ => and_congr_right fun _ => eq_comm

/-- The entries whose flag is changed have different paths. -/
theorem reflagged_paths (hs : KeyedList.Sorted Entry.path clone.entriesByPath) (path : RelPath)
    (ignored : RelPath → Bool → Bool) : ((reflagged clone path ignored).map Entry.path).Nodup := by
  have hchn : ((clone.childEntries path).map Entry.path).Nodup :=
    (pairwise_map.mpr (hs.imp fun hlt => hlt.ne)).sublist ((clone.childEntries_sublist path).map _)
  unfold reflagged
  rw [map_map]
  exact hchn.sublist (filter_sublist.map _)

/-- What ignore statuses change is recorded. -/
theorem updateIgnoreStatus_spec (hclo : KeyedList.Sorted Entry.path clone.entriesByPath)
    (hs : KeyedList.Sorted Entry.path self.snapshot.entriesByPath) (path : RelPath) (ignored : RelPath → Bool → Bool) :
    KeyedList.Sorted Entry.path (self.updateIgnoreStatus clone path ignored).snapshot.entriesByPath ∧
      ∀ entry, entry ∈ (self.updateIgnoreStatus clone path ignored).snapshot.entriesByPath ↔ entry ∈ reflagged clone path ignored ∨
          entry ∈ self.snapshot.entriesByPath ∧ entry.path ∉ (reflagged clone path ignored).map Entry.path :=
  editBatch_inserts hs (reflagged_paths hclo path _)

theorem mem_foldl_searchInsert {T : Type} {f : T → RelPath} {items : List T} : ∀ {changedPaths : List RelPath},
    path ∈ items.foldl (fun changedPaths item => SortedVec.searchInsert (f item) changedPaths) changedPaths ↔
      path ∈ changedPaths ∨ path ∈ items.map f := by
  induction items with
  | nil => exact fun {changedPaths} => ⟨.inl, fun h => h.resolve_right nofun⟩
  | cons item items ih =>
    intro changedPaths
    rw [foldl_cons, ih, mem_searchInsert, map_cons, mem_cons]
    exact ⟨fun h => h.elim (fun h => h.elim (fun h => .inr (.inl h)) .inl) fun h => .inr (.inr h),
      fun h => h.elim (fun h => .inl (.inr h)) fun h => h.elim (fun h => .inl (.inl h)) .inr⟩

theorem sorted_foldl_searchInsert {T : Type} {f : T → RelPath} {items : List T} : ∀ {changedPaths : List RelPath},
    SortedVec.Sorted changedPaths →
      SortedVec.Sorted (items.foldl (fun changedPaths item => SortedVec.searchInsert (f item) changedPaths) changedPaths) := by
  induction items with
  | nil => exact fun h => h
  | cons item items ih => exact fun h => ih (sorted_searchInsert h)

end BackgroundScannerState

end Wu.Worktree
