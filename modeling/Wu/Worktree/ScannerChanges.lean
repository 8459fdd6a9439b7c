import Mathlib.Data.List.Chain
import Mathlib.Data.List.Dedup
import Wu.Worktree.ScannerOps

/-!
# Change lists are complete

What has changed since the last update lies below a recorded path, or below one that a scan is still to record. The recorded paths are
sorted, so that an update finds all of it.
-/

namespace Wu.Worktree

open List BackgroundScannerState KeyedList

variable {R : Type}

/-- What is in a list is at an index, or is left when another item is set there. -/
theorem mem_set_of_mem {T : Type} {items : List T} {ix : Nat} {item other : T} (hitem : items[ix]? = some item) (hoth : other ∈ items)
    (new : T) : other = item ∨ other ∈ items.set ix new := by
  obtain ⟨j, hj⟩ := mem_iff_getElem?.mp hoth
  by_cases heq : ix = j
  · subst heq
    exact .inl (Option.some.inj (hj.symm.trans hitem))
  · refine .inr (mem_iff_getElem?.mpr ⟨j, ?_⟩)
    rw [List.getElem?_set_ne heq]
    exact hj

theorem mem_eraseIdx_of_mem {T : Type} {items : List T} {ix : Nat} {item other : T} (hitem : items[ix]? = some item)
    (hoth : other ∈ items) : other = item ∨ other ∈ items.eraseIdx ix := by
  obtain ⟨j, hj⟩ := mem_iff_getElem?.mp hoth
  by_cases heq : j = ix
  · subst heq
    exact .inl (Option.some.inj (hj.symm.trans hitem))
  · exact .inr (mem_eraseIdx_iff_getElem?.mpr ⟨j, heq, hj⟩)

/-- What is listed are children of the directory, each once. -/
structure ScanningDir.Listed (scan : ScanningDir R) : Prop where
  children : ∀ entry ∈ scan.newEntries, ∃ name, entry.path = scan.path ++ [name]
  paths : (scan.newEntries.map Entry.path).Nodup

/-- A listing puts in entries below its directory and not at it. -/
theorem ScanningDir.Listed.ne {scan : ScanningDir R} (h : scan.Listed) {entry : LocalEntry R} (hent : entry ∈ scan.newEntries) :
    scan.path <+: entry.path ∧ entry.path ≠ scan.path := by
  obtain ⟨name, hname⟩ := h.children _ hent
  rw [hname]
  exact ⟨prefix_append _ _, fun heq => absurd (congrArg List.length heq) (by simp)⟩

/-- A child is listed that was not yet. -/
theorem ScanningDir.Listed.list {scan : ScanningDir R} (h : scan.Listed) {name : String}
    (hnew : ∀ entry ∈ scan.newEntries, entry.path ≠ scan.path ++ [name]) (metadata : Metadata R) (id : Nat) :
    (scan.list (Entry.new (scan.path ++ [name]) metadata id)).Listed := by
  refine ⟨fun entry hent => ?_, ?_⟩
  · rcases mem_append.mp hent with hent | hent
    · exact h.children _ hent
    · rw [mem_singleton.mp hent]
      exact ⟨name, rfl⟩
  · unfold ScanningDir.list
    rw [map_append]
    refine nodup_append.mpr ⟨h.paths, nodup_singleton _, fun a ha b hb => ?_⟩
    obtain ⟨entry, hent, rfl⟩ := mem_map.mp ha
    rw [mem_singleton.mp hb]
    exact hnew _ hent

namespace BackgroundScanner

/-- A path lies below one that is recorded, or that a scan will record. -/
def Covered (self : BackgroundScanner R) (path : RelPath) : Prop :=
  ∃ root, (root ∈ self.state.changedPaths ∨ ∃ scan ∈ self.scans, root ∈ scan.unrecorded) ∧ root <+: path

/-- The snapshots are sorted, and so is what is recorded; each change since the last update is covered. -/
structure Recorded (scanner : BackgroundScanner R) : Prop where
  byPath : KeyedList.Sorted Entry.path scanner.state.snapshot.entriesByPath
  prev : KeyedList.Sorted Entry.path scanner.state.prevSnapshot.entriesByPath
  clones : ∀ clone ∈ scanner.clones, KeyedList.Sorted Entry.path clone.entriesByPath
  listed : ∀ scan ∈ scanner.scans, scan.Listed
  unrecorded : ∀ scan ∈ scanner.scans, ∀ root ∈ scan.unrecorded, scan.path <+: root
  requests : ∀ paths ∈ scanner.requests, paths.Pairwise (· ≤ ·)
  changedPaths : SortedVec.Sorted scanner.state.changedPaths
  covered : ∀ path, scanner.state.snapshot.entryForPath path ≠ scanner.state.prevSnapshot.entryForPath path → scanner.Covered path
  tells : scanner.Tells

variable {settings : Settings} {scanner after : BackgroundScanner R}

theorem recorded_start {snapshot : Snapshot (LocalDetails R)} {nextEntryId : Nat} (scanningEnabled : Bool)
    (h : snapshot.Ready nextEntryId) : (start snapshot nextEntryId scanningEnabled).Recorded where
  byPath := h.byPath
  prev := h.byPath
  clones := nofun
  listed := nofun
  unrecorded := nofun
  requests := nofun
  changedPaths := List.Pairwise.nil
  covered := fun _ hne => absurd rfl hne
  tells := ⟨nofun, .nil, nofun⟩

/-- A move that changes no entry and records nothing. -/
theorem Recorded.further (h : scanner.Recorded) (hents : after.state.snapshot.entriesByPath = scanner.state.snapshot.entriesByPath)
    (hprev : after.state.prevSnapshot = scanner.state.prevSnapshot) (hchd : after.state.changedPaths = scanner.state.changedPaths)
    (hsent : after.sent = scanner.sent) (hclon : ∀ clone ∈ after.clones, clone ∈ scanner.clones ∨ clone = scanner.state.snapshot)
    (hlist : ∀ scan ∈ after.scans, scan.Listed) (hunr : ∀ scan ∈ after.scans, ∀ root ∈ scan.unrecorded, scan.path <+: root)
    (hkept : ∀ scan ∈ scanner.scans, ∀ root ∈ scan.unrecorded, ∃ other ∈ after.scans, root ∈ other.unrecorded)
    (hreqs : ∀ paths ∈ after.requests, paths.Pairwise (· ≤ ·)) : after.Recorded where
  byPath := hents ▸ h.byPath
  prev := hprev ▸ h.prev
  clones := fun clone hclo => (hclon _ hclo).elim (h.clones _) fun heq => heq ▸ h.byPath
  listed := hlist
  unrecorded := hunr
  requests := hreqs
  changedPaths := hchd ▸ h.changedPaths
  covered := by
    intro path hne
    unfold Snapshot.entryForPath at hne
    rw [hents, hprev] at hne
    obtain ⟨root, hroot, hbel⟩ := h.covered path hne
    refine ⟨root, ?_, hbel⟩
    rw [hchd]
    exact hroot.imp_right fun ⟨scan, hscan, hmem⟩ => hkept scan hscan root hmem
  tells := ⟨hsent ▸ h.tells.exact, hsent ▸ h.tells.chained, by rw [hsent, hprev]; exact h.tells.last⟩

/-- A move that changes only the state, and no entry. -/
theorem Recorded.withState (h : scanner.Recorded) {state : BackgroundScannerState R}
    (hents : state.snapshot.entriesByPath = scanner.state.snapshot.entriesByPath)
    (hprev : state.prevSnapshot = scanner.state.prevSnapshot) (hchd : state.changedPaths = scanner.state.changedPaths) :
    Recorded { scanner with state } :=
  h.further hents hprev hchd rfl (fun _ => .inl) h.listed h.unrecorded (fun scan hscan _ hroot => ⟨scan, hscan, hroot⟩) h.requests

/-- A section changes entries at paths that are covered after it, and all that was covered still is. -/
theorem Recorded.section (h : scanner.Recorded) (hsort : KeyedList.Sorted Entry.path after.state.snapshot.entriesByPath)
    (hsame : ∀ path, after.state.snapshot.entryForPath path ≠ scanner.state.snapshot.entryForPath path → after.Covered path)
    (hprev : after.state.prevSnapshot = scanner.state.prevSnapshot) (hchd : SortedVec.Sorted after.state.changedPaths)
    (hcov : ∀ path, scanner.Covered path → after.Covered path) (hsent : after.sent = scanner.sent)
    (hclon : after.clones = scanner.clones) (hlist : ∀ scan ∈ after.scans, scan.Listed)
    (hunr : ∀ scan ∈ after.scans, ∀ root ∈ scan.unrecorded, scan.path <+: root) (hreqs : after.requests = scanner.requests) :
    after.Recorded where
  byPath := hsort
  prev := hprev ▸ h.prev
  clones := hclon ▸ h.clones
  listed := hlist
  unrecorded := hunr
  requests := hreqs ▸ h.requests
  changedPaths := hchd
  covered := by
    intro path hne
    by_cases hpath : after.state.snapshot.entryForPath path = scanner.state.snapshot.entryForPath path
    · rw [hpath, hprev] at hne
      exact hcov path (h.covered path hne)
    · exact hsame path hpath
  tells := ⟨hsent ▸ h.tells.exact, hsent ▸ h.tells.chained, by rw [hsent, hprev]; exact h.tells.last⟩

/-- Paths that are covered stay so when nothing recorded is lost. -/
theorem Covered.mono {path : RelPath} (h : scanner.Covered path)
    (hchd : ∀ root ∈ scanner.state.changedPaths, root ∈ after.state.changedPaths)
    (hsca : ∀ scan ∈ scanner.scans, ∀ root ∈ scan.unrecorded, ∃ other ∈ after.scans, root ∈ other.unrecorded) : after.Covered path := by
  obtain ⟨root, hroot, hbel⟩ := h
  refine ⟨root, ?_, hbel⟩
  rcases hroot with hroot | ⟨scan, hscan, hroot⟩
  · exact .inl (hchd root hroot)
  · exact .inr (hsca scan hscan root hroot)

/-! ### Scans -/

theorem Recorded.startScan (h : scanner.Recorded) (scan : ScanningDir R) (hnone : scan.newEntries = [])
    (hunr : ∀ root ∈ scan.unrecorded, scan.path <+: root) :
    Recorded { scanner with scans := scanner.scans ++ [scan] } := by
  refine h.further rfl rfl rfl rfl (fun _ => .inl) ?_ ?_ (fun scan hscan root hroot => ⟨scan, mem_append_left _ hscan, hroot⟩)
    h.requests
  · intro other hoth
    rcases mem_append.mp hoth with hoth | hoth
    · exact h.listed _ hoth
    · rw [mem_singleton.mp hoth]
      exact ⟨hnone ▸ nofun, hnone ▸ nodup_nil⟩
  · intro other hoth
    rcases mem_append.mp hoth with hoth | hoth
    · exact h.unrecorded _ hoth
    · rw [mem_singleton.mp hoth]
      exact hunr

/-- A scan is replaced by one with as much to record. -/
theorem kept_set {ix : Nat} {scan new : ScanningDir R} (hscan : scanner.scans[ix]? = some scan)
    (hnew : ∀ root ∈ scan.unrecorded, root ∈ new.unrecorded) :
    ∀ other ∈ scanner.scans, ∀ root ∈ other.unrecorded, ∃ other ∈ scanner.scans.set ix new, root ∈ other.unrecorded := by
  intro other hoth root hroot
  rcases mem_set_of_mem hscan hoth new with rfl | hoth
  · exact ⟨new, mem_set (List.getElem?_eq_some_iff.mp hscan).1 _, hnew root hroot⟩
  · exact ⟨other, hoth, hroot⟩

theorem Recorded.listChild (h : scanner.Recorded) {ix : Nat} {scan : ScanningDir R} (hscan : scanner.scans[ix]? = some scan)
    {name : String} (hnew : ∀ entry ∈ scan.newEntries, entry.path ≠ scan.path ++ [name]) (metadata : Metadata R) :
    (scanner.listChild scan ix name metadata).Recorded := by
  have hmem : scan ∈ scanner.scans := mem_of_getElem? hscan
  refine h.further rfl rfl rfl rfl (fun _ => .inl) ?_ ?_ (kept_set hscan fun _ h => h) h.requests
  · intro other hoth
    rcases mem_or_eq_of_mem_set hoth with hoth | rfl
    · exact h.listed _ hoth
    · exact (h.listed scan hmem).list hnew _ _
  · intro other hoth
    rcases mem_or_eq_of_mem_set hoth with hoth | rfl
    · exact h.unrecorded _ hoth
    · exact h.unrecorded scan hmem

theorem Recorded.failScan (h : scanner.Recorded) {ix : Nat} (hnone : ∀ scan, scanner.scans[ix]? = some scan → scan.unrecorded = []) :
    Recorded { scanner with scans := scanner.scans.eraseIdx ix } := by
  refine h.further rfl rfl rfl rfl (fun _ => .inl) (fun scan hscan => h.listed scan (mem_of_mem_eraseIdx hscan))
    (fun scan hscan => h.unrecorded scan (mem_of_mem_eraseIdx hscan)) (fun other hoth root hroot => ?_) h.requests
  cases hget : scanner.scans[ix]? with
  | none =>
    rw [eraseIdx_of_length_le (List.getElem?_eq_none_iff.mp hget)]
    exact ⟨other, hoth, hroot⟩
  | some scan =>
    rcases mem_eraseIdx_of_mem hget hoth with rfl | hoth
    · rw [hnone _ hget] at hroot
      nomatch hroot
    · exact ⟨other, hoth, hroot⟩

theorem Recorded.excludeChild (h : scanner.Recorded) {ix : Nat} {scan : ScanningDir R} (hscan : scanner.scans[ix]? = some scan)
    (name : String) : (scanner.excludeChild scan ix name).Recorded := by
  have hmem : scan ∈ scanner.scans := mem_of_getElem? hscan
  have htou := scanner.state.touches_removePath (scan.path ++ [name])
  have hwith : ∀ root ∈ scan.unrecorded,
      root ∈ (scan.exclude (scan.path ++ [name]) (scanner.state.snapshot.hasBelow (scan.path ++ [name]))).unrecorded := by
    intro root hroot
    unfold ScanningDir.exclude
    split
    · exact .tail _ hroot
    · exact hroot
  refine h.section (htou.sorted h.byPath) ?_ rfl h.changedPaths ?_ rfl rfl ?_ ?_ rfl
  · intro path hne
    have hbel : scan.path ++ [name] <+: path := by
      by_contra hnot
      exact hne (htou.same h.byPath path hnot)
    refine ⟨scan.path ++ [name], .inr ⟨_, mem_set (List.getElem?_eq_some_iff.mp hscan).1 _, ?_⟩, hbel⟩
    -- there was an entry, because there is none now
    have hhad : scanner.state.snapshot.hasBelow (scan.path ++ [name]) = true := by
      unfold Snapshot.hasBelow
      rw [any_eq_true]
      cases hold : scanner.state.snapshot.entryForPath path with
      | none =>
        rw [hold] at hne
        obtain ⟨_, -, -, -, haft, -⟩ := removePath_spec h.byPath _
        obtain ⟨entry, hnew⟩ := Option.ne_none_iff_exists'.mp hne
        obtain ⟨hent, hpath⟩ := of_find? hnew
        exact absurd (hpath ▸ hbel) ((haft _).mp hent).2
      | some entry =>
        obtain ⟨hent, hpath⟩ := of_find? hold
        exact ⟨entry, hent, isPrefixOf_iff_prefix.mpr (hpath ▸ hbel)⟩
    rw [hhad]
    exact mem_cons_self
  · exact fun path hcov => hcov.mono (fun _ h => h) (kept_set hscan hwith)
  · intro other hoth
    rcases mem_or_eq_of_mem_set hoth with hoth | rfl
    · exact h.listed _ hoth
    · exact ⟨(h.listed scan hmem).children, (h.listed scan hmem).paths⟩
  · intro other hoth
    rcases mem_or_eq_of_mem_set hoth with hoth | rfl
    · exact h.unrecorded _ hoth
    · intro root hroot
      unfold ScanningDir.exclude at hroot ⊢
      split at hroot
      · rcases mem_cons.mp hroot with rfl | hroot
        · exact prefix_append _ _
        · exact h.unrecorded scan hmem root hroot
      · exact h.unrecorded scan hmem root hroot

/-- The end of a scan records its directory, unless it changes nothing. -/
theorem Recorded.finishScan (h : scanner.Recorded) {ix : Nat} {inRepo : Bool} {scan : ScanningDir R}
    (hscan : scanner.scans[ix]? = some scan)
    (hrec : (∃ parent ∈ scanner.state.snapshot.entriesByPath, parent.path = scan.path ∧ parent.isDir = true) ∨
      scan.unrecorded = [] ∧ scanner.state.PutsOffNone settings inRepo scan.newEntries) :
    Recorded { scanner with
      state := scanner.state.finishScan settings inRepo scan.path scan.newEntries
      scans := scanner.scans.eraseIdx ix } := by
  have hmem : scan ∈ scanner.scans := mem_of_getElem? hscan
  have hlist := h.listed scan hmem
  have hplac := touches_placeEntries settings inRepo scan.newEntries scanner.state
  have hpat := placeEntries_paths settings inRepo scan.newEntries scanner.state
  have hsort := hplac.sorted h.byPath
  have hne : ∀ {path : RelPath}, (∃ entry ∈ scan.newEntries, entry.path <+: path) → scan.path <+: path ∧ path ≠ scan.path := by
    rintro path ⟨entry, hent, habo⟩
    obtain ⟨hbel, hentN⟩ := hlist.ne hent
    refine ⟨hbel.trans habo, ?_⟩
    rintro rfl
    exact hentN (habo.eq_of_length (le_antisymm habo.length_le hbel.length_le))
  have hsca : ∀ other ∈ scanner.scans.eraseIdx ix, other.Listed := fun other hoth => h.listed _ (mem_of_mem_eraseIdx hoth)
  have hunr : ∀ other ∈ scanner.scans.eraseIdx ix, ∀ root ∈ other.unrecorded, other.path <+: root :=
    fun other hoth => h.unrecorded _ (mem_of_mem_eraseIdx hoth)
  by_cases hdir : ∃ parent ∈ scanner.state.snapshot.entriesByPath, parent.path = scan.path ∧ parent.isDir = true
  · obtain ⟨parent, hpar, hpath, hparD⟩ := hdir
    have hsti : parent ∈ (placeEntries settings inRepo scanner.state scan.newEntries).2.snapshot.entriesByPath := by
      have hsame := hplac.same h.byPath _ fun htou => (hne htou).2 rfl
      have hfind : scanner.state.snapshot.entryForPath scan.path = some parent :=
        (find?_eq_some h.byPath).mpr ⟨hpar, hpath⟩
      exact (of_find? (hsame.trans hfind)).1
    obtain ⟨haft, hothe, hchd, hprev⟩ := populateDir_same hsort hsti hparD (hpat.symm ▸ hlist.paths)
      (fun entry hent heq => by
        have hin := mem_map_of_mem (f := Entry.path) hent
        rw [hpat] at hin
        obtain ⟨other, hoth, hothP⟩ := mem_map.mp hin
        exact (hlist.ne hoth).2 (hothP.trans (heq.trans hpath)))
    rw [hpath, hplac.changedPaths] at hchd
    rw [hpath] at haft hothe hprev
    -- the directory is recorded, and all that has changed is below it
    have hroot : ∀ {path : RelPath}, scan.path <+: path → Covered { scanner with
        state := scanner.state.finishScan settings inRepo scan.path scan.newEntries
        scans := scanner.scans.eraseIdx ix } path := by
      intro path hbel
      refine ⟨scan.path, .inl ?_, hbel⟩
      show scan.path ∈ (populateDir _ _ _).changedPaths
      rw [hchd]
      exact SortedVec.mem_searchInsert.mpr (.inl rfl)
    refine h.section haft ?_ (hprev.trans hplac.prevSnapshot) ?_ ?_ rfl rfl hsca hunr rfl
    · intro path hdif
      refine hroot ?_
      by_cases htou : ∃ entry ∈ scan.newEntries, entry.path <+: path
      · exact (hne htou).1
      · by_contra hnot
        refine hdif ((hothe path ?_ ?_).trans (hplac.same h.byPath path htou))
        · rintro rfl
          exact hnot (prefix_refl _)
        · rw [hpat]
          intro hin
          obtain ⟨entry, hent, rfl⟩ := mem_map.mp hin
          exact hnot (hlist.ne hent).1
    · show SortedVec.Sorted (populateDir _ _ _).changedPaths
      rw [hchd]
      exact SortedVec.sorted_searchInsert h.changedPaths
    · rintro path ⟨root, hcov, hbel⟩
      rcases hcov with hin | ⟨other, hoth, hin⟩
      · refine ⟨root, .inl ?_, hbel⟩
        show root ∈ (populateDir _ _ _).changedPaths
        rw [hchd]
        exact SortedVec.mem_searchInsert.mpr (.inr hin)
      · rcases mem_eraseIdx_of_mem hscan hoth with rfl | hoth
        · exact hroot ((h.unrecorded _ hmem root hin).trans hbel)
        · exact ⟨root, .inr ⟨other, hoth, hin⟩, hbel⟩
  · obtain ⟨hnone, hputO⟩ := hrec.resolve_left hdir
    have hsna := placeEntries_snapshot _ _ hputO
    have hpop : scanner.state.finishScan settings inRepo scan.path scan.newEntries =
        (placeEntries settings inRepo scanner.state scan.newEntries).2 := by
      refine populateDir_of_not fun parent hpar hpath => ?_
      rw [hsna] at hpar
      exact Bool.eq_false_iff.mpr fun hparD => hdir ⟨parent, hpar, hpath, hparD⟩
    rw [hpop]
    refine h.further (congrArg _ hsna) hplac.prevSnapshot hplac.changedPaths rfl (fun _ => .inl) hsca hunr ?_ h.requests
    intro other hoth root hroot
    rcases mem_eraseIdx_of_mem hscan hoth with rfl | hoth
    · rw [hnone] at hroot
      nomatch hroot
    · exact ⟨other, hoth, hroot⟩

/-! ### The root, refreshed paths and ignore statuses -/

/-- The flag of the root is recorded by its scan. -/
theorem Recorded.startRoot (h : scanner.Recorded) {ignored : Bool} (hnew : scanner.state.removedEntries = .new)
    (hrec : ∀ rootEntry, scanner.state.snapshot.entryForPath [] = some rootEntry → ignored = true → rootEntry.isIgnored = false →
      rootEntry.isDir = true ∧ scanner.state.scanningEnabled = true) : (scanner.startRoot ignored).Recorded := by
  unfold BackgroundScanner.startRoot
  split
  · exact h
  · rename_i rootEntry hroot
    obtain ⟨hrootM, hrootP⟩ := of_find? hroot
    have hexi : scanner.state.snapshot.entryForPath ({ rootEntry with isIgnored := true } : LocalEntry R).path = some rootEntry :=
      (congrArg _ hrootP).trans hroot
    rw [reuseEntryId_new hnew hexi rfl]
    -- the scan of the root is enqueued
    have hscan : ∀ {scanner : BackgroundScanner R} {unrecorded : List RelPath} {enqueue : Bool}, scanner.Recorded →
        Recorded { scanner with scans := if enqueue then scanner.scans ++ [⟨[], [], unrecorded⟩] else scanner.scans } := by
      intro scanner unrecorded enqueue h
      cases enqueue with
      | true => exact h.startScan _ rfl fun _ _ => nil_prefix
      | false => exact h
    cases ignored with
    | false => exact hscan h
    | true =>
      obtain ⟨hsort, hmem⟩ := Snapshot.insertLocalEntry_spec h.byPath _
      rw [Snapshot.withExistingKind_of_kind hexi rfl] at hmem
      cases hflag : rootEntry.isIgnored with
      | true =>
        have hsame : ({ rootEntry with isIgnored := true } : LocalEntry R) = rootEntry := by rw [← hflag]
        rw [hsame] at hsort hmem ⊢
        have hents : (scanner.state.snapshot.insertLocalEntry rootEntry).entriesByPath = scanner.state.snapshot.entriesByPath := by
          refine hsort.ext h.byPath fun entry => ?_
          rw [hmem]
          constructor
          · rintro (rfl | hent)
            · exact hrootM
            · exact hent.1
          · intro hent
            by_cases hpath : entry.path = rootEntry.path
            · exact .inl (h.byPath.eq_of_key_eq hent hrootM hpath)
            · exact .inr ⟨hent, hpath⟩
        have hkept : Recorded { scanner with state :=
            { scanner.state with snapshot := scanner.state.snapshot.insertLocalEntry rootEntry } } := h.withState hents rfl rfl
        exact hscan hkept
      | false =>
        obtain ⟨hdir, hena⟩ := hrec _ hroot rfl hflag
        rw [hdir, hena]
        have hcov : ∀ path, Covered { scanner with
            state := { scanner.state with snapshot := scanner.state.snapshot.insertLocalEntry { rootEntry with isIgnored := true } }
            scans := scanner.scans ++ [⟨[], [], [[]]⟩] } path :=
          fun path => ⟨[], .inr ⟨_, mem_append_right _ (.head _), .head _⟩, nil_prefix⟩
        refine h.section hsort (fun path _ => hcov path) rfl h.changedPaths (fun path _ => hcov path) rfl rfl ?_ ?_ rfl
        · intro other hoth
          rcases mem_append.mp hoth with hoth | hoth
          · exact h.listed _ hoth
          · rw [mem_singleton.mp hoth]
            exact ⟨nofun, nodup_nil⟩
        · intro other hoth
          rcases mem_append.mp hoth with hoth | hoth
          · exact h.unrecorded _ hoth
          · rw [mem_singleton.mp hoth]
            exact fun _ _ => nil_prefix

/-- A reload records its paths. -/
theorem Recorded.reload (h : scanner.Recorded) {recursive : Bool} {paths : List RelPath} {answers : List (Answer R)}
    (hlen : answers.length = paths.length)
    (hsort : SortedVec.Sorted (SortedVec.extendSorted paths scanner.state.changedPaths)) :
    (scanner.reload settings recursive paths answers).Recorded := by
  have hzip : (paths.zip answers).map Prod.fst = paths := map_fst_zip hlen.ge
  obtain ⟨middle, htou, hrel⟩ := scanner.state.reload_spec _ _ _ _
  rw [hzip] at htou hrel
  unfold BackgroundScanner.reload
  dsimp only
  rw [hrel]
  refine h.section (htou.sorted h.byPath) ?_ htou.prevSnapshot hsort ?_ rfl rfl h.listed h.unrecorded rfl
  · intro path hdif
    have htouc : ∃ root ∈ paths, root <+: path := by
      by_contra hnot
      exact hdif (htou.same h.byPath path hnot)
    obtain ⟨root, hroot, hbel⟩ := htouc
    exact ⟨root, .inl (SortedVec.mem_extendSorted.mpr (.inl hroot)), hbel⟩
  · exact fun path hcov => hcov.mono (fun root hroot => SortedVec.mem_extendSorted.mpr (.inr hroot))
      fun scan hscan root hroot => ⟨scan, hscan, hroot⟩

theorem Recorded.updateIgnoreStatus (h : scanner.Recorded) {clone : Snapshot (LocalDetails R)} (hclo : clone ∈ scanner.clones)
    (path : RelPath) (ignored : RelPath → Bool → Bool) :
    Recorded { scanner with state := scanner.state.updateIgnoreStatus clone path ignored } := by
  obtain ⟨hsort, hmem⟩ := updateIgnoreStatus_spec (h.clones _ hclo) h.byPath path _
  refine h.section hsort ?_ rfl (sorted_foldl_searchInsert h.changedPaths) ?_ rfl rfl h.listed h.unrecorded rfl
  · intro other hdif
    have hin : other ∈ (reflagged clone path ignored).map Entry.path := by
      by_contra hnot
      refine hdif (find_congr h.byPath hsort fun entry hent => ?_)
      rw [hmem]
      constructor
      · rintro (hnew | hold)
        · exact absurd (hent ▸ mem_map_of_mem hnew) hnot
        · exact hold.1
      · exact fun hold => .inr ⟨hold, hent ▸ hnot⟩
    exact ⟨other, .inl (mem_foldl_searchInsert.mpr (.inr hin)), prefix_refl _⟩
  · exact fun other hcov => hcov.mono (fun root hroot => mem_foldl_searchInsert.mpr (.inl hroot))
      fun scan hscan root hroot => ⟨scan, hscan, hroot⟩

theorem Recorded.recordRequest (h : scanner.Recorded) (paths : List RelPath) :
    Recorded { scanner with state := { scanner.state with
      changedPaths := paths.foldl (fun changedPaths path => SortedVec.searchInsert path changedPaths) scanner.state.changedPaths } } := by
  refine h.section h.byPath (fun _ hdif => absurd rfl hdif) rfl
    (sorted_foldl_searchInsert h.changedPaths) ?_ rfl rfl h.listed h.unrecorded rfl
  exact fun other hcov =>
    hcov.mono (fun root hroot => (mem_foldl_searchInsert).mpr (.inl hroot)) fun scan hscan root hroot => ⟨scan, hscan, hroot⟩

/-- The paths of a request are sorted. -/
theorem requestedPaths_sorted (state : BackgroundScannerState R) (relativePaths : List RelPath) :
    (state.requestedPaths relativePaths).Pairwise (· ≤ ·) := by
  exact (pairwise_insertionSort _ _).sublist (dedup_sublist _)

end BackgroundScanner

/-! ### Updates -/

theorem Lists.of_eq {old new : Option (LocalEntry R)} {path : RelPath} {changes : List (RelPath × Nat × PathChange)} (h : new = old) :
    Lists old new path changes where
  removed := fun oldEntry hold hgone => absurd rfl (hgone oldEntry (h.trans hold))
  present := fun _ hnew hdif => absurd (h.symm.trans hnew) hdif

section

variable {old new : Snapshot (LocalDetails R)} {changes : List (RelPath × Nat × PathChange)} {mayRepeat : RelPath → Prop}

theorem changeEdit_inserted {change : RelPath × Nat × PathChange} {entry : LocalEntry R} :
    KeyedList.Edit.insert entry ∈ changeEdit new change ↔ change.2.2 ≠ .removed ∧ new.entryForPath change.1 = some entry := by
  unfold changeEdit
  split
  · rename_i hrem
    constructor
    · intro h
      nomatch mem_singleton.mp h
    · exact fun h => absurd hrem h.1
  · rename_i hrem
    rw [Option.mem_toList, Option.map_eq_some_iff]
    constructor
    · rintro ⟨found, hfnd, heq⟩
      exact ⟨hrem, KeyedList.Edit.insert.inj heq ▸ hfnd⟩
    · exact fun h => ⟨entry, h.2, rfl⟩

/-- A change that tells the truth is an edit at its path. -/
theorem changeEdit_key {change : RelPath × Nat × PathChange} {repeats : Prop}
    (hrt : Told repeats (old.entryForPath change.1) (new.entryForPath change.1) change) :
    ∃ edit, changeEdit new change = [edit] ∧ editKey Entry.path edit = change.1 := by
  unfold changeEdit
  unfold Told at hrt
  split
  · exact ⟨_, rfl, rfl⟩
  · rename_i hrem
    rw [if_neg hrem] at hrt
    obtain ⟨newEntry, hnew, -⟩ := hrt
    rw [hnew]
    exact ⟨_, rfl, (of_find? hnew).2⟩

/-- The changes, as edits, turn the old entries into the new ones. -/
theorem changes_applied (hold : KeyedList.Sorted Entry.path old.entriesByPath) (hnew : KeyedList.Sorted Entry.path new.entriesByPath)
    (hord : changes.Pairwise Before)
    (hrt : ∀ change ∈ changes, Told (mayRepeat change.1) (old.entryForPath change.1) (new.entryForPath change.1) change)
    (hlist : ∀ path, Lists (old.entryForPath path) (new.entryForPath path) path changes) :
    editBatch Entry.path (changes.flatMap (changeEdit new)) old.entriesByPath = new.entriesByPath := by
  have hdistinct : ((changes.flatMap (changeEdit new)).flatMap inserted).Pairwise
      fun a b : LocalEntry R => a.path ≠ b.path := by
    rw [flatMap_assoc, pairwise_flatMap]
    have hins : ∀ {change : RelPath × Nat × PathChange} {entry : LocalEntry R},
        entry ∈ (changeEdit new change).flatMap inserted → change.2.2 ≠ .removed ∧ entry.path = change.1 := by
      intro change entry hent
      have h := changeEdit_inserted.mp (Snapshot.mem_of_inserted.mpr hent)
      exact ⟨h.1, (of_find? h.2).2⟩
    refine ⟨fun change hchg => ?_, hord.imp ?_⟩
    · obtain ⟨edit, hedit, -⟩ := changeEdit_key (hrt _ hchg)
      rw [hedit]
      cases edit with
      | insert entry => exact pairwise_singleton _ _
      | remove path => exact List.Pairwise.nil
    · intro a b hbef x hx y hy
      obtain ⟨hxC, hxP⟩ := hins hx
      obtain ⟨-, hyP⟩ := hins hy
      rcases hbef with hlt | ⟨-, hrem, -⟩
      · rw [hxP, hyP]
        exact hlt.ne
      · exact absurd hrem hxC
  have hkeys : ∀ {path : RelPath}, path ∈ (changes.flatMap (changeEdit new)).map (editKey Entry.path) ↔
      path ∈ changes.map Prod.fst := by
    intro path
    rw [mem_map, mem_map]
    constructor
    · rintro ⟨edit, hedit, rfl⟩
      obtain ⟨change, hchg, hedit⟩ := mem_flatMap.mp hedit
      obtain ⟨edit', hsame, hkey⟩ := changeEdit_key (hrt _ hchg)
      rw [hsame] at hedit
      obtain rfl := mem_singleton.mp hedit
      exact ⟨change, hchg, hkey.symm⟩
    · rintro ⟨change, hchg, rfl⟩
      obtain ⟨edit, hsame, hkey⟩ := changeEdit_key (hrt _ hchg)
      exact ⟨edit, mem_flatMap.mpr ⟨change, hchg, hsame ▸ .head _⟩, hkey⟩
  obtain ⟨hsort, hmem⟩ := editBatch_spec hold hdistinct
  refine hsort.ext hnew fun entry => ?_
  rw [hmem, hkeys, mem_flatMap]
  have hfind : entry ∈ new.entriesByPath → new.entryForPath entry.path = some entry :=
    fun hent => (find?_eq_some hnew).mpr ⟨hent, rfl⟩
  constructor
  · rintro (⟨change, -, hedit⟩ | ⟨hent, hnot⟩)
    · exact (of_find? (changeEdit_inserted.mp hedit).2).1
    · -- an entry that no change is told of is still there
      have hfnd : old.entryForPath entry.path = some entry := (find?_eq_some hold).mpr ⟨hent, rfl⟩
      have hlis := hlist entry.path
      by_contra hgone
      refine hnot ?_
      cases hnow : new.entryForPath _ with
      | none =>
        have hrem := hlis.removed _ hfnd fun newEntry h => nomatch hnow.symm.trans h
        exact mem_map_of_mem hrem
      | some newEntry =>
        have hne : old.entryForPath entry.path ≠ some newEntry := by
          intro heq
          obtain rfl := Option.some.inj (hfnd.symm.trans heq)
          exact hgone (of_find? hnow).1
        obtain ⟨change, -, hpre⟩ := hlis.present _ hnow hne
        exact mem_map_of_mem hpre
  · intro hent
    have hnow := hfind hent
    by_cases hsame : old.entryForPath entry.path = some entry
    · by_cases hin : entry.path ∈ changes.map Prod.fst
      · obtain ⟨change, hchg, hpath⟩ := mem_map.mp hin
        refine .inl ⟨change, hchg, changeEdit_inserted.mpr ⟨fun hrem => ?_, hpath ▸ hnow⟩⟩
        have htold := hrt _ hchg
        unfold Told at htold
        rw [if_pos hrem, hpath] at htold
        obtain ⟨oldEntry, holdEntry, -, hgone⟩ := htold
        exact hgone _ hnow (congrArg _ (Option.some.inj (hsame.symm.trans holdEntry)))
      · exact .inr ⟨(of_find? hsame).1, hin⟩
    · obtain ⟨change, hchg, hpre⟩ := (hlist _).present _ hnow hsame
      exact .inl ⟨_, hpre, changeEdit_inserted.mpr ⟨hchg, hnow⟩⟩

end

namespace BackgroundScanner

variable {settings : Settings} {scanner : BackgroundScanner R}

/-- Where all changes are covered by recorded paths, an update tells them. -/
theorem Recorded.sendStatusUpdate [DecidableEq R] (h : scanner.Recorded) (scanning barrier : Bool) (eventRoots : List EventRoot)
    (hnone : ∀ scan ∈ scanner.scans, scan.unrecorded = []) : (scanner.sendStatusUpdate scanning barrier eventRoots).Recorded := by
  unfold BackgroundScanner.sendStatusUpdate
  split
  · exact h
  · obtain ⟨hord, hrt⟩ := buildDiff_right _ _ h.prev h.byPath
    have hlist : ∀ path, Lists (scanner.state.prevSnapshot.entryForPath path) (scanner.state.snapshot.entryForPath path) path
        (buildDiff scanner.phase scanner.state.prevSnapshot.entriesByPath scanner.state.snapshot.entriesByPath
          (mergeEventRoots scanner.state.changedPaths eventRoots)) := by
      intro path
      by_cases hsame : scanner.state.snapshot.entryForPath path = scanner.state.prevSnapshot.entryForPath path
      · exact Lists.of_eq hsame
      · obtain ⟨root, hroot, hbel⟩ := h.covered path hsame
        have hrec : root ∈ scanner.state.changedPaths := by
          refine hroot.resolve_right ?_
          rintro ⟨scan, hscan, hin⟩
          rw [hnone scan hscan] at hin
          nomatch hin
        obtain ⟨before, eventRoot, after, hspl, rfl, hbef⟩ :=
          mergeEventRoots_split _ h.changedPaths root hrec
        rw [hspl]
        exact buildDiff_listed h.prev h.byPath hbef hbel
    have hrt' : ∀ change ∈ buildDiff scanner.phase scanner.state.prevSnapshot.entriesByPath scanner.state.snapshot.entriesByPath
        (mergeEventRoots scanner.state.changedPaths eventRoots), Told (Diff.MayRepeat scanner.phase eventRoots change.1)
          (scanner.state.prevSnapshot.entryForPath change.1) (scanner.state.snapshot.entryForPath change.1) change :=
      fun change hchg => (hrt _ hchg).mono fun hrep => hrep.imp_right
        fun ⟨root, hmem, hres, hbel⟩ => ⟨root, mem_of_mergeEventRoots hres hmem, hres, hbel⟩
    refine ⟨h.byPath, h.byPath, h.clones, h.listed, h.unrecorded, h.requests, List.Pairwise.nil, fun _ hdif => absurd rfl hdif,
      ⟨fun sent hsent => ?_, ?_, fun sent hsent => ?_⟩⟩
    · rcases mem_append.mp hsent with hsent | hsent
      · exact h.tells.exact sent hsent
      · rw [mem_singleton.mp hsent]
        exact ⟨hord, hrt', hlist, changes_applied h.prev h.byPath hord hrt' hlist⟩
    · refine isChain_append.mpr ⟨h.tells.chained, isChain_singleton _, fun last hlast first hfst => ?_⟩
      rw [← Option.some.inj hfst]
      exact h.tells.last last hlast
    · rw [getLast?_concat] at hsent
      rw [← Option.some.inj hsent]

/-- Every move that records what it changes keeps the recorded paths complete. -/
theorem Recorded.apply [DecidableEq R] (h : scanner.Recorded) (move : ScannerMove R) (halw : scanner.Allowed settings move)
    (hrec : Records settings scanner move) : (scanner.apply settings move).Recorded := by
  cases move with
  | startRoot ignored => exact h.startRoot halw.1 hrec
  | startScan path => exact h.startScan _ rfl nofun
  | listChild ix name metadata =>
    unfold BackgroundScanner.apply
    dsimp only
    split
    · rename_i scan hscan
      exact h.listChild hscan (halw scan hscan).2 _
    · exact h
  | excludeChild ix name =>
    unfold BackgroundScanner.apply
    dsimp only
    split
    · rename_i scan hscan
      exact h.excludeChild hscan name
    · exact h
  | failScan ix => exact h.failScan hrec
  | finishScan ix inRepo =>
    unfold BackgroundScanner.apply
    dsimp only
    split
    · rename_i scan hscan
      exact h.finishScan hscan (hrec scan hscan)
    · exact h
  | watchExternal canonical relative => exact h.withState rfl rfl rfl
  | loadPaths paths => exact h.withState rfl rfl rfl
  | takePathsToScan => exact h.withState rfl rfl rfl
  | addPathPrefix path => exact h.withState rfl rfl rfl
  | cloneSnapshot =>
    refine h.further rfl rfl rfl rfl (fun clone hclo => ?_) h.listed h.unrecorded (fun scan hscan _ hroot => ⟨scan, hscan, hroot⟩)
      h.requests
    rcases mem_append.mp hclo with hclo | hclo
    · exact .inl hclo
    · exact .inr (mem_singleton.mp hclo)
  | updateIgnoreStatus ix path ignored =>
    unfold BackgroundScanner.apply
    dsimp only
    split
    · rename_i clone hclo
      exact h.updateIgnoreStatus (mem_of_getElem? hclo) path _
    · exact h
  | receiveRequest relativePaths =>
    refine h.further rfl rfl rfl rfl (fun _ => .inl) h.listed h.unrecorded (fun scan hscan _ hroot => ⟨scan, hscan, hroot⟩)
      fun paths hpath => ?_
    rcases mem_append.mp hpath with hpath | hpath
    · exact h.requests _ hpath
    · rw [mem_singleton.mp hpath]
      exact requestedPaths_sorted _ _
  | receiveEvents rootCanonicalPath rootPath events =>
    exact h.further rfl rfl rfl rfl (fun _ => .inl) h.listed h.unrecorded (fun scan hscan _ hroot => ⟨scan, hscan, hroot⟩) h.requests
  | bumpScanId forRequest => exact h.withState rfl rfl rfl
  | reloadRequest ix answers =>
    unfold BackgroundScanner.apply
    dsimp only
    split
    · rename_i paths hpath
      exact h.reload (halw _ hpath) (SortedVec.sorted_extendSorted (h.requests _ (mem_of_getElem? hpath)) h.changedPaths)
    · exact h
  | recordRequest ix =>
    unfold BackgroundScanner.apply
    dsimp only
    split
    · exact h.recordRequest _
    · exact h
  | reloadEvents ix answers =>
    unfold BackgroundScanner.apply
    dsimp only
    split
    · rename_i roots hroo
      exact h.reload ((halw _ hroo).trans (length_map _).symm) (hrec _ hroo)
    · exact h
  | completeEvents => exact h.withState rfl rfl rfl
  | setPhase phase =>
    exact h.further rfl rfl rfl rfl (fun _ => .inl) h.listed h.unrecorded (fun scan hscan _ hroot => ⟨scan, hscan, hroot⟩) h.requests
  | sendStatusUpdate scanning barrier eventRoots => exact h.sendStatusUpdate _ _ _ hrec

/-- In every run in which the paths of each batch leave the recorded paths sorted, and scans record what they change before it is sent,
each update tells exactly what has changed since the one before. -/
theorem updates_tell_changes [DecidableEq R] (h : Reach settings (Records settings) scanner) : scanner.Tells := by
  have hrecorded : scanner.Recorded := by
    induction h with
    | start scanningEnabled hready => exact recorded_start scanningEnabled hready
    | move move _ hallowed hrecords ih => exact ih.apply move hallowed hrecords
  exact hrecorded.tells

/-- Everything is scanned. -/
def scanAll : Settings where
  fileScanDepth := none
  scanSymlinksAlways := true
  isPathExcluded := fun _ => false
  rootIsDotGit := false

/-- A file with the inode that it is found with. -/
def fileMetadata (inode mtime : Nat) : Metadata Unit where
  isDir := false
  inode
  mtime
  isIgnored := false
  isExternal := true
  isAlwaysIncluded := false
  rest := ()

def dirEntry (path : RelPath) (id : Nat) : LocalEntry Unit :=
  (Entry.new path { fileMetadata id 0 with isDir := true } id).withKind .dir

/-- Three directories outside of the worktree, each with a file. -/
def linkedSnapshot : Snapshot (LocalDetails Unit) :=
  let entries := [dirEntry [] 0, dirEntry ["a"] 1, Entry.new ["a", "f"] (fileMetadata 2 0) 2,
    dirEntry ["m"] 3, Entry.new ["m", "f"] (fileMetadata 4 0) 4, dirEntry ["z"] 5, Entry.new ["z", "f"] (fileMetadata 6 0) 6]
  { entriesByPath := entries
    entriesById := entries.map Entry.pathEntry
    scanId := 1
    completedScanId := 1 }

theorem linkedSnapshot_ready : linkedSnapshot.Ready 7 where
  byPath := by unfold KeyedList.Sorted; decide
  byId := by unfold KeyedList.Sorted; decide
  consistent :=
    { same := by
        intro id path
        constructor
        · rintro ⟨entry, hent, hid, hpath⟩
          exact ⟨entry.pathEntry, mem_map_of_mem hent, hid, hpath⟩
        · rintro ⟨found, hfnd, hid, hpath⟩
          obtain ⟨entry, hent, rfl⟩ := mem_map.mp hfnd
          exact ⟨entry, hent, hid, hpath⟩
      pathsOnce := by decide
      idsOnce := by decide
      pathsOnceById := by decide
      idsOnceById := by decide }
  rooted := by unfold Snapshot.Rooted; decide
  ids := by decide

/-- Events below three directories outside of the worktree are sorted before their paths are translated, and what has changed in `a` is
not told. -/
theorem change_not_told : ∃ scanner : BackgroundScanner Unit, Reach scanAll (fun _ _ => True) scanner ∧ ¬ scanner.Tells := by
  have h0 : Reach scanAll (fun _ _ => True) (start linkedSnapshot 7 true) := .start true linkedSnapshot_ready
  have h1 := h0.move (.watchExternal ["e7"] ["m"]) trivial trivial
  have h2 := h1.move (.watchExternal ["e8"] ["z"]) trivial trivial
  have h3 := h2.move (.watchExternal ["e9"] ["a"]) trivial trivial
  have h4 := h3.move (.receiveEvents ["w"] ["w"] [⟨["e7", "f"], false⟩, ⟨["e8", "f"], false⟩, ⟨["e9", "f"], false⟩]) trivial trivial
  have h5 := h4.move (.reloadEvents 0 [.found (fileMetadata 4 1) false, .found (fileMetadata 6 1) false, .found (fileMetadata 2 1) false])
    (by
      intro roots hroots
      rw [← Option.some.inj hroots]
      decide) trivial
  have h6 := h5.move (.sendStatusUpdate true false [⟨["m", "f"], false⟩, ⟨["z", "f"], false⟩, ⟨["a", "f"], false⟩])
    (.inr (by decide)) trivial
  refine ⟨_, h6, fun htells => ?_⟩
  obtain ⟨change, -, htold⟩ := ((htells.exact _ (mem_singleton_self _)).listed ["a", "f"]).present
    (Entry.new ["a", "f"] (fileMetadata 2 1) 2) (by decide) (by decide)
  revert htold
  cases change <;> decide

/-- A run that lists a directory, and refreshes two paths. -/
theorem updates_tell_changes_scan : ∃ scanner : BackgroundScanner Unit, scanner.sent.length = 2 ∧ scanner.Tells := by
  have h0 : Reach scanAll (Records scanAll) (start (R := Unit) linkedSnapshot 7 true) := .start true linkedSnapshot_ready
  have h1 := h0.move (.startScan ["a"]) rfl trivial
  have h2 := h1.move (.listChild 0 "g" (fileMetadata 7 1))
    (by
      intro scan hscan
      rw [← Option.some.inj hscan]
      decide) trivial
  have h3 := h2.move (.finishScan 0 false) trivial
    (by
      intro scan hscan
      rw [← Option.some.inj hscan]
      exact .inl ⟨dirEntry ["a"] 1, by decide, rfl, rfl⟩)
  have h4 := h3.move (.sendStatusUpdate true false []) (.inl rfl) nofun
  have h5 := h4.move (.receiveEvents ["w"] ["w"] [⟨["w", "m", "f"], false⟩, ⟨["w", "a", "f"], false⟩]) trivial trivial
  have h6 := h5.move (.reloadEvents 0 [.found (fileMetadata 2 1) false, .gone])
    (by
      intro roots hroots
      rw [← Option.some.inj hroots]
      decide)
    (by
      intro roots hroots
      rw [← Option.some.inj hroots]
      unfold SortedVec.Sorted
      decide)
  have h7 := h6.move (.sendStatusUpdate true false []) (.inl rfl) nofun
  exact ⟨_, by decide, updates_tell_changes h7⟩

end BackgroundScanner

end Wu.Worktree
