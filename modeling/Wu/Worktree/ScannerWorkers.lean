import Mathlib.Data.List.Flatten
import Wu.Worktree.ScannerChanges
import Wu.Worktree.ScannerIds

/-!
# Workers keep the trees consistent

The ids that listings have been given, but that are not put in yet, are unused, and each is of one listed entry.
-/

namespace Wu.Worktree

open List Option BackgroundScannerState RemovedEntries

variable {R : Type}

/-- What is before an index, and what is after it. -/
theorem split_getElem? {T : Type} {items : List T} : ∀ {ix : Nat} {item : T}, items[ix]? = some item →
    ∃ before after, items = before ++ item :: after ∧ (∀ new, items.set ix new = before ++ new :: after) ∧
      items.eraseIdx ix = before ++ after := by
  induction items with
  | nil => exact fun h => nomatch h
  | cons first items ih =>
    intro ix item h
    cases ix with
    | zero =>
      obtain rfl := some.inj h
      exact ⟨[], items, rfl, fun _ => rfl, rfl⟩
    | succ ix =>
      obtain ⟨before, after, hitems, hset, hera⟩ := @ih ix item h
      exact ⟨first :: before, after, congrArg _ hitems, fun new => congrArg _ (hset new), congrArg _ hera⟩

namespace BackgroundScanner

variable {settings : Settings} {scanner : BackgroundScanner R}

/-- The ids of the entries that are listed, and not put in yet. -/
def listedIds (scans : List (ScanningDir R)) : List Nat := scans.flatMap fun scan => scan.newEntries.map Entry.id

/-- Ids that are listed or not given yet are unused. -/
structure Sound (scanner : BackgroundScanner R) : Prop where
  apart : scanner.state.IdsApart fun id => scanner.nextEntryId ≤ id ∨ id ∈ listedIds scanner.scans
  clones : ∀ clone ∈ scanner.clones, clone.Paired
  listed : ∀ scan ∈ scanner.scans, scan.Listed
  mtimes : ∀ scan ∈ scanner.scans, ∀ entry ∈ scan.newEntries, entry.details.mtime ≠ none
  given : ∀ id ∈ listedIds scanner.scans, id < scanner.nextEntryId
  once : (listedIds scanner.scans).Nodup

variable {nextEntryId ix : Nat} {state : BackgroundScannerState R}

theorem sound_start {snapshot : Snapshot (LocalDetails R)} (scanningEnabled : Bool)
    (h : snapshot.Ready nextEntryId) : (start snapshot nextEntryId scanningEnabled).Sound where
  apart :=
    { paired := ⟨h.byPath, h.byId, h.consistent.same⟩
      rooted := h.rooted
      linked := linked_new
      spare := fun _ hrem => absurd hrem not_holds_new
      unusedLive := fun entry hent hunus => hunus.elim (fun hle => absurd (h.ids entry hent) (not_lt.mpr hle)) nofun
      unusedHeld := fun _ hrem => absurd hrem not_holds_new }
  clones := nofun
  listed := nofun
  mtimes := nofun
  given := nofun
  once := nodup_nil

section

variable (h : scanner.Sound)
include h

/-- A section that keeps the ids apart, while nothing is listed. -/
theorem Sound.section (hle : scanner.nextEntryId ≤ nextEntryId)
    (hapa : state.IdsApart fun id => nextEntryId ≤ id ∨ id ∈ listedIds scanner.scans) : Sound { scanner with state, nextEntryId } where
  apart := hapa
  clones := h.clones
  listed := h.listed
  mtimes := h.mtimes
  given := fun id hid => (h.given id hid).trans_le hle
  once := h.once

theorem Sound.withState
    (hapa : state.IdsApart fun id => scanner.nextEntryId ≤ id ∨ id ∈ listedIds scanner.scans) : Sound { scanner with state } :=
  h.section (le_refl _) hapa

/-- A scan that has listed nothing begins. -/
theorem Sound.startScan {scan : ScanningDir R} (hnone : scan.newEntries = []) :
    Sound { scanner with scans := scanner.scans ++ [scan] } := by
  have hids : listedIds (scanner.scans ++ [scan]) = listedIds scanner.scans := by
    unfold listedIds
    rw [flatMap_append, flatMap_singleton, hnone, map_nil, append_nil]
  have hmem : ∀ other ∈ scanner.scans ++ [scan], other ∈ scanner.scans ∨ other = scan :=
    fun other hoth => (mem_append.mp hoth).imp_right mem_singleton.mp
  refine ⟨hids.symm ▸ h.apart, h.clones, fun other hoth => ?_, fun other hoth => ?_, hids.symm ▸ h.given, hids.symm ▸ h.once⟩
  · rcases hmem _ hoth with hoth | rfl
    · exact h.listed _ hoth
    · exact ⟨hnone ▸ nofun, hnone ▸ nodup_nil⟩
  · rcases hmem _ hoth with hoth | rfl
    · exact h.mtimes _ hoth
    · exact hnone ▸ nofun

/-- A child is listed with the next id. -/
theorem Sound.listChild {scan : ScanningDir R} (hscan : scanner.scans[ix]? = some scan)
    {name : String} (hnew : ∀ entry ∈ scan.newEntries, entry.path ≠ scan.path ++ [name]) (metadata : Metadata R) :
    (scanner.listChild scan ix name metadata).Sound := by
  obtain ⟨before, after, hsca, hset, -⟩ := split_getElem? hscan
  have hmem : scan ∈ scanner.scans := mem_of_getElem? hscan
  have hold : listedIds scanner.scans = listedIds before ++ (scan.newEntries.map Entry.id ++ listedIds after) := by
    unfold listedIds
    rw [hsca, flatMap_append, flatMap_cons]
  have hids : listedIds (scanner.scans.set ix (scan.list (Entry.new (scan.path ++ [name]) metadata scanner.nextEntryId))) =
      listedIds before ++ ((scan.newEntries.map Entry.id ++ [scanner.nextEntryId]) ++ listedIds after) := by
    unfold listedIds
    rw [hset, flatMap_append, flatMap_cons]
    unfold ScanningDir.list
    rw [map_append]
    rfl
  have hperm : (listedIds (scanner.scans.set ix (scan.list (Entry.new (scan.path ++ [name]) metadata scanner.nextEntryId)))).Perm
      (scanner.nextEntryId :: listedIds scanner.scans) := by
    rw [hids, hold, append_assoc, singleton_append, ← append_assoc, ← append_assoc]
    exact perm_middle
  have hnext : scanner.nextEntryId ∉ listedIds scanner.scans := fun hin => absurd (h.given _ hin) (lt_irrefl _)
  have hoth : ∀ other ∈ scanner.scans.set ix (scan.list (Entry.new (scan.path ++ [name]) metadata scanner.nextEntryId)),
      other ∈ scanner.scans ∨ other = scan.list (Entry.new (scan.path ++ [name]) metadata scanner.nextEntryId) :=
    fun other hoth => mem_or_eq_of_mem_set hoth
  refine ⟨h.apart.mono fun id hunus => ?_, h.clones, fun other hin => ?_, fun other hin => ?_, fun id hid => ?_,
    hperm.nodup_iff.mpr (nodup_cons.mpr ⟨hnext, h.once⟩)⟩
  · rcases hunus with hle | hin
    · exact .inl ((Nat.le_succ _).trans hle)
    · rcases mem_cons.mp (hperm.mem_iff.mp hin) with rfl | hin
      · exact .inl (le_refl _)
      · exact .inr hin
  · rcases hoth _ hin with hin | rfl
    · exact h.listed _ hin
    · exact (h.listed scan hmem).list hnew _ _
  · rcases hoth _ hin with hin | rfl
    · exact h.mtimes _ hin
    · intro entry hent
      rcases mem_append.mp hent with hent | hent
      · exact h.mtimes scan hmem _ hent
      · rw [mem_singleton.mp hent]
        exact some_ne_none _
  · rcases mem_cons.mp (hperm.mem_iff.mp hid) with rfl | hid
    · exact Nat.lt_succ_self _
    · exact (h.given id hid).trans (Nat.lt_succ_self _)

/-- Scans whose listings are those of before, or of fewer scans. -/
theorem Sound.withScans {scans : List (ScanningDir R)}
    (hlist : ∀ scan ∈ scans, scan.Listed) (hmtim : ∀ scan ∈ scans, ∀ entry ∈ scan.newEntries, entry.details.mtime ≠ none)
    (hids : (listedIds scans).Sublist (listedIds scanner.scans))
    (hapa : state.IdsApart fun id => scanner.nextEntryId ≤ id ∨ id ∈ listedIds scans) : Sound { scanner with state, scans } where
  apart := hapa
  clones := h.clones
  listed := hlist
  mtimes := hmtim
  given := fun id hid => h.given id (hids.subset hid)
  once := h.once.sublist hids

theorem Sound.excludeChild {scan : ScanningDir R} (hscan : scanner.scans[ix]? = some scan)
    (name : String) : (scanner.excludeChild scan ix name).Sound := by
  obtain ⟨before, after, hsca, hset, -⟩ := split_getElem? hscan
  have hmem : scan ∈ scanner.scans := mem_of_getElem? hscan
  have hids : listedIds (scanner.scans.set ix
      (scan.exclude (scan.path ++ [name]) (scanner.state.snapshot.hasBelow (scan.path ++ [name])))) = listedIds scanner.scans := by
    have hold := congrArg listedIds hsca
    rw [hold]
    unfold listedIds
    rw [hset, flatMap_append, flatMap_append]
    rfl
  refine h.withScans (fun other hoth => ?_) (fun other hoth => ?_) (hids ▸ List.Sublist.refl _) ?_
  · rcases mem_or_eq_of_mem_set hoth with hoth | rfl
    · exact h.listed _ hoth
    · exact ⟨(h.listed scan hmem).children, (h.listed scan hmem).paths⟩
  · rcases mem_or_eq_of_mem_set hoth with hoth | rfl
    · exact h.mtimes _ hoth
    · exact h.mtimes scan hmem
  · rw [hids]
    exact ((h.apart.removePath _).1).unwatch _

theorem Sound.failScan (ix : Nat) : Sound { scanner with scans := scanner.scans.eraseIdx ix } := by
  have hsub : (listedIds (scanner.scans.eraseIdx ix)).Sublist (listedIds scanner.scans) :=
    (eraseIdx_sublist _ _).flatMap _
  refine h.withScans (fun scan hscan => h.listed scan (mem_of_mem_eraseIdx hscan))
    (fun scan hscan => h.mtimes scan (mem_of_mem_eraseIdx hscan)) hsub (h.apart.mono fun id hunus => ?_)
  exact hunus.imp_right fun hin => hsub.subset hin

theorem Sound.finishScan {inRepo : Bool} {scan : ScanningDir R} (hscan : scanner.scans[ix]? = some scan)
    (hkeep : scanner.state.KeepsIds settings inRepo scan.newEntries) :
    Sound { scanner with
      state := scanner.state.finishScan settings inRepo scan.path scan.newEntries
      scans := scanner.scans.eraseIdx ix } := by
  obtain ⟨before, after, hsca, -, hera⟩ := split_getElem? hscan
  have hmem : scan ∈ scanner.scans := mem_of_getElem? hscan
  have hold : listedIds scanner.scans = listedIds before ++ (scan.newEntries.map Entry.id ++ listedIds after) := by
    unfold listedIds
    rw [hsca, flatMap_append, flatMap_cons]
  have hnew : listedIds (scanner.scans.eraseIdx ix) = listedIds before ++ listedIds after := by
    unfold listedIds
    rw [hera, flatMap_append]
  have hperm : (listedIds scanner.scans).Perm (scan.newEntries.map Entry.id ++ listedIds (scanner.scans.eraseIdx ix)) := by
    rw [hold, hnew]
    exact perm_append_comm_assoc _ _ _
  have honce := nodup_append.mp (hperm.nodup_iff.mp h.once)
  have hapa := h.apart.finishScan (h.listed scan hmem).children (h.listed scan hmem).paths
    (fun entry hent => ⟨h.mtimes scan hmem _ hent, .inr (hperm.mem_iff.mpr (mem_append_left _ (mem_map_of_mem hent)))⟩) honce.1 hkeep
  refine h.withScans (fun other hoth => h.listed _ (mem_of_mem_eraseIdx hoth))
    (fun other hoth => h.mtimes _ (mem_of_mem_eraseIdx hoth)) ((eraseIdx_sublist _ _).flatMap _)
    (hapa.mono fun id hunus => ⟨hunus.imp_right fun hin => hperm.mem_iff.mpr (mem_append_right _ hin), fun hin => ?_⟩)
  rcases hunus with hle | hin'
  · exact absurd (h.given id (hperm.mem_iff.mpr (mem_append_left _ hin))) (not_lt.mpr hle)
  · exact honce.2.2 id hin id hin' rfl

/-- The root keeps its id. -/
theorem Sound.startRoot (ignored : Bool) (hnew : scanner.state.removedEntries = .new) : (scanner.startRoot ignored).Sound := by
  unfold BackgroundScanner.startRoot
  split
  · exact h
  · rename_i rootEntry hroot
    obtain ⟨hmem, hpath⟩ := KeyedList.of_find? hroot
    have hexi : scanner.state.snapshot.entryForPath ({ rootEntry with isIgnored := true } : LocalEntry R).path = some rootEntry :=
      (congrArg _ hpath).trans hroot
    rw [reuseEntryId_new hnew hexi rfl]
    have hfla : Sound { scanner with state := if ignored
        then { scanner.state with snapshot := scanner.state.snapshot.insertLocalEntry { rootEntry with isIgnored := true } }
        else scanner.state } := by
      refine h.withState ?_
      cases ignored with
      | false => exact h.apart
      | true =>
        refine h.apart.insertLocalEntry (fun other hoth hid => ?_) (fun removed hrem => ?_) (.inl hpath)
          fun id hunus => ⟨hunus, fun hid => ?_⟩
        · exact (h.apart.paired.eq_of_id hoth hmem hid) ▸ rfl
        · exact h.apart.spare _ hrem rootEntry hmem
        · exact h.apart.unusedLive _ hmem (hid ▸ hunus)
    cases hscan : rootEntry.isDir && scanner.state.scanningEnabled with
    | true => exact hfla.startScan rfl
    | false => exact hfla

theorem Sound.reload {recursive : Bool} {paths : List RelPath} {answers : List (Answer R)}
    (hkeep : (scanner.state.removeRefreshed recursive (paths.zip answers)).KeepsRooted settings recursive scanner.nextEntryId
      (paths.zip answers)) : (scanner.reload settings recursive paths answers).Sound := by
  obtain ⟨hins, hle⟩ := h.apart.removeRefreshed.insertAllRefreshed h.given hkeep
  exact h.section hle (hins.congr rfl rfl rfl)

end

/-- Every move that meets the condition keeps the ids apart. -/
theorem Sound.apply [DecidableEq R] (h : scanner.Sound) (move : ScannerMove R) (halw : scanner.Allowed settings move)
    (hkeep : KeepsEntries settings scanner move) : (scanner.apply settings move).Sound := by
  cases move with
  | startRoot ignored => exact h.startRoot _ halw.1
  | startScan path => exact h.startScan rfl
  | listChild ix name metadata =>
    unfold BackgroundScanner.apply
    dsimp only
    split
    · rename_i scan hscan
      exact h.listChild hscan (halw scan hscan).2 _
    · exact h
  | excludeChild ix name =>
    unfold BackgroundScanner.apply
    dsimp only
    split
    · rename_i scan hscan
      exact h.excludeChild hscan name
    · exact h
  | failScan ix => exact h.failScan ix
  | finishScan ix inRepo =>
    unfold BackgroundScanner.apply
    dsimp only
    split
    · rename_i scan hscan
      exact h.finishScan hscan (hkeep scan hscan)
    · exact h
  | watchExternal canonical relative => exact h.withState (h.apart.congr rfl rfl rfl)
  | loadPaths paths => exact h.withState (h.apart.congr rfl rfl rfl)
  | takePathsToScan => exact h.withState (h.apart.congr rfl rfl rfl)
  | addPathPrefix path => exact h.withState (h.apart.congr rfl rfl rfl)
  | cloneSnapshot =>
    refine ⟨h.apart, fun clone hclo => ?_, h.listed, h.mtimes, h.given, h.once⟩
    rcases mem_append.mp hclo with hclo | hclo
    · exact h.clones _ hclo
    · exact mem_singleton.mp hclo ▸ h.apart.paired
  | updateIgnoreStatus ix path ignored =>
    unfold BackgroundScanner.apply
    dsimp only
    split
    · rename_i clone hclo
      exact h.withState (h.apart.updateIgnoreStatus (h.clones _ (mem_of_getElem? hclo)) (hkeep _ hclo))
    · exact h
  | receiveRequest relativePaths => exact ⟨h.apart, h.clones, h.listed, h.mtimes, h.given, h.once⟩
  | receiveEvents rootCanonicalPath rootPath events => exact ⟨h.apart, h.clones, h.listed, h.mtimes, h.given, h.once⟩
  | bumpScanId forRequest => exact h.withState (h.apart.congr rfl rfl rfl)
  | reloadRequest ix answers =>
    unfold BackgroundScanner.apply
    dsimp only
    split
    · rename_i paths hpath
      exact h.reload (hkeep _ hpath)
    · exact h
  | recordRequest ix =>
    unfold BackgroundScanner.apply
    dsimp only
    split
    · exact h.withState (h.apart.congr rfl rfl rfl)
    · exact h
  | reloadEvents ix answers =>
    unfold BackgroundScanner.apply
    dsimp only
    split
    · rename_i roots hroot
      exact h.reload (hkeep _ hroot)
    · exact h
  | completeEvents =>
    obtain ⟨hlink, hsub⟩ := h.apart.linked.rotate
    exact h.withState ((h.apart.withRemoved hlink hsub).congr rfl rfl rfl)
  | setPhase phase => exact ⟨h.apart, h.clones, h.listed, h.mtimes, h.given, h.once⟩
  | sendStatusUpdate scanning barrier eventRoots =>
    unfold BackgroundScanner.apply BackgroundScanner.sendStatusUpdate
    dsimp only
    split
    · exact h
    · exact ⟨h.apart.congr rfl rfl rfl, h.clones, h.listed, h.mtimes, h.given, h.once⟩

/-- The trees are consistent in every run in which ids stay with what stays, refreshed paths are put in directories that have entries,
and flags are written to entries that have not been refreshed; and then flags are all that is written. -/
theorem workers_keep_entries [DecidableEq R] (h : Reach settings (KeepsEntries settings) scanner) :
    scanner.Consistent ∧ ∀ ix path ignored, KeepsEntries settings scanner (.updateIgnoreStatus ix path ignored) →
      OnlyFlags scanner.state.snapshot (scanner.apply settings (.updateIgnoreStatus ix path ignored)).state.snapshot := by
  have hsound : scanner.Sound := by
    induction h with
    | start scanningEnabled hready => exact sound_start scanningEnabled hready
    | move move _ hallowed hkeeps ih => exact ih.apply move hallowed hkeeps
  refine ⟨⟨hsound.apart.paired.consistent, hsound.apart.rooted, hsound.apart.spare⟩, fun ix path ignored hkeeps => ?_⟩
  unfold BackgroundScanner.apply
  dsimp only
  split
  · rename_i clone hclone
    exact onlyFlags_updateIgnoreStatus (hsound.clones clone (mem_of_getElem? hclone)) hsound.apart.paired.byPath
      (hkeeps clone hclone)
  · exact fun _ => rfl

/-- A run that flags a file, and finds another one that is new. -/
theorem workers_keep_entries_flags : ∃ scanner : BackgroundScanner Unit, scanner.nextEntryId = 8 ∧ scanner.Consistent := by
  have h0 : Reach scanAll (KeepsEntries scanAll) (start (R := Unit) linkedSnapshot 7 true) := .start true linkedSnapshot_ready
  have h1 := h0.move .cloneSnapshot trivial trivial
  have h2 := h1.move (.updateIgnoreStatus 0 ["a"] fun _ _ => true) trivial
    (by
      intro clone hclone
      rw [← some.inj hclone]
      unfold BackgroundScannerState.KeepsRefreshed
      decide)
  have h3 := h2.move (.receiveRequest [["a", "g"]]) trivial trivial
  have h4 := h3.move (.reloadRequest 0 [.found (fileMetadata 7 1) false])
    (by
      intro paths hpaths
      rw [← some.inj hpaths]
      decide)
    (by
      intro paths hpaths
      rw [← some.inj hpaths]
      exact ⟨fun _ _ _ => .inr ⟨dirEntry ["a"] 1, by decide, rfl⟩, trivial⟩)
  exact ⟨_, rfl, (workers_keep_entries h4).1⟩

/-- A file that a refresh has removed comes back with its flag. -/
theorem entry_brought_back : ∃ scanner : BackgroundScanner Unit, Reach scanAll (fun _ _ => True) scanner ∧
    ∃ ix path ignored, ¬ OnlyFlags scanner.state.snapshot (scanner.apply scanAll (.updateIgnoreStatus ix path ignored)).state.snapshot := by
  have h0 : Reach scanAll (fun _ _ => True) (start (R := Unit) linkedSnapshot 7 true) := .start true linkedSnapshot_ready
  have h1 := h0.move .cloneSnapshot trivial trivial
  have h2 := h1.move (.receiveRequest [["a", "f"]]) trivial trivial
  have h3 := h2.move (.reloadRequest 0 [.gone])
    (by
      intro paths hpaths
      rw [← some.inj hpaths]
      decide) trivial
  refine ⟨_, h3, 0, ["a"], fun _ _ => true, fun honly => ?_⟩
  exact absurd (honly ["a", "f"]) (by decide)

end BackgroundScanner

end Wu.Worktree
