import Wu.Worktree.ScannerOps

/-!
# Ids of entries

An id is of one entry that is there, of one that was removed, or of none yet. Each section keeps the three apart.
-/

namespace Wu.Worktree

open List KeyedList

variable {R : Type}

theorem Entry.of_unflagged_eq {D : Type} {a b : Entry D} (h : a.unflagged = b.unflagged) : a.id = b.id ∧ a.path = b.path :=
  ⟨(Entry.mk.inj h).1, (Entry.mk.inj h).2.1⟩

namespace BackgroundScannerState

/-- The trees hold the same pairs, directories have entries, and what is there, what was removed and what is unused have other ids. -/
structure IdsApart (state : BackgroundScannerState R) (unused : Nat → Prop) : Prop where
  paired : state.snapshot.Paired
  rooted : state.snapshot.Rooted
  linked : state.removedEntries.Linked
  spare : ∀ removed, state.removedEntries.Holds removed → ∀ entry ∈ state.snapshot.entriesByPath, entry.id ≠ removed.id
  unusedLive : ∀ entry ∈ state.snapshot.entriesByPath, ¬ unused entry.id
  unusedHeld : ∀ removed, state.removedEntries.Holds removed → ¬ unused removed.id

variable {settings : Settings} {inRepo : Bool} {state : BackgroundScannerState R} {unused unused' : Nat → Prop}

/-- What is not about entries may be anything. -/
theorem IdsApart.congr (h : state.IdsApart unused) {after : BackgroundScannerState R}
    (hbyP : after.snapshot.entriesByPath = state.snapshot.entriesByPath) (hbyId : after.snapshot.entriesById = state.snapshot.entriesById)
    (hrem : after.removedEntries = state.removedEntries) : after.IdsApart unused where
  paired := ⟨hbyP ▸ h.paired.byPath, hbyId ▸ h.paired.byId, hbyP ▸ hbyId ▸ h.paired.same⟩
  rooted := by
    unfold Snapshot.Rooted
    exact hbyP ▸ h.rooted
  linked := hrem ▸ h.linked
  spare := hbyP ▸ hrem ▸ h.spare
  unusedLive := hbyP ▸ h.unusedLive
  unusedHeld := hrem ▸ h.unusedHeld

theorem IdsApart.mono (h : state.IdsApart unused) (hmono : ∀ id, unused' id → unused id) : state.IdsApart unused' where
  paired := h.paired
  rooted := h.rooted
  linked := h.linked
  spare := h.spare
  unusedLive := fun entry hent hunus => h.unusedLive entry hent (hmono _ hunus)
  unusedHeld := fun removed hrem hunus => h.unusedHeld removed hrem (hmono _ hunus)

/-- Removed entries are dropped or taken. -/
theorem IdsApart.withRemoved (h : state.IdsApart unused) {removedEntries : RemovedEntries R} (hlink : removedEntries.Linked)
    (hsub : ∀ removed, removedEntries.Holds removed → state.removedEntries.Holds removed) :
    IdsApart { state with removedEntries } unused where
  paired := h.paired
  rooted := h.rooted
  linked := hlink
  spare := fun removed hrem => h.spare removed (hsub _ hrem)
  unusedLive := h.unusedLive
  unusedHeld := fun removed hrem => h.unusedHeld removed (hsub _ hrem)

/-! ### Removed paths -/

/-- What is removed is kept under its id. -/
theorem IdsApart.removePath (h : state.IdsApart unused) (path : RelPath) : (state.removePathFromSnapshot path).IdsApart unused ∧
    (∀ entry, entry ∈ (state.removePathFromSnapshot path).snapshot.entriesByPath ↔
      entry ∈ state.snapshot.entriesByPath ∧ ¬ path <+: entry.path) ∧
    ∀ removed, (state.removePathFromSnapshot path).removedEntries.Holds removed →
      state.removedEntries.Holds removed ∨ removed ∈ state.snapshot.entriesByPath ∧ path <+: removed.path := by
  obtain ⟨removed, hsub, hrem, hsort, hmem, hheld, hbyId⟩ := removePath_spec h.paired.byPath path
  have hnod : (removed.map Entry.id).Nodup := h.paired.consistent.idsOnce.sublist (hsub.map _)
  obtain ⟨hlink, hhold⟩ := h.linked.insertAll hnod fun entry hent old hold => (h.spare old hold _ (hsub.subset hent)).symm
  have hhold : ∀ x, (removed.foldl RemovedEntries.insert state.removedEntries).Holds x →
      state.removedEntries.Holds x ∨ x ∈ state.snapshot.entriesByPath ∧ path <+: x.path :=
    fun x hx => (hhold x hx).imp_right (hrem x).mp
  obtain ⟨hsortBI, hmemBI⟩ := editBatch_removes h.paired.byId _
  have hkept : ∀ found : PathEntry, found ∈ (state.removePathFromSnapshot path).snapshot.entriesById ↔
      found ∈ state.snapshot.entriesById ∧ ¬ path <+: found.path := by
    intro found
    rw [hbyId, hmemBI, mem_removedIds]
    refine and_congr_right fun hfnd => not_congr ?_
    obtain ⟨entry, hent, hid, hpath⟩ := h.paired.to_path hfnd
    constructor
    · rintro (hnil | ⟨other, hoth, hothI⟩)
      · nomatch hnil
      · obtain ⟨hothM, hbel⟩ := (hrem _).mp hoth
        obtain rfl := h.paired.eq_of_id hent hothM (hid.trans hothI.symm)
        exact hpath ▸ hbel
    · exact fun hbel => .inr ⟨entry, (hrem _).mpr ⟨hent, hpath.symm ▸ hbel⟩, hid⟩
  refine ⟨⟨⟨hsort, hbyId ▸ hsortBI, fun id other => ?_⟩, ?_, hheld ▸ hlink, ?_, ?_, ?_⟩, hmem, hheld ▸ hhold⟩
  · constructor
    · rintro ⟨entry, hent, rfl, rfl⟩
      obtain ⟨hent, hnot⟩ := (hmem _).mp hent
      obtain ⟨found, hfnd, hid, hpath⟩ := h.paired.to_id hent
      exact ⟨found, (hkept _).mpr ⟨hfnd, hpath ▸ hnot⟩, hid, hpath⟩
    · rintro ⟨found, hfnd, rfl, rfl⟩
      obtain ⟨hfnd, hnot⟩ := (hkept _).mp hfnd
      obtain ⟨entry, hent, hid, hpath⟩ := h.paired.to_path hfnd
      exact ⟨entry, (hmem _).mpr ⟨hent, hpath ▸ hnot⟩, hid, hpath⟩
  · intro entry hent hne
    obtain ⟨hent, hnot⟩ := (hmem _).mp hent
    obtain ⟨parent, hpar, hpath⟩ := h.rooted _ hent hne
    refine ⟨parent, (hmem _).mpr ⟨hpar, fun hbel => hnot ?_⟩, hpath⟩
    rw [hpath] at hbel
    exact hbel.trans (List.dropLast_prefix _)
  · intro other hoth entry hent
    obtain ⟨hent, hnot⟩ := (hmem _).mp hent
    rcases hhold _ (hheld ▸ hoth) with hold | ⟨hlive, hbel⟩
    · exact h.spare _ hold _ hent
    · intro hid
      obtain rfl := h.paired.eq_of_id hent hlive hid
      exact hnot hbel
  · exact fun entry hent => h.unusedLive _ ((hmem _).mp hent).1
  · intro other hoth
    rcases hhold _ (hheld ▸ hoth) with hold | ⟨hlive, -⟩
    · exact h.unusedHeld _ hold
    · exact h.unusedLive _ hlive

theorem IdsApart.unwatch (h : state.IdsApart unused) (path : RelPath) : (state.unwatchPath path).IdsApart unused := h.congr rfl rfl rfl

/-! ### An entry that is put in -/

/-- The ids without a replaced one are those of other paths, and the one of the entry. -/
theorem mem_withoutReplaced {snapshot : Snapshot (LocalDetails R)} (h : snapshot.Paired) (entry : LocalEntry R) :
    KeyedList.Sorted PathEntry.id (snapshot.withoutReplaced entry) ∧
      ∀ found, found ∈ snapshot.withoutReplaced entry ↔ found ∈ snapshot.entriesById ∧ (found.path = entry.path → found.id = entry.id) := by
  unfold Snapshot.withoutReplaced
  split
  · rename_i removed hrem
    obtain ⟨hmem, hpath⟩ := of_find? hrem
    -- the id at the path is that of the replaced entry
    have hsame : ∀ found ∈ snapshot.entriesById, found.path = entry.path → found.id = removed.id := by
      intro found hfnd hfndP
      obtain ⟨other, hoth, hid, hothP⟩ := h.to_path hfnd
      rw [← hid, h.byPath.eq_of_key_eq hoth hmem (hothP.trans (hfndP.trans hpath.symm))]
    split
    · rename_i hne
      obtain ⟨hsort, hfnd⟩ := remove_spec h.byId _
      refine ⟨hsort, fun found => (hfnd _).trans (and_congr_right fun hmem' => ?_)⟩
      constructor
      · exact fun hnot hfndP => absurd (hsame _ hmem' hfndP) hnot
      · intro hkeep hid
        obtain ⟨other, hoth, hothI, hothP⟩ := h.to_path hmem'
        obtain rfl := h.eq_of_id hoth hmem (hothI.trans hid)
        exact hne (hid.symm.trans (hkeep (hothP.symm.trans hpath)))
    · rename_i heq
      exact ⟨h.byId, fun found => (and_iff_left_of_imp fun hmem' hfndP =>
        (hsame _ hmem' hfndP).trans (not_not.mp heq)).symm⟩
  · rename_i hnone
    refine ⟨h.byId, fun found => (and_iff_left_of_imp fun hmem' hfndP => ?_).symm⟩
    obtain ⟨other, hoth, -, hothP⟩ := h.to_path hmem'
    exact absurd (hothP.trans hfndP) (KeyedList.find?_eq_none.mp hnone _ hoth)

/-- An entry whose id is of no other path, and in a directory that has an entry, is put in. -/
theorem IdsApart.insertLocalEntry (h : state.IdsApart unused) {entry : LocalEntry R}
    (hid : ∀ other ∈ state.snapshot.entriesByPath, other.id = entry.id → other.path = entry.path)
    (hheld : ∀ removed, state.removedEntries.Holds removed → entry.id ≠ removed.id)
    (hpar : entry.path = [] ∨ ∃ parent ∈ state.snapshot.entriesByPath, parent.path = entry.path.dropLast)
    (hunus : ∀ id, unused' id → unused id ∧ id ≠ entry.id) :
    IdsApart { state with snapshot := state.snapshot.insertLocalEntry entry } unused' := by
  obtain ⟨hnewI, hnewP⟩ := state.snapshot.withExistingKind_same _
  obtain ⟨hsort, hmem⟩ := Snapshot.insertLocalEntry_spec h.paired.byPath _
  obtain ⟨hwitS, hwit⟩ := mem_withoutReplaced h.paired _
  obtain ⟨hsortBI, hins⟩ := insertOrReplace_spec hwitS _
  have hmemBI : ∀ found, found ∈ (state.snapshot.insertLocalEntry entry).entriesById ↔
      found = { (state.snapshot.withExistingKind entry).pathEntry with scanId := state.snapshot.scanId } ∨
        found ∈ state.snapshot.entriesById ∧ found.path ≠ entry.path := by
    intro found
    refine (hins _).trans (or_congr_right ?_)
    rw [hwit, hnewP]
    show (_ ∧ found.id ≠ (state.snapshot.withExistingKind _).id) ↔ _
    rw [hnewI, and_assoc]
    refine and_congr_right fun hfnd => ?_
    constructor
    · exact fun ⟨hkeep, hne⟩ hpath => hne (hkeep hpath)
    · intro hne
      refine ⟨fun hpath => absurd hpath hne, fun hsame => hne ?_⟩
      obtain ⟨other, hoth, hothI, hothP⟩ := h.paired.to_path hfnd
      exact hothP.symm.trans (hid _ hoth (hothI.trans hsame))
  have hids : ∀ other, other ∈ (state.snapshot.insertLocalEntry entry).entriesByPath →
      other.id = entry.id ∨ other ∈ state.snapshot.entriesByPath ∧ other.path ≠ entry.path := by
    intro other hoth
    rcases (hmem _).mp hoth with rfl | hoth
    · exact .inl hnewI
    · exact .inr hoth
  refine ⟨⟨hsort, hsortBI, fun id path => ?_⟩, ?_, h.linked, ?_, ?_, ?_⟩
  · constructor
    · rintro ⟨other, hoth, rfl, rfl⟩
      rcases (hmem _).mp hoth with rfl | ⟨hoth, hne⟩
      · exact ⟨_, (hmemBI _).mpr (.inl rfl), rfl, rfl⟩
      · obtain ⟨found, hfnd, hfndI, hfndP⟩ := h.paired.to_id hoth
        exact ⟨found, (hmemBI _).mpr (.inr ⟨hfnd, hfndP ▸ hne⟩), hfndI, hfndP⟩
    · rintro ⟨found, hfnd, rfl, rfl⟩
      rcases (hmemBI _).mp hfnd with rfl | ⟨hfnd, hne⟩
      · exact ⟨_, (hmem _).mpr (.inl rfl), rfl, rfl⟩
      · obtain ⟨other, hoth, hothI, hothP⟩ := h.paired.to_path hfnd
        exact ⟨other, (hmem _).mpr (.inr ⟨hoth, hothP ▸ hne⟩), hothI, hothP⟩
  · -- a directory is at its path still, or is the new entry
    have hsti : ∀ {path : RelPath}, (∃ parent ∈ state.snapshot.entriesByPath, parent.path = path) →
        ∃ parent ∈ (state.snapshot.insertLocalEntry entry).entriesByPath, parent.path = path := by
      rintro - ⟨parent, hpar, rfl⟩
      by_cases hsame : parent.path = entry.path
      · exact ⟨_, (hmem _).mpr (.inl rfl), hnewP.trans hsame.symm⟩
      · exact ⟨parent, (hmem _).mpr (.inr ⟨hpar, hsame⟩), rfl⟩
    intro other hoth hne
    rcases (hmem _).mp hoth with rfl | ⟨hoth, -⟩
    · rw [hnewP] at hne ⊢
      exact hsti (hpar.resolve_left hne)
    · exact hsti (h.rooted _ hoth hne)
  · intro removed hrem other hoth
    rcases hids _ hoth with heq | ⟨hoth, -⟩
    · exact heq ▸ hheld _ hrem
    · exact h.spare _ hrem _ hoth
  · intro other hoth hunusI
    rcases hids _ hoth with heq | ⟨hoth, -⟩
    · exact (hunus _ hunusI).2 heq
    · exact h.unusedLive _ hoth (hunus _ hunusI).1
  · exact fun removed hrem hunusI => h.unusedHeld _ hrem (hunus _ hunusI).1

/-! ### Where an id comes from -/

/-- A removed entry is taken if one is known, and its id may not fit; else the id is that of the entry at the path. -/
theorem reusedEntryId_cases (hlink : state.removedEntries.Linked) (path : RelPath) (inode mtime : Nat) :
    (∃ removed removedEntries reused, state.removedEntries.Took removed removedEntries ∧ state.removedEntries.knows path inode = true ∧
      (reused = some removed.id ∨ reused = none) ∧ state.reusedEntryId path inode mtime = (reused, { state with removedEntries })) ∨
    state.removedEntries.knows path inode = false ∧
      state.reusedEntryId path inode mtime = ((state.snapshot.entryForPath path).map Entry.id, state) := by
  unfold reusedEntryId RemovedEntries.knows
  cases hpath : state.removedEntries.takeByPath path _ with
  | some taken =>
    obtain ⟨removed, removedEntries⟩ := taken
    exact .inl ⟨removed, removedEntries, some _, hlink.takeByPath hpath, rfl, .inl rfl, rfl⟩
  | none =>
    cases hino : state.removedEntries.takeByInode _ with
    | some taken =>
      obtain ⟨removed, removedEntries⟩ := taken
      refine .inl ⟨removed, removedEntries, _, hlink.takeByInode hino, rfl, ?_, rfl⟩
      split
      · exact .inl rfl
      · exact .inr rfl
    | none => exact .inr ⟨rfl, rfl⟩

/-- The id that an entry gets is of a removed entry, of the one at its path, or its own. -/
theorem reuseEntryId_cases (hlink : state.removedEntries.Linked) {entry : LocalEntry R} (hmti : entry.details.mtime ≠ none) :
    (∃ removed removedEntries id, state.removedEntries.Took removed removedEntries ∧
      state.removedEntries.knows entry.path entry.details.inode = true ∧ (id = removed.id ∨ id = entry.id) ∧
      state.reuseEntryId entry = ({ entry with id }, { state with removedEntries })) ∨
    state.removedEntries.knows entry.path entry.details.inode = false ∧
      state.reuseEntryId entry = ({ entry with id := ((state.snapshot.entryForPath entry.path).map Entry.id).getD entry.id }, state) := by
  unfold reuseEntryId
  split
  · rename_i hnone
    exact absurd hnone hmti
  · rename_i mtime _
    rcases reusedEntryId_cases hlink _ _ _ with
      ⟨removed, removedEntries, reused, htook, hknow, hreus, heq⟩ | ⟨hknow, heq⟩
    · rw [heq]
      refine .inl ⟨removed, removedEntries, _, htook, hknow, ?_, rfl⟩
      rcases hreus with rfl | rfl
      · exact .inl rfl
      · exact .inr rfl
    · rw [heq]
      exact .inr ⟨hknow, rfl⟩

/-! ### Listed entries -/

/-- What is loaded at the path is removed if it is put off, and nothing is changed else. -/
theorem placeEntry_state (settings : Settings) (inRepo : Bool) (state : BackgroundScannerState R) (entry : LocalEntry R) :
    (state.placeEntry settings inRepo entry).1.id = (state.reuseEntryId entry).1.id ∧
    (state.PutsOff settings inRepo entry ∧
        (state.placeEntry settings inRepo entry).2 = (state.reuseEntryId entry).2.removePathFromSnapshotAndUnwatch entry.path ∨
      ¬ state.PutsOff settings inRepo entry ∧ (state.placeEntry settings inRepo entry).2 = (state.reuseEntryId entry).2) := by
  obtain ⟨id, removedEntries, hreu⟩ := state.reuseEntryId_spec _
  unfold PutsOff placeEntry
  rw [hreu]
  dsimp only
  split
  · rename_i hscan
    rw [Bool.and_eq_true, Bool.not_eq_true'] at hscan
    refine ⟨rfl, ?_⟩
    split
    · rename_i hput
      rw [Bool.and_eq_true, Bool.and_eq_true, Bool.not_eq_true', Bool.not_eq_true', Bool.not_eq_true'] at hput
      exact .inl ⟨⟨hscan.1, hscan.2, hput.1.1, hput.1.2, hput.2⟩, rfl⟩
    · rename_i hput
      refine .inr ⟨fun h => hput ?_, rfl⟩
      rw [Bool.and_eq_true, Bool.and_eq_true, Bool.not_eq_true', Bool.not_eq_true', Bool.not_eq_true']
      exact ⟨⟨h.2.2.1, h.2.2.2.1⟩, h.2.2.2.2⟩
  · rename_i hscan
    refine ⟨rfl, .inr ⟨fun h => hscan ?_, rfl⟩⟩
    rw [Bool.and_eq_true, Bool.not_eq_true']
    exact ⟨h.1, h.2.1⟩

/-- An entry is of the one at its path, if there is one, and its id is not in use elsewhere. -/
structure Fits (state : BackgroundScannerState R) (entry : LocalEntry R) : Prop where
  live : ∀ other ∈ state.snapshot.entriesByPath, other.path = entry.path ↔ other.id = entry.id
  held : ∀ removed, state.removedEntries.Holds removed → removed.id ≠ entry.id

/-- An id is one of a listing, of a removed entry, or of an entry at a listed path or below it. -/
def ComesFrom (state : BackgroundScannerState R) (listing : List (LocalEntry R)) (id : Nat) : Prop :=
  (∃ entry ∈ listing, entry.id = id) ∨ (∃ removed, state.removedEntries.Holds removed ∧ removed.id = id) ∨
    ∃ entry ∈ state.snapshot.entriesByPath, (∃ listed ∈ listing, listed.path <+: entry.path) ∧ entry.id = id

/-- Entries go only below listed paths, and are kept if they do. -/
structure Drops (listing : List (LocalEntry R)) (before after : BackgroundScannerState R) : Prop where
  live : ∀ entry ∈ after.snapshot.entriesByPath, entry ∈ before.snapshot.entriesByPath
  held : ∀ removed, after.removedEntries.Holds removed → before.removedEntries.Holds removed ∨
    removed ∈ before.snapshot.entriesByPath ∧ ∃ listed ∈ listing, listed.path <+: removed.path

variable {listing : List (LocalEntry R)} {path : RelPath} {recursive : Bool} {paths : List (RelPath × Answer R)}
variable {clone : Snapshot (LocalDetails R)} {ignored : RelPath → Bool → Bool}

/-- An entry still fits when only entries that are not at its path have gone. -/
theorem Fits.drop {before after : BackgroundScannerState R} {entry : LocalEntry R}
    (h : before.Fits entry) (hdrop : Drops listing before after) (happ : ∀ listed ∈ listing, ¬ listed.path <+: entry.path) :
    after.Fits entry where
  live := fun other hoth => h.live _ (hdrop.live _ hoth)
  held := by
    intro removed hrem hid
    rcases hdrop.held _ hrem with hold | ⟨hlive, listed, hlist, hbel⟩
    · exact h.held _ hold hid
    · exact happ _ hlist (((h.live _ hlive).mpr hid) ▸ hbel)

/-- One entry of a listing gets an id that fits. -/
theorem IdsApart.placeEntry (h : state.IdsApart unused) {entry : LocalEntry R} (hmti : entry.details.mtime ≠ none)
    (hunus : unused entry.id)
    (hkeep : (∃ old ∈ state.snapshot.entriesByPath, old.path = entry.path) →
      (state.removedEntries.knows entry.path entry.details.inode = true ↔ state.PutsOff settings inRepo entry)) :
    (state.placeEntry settings inRepo entry).2.IdsApart unused ∧
      (state.placeEntry settings inRepo entry).2.Fits (state.placeEntry settings inRepo entry).1 ∧
      Drops [entry] state (state.placeEntry settings inRepo entry).2 ∧
      ((state.placeEntry settings inRepo entry).1.id = entry.id ∨ ¬ unused (state.placeEntry settings inRepo entry).1.id) ∧
      state.ComesFrom [entry] (state.placeEntry settings inRepo entry).1.id := by
  have hpath := state.placeEntry_path settings inRepo entry
  obtain ⟨hid, hsta⟩ := state.placeEntry_state _ _ _
  -- what a removal leaves when an id has been found
  have hfits : ∀ {middle : BackgroundScannerState R}, middle.IdsApart unused →
      (∀ other ∈ middle.snapshot.entriesByPath, other ∈ state.snapshot.entriesByPath) →
      (∀ removed, middle.removedEntries.Holds removed → state.removedEntries.Holds removed) →
      (∀ other ∈ middle.snapshot.entriesByPath, other.id ≠ (state.placeEntry settings inRepo entry).1.id) →
      (∀ removed, middle.removedEntries.Holds removed → removed.id ≠ (state.placeEntry settings inRepo entry).1.id) →
      (state.PutsOff settings inRepo entry ∧
          (state.placeEntry settings inRepo entry).2 = middle.removePathFromSnapshotAndUnwatch entry.path ∨
        (∀ other ∈ middle.snapshot.entriesByPath, other.path ≠ entry.path) ∧ (state.placeEntry settings inRepo entry).2 = middle) →
      (state.placeEntry settings inRepo entry).2.IdsApart unused ∧
        (state.placeEntry settings inRepo entry).2.Fits (state.placeEntry settings inRepo entry).1 ∧
        Drops [entry] state (state.placeEntry settings inRepo entry).2 := by
    intro middle hmid hlive hheld hnotL hnotH haft
    rcases haft with ⟨-, haft⟩ | ⟨hnone, haft⟩
    · obtain ⟨hapa, hmem, hhold⟩ := hmid.removePath _
      rw [haft]
      refine ⟨hapa.unwatch _, ⟨fun other hoth => ?_, fun removed hrem => ?_⟩, ?_, fun removed hrem => ?_⟩
      · obtain ⟨hoth, hnot⟩ := (hmem _).mp hoth
        rw [hpath]
        exact ⟨fun heq => absurd (heq ▸ prefix_refl _) hnot, fun heq => absurd heq (hnotL _ hoth)⟩
      · rcases hhold _ hrem with hold | ⟨hold, -⟩
        · exact hnotH _ hold
        · exact hnotL _ hold
      · exact fun other hoth => hlive _ ((hmem _).mp hoth).1
      · rcases hhold _ hrem with hold | ⟨hold, hbel⟩
        · exact .inl (hheld _ hold)
        · exact .inr ⟨hlive _ hold, entry, .head _, hbel⟩
    · rw [haft]
      refine ⟨hmid, ⟨fun other hoth => ?_, hnotH⟩, hlive, fun removed hrem => .inl (hheld _ hrem)⟩
      rw [hpath]
      exact ⟨fun heq => absurd heq (hnone _ hoth), fun heq => absurd heq (hnotL _ hoth)⟩
  rcases reuseEntryId_cases h.linked hmti with ⟨removed, removedEntries, id, htook, hknow, hreus, heq⟩ | ⟨hknow, heq⟩
  · rw [heq] at hid hsta
    have hheld : ∀ other, removedEntries.Holds other → state.removedEntries.Holds other := fun other hoth =>
      ((htook.holds _).mp hoth).1
    have hnot : (∀ other ∈ state.snapshot.entriesByPath, other.id ≠ id) ∧ (∀ other, removedEntries.Holds other → other.id ≠ id) := by
      rcases hreus with rfl | rfl
      · exact ⟨h.spare _ htook.held, fun other hoth => ((htook.holds _).mp hoth).2⟩
      · exact ⟨fun other hoth heq => h.unusedLive _ hoth (heq ▸ hunus),
          fun other hoth heq => h.unusedHeld _ (hheld _ hoth) (heq ▸ hunus)⟩
    obtain ⟨hapa, hfit, hdrop⟩ := hfits (h.withRemoved htook.linked hheld) (fun _ h => h) hheld
      (hid ▸ hnot.1) (hid ▸ hnot.2) (hsta.imp_right fun ⟨hnotP, hsame⟩ =>
        ⟨fun other hoth hothP => hnotP ((hkeep ⟨other, hoth, hothP⟩).mp hknow), hsame⟩)
    refine ⟨hapa, hfit, hdrop, ?_, ?_⟩
    · rw [hid]
      rcases hreus with rfl | hown
      · exact .inr (h.unusedHeld removed htook.held)
      · exact .inl hown
    · rw [hid]
      rcases hreus with rfl | rfl
      · exact .inr (.inl ⟨removed, htook.held, rfl⟩)
      · exact .inl ⟨entry, .head _, rfl⟩
  · rw [heq] at hid hsta
    cases hold : state.snapshot.entryForPath _ with
    | none =>
      rw [hold] at hid
      have hnone : ∀ other ∈ state.snapshot.entriesByPath, other.path ≠ entry.path := KeyedList.find?_eq_none.mp hold
      have hid : (state.placeEntry settings inRepo entry).1.id = entry.id := hid
      obtain ⟨hapa, hfit, hdrop⟩ := hfits h (fun _ h => h) (fun _ h => h)
        (fun other hoth heq => h.unusedLive _ hoth (heq ▸ hid ▸ hunus))
        (fun other hoth heq => h.unusedHeld _ hoth (heq ▸ hid ▸ hunus)) (hsta.imp_right fun hsame => ⟨hnone, hsame.2⟩)
      exact ⟨hapa, hfit, hdrop, .inl hid, .inl ⟨entry, .head _, hid.symm⟩⟩
    | some old =>
      rw [hold] at hid
      have hid : (state.placeEntry settings inRepo entry).1.id = old.id := hid
      obtain ⟨hmem, holdPath⟩ := of_find? hold
      rcases hsta with ⟨hput, -⟩ | ⟨-, hsame⟩
      · have hkno := (hkeep ⟨old, hmem, holdPath⟩).mpr hput
        exact absurd (hknow.symm.trans hkno) Bool.false_ne_true
      · rw [hsame, hid]
        refine ⟨h, ⟨fun other hoth => ?_, fun removed hrem heq => ?_⟩, ⟨fun _ h => h, fun _ => .inl⟩,
          .inr (h.unusedLive old hmem), .inr (.inr ⟨old, hmem, ⟨entry, .head _, ?_⟩, rfl⟩)⟩
        · rw [hpath, hid]
          constructor
          · exact fun heq => congrArg _ (h.paired.byPath.eq_of_key_eq hoth hmem (heq.trans holdPath.symm))
          · exact fun heq => (h.paired.eq_of_id hoth hmem heq) ▸ holdPath
        · exact h.spare _ hrem old hmem (heq.trans hid).symm
        · exact ⟨[], (append_nil _).trans holdPath.symm⟩

theorem ComesFrom.mono {larger : List (LocalEntry R)} {id : Nat} (h : state.ComesFrom listing id)
    (hsub : ∀ entry ∈ listing, entry ∈ larger) : state.ComesFrom larger id := by
  rcases h with ⟨entry, hent, hid⟩ | hrem | ⟨entry, hent, ⟨listed, hlist, hbel⟩, hid⟩
  · exact .inl ⟨entry, hsub _ hent, hid⟩
  · exact .inr (.inl hrem)
  · exact .inr (.inr ⟨entry, hent, ⟨listed, hsub _ hlist, hbel⟩, hid⟩)

/-- Where an id comes from after an entry has been placed, as seen from before. -/
theorem ComesFrom.before {before after : BackgroundScannerState R} {entry : LocalEntry R} {id : Nat}
    (h : after.ComesFrom listing id) (hdrop : Drops [entry] before after) : before.ComesFrom (entry :: listing) id := by
  rcases h with ⟨listed, hlist, hid⟩ | ⟨removed, hrem, hid⟩ | ⟨live, hlive, ⟨listed, hlist, hbel⟩, hid⟩
  · exact .inl ⟨listed, .tail _ hlist, hid⟩
  · rcases hdrop.held _ hrem with hold | ⟨hlive, listed, hlist, hbel⟩
    · exact .inr (.inl ⟨removed, hold, hid⟩)
    · exact .inr (.inr ⟨removed, hlive, ⟨entry, mem_cons_self, mem_singleton.mp hlist ▸ hbel⟩, hid⟩)
  · exact .inr (.inr ⟨live, hdrop.live live hlive, ⟨listed, .tail _ hlist, hbel⟩, hid⟩)

theorem placeEntries_cons (state : BackgroundScannerState R) (entry : LocalEntry R) (entries : List (LocalEntry R)) :
    placeEntries settings inRepo state (entry :: entries) = ((state.placeEntry settings inRepo entry).1 ::
          (placeEntries settings inRepo (state.placeEntry settings inRepo entry).2 entries).1,
        (placeEntries settings inRepo (state.placeEntry settings inRepo entry).2 entries).2) := rfl

/-- Paths none of which lies below another one. -/
def Spread (entries : List (LocalEntry R)) : Prop := entries.Pairwise fun a b => ¬ a.path <+: b.path ∧ ¬ b.path <+: a.path

/-- The loop over a listing gives ids that fit, each to one entry. -/
theorem IdsApart.placeEntries {entries : List (LocalEntry R)} : ∀ {state : BackgroundScannerState R} {unused : Nat → Prop},
    state.IdsApart unused → (∀ entry ∈ entries, entry.details.mtime ≠ none ∧ unused entry.id) → (entries.map Entry.id).Nodup →
    Spread entries → state.KeepsIds settings inRepo entries →
    (placeEntries settings inRepo state entries).2.IdsApart (fun id => unused id ∧ id ∉ entries.map Entry.id) ∧
      Drops entries state (placeEntries settings inRepo state entries).2 ∧
      (∀ placed ∈ (placeEntries settings inRepo state entries).1, (placeEntries settings inRepo state entries).2.Fits placed ∧
        (placed.id ∈ entries.map Entry.id ∨ ¬ unused placed.id) ∧ state.ComesFrom entries placed.id) ∧
      ((placeEntries settings inRepo state entries).1.map Entry.id).Nodup := by
  induction entries with
  | nil =>
    intro state unused h _ _ _ _
    exact ⟨h.mono fun id hunus => hunus.1, ⟨fun _ h => h, fun _ => .inl⟩, nofun, nodup_nil⟩
  | cons entry entries ih =>
    intro state unused h hnew hids hspr hkeep
    obtain ⟨hmti, hunus⟩ := hnew _ mem_cons_self
    obtain ⟨hnotI, hids⟩ := nodup_cons.mp hids
    obtain ⟨hsprF, hspr⟩ := pairwise_cons.mp hspr
    obtain ⟨hplac, hfits, hdrop, hid, hfrom⟩ := h.placeEntry hmti hunus hkeep.1
    have hpath := state.placeEntry_path settings inRepo entry
    rw [placeEntries_cons]
    have hothe : (state.placeEntry settings inRepo entry).2.IdsApart fun id => unused id ∧ id ≠ entry.id :=
      hplac.mono fun id hunusI => hunusI.1
    obtain ⟨hrest, hrestD, hrestP, hrestI⟩ := ih hothe
      (fun other hoth => ⟨(hnew _ (.tail _ hoth)).1, (hnew _ (.tail _ hoth)).2,
        fun heq => hnotI (heq ▸ mem_map_of_mem hoth)⟩) hids hspr hkeep.2
    generalize hstep : state.placeEntry settings inRepo entry = step at *
    obtain ⟨placed, middle⟩ := step
    generalize hrun : BackgroundScannerState.placeEntries settings inRepo middle entries = run at *
    obtain ⟨rest, after⟩ := run
    dsimp only at *
    -- what the rest drops is not at the path of this entry
    have happ : ∀ listed ∈ entries, ¬ listed.path <+: placed.path := by
      intro listed hlist
      rw [hpath]
      exact (hsprF _ hlist).2
    refine ⟨hrest.mono fun id hunusI => ⟨⟨hunusI.1, fun heq => hunusI.2 (heq ▸ mem_cons_self)⟩,
      fun hin => hunusI.2 (.tail _ hin)⟩, ⟨fun other hoth => hdrop.live _ (hrestD.live _ hoth),
      fun removed hrem => ?_⟩, fun other hoth => ?_, nodup_cons.mpr ⟨fun hin => ?_, hrestI⟩⟩
    · rcases hrestD.held _ hrem with hold | ⟨hlive, listed, hlist, hbel⟩
      · rcases hdrop.held _ hold with hold | ⟨hlive, listed, hlist, hbel⟩
        · exact .inl hold
        · exact .inr ⟨hlive, entry, mem_cons_self, mem_singleton.mp hlist ▸ hbel⟩
      · exact .inr ⟨hdrop.live _ hlive, listed, .tail _ hlist, hbel⟩
    · rcases mem_cons.mp hoth with rfl | hoth
      · refine ⟨hfits.drop hrestD happ, ?_, ?_⟩
        · exact hid.imp_left fun hown => mem_cons.mpr (.inl hown)
        · exact hfrom.mono fun listed hlist => mem_singleton.mp hlist ▸ mem_cons_self
      · obtain ⟨hothFi, hothI, hothF⟩ := hrestP _ hoth
        refine ⟨hothFi, ?_, ?_⟩
        · by_cases heq : other.id = entry.id
          · exact .inl (heq ▸ mem_cons_self)
          · exact hothI.imp (mem_cons_of_mem _) fun hnot hunusI => hnot ⟨hunusI, heq⟩
        · exact hothF.before hdrop
    · -- this entry fits, so that no other one has its id
      obtain ⟨other, hoth, heq⟩ := mem_map.mp hin
      obtain ⟨-, -, hothF⟩ := hrestP _ hoth
      rw [heq] at hothF
      rcases hothF with ⟨listed, hlist, hlistI⟩ | ⟨removed, hrem, hremI⟩ | ⟨live, hlive, ⟨listed, hlist, hbel⟩, hliveI⟩
      · rcases hid with hid | hid
        · exact hnotI (hid ▸ hlistI ▸ mem_map_of_mem hlist)
        · exact hid (hlistI ▸ (hnew _ (.tail _ hlist)).2)
      · exact hfits.held _ hrem hremI
      · exact happ _ hlist ((hfits.live live hlive).mpr hliveI ▸ hbel)

/-- A listing whose entries fit is put in. -/
theorem IdsApart.populateDir (h : state.IdsApart unused) {parentPath : RelPath} {entries : List (LocalEntry R)}
    (hchn : ∀ entry ∈ entries, ∃ name, entry.path = parentPath ++ [name]) (hpat : (entries.map Entry.path).Nodup)
    (hids : (entries.map Entry.id).Nodup) (hfits : ∀ entry ∈ entries, state.Fits entry ∧ ¬ unused entry.id) :
    (state.populateDir parentPath entries).IdsApart unused := by
  by_cases hdir : ∃ parent ∈ state.snapshot.entriesByPath, parent.path = parentPath ∧ parent.isDir = true
  · obtain ⟨parent, hpar, rfl, hparD⟩ := hdir
    obtain ⟨parent', hid, hpath, hpop⟩ := populateDir_of_dir h.paired.byPath hpar hparD _
    have hchdN : ∀ entry ∈ entries, entry.path ≠ parent.path := by
      intro entry hent heq
      obtain ⟨name, hname⟩ := hchn _ hent
      exact absurd (congrArg List.length (hname.symm.trans heq)) (by simp)
    have hpathA : ((parent' :: entries).map Entry.path).Nodup := by
      refine nodup_cons.mpr ⟨fun hin => ?_, hpat⟩
      obtain ⟨entry, hent, heq⟩ := mem_map.mp hin
      exact hchdN _ hent (heq.trans hpath)
    obtain ⟨hsort, hmem⟩ := editBatch_inserts h.paired.byPath hpathA
    have hidsE : ((entries.map fun entry : LocalEntry R => { entry.pathEntry with scanId := state.snapshot.scanId }).map
        PathEntry.id).Nodup := by
      rw [map_map]
      exact hids
    obtain ⟨hsortBI, hmemBI⟩ := editBatch_inserts h.paired.byId hidsE
    rw [map_map] at hsortBI hmemBI
    -- an entry whose id is put in is at the path of the new one
    have hrep : ∀ other ∈ state.snapshot.entriesByPath, other.path ∈ entries.map Entry.path ↔ other.id ∈ entries.map Entry.id := by
      intro other hoth
      rw [mem_map, mem_map]
      refine exists_congr fun entry => and_congr_right fun hent => ?_
      exact eq_comm.trans (((hfits _ hent).1.live _ hoth).trans eq_comm)
    have hkept : ∀ other ∈ state.snapshot.entriesByPath, other.path ∉ entries.map Entry.path →
        ∃ entry ∈ editBatch Entry.path ((parent' :: entries).map .insert) state.snapshot.entriesByPath,
          entry.id = other.id ∧ entry.path = other.path := by
      intro other hoth hnot
      by_cases hsame : other.path = parent.path
      · obtain rfl := h.paired.byPath.eq_of_key_eq hoth hpar hsame
        exact ⟨parent', (hmem _).mpr (.inl mem_cons_self), hid, hpath⟩
      · refine ⟨other, (hmem _).mpr (.inr ⟨hoth, fun hin => ?_⟩), rfl, rfl⟩
        rcases mem_cons.mp hin with heq | hin
        · exact hsame (heq.trans hpath)
        · exact hnot hin
    have hfrom : ∀ entry, entry ∈ editBatch Entry.path ((parent' :: entries).map .insert) state.snapshot.entriesByPath →
        entry ∈ entries ∨ ∃ other ∈ state.snapshot.entriesByPath, other.id = entry.id ∧ other.path = entry.path ∧
          other.path ∉ entries.map Entry.path := by
      intro entry hent
      rcases (hmem _).mp hent with hnew | ⟨hold, hnot⟩
      · rcases mem_cons.mp hnew with rfl | hnew
        · refine .inr ⟨parent, hpar, hid.symm, hpath.symm, fun hin => ?_⟩
          obtain ⟨other, hoth, heq⟩ := mem_map.mp hin
          exact hchdN _ hoth heq
        · exact .inl hnew
      · exact .inr ⟨entry, hold, rfl, rfl, fun hin => hnot (.tail _ hin)⟩
    rw [hpop]
    refine ⟨⟨hsort, hsortBI, fun id path => ?_⟩, ?_, h.linked, ?_, ?_, h.unusedHeld⟩
    · constructor
      · rintro ⟨entry, hent, rfl, rfl⟩
        rcases hfrom _ hent with hnew | ⟨other, hoth, hothI, hothP, hnot⟩
        · exact ⟨_, (hmemBI _).mpr (.inl (mem_map_of_mem hnew)), rfl, rfl⟩
        · obtain ⟨found, hfnd, hfndI, hfndP⟩ := h.paired.to_id hoth
          refine ⟨found, (hmemBI _).mpr (.inr ⟨hfnd, fun hin => hnot ((hrep _ hoth).mpr ?_)⟩), hfndI.trans hothI, hfndP.trans hothP⟩
          rw [map_map, hfndI] at hin
          exact hin
      · rintro ⟨found, hfnd, rfl, rfl⟩
        rcases (hmemBI _).mp hfnd with hnew | ⟨hold, hnot⟩
        · obtain ⟨entry, hent, rfl⟩ := mem_map.mp hnew
          exact ⟨entry, (hmem _).mpr (.inl (.tail _ hent)), rfl, rfl⟩
        · obtain ⟨other, hoth, hothI, hothP⟩ := h.paired.to_path hold
          obtain ⟨entry, hent, hentI, hentP⟩ := hkept _ hoth fun hin => hnot (by
            rw [map_map, ← hothI]
            exact (hrep _ hoth).mp hin)
          exact ⟨entry, hent, hentI.trans hothI, hentP.trans hothP⟩
    · -- directories stay at their paths
      have hsti : ∀ other ∈ state.snapshot.entriesByPath, ∃ entry ∈
          editBatch Entry.path ((parent' :: entries).map .insert) state.snapshot.entriesByPath, entry.path = other.path := by
        intro other hoth
        by_cases hin : other.path ∈ entries.map Entry.path
        · obtain ⟨entry, hent, heq⟩ := mem_map.mp hin
          exact ⟨entry, (hmem _).mpr (.inl (.tail _ hent)), heq⟩
        · obtain ⟨entry, hent, -, heq⟩ := hkept _ hoth hin
          exact ⟨entry, hent, heq⟩
      intro entry hent hne
      rcases hfrom _ hent with hnew | ⟨other, hoth, -, hothP, -⟩
      · obtain ⟨name, hname⟩ := hchn _ hnew
        refine ⟨parent', (hmem _).mpr (.inl mem_cons_self), hpath.trans ?_⟩
        rw [hname, dropLast_concat]
      · obtain ⟨above, habo, haboP⟩ := h.rooted _ hoth (hothP ▸ hne)
        obtain ⟨still, hstiM, hstiP⟩ := hsti _ habo
        exact ⟨still, hstiM, hstiP.trans (haboP.trans (congrArg _ hothP))⟩
    · intro removed hrem entry hent
      rcases hfrom _ hent with hnew | ⟨other, hoth, hothI, -⟩
      · exact ((hfits _ hnew).1.held _ hrem).symm
      · exact hothI ▸ h.spare _ hrem _ hoth
    · intro entry hent
      rcases hfrom _ hent with hnew | ⟨other, hoth, hothI, -⟩
      · exact (hfits _ hnew).2
      · exact hothI ▸ h.unusedLive _ hoth
  · rw [populateDir_of_not fun parent hpar hpath => Bool.eq_false_iff.mpr fun hparD => hdir ⟨parent, hpar, hpath, hparD⟩]
    exact h

/-- The last section of a scan. -/
theorem IdsApart.finishScan (h : state.IdsApart unused) {newEntries : List (LocalEntry R)}
    (hchn : ∀ entry ∈ newEntries, ∃ name, entry.path = path ++ [name]) (hpath : (newEntries.map Entry.path).Nodup)
    (hnew : ∀ entry ∈ newEntries, entry.details.mtime ≠ none ∧ unused entry.id) (hids : (newEntries.map Entry.id).Nodup)
    (hkeep : state.KeepsIds settings inRepo newEntries) :
    (state.finishScan settings inRepo path newEntries).IdsApart fun id => unused id ∧ id ∉ newEntries.map Entry.id := by
  have hspr : Spread newEntries := by
    -- children with different names
    have hlen : ∀ entry ∈ newEntries, entry.path.length = path.length + 1 := by
      intro entry hent
      obtain ⟨name, hname⟩ := hchn _ hent
      rw [hname, length_append, length_singleton]
    refine (pairwise_map.mp hpath).imp_of_mem fun {a b} ha hb hne => ⟨fun hbel => hne ?_, fun hbel => hne ?_⟩
    · exact hbel.eq_of_length ((hlen a ha).trans (hlen b hb).symm)
    · exact (hbel.eq_of_length ((hlen b hb).trans (hlen a ha).symm)).symm
  obtain ⟨hplac, -, hents, hplacI⟩ := h.placeEntries hnew hids hspr hkeep
  have hsame := placeEntries_paths settings inRepo newEntries state
  refine hplac.populateDir (fun entry hent => ?_) (hsame.symm ▸ hpath) hplacI fun entry hent => ?_
  · have hin := mem_map_of_mem (f := Entry.path) hent
    rw [hsame] at hin
    obtain ⟨other, hoth, heq⟩ := mem_map.mp hin
    obtain ⟨name, hname⟩ := hchn _ hoth
    exact ⟨name, heq.symm.trans hname⟩
  · obtain ⟨hfits, hid, -⟩ := hents _ hent
    exact ⟨hfits, fun hunusI => hid.elim hunusI.2 fun hnot => hnot hunusI.1⟩

/-! ### Refreshed paths -/

theorem IdsApart.removeRefreshed : ∀ {state : BackgroundScannerState R},
    state.IdsApart unused → (state.removeRefreshed recursive paths).IdsApart unused := by
  induction paths with
  | nil => exact fun h => h
  | cons first paths ih =>
    intro state h
    obtain ⟨path, answer⟩ := first
    have hrem := (h.removePath path).1
    cases answer with
    | gone => exact ih hrem
    | error =>
      cases recursive with
      | true => exact ih hrem
      | false => exact ih h
    | found =>
      cases recursive with
      | true => exact ih hrem
      | false => exact ih h

variable {listed : Nat → Prop} {nextEntryId : Nat}

/-- The id for a path is of no entry at another path, and is not kept for a removed one. -/
theorem IdsApart.entryIdFor (h : state.IdsApart fun id => nextEntryId ≤ id ∨ listed id) (hlist : ∀ id, listed id → id < nextEntryId)
    (path : RelPath) (metadata : Metadata R) :
    ∃ id nextEntryId' removedEntries, state.entryIdFor nextEntryId path metadata = (id, nextEntryId', { state with removedEntries }) ∧
      nextEntryId ≤ nextEntryId' ∧ IdsApart { state with removedEntries } (fun id => nextEntryId ≤ id ∨ listed id) ∧
      (∀ other ∈ state.snapshot.entriesByPath, other.id = id → other.path = path) ∧
      (∀ removed, removedEntries.Holds removed → id ≠ removed.id) ∧ ¬ (nextEntryId' ≤ id ∨ listed id) := by
  have hfre : ∀ {removedEntries : RemovedEntries R}, (∀ removed, removedEntries.Holds removed → state.removedEntries.Holds removed) →
      (∀ other ∈ state.snapshot.entriesByPath, other.id = nextEntryId → other.path = path) ∧
      (∀ removed, removedEntries.Holds removed → nextEntryId ≠ removed.id) ∧ ¬ (nextEntryId + 1 ≤ nextEntryId ∨ listed nextEntryId) := by
    intro removedEntries hsub
    refine ⟨fun other hoth heq => absurd (.inl heq.ge) (h.unusedLive _ hoth), fun removed hrem heq => ?_, ?_⟩
    · exact h.unusedHeld _ (hsub _ hrem) (.inl heq.le)
    · rintro (hle | hin)
      · exact absurd hle (Nat.not_succ_le_self _)
      · exact absurd (hlist _ hin) (lt_irrefl _)
  unfold BackgroundScannerState.entryIdFor
  rcases reusedEntryId_cases h.linked path _ _ with
    ⟨removed, removedEntries, reused, htook, -, hreus, heq⟩ | ⟨-, heq⟩
  · have hsub : ∀ other, removedEntries.Holds other → state.removedEntries.Holds other :=
      fun other hoth => ((htook.holds _).mp hoth).1
    rw [heq]
    rcases hreus with rfl | rfl
    · exact ⟨_, _, removedEntries, rfl, le_refl _, h.withRemoved htook.linked hsub,
        fun other hoth hid => absurd hid (h.spare _ htook.held _ hoth),
        fun other hoth => (((htook.holds _).mp hoth).2).symm, h.unusedHeld _ htook.held⟩
    · exact ⟨_, _, removedEntries, rfl, Nat.le_succ _, h.withRemoved htook.linked hsub, hfre hsub⟩
  · rw [heq]
    cases hold : state.snapshot.entryForPath path with
    | none => exact ⟨_, _, state.removedEntries, rfl, Nat.le_succ _, h, hfre fun _ h => h⟩
    | some old =>
      obtain ⟨hmem, hpath⟩ := of_find? hold
      exact ⟨_, _, state.removedEntries, rfl, le_refl _, h, fun other hoth hid => (h.paired.eq_of_id hoth hmem hid) ▸ hpath,
        fun removed hrem => h.spare _ hrem old hmem, h.unusedLive old hmem⟩

theorem IdsApart.insertRefreshed (h : state.IdsApart fun id => nextEntryId ≤ id ∨ listed id)
    (hlist : ∀ id, listed id → id < nextEntryId) {answer : Answer R}
    (hpar : ∀ metadata inRepo, answer = .found metadata inRepo → path = [] ∨
      ∃ parent ∈ state.snapshot.entriesByPath, parent.path = path.dropLast) :
    (state.insertRefreshed settings recursive nextEntryId path answer).1.IdsApart
        (fun id => (state.insertRefreshed settings recursive nextEntryId path answer).2 ≤ id ∨ listed id) ∧
      nextEntryId ≤ (state.insertRefreshed settings recursive nextEntryId path answer).2 := by
  cases answer with
  | error => exact ⟨h.unwatch path, le_refl _⟩
  | gone => exact ⟨h.unwatch path, le_refl _⟩
  | found metadata inRepo =>
    obtain ⟨id, nextEntryId', removedEntries, heq, hle, hapa, hlive, hheld, hused⟩ := h.entryIdFor hlist path _
    unfold BackgroundScannerState.insertRefreshed
    dsimp only
    rw [heq]
    obtain ⟨hpath, hid⟩ := refreshEntry_path _ _ _ _ _
    refine ⟨hapa.insertLocalEntry (fun other hoth hsame => ?_) (fun removed hrem => ?_) ?_ fun other hoth => ?_, hle⟩
    · exact (hlive _ hoth (hsame.trans hid)).trans hpath.symm
    · exact hid ▸ hheld _ hrem
    · rw [hpath]
      exact hpar _ _ rfl
    · refine ⟨hoth.imp_left hle.trans, fun hsame => hused ?_⟩
      rw [hsame, hid] at hoth
      exact hoth

theorem IdsApart.insertAllRefreshed :
    ∀ {state : BackgroundScannerState R} {nextEntryId : Nat}, state.IdsApart (fun id => nextEntryId ≤ id ∨ listed id) →
    (∀ id, listed id → id < nextEntryId) → state.KeepsRooted settings recursive nextEntryId paths →
    (state.insertAllRefreshed settings recursive nextEntryId paths).1.IdsApart
        (fun id => (state.insertAllRefreshed settings recursive nextEntryId paths).2 ≤ id ∨ listed id) ∧
      nextEntryId ≤ (state.insertAllRefreshed settings recursive nextEntryId paths).2 := by
  induction paths with
  | nil => exact fun h _ _ => ⟨h, le_refl _⟩
  | cons first paths ih =>
    intro state nextEntryId h hlist hkeep
    obtain ⟨hins, hle⟩ := h.insertRefreshed hlist hkeep.1
    obtain ⟨hrest, hleR⟩ := ih hins (fun id hid => (hlist id hid).trans_le hle) hkeep.2
    exact ⟨hrest, hle.trans hleR⟩

/-! ### Ignore statuses -/

/-- Flags are written to entries that are, but for them, those of the clone. -/
theorem onlyFlags_updateIgnoreStatus (hclo : clone.Paired) (hs : KeyedList.Sorted Entry.path state.snapshot.entriesByPath)
    (hkeep : state.KeepsRefreshed clone path ignored) : OnlyFlags state.snapshot (state.updateIgnoreStatus clone path ignored).snapshot := by
  obtain ⟨hsort, hmem⟩ := updateIgnoreStatus_spec hclo.byPath hs path _
  intro other
  by_cases hin : ∃ entry ∈ reflagged clone path ignored, entry.path = other
  · obtain ⟨entry, hent, rfl⟩ := hin
    obtain ⟨found, hfnd, hsame⟩ := hkeep _ hent
    have hpath : found.path = entry.path := (Entry.of_unflagged_eq hsame).2
    have hnew : (state.updateIgnoreStatus clone path ignored).snapshot.entryForPath entry.path = some entry :=
      (find?_eq_some hsort).mpr ⟨(hmem _).mpr (.inl hent), rfl⟩
    have hold : state.snapshot.entryForPath entry.path = some found := (find?_eq_some hs).mpr ⟨hfnd, hpath⟩
    rw [hnew, hold, Option.map_some, Option.map_some, hsame]
  · refine congrArg _ (find_congr hs hsort fun entry hpath => ?_)
    rw [hmem]
    constructor
    · rintro (hnew | hold)
      · exact absurd ⟨entry, hnew, hpath⟩ hin
      · exact hold.1
    · refine fun hold => .inr ⟨hold, fun hnew => hin ?_⟩
      obtain ⟨changed, hchd, heq⟩ := mem_map.mp hnew
      exact ⟨changed, hchd, heq.trans hpath⟩

/-- Where only flags differ, the same ids are at the same paths. -/
theorem onlyFlags_pairs {before after : Snapshot (LocalDetails R)} (h : OnlyFlags before after)
    (hs : KeyedList.Sorted Entry.path before.entriesByPath) (hs' : KeyedList.Sorted Entry.path after.entriesByPath) (id : Nat) (path : RelPath) :
    (∃ entry ∈ after.entriesByPath, entry.id = id ∧ entry.path = path) ↔
      ∃ entry ∈ before.entriesByPath, entry.id = id ∧ entry.path = path := by
  -- an entry at the path is found, and so is one with its id in the other snapshot
  have hone : ∀ {one other : Snapshot (LocalDetails R)}, KeyedList.Sorted Entry.path one.entriesByPath →
      ((one.entryForPath path).map Entry.unflagged = (other.entryForPath path).map Entry.unflagged) →
      (∃ entry ∈ one.entriesByPath, entry.id = id ∧ entry.path = path) → ∃ entry ∈ other.entriesByPath, entry.id = id ∧ entry.path = path := by
    rintro one other hsort heq ⟨entry, hent, rfl, rfl⟩
    have hfind : one.entryForPath entry.path = some entry := (find?_eq_some hsort).mpr ⟨hent, rfl⟩
    rw [hfind] at heq
    obtain ⟨found, hfnd, hsame⟩ := Option.map_eq_some_iff.mp heq.symm
    obtain ⟨hmem, hpath⟩ := of_find? hfnd
    exact ⟨found, hmem, (Entry.of_unflagged_eq hsame).1, hpath⟩
  exact ⟨hone hs' (h path), hone hs (h path).symm⟩

theorem IdsApart.updateIgnoreStatus (h : state.IdsApart unused) (hclo : clone.Paired)
    (hkeep : state.KeepsRefreshed clone path ignored) :
    (state.updateIgnoreStatus clone path ignored).IdsApart unused := by
  obtain ⟨hsort, -⟩ := updateIgnoreStatus_spec hclo.byPath h.paired.byPath path _
  have hpair := onlyFlags_pairs (onlyFlags_updateIgnoreStatus hclo h.paired.byPath hkeep) h.paired.byPath hsort
  have hsame : ∀ {entry : LocalEntry R}, entry ∈ (state.updateIgnoreStatus clone path ignored).snapshot.entriesByPath →
      ∃ other ∈ state.snapshot.entriesByPath, other.id = entry.id ∧ other.path = entry.path :=
    fun hent => (hpair _ _).mp ⟨_, hent, rfl, rfl⟩
  -- the pair that is written for an entry is that of the entry
  have hedit : ∀ {entry : LocalEntry R}, entry ∈ reflagged clone path ignored →
      ∃ found, KeyedList.find? PathEntry.id entry.id clone.entriesById = some found ∧ found.path = entry.path := by
    intro entry hent
    obtain ⟨child, hchd, -, rfl⟩ := mem_reflagged.mp hent
    obtain ⟨found, hfnd, hid, hpath⟩ := hclo.to_id ((clone.childEntries_sublist path).subset hchd)
    exact ⟨found, (find?_eq_some hclo.byId).mpr ⟨hfnd, hid⟩, hpath⟩
  have hids : ((reflagged clone path ignored).map Entry.id).Nodup := by
    unfold reflagged
    rw [map_map]
    exact (hclo.consistent.idsOnce.sublist ((clone.childEntries_sublist path).map _)).sublist (filter_sublist.map _)
  have hdistinct : ((flagEdits clone (reflagged clone path ignored)).flatMap inserted).Pairwise fun a b => a.id ≠ b.id := by
    unfold flagEdits
    rw [flatMap_assoc, pairwise_flatMap]
    refine ⟨fun entry _ => ?_, (pairwise_map.mp hids).imp_of_mem fun {a b} ha hb hne x hx y hy => ?_⟩
    · cases KeyedList.find? _ entry.id _ with
      | none => exact List.Pairwise.nil
      | some found => exact pairwise_singleton _ _
    · obtain ⟨found, hfnd, -⟩ := hedit ha
      obtain ⟨found', hfnd', -⟩ := hedit hb
      rw [hfnd] at hx
      rw [hfnd'] at hy
      rw [mem_singleton.mp hx, mem_singleton.mp hy]
      rw [(of_find? hfnd).2, (of_find? hfnd').2]
      exact hne
  obtain ⟨hsortBI, hmemBI⟩ := editBatch_spec h.paired.byId hdistinct
  have hwrit : ∀ {edit : KeyedList.Edit PathEntry Nat}, edit ∈ flagEdits clone (reflagged clone path ignored) →
      ∃ written, edit = .insert written ∧ ∃ live ∈ state.snapshot.entriesByPath, live.id = written.id ∧ live.path = written.path := by
    intro edit hin
    obtain ⟨entry, hent, hin⟩ := mem_flatMap.mp hin
    obtain ⟨found, hfnd, hpath⟩ := hedit hent
    obtain ⟨live, hlive, hflag⟩ := hkeep _ hent
    obtain ⟨hliveI, hliveP⟩ := Entry.of_unflagged_eq hflag
    rw [hfnd] at hin
    exact ⟨_, mem_singleton.mp hin, live, hlive, hliveI.trans (of_find? hfnd).2.symm, hliveP.trans hpath.symm⟩
  refine ⟨⟨hsort, hsortBI, fun id other => ?_⟩, ?_, h.linked, ?_, ?_, h.unusedHeld⟩
  · rw [hpair, h.paired.same]
    constructor
    · rintro ⟨found, hfnd, rfl, rfl⟩
      by_cases hin : found.id ∈ (flagEdits clone (reflagged clone path ignored)).map (editKey PathEntry.id)
      · obtain ⟨edit, hedit, hkey⟩ := mem_map.mp hin
        obtain ⟨written, rfl, live, hlive, hliveI, hliveP⟩ := hwrit hedit
        obtain ⟨entry, hent, hid, hpath⟩ := h.paired.to_path hfnd
        obtain rfl := h.paired.eq_of_id hlive hent (hliveI.trans (hkey.trans hid.symm))
        exact ⟨written, (hmemBI _).mpr (.inl hedit), hkey, hliveP.symm.trans hpath⟩
      · exact ⟨found, (hmemBI _).mpr (.inr ⟨hfnd, hin⟩), rfl, rfl⟩
    · rintro ⟨found, hfnd, rfl, rfl⟩
      rcases (hmemBI _).mp hfnd with hnew | hold
      · obtain ⟨written, heq, live, hlive, hliveI, hliveP⟩ := hwrit hnew
        obtain rfl := KeyedList.Edit.insert.inj heq
        exact (h.paired.same _ _).mp ⟨live, hlive, hliveI, hliveP⟩
      · exact ⟨found, hold.1, rfl, rfl⟩
  · intro entry hent hne
    obtain ⟨other, hoth, -, hpath⟩ := hsame hent
    obtain ⟨parent, hpar, hparP⟩ := h.rooted _ hoth (hpath ▸ hne)
    obtain ⟨still, hsti, -, hstiP⟩ := (hpair _ _).mpr ⟨parent, hpar, rfl, rfl⟩
    exact ⟨still, hsti, hstiP.trans (hparP.trans (congrArg _ hpath))⟩
  · intro removed hrem entry hent
    obtain ⟨other, hoth, hid, -⟩ := hsame hent
    exact hid ▸ h.spare _ hrem _ hoth
  · intro entry hent
    obtain ⟨other, hoth, hid, -⟩ := hsame hent
    exact hid ▸ h.unusedLive _ hoth

end BackgroundScannerState

end Wu.Worktree
