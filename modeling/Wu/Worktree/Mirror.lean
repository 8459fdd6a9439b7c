import Wu.Worktree.Snapshot
import Wu.Runs

/-!
# The mirror follows the host

Each message brings the copy of a guest from one snapshot of the host to the next, chunk by chunk, as long as the responses that are
put in between are not outdated.
-/

namespace Wu.Worktree

open List KeyedList

variable {D : Type}

/-! ### Paths below a path -/

/-- What lies between a path and a path below it is below it too. -/
theorem prefix_of_between {path between below : RelPath} (h : path ≤ between) (h' : between ≤ below) (hbel : path <+: below) :
    path <+: between := by
  induction path generalizing between below with
  | nil => exact nil_prefix
  | cons component path ih =>
    obtain ⟨rest, rfl⟩ := hbel
    cases between with
    | nil =>
      rcases h.lt_or_eq with hlt | heq
      · exact absurd hlt (by simp)
      · nomatch heq
    | cons other between =>
      have hle : component ≤ other := by
        rcases h.lt_or_eq with hlt | heq
        · rcases cons_lt_cons_iff.mp hlt with hlt | ⟨rfl, -⟩
          · exact hlt.le
          · exact le_refl _
        · exact (List.cons.inj heq).1.le
      have hge : other ≤ component := by
        rcases h'.lt_or_eq with hlt | heq
        · rcases cons_lt_cons_iff.mp hlt with hlt | ⟨rfl, -⟩
          · exact hlt.le
          · exact le_refl _
        · exact (List.cons.inj heq).1.le
      obtain rfl := le_antisymm hle hge
      have hpath : path ≤ between := by
        refine not_lt.mp fun hlt => ?_
        exact absurd (cons_lt_cons_iff.mpr (.inr ⟨rfl, hlt⟩)) (not_lt.mpr h)
      have hbetw : between ≤ path ++ rest := by
        refine not_lt.mp fun hlt => ?_
        exact absurd (cons_lt_cons_iff.mpr (.inr ⟨rfl, hlt⟩)) (not_lt.mpr h')
      exact cons_prefix_cons.mpr ⟨rfl, ih hpath hbetw (prefix_append _ _)⟩

theorem le_of_isAbove {path below : RelPath} (h : path <+: below) : path ≤ below := by
  induction path generalizing below with
  | nil =>
    cases below with
    | nil => exact le_refl _
    | cons => exact (by simp : ([] : RelPath) < _ :: _).le
  | cons component path ih =>
    obtain ⟨rest, rfl⟩ := h
    rcases (ih (prefix_append path rest)).lt_or_eq with hlt | heq
    · exact (cons_lt_cons_iff.mpr (.inr ⟨rfl, hlt⟩)).le
    · rw [cons_append, ← heq]

/-- In a sorted list of paths that are not smaller, those below a path come first. -/
theorem mem_dropWhile_below {entries : List (Entry D)} (hs : KeyedList.Sorted Entry.path entries) {path : RelPath}
    (hge : ∀ entry ∈ entries, path ≤ entry.path) {entry : Entry D} :
    entry ∈ entries.dropWhile (fun entry => path.isPrefixOf entry.path) ↔ entry ∈ entries ∧ ¬ path <+: entry.path := by
  induction entries with
  | nil => exact ⟨nofun, fun h => nomatch h.1⟩
  | cons first entries ih =>
    obtain ⟨hfst, hs⟩ := pairwise_cons.mp hs
    have hih := ih hs fun entry hmem => hge _ (.tail _ hmem)
    rw [dropWhile_cons]
    split
    · rename_i hbel
      have hbel : path <+: first.path := isPrefixOf_iff_prefix.mp hbel
      rw [hih, mem_cons]
      refine ⟨fun h => ⟨.inr h.1, h.2⟩, ?_⟩
      rintro ⟨rfl | hmem, hnot⟩
      · exact absurd hbel hnot
      · exact ⟨hmem, hnot⟩
    · rename_i hnot
      refine ⟨fun hmem => ⟨hmem, fun hbel => hnot (List.isPrefixOf_iff_prefix.mpr ?_)⟩, fun h => h.1⟩
      rcases mem_cons.mp hmem with rfl | hmem
      · exact hbel
      · exact prefix_of_between (hge _ mem_cons_self) (hfst _ hmem).le hbel

theorem mem_takeWhile_below {entries : List (Entry D)} (hs : KeyedList.Sorted Entry.path entries) {path : RelPath}
    (hge : ∀ entry ∈ entries, path ≤ entry.path) {entry : Entry D} :
    entry ∈ entries.takeWhile (fun entry => path.isPrefixOf entry.path) ↔ entry ∈ entries ∧ path <+: entry.path := by
  constructor
  · intro hmem
    have hbel := mem_takeWhile_imp hmem
    exact ⟨(takeWhile_sublist _).subset hmem, isPrefixOf_iff_prefix.mp hbel⟩
  · rintro ⟨hmem, hbel⟩
    have hspl := takeWhile_append_dropWhile (p := fun entry : Entry D => path.isPrefixOf entry.path) (l := entries)
    rw [← hspl] at hmem
    rcases mem_append.mp hmem with hmem | hmem
    · exact hmem
    · exact absurd hbel ((mem_dropWhile_below hs hge).mp hmem).2

namespace Snapshot

/-! ### Sorted snapshots with the same pairs -/

structure Paired (snapshot : Snapshot D) : Prop where
  byPath : KeyedList.Sorted Entry.path snapshot.entriesByPath
  byId : KeyedList.Sorted PathEntry.id snapshot.entriesById
  same : ∀ id path, (∃ entry ∈ snapshot.entriesByPath, entry.id = id ∧ entry.path = path) ↔
    ∃ entry ∈ snapshot.entriesById, entry.id = id ∧ entry.path = path

variable {snapshot : Snapshot D}

section

variable (h : snapshot.Paired)
include h

/-- An entry has a pair under its id. -/
theorem Paired.to_id {entry : Entry D} (hmem : entry ∈ snapshot.entriesByPath) :
    ∃ found ∈ snapshot.entriesById, found.id = entry.id ∧ found.path = entry.path := (h.same _ _).mp ⟨entry, hmem, rfl, rfl⟩

theorem Paired.to_path {found : PathEntry} (hmem : found ∈ snapshot.entriesById) :
    ∃ entry ∈ snapshot.entriesByPath, entry.id = found.id ∧ entry.path = found.path := (h.same _ _).mpr ⟨found, hmem, rfl, rfl⟩

theorem Paired.eq_of_id {entry other : Entry D} (hmem : entry ∈ snapshot.entriesByPath)
    (hoth : other ∈ snapshot.entriesByPath) (hid : entry.id = other.id) : entry = other := by
  obtain ⟨found, hfnd, hfndI, hfndP⟩ := h.to_id hmem
  obtain ⟨found', hfnd', hfndI', hfndP'⟩ := h.to_id hoth
  obtain rfl := h.byId.eq_of_key_eq hfnd hfnd' (hfndI.trans (hid.trans hfndI'.symm))
  exact h.byPath.eq_of_key_eq hmem hoth (hfndP.symm.trans hfndP')

theorem Paired.eq_of_path {found other : PathEntry} (hmem : found ∈ snapshot.entriesById)
    (hoth : other ∈ snapshot.entriesById) (hpath : found.path = other.path) : found = other := by
  obtain ⟨entry, hent, hid, hentP⟩ := h.to_path hmem
  obtain ⟨entry', hent', hid', hentP'⟩ := h.to_path hoth
  obtain rfl := h.byPath.eq_of_key_eq hent hent' (hentP.trans (hpath.trans hentP'.symm))
  exact h.byId.eq_of_key_eq hmem hoth (hid.symm.trans hid')

theorem Paired.consistent : snapshot.Consistent where
  same := h.same
  pathsOnce := pairwise_map.mpr (h.byPath.imp fun hlt => hlt.ne)
  idsOnce := h.byPath.nodup.map_on fun _ hmem _ hoth hid => h.eq_of_id hmem hoth hid
  pathsOnceById := h.byId.nodup.map_on fun _ hmem _ hoth hpath => h.eq_of_path hmem hoth hpath
  idsOnceById := pairwise_map.mpr (h.byId.imp fun hlt => hlt.ne)

/-- The entry that is found for an id is the one with the id. -/
theorem Paired.entryForId {id : Nat} {entry : Entry D} :
    snapshot.entryForId id = some entry ↔ entry ∈ snapshot.entriesByPath ∧ entry.id = id := by
  unfold Snapshot.entryForId entryForPath
  rw [Option.bind_eq_some_iff]
  constructor
  · rintro ⟨found, hloo, hent⟩
    obtain ⟨hfnd, rfl⟩ := (find?_eq_some h.byId).mp hloo
    obtain ⟨hent, hpath⟩ := (find?_eq_some h.byPath).mp hent
    obtain ⟨other, hoth, hid, hothP⟩ := h.to_path hfnd
    obtain rfl := h.byPath.eq_of_key_eq hent hoth (hpath.trans hothP.symm)
    exact ⟨hent, hid⟩
  · rintro ⟨hent, rfl⟩
    obtain ⟨found, hfnd, hid, hpath⟩ := h.to_id hent
    exact ⟨found, (find?_eq_some h.byId).mpr ⟨hfnd, hid⟩, (find?_eq_some h.byPath).mpr ⟨hent, hpath.symm⟩⟩

end

/-! ### A chunk of a message -/

/-- What a chunk takes away: what it says has gone, and what is where something else is now. -/
def Displaced (update : UpdateWorktree D) (id : Nat) (path : RelPath) : Prop :=
  id ∈ update.removedEntries ∨ ∃ told ∈ update.updatedEntries, told.id = id ∨ told.path = path

theorem inserted_pathEdits (snapshot : Snapshot D) (update : UpdateWorktree D) :
    (snapshot.pathEdits update).flatMap inserted = update.updatedEntries := by
  unfold pathEdits
  rw [flatMap_append, flatMap_assoc, flatMap_assoc]
  have hrem : (update.removedEntries.flatMap fun entryId =>
      (((snapshot.entryForId entryId).map fun entry => KeyedList.Edit.remove entry.path).toList.flatMap
        (inserted : KeyedList.Edit (Entry D) RelPath → List (Entry D)))) = [] := by
    refine flatMap_eq_nil_iff.mpr fun entryId _ => ?_
    cases snapshot.entryForId _ <;> rfl
  rw [hrem, nil_append]
  induction update.updatedEntries with
  | nil => rfl
  | cons entry entries ih =>
    rw [flatMap_cons, ih]
    cases KeyedList.find? _ entry.id _ <;> rfl

theorem inserted_idEdits (snapshot : Snapshot D) (update : UpdateWorktree D) :
    (snapshot.idEdits update).flatMap inserted = update.updatedEntries.map Entry.pathEntry := by
  unfold idEdits
  rw [flatMap_append, flatMap_assoc]
  have hrem : (update.removedEntries.map KeyedList.Edit.remove).flatMap
      (inserted : KeyedList.Edit PathEntry Nat → List PathEntry) = [] := by
    refine flatMap_eq_nil_iff.mpr fun edit hedit => ?_
    obtain ⟨id, -, rfl⟩ := mem_map.mp hedit
    rfl
  rw [hrem, nil_append]
  induction update.updatedEntries with
  | nil => rfl
  | cons entry entries ih =>
    rw [flatMap_cons, ih]
    cases (KeyedList.find? Entry.path _ _).filter _ <;> rfl

theorem mem_of_inserted {T K : Type} {edits : List (KeyedList.Edit T K)} {item : T} :
    KeyedList.Edit.insert item ∈ edits ↔ item ∈ edits.flatMap inserted := by
  rw [mem_flatMap]
  constructor
  · exact fun h => ⟨_, h, mem_inserted.mpr rfl⟩
  · rintro ⟨edit, hedit, hitem⟩
    rwa [← mem_inserted.mp hitem]

/-- The keys of the edits by path are those of the entries that the chunk displaces. -/
theorem Paired.mem_pathKeys (h : snapshot.Paired) (update : UpdateWorktree D) {entry : Entry D} (hmem : entry ∈ snapshot.entriesByPath) :
    entry.path ∈ (snapshot.pathEdits update).map (editKey Entry.path) ↔ Displaced update entry.id entry.path := by
  have hid : ∀ {found : PathEntry}, found ∈ snapshot.entriesById → found.path = entry.path → found.id = entry.id := by
    intro found hfnd hpath
    obtain ⟨other, hoth, hothI, hothP⟩ := h.to_path hfnd
    rw [← hothI, h.byPath.eq_of_key_eq hoth hmem (hothP.trans hpath)]
  rw [mem_map]
  constructor
  · rintro ⟨edit, hedit, hkey⟩
    rcases mem_append.mp hedit with hedit | hedit
    · obtain ⟨entryId, hentI, hedit⟩ := mem_flatMap.mp hedit
      obtain ⟨found, hfnd, rfl⟩ := Option.map_eq_some_iff.mp (Option.mem_toList.mp hedit)
      obtain ⟨hfndM, hfndI⟩ := h.entryForId.mp hfnd
      have hsame := h.byPath.eq_of_key_eq hfndM hmem hkey
      rw [← hsame, hfndI]
      exact .inl hentI
    · obtain ⟨told, htold, hedit⟩ := mem_flatMap.mp hedit
      refine .inr ⟨told, htold, ?_⟩
      rcases mem_append.mp hedit with hedit | hedit
      · obtain ⟨found, hfnd, rfl⟩ := Option.map_eq_some_iff.mp (Option.mem_toList.mp hedit)
        obtain ⟨hfndM, hfndI⟩ := (find?_eq_some h.byId).mp hfnd
        exact .inl (hfndI.symm.trans (hid hfndM hkey))
      · obtain rfl := mem_singleton.mp hedit
        exact .inr hkey
  · rintro (hrem | ⟨told, htold, hsame | hsame⟩)
    · refine ⟨.remove _, mem_append_left _ ?_, rfl⟩
      refine mem_flatMap.mpr ⟨entry.id, hrem, Option.mem_toList.mpr ?_⟩
      exact Option.map_eq_some_iff.mpr ⟨entry, h.entryForId.mpr ⟨hmem, rfl⟩, rfl⟩
    · obtain ⟨found, hfnd, hfndI, hfndP⟩ := h.to_id hmem
      refine ⟨.remove _, mem_append_right _ ?_, rfl⟩
      refine mem_flatMap.mpr ⟨told, htold, mem_append_left _ (Option.mem_toList.mpr ?_)⟩
      refine Option.map_eq_some_iff.mpr ⟨found, (find?_eq_some h.byId).mpr ⟨hfnd, ?_⟩, ?_⟩
      · rw [hfndI, hsame]
      · rw [hfndP]
    · refine ⟨.insert told, mem_append_right _ ?_, hsame⟩
      exact mem_flatMap.mpr ⟨told, htold, mem_append_right _ (.head _)⟩

/-- The keys of the edits by id are those of the pairs that the chunk displaces. -/
theorem Paired.mem_idKeys (h : snapshot.Paired) (update : UpdateWorktree D) {found : PathEntry} (hmem : found ∈ snapshot.entriesById) :
    found.id ∈ (snapshot.idEdits update).map (editKey PathEntry.id) ↔ Displaced update found.id found.path := by
  obtain ⟨entry, hent, hentI, hentP⟩ := h.to_path hmem
  rw [mem_map]
  constructor
  · rintro ⟨edit, hedit, hkey⟩
    rcases mem_append.mp hedit with hedit | hedit
    · obtain ⟨entryId, hentI, rfl⟩ := mem_map.mp hedit
      rw [← hkey]
      exact .inl hentI
    · obtain ⟨told, htold, hedit⟩ := mem_flatMap.mp hedit
      refine .inr ⟨told, htold, ?_⟩
      rcases mem_append.mp hedit with hedit | hedit
      · obtain ⟨old, hold, rfl⟩ := Option.map_eq_some_iff.mp (Option.mem_toList.mp hedit)
        obtain ⟨hold, -⟩ := Option.filter_eq_some_iff.mp hold
        obtain ⟨holdMem, holdPath⟩ := (find?_eq_some h.byPath).mp hold
        have hsame := h.eq_of_id holdMem hent (hkey.trans hentI.symm)
        rw [hsame, hentP] at holdPath
        exact .inr holdPath.symm
      · obtain rfl := mem_singleton.mp hedit
        exact .inl hkey
  · rintro (hrem | ⟨told, htold, hsame⟩)
    · exact ⟨.remove _, mem_append_left _ (mem_map_of_mem hrem), rfl⟩
    · by_cases hid : told.id = found.id
      · refine ⟨.insert told.pathEntry, mem_append_right _ ?_, hid⟩
        exact mem_flatMap.mpr ⟨told, htold, mem_append_right _ (.head _)⟩
      · have hpath := hsame.resolve_left hid
        refine ⟨.remove _, mem_append_right _ ?_, hentI⟩
        refine mem_flatMap.mpr ⟨told, htold, mem_append_left _ (Option.mem_toList.mpr ?_)⟩
        refine Option.map_eq_some_iff.mpr ⟨entry, Option.filter_eq_some_iff.mpr ⟨?_, ?_⟩, rfl⟩
        · exact (find?_eq_some h.byPath).mpr ⟨hent, hentP.trans hpath.symm⟩
        · exact decide_eq_true fun heq => hid (heq.symm.trans hentI)

/-- A chunk takes away what it displaces and adds what it tells. -/
theorem Paired.applyRemoteUpdate (h : snapshot.Paired) {update : UpdateWorktree D}
    (hpat : (update.updatedEntries.map Entry.path).Nodup) (hids : (update.updatedEntries.map Entry.id).Nodup) :
    (snapshot.applyRemoteUpdate update).Paired ∧ ∀ entry, entry ∈ (snapshot.applyRemoteUpdate update).entriesByPath ↔
      entry ∈ update.updatedEntries ∨ entry ∈ snapshot.entriesByPath ∧ ¬ Displaced update entry.id entry.path := by
  have hdistP : ((snapshot.pathEdits update).flatMap inserted).Pairwise fun a b => a.path ≠ b.path := by
    rw [inserted_pathEdits]
    exact pairwise_map.mp hpat
  have hdistI : ((snapshot.idEdits update).flatMap inserted).Pairwise fun a b => a.id ≠ b.id := by
    rw [inserted_idEdits]
    exact pairwise_map.mpr (pairwise_map.mp hids)
  obtain ⟨hbyP, hmemP⟩ := editBatch_spec h.byPath hdistP
  obtain ⟨hbyId, hmemI⟩ := editBatch_spec h.byId hdistI
  have hents : ∀ entry, entry ∈ (snapshot.applyRemoteUpdate update).entriesByPath ↔
      entry ∈ update.updatedEntries ∨ entry ∈ snapshot.entriesByPath ∧ ¬ Displaced update entry.id entry.path := by
    intro entry
    unfold Snapshot.applyRemoteUpdate
    rw [hmemP, mem_of_inserted, inserted_pathEdits]
    refine or_congr_right (and_congr_right fun hmem => not_congr ?_)
    exact h.mem_pathKeys _ hmem
  have hpair : ∀ found, found ∈ (snapshot.applyRemoteUpdate update).entriesById ↔
      found ∈ update.updatedEntries.map Entry.pathEntry ∨ found ∈ snapshot.entriesById ∧ ¬ Displaced update found.id found.path := by
    intro found
    unfold Snapshot.applyRemoteUpdate
    rw [hmemI, mem_of_inserted, inserted_idEdits]
    refine or_congr_right (and_congr_right fun hmem => not_congr ?_)
    exact h.mem_idKeys _ hmem
  refine ⟨⟨hbyP, hbyId, fun id path => ⟨?_, ?_⟩⟩, hents⟩
  · rintro ⟨entry, hmem, rfl, rfl⟩
    rcases (hents _).mp hmem with htold | ⟨hold, hkept⟩
    · exact ⟨entry.pathEntry, (hpair _).mpr (.inl (mem_map_of_mem htold)), rfl, rfl⟩
    · obtain ⟨found, hfnd, hid, hpath⟩ := h.to_id hold
      refine ⟨found, (hpair _).mpr (.inr ⟨hfnd, ?_⟩), hid, hpath⟩
      rwa [hid, hpath]
  · rintro ⟨found, hmem, rfl, rfl⟩
    rcases (hpair _).mp hmem with htold | ⟨hold, hkept⟩
    · obtain ⟨entry, hent, rfl⟩ := mem_map.mp htold
      exact ⟨entry, (hents _).mpr (.inl hent), rfl, rfl⟩
    · obtain ⟨entry, hent, hid, hpath⟩ := h.to_path hold
      refine ⟨entry, (hents _).mpr (.inr ⟨hent, ?_⟩), hid, hpath⟩
      rwa [hid, hpath]

/-! ### Responses -/

/-- An entry is put in whose path no other id has. -/
theorem Paired.insertEntry (h : snapshot.Paired) {entry : Entry D}
    (hfree : ∀ other ∈ snapshot.entriesByPath, other.path = entry.path → other.id = entry.id) :
    (snapshot.insertEntry entry).Paired ∧ ∀ other, other ∈ (snapshot.insertEntry entry).entriesByPath ↔
      other = entry ∨ other ∈ snapshot.entriesByPath ∧ other.id ≠ entry.id := by
  have hpair := insertOrReplace_spec h.byId entry.pathEntry
  have hrem : ∃ removed, KeyedList.Sorted Entry.path removed ∧
      (snapshot.insertEntry entry).entriesByPath = insertOrReplace Entry.path entry removed ∧
      ∀ other, other ∈ removed ↔ other ∈ snapshot.entriesByPath ∧ other.id ≠ entry.id := by
    unfold Snapshot.insertEntry
    cases hfind : KeyedList.find? _ entry.id _ with
    | none =>
      refine ⟨snapshot.entriesByPath, h.byPath, rfl, fun other => ⟨fun hoth => ⟨hoth, fun hid => ?_⟩, fun hoth => hoth.1⟩⟩
      obtain ⟨found, hfnd, hfndI, -⟩ := h.to_id hoth
      have hsome := (find?_eq_some h.byId).mpr ⟨hfnd, hfndI.trans hid⟩
      rw [hfind] at hsome
      nomatch hsome
    | some old =>
      obtain ⟨hold, holdId⟩ := (find?_eq_some h.byId).mp hfind
      obtain ⟨holder, hhold, hholdI, hholdP⟩ := h.to_path hold
      obtain ⟨hsort, hmem⟩ := remove_spec h.byPath _
      refine ⟨_, hsort, rfl, fun other => ?_⟩
      rw [hmem]
      refine and_congr_right fun hoth => not_congr ⟨fun hpath => ?_, fun hid => ?_⟩
      · rw [h.byPath.eq_of_key_eq hoth hhold (hpath.trans hholdP.symm), hholdI]
        exact holdId
      · rw [h.eq_of_id hoth hhold (hid.trans (holdId.symm.trans hholdI.symm))]
        exact hholdP
  obtain ⟨removed, hsort, heq, hmemR⟩ := hrem
  obtain ⟨hbyP, hmem⟩ := insertOrReplace_spec hsort _
  have hents : ∀ other, other ∈ (snapshot.insertEntry entry).entriesByPath ↔
      other = entry ∨ other ∈ snapshot.entriesByPath ∧ other.id ≠ entry.id := by
    intro other
    rw [heq, hmem, hmemR]
    refine or_congr_right ⟨fun hoth => hoth.1, fun hoth => ⟨hoth, fun hpath => ?_⟩⟩
    exact hoth.2 (hfree _ hoth.1 hpath)
  refine ⟨⟨heq ▸ hbyP, hpair.1, fun id path => ⟨?_, ?_⟩⟩, hents⟩
  · rintro ⟨other, hoth, rfl, rfl⟩
    rcases (hents _).mp hoth with rfl | ⟨hold, hne⟩
    · exact ⟨other.pathEntry, (hpair.2 _).mpr (.inl rfl), rfl, rfl⟩
    · obtain ⟨found, hfnd, hid, hpath⟩ := h.to_id hold
      refine ⟨found, (hpair.2 _).mpr (.inr ⟨hfnd, ?_⟩), hid, hpath⟩
      rw [hid]
      exact hne
  · rintro ⟨found, hfnd, rfl, rfl⟩
    rcases (hpair.2 _).mp hfnd with rfl | ⟨hold, hne⟩
    · exact ⟨entry, (hents _).mpr (.inl rfl), rfl, rfl⟩
    · obtain ⟨other, hoth, hid, hpath⟩ := h.to_path hold
      refine ⟨other, (hents _).mpr (.inr ⟨hoth, ?_⟩), hid, hpath⟩
      rw [hid]
      exact hne

theorem foldl_remove_spec {below : List (Entry D)} {entriesById : List PathEntry} (hs : KeyedList.Sorted PathEntry.id entriesById) :
    KeyedList.Sorted PathEntry.id (below.foldl (fun entriesById entry => remove PathEntry.id entry.id entriesById) entriesById) ∧
      ∀ found, found ∈ below.foldl (fun entriesById entry => remove PathEntry.id entry.id entriesById) entriesById ↔
        found ∈ entriesById ∧ ∀ entry ∈ below, found.id ≠ entry.id := by
  induction below generalizing entriesById with
  | nil => exact ⟨hs, fun found => ⟨fun hmem => ⟨hmem, nofun⟩, fun hmem => hmem.1⟩⟩
  | cons entry below ih =>
    obtain ⟨hsort, hmem⟩ := remove_spec hs _
    obtain ⟨hrest, hmemR⟩ := ih hsort
    refine ⟨hrest, fun found => ?_⟩
    rw [foldl_cons, hmemR, hmem, forall_mem_cons, and_assoc]

/-- The entry of an id leaves with what is below it, or there is none. -/
theorem Paired.deleteEntry (h : snapshot.Paired) (entryId : Nat) :
    (snapshot.deleteEntry entryId).Paired ∧ ∀ entry, entry ∈ (snapshot.deleteEntry entryId).entriesByPath ↔
      entry ∈ snapshot.entriesByPath ∧ ¬ ∃ found ∈ snapshot.entriesById, found.id = entryId ∧ found.path <+: entry.path := by
  unfold Snapshot.deleteEntry
  cases hfind : KeyedList.find? _ entryId _ with
  | none =>
    refine ⟨h, fun entry => ⟨fun hmem => ⟨hmem, ?_⟩, fun hmem => hmem.1⟩⟩
    rintro ⟨found, hfnd, hid, -⟩
    have hsome := (find?_eq_some h.byId).mpr ⟨hfnd, hid⟩
    rw [hfind] at hsome
    nomatch hsome
  | some removed =>
    obtain ⟨hrem, hremI⟩ := (find?_eq_some h.byId).mp hfind
    obtain ⟨small, rest, htake, hdrop, hitems, hsma, hrest, -, hsortR⟩ :=
      h.byPath.split _ fun entry : Entry D => (decide_eq_true_iff : decide (entry.path < removed.path) = true ↔ _)
    dsimp only
    rw [htake, hdrop]
    have hbel : ∀ {entry : Entry D}, entry ∈ rest.takeWhile (fun entry => removed.path.isPrefixOf entry.path) ↔
        entry ∈ rest ∧ removed.path <+: entry.path := mem_takeWhile_below hsortR hrest
    have hsuf : ∀ {entry : Entry D}, entry ∈ rest.dropWhile (fun entry => removed.path.isPrefixOf entry.path) ↔
        entry ∈ rest ∧ ¬ removed.path <+: entry.path := mem_dropWhile_below hsortR hrest
    have hsmaN : ∀ entry ∈ small, ¬ removed.path <+: entry.path :=
      fun entry hmem habo => absurd (hsma _ hmem) (not_lt.mpr (le_of_isAbove habo))
    have hents : ∀ entry, entry ∈ small ++ rest.dropWhile (fun entry => removed.path.isPrefixOf entry.path) ↔
        entry ∈ snapshot.entriesByPath ∧ ¬ removed.path <+: entry.path := by
      intro entry
      rw [mem_append, hsuf, hitems, mem_append]
      constructor
      · rintro (hmem | ⟨hmem, hnot⟩)
        · exact ⟨.inl hmem, hsmaN _ hmem⟩
        · exact ⟨.inr hmem, hnot⟩
      · rintro ⟨hmem | hmem, hnot⟩
        · exact .inl hmem
        · exact .inr ⟨hmem, hnot⟩
    obtain ⟨hsortF, hmemF⟩ := remove_spec h.byId _
    obtain ⟨hsortI, hmemI⟩ :=
      @foldl_remove_spec D _ _ hsortF
    have hpair : ∀ found, found ∈ (rest.takeWhile fun entry => removed.path.isPrefixOf entry.path).foldl
        (fun entriesById entry => remove PathEntry.id entry.id entriesById)
        (remove PathEntry.id entryId snapshot.entriesById) ↔
        found ∈ snapshot.entriesById ∧ ¬ removed.path <+: found.path := by
      intro found
      rw [hmemI, hmemF, and_assoc]
      refine and_congr_right fun hfnd => ?_
      obtain ⟨entry, hent, hid, hpath⟩ := h.to_path hfnd
      constructor
      · rintro ⟨-, hnone⟩ habo
        have habo : removed.path <+: entry.path := hpath ▸ habo
        refine hnone _ (hbel.mpr ⟨?_, habo⟩) hid.symm
        rw [hitems] at hent
        exact (mem_append.mp hent).resolve_left fun hmem => hsmaN _ hmem habo
      · intro hnot
        refine ⟨fun heq => hnot ?_, fun other hoth heq => hnot ?_⟩
        · have hsame : found = removed := h.byId.eq_of_key_eq hfnd hrem (heq.trans hremI.symm)
          exact hsame ▸ prefix_refl _
        · obtain ⟨hothM, habo⟩ := hbel.mp hoth
          have hothM : other ∈ snapshot.entriesByPath := by
            rw [hitems]
            exact mem_append_right _ hothM
          rw [← hpath, h.eq_of_id hent hothM (hid.trans heq)]
          exact habo
    refine ⟨⟨?_, hsortI, fun id path => ⟨?_, ?_⟩⟩, fun entry => ?_⟩
    · refine h.byPath.sublist ?_
      rw [hitems]
      exact List.Sublist.append_left (dropWhile_sublist _) _
    · rintro ⟨entry, hmem, rfl, rfl⟩
      obtain ⟨hold, hnot⟩ := (hents _).mp hmem
      obtain ⟨found, hfnd, hid, hpath⟩ := h.to_id hold
      exact ⟨found, (hpair _).mpr ⟨hfnd, hpath ▸ hnot⟩, hid, hpath⟩
    · rintro ⟨found, hmem, rfl, rfl⟩
      obtain ⟨hold, hnot⟩ := (hpair _).mp hmem
      obtain ⟨entry, hent, hid, hpath⟩ := h.to_path hold
      exact ⟨entry, (hents _).mpr ⟨hent, hpath.symm ▸ hnot⟩, hid, hpath⟩
    · rw [hents]
      refine and_congr_right fun _ => not_congr ⟨fun habo => ⟨removed, hrem, hremI, habo⟩, ?_⟩
      rintro ⟨found, hfnd, hid, habo⟩
      rwa [h.byId.eq_of_key_eq hfnd hrem (hid.trans hremI.symm)] at habo

end Snapshot

end Wu.Worktree
