import Wu.Worktree.Mirror

/-!
# Runs of a host and its guest

What the chunks of a message tell brings the guest from one snapshot of the host to the next. Responses that are not outdated leave this
as it is, and so the guest ends where the host is.
-/

namespace Wu.Worktree

open List KeyedList

variable {D : Type}

/-! ### Messages and their chunks -/

theorem splitLoop_spec {fuel : Nat} {message : UpdateWorktree D}
    (hfuel : message.updatedEntries.length + message.removedEntries.length < fuel) :
    (splitLoop fuel message).flatMap UpdateWorktree.updatedEntries = message.updatedEntries ∧
      (splitLoop fuel message).flatMap UpdateWorktree.removedEntries = message.removedEntries ∧ splitLoop fuel message ≠ [] := by
  induction fuel generalizing message with
  | zero => nomatch hfuel
  | succ fuel ih =>
    unfold splitLoop
    rw [flatMap_cons, flatMap_cons]
    split
    · rename_i hdone
      obtain ⟨hupd, hrem⟩ := Bool.and_eq_true_iff.mp hdone
      have hupd := drop_eq_nil_iff.mp (List.isEmpty_iff.mp hupd)
      have hrem := drop_eq_nil_iff.mp (List.isEmpty_iff.mp hrem)
      rw [take_of_length_le hupd, take_of_length_le hrem, flatMap_nil, flatMap_nil, append_nil, append_nil]
      exact ⟨rfl, rfl, cons_ne_nil _ _⟩
    · rename_i hmore
      have hshr : maxWorktreeUpdateMaxChunkSize < message.updatedEntries.length ∨
          maxWorktreeUpdateMaxChunkSize < message.removedEntries.length := by
        by_contra hnone
        obtain ⟨hupd, hrem⟩ := not_or.mp hnone
        refine hmore (Bool.and_eq_true_iff.mpr ⟨List.isEmpty_iff.mpr ?_, List.isEmpty_iff.mpr ?_⟩)
        · exact drop_eq_nil_of_le (not_lt.mp hupd)
        · exact drop_eq_nil_of_le (not_lt.mp hrem)
      have hless : (message.updatedEntries.drop maxWorktreeUpdateMaxChunkSize).length +
          (message.removedEntries.drop maxWorktreeUpdateMaxChunkSize).length < fuel := by
        rw [length_drop, length_drop]
        have hpos : 0 < maxWorktreeUpdateMaxChunkSize := Nat.zero_lt_succ 255
        omega
      obtain ⟨hupd, hrem, -⟩ := @ih { message with
        updatedEntries := message.updatedEntries.drop _
        removedEntries := message.removedEntries.drop _ } hless
      rw [hupd, hrem, take_append_drop, take_append_drop]
      exact ⟨rfl, rfl, cons_ne_nil _ _⟩

theorem split_spec (message : UpdateWorktree D) :
    (splitWorktreeUpdate message).flatMap UpdateWorktree.updatedEntries = message.updatedEntries ∧
      (splitWorktreeUpdate message).flatMap UpdateWorktree.removedEntries = message.removedEntries ∧
      splitWorktreeUpdate message ≠ [] := splitLoop_spec (Nat.lt_succ_self _)

namespace HostSnapshot

variable {snapshot : HostSnapshot D}

theorem eq_of_id (snapshot : HostSnapshot D) {entry other : Entry D} (hmem : entry ∈ snapshot.entries)
    (hoth : other ∈ snapshot.entries) (hid : entry.id = other.id) : entry = other :=
  inj_on_of_nodup_map snapshot.distinct hmem hoth hid

theorem eq_of_path (snapshot : HostSnapshot D) {entry other : Entry D} (hmem : entry ∈ snapshot.entries)
    (hoth : other ∈ snapshot.entries) (hpath : entry.path = other.path) : entry = other :=
  snapshot.sorted.eq_of_key_eq hmem hoth hpath

theorem entryForId_eq_some {id : Nat} {entry : Entry D} :
    snapshot.entryForId id = some entry ↔ entry ∈ snapshot.entries ∧ entry.id = id := by
  unfold entryForId
  constructor
  · intro hsome
    have hid := List.find?_some hsome
    exact ⟨List.mem_of_find?_eq_some hsome, of_decide_eq_true hid⟩
  · rintro ⟨hmem, rfl⟩
    cases hfind : snapshot.entries.find? _ with
    | none => exact absurd (decide_eq_true rfl) (List.find?_eq_none.mp hfind _ hmem)
    | some other =>
      have hid := List.find?_some hfind
      rw [snapshot.eq_of_id (List.mem_of_find?_eq_some hfind) hmem (of_decide_eq_true hid)]

end HostSnapshot

/-- The chunks of a message that leads from one snapshot to another. -/
structure Cut (old new : HostSnapshot D) (chunks : List (UpdateWorktree D)) : Prop where
  nonempty : chunks ≠ []
  sent : ∀ entry ∈ chunks.flatMap UpdateWorktree.updatedEntries, entry ∈ new.entries
  once : (chunks.flatMap UpdateWorktree.updatedEntries).Nodup
  gone : ∀ id ∈ chunks.flatMap UpdateWorktree.removedEntries, ∀ entry ∈ new.entries, entry.id ≠ id
  listed : ∀ entry ∈ new.entries, entry ∈ old.entries ∨ entry ∈ chunks.flatMap UpdateWorktree.updatedEntries
  dropped : ∀ entry ∈ old.entries, entry ∈ new.entries ∨ entry.id ∈ chunks.flatMap UpdateWorktree.removedEntries ∨
    ∃ told ∈ chunks.flatMap UpdateWorktree.updatedEntries, told.id = entry.id

theorem cut_initial (host : HostSnapshot D) : Cut .new host (splitWorktreeUpdate host.buildInitialUpdate) := by
  obtain ⟨hupd, hrem, hne⟩ := split_spec _
  have hmem : ∀ entry, entry ∈ host.buildInitialUpdate.updatedEntries ↔ entry ∈ host.entries := fun _ => mem_sort
  refine ⟨hne, ?_, ?_, ?_, ?_, nofun⟩
  · rw [hupd]
    exact fun entry => (hmem _).mp
  · rw [hupd]
    exact (perm_sort _).nodup_iff.mpr host.sorted.nodup
  · rw [hrem]
    nofun
  · rw [hupd]
    exact fun entry hent => .inr ((hmem _).mpr hent)

variable {entryChanges : List (RelPath × Nat × PathChange)}

/-- The entries that are told of a change list have the paths that it lists. -/
theorem map_path_told {new : HostSnapshot D}
    (hpre : ∀ path entryId change, (path, entryId, change) ∈ entryChanges → change ≠ .removed →
      ∃ entry ∈ new.entries, entry.path = path ∧ entry.id = entryId) :
    (entryChanges.filterMap fun change => if change.2.2 = .removed then none else new.entryForId change.2.1).map Entry.path =
      (entryChanges.filter fun change => change.2.2 ≠ .removed).map (·.1) := by
  induction entryChanges with
  | nil => rfl
  | cons change entryChanges ih =>
    have hrest := ih fun path entryId change hmem => hpre path _ _ (.tail _ hmem)
    by_cases hrem : change.2.2 = .removed
    · simp only [filterMap_cons, filter_cons, hrem, ne_eq, not_true, decide_false, if_true, Bool.false_eq_true, if_false]
      exact hrest
    · obtain ⟨entry, hmem, hpath, hid⟩ := hpre _ _ _ mem_cons_self hrem
      have hsome := HostSnapshot.entryForId_eq_some.mpr ⟨hmem, hid⟩
      simp only [filterMap_cons, filter_cons, hrem, ne_eq, not_false_eq_true, decide_true, if_true, if_false, hsome, map_cons, hpath]
      rw [hrest]

theorem cut_update {old new : HostSnapshot D}
    (h : Complete old new entryChanges) : Cut old new (splitWorktreeUpdate (new.buildUpdate entryChanges)) := by
  obtain ⟨hupd, hrem, hne⟩ := split_spec _
  have hperm : (new.buildUpdate entryChanges).updatedEntries.Perm
      (entryChanges.filterMap fun change => if change.2.2 = .removed then none else new.entryForId change.2.1) :=
    perm_sort _
  have htold : ∀ entry, entry ∈ (new.buildUpdate entryChanges).updatedEntries ↔
      entry ∈ new.entries ∧ ∃ path change, change ≠ .removed ∧ (path, entry.id, change) ∈ entryChanges := by
    intro entry
    rw [hperm.mem_iff, mem_filterMap]
    constructor
    · rintro ⟨⟨path, entryId, change⟩, hchg, hsome⟩
      split at hsome
      · nomatch hsome
      · rename_i hnot
        obtain ⟨hmem, rfl⟩ := HostSnapshot.entryForId_eq_some.mp hsome
        exact ⟨hmem, path, change, hnot, hchg⟩
    · rintro ⟨hmem, path, change, hnot, hchg⟩
      exact ⟨_, hchg, (if_neg hnot).trans (HostSnapshot.entryForId_eq_some.mpr ⟨hmem, rfl⟩)⟩
  have hgone : ∀ entryId, entryId ∈ (new.buildUpdate entryChanges).removedEntries ↔
      (∃ path, (path, entryId, .removed) ∈ entryChanges) ∧
        ¬ ∃ told ∈ (new.buildUpdate entryChanges).updatedEntries, told.id = entryId := by
    intro entryId
    change entryId ∈ List.filter _ (KeyedList.sort id _) ↔ _
    rw [mem_filter, mem_sort, mem_filterMap, decide_eq_true_iff, any_eq_true]
    refine and_congr ⟨?_, ?_⟩ (not_congr ?_)
    · rintro ⟨⟨path, found, change⟩, hchg, hsome⟩
      split at hsome
      · rename_i hrem
        obtain rfl := Option.some.inj hsome
        exact ⟨path, hrem ▸ hchg⟩
      · nomatch hsome
    · rintro ⟨path, hchg⟩
      exact ⟨_, hchg, if_pos rfl⟩
    · exact exists_congr fun told => and_congr_right fun _ => decide_eq_true_iff
  refine ⟨hne, ?_, ?_, ?_, ?_, ?_⟩
  · rw [hupd]
    exact fun entry hent => ((htold _).mp hent).1
  · rw [hupd, hperm.nodup_iff]
    refine List.Nodup.of_map Entry.path ?_
    rw [map_path_told h.present]
    exact h.once
  · rw [hrem]
    rintro - hentI entry hent rfl
    obtain ⟨⟨path, hchg⟩, hnot⟩ := (hgone _).mp hentI
    obtain ⟨⟨before, hbef, hpath, hid⟩, hnow⟩ := (h.removed path _).mp hchg
    -- the id now stands for another path, and so it is told
    have hnew : entry ∉ old.entries := by
      intro hold
      rw [old.eq_of_id hbef hold hid] at hpath
      exact hnow ⟨entry, hent, hpath, rfl⟩
    obtain ⟨change, hkind, hlist⟩ := h.listed _ hent hnew
    exact hnot ⟨entry, (htold _).mpr ⟨hent, entry.path, change, hkind, hlist⟩, rfl⟩
  · rw [hupd]
    intro entry hent
    by_cases hold : entry ∈ old.entries
    · exact .inl hold
    · obtain ⟨change, hkind, hlist⟩ := h.listed _ hent hold
      exact .inr ((htold _).mpr ⟨hent, entry.path, change, hkind, hlist⟩)
  · rw [hupd, hrem]
    intro entry hent
    by_cases hkept : ∃ now ∈ new.entries, now.path = entry.path ∧ now.id = entry.id
    · obtain ⟨now, hnow, -, hid⟩ := hkept
      by_cases hold : now ∈ old.entries
      · rw [← old.eq_of_id hold hent hid]
        exact .inl hnow
      · obtain ⟨change, hkind, hlist⟩ := h.listed now hnow hold
        exact .inr (.inr ⟨now, (htold now).mpr ⟨hnow, now.path, change, hkind, hlist⟩, hid⟩)
    · have hchg := (h.removed _ _).mpr ⟨⟨entry, hent, rfl, rfl⟩, hkept⟩
      by_cases htoldI : ∃ told ∈ (new.buildUpdate entryChanges).updatedEntries, told.id = entry.id
      · exact .inr (.inr htoldI)
      · exact .inr (.inl ((hgone _).mpr ⟨⟨entry.path, hchg⟩, htoldI⟩))

/-! ### The invariant -/

/-- The messages lead from a snapshot to another. -/
def Chain : HostSnapshot D → List (HostSnapshot D × List (UpdateWorktree D)) → HostSnapshot D → Prop
  | target, [], host => target = host
  | target, (next, chunks) :: later, host => Cut target next chunks ∧ Chain next later host

theorem Chain.snoc {target host new : HostSnapshot D} {later : List (HostSnapshot D × List (UpdateWorktree D))}
    {chunks : List (UpdateWorktree D)} (h : Chain target later host) (hcut : Cut host new chunks) :
    Chain target (later ++ [(new, chunks)]) new := by
  induction later generalizing target with
  | nil =>
    obtain rfl : target = host := h
    exact ⟨hcut, rfl⟩
  | cons message later ih => exact ⟨h.1, ih h.2⟩

namespace System

variable {system : System D}

/-- The guest has each entry of the snapshot that is being sent, or it is to come, and what else the guest has is to be displaced. -/
structure Sound (system : System D) : Prop where
  paired : system.mirror.Paired
  here : ∀ entry ∈ system.target.entries, entry ∈ system.mirror.entriesByPath ∨ entry ∈ system.pendingEntries
  known : ∀ entry ∈ system.mirror.entriesByPath, entry ∈ system.target.entries ∨ entry.id ∈ system.pendingIds ∨
    ∃ told ∈ system.pendingEntries, told.id = entry.id
  sent : ∀ entry ∈ system.pendingEntries, entry ∈ system.target.entries
  once : system.pendingEntries.Nodup
  gone : ∀ id ∈ system.pendingIds, ∀ entry ∈ system.target.entries, entry.id ≠ id
  chain : Chain system.target system.later system.host

theorem sound_start (host : HostSnapshot D) : Sound (start host) where
  paired := ⟨List.Pairwise.nil, List.Pairwise.nil, fun _ _ => ⟨fun ⟨_, h, _⟩ => (nomatch h), fun ⟨_, h, _⟩ => (nomatch h)⟩⟩
  here := nofun
  known := nofun
  sent := nofun
  once := nodup_nil
  gone := nofun
  chain := ⟨cut_initial host, rfl⟩

section

variable (h : Sound system)
include h

/-- When nothing is to come, the guest has the entries of the snapshot. -/
theorem Sound.mirrored (hpend : system.pending = []) (entry : Entry D) :
    entry ∈ system.mirror.entriesByPath ↔ entry ∈ system.target.entries := by
  have hents : system.pendingEntries = [] := by
    unfold pendingEntries
    rw [hpend]
    rfl
  have hids : system.pendingIds = [] := by
    unfold pendingIds
    rw [hpend]
    rfl
  constructor
  · intro hmem
    have hkno := h.known _ hmem
    rw [hents, hids] at hkno
    rcases hkno with htar | hid | ⟨told, htold, -⟩
    · exact htar
    · nomatch hid
    · nomatch htold
  · intro hmem
    have hhere := h.here _ hmem
    rw [hents] at hhere
    exact hhere.resolve_right nofun

/-- The next message comes. -/
theorem Sound.begin (hpend : system.pending = []) {target : HostSnapshot D} {chunks : List (UpdateWorktree D)}
    {later : List (HostSnapshot D × List (UpdateWorktree D))} (hlat : system.later = (target, chunks) :: later) :
    Sound { system with target, pending := chunks, later } := by
  obtain ⟨hcut, hcha⟩ : Cut system.target target chunks ∧ Chain target later system.host := by
    have hcha := h.chain
    rwa [hlat] at hcha
  refine ⟨h.paired, ?_, ?_, hcut.sent, hcut.once, hcut.gone, hcha⟩
  · intro entry hent
    exact (hcut.listed _ hent).imp_left (h.mirrored hpend _).mpr
  · intro entry hent
    exact hcut.dropped _ ((h.mirrored hpend _).mp hent)

/-- A chunk is applied. -/
theorem Sound.chunk {update : UpdateWorktree D} {pending : List (UpdateWorktree D)} (hpend : system.pending = update :: pending) :
    Sound { system with mirror := system.mirror.applyRemoteUpdate update, pending } := by
  have hents : system.pendingEntries = update.updatedEntries ++ pending.flatMap UpdateWorktree.updatedEntries := by
    unfold pendingEntries
    rw [hpend, flatMap_cons]
  have hids : system.pendingIds = update.removedEntries ++ pending.flatMap UpdateWorktree.removedEntries := by
    unfold pendingIds
    rw [hpend, flatMap_cons]
  have hsent := h.sent
  have honce := h.once
  have hgone := h.gone
  rw [hents] at hsent honce
  rw [hids] at hgone
  obtain ⟨honceN, honceL, -⟩ := nodup_append.mp honce
  have hsentN : ∀ entry ∈ update.updatedEntries, entry ∈ system.target.entries :=
    fun entry hmem => hsent _ (mem_append_left _ hmem)
  have hpat : (update.updatedEntries.map Entry.path).Nodup :=
    honceN.map_on fun a ha b hb hpath => system.target.eq_of_path (hsentN a ha) (hsentN b hb) hpath
  have hdistinct : (update.updatedEntries.map Entry.id).Nodup :=
    honceN.map_on fun a ha b hb hid => system.target.eq_of_id (hsentN a ha) (hsentN b hb) hid
  obtain ⟨hpair, hmem⟩ := h.paired.applyRemoteUpdate hpat hdistinct
  refine ⟨hpair, ?_, ?_, fun entry hent => hsent _ (mem_append_right _ hent), honceL,
    fun id hid => hgone id (mem_append_right _ hid), h.chain⟩
  · intro entry hent
    rw [hmem]
    rcases h.here _ hent with hhere | hcome
    · by_cases htold : entry ∈ update.updatedEntries
      · exact .inl (.inl htold)
      · refine .inl (.inr ⟨hhere, ?_⟩)
        -- nothing else of the snapshot has the id or the path
        rintro (hrem | ⟨told, htoldM, hsame | hsame⟩)
        · exact hgone _ (mem_append_left _ hrem) _ hent rfl
        · exact htold (system.target.eq_of_id (hsentN told htoldM) hent hsame ▸ htoldM)
        · exact htold (system.target.eq_of_path (hsentN told htoldM) hent hsame ▸ htoldM)
    · rw [hents, mem_append] at hcome
      exact hcome.imp_left .inl
  · intro entry hent
    rcases (hmem _).mp hent with htold | ⟨hhere, hkept⟩
    · exact .inl (hsentN _ htold)
    · rcases h.known _ hhere with htar | hid | ⟨told, htold, hid⟩
      · exact .inl htar
      · rw [hids, mem_append] at hid
        exact .inr (.inl (hid.resolve_left fun hrem => hkept (.inl hrem)))
      · rw [hents, mem_append] at htold
        exact .inr (.inr ⟨told, htold.resolve_left fun htoldN => hkept (.inr ⟨told, htoldN, .inl hid⟩), hid⟩)

theorem Sound.deliver : Sound system.deliver := by
  unfold System.deliver
  split
  · rename_i update pending hpend
    exact h.chunk hpend
  · rename_i target update pending later hpend hlat
    exact (h.begin hpend hlat).chunk rfl
  · exact h

/-- An entry is put in that is not outdated. -/
theorem Sound.insert {entry : Entry D} {scanId : Nat} (hcare : system.Careful (.insert entry scanId)) :
    Sound { system with mirror := system.mirror.insertEntry entry } := by
  obtain ⟨hent, hdis, hfree⟩ := hcare
  obtain ⟨hpair, hmem⟩ := h.paired.insertEntry hfree
  refine { h with paired := hpair, here := ?_, known := ?_ }
  · intro other hoth
    rcases h.here _ hoth with hhere | hcome
    · by_cases hsame : other = entry
      · exact .inl ((hmem _).mpr (.inl hsame))
      · by_cases hid : other.id = entry.id
        · exact .inr (hdis _ hoth hsame hid)
        · exact .inl ((hmem _).mpr (.inr ⟨hhere, hid⟩))
    · exact .inr hcome
  · intro other hoth
    rcases (hmem _).mp hoth with rfl | ⟨hhere, -⟩
    · exact hent
    · exact h.known _ hhere

/-- An entry is deleted that is not in the snapshot any more. -/
theorem Sound.delete {entryId scanId : Nat} (hcare : system.Careful (.delete entryId scanId)) :
    Sound { system with mirror := system.mirror.deleteEntry entryId } := by
  obtain ⟨hpair, hmem⟩ := h.paired.deleteEntry _
  refine { h with paired := hpair, here := ?_, known := ?_ }
  · intro entry hent
    rcases h.here _ hent with hhere | hcome
    · by_cases hbel : ∃ found ∈ system.mirror.entriesById, found.id = entryId ∧ found.path <+: entry.path
      · obtain ⟨found, hfnd, hid, habo⟩ := hbel
        exact .inr (hcare _ hfnd hid _ hhere habo hent)
      · exact .inl ((hmem _).mpr ⟨hhere, hbel⟩)
    · exact .inr hcome
  · exact fun entry hent => h.known _ ((hmem _).mp hent).1

theorem Sound.apply {move : Move D} (halw : system.Allowed move) (hcare : system.Careful move) : Sound (system.apply move) := by
  cases move with
  | publish snapshot entryChanges => exact { h with chain := h.chain.snoc (cut_update halw) }
  | deliver => exact h.deliver
  | insert entry scanId => exact h.insert hcare
  | delete entryId scanId => exact h.delete hcare

end

theorem Reach.sound (h : Reach Careful system) : Sound system := by
  induction h with
  | start host => exact sound_start host
  | move move _ halw hcare ih => exact ih.apply halw hcare

/-- When no response is outdated, a guest's copy is consistent and ends with the entries of the host. -/
theorem mirror_follows (h : Reach Careful system) : system.Mirrors where
  consistent := h.sound.paired.consistent
  same := by
    intro hpending hlater
    have hhost : system.target = system.host := by
      have hchain := h.sound.chain
      rwa [hlater] at hchain
    rw [← hhost]
    exact h.sound.paired.byPath.ext system.target.sorted (h.sound.mirrored hpending)

/-! ### A file that is replaced -/

/-- The system after moves that are made one after another. -/
def run (host : HostSnapshot D) (moves : List (Move D)) : System D := moves.foldl apply (start host)

theorem Reach.run {condition : System D → Move D → Prop} {host : HostSnapshot D} {moves : List (Move D)}
    (h : Follows apply (fun system move => system.Allowed move ∧ condition system move) (System.start host) moves) :
    Reach condition (run host moves) :=
  Follows.keeps (fun _ move hrch hmove => hrch.move move hmove.1 hmove.2) (.start host) h

/-- A worktree with a root only. -/
def emptyHost : HostSnapshot Unit := ⟨[⟨1, [], false, ()⟩], 1, 1, pairwise_singleton _ _, by decide⟩

/-- A worktree with a file. -/
def fileEntry (id : Nat) : Entry Unit := ⟨id, ["a"], false, ()⟩

def fileHost (id scanId : Nat) (hne : 1 ≠ id) : HostSnapshot Unit where
  entries := [⟨1, [], false, ()⟩, fileEntry id]
  scanId := scanId
  completedScanId := scanId
  sorted := pairwise_pair.mpr (by decide : ([] : RelPath) < ["a"])
  distinct := nodup_cons.mpr ⟨fun hmem => hne (mem_singleton.mp hmem), nodup_singleton _⟩

def created : HostSnapshot Unit := fileHost 2 2 (by decide)

def replaced : HostSnapshot Unit := fileHost 3 3 (by decide)

theorem complete_created : Complete emptyHost created [(["a"], 2, .added)] where
  removed := by simp [emptyHost, created, fileHost, fileEntry]
  present := by
    simp only [created, fileHost, fileEntry, mem_singleton, Prod.mk.injEq]
    rintro - - - ⟨rfl, rfl, -⟩ -
    exact ⟨_, .tail _ mem_cons_self, rfl, rfl⟩
  listed := by simp [emptyHost, created, fileHost, fileEntry]
  once := by decide

theorem complete_replaced : Complete created replaced [(["a"], 2, .removed), (["a"], 3, .added)] where
  removed := by
    intro path entryId
    simp [created, replaced, fileHost, fileEntry]
    constructor
    · rintro ⟨rfl, rfl⟩
      decide
    · rintro ⟨⟨rfl, rfl⟩ | ⟨rfl, rfl⟩, hnone, -⟩
      · exact absurd rfl (hnone rfl)
      · exact ⟨rfl, rfl⟩
  present := by
    simp only [replaced, fileHost, fileEntry, mem_cons, not_mem_nil, or_false, Prod.mk.injEq]
    rintro - - - (⟨-, -, rfl⟩ | ⟨rfl, rfl, -⟩) hkind
    · exact absurd rfl hkind
    · exact ⟨_, .inr rfl, rfl, rfl⟩
  listed := by simp [created, replaced, fileHost, fileEntry]
  once := by decide

/-- The response that a file was created comes in time. -/
theorem mirror_follows_demo : (run emptyHost [.deliver, .publish created [(["a"], 2, .added)], .deliver,
    .insert (fileEntry 2) 2, .publish replaced [(["a"], 2, .removed), (["a"], 3, .added)], .deliver]).Mirrors :=
  mirror_follows (Reach.run ⟨⟨trivial, trivial⟩, ⟨complete_created, trivial⟩, ⟨trivial, trivial⟩,
    ⟨Nat.le_refl 2, .inl (by decide), by decide, by decide⟩, ⟨complete_replaced, trivial⟩, ⟨trivial, trivial⟩, trivial⟩)

/-- The response that a file was created comes when another file has taken its place. -/
theorem outdated_response : ¬ ∀ system : System Unit, Reach (fun _ _ => True) system → system.Mirrors := by
  intro hall
  have hreach : Reach (fun _ _ => True) (run emptyHost [.deliver, .publish created [(["a"], 2, .added)], .deliver,
      .publish replaced [(["a"], 2, .removed), (["a"], 3, .added)], .deliver, .insert (fileEntry 2) 2]) :=
    Reach.run ⟨⟨trivial, trivial⟩, ⟨complete_created, trivial⟩, ⟨trivial, trivial⟩, ⟨complete_replaced, trivial⟩, ⟨trivial, trivial⟩,
      ⟨Nat.le_succ 2, trivial⟩, trivial⟩
  have hpair := ((hall _ hreach).consistent.same 3 ["a"]).mpr (by decide)
  exact absurd hpair (by decide)

end System

end Wu.Worktree
