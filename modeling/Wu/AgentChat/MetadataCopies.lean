import Mathlib.Data.List.Perm.Basic
import Wu.AgentChat.MetadataDisk

/-!
# The copies of the metadata

The store's list and the live sessions have what was applied to the chats, but for the sessions whose events are still to be
handled. Every operation keeps this, as long as a chat becomes live with the metadata that is listed.
-/

namespace Wu.Chats

open List Function SessionMetadata

variable {D : Type}

/-! ### The store's list -/

namespace SessionMetadata

theorem sort_perm (sessions : List (SessionMetadata D)) : (sort sessions).Perm sessions := perm_insertionSort _ _

variable {metadata : SessionMetadata D} {sessions : List (SessionMetadata D)} {f : SessionMetadata D → SessionMetadata D}

theorem mem_sort : metadata ∈ sort sessions ↔ metadata ∈ sessions := (sort_perm _).mem_iff

theorem ids_sort (sessions : List (SessionMetadata D)) :
    ((sort sessions).map SessionMetadata.id).Perm (sessions.map SessionMetadata.id) := (sort_perm _).map _

/-- With distinct ids, the first with an id is the only one. -/
theorem modify_eq_map {id : String} (h : (sessions.map SessionMetadata.id).Nodup) :
    modify id f sessions = sessions.map fun metadata => if metadata.id = id then f metadata else metadata := by
  induction sessions with
  | nil => rfl
  | cons metadata sessions ih =>
    rw [map_cons, nodup_cons] at h
    rw [modify, map_cons]
    by_cases hid : metadata.id = id
    · rw [if_pos hid, if_pos hid, map_congr_left fun other hoth => if_neg ?_, map_id']
      rintro rfl
      exact h.1 (hid ▸ mem_map_of_mem hoth)
    · rw [if_neg hid, if_neg hid, ih h.2]

theorem ids_modify {id : String} (hf : ∀ metadata, metadata.id = id → (f metadata).id = id)
    (sessions : List (SessionMetadata D)) : (modify id f sessions).map SessionMetadata.id = sessions.map SessionMetadata.id := by
  induction sessions with
  | nil => rfl
  | cons metadata sessions ih =>
    rw [modify]
    split
    · rename_i hid
      rw [map_cons, map_cons, hf _ hid, hid]
    · rw [map_cons, map_cons, ih]

theorem find_some {id : String} (h : find id sessions = some metadata) : metadata ∈ sessions ∧ metadata.id = id :=
  ⟨List.mem_of_find?_eq_some h, by simpa using List.find?_some h⟩

theorem find_isSome {id : String} : (find id sessions).isSome = true ↔ id ∈ sessions.map SessionMetadata.id := by
  rw [find, List.find?_isSome, mem_map]
  constructor
  · rintro ⟨metadata, hmem, hid⟩
    exact ⟨metadata, hmem, of_decide_eq_true hid⟩
  · rintro ⟨metadata, hmem, hid⟩
    exact ⟨metadata, hmem, decide_eq_true hid⟩

theorem find_of_mem (h : (sessions.map SessionMetadata.id).Nodup) (hmem : metadata ∈ sessions) :
    find metadata.id sessions = some metadata := by
  cases hfind : find _ _ with
  | none =>
    have hsome := find_isSome.mpr (mem_map_of_mem hmem)
    rw [hfind] at hsome
    nomatch hsome
  | some found =>
    obtain ⟨hfnd, hid⟩ := find_some hfind
    rw [inj_on_of_nodup_map h hfnd hmem hid]

end SessionMetadata

/-! ### A live session -/

namespace World

/-- The task that the next write of a chat waits for. -/
def latest (world : World D) (id : String) : Task :=
  if world.store.live id then (world.entities id).bind AgentSession.saveMetadataTask else world.store.metadataWrites id

variable {world : World D} {session : AgentSession D} {metadata : SessionMetadata D}

/-- A session that is deleted changes alone. -/
theorem updateMetadata_deleted {id : String}
    (hentity : world.entities id = some session) (hdel : session.deleted = true) (change : Change D) :
    world.updateMetadata id change =
      { world with
        entities := Function.update world.entities id (some { session with metadata := change.apply session.metadata })
        applied := world.applied ++ [.changed id change] } := by
  simp [updateMetadata, saveMetadata, hentity, hdel]

theorem updateMetadata_open {id : String}
    (hentity : world.entities id = some session) (hdel : session.deleted = false) (change : Change D) :
    world.updateMetadata id change =
      { world with
        entities := Function.update world.entities id
          (some { metadata := change.apply session.metadata, deleted := false, saveMetadataTask := some world.tasks.next })
        events := world.events ++ [id]
        tasks := world.tasks.spawn (.write (change.apply session.metadata)) session.saveMetadataTask.toList
        applied := world.applied ++ [.changed id change] } := by
  simp [updateMetadata, saveMetadata, hentity, hdel]

/-- Every copy of the metadata against what was applied to the chats. -/
structure Sound (stored : List (SessionMetadata D)) (world : World D) : Prop where
  disk : Disk (register stored world.applied) world.latest world.tasks world.files world.applied
  nodup : (world.store.sessions.map SessionMetadata.id).Nodup
  known : ∀ id, (register stored world.applied id).isSome = true ↔ id ∈ world.store.sessions.map SessionMetadata.id
  listed : ∀ metadata ∈ world.store.sessions, register stored world.applied metadata.id = some metadata ∨
    (metadata.id ∈ world.events ∧ world.store.live metadata.id = true)
  live : ∀ id, world.store.live id = true → ∃ session, world.entities id = some session ∧ session.deleted = false ∧
    register stored world.applied id = some session.metadata ∧ world.store.metadataWrites id = none
  closed : ∀ id session, world.entities id = some session → world.store.live id = false →
    session.deleted = true ∧ register stored world.applied id = none
  entity : ∀ id session, world.entities id = some session → session.metadata.id = id

variable {stored : List (SessionMetadata D)} {world : World D}

section

variable {id : String} (h : Sound stored world) (hentity : world.entities id = some session)
include h hentity

/-- A session that is not deleted is live. -/
theorem Sound.live_of_open (hdel : session.deleted = false) : world.store.live id = true := by
  by_contra hlive
  have hclsd := h.closed id _ hentity (Bool.eq_false_iff.mpr hlive)
  rw [hdel] at hclsd
  nomatch hclsd.1

theorem Sound.register_of_live (hlive : world.store.live id = true) :
    session.deleted = false ∧ register stored world.applied id = some session.metadata ∧ world.store.metadataWrites id = none := by
  obtain ⟨found, hfnd, hall⟩ := h.live id hlive
  obtain rfl := Option.some.inj (hentity.symm.trans hfnd)
  exact hall

/-- A session that is deleted changes, and nothing else does. -/
theorem Sound.changeDeleted (hdel : session.deleted = true) (change : Change D) : Sound stored (world.updateMetadata id change) := by
  have hlive : world.store.live id = false := by
    by_contra hlive
    have hopen := h.register_of_live hentity (Bool.not_eq_false _ ▸ hlive)
    rw [hdel] at hopen
    nomatch hopen.1
  have hnone := (h.closed id _ hentity hlive).2
  have hreg := register_missing hnone change
  rw [updateMetadata_deleted hentity hdel]
  have hlat : World.latest
      { world with
        entities := Function.update world.entities id (some { session with metadata := change.apply session.metadata })
        applied := world.applied ++ [.changed id change] } = world.latest := by
    funext other
    unfold World.latest
    dsimp only
    by_cases hoth : other = id
    · rw [hoth, if_neg (by simp [hlive]), if_neg (by simp [hlive])]
    · rw [update_of_ne hoth]
  refine ⟨?_, h.nodup, ?_, ?_, ?_, ?_, ?_⟩
  · rw [hlat, hreg]
    exact h.disk.miss hnone _
  · rw [hreg]
    exact h.known
  · rw [hreg]
    exact h.listed
  · intro other hoth
    rw [hreg]
    dsimp only
    rw [update_of_ne]
    · exact h.live _ hoth
    · rintro rfl
      rw [hlive] at hoth
      nomatch hoth
  · intro other found hfnd hoth
    rw [hreg]
    by_cases heq : other = id
    · subst heq
      dsimp only at hfnd
      rw [update_self] at hfnd
      rw [← Option.some.inj hfnd]
      exact ⟨hdel, hnone⟩
    · dsimp only at hfnd
      rw [update_of_ne heq] at hfnd
      exact h.closed _ _ hfnd hoth
  · intro other found hfnd
    by_cases heq : other = id
    · subst heq
      dsimp only at hfnd
      rw [update_self] at hfnd
      rw [← Option.some.inj hfnd]
      exact (change.id_apply _).trans (h.entity _ _ hentity)
    · dsimp only at hfnd
      rw [update_of_ne heq] at hfnd
      exact h.entity _ _ hfnd

/-- A live session changes: the store is told, and the file written. -/
theorem Sound.changeOpen (hdel : session.deleted = false) (change : Change D) : Sound stored (world.updateMetadata id change) := by
  have hlive := h.live_of_open hentity hdel
  obtain ⟨-, hchat, hwrit⟩ := h.register_of_live hentity hlive
  have hid : (change.apply session.metadata).id = id := (change.id_apply _).trans (h.entity id _ hentity)
  have hreg := register_changed hchat change
  have hsave : world.latest id = session.saveMetadataTask := by
    unfold World.latest
    rw [if_pos hlive, hentity]
    rfl
  rw [updateMetadata_open hentity hdel]
  refine ⟨?_, h.nodup, ?_, ?_, ?_, ?_, ?_⟩
  · rw [hreg, ← hsave]
    refine Disk.congr (h.disk.change hchat hid _) fun other => ?_
    unfold World.latest
    dsimp only
    by_cases hoth : other = id
    · rw [hoth, update_self, if_pos hlive, update_self]
      rfl
    · rw [update_of_ne hoth, update_of_ne hoth]
  · intro other
    rw [hreg]
    by_cases hoth : other = id
    · subst hoth
      rw [update_self, ← h.known, hchat]
      exact Iff.rfl
    · rw [update_of_ne hoth]
      exact h.known _
  · intro metadata hmem
    rw [hreg]
    by_cases hoth : metadata.id = id
    · refine .inr ⟨mem_append_right _ ?_, ?_⟩
      · rw [hoth]
        exact .head _
      · rw [hoth]
        exact hlive
    · rw [update_of_ne hoth]
      exact (h.listed _ hmem).imp_right (And.imp_left (mem_append_left _))
  · intro other hoth
    rw [hreg]
    dsimp only
    by_cases heq : other = id
    · subst heq
      rw [update_self, update_self]
      exact ⟨_, rfl, rfl, rfl, hwrit⟩
    · rw [update_of_ne heq, update_of_ne heq]
      exact h.live _ hoth
  · intro other found hfnd hoth
    have heq : other ≠ id := by
      rintro rfl
      rw [hlive] at hoth
      nomatch hoth
    dsimp only at hfnd
    rw [update_of_ne heq] at hfnd
    rw [hreg, update_of_ne heq]
    exact h.closed _ _ hfnd hoth
  · intro other found hfnd
    by_cases heq : other = id
    · subst heq
      dsimp only at hfnd
      rw [update_self] at hfnd
      rw [← Option.some.inj hfnd]
      exact hid
    · dsimp only at hfnd
      rw [update_of_ne heq] at hfnd
      exact h.entity _ _ hfnd

end

theorem Sound.updateMetadata (h : Sound stored world) (id : String) (change : Change D) :
    Sound stored (world.updateMetadata id change) := by
  cases hentity : world.entities id with
  | none =>
    unfold World.updateMetadata
    rw [hentity]
    exact h
  | some session =>
    cases hdel : session.deleted with
    | true => exact h.changeDeleted hentity hdel _
    | false => exact h.changeOpen hentity hdel _

/-! ### The store -/

/-- A chat that is not live changes in the list. -/
theorem Sound.changeListed (h : Sound stored world) {id : String}
    (hlive : world.store.live id = false) (hfind : SessionMetadata.find id world.store.sessions = some metadata)
    (change : Change D) : Sound stored (world.updateSessionMetadata id change) := by
  obtain ⟨hmem, hid⟩ := find_some hfind
  have hchat : register stored world.applied id = some metadata := by
    rcases h.listed _ hmem with hchat | ⟨-, hoth⟩
    · rw [← hid]
      exact hchat
    · rw [hid, hlive] at hoth
      nomatch hoth
  have haft : (change.apply metadata).id = id := (change.id_apply _).trans hid
  have hreg := register_changed hchat change
  have hids : (SessionMetadata.modify id change.apply world.store.sessions).map SessionMetadata.id =
      world.store.sessions.map SessionMetadata.id :=
    ids_modify (fun found hfnd => (change.id_apply _).trans hfnd) _
  have hsave : world.latest id = world.store.metadataWrites id := by
    unfold World.latest
    rw [if_neg (by simp [hlive])]
  have hperm := ids_sort (SessionMetadata.modify id change.apply world.store.sessions)
  rw [hids] at hperm
  have hnot : ∀ other, world.store.live other = true → other ≠ id := by
    rintro other hoth rfl
    rw [hlive] at hoth
    nomatch hoth
  unfold World.updateSessionMetadata
  rw [if_neg (by simp [hlive]), hfind]
  refine ⟨?_, ?_, ?_, ?_, ?_, ?_, h.entity⟩
  · rw [hreg, ← hsave]
    refine Disk.congr (h.disk.change hchat haft _) fun other => ?_
    unfold World.latest
    dsimp only
    by_cases hoth : other = id
    · rw [hoth, update_self, if_neg (by simp [hlive]), update_self]
    · rw [update_of_ne hoth, update_of_ne hoth]
  · exact hperm.nodup_iff.mpr h.nodup
  · intro other
    rw [hreg, hperm.mem_iff]
    by_cases hoth : other = id
    · subst hoth
      rw [update_self, ← h.known, hchat]
      exact Iff.rfl
    · rw [update_of_ne hoth]
      exact h.known _
  · intro found hfnd
    rw [hreg]
    rw [mem_sort, modify_eq_map h.nodup, mem_map] at hfnd
    obtain ⟨before, hbef, rfl⟩ := hfnd
    by_cases hoth : before.id = id
    · rw [if_pos hoth, change.id_apply, hoth, update_self]
      have hsame : before = metadata := by
        have hboth := h.listed _ hbef
        rw [hoth, hchat] at hboth
        rcases hboth with heq | ⟨-, hboth⟩
        · exact (Option.some.inj heq).symm
        · exact absurd rfl (hnot _ hboth)
      rw [hsame]
      exact .inl rfl
    · rw [if_neg hoth, update_of_ne hoth]
      exact h.listed _ hbef
  · intro other hoth
    rw [hreg, update_of_ne (hnot _ hoth)]
    dsimp only
    rw [update_of_ne (hnot _ hoth)]
    exact h.live _ hoth
  · intro other found hfnd hoth
    have heq : other ≠ id := by
      rintro rfl
      have hnone := (h.closed _ _ hfnd hoth).2
      rw [hchat] at hnone
      nomatch hnone
    rw [hreg, update_of_ne heq]
    exact h.closed _ _ hfnd hoth

theorem Sound.updateSessionMetadata (h : Sound stored world) (id : String) (change : Change D) :
    Sound stored (world.updateSessionMetadata id change) := by
  cases hlive : world.store.live id with
  | true =>
    unfold World.updateSessionMetadata
    rw [if_pos hlive]
    exact h.updateMetadata id _
  | false =>
    cases hfind : SessionMetadata.find id _ with
    | some metadata => exact h.changeListed hlive hfind _
    | none =>
      unfold World.updateSessionMetadata
      rw [if_neg (by simp [hlive]), hfind]
      exact h

theorem Sound.renameSession (h : Sound stored world) (id title : String) : Sound stored (world.renameSession id title) := by
  unfold World.renameSession
  dsimp only
  split
  · exact h
  · exact h.updateSessionMetadata id _

/-- The id of a new chat is in nothing. -/
def Fresh (world : World D) (id : String) : Prop :=
  id ∉ world.store.sessions.map SessionMetadata.id ∧ world.entities id = none ∧
    (∀ job work, world.tasks.get job = some work → work.id ≠ id) ∧ ∀ entry ∈ world.applied, entry.id ≠ id

section

variable (h : Sound stored world)
include h

theorem Sound.createSession (hfre : world.Fresh metadata.id) : Sound stored (world.createSession metadata) := by
  obtain ⟨hnew, hentity, htask, happ⟩ := hfre
  have hnone : register stored world.applied metadata.id = none := by
    rw [← Option.not_isSome_iff_eq_none, h.known]
    exact hnew
  have hlive : world.store.live metadata.id = false := by
    by_contra hlive
    obtain ⟨session, hsess, -⟩ := h.live _ (Bool.not_eq_false _ ▸ hlive)
    rw [hentity] at hsess
    nomatch hsess
  have hwrit : world.store.metadataWrites metadata.id = none := by
    have hlast := h.disk.last metadata.id
    unfold World.latest at hlast
    rw [if_neg (by simp [hlive])] at hlast
    by_contra hsome
    obtain ⟨job, hjob⟩ := Option.ne_none_iff_exists'.mp hsome
    obtain ⟨found, -, hfnd⟩ := hlast job hjob
    rw [hnone] at hfnd
    nomatch hfnd
  have hreg := register_push stored world.applied (.created metadata)
  have hperm := ids_sort (world.store.sessions ++ [metadata])
  rw [map_append, map_cons, map_nil] at hperm
  unfold World.createSession
  refine ⟨?_, ?_, ?_, ?_, ?_, ?_, ?_⟩
  · rw [hreg]
    refine Disk.congr (h.disk.create hnone htask happ) fun other => ?_
    unfold World.latest
    dsimp only
    by_cases hoth : other = metadata.id
    · rw [hoth, if_pos (update_self ..), if_neg (by simp [hlive]), update_self, hwrit]
      rfl
    · simp only [update_of_ne hoth]
  · refine hperm.nodup_iff.mpr ?_
    exact nodup_append.mpr ⟨h.nodup, nodup_singleton _, by
      rintro id hid other hoth rfl
      exact hnew (mem_singleton.mp hoth ▸ hid)⟩
  · intro other
    rw [hreg, hperm.mem_iff, mem_append, mem_singleton, Applied.perform]
    by_cases hoth : other = metadata.id
    · simp [hoth]
    · rw [update_of_ne hoth, h.known, or_iff_left hoth]
  · intro found hfnd
    rw [hreg, Applied.perform]
    dsimp only
    rw [mem_sort, mem_append, mem_singleton] at hfnd
    rcases hfnd with hfnd | rfl
    · have hoth : found.id ≠ metadata.id := fun heq => hnew (heq ▸ mem_map_of_mem hfnd)
      rw [update_of_ne hoth, update_of_ne hoth]
      exact h.listed _ hfnd
    · rw [update_self]
      exact .inl rfl
  · intro other hoth
    rw [hreg, Applied.perform]
    dsimp only at hoth ⊢
    by_cases heq : other = metadata.id
    · subst heq
      rw [update_self, update_self]
      exact ⟨_, rfl, rfl, rfl, hwrit⟩
    · rw [update_of_ne heq] at hoth
      rw [update_of_ne heq, update_of_ne heq]
      exact h.live _ hoth
  · intro other found hfnd hoth
    dsimp only at hfnd hoth
    have heq : other ≠ metadata.id := by
      rintro rfl
      rw [update_self] at hoth
      exact Bool.noConfusion hoth
    rw [update_of_ne heq] at hfnd hoth
    rw [hreg, Applied.perform, update_of_ne heq]
    exact h.closed _ _ hfnd hoth
  · intro other found hfnd
    dsimp only at hfnd
    by_cases heq : other = metadata.id
    · subst heq
      rw [update_self] at hfnd
      rw [← Option.some.inj hfnd]
    · rw [update_of_ne heq] at hfnd
      exact h.entity _ _ hfnd

theorem Sound.openSession (id : String) : Sound stored (world.openSession id) := by
  unfold World.openSession
  split
  · exact h
  · split
    · exact h
    · exact ⟨h.disk, h.nodup, h.known, h.listed, h.live, h.closed, h.entity⟩

/-- A chat becomes live with the metadata that is listed. -/
theorem Sound.opened {index : Nat} (hcur : ∀ metadata, world.opening[index]? = some metadata → world.store.live metadata.id = false →
      ∀ known ∈ world.store.sessions, known.id = metadata.id → known = metadata) :
    Sound stored (world.opened index) := by
  unfold World.opened
  cases hopen : world.opening[index]? with
  | none => exact h
  | some metadata =>
    have hrest : Sound stored { world with opening := world.opening.eraseIdx index } :=
      ⟨h.disk, h.nodup, h.known, h.listed, h.live, h.closed, h.entity⟩
    dsimp only
    split
    · exact hrest
    · rename_i hlive
      rw [Bool.not_eq_true] at hlive
      split
      · exact hrest
      · rename_i hany
        obtain ⟨known, hmem, hid⟩ : ∃ known ∈ world.store.sessions, known.id = metadata.id := by simpa using hany
        obtain rfl := hcur _ hopen hlive _ hmem hid
        have hchat : register stored world.applied known.id = some known := by
          rcases h.listed _ hmem with hchat | ⟨-, hoth⟩
          · exact hchat
          · rw [hlive] at hoth
            nomatch hoth
        refine ⟨?_, h.nodup, h.known, ?_, ?_, ?_, ?_⟩
        · refine Disk.congr h.disk fun other => ?_
          unfold World.latest
          dsimp only
          by_cases hoth : other = known.id
          · rw [hoth, if_pos (update_self ..), if_neg (by simp [hlive]), update_self]
            rfl
          · simp only [update_of_ne hoth]
        · intro found hfnd
          refine (h.listed _ hfnd).imp_right (And.imp_right fun hoth => ?_)
          dsimp only
          by_cases heq : found.id = known.id
          · rw [heq, update_self]
          · rw [update_of_ne heq]
            exact hoth
        · intro other hoth
          dsimp only at hoth ⊢
          by_cases heq : other = known.id
          · subst heq
            rw [update_self, update_self]
            exact ⟨_, rfl, rfl, hchat, rfl⟩
          · rw [update_of_ne heq] at hoth
            rw [update_of_ne heq, update_of_ne heq]
            exact h.live _ hoth
        · intro other found hfnd hoth
          dsimp only at hfnd hoth
          have heq : other ≠ known.id := by
            rintro rfl
            rw [update_self] at hoth
            nomatch hoth
          rw [update_of_ne heq] at hfnd hoth
          exact h.closed _ _ hfnd hoth
        · intro other found hfnd
          dsimp only at hfnd
          by_cases heq : other = known.id
          · subst heq
            rw [update_self] at hfnd
            rw [← Option.some.inj hfnd]
          · rw [update_of_ne heq] at hfnd
            exact h.entity _ _ hfnd

/-- A chat is deleted, with what is still to be written of it. -/
theorem Sound.remove (id : String) {entities : String → Option (AgentSession D)} {after : List Nat}
    (hent : ∀ other, other ≠ id → entities other = world.entities other)
    (hentity : ∀ session, entities id = some session → session.deleted = true ∧ session.metadata.id = id)
    (haft : ∀ job, job ∈ after ↔ world.latest id = some job) :
    Sound stored
      { world with
        store := {
          sessions := world.store.sessions.filter fun metadata => metadata.id ≠ id
          live := Function.update world.store.live id false
          metadataWrites := Function.update world.store.metadataWrites id none }
        entities
        tasks := world.tasks.spawn (.remove id) after
        applied := world.applied ++ [.deleted id] } := by
  have hreg := register_push stored world.applied (.deleted id)
  have hstd : ∀ job ∈ after, job < world.tasks.next := by
    intro job hjob
    obtain ⟨metadata, hget, -⟩ := h.disk.last id job ((haft job).mp hjob)
    exact Jobs.get_lt hget
  have hkept : ∀ metadata : SessionMetadata D, metadata ∈ world.store.sessions.filter (fun metadata => metadata.id ≠ id) ↔
      metadata ∈ world.store.sessions ∧ metadata.id ≠ id := by
    intro metadata
    rw [mem_filter, decide_eq_true_iff]
  refine ⟨?_, ?_, ?_, ?_, ?_, ?_, ?_⟩
  · rw [hreg]
    refine Disk.congr (h.disk.delete id hstd fun job hjob => (haft job).mpr hjob) fun other => ?_
    unfold World.latest
    dsimp only
    by_cases hoth : other = id
    · rw [hoth, if_neg (by simp), update_self, update_self]
    · simp only [update_of_ne hoth, hent _ hoth]
  · exact h.nodup.sublist (filter_sublist.map _)
  · intro other
    rw [hreg, Applied.perform, mem_map]
    by_cases hoth : other = id
    · rw [hoth, update_self]
      refine ⟨fun hsome => absurd hsome Bool.false_ne_true, ?_⟩
      rintro ⟨metadata, hmem, hid⟩
      exact absurd hid ((hkept _).mp hmem).2
    · rw [update_of_ne hoth, h.known, mem_map]
      refine exists_congr fun metadata => ?_
      rw [hkept]
      constructor
      · rintro ⟨hmem, rfl⟩
        exact ⟨⟨hmem, hoth⟩, rfl⟩
      · rintro ⟨⟨hmem, -⟩, hid⟩
        exact ⟨hmem, hid⟩
  · intro metadata hmem
    obtain ⟨hmem, hoth⟩ := (hkept _).mp hmem
    rw [hreg, Applied.perform]
    dsimp only
    rw [update_of_ne hoth, update_of_ne hoth]
    exact h.listed _ hmem
  · intro other hoth
    dsimp only at hoth
    have heq : other ≠ id := by
      rintro rfl
      rw [update_self] at hoth
      exact Bool.noConfusion hoth
    rw [update_of_ne heq] at hoth
    rw [hreg, Applied.perform]
    dsimp only
    rw [update_of_ne heq, update_of_ne heq, hent _ heq]
    exact h.live _ hoth
  · intro other session hsess hoth
    rw [hreg, Applied.perform]
    dsimp only at hsess hoth
    by_cases heq : other = id
    · subst heq
      rw [update_self]
      exact ⟨(hentity _ hsess).1, rfl⟩
    · rw [update_of_ne heq] at hoth
      rw [hent _ heq] at hsess
      rw [update_of_ne heq]
      exact h.closed _ _ hsess hoth
  · intro other session hsess
    dsimp only at hsess
    by_cases heq : other = id
    · subst heq
      exact (hentity _ hsess).2
    · rw [hent _ heq] at hsess
      exact h.entity _ _ hsess

theorem Sound.deleteSession (id : String) : Sound stored (world.deleteSession id) := by
  unfold World.deleteSession World.closeForDeletion
  cases hlive : world.store.live id with
  | true =>
    obtain ⟨session, hsess, -, -, hwrit⟩ := h.live id hlive
    have hlat : world.latest id = session.saveMetadataTask := by
      unfold World.latest
      rw [if_pos hlive, hsess]
      rfl
    rw [hsess]
    refine h.remove id (fun other hoth => update_of_ne hoth ..) ?_ fun job => ?_
    · intro found hfnd
      dsimp only at hfnd
      rw [update_self] at hfnd
      rw [← Option.some.inj hfnd]
      exact ⟨rfl, h.entity id session hsess⟩
    · rw [hlat]
      rw [hwrit]
      simp
  | false =>
    have hlat : world.latest id = world.store.metadataWrites id := by
      unfold World.latest
      rw [if_neg (by simp [hlive])]
    refine h.remove id (fun _ _ => rfl) ?_ fun job => ?_
    · intro session hsess
      exact ⟨(h.closed id _ hsess hlive).1, h.entity id _ hsess⟩
    · rw [hlat]
      simp

/-- The event of a session is taken. -/
theorem Sound.takeEvent {id : String} {events : List String} (heve : world.events = id :: events)
    (hentity : world.entities id = some session) :
    Sound stored
      { world with
        events
        store := { world.store with
          sessions := SessionMetadata.modify session.metadata.id (fun _ => session.metadata) world.store.sessions } } := by
  have hid := h.entity id _ hentity
  have hids : (SessionMetadata.modify session.metadata.id (fun _ => session.metadata) world.store.sessions).map
      SessionMetadata.id = world.store.sessions.map SessionMetadata.id := ids_modify (fun _ _ => rfl) _
  refine ⟨h.disk, ?_, ?_, ?_, h.live, h.closed, h.entity⟩
  · exact hids ▸ h.nodup
  · exact hids ▸ h.known
  · intro found hfnd
    rw [modify_eq_map h.nodup, mem_map] at hfnd
    obtain ⟨before, hbef, rfl⟩ := hfnd
    by_cases hoth : before.id = session.metadata.id
    · rw [if_pos hoth]
      have hlive : world.store.live id = true := by
        by_contra hlive
        have hnone := (h.closed id _ hentity (Bool.eq_false_iff.mpr hlive)).2
        have hkno := (h.known _).mpr (mem_map_of_mem hbef)
        rw [hoth, hid, hnone] at hkno
        nomatch hkno
      rw [hid]
      exact .inl (h.register_of_live hentity hlive).2.1
    · rw [if_neg hoth]
      refine (h.listed _ hbef).imp_right (And.imp_left fun hmem => ?_)
      rw [heve] at hmem
      exact (mem_cons.mp hmem).resolve_left fun heq => hoth (heq.trans hid.symm)

theorem Sound.sort :
    Sound stored { world with store := { world.store with sessions := SessionMetadata.sort world.store.sessions } } := by
  have hperm := ids_sort world.store.sessions
  refine ⟨h.disk, hperm.nodup_iff.mpr h.nodup, ?_, ?_, h.live, h.closed, h.entity⟩
  · intro id
    exact (h.known id).trans hperm.mem_iff.symm
  · intro metadata hmem
    exact h.listed _ (mem_sort.mp hmem)

theorem Sound.dropForks (forks : List String) :
    Sound stored (forks.foldl (fun world fork => world.updateSessionMetadata fork .dropForkSource) world) := by
  induction forks generalizing world with
  | nil => exact h
  | cons fork forks ih => exact ih (h.updateSessionMetadata fork _)

theorem Sound.metadataChanged : Sound stored world.metadataChanged := by
  unfold World.metadataChanged
  cases heve : world.events with
  | nil => exact h
  | cons id events =>
    dsimp only
    cases hentity : world.entities id with
    | none =>
      refine ⟨h.disk, h.nodup, h.known, ?_, h.live, h.closed, h.entity⟩
      intro metadata hmem
      rcases h.listed _ hmem with hchat | ⟨heven, hlive⟩
      · exact .inl hchat
      · refine .inr ⟨?_, hlive⟩
        rw [heve] at heven
        refine (mem_cons.mp heven).resolve_left fun heq => ?_
        obtain ⟨session, hsess, -⟩ := h.live _ hlive
        rw [heq, hentity] at hsess
        nomatch hsess
    | some session => exact ((h.takeEvent heve hentity).dropForks _).sort

theorem Sound.runTask {job : Nat} (hready : world.tasks.Ready job) : Sound stored (world.runTask job) := by
  obtain ⟨work, hwork⟩ := Jobs.get_of_lt hready.1
  have hget : (world.tasks.finish job).get job = some work := hwork
  unfold World.runTask
  dsimp only
  rw [hget]
  cases work with
  | write metadata =>
    exact ⟨h.disk.runWrite hready hwork, h.nodup, h.known, h.listed, h.live, h.closed, h.entity⟩
  | remove id =>
    exact ⟨h.disk.runRemove hready hwork, h.nodup, h.known, h.listed, h.live, h.closed, h.entity⟩

end

end World

end Wu.Chats
