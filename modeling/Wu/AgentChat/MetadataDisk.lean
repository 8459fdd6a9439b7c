import Wu.AgentChat.Metadata

/-!
# What the metadata of chats should be, and what is on disk

A chat's metadata is what it was when it was stored or created, with every change that was applied to it since, and nothing when
the chat was deleted. The background tasks bring the files there: the last write of a chat waits for the others, and the removal of
a chat for all its writes.
-/

namespace Wu.Chats

open List Function Option Jobs

variable {D : Type}

/-- The metadata of each chat. -/
abbrev Register (D : Type) := String → Option (SessionMetadata D)

def Applied.perform (chats : Register D) : Applied D → Register D
  | created metadata => Function.update chats metadata.id (some metadata)
  | changed id change => Function.update chats id ((chats id).map change.apply)
  | deleted id => Function.update chats id none

/-- The chats that were stored, and what was done to them. -/
def register (stored : List (SessionMetadata D)) (applied : List (Applied D)) : Register D :=
  applied.foldl Applied.perform fun id => SessionMetadata.find id stored

theorem register_push (stored : List (SessionMetadata D)) (applied : List (Applied D)) (entry : Applied D) :
    register stored (applied ++ [entry]) = entry.perform (register stored applied) := foldl_append

/-- A change of a chat that there is. -/
theorem register_changed {stored : List (SessionMetadata D)} {applied : List (Applied D)} {id : String}
    {metadata : SessionMetadata D} (h : register stored applied id = some metadata) (change : Change D) :
    register stored (applied ++ [.changed id change]) =
      Function.update (register stored applied) id (some (change.apply metadata)) := by
  rw [register_push, Applied.perform, h]
  rfl

/-- A change of a chat that there is not. -/
theorem register_missing {stored : List (SessionMetadata D)} {applied : List (Applied D)} {id : String}
    (h : register stored applied id = none) (change : Change D) :
    register stored (applied ++ [.changed id change]) = register stored applied := by
  rw [register_push, Applied.perform, h]
  exact update_eq_self_iff.mpr h.symm

/-- A task that removes a chat's file, and waits for all its writes. -/
def Removal (tasks : Jobs (Job D)) (id : String) (job : Nat) : Prop :=
  tasks.get job = some (.remove id) ∧
    ∀ other metadata, tasks.get other = some (.write metadata) → metadata.id = id → tasks.Waits job other

/-- The tasks against what the chats should be. `latest` is the task that the next write of a chat waits for. -/
structure Disk (chats : Register D) (latest : String → Task) (tasks : Jobs (Job D)) (files : Register D)
    (applied : List (Applied D)) : Prop where
  sound : tasks.Sound
  keyed : ∀ id metadata, chats id = some metadata → metadata.id = id
  last : ∀ id job, latest id = some job → ∃ metadata, tasks.get job = some (.write metadata) ∧ chats id = some metadata
  chained : ∀ job metadata, tasks.get job = some (.write metadata) → (chats metadata.id).isSome = true →
    ∃ last, latest metadata.id = some last ∧ tasks.Waits last job
  covered : ∀ job metadata, tasks.get job = some (.write metadata) →
    (chats metadata.id).isSome = true ∨ ∃ removal, Removal tasks metadata.id removal
  written : ∀ id job, latest id = some job → job ∈ tasks.finished → files id = chats id
  changed : ∀ id change, .changed id change ∈ applied → (chats id).isSome = true → (latest id).isSome = true
  removing : ∀ id job, tasks.get job = some (.remove id) → chats id = none
  removed : ∀ id job, Removal tasks id job → job ∈ tasks.finished → files id = none
  deleted : ∀ id, .deleted id ∈ applied → ∃ job, Removal tasks id job

/-- A removal stays one when what is started does not write its chat. -/
theorem Removal.spawn {tasks : Jobs (Job D)} {id : String} {job : Nat} (h : Removal tasks id job) (work : Job D)
    (after : List Nat) (hwork : ∀ metadata, work = .write metadata → metadata.id ≠ id) :
    Removal (tasks.spawn work after) id job := by
  refine ⟨?_, fun other metadata hoth hid => ?_⟩
  · rw [get_spawn_of_lt (get_lt h.1)]
    exact h.1
  · rcases get_spawn hoth with hoth | ⟨-, hnew⟩
    · exact (h.2 _ _ hoth hid).spawn work _
    · exact absurd hid (hwork _ hnew.symm)

/-- A removal of before stays the removal it was. -/
theorem Removal.of_spawn {tasks : Jobs (Job D)} {id : String} {job : Nat} {work : Job D} {after : List Nat}
    (h : Removal (tasks.spawn work after) id job) (hold : job < tasks.next) : tasks.get job = some (.remove id) := by
  rw [← get_spawn_of_lt hold]
  exact h.1

namespace Disk

variable {chats files : Register D} {latest : String → Task} {tasks : Jobs (Job D)} {applied : List (Applied D)}

section

variable (h : Disk chats latest tasks files applied)
include h

theorem congr {latest' : String → Task} (heq : ∀ id, latest' id = latest id) : Disk chats latest' tasks files applied := by
  obtain rfl : latest' = latest := funext heq
  exact h

/-- A change: its write waits for the one before. -/
theorem change {id : String} {before after : SessionMetadata D}
    (hbef : chats id = some before) (hid : after.id = id) (change : Change D) :
    Disk (Function.update chats id (some after)) (Function.update latest id (some tasks.next))
      (tasks.spawn (.write after) (latest id).toList) files (applied ++ [.changed id change]) := by
  have hstay : ∀ {other job}, Removal tasks other job → Removal (tasks.spawn (.write after) (latest id).toList) other job := by
    intro other job hrmv
    refine hrmv.spawn _ _ fun metadata hmeta hoth => ?_
    obtain rfl := Job.write.inj hmeta
    have hnone := h.removing _ job hrmv.1
    rw [← hoth, hid, hbef] at hnone
    nomatch hnone
  have hfin : ∀ job ∈ tasks.finished, job ≠ tasks.next := fun job hjob => (h.sound.started job hjob).ne
  have haft : ∀ job ∈ (latest id).toList, job < tasks.next := by
    intro job hjob
    obtain ⟨metadata, hget, -⟩ := h.last id job (mem_toList.mp hjob)
    exact get_lt hget
  refine ⟨h.sound.spawn _ haft, ?_, ?_, ?_, ?_, ?_, ?_, ?_, ?_, ?_⟩
  · intro other metadata hmeta
    by_cases hoth : other = id
    · subst hoth
      rw [update_self] at hmeta
      rw [← some.inj hmeta]
      exact hid
    · rw [update_of_ne hoth] at hmeta
      exact h.keyed _ _ hmeta
  · intro other job hjob
    by_cases hoth : other = id
    · subst hoth
      rw [update_self] at hjob ⊢
      rw [← some.inj hjob]
      exact ⟨after, get_spawn_next .., rfl⟩
    · rw [update_of_ne hoth] at hjob ⊢
      obtain ⟨metadata, hget, hmeta⟩ := h.last _ job hjob
      refine ⟨metadata, ?_, hmeta⟩
      rw [get_spawn_of_lt (get_lt hget)]
      exact hget
  · intro job metadata hjob hsome
    by_cases hoth : metadata.id = id
    · rw [hoth, update_self]
      refine ⟨tasks.next, rfl, ?_⟩
      rcases get_spawn hjob with hjob | ⟨rfl, -⟩
      · have hchat : (chats metadata.id).isSome = true := by
          rw [hoth, hbef]
          rfl
        obtain ⟨last, hlast, hwait⟩ := h.chained job _ hjob hchat
        refine hwait.next _ ?_
        rw [← hoth, hlast]
        exact .head _
      · exact .refl
    · rw [update_of_ne hoth] at hsome ⊢
      rcases get_spawn hjob with hjob | ⟨-, hnew⟩
      · obtain ⟨last, hlast, hwait⟩ := h.chained job _ hjob hsome
        exact ⟨last, hlast, hwait.spawn _ _⟩
      · rw [Job.write.inj hnew] at hoth
        exact absurd hid hoth
  · intro job metadata hjob
    by_cases hoth : metadata.id = id
    · rw [hoth, update_self]
      exact .inl rfl
    · rw [update_of_ne hoth]
      rcases get_spawn hjob with hjob | ⟨-, hnew⟩
      · refine (h.covered job _ hjob).imp_right fun ⟨removal, hrmv⟩ => ?_
        exact ⟨removal, hstay hrmv⟩
      · rw [Job.write.inj hnew] at hoth
        exact absurd hid hoth
  · intro other job hjob hdone
    by_cases hoth : other = id
    · subst hoth
      rw [update_self] at hjob
      exact absurd (some.inj hjob).symm (hfin job hdone)
    · rw [update_of_ne hoth] at hjob ⊢
      exact h.written _ job hjob hdone
  · intro other entry hent hsome
    by_cases hoth : other = id
    · subst hoth
      rw [update_self]
      rfl
    · rw [update_of_ne hoth] at hsome ⊢
      rcases mem_append.mp hent with hent | hent
      · exact h.changed _ _ hent hsome
      · exact absurd (Applied.changed.inj (mem_singleton.mp hent)).1 hoth
  · intro other job hjob
    rcases get_spawn hjob with hjob | ⟨-, hnew⟩
    · have hnone := h.removing _ job hjob
      rw [update_of_ne]
      · exact hnone
      · rintro rfl
        rw [hbef] at hnone
        nomatch hnone
    · nomatch hnew
  · intro other job hrmv hdone
    have hold := hrmv.of_spawn (h.sound.started job hdone)
    refine h.removed _ job ⟨hold, fun write metadata hwri hmeta => ?_⟩ hdone
    have hwait := hrmv.2 _ _ (by rw [get_spawn_of_lt (get_lt hwri)]; exact hwri) hmeta
    exact hwait.of_spawn h.sound (h.sound.started job hdone)
  · intro other hent
    rcases mem_append.mp hent with hent | hent
    · obtain ⟨job, hrmv⟩ := h.deleted _ hent
      exact ⟨job, hstay hrmv⟩
    · nomatch mem_singleton.mp hent

/-- A change of a chat that there is not is no change. -/
theorem miss {id : String} (hnone : chats id = none) (change : Change D) :
    Disk chats latest tasks files (applied ++ [.changed id change]) := by
  refine { h with changed := ?_, deleted := ?_ }
  · intro other entry hent hsome
    rcases mem_append.mp hent with hent | hent
    · exact h.changed _ _ hent hsome
    · rw [(Applied.changed.inj (mem_singleton.mp hent)).1, hnone] at hsome
      nomatch hsome
  · intro other hent
    rcases mem_append.mp hent with hent | hent
    · exact h.deleted _ hent
    · nomatch mem_singleton.mp hent

/-- A chat is deleted: its removal waits for its writes. -/
theorem delete (id : String) {after : List Nat}
    (haft : ∀ job ∈ after, job < tasks.next) (hlat : ∀ job, latest id = some job → job ∈ after) :
    Disk (Function.update chats id none) (Function.update latest id none) (tasks.spawn (.remove id) after) files
      (applied ++ [.deleted id]) := by
  have hstay : ∀ {other job}, Removal tasks other job → Removal (tasks.spawn (.remove id) after) other job :=
    fun hrmv => hrmv.spawn _ _ fun _ hmeta => nomatch hmeta
  have hold : ∀ {job metadata}, (tasks.spawn (.remove id) after).get job = some (.write metadata) →
      tasks.get job = some (.write metadata) := by
    intro job metadata hjob
    rcases get_spawn hjob with hjob | ⟨-, hnew⟩
    · exact hjob
    · nomatch hnew
  have hrmv : ∃ job, Removal (tasks.spawn (.remove id) after) id job := by
    by_cases hrmv : ∃ job, Removal tasks id job
    · obtain ⟨job, hrmv⟩ := hrmv
      exact ⟨job, hstay hrmv⟩
    · refine ⟨tasks.next, get_spawn_next .., fun other metadata hoth hid => ?_⟩
      have hcov := h.covered _ _ (hold hoth)
      rw [hid] at hcov
      have hcha := h.chained _ _ (hold hoth)
      rw [hid] at hcha
      obtain ⟨last, hlast, hwait⟩ := hcha (hcov.resolve_right hrmv)
      exact hwait.next _ (hlat last hlast)
  refine ⟨h.sound.spawn _ haft, ?_, ?_, ?_, ?_, ?_, ?_, ?_, ?_, ?_⟩
  · intro other metadata hmeta
    by_cases hoth : other = id
    · rw [hoth, update_self] at hmeta
      nomatch hmeta
    · rw [update_of_ne hoth] at hmeta
      exact h.keyed _ _ hmeta
  · intro other job hjob
    by_cases hoth : other = id
    · rw [hoth, update_self] at hjob
      nomatch hjob
    · rw [update_of_ne hoth] at hjob ⊢
      obtain ⟨metadata, hget, hmeta⟩ := h.last _ job hjob
      refine ⟨metadata, ?_, hmeta⟩
      rw [get_spawn_of_lt (get_lt hget)]
      exact hget
  · intro job metadata hjob hsome
    by_cases hoth : metadata.id = id
    · rw [hoth, update_self] at hsome
      nomatch hsome
    · rw [update_of_ne hoth] at hsome ⊢
      obtain ⟨last, hlast, hwait⟩ := h.chained job _ (hold hjob) hsome
      exact ⟨last, hlast, hwait.spawn _ _⟩
  · intro job metadata hjob
    by_cases hoth : metadata.id = id
    · rw [hoth]
      exact .inr hrmv
    · rw [update_of_ne hoth]
      refine (h.covered job _ (hold hjob)).imp_right fun ⟨removal, hrmv⟩ => ?_
      exact ⟨removal, hstay hrmv⟩
  · intro other job hjob hdone
    by_cases hoth : other = id
    · rw [hoth, update_self] at hjob
      nomatch hjob
    · rw [update_of_ne hoth] at hjob ⊢
      exact h.written _ job hjob hdone
  · intro other entry hent hsome
    by_cases hoth : other = id
    · rw [hoth, update_self] at hsome
      nomatch hsome
    · rw [update_of_ne hoth] at hsome ⊢
      rcases mem_append.mp hent with hent | hent
      · exact h.changed _ _ hent hsome
      · nomatch mem_singleton.mp hent
  · intro other job hjob
    by_cases hoth : other = id
    · rw [hoth, update_self]
    · rw [update_of_ne hoth]
      rcases get_spawn hjob with hjob | ⟨-, hnew⟩
      · exact h.removing _ job hjob
      · exact absurd (Job.remove.inj hnew) hoth
  · intro other job hrmv hdone
    have hlt := h.sound.started job hdone
    refine h.removed _ job ⟨hrmv.of_spawn hlt, fun write metadata hwri hmeta => ?_⟩ hdone
    have hwait := hrmv.2 _ _ (by rw [get_spawn_of_lt (get_lt hwri)]; exact hwri) hmeta
    exact hwait.of_spawn h.sound hlt
  · intro other hent
    rcases mem_append.mp hent with hent | hent
    · obtain ⟨job, hrmv⟩ := h.deleted _ hent
      exact ⟨job, hstay hrmv⟩
    · rw [Applied.deleted.inj (mem_singleton.mp hent)]
      exact hrmv

/-- A new chat, of which nothing is known. -/
theorem create {metadata : SessionMetadata D}
    (hnew : chats metadata.id = none) (htask : ∀ job work, tasks.get job = some work → work.id ≠ metadata.id)
    (happ : ∀ entry ∈ applied, entry.id ≠ metadata.id) :
    Disk (Function.update chats metadata.id (some metadata)) latest tasks files (applied ++ [.created metadata]) := by
  have hlat : latest metadata.id = none := by
    by_contra hsome
    obtain ⟨job, hjob⟩ := ne_none_iff_exists'.mp hsome
    obtain ⟨found, -, hfnd⟩ := h.last _ job hjob
    rw [hnew] at hfnd
    nomatch hfnd
  refine { h with
    keyed := ?_, last := ?_, chained := ?_, covered := ?_, written := ?_, changed := ?_, removing := ?_, deleted := ?_ }
  · intro other found hfnd
    by_cases hoth : other = metadata.id
    · rw [hoth, update_self] at hfnd
      rw [← some.inj hfnd, hoth]
    · rw [update_of_ne hoth] at hfnd
      exact h.keyed _ _ hfnd
  · intro other job hjob
    rw [update_of_ne]
    · exact h.last _ job hjob
    · rintro rfl
      rw [hlat] at hjob
      nomatch hjob
  · intro job found hjob hsome
    have hne : found.id ≠ metadata.id := htask job _ hjob
    rw [update_of_ne hne] at hsome
    exact h.chained job _ hjob hsome
  · intro job found hjob
    have hne : found.id ≠ metadata.id := htask job _ hjob
    rw [update_of_ne hne]
    exact h.covered job _ hjob
  · intro other job hjob hdone
    rw [update_of_ne]
    · exact h.written _ job hjob hdone
    · rintro rfl
      rw [hlat] at hjob
      nomatch hjob
  · intro other change hent hsome
    rcases mem_append.mp hent with hent | hent
    · have hne : other ≠ metadata.id := happ _ hent
      rw [update_of_ne hne] at hsome
      exact h.changed _ _ hent hsome
    · nomatch mem_singleton.mp hent
  · intro other job hjob
    have hne : other ≠ metadata.id := htask job _ hjob
    rw [update_of_ne hne]
    exact h.removing _ job hjob
  · intro other hent
    rcases mem_append.mp hent with hent | hent
    · exact h.deleted _ hent
    · nomatch mem_singleton.mp hent

/-- A write is done, and no later one of the chat was done before. -/
theorem runWrite {job : Nat} {metadata : SessionMetadata D}
    (hready : tasks.Ready job) (hjob : tasks.get job = some (.write metadata)) :
    Disk chats latest (tasks.finish job) (Function.update files metadata.id (some metadata)) applied := by
  refine { h with sound := h.sound.finish hready, written := ?_, removed := ?_ }
  · intro other last hlast hdone
    obtain ⟨found, hfnd, hchat⟩ := h.last _ last hlast
    rcases mem_cons.mp hdone with rfl | hdone
    · obtain rfl := Job.write.inj (some.inj (hjob.symm.trans hfnd))
      rw [← h.keyed _ _ hchat, update_self, h.keyed _ _ hchat, hchat]
    · rw [update_of_ne]
      · exact h.written _ last hlast hdone
      · rintro rfl
        obtain ⟨last', hlast', hwait⟩ := h.chained job _ hjob (by rw [hchat]; rfl)
        obtain rfl := some.inj (hlast.symm.trans hlast')
        exact hready.not_finished h.sound hwait hdone
  · intro other removal hrmv hdone
    rcases mem_cons.mp hdone with rfl | hdone
    · nomatch hjob.symm.trans hrmv.1
    · rw [update_of_ne]
      · exact h.removed _ _ hrmv hdone
      · rintro rfl
        exact hready.not_finished h.sound (hrmv.2 job _ hjob rfl) hdone

/-- A removal is done. -/
theorem runRemove {job : Nat} {id : String} (hready : tasks.Ready job) (hjob : tasks.get job = some (.remove id)) :
    Disk chats latest (tasks.finish job) (Function.update files id none) applied := by
  refine { h with sound := h.sound.finish hready, written := ?_, removed := ?_ }
  · intro other last hlast hdone
    obtain ⟨found, hfnd, hchat⟩ := h.last _ last hlast
    rcases mem_cons.mp hdone with rfl | hdone
    · nomatch hjob.symm.trans hfnd
    · rw [update_of_ne]
      · exact h.written _ last hlast hdone
      · rintro rfl
        rw [h.removing _ job hjob] at hchat
        nomatch hchat
  · intro other removal hrmv hdone
    by_cases hoth : other = id
    · rw [hoth, update_self]
    · rw [update_of_ne hoth]
      rcases mem_cons.mp hdone with rfl | hdone
      · exact absurd (Job.remove.inj (some.inj (hjob.symm.trans hrmv.1))).symm hoth
      · exact h.removed _ _ hrmv hdone

end

end Disk

end Wu.Chats
