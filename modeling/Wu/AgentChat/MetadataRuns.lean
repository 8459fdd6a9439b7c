import Wu.AgentChat.MetadataCopies

/-!
# Changes of metadata reach every copy

In every run in which a chat that becomes live still has the metadata with which it began to open, the store's list, the live
sessions and the files have what was applied to the chats, and chats that were deleted are in none of them.
-/

namespace Wu.Chats

open Option

variable {D : Type}

inductive Move (D : Type) where
  | create (metadata : SessionMetadata D)
  | open (id : String)
  | opened (index : Nat)
  | openFails (index : Nat)
  | rename (id title : String)
  | setPinned (id : String) (pinned : Bool)
  | update (id : String) (change : Change D)
  | session (id : String) (change : Change D)
  | metadataChanged
  | delete (id : String)
  | runTask (job : Nat)

namespace World

/-- A store that has loaded its chats. -/
def start (stored : List (SessionMetadata D)) : World D where
  store := {
    sessions := SessionMetadata.sort stored
    live := fun _ => false
    metadataWrites := fun _ => none }
  entities := fun _ => none
  opening := []
  events := []
  tasks := .empty
  files := fun id => SessionMetadata.find id stored
  applied := []

def perform (world : World D) : Move D → World D
  | .create metadata => world.createSession metadata
  | .open id => world.openSession id
  | .opened index => world.opened index
  | .openFails index => world.openFails index
  | .rename id title => world.renameSession id title
  | .setPinned id pinned => world.setPinned id pinned
  | .update id change => world.updateSessionMetadata id change
  | .session id change => world.updateMetadata id change
  | .metadataChanged => world.metadataChanged
  | .delete id => world.deleteSession id
  | .runTask job => world.runTask job

/-- A chat gets a new id, and a task waits for those before it. -/
def Allowed (world : World D) : Move D → Prop
  | .create metadata => world.Fresh metadata.id
  | .runTask job => world.tasks.Ready job
  | _ => True

/-- A chat that becomes live is listed as it was when it began to open. -/
def Current (world : World D) : Move D → Prop
  | .opened index => ∀ metadata, world.opening[index]? = some metadata → world.store.live metadata.id = false →
    ∀ known ∈ world.store.sessions, known.id = metadata.id → known = metadata
  | _ => True

/-- The states of a store that loaded chats, each stored once, by moves that meet a condition. -/
inductive Reach (condition : World D → Move D → Prop) (stored : List (SessionMetadata D)) : World D → Prop
  | start : (stored.map SessionMetadata.id).Nodup → Reach condition stored (.start stored)
  | move {world : World D} (move : Move D) : Reach condition stored world → world.Allowed move → condition world move →
      Reach condition stored (world.perform move)

/-- What was applied to the chats is in every copy, and what was deleted is gone. -/
structure Kept (stored : List (SessionMetadata D)) (world : World D) : Prop where
  listed : ∀ id, id ∉ world.events → SessionMetadata.find id world.store.sessions = register stored world.applied id
  live : ∀ id, world.store.live id = true → ∃ session, world.entities id = some session ∧ session.deleted = false ∧
    register stored world.applied id = some session.metadata
  written : world.tasks.Done → ∀ id change, .changed id change ∈ world.applied →
    (register stored world.applied id).isSome = true → world.files id = register stored world.applied id
  deleted : ∀ id, .deleted id ∈ world.applied → SessionMetadata.find id world.store.sessions = none ∧ world.store.live id = false ∧
      (∃ job, Removal world.tasks id job) ∧ ∀ job, Removal world.tasks id job → job ∈ world.tasks.finished → world.files id = none

variable {stored : List (SessionMetadata D)} {world : World D}

theorem sound_start (hstor : (stored.map SessionMetadata.id).Nodup) : Sound stored (start stored) := by
  have hperm := SessionMetadata.ids_sort stored
  have htask : ∀ job, (Jobs.empty : Jobs (Job D)).get job = none := fun _ => rfl
  refine ⟨⟨Jobs.sound_empty, ?_, ?_, ?_, ?_, ?_, ?_, ?_, ?_, ?_⟩, hperm.nodup_iff.mpr hstor, ?_, ?_, ?_, ?_, ?_⟩
  · intro id metadata hfind
    exact (SessionMetadata.find_some hfind).2
  · intro id job hjob
    nomatch hjob
  · intro job metadata hjob
    nomatch (htask job).symm.trans hjob
  · intro job metadata hjob
    nomatch (htask job).symm.trans hjob
  · intro id job hjob
    nomatch hjob
  · intro id change hent
    nomatch hent
  · intro id job hjob
    nomatch (htask job).symm.trans hjob
  · intro id job hrmv
    nomatch (htask job).symm.trans hrmv.1
  · intro id hent
    nomatch hent
  · intro id
    exact SessionMetadata.find_isSome.trans hperm.mem_iff.symm
  · intro metadata hmem
    exact .inl (SessionMetadata.find_of_mem hstor (SessionMetadata.mem_sort.mp hmem))
  · intro id hlive
    nomatch hlive
  · intro id session hsess
    nomatch hsess
  · intro id session hsess
    nomatch hsess

theorem Sound.perform (h : Sound stored world) {move : Move D} (halw : world.Allowed move)
    (hcur : world.Current move) : Sound stored (world.perform move) := by
  cases move with
  | create metadata => exact h.createSession halw
  | «open» id => exact h.openSession id
  | opened index => exact h.opened hcur
  | openFails index => exact ⟨h.disk, h.nodup, h.known, h.listed, h.live, h.closed, h.entity⟩
  | rename id title => exact h.renameSession id title
  | setPinned id pinned => exact h.updateSessionMetadata id _
  | update id change => exact h.updateSessionMetadata id _
  | session id change => exact h.updateMetadata id _
  | metadataChanged => exact h.metadataChanged
  | delete id => exact h.deleteSession id
  | runTask job => exact h.runTask halw

theorem Reach.sound (h : Reach Current stored world) : Sound stored world := by
  induction h with
  | start hstor => exact sound_start hstor
  | move move _ halw hcur ih => exact ih.perform halw hcur

/-- The list has what was applied to a chat whose events are handled. -/
theorem Sound.find_eq (h : Sound stored world) {id : String} (heve : id ∉ world.events) :
    SessionMetadata.find id world.store.sessions = register stored world.applied id := by
  cases hfind : SessionMetadata.find id _ with
  | some metadata =>
    obtain ⟨hmem, rfl⟩ := SessionMetadata.find_some hfind
    rcases h.listed _ hmem with hchat | ⟨heven, -⟩
    · exact hchat.symm
    · exact absurd heven heve
  | none =>
    symm
    rw [← not_isSome_iff_eq_none, h.known, ← SessionMetadata.find_isSome, hfind]
    exact Bool.false_ne_true

theorem Sound.kept (h : Sound stored world) : Kept stored world := by
  refine ⟨fun id heve => h.find_eq heve, ?_, ?_, ?_⟩
  · intro id hlive
    obtain ⟨session, hsess, hdel, hchat, -⟩ := h.live id hlive
    exact ⟨session, hsess, hdel, hchat⟩
  · intro hdone id change hent hsome
    obtain ⟨job, hjob⟩ := isSome_iff_exists.mp (h.disk.changed id _ hent hsome)
    obtain ⟨metadata, hget, -⟩ := h.disk.last id job hjob
    exact h.disk.written id job hjob (hdone job (Jobs.get_lt hget))
  · intro id hent
    obtain ⟨job, hrmv⟩ := h.disk.deleted id hent
    have hnone := h.disk.removing id job hrmv.1
    refine ⟨?_, ?_, ⟨job, hrmv⟩, fun other hoth hdone => h.disk.removed id _ hoth hdone⟩
    · rw [← not_isSome_iff_eq_none, SessionMetadata.find_isSome, ← h.known, hnone]
      exact Bool.false_ne_true
    · by_contra hlive
      obtain ⟨session, -, -, hchat, -⟩ := h.live id (Bool.not_eq_false _ ▸ hlive)
      rw [hnone] at hchat
      nomatch hchat

end World

/-- As long as a chat becomes live with the metadata that is listed, no change is lost, and no deleted chat comes back. -/
theorem metadata_kept {stored : List (SessionMetadata D)} {world : World D} (h : World.Reach World.Current stored world) :
    World.Kept stored world := h.sound.kept

def demoChat : SessionMetadata Unit where
  id := "a"
  title := "Old"
  createdAt := 1
  updatedAt := 1
  nativeSessionId := none
  pinned := false
  parentId := none
  forkSource := none
  rest := ()

def demoRun (moves : List (Move Unit)) : World Unit := moves.foldl World.perform (World.start [demoChat])

/-- A chat is opened and then renamed. -/
theorem metadata_kept_demo :
    World.Kept [demoChat] (demoRun [.open "a", .opened 0, .rename "a" " New ", .metadataChanged, .runTask 0]) := by
  have hstart : World.Reach World.Current [demoChat] (demoRun []) := .start (List.nodup_singleton _)
  have hopen : World.Reach World.Current [demoChat] (demoRun [.open "a"]) := .move (.open "a") hstart trivial trivial
  have hopened : World.Reach World.Current [demoChat] (demoRun [.open "a", .opened 0]) := by
    refine .move (.opened 0) hopen trivial ?_
    intro metadata hmetadata _ known hknown _
    obtain rfl : demoChat = metadata := some.inj hmetadata
    exact List.mem_singleton.mp hknown
  have hrename : World.Reach World.Current [demoChat] (demoRun [.open "a", .opened 0, .rename "a" " New "]) :=
    .move (.rename "a" " New ") hopened trivial trivial
  have hevent : World.Reach World.Current [demoChat]
      (demoRun [.open "a", .opened 0, .rename "a" " New ", .metadataChanged]) := .move .metadataChanged hrename trivial trivial
  refine metadata_kept (.move (.runTask 0) hevent ?_ trivial)
  refine ⟨Nat.zero_lt_one, List.not_mem_nil, ?_⟩
  rintro before ⟨entry, hentry, hbefore⟩
  obtain rfl : (Job.write { demoChat with title := "New" }, []) = entry := some.inj hentry
  nomatch hbefore

/-- A chat is renamed while its transcript is read: the session has the old title, and with its next change so have the list and
the file. -/
theorem rename_while_opening_is_lost : ¬ ∀ (stored : List (SessionMetadata Unit)) (world : World Unit),
    World.Reach (fun _ _ => True) stored world → World.Kept stored world := by
  intro hall
  have hstart : World.Reach (fun _ _ => True) [demoChat] (demoRun []) := .start (List.nodup_singleton _)
  have hopen : World.Reach (fun _ _ => True) [demoChat] (demoRun [.open "a"]) := .move (.open "a") hstart trivial trivial
  have hrename : World.Reach (fun _ _ => True) [demoChat] (demoRun [.open "a", .rename "a" "New"]) :=
    .move (.rename "a" "New") hopen trivial trivial
  have hopened : World.Reach (fun _ _ => True) [demoChat] (demoRun [.open "a", .rename "a" "New", .opened 0]) :=
    .move (.opened 0) hrename trivial trivial
  obtain ⟨session, hsession, -, hchat⟩ := (hall _ _ hopened).live "a" rfl
  obtain rfl : { metadata := demoChat, deleted := false, saveMetadataTask := some 0 } = session := some.inj hsession
  have htitle : { demoChat with title := "New" } = demoChat := some.inj hchat
  exact absurd (congrArg SessionMetadata.title htitle) (by decide)

end Wu.Chats
