import Mathlib.Data.List.Sort
import Wu.Jobs
import Wu.Strings

/-!
# The metadata of chats

The metadata of a chat is in the store's list, in the chat's session when the chat is live, and in a file. Changes go to the
session, or to the list when the chat is not live, and each is written to the file by a background task that waits for the one
before. What a chat's metadata holds beyond the fields here is a parameter.
-/

namespace Wu.Chats

structure SessionMetadata (D : Type) where
  id : String
  title : String
  createdAt : Int
  updatedAt : Int
  nativeSessionId : Option String
  pinned : Bool
  parentId : Option String
  /-- The parent's agent session, copied by the agent itself on the fork's first run. -/
  forkSource : Option String
  rest : D

/-- A change of a chat's metadata. The chat keeps its id. -/
structure Change (D : Type) where
  apply : SessionMetadata D → SessionMetadata D
  id_apply : ∀ metadata, (apply metadata).id = metadata.id

namespace Change

variable {D : Type}

def rename (title : String) : Change D := ⟨fun metadata => { metadata with title }, fun _ => rfl⟩

def pin (pinned : Bool) : Change D := ⟨fun metadata => { metadata with pinned }, fun _ => rfl⟩

def dropForkSource : Change D := ⟨fun metadata => { metadata with forkSource := none }, fun _ => rfl⟩

end Change

/-- A background task, or none that is still to be awaited. -/
abbrev Task := Option Nat

/-- What a background task does to the files. -/
inductive Job (D : Type) where
  | write (metadata : SessionMetadata D)
  | remove (id : String)

def Job.id {D : Type} : Job D → String
  | write metadata => metadata.id
  | remove id => id

structure AgentSession (D : Type) where
  metadata : SessionMetadata D
  deleted : Bool
  saveMetadataTask : Task

structure AgentStore (D : Type) where
  sessions : List (SessionMetadata D)
  live : String → Bool
  metadataWrites : String → Task

/-- What was done to the chats. It is a record that nothing reads. -/
inductive Applied (D : Type) where
  | created (metadata : SessionMetadata D)
  | changed (id : String) (change : Change D)
  | deleted (id : String)

def Applied.id {D : Type} : Applied D → String
  | created metadata => metadata.id
  | changed id _ => id
  | deleted id => id

/-- The store, the sessions, the chats whose transcripts are being read, the sessions whose metadata has changed and whose events
are still to be handled, and the files with the background tasks that write them. -/
structure World (D : Type) where
  store : AgentStore D
  entities : String → Option (AgentSession D)
  opening : List (SessionMetadata D)
  events : List String
  tasks : Jobs (Job D)
  files : String → Option (SessionMetadata D)
  applied : List (Applied D)

variable {D : Type}

namespace SessionMetadata

/-- The latest first. -/
def sort (sessions : List (SessionMetadata D)) : List (SessionMetadata D) :=
  sessions.insertionSort fun left right => right.updatedAt ≤ left.updatedAt

def find (id : String) (sessions : List (SessionMetadata D)) : Option (SessionMetadata D) :=
  sessions.find? fun metadata => metadata.id = id

/-- Change the first with an id. -/
def modify (id : String) (f : SessionMetadata D → SessionMetadata D) : List (SessionMetadata D) → List (SessionMetadata D)
  | [] => []
  | metadata :: sessions => if metadata.id = id then f metadata :: sessions else metadata :: modify id f sessions

/-- The forks that would copy a parent that has moved on. -/
def staleForks (parent : SessionMetadata D) (sessions : List (SessionMetadata D)) : List String :=
  (sessions.filter fun fork => fork.parentId = some parent.id && fork.forkSource.isSome && fork.nativeSessionId.isNone &&
    decide (fork.createdAt ≤ parent.updatedAt)).map SessionMetadata.id

end SessionMetadata

namespace World

/-! ## A live session -/

/-- Tell the store, and write the file after what is still to be written. -/
def saveMetadata (world : World D) (id : String) : World D :=
  match world.entities id with
  | none => world
  | some session =>
    if session.deleted then world
    else
      { world with
        events := world.events ++ [id]
        tasks := world.tasks.spawn (.write session.metadata) session.saveMetadataTask.toList
        entities := Function.update world.entities id (some { session with saveMetadataTask := some world.tasks.next }) }

def updateMetadata (world : World D) (id : String) (change : Change D) : World D :=
  match world.entities id with
  | none => world
  | some session =>
    let world := { world with
      entities := Function.update world.entities id (some { session with metadata := change.apply session.metadata })
      applied := world.applied ++ [Applied.changed id change] }
    world.saveMetadata id

/-! ## The store -/

def updateSessionMetadata (world : World D) (id : String) (change : Change D) : World D :=
  if world.store.live id then world.updateMetadata id change
  else
    match SessionMetadata.find id world.store.sessions with
    | none => world
    | some metadata =>
      { world with
        store := { world.store with
          sessions := SessionMetadata.sort (SessionMetadata.modify id change.apply world.store.sessions)
          metadataWrites := Function.update world.store.metadataWrites id (some world.tasks.next) }
        tasks := world.tasks.spawn (.write (change.apply metadata)) (world.store.metadataWrites id).toList
        applied := world.applied ++ [.changed id change] }

def renameSession (world : World D) (id title : String) : World D :=
  let title := Strings.trim title
  if title.isEmpty then world else world.updateSessionMetadata id (.rename title)

def setPinned (world : World D) (id : String) (pinned : Bool) : World D := world.updateSessionMetadata id (.pin pinned)

/-- A new chat, live from the start. -/
def createSession (world : World D) (metadata : SessionMetadata D) : World D :=
  { world with
    store := { world.store with
      sessions := SessionMetadata.sort (world.store.sessions ++ [metadata])
      live := Function.update world.store.live metadata.id true }
    entities := Function.update world.entities metadata.id (some { metadata, deleted := false, saveMetadataTask := none })
    applied := world.applied ++ [.created metadata] }

/-- Begin to open a chat: its transcript is read. -/
def openSession (world : World D) (id : String) : World D :=
  if world.store.live id then world
  else
    match SessionMetadata.find id world.store.sessions with
    | none => world
    | some metadata => { world with opening := world.opening ++ [metadata] }

/-- The transcript of a chat that is being opened has been read. The chat becomes live with the metadata of when it began to open,
unless it is live or deleted by now. -/
def opened (world : World D) (index : Nat) : World D :=
  match world.opening[index]? with
  | none => world
  | some metadata =>
    let world := { world with opening := world.opening.eraseIdx index }
    if world.store.live metadata.id then world
    else if !world.store.sessions.any fun known => known.id = metadata.id then world
    else
      { world with
        store := { world.store with
          live := Function.update world.store.live metadata.id true
          metadataWrites := Function.update world.store.metadataWrites metadata.id none }
        entities := Function.update world.entities metadata.id
          (some { metadata, deleted := false, saveMetadataTask := world.store.metadataWrites metadata.id }) }

/-- The transcript of a chat that is being opened cannot be read. -/
def openFails (world : World D) (index : Nat) : World D := { world with opening := world.opening.eraseIdx index }

/-- Close the session of a chat that is deleted: what it still has to write. -/
def closeForDeletion (world : World D) (id : String) : World D × List Task :=
  match world.store.live id, world.entities id with
  | true, some session =>
    ({ world with
        entities := Function.update world.entities id (some { session with deleted := true, saveMetadataTask := none }) },
      [session.saveMetadataTask])
  | _, _ => (world, [])

def deleteSession (world : World D) (id : String) : World D :=
  let (world, pendingWrites) := world.closeForDeletion id
  let pendingWrites := pendingWrites ++ [world.store.metadataWrites id]
  { world with
    store := {
      sessions := world.store.sessions.filter fun metadata => metadata.id ≠ id
      live := Function.update world.store.live id false
      metadataWrites := Function.update world.store.metadataWrites id none }
    tasks := world.tasks.spawn (.remove id) (pendingWrites.flatMap Option.toList)
    applied := world.applied ++ [.deleted id] }

/-- The metadata of a session has changed: the store's list takes it, and the forks that it makes stale are no native forks. -/
def metadataChanged (world : World D) : World D :=
  match world.events with
  | [] => world
  | id :: events =>
    match world.entities id with
    | none => { world with events }
    | some session =>
      let metadata := session.metadata
      let staleForks := metadata.staleForks world.store.sessions
      let world := { world with
        events
        store := { world.store with
          sessions := SessionMetadata.modify metadata.id (fun _ => metadata) world.store.sessions } }
      let world := staleForks.foldl (fun world fork => world.updateSessionMetadata fork .dropForkSource) world
      { world with store := { world.store with sessions := SessionMetadata.sort world.store.sessions } }

/-- A background task does its work. -/
def runTask (world : World D) (job : Nat) : World D :=
  let world := { world with tasks := world.tasks.finish job }
  match world.tasks.get job with
  | none => world
  | some (.write metadata) => { world with files := Function.update world.files metadata.id (some metadata) }
  | some (.remove id) => { world with files := Function.update world.files id none }

end World

end Wu.Chats
