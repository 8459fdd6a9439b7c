import Mathlib.Data.List.Sort
import Mathlib.Data.String.Basic
import Wu.AgentChat.SavedTranscript

/-!
# What a session saves

The transcript of a session, those of its subagents and its queue, with all that changes them, and what a session that is opened has of
what was saved.
-/

namespace Wu.Saves

open List

/-- The characters of a tool's output that are kept. -/
def toolOutputMaxChars : Nat := 200000

def truncateOutput (text : String) : String :=
  if text.length ≤ toolOutputMaxChars then text else String.ofList (text.toList.take toolOutputMaxChars ++ ['…'])

structure ToolEntry where
  id : String
  call : ToolCall
  status : ToolStatus
  output : Option String
  diff : Option ToolDiff

inductive Entry where
  | user (text : String) (sentAt : I64) (attachments : List PathBuf) (skills : List SkillRef) (undelivered : Bool)
  | assistant (markdown : String) (sentAt : I64)
  | thinking (markdown : String)
  | tool (tool : ToolEntry)
  | notice (text : String) (isError : Bool)
  | image (path : PathBuf)

def Entry.serialize : Entry → SerializedEntry
  | user text sentAt attachments skills undelivered => .user text sentAt attachments skills undelivered
  | assistant markdown sentAt => .assistant markdown sentAt
  | thinking markdown => .thinking markdown
  | tool entry => .tool entry.id entry.call entry.status entry.output entry.diff
  | notice text isError => .notice text isError
  | image path => .image path

def deserializeEntry : SerializedEntry → Entry
  | .user text sentAt attachments skills undelivered => .user text sentAt attachments skills undelivered
  | .assistant text sentAt => .assistant text sentAt
  | .thinking text => .thinking text
  | .tool id call status output diff =>
    .tool
      { id
        call
        status := if status = .running then .canceled else status
        output
        diff := diff.or (diffForCall call) }
  | .notice text isError => .notice text isError
  | .image path => .image path

/-- Blank thinking is left out. -/
def SerializedEntry.isBlankThinking : SerializedEntry → Bool
  | thinking text => (Strings.trim text).isEmpty
  | _ => false

structure Transcript where
  entries : List Entry
  textBlockOpen : Bool

namespace Transcript

def load (entries : List SerializedEntry) : Transcript where
  entries := (entries.filter fun entry => !entry.isBlankThinking).map deserializeEntry
  textBlockOpen := false

def serialize (self : Transcript) : List SerializedEntry := self.entries.map Entry.serialize

def push (self : Transcript) (entry : Entry) : Transcript where
  entries := self.entries ++ [entry]
  textBlockOpen := false

def appendText (self : Transcript) (text : String) (thinking : Bool) (sentAt : I64) : Transcript :=
  if text.isEmpty then self
  else
    match self.textBlockOpen, self.entries.getLast?, thinking with
    | true, some (.assistant before _), false =>
      { self with entries := self.entries.dropLast ++ [.assistant (before ++ text) sentAt] }
    | true, some (.thinking before), true => { self with entries := self.entries.dropLast ++ [.thinking (before ++ text)] }
    | _, _, _ =>
      { entries := self.entries ++ [if thinking then .thinking text else .assistant text sentAt], textBlockOpen := true }

def pushUser (self : Transcript) (text : String) (attachments : List PathBuf) (skills : List SkillRef) (sentAt : I64) : Transcript :=
  self.push (.user text sentAt attachments skills false)

def pushNotice (self : Transcript) (text : String) (isError : Bool) : Transcript := self.push (.notice text isError)

def isTool (id : String) : Entry → Bool
  | .tool tool => tool.id == id
  | _ => false

/-- The first tool with an id is changed. -/
def changeTool (id : String) (f : ToolEntry → ToolEntry) : List Entry → List Entry
  | [] => []
  | .tool tool :: entries => if tool.id = id then .tool (f tool) :: entries else .tool tool :: changeTool id f entries
  | entry :: entries => entry :: changeTool id f entries

/-- `tool_mut`: the last tool with an id is changed. -/
def toolMut (self : Transcript) (id : String) (f : ToolEntry → ToolEntry) : Transcript :=
  { self with entries := (changeTool id f self.entries.reverse).reverse }

def startTool (self : Transcript) (id : String) (call : ToolCall) : Transcript :=
  if self.entries.any (isTool id) then
    { self.toolMut id fun tool => { tool with call, diff := (diffForCall call).or tool.diff } with textBlockOpen := false }
  else self.push (.tool { id, call, status := .running, output := none, diff := diffForCall call })

def finishTool (self : Transcript) (id : String) (isError : Bool) (output : Option String) (diff : Option ToolDiff) : Transcript :=
  self.toolMut id fun tool =>
    { tool with
      status := if isError then .failed else .completed
      output := output.map truncateOutput
      diff := diff.or tool.diff }

def cancelTool : Entry → Entry
  | .tool tool => .tool (if tool.status = .running then { tool with status := .canceled } else tool)
  | entry => entry

def cancelRunningTools (self : Transcript) : Transcript := { self with entries := self.entries.map cancelTool }

/-- `fail_run`: the last entry was not delivered if it is the user's. -/
def markUndelivered (self : Transcript) : Transcript :=
  match self.entries.getLast? with
  | some (.user text sentAt attachments skills _) =>
    { self with entries := self.entries.dropLast ++ [.user text sentAt attachments skills true] }
  | _ => self

def isErrorNotice : Entry → Bool
  | .notice _ isError => isError
  | _ => false

/-- `retry_undelivered`: a message leaves that was not delivered, with the errors after it. -/
def dropUndelivered (self : Transcript) (index : Nat) : Transcript :=
  match self.entries[index]? with
  | some (.user _ _ _ _ true) =>
    { self with entries := self.entries.take index ++ (self.entries.drop (index + 1)).dropWhile isErrorNotice }
  | _ => self

/-- `GeneratedImage`. -/
def pushImage (self : Transcript) (path : String) : Transcript := self.push (.image (.utf8 path))

def closeTextBlock (self : Transcript) : Transcript := { self with textBlockOpen := false }

end Transcript

/-- What changes a transcript. -/
inductive TranscriptChange where
  | appendText (text : String) (thinking : Bool) (sentAt : I64)
  | pushUser (text : String) (attachments : List PathBuf) (skills : List SkillRef) (sentAt : I64)
  | pushNotice (text : String) (isError : Bool)
  | startTool (id : String) (call : ToolCall)
  | finishTool (id : String) (isError : Bool) (output : Option String) (diff : Option ToolDiff)
  | cancelRunningTools
  | markUndelivered
  | dropUndelivered (index : Nat)
  | pushImage (path : String)
  | closeTextBlock

def Transcript.change (self : Transcript) : TranscriptChange → Transcript
  | .appendText text thinking sentAt => self.appendText text thinking sentAt
  | .pushUser text attachments skills sentAt => self.pushUser text attachments skills sentAt
  | .pushNotice text isError => self.pushNotice text isError
  | .startTool id call => self.startTool id call
  | .finishTool id isError output diff => self.finishTool id isError output diff
  | .cancelRunningTools => self.cancelRunningTools
  | .markUndelivered => self.markUndelivered
  | .dropUndelivered index => self.dropUndelivered index
  | .pushImage path => self.pushImage path
  | .closeTextBlock => self.closeTextBlock

structure Subagent where
  transcript : Transcript
  status : Option DoneStatus

def Subagent.new : Subagent := ⟨⟨[], false⟩, none⟩

structure Prompt where
  text : String
  attachments : List PathBuf
  skills : List SkillRef

structure QueuedMessage where
  id : Nat
  prompt : Prompt

/-- The subagents are a map: no two have one id. -/
structure AgentSession where
  transcript : Transcript
  subagents : List (String × Subagent)
  queue : List QueuedMessage
  nextQueueId : Nat
  deleted : Bool

/-- What changes a session. A change of a subagent that is not there adds it. -/
inductive Change where
  | transcript (change : TranscriptChange)
  | subagent (id : String) (change : TranscriptChange)
  | addSubagent (id : String)
  | subagentDone (id : String) (status : DoneStatus)
  | endSubagents (status : DoneStatus)
  | enqueue (prompt : Prompt)
  | enqueueFirst (prompt : Prompt)
  | takeQueued (id : Nat)
  | moveQueued (id toIndex : Nat)
  | editQueued (id : Nat) (prompt : Prompt)

namespace AgentSession

/-- Message ids of the queue that is loaded are smaller. -/
def firstQueueId : Nat := 9223372036854775807

/-- `HashMap::insert`. -/
def insertSubagent (id : String) (subagent : Subagent) : List (String × Subagent) → List (String × Subagent)
  | [] => [(id, subagent)]
  | entry :: entries => if entry.1 = id then (id, subagent) :: entries else entry :: insertSubagent id subagent entries

/-- `entry(id).or_insert_with(Subagent::new)`, and a change of it. -/
def withSubagent (self : AgentSession) (id : String) (f : Subagent → Subagent) : AgentSession :=
  let subagent := ((self.subagents.find? fun entry => entry.1 = id).map Prod.snd).getD .new
  { self with subagents := insertSubagent id (f subagent) self.subagents }

/-- A session that is opened. -/
def new (saved : SavedTranscript) : AgentSession :=
  let (entries, savedSubagents, savedQueue) := match saved with
    | .current entries subagents queue => (entries, subagents, queue)
    | .entriesOnly entries => (entries, [], [])
  { transcript := .load entries
    subagents := savedSubagents.foldl (fun subagents saved =>
      insertSubagent saved.id ⟨.load saved.entries, some (saved.status.getD .interrupted)⟩ subagents) []
    queue := savedQueue.zipIdx.map fun (prompt, index) => ⟨index, ⟨prompt.text, prompt.attachments, prompt.skills⟩⟩
    nextQueueId := firstQueueId
    deleted := false }

def savedTranscript (self : AgentSession) : SavedTranscript :=
  .current self.transcript.serialize
    ((self.subagents.map fun entry => (⟨entry.1, entry.2.transcript.serialize, entry.2.status⟩ : SavedSubagent)).insertionSort
      fun left right => left.id ≤ right.id)
    (self.queue.map fun queued => ⟨queued.prompt.text, queued.prompt.attachments, queued.prompt.skills⟩)

def moveQueued (self : AgentSession) (id toIndex : Nat) : AgentSession :=
  match self.queue.find? fun queued => queued.id = id with
  | none => self
  | some queued =>
    let rest := self.queue.eraseP fun queued => queued.id = id
    { self with queue := rest.insertIdx (min toIndex rest.length) queued }

def change (self : AgentSession) : Change → AgentSession
  | .transcript change => { self with transcript := self.transcript.change change }
  | .subagent id change => self.withSubagent id fun subagent => { subagent with transcript := subagent.transcript.change change }
  | .addSubagent id => self.withSubagent id fun subagent => subagent
  | .subagentDone id status => self.withSubagent id fun subagent => { subagent with status := some status }
  | .endSubagents status =>
    { self with subagents := self.subagents.map fun entry =>
        (entry.1, ⟨entry.2.transcript.cancelRunningTools, some (entry.2.status.getD status)⟩) }
  | .enqueue prompt =>
    { self with nextQueueId := self.nextQueueId + 1, queue := self.queue ++ [⟨self.nextQueueId + 1, prompt⟩] }
  | .enqueueFirst prompt =>
    { self with nextQueueId := self.nextQueueId + 1, queue := ⟨self.nextQueueId + 1, prompt⟩ :: self.queue }
  | .takeQueued id => { self with queue := self.queue.eraseP fun queued => queued.id = id }
  | .moveQueued id toIndex => self.moveQueued id toIndex
  | .editQueued id prompt =>
    { self with queue := self.queue.modify (self.queue.findIdx fun queued => queued.id = id) fun queued => { queued with prompt } }

end AgentSession

/-! ## What is opened again -/

/-- The calls of tools have their diffs. -/
def ToolEntry.Diffed (self : ToolEntry) : Prop := diffForCall self.call ≠ none → self.diff ≠ none

def Entry.Diffed : Entry → Prop
  | tool entry => entry.Diffed
  | _ => True

def Transcript.Diffed (self : Transcript) : Prop := ∀ entry ∈ self.entries, entry.Diffed

structure AgentSession.Sound (session : AgentSession) : Prop where
  transcript : session.transcript.Diffed
  subagents : ∀ entry ∈ session.subagents, entry.2.transcript.Diffed
  ids : (session.subagents.map Prod.fst).Nodup

/-- Thinking that is blank. -/
def Entry.isBlankThinking : Entry → Bool
  | thinking markdown => (Strings.trim markdown).isEmpty
  | _ => false

/-- The entries without blank thinking, in their order, with no tool running. -/
def Transcript.settled (self : Transcript) : Transcript where
  entries := (self.entries.filter fun entry => !entry.isBlankThinking).map cancelTool
  textBlockOpen := false

/-- What a session should be when it is opened again. -/
def AgentSession.reopened (self : AgentSession) : AgentSession where
  transcript := self.transcript.settled
  subagents := (self.subagents.insertionSort fun left right => left.1 ≤ right.1).map fun entry =>
    (entry.1, ⟨entry.2.transcript.settled, some (entry.2.status.getD .interrupted)⟩)
  queue := (self.queue.map QueuedMessage.prompt).zipIdx.map fun (prompt, index) => ⟨index, prompt⟩
  nextQueueId := firstQueueId
  deleted := false

/-- An entry is read as it was, unless it is a tool that ran. -/
theorem deserializeEntry_serialize {entry : Entry} (h : entry.Diffed) : deserializeEntry entry.serialize = Transcript.cancelTool entry := by
  cases entry with
  | tool tool =>
    obtain ⟨id, call, status, output, diff⟩ := tool
    have hdiff : diff.or (diffForCall call) = diff := by
      cases diff with
      | some diff => rfl
      | none =>
        cases hcall : diffForCall call with
        | none => rfl
        | some found => exact absurd rfl (h (by rw [hcall]; exact Option.some_ne_none _))
    unfold Entry.serialize deserializeEntry Transcript.cancelTool
    dsimp only
    rw [hdiff]
    split <;> rfl
  | user | assistant | thinking | notice | image => rfl

theorem isBlankThinking_serialize (entry : Entry) : entry.serialize.isBlankThinking = entry.isBlankThinking := by
  cases entry <;> rfl

theorem Transcript.load_serialize {transcript : Transcript} (h : transcript.Diffed) : load transcript.serialize = transcript.settled := by
  unfold load settled serialize
  rw [filter_map, map_map]
  congr 1
  have hbla : (fun entry => !SerializedEntry.isBlankThinking entry) ∘ Entry.serialize = fun entry => !entry.isBlankThinking := by
    funext entry
    exact congrArg not (isBlankThinking_serialize _)
  rw [hbla]
  exact map_congr_left fun entry hent => deserializeEntry_serialize (h _ (mem_of_mem_filter hent))

namespace AgentSession

/-- Subagents with different ids are put in one after another. -/
theorem foldl_insertSubagent {f : SavedSubagent → Subagent} {saved : List SavedSubagent} : ∀ {subagents : List (String × Subagent)},
    ((subagents.map Prod.fst) ++ saved.map SavedSubagent.id).Nodup →
    saved.foldl (fun subagents saved => insertSubagent saved.id (f saved) subagents) subagents =
      subagents ++ saved.map fun saved => (saved.id, f saved) := by
  have hins : ∀ {id : String} {subagent : Subagent} {subagents : List (String × Subagent)}, id ∉ subagents.map Prod.fst →
      insertSubagent id subagent subagents = subagents ++ [(id, subagent)] := by
    intro id subagent subagents hnot
    induction subagents with
    | nil => rfl
    | cons entry entries ih =>
      unfold insertSubagent
      have hne : entry.1 ≠ id := fun heq => hnot (heq ▸ mem_cons_self)
      rw [if_neg hne, ih fun hin => hnot (.tail _ hin)]
      rfl
  induction saved with
  | nil => exact fun _ => (append_nil _).symm
  | cons first saved ih =>
    intro subagents hnod
    have hfst : first.id ∉ subagents.map Prod.fst := fun hin =>
      (nodup_append.mp hnod).2.2 _ hin _ mem_cons_self rfl
    rw [foldl_cons, hins hfst, ih, append_assoc]
    · rfl
    · rw [map_append, append_assoc]
      exact hnod

/-- A session that is opened has what it should of the one that was saved. -/
theorem new_savedTranscript {session : AgentSession} (h : session.Sound) : new session.savedTranscript = session.reopened := by
  have hsort : (session.subagents.map fun entry =>
      (⟨entry.1, entry.2.transcript.serialize, entry.2.status⟩ : SavedSubagent)).insertionSort (fun left right => left.id ≤ right.id) =
      (session.subagents.insertionSort fun left right => left.1 ≤ right.1).map fun entry =>
        ⟨entry.1, entry.2.transcript.serialize, entry.2.status⟩ :=
    (map_insertionSort (fun left right : String × Subagent => left.1 ≤ right.1) (fun left right : SavedSubagent => left.id ≤ right.id)
      (fun entry => ⟨entry.1, entry.2.transcript.serialize, entry.2.status⟩) _ fun _ _ _ _ => Iff.rfl).symm
  have hperm := perm_insertionSort (fun left right : String × Subagent => left.1 ≤ right.1) session.subagents
  have hids : ((session.subagents.insertionSort fun left right => left.1 ≤ right.1).map Prod.fst).Nodup :=
    (hperm.map _).nodup_iff.mpr h.ids
  unfold new savedTranscript
  dsimp only
  rw [hsort, foldl_insertSubagent (by rw [map_map]; exact hids), map_map, Transcript.load_serialize h.transcript]
  congr 1
  · refine map_congr_left fun entry hent => ?_
    have hent := hperm.mem_iff.mp hent
    show (entry.1, (⟨Transcript.load entry.2.transcript.serialize, _⟩ : Subagent)) = _
    rw [Transcript.load_serialize (h.subagents _ hent)]
  · rw [zipIdx_map, zipIdx_map, map_map, map_map]
    rfl

end AgentSession

/-! ### Changes keep the diffs -/

namespace Transcript

variable {transcript : Transcript}

theorem Diffed.append {entries : List Entry} (h : ∀ entry ∈ entries, entry.Diffed) {entry : Entry} (hent : entry.Diffed) :
    ∀ other ∈ entries ++ [entry], other.Diffed := by
  intro other hoth
  rcases mem_append.mp hoth with hoth | hoth
  · exact h _ hoth
  · exact mem_singleton.mp hoth ▸ hent

theorem Diffed.replaceLast {entries : List Entry} (h : ∀ entry ∈ entries, entry.Diffed) {entry : Entry} (hent : entry.Diffed) :
    ∀ other ∈ entries.dropLast ++ [entry], other.Diffed :=
  Diffed.append (fun other hoth => h other (dropLast_subset _ hoth)) hent

theorem changeTool_diffed {id : String} {f : ToolEntry → ToolEntry} (hf : ∀ tool, tool.Diffed → (f tool).Diffed) {entries : List Entry}
    (h : ∀ entry ∈ entries, entry.Diffed) : ∀ entry ∈ changeTool id f entries, entry.Diffed := by
  induction entries with
  | nil => exact h
  | cons first entries ih =>
    obtain ⟨hfst, hents⟩ := forall_mem_cons.mp h
    cases first with
    | tool tool =>
      unfold changeTool
      split
      · exact forall_mem_cons.mpr ⟨hf tool hfst, hents⟩
      · exact forall_mem_cons.mpr ⟨hfst, ih hents⟩
    | user | assistant | thinking | notice | image => exact forall_mem_cons.mpr ⟨hfst, ih hents⟩

theorem Diffed.toolMut (h : transcript.Diffed) {id : String} {f : ToolEntry → ToolEntry} (hf : ∀ tool, tool.Diffed → (f tool).Diffed) :
    (transcript.toolMut id f).Diffed := by
  intro entry hent
  refine changeTool_diffed hf (fun other hoth => h _ (mem_reverse.mp hoth)) _ (mem_reverse.mp hent)

theorem Diffed.cancelRunningTools (h : transcript.Diffed) : transcript.cancelRunningTools.Diffed := by
  intro entry hent
  obtain ⟨other, hoth, rfl⟩ := mem_map.mp hent
  have hdiff := h _ hoth
  cases other with
  | tool tool =>
    show ToolEntry.Diffed _
    split <;> exact hdiff
  | user | assistant | thinking | notice | image => trivial

/-- Every change of a transcript keeps the diffs of its tools. -/
theorem Diffed.change (h : transcript.Diffed) (change : TranscriptChange) : (transcript.change change).Diffed := by
  cases change with
  | appendText text thinking sentAt =>
    show (transcript.appendText text _ _).Diffed
    unfold Transcript.appendText
    split
    · exact h
    · split
      · exact Diffed.replaceLast h trivial
      · exact Diffed.replaceLast h trivial
      · refine Diffed.append h ?_
        split <;> trivial
  | pushUser | pushNotice | pushImage => exact Diffed.append h trivial
  | startTool id call =>
    show (transcript.startTool id call).Diffed
    unfold Transcript.startTool
    split
    · refine h.toolMut fun tool _ hcall => ?_
      obtain ⟨diff, hdiff⟩ := Option.ne_none_iff_exists'.mp hcall
      rw [hdiff]
      exact Option.some_ne_none diff
    · exact Diffed.append h fun hcall => hcall
  | finishTool id isError output diff =>
    refine h.toolMut fun tool htool hcall => ?_
    cases diff with
    | some diff => exact Option.some_ne_none diff
    | none => exact htool hcall
  | cancelRunningTools => exact h.cancelRunningTools
  | markUndelivered =>
    show transcript.markUndelivered.Diffed
    unfold Transcript.markUndelivered
    split
    · exact Diffed.replaceLast h trivial
    · exact h
  | dropUndelivered index =>
    show (transcript.dropUndelivered _).Diffed
    unfold Transcript.dropUndelivered
    split
    · intro entry hent
      rcases mem_append.mp hent with hent | hent
      · exact h _ (mem_of_mem_take hent)
      · exact h _ (mem_of_mem_drop ((dropWhile_sublist _).subset hent))
    · exact h
  | closeTextBlock => exact h

end Transcript

namespace AgentSession

variable {session : AgentSession}

variable {subagent : Subagent} {subagents : List (String × Subagent)}

theorem mem_insertSubagent {id : String} {entry : String × Subagent}
    (h : entry ∈ insertSubagent id subagent subagents) : entry = (id, subagent) ∨ entry ∈ subagents := by
  induction subagents with
  | nil => exact .inl (mem_singleton.mp h)
  | cons first subagents ih =>
    unfold insertSubagent at h
    split at h
    · exact (mem_cons.mp h).imp_right (mem_cons_of_mem _)
    · rcases mem_cons.mp h with rfl | h
      · exact .inr mem_cons_self
      · exact (ih h).imp_right (mem_cons_of_mem _)

theorem insertSubagent_nodup {id : String}
    (h : (subagents.map Prod.fst).Nodup) : ((insertSubagent id subagent subagents).map Prod.fst).Nodup := by
  induction subagents with
  | nil => exact nodup_singleton _
  | cons first subagents ih =>
    obtain ⟨hfst, hrest⟩ := nodup_cons.mp h
    unfold insertSubagent
    split
    · rename_i heq
      exact nodup_cons.mpr ⟨heq ▸ hfst, hrest⟩
    · rename_i hne
      refine nodup_cons.mpr ⟨fun hin => ?_, ih hrest⟩
      obtain ⟨entry, hent, heq⟩ := mem_map.mp hin
      rcases mem_insertSubagent hent with rfl | hent
      · exact hne heq.symm
      · exact hfst (heq ▸ mem_map_of_mem hent)

/-- What is opened is sound. -/
theorem sound_new (saved : SavedTranscript) : (new saved).Sound := by
  have hload : ∀ entries : List SerializedEntry, (Transcript.load entries).Diffed := by
    intro entries entry hent
    obtain ⟨saved, -, rfl⟩ := mem_map.mp hent
    cases saved with
    | tool id call status output diff =>
      intro hcall
      cases diff with
      | some diff => exact Option.some_ne_none diff
      | none => exact hcall
    | user | assistant | thinking | notice | image => trivial
  have hfold : ∀ (saved : List SavedSubagent) (subagents : List (String × Subagent)),
      (∀ entry ∈ subagents, entry.2.transcript.Diffed) → (subagents.map Prod.fst).Nodup →
      (∀ entry ∈ saved.foldl (fun subagents saved =>
        insertSubagent saved.id ⟨.load saved.entries, some (saved.status.getD .interrupted)⟩ subagents) subagents,
          entry.2.transcript.Diffed) ∧
        ((saved.foldl (fun subagents saved =>
          insertSubagent saved.id ⟨.load saved.entries, some (saved.status.getD .interrupted)⟩ subagents) subagents).map Prod.fst).Nodup := by
    intro saved
    induction saved with
    | nil => exact fun _ hdiff hnod => ⟨hdiff, hnod⟩
    | cons first saved ih =>
      intro subagents hdiff hnod
      refine ih _ (fun entry hent => ?_) (insertSubagent_nodup hnod)
      rcases mem_insertSubagent hent with rfl | hent
      · exact hload _
      · exact hdiff _ hent
  cases saved with
  | entriesOnly entries => exact ⟨hload _, nofun, nodup_nil⟩
  | current entries subagents queue =>
    obtain ⟨hdiff, hids⟩ := hfold _ [] nofun nodup_nil
    exact ⟨hload _, hdiff, hids⟩

theorem Sound.withSubagent (h : session.Sound) (id : String) (f : Subagent → Subagent)
    (hf : ∀ subagent, subagent.transcript.Diffed → (f subagent).transcript.Diffed) : (session.withSubagent id f).Sound where
  transcript := h.transcript
  subagents := by
    intro entry hent
    rcases mem_insertSubagent hent with rfl | hent
    · refine hf _ ?_
      cases hfnd : session.subagents.find? _ with
      | none =>
        intro entry hent
        nomatch hent
      | some found => exact h.subagents _ (List.mem_of_find?_eq_some hfnd)
    · exact h.subagents _ hent
  ids := insertSubagent_nodup h.ids

theorem Sound.change (h : session.Sound) (change : Change) : (session.change change).Sound := by
  cases change with
  | transcript change => exact ⟨h.transcript.change _, h.subagents, h.ids⟩
  | subagent id change =>
    exact h.withSubagent id (fun subagent => { subagent with transcript := subagent.transcript.change _ })
      fun _ hdiff => hdiff.change _
  | addSubagent id => exact h.withSubagent id _ fun _ h => h
  | subagentDone id status =>
    exact h.withSubagent id (fun subagent => { subagent with status := some _ }) fun _ h => h
  | endSubagents status =>
    refine ⟨h.transcript, fun entry hent => ?_, ?_⟩
    · obtain ⟨other, hoth, rfl⟩ := mem_map.mp hent
      exact (h.subagents _ hoth).cancelRunningTools
    · show ((session.subagents.map _).map _).Nodup
      rw [map_map]
      exact h.ids
  | enqueue | enqueueFirst | takeQueued | editQueued => exact ⟨h.transcript, h.subagents, h.ids⟩
  | moveQueued id toIndex =>
    show (session.moveQueued id _).Sound
    unfold AgentSession.moveQueued
    split
    · exact h
    · exact ⟨h.transcript, h.subagents, h.ids⟩

end AgentSession

end Wu.Saves
