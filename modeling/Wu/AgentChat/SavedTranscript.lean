import Wu.AgentHarness.CodexSession
import Wu.Serde

/-!
# The saved transcript of a chat

A chat is saved with the entries of its transcript, those of its subagents and the prompts that are queued. A chat that is opened reads
them again.
-/

namespace Wu.Saves

open Option

open Serde

/-- An `i64`. -/
abbrev I64 := { n : Int // Strings.minI64 ≤ n ∧ n ≤ Strings.maxI64 }

/-- A path of the file system, which need not be text. -/
inductive PathBuf where
  | utf8 (text : String)
  | raw (bytes : List UInt8)
  deriving DecidableEq

inductive ToolStatus where
  | running
  | completed
  | failed
  | canceled
  deriving DecidableEq

inductive TodoStatus where
  | pending
  | inProgress
  | completed
  deriving DecidableEq

structure TodoItem where
  text : String
  done : Bool
  status : Option TodoStatus

inductive ToolCall where
  | exec (command : String)
  | readFile (path : String)
  | writeFile (path : String) (content : Option String)
  | editFile (path : String) (oldString newString : Option String)
  | applyPatch (path : Option String)
  | search (pattern : String) (path : Option String)
  | glob (pattern : String)
  | webFetch (url : String) (prompt : Option String)
  | webSearch (query : String)
  | todo (items : List TodoItem)
  | mcp (server tool : String) (input : Option Value)
  | unknown (name : String) (input : Option Value)

/-- No text before means a new file. -/
structure ToolDiff where
  path : String
  oldText : Option String
  newText : String

def diffForCall : ToolCall → Option ToolDiff
  | .editFile path oldString (some newString) => some ⟨path, some (oldString.getD ""), newString⟩
  | .writeFile path (some content) => some ⟨path, none, content⟩
  | _ => none

/-! ## What is saved -/

inductive SerializedEntry where
  | user (text : String) (sentAt : I64) (attachments : List PathBuf) (skills : List SkillRef) (undelivered : Bool)
  | assistant (text : String) (sentAt : I64)
  | thinking (text : String)
  | tool (id : String) (call : ToolCall) (status : ToolStatus) (output : Option String) (diff : Option ToolDiff)
  | notice (text : String) (isError : Bool)
  | image (path : PathBuf)

structure SavedSubagent where
  id : String
  entries : List SerializedEntry
  status : Option DoneStatus

structure SavedPrompt where
  text : String
  attachments : List PathBuf
  skills : List SkillRef

inductive SavedTranscript where
  | entriesOnly (entries : List SerializedEntry)
  | current (entries : List SerializedEntry) (subagents : List SavedSubagent) (queue : List SavedPrompt)

/-! ### Written -/

/-- Only paths that are text can be written. -/
def PathBuf.encode : PathBuf → Option Value
  | utf8 text => some (.string text)
  | raw _ => none

def ToolStatus.encode : ToolStatus → Value
  | running => .string "running"
  | completed => .string "completed"
  | failed => .string "failed"
  | canceled => .string "canceled"

def TodoStatus.encode : TodoStatus → Value
  | pending => .string "pending"
  | inProgress => .string "inProgress"
  | completed => .string "completed"

def encodeDoneStatus : DoneStatus → Value
  | .completed => .string "completed"
  | .interrupted => .string "interrupted"
  | .errored => .string "errored"

def encodeSkill (skill : SkillRef) : Value := .object [("name", .string skill.name), ("path", .string skill.path)]

def TodoItem.encode (self : TodoItem) : Value :=
  .object ([("text", .string self.text), ("done", .bool self.done)] ++ skipNone "status" (self.status.map TodoStatus.encode))

def ToolCall.encode : ToolCall → Value
  | exec command => .object [("kind", .string "exec"), ("command", .string command)]
  | readFile path => .object [("kind", .string "readFile"), ("path", .string path)]
  | writeFile path content =>
    .object ([("kind", .string "writeFile"), ("path", .string path)] ++ skipNone "content" (content.map .string))
  | editFile path oldString newString =>
    .object ([("kind", .string "editFile"), ("path", .string path)] ++ skipNone "old_string" (oldString.map .string) ++
      skipNone "new_string" (newString.map .string))
  | applyPatch path => .object ([("kind", .string "applyPatch")] ++ skipNone "path" (path.map .string))
  | search pattern path =>
    .object ([("kind", .string "search"), ("pattern", .string pattern)] ++ skipNone "path" (path.map .string))
  | glob pattern => .object [("kind", .string "glob"), ("pattern", .string pattern)]
  | webFetch url prompt => .object ([("kind", .string "webFetch"), ("url", .string url)] ++ skipNone "prompt" (prompt.map .string))
  | webSearch query => .object [("kind", .string "webSearch"), ("query", .string query)]
  | todo items => .object [("kind", .string "todo"), ("items", .array (items.map TodoItem.encode))]
  | mcp server tool input =>
    .object ([("kind", .string "mcp"), ("server", .string server), ("tool", .string tool)] ++ skipNone "input" input)
  | unknown name input => .object ([("kind", .string "unknown"), ("name", .string name)] ++ skipNone "input" input)

def ToolDiff.encode (self : ToolDiff) : Value :=
  .object ([("path", .string self.path)] ++ skipNone "oldText" (self.oldText.map .string) ++ [("newText", .string self.newText)])

def SerializedEntry.encode : SerializedEntry → Option Value
  | user text sentAt attachments skills undelivered =>
    (attachments.mapM PathBuf.encode).map fun paths =>
      .object ([("type", .string "user"), ("text", .string text), ("at", .int sentAt)] ++ skipEmpty "attachments" paths ++
        skipEmpty "skills" (skills.map encodeSkill) ++ skipFalse "undelivered" undelivered)
  | assistant text sentAt => some (.object [("type", .string "assistant"), ("text", .string text), ("at", .int sentAt)])
  | thinking text => some (.object [("type", .string "thinking"), ("text", .string text)])
  | tool id call status output diff =>
    some (.object ([("type", .string "tool"), ("id", .string id), ("call", call.encode), ("status", status.encode),
      ("output", orNull (output.map .string))] ++ skipNone "diff" (diff.map ToolDiff.encode)))
  | notice text isError => some (.object [("type", .string "notice"), ("text", .string text), ("is_error", .bool isError)])
  | image path => path.encode.map fun path => .object [("type", .string "image"), ("path", path)]

def SavedSubagent.encode (self : SavedSubagent) : Option Value :=
  (self.entries.mapM SerializedEntry.encode).map fun entries =>
    .object [("id", .string self.id), ("entries", .array entries), ("status", orNull (self.status.map encodeDoneStatus))]

def SavedPrompt.encode (self : SavedPrompt) : Option Value :=
  (self.attachments.mapM PathBuf.encode).map fun paths =>
    .object ([("text", .string self.text)] ++ skipEmpty "attachments" paths ++ skipEmpty "skills" (self.skills.map encodeSkill))

/-- `serde_json::to_vec`. -/
def SavedTranscript.toVec : SavedTranscript → Option Value
  | entriesOnly entries => (entries.mapM SerializedEntry.encode).map .array
  | current entries subagents queue =>
    (entries.mapM SerializedEntry.encode).bind fun entries =>
      (subagents.mapM SavedSubagent.encode).bind fun subagents =>
        (queue.mapM SavedPrompt.encode).map fun queue =>
          .object ([("entries", .array entries), ("subagents", .array subagents)] ++ skipEmpty "queue" queue)

/-! ### Read -/

def PathBuf.decode (value : Value) : Option PathBuf := value.asStr.map .utf8

def decodeI64 : Value → Option I64
  | .int n => if h : Strings.minI64 ≤ n ∧ n ≤ Strings.maxI64 then some ⟨n, h⟩ else none
  | _ => none

def ToolStatus.decode (value : Value) : Option ToolStatus :=
  value.asStr.bind fun name =>
    if name = "running" then some .running
    else if name = "completed" then some .completed
    else if name = "failed" then some .failed
    else if name = "canceled" then some .canceled
    else none

def TodoStatus.decode (value : Value) : Option TodoStatus :=
  value.asStr.bind fun name =>
    if name = "pending" then some .pending
    else if name = "inProgress" then some .inProgress
    else if name = "completed" then some .completed
    else none

/-- An unknown status must not fail the whole tool call. -/
def lenientTodoStatus : Value → Option (Option TodoStatus)
  | .null => some none
  | value => some (TodoStatus.decode value)

def decodeDoneStatus (value : Value) : Option DoneStatus :=
  value.asStr.bind fun name =>
    if name = "completed" then some .completed
    else if name = "interrupted" then some .interrupted
    else if name = "errored" then some .errored
    else none

def decodeSkill (value : Value) : Option SkillRef :=
  value.asObject.bind fun entries =>
    (field Value.asStr "name" entries).bind fun name => (field Value.asStr "path" entries).map fun path => ⟨name, path⟩

def TodoItem.decode (value : Value) : Option TodoItem :=
  value.asObject.bind fun entries =>
    (field Value.asStr "text" entries).bind fun text =>
      (field Value.asBool "done" entries).bind fun done =>
        (fieldOr none lenientTodoStatus "status" entries).map fun status => ⟨text, done, status⟩

def ToolCall.decode (value : Value) : Option ToolCall :=
  value.asObject.bind fun entries =>
    let text := fun key => field Value.asStr key entries
    let maybe := fun key => fieldOr none (optional Value.asStr) key entries
    let input := fieldOr none (optional some) "input" entries
    (text "kind").bind fun kind =>
      if kind = "exec" then (text "command").map .exec
      else if kind = "readFile" then (text "path").map .readFile
      else if kind = "writeFile" then (text "path").bind fun path => (maybe "content").map fun content => .writeFile path content
      else if kind = "editFile" then
        (text "path").bind fun path => (maybe "old_string").bind fun oldString =>
          (maybe "new_string").map fun newString => .editFile path oldString newString
      else if kind = "applyPatch" then (maybe "path").map .applyPatch
      else if kind = "search" then (text "pattern").bind fun pattern => (maybe "path").map fun path => .search pattern path
      else if kind = "glob" then (text "pattern").map .glob
      else if kind = "webFetch" then (text "url").bind fun url => (maybe "prompt").map fun prompt => .webFetch url prompt
      else if kind = "webSearch" then (text "query").map .webSearch
      else if kind = "todo" then (fieldOr [] (list TodoItem.decode) "items" entries).map .todo
      else if kind = "mcp" then
        (text "server").bind fun server => (text "tool").bind fun tool => input.map fun input => .mcp server tool input
      else if kind = "unknown" then (text "name").bind fun name => input.map fun input => .unknown name input
      else none

def ToolDiff.decode (value : Value) : Option ToolDiff :=
  value.asObject.bind fun entries =>
    (field Value.asStr "path" entries).bind fun path =>
      (fieldOr none (optional Value.asStr) "oldText" entries).bind fun oldText =>
        (field Value.asStr "newText" entries).map fun newText => ⟨path, oldText, newText⟩

def SerializedEntry.decode (value : Value) : Option SerializedEntry :=
  value.asObject.bind fun entries =>
    let text := fun key => field Value.asStr key entries
    let sentAt := fieldOr (⟨0, by decide⟩ : I64) decodeI64 "at" entries
    (text "type").bind fun type =>
      if type = "user" then
        (text "text").bind fun text => sentAt.bind fun sentAt =>
          (fieldOr [] (list PathBuf.decode) "attachments" entries).bind fun attachments =>
            (fieldOr [] (list decodeSkill) "skills" entries).bind fun skills =>
              (fieldOr false Value.asBool "undelivered" entries).map fun undelivered =>
                .user text sentAt attachments skills undelivered
      else if type = "assistant" then (text "text").bind fun text => sentAt.map fun sentAt => .assistant text sentAt
      else if type = "thinking" then (text "text").map .thinking
      else if type = "tool" then
        (text "id").bind fun id => (field ToolCall.decode "call" entries).bind fun call =>
          (field ToolStatus.decode "status" entries).bind fun status =>
            (fieldOr none (optional Value.asStr) "output" entries).bind fun output =>
              (fieldOr none (optional ToolDiff.decode) "diff" entries).map fun diff => .tool id call status output diff
      else if type = "notice" then
        (text "text").bind fun text => (field Value.asBool "is_error" entries).map fun isError => .notice text isError
      else if type = "image" then (field PathBuf.decode "path" entries).map .image
      else none

def SavedSubagent.decode (value : Value) : Option SavedSubagent :=
  value.asObject.bind fun fields =>
    (field Value.asStr "id" fields).bind fun id =>
      (field (list SerializedEntry.decode) "entries" fields).bind fun entries =>
        (fieldOr none (optional decodeDoneStatus) "status" fields).map fun status => ⟨id, entries, status⟩

def SavedPrompt.decode (value : Value) : Option SavedPrompt :=
  value.asObject.bind fun fields =>
    (field Value.asStr "text" fields).bind fun text =>
      (fieldOr [] (list PathBuf.decode) "attachments" fields).bind fun attachments =>
        (fieldOr [] (list decodeSkill) "skills" fields).map fun skills => ⟨text, attachments, skills⟩

/-- `serde_json::from_slice`: the first variant that fits. -/
def SavedTranscript.fromSlice (value : Value) : Option SavedTranscript :=
  ((list SerializedEntry.decode value).map .entriesOnly).or <|
    value.asObject.bind fun fields =>
      (field (list SerializedEntry.decode) "entries" fields).bind fun entries =>
        (fieldOr [] (list SavedSubagent.decode) "subagents" fields).bind fun subagents =>
          (fieldOr [] (list SavedPrompt.decode) "queue" fields).map fun queue => .current entries subagents queue

/-! ### What is written is read again -/

@[simp]
theorem asObject_object (entries : List (String × Value)) : (Value.object entries).asObject = some entries := rfl

@[simp]
theorem asStr_string (text : String) : (Value.string text).asStr = some text := rfl

@[simp]
theorem asBool_bool (value : Bool) : (Value.bool value).asBool = some value := rfl

@[simp]
theorem optional_null {T : Type} (decode : Value → Option T) : Serde.optional decode .null = some none := rfl

@[simp]
theorem optional_string (text : String) : Serde.optional Value.asStr (.string text) = some (some text) := rfl

theorem optional_value {value : Value} (h : value ≠ .null) : Serde.optional some value = some (some value) := by
  unfold Serde.optional
  split
  · exact absurd rfl h
  · rfl

theorem decode_encodeSkill (skill : SkillRef) : decodeSkill (encodeSkill skill) = some skill := by
  simp [decodeSkill, encodeSkill, field]

theorem ToolStatus.decode_encode (status : ToolStatus) : decode status.encode = some status := by
  cases status <;> rfl

theorem TodoItem.decode_encode (item : TodoItem) : decode item.encode = some item := by
  obtain ⟨-, -, status⟩ := item
  cases status with
  | none => simp [decode, encode, field, fieldOr]
  | some status => cases status <;> simp [decode, encode, field, fieldOr, TodoStatus.encode, lenientTodoStatus, TodoStatus.decode]

/-- A call with no null as its input. -/
def ToolCall.Plain : ToolCall → Prop
  | mcp _ _ input | unknown _ input => input ≠ some .null
  | _ => True

theorem ToolCall.decode_encode (call : ToolCall) (hpln : call.Plain) : decode call.encode = some call := by
  cases call with
  | exec command => simp [decode, encode, field]
  | readFile path => simp [decode, encode, field]
  | writeFile path content => cases content <;> simp [decode, encode, field, fieldOr]
  | editFile path oldString newString =>
    cases oldString <;> cases newString <;> simp [decode, encode, field, fieldOr]
  | applyPatch path => cases path <;> simp [decode, encode, field, fieldOr]
  | search pattern path => cases path <;> simp [decode, encode, field, fieldOr]
  | glob pattern => simp [decode, encode, field]
  | webFetch url prompt => cases prompt <;> simp [decode, encode, field, fieldOr]
  | webSearch query => simp [decode, encode, field]
  | todo items =>
    have hitems : (items.map TodoItem.encode).mapM TodoItem.decode = some items := mapM_map fun item _ => item.decode_encode
    simp [decode, encode, field, fieldOr, list, Value.asArray, hitems]
  | mcp server tool input =>
    cases input with
    | none => simp [decode, encode, field, fieldOr]
    | some value => simp [decode, encode, field, fieldOr, optional_value fun hnull => hpln _]
  | unknown name input =>
    cases input with
    | none => simp [decode, encode, field, fieldOr]
    | some value => simp [decode, encode, field, fieldOr, optional_value fun hnull => hpln _]

theorem ToolDiff.decode_encode (diff : ToolDiff) : decode diff.encode = some diff := by
  obtain ⟨-, oldText, -⟩ := diff
  cases oldText <;> simp [decode, encode, field, fieldOr]

@[simp]
theorem ToolDiff.optional_encode (diff : ToolDiff) : Serde.optional decode diff.encode = some (some diff) := by
  show (decode _).map some = some _
  rw [diff.decode_encode]
  rfl

theorem PathBuf.decode_encode (path : PathBuf) (value : Value) (h : path.encode = some value) : decode value = some path := by
  cases path with
  | utf8 text =>
    rw [← some.inj h]
    rfl
  | raw bytes => nomatch h

theorem decodeI64_int (n : I64) : decodeI64 (.int n) = some n := by
  exact dif_pos n.2

/-- A path that is text. -/
def PathBuf.IsText (self : PathBuf) : Prop := ∃ text, self = utf8 text

/-- An entry whose paths are text, and whose call has no null as its input. -/
def SerializedEntry.Plain : SerializedEntry → Prop
  | user _ _ attachments _ _ => ∀ path ∈ attachments, path.IsText
  | tool _ call _ _ _ => call.Plain
  | image path => path.IsText
  | _ => True

theorem SerializedEntry.decode_encode (entry : SerializedEntry) (hpln : entry.Plain) (value : Value) (h : entry.encode = some value) :
    decode value = some entry := by
  cases entry with
  | user text sentAt attachments skills undelivered =>
    obtain ⟨paths, hpath, rfl⟩ := map_eq_some_iff.mp h
    generalize hfie : [("type", .string "user"), ("text", .string text), ("at", .int sentAt)] ++ skipEmpty "attachments" paths ++
      skipEmpty "skills" (skills.map encodeSkill) ++ skipFalse "undelivered" undelivered = fields
    have hatt : fieldOr [] (list PathBuf.decode) "attachments" fields = some attachments :=
      fieldOr_list (by simp [← hfie]) (mapM_mapM (fun path _ => path.decode_encode) hpath)
    have hski : fieldOr [] (list decodeSkill) "skills" fields = some skills :=
      fieldOr_list (by simp [← hfie]) (mapM_map fun skill _ => decode_encodeSkill _)
    have hund : fieldOr false Value.asBool "undelivered" fields = some undelivered := by
      cases undelivered <;> simp [fieldOr, ← hfie]
    have hsentA : fieldOr (⟨0, by decide⟩ : I64) decodeI64 "at" fields = some sentAt := by
      simp [fieldOr, ← hfie, decodeI64_int]
    have htype : Value.lookupEntry "type" fields = some (.string "user") := by simp [← hfie]
    have htext : Value.lookupEntry "text" fields = some (.string text) := by simp [← hfie]
    simp [decode, field, htype, htext, hsentA, hatt, hski, hund]
  | assistant text sentAt => 
    rw [← some.inj h]
    simp [decode, field, fieldOr, decodeI64_int]
  | thinking text => 
    rw [← some.inj h]
    simp [decode, field]
  | tool id call status output diff =>
    rw [← some.inj h]
    have hcall := call.decode_encode hpln
    have hstat := status.decode_encode
    cases output <;> cases diff <;> simp [decode, field, fieldOr, hcall, hstat, orNull]
  | notice text isError =>
    rw [← some.inj h]
    simp [decode, field]
  | image path =>
    obtain ⟨value, hval, rfl⟩ := map_eq_some_iff.mp h
    simp [decode, field, path.decode_encode _ hval]

theorem entries_decode {entries : List SerializedEntry} (hpln : ∀ entry ∈ entries, entry.Plain) {values : List Value}
    (h : entries.mapM SerializedEntry.encode = some values) : values.mapM SerializedEntry.decode = some entries :=
  mapM_mapM (fun entry hent => entry.decode_encode (hpln _ hent)) h

theorem SavedSubagent.decode_encode (subagent : SavedSubagent) (hpln : ∀ entry ∈ subagent.entries, entry.Plain) (value : Value)
    (h : subagent.encode = some value) : decode value = some subagent := by
  obtain ⟨id, entries, status⟩ := subagent
  obtain ⟨values, hvals, rfl⟩ := map_eq_some_iff.mp h
  have hents := entries_decode hpln hvals
  cases status with
  | none => simp [decode, field, fieldOr, list, Value.asArray, orNull, hents]
  | some status => cases status <;> simp [decode, field, fieldOr, list, Value.asArray, orNull, hents] <;> rfl

theorem SavedPrompt.decode_encode (prompt : SavedPrompt) (value : Value) (h : prompt.encode = some value) :
    decode value = some prompt := by
  obtain ⟨text, attachments, skills⟩ := prompt
  obtain ⟨paths, hpath, rfl⟩ := map_eq_some_iff.mp h
  generalize hfie : [("text", .string text)] ++ skipEmpty "attachments" paths ++ skipEmpty "skills" (skills.map encodeSkill) = fields
  have hatt : fieldOr [] (list PathBuf.decode) "attachments" fields = some attachments :=
    fieldOr_list (by simp [← hfie]) (mapM_mapM (fun path _ => path.decode_encode) hpath)
  have hski : fieldOr [] (list decodeSkill) "skills" fields = some skills :=
    fieldOr_list (by simp [← hfie]) (mapM_map fun skill _ => decode_encodeSkill _)
  have htext : Value.lookupEntry "text" fields = some (.string text) := by simp [← hfie]
  simp [decode, field, htext, hatt, hski]

/-- The paths of a saved transcript are text, and no call has null as its input. -/
def SavedTranscript.Plain : SavedTranscript → Prop
  | entriesOnly entries => ∀ entry ∈ entries, entry.Plain
  | current entries subagents queue => (∀ entry ∈ entries, entry.Plain) ∧
      (∀ subagent ∈ subagents, ∀ entry ∈ subagent.entries, entry.Plain) ∧ ∀ prompt ∈ queue, ∀ path ∈ prompt.attachments, path.IsText

/-- What is written is read as what it was. -/
theorem SavedTranscript.fromSlice_toVec (saved : SavedTranscript) (hpln : saved.Plain) (value : Value) (h : saved.toVec = some value) :
    fromSlice value = some saved := by
  cases saved with
  | entriesOnly entries =>
    obtain ⟨values, hvals, rfl⟩ := map_eq_some_iff.mp h
    simp [fromSlice, list, Value.asArray, entries_decode hpln hvals]
  | current entries subagents queue =>
    obtain ⟨entryValues, hentV, hrest⟩ := bind_eq_some_iff.mp h
    obtain ⟨subagentValues, hsubV, hrest⟩ := bind_eq_some_iff.mp hrest
    obtain ⟨queueValues, hqueV, rfl⟩ := map_eq_some_iff.mp hrest
    have hents := entries_decode hpln.1 hentV
    have hsub := mapM_mapM (fun subagent hmem => subagent.decode_encode (hpln.2.1 _ hmem)) hsubV
    generalize hfie : [("entries", .array entryValues), ("subagents", .array subagentValues)] ++ skipEmpty "queue" queueValues = fields
    have hque : fieldOr [] (list SavedPrompt.decode) "queue" fields = some queue :=
      fieldOr_list (by simp [← hfie]) (mapM_mapM (fun prompt _ => prompt.decode_encode) hqueV)
    have hentsF : field (list SerializedEntry.decode) "entries" fields = some entries := by
      simp [field, list, Value.asArray, hents, ← hfie]
    have hsubF : fieldOr [] (list SavedSubagent.decode) "subagents" fields = some subagents := by
      simp [fieldOr, list, Value.asArray, hsub, ← hfie]
    have hnotA : list SerializedEntry.decode (.object fields) = none := rfl
    simp [fromSlice, hnotA, hentsF, hsubF, hque]

/-! ### What can be written -/

theorem encode_paths {paths : List PathBuf} (h : ∀ path ∈ paths, path.IsText) : ∃ values, paths.mapM PathBuf.encode = some values := by
  refine mapM_isSome fun path hmem => ?_
  obtain ⟨-, rfl⟩ := h path hmem
  exact ⟨_, rfl⟩

theorem SerializedEntry.encode_plain (entry : SerializedEntry) (h : entry.Plain) : ∃ value, entry.encode = some value := by
  cases entry with
  | user text sentAt attachments skills undelivered =>
    obtain ⟨paths, hpath⟩ := encode_paths h
    exact ⟨_, map_eq_some_iff.mpr ⟨paths, hpath, rfl⟩⟩
  | image path =>
    obtain ⟨-, rfl⟩ := h
    exact ⟨_, rfl⟩
  | assistant | thinking | tool | notice => exact ⟨_, rfl⟩

theorem encode_entries {entries : List SerializedEntry} (h : ∀ entry ∈ entries, entry.Plain) :
    ∃ values, entries.mapM SerializedEntry.encode = some values :=
  mapM_isSome fun entry hent => entry.encode_plain (h _ hent)

/-- A transcript whose paths are text can be written. -/
theorem SavedTranscript.toVec_plain (saved : SavedTranscript) (h : saved.Plain) : ∃ value, saved.toVec = some value := by
  cases saved with
  | entriesOnly entries =>
    obtain ⟨values, hvals⟩ := encode_entries h
    exact ⟨_, map_eq_some_iff.mpr ⟨values, hvals, rfl⟩⟩
  | current entries subagents queue =>
    obtain ⟨hents, hsub, hque⟩ := h
    obtain ⟨entryValues, hentV⟩ := encode_entries hents
    obtain ⟨subagentValues, hsubV⟩ : ∃ values, subagents.mapM SavedSubagent.encode = some values := by
      refine mapM_isSome fun subagent hsuba => ?_
      obtain ⟨values, hvals⟩ := encode_entries (hsub _ hsuba)
      exact ⟨_, map_eq_some_iff.mpr ⟨values, hvals, rfl⟩⟩
    obtain ⟨queueValues, hqueV⟩ : ∃ values, queue.mapM SavedPrompt.encode = some values := by
      refine mapM_isSome fun prompt hpro => ?_
      obtain ⟨paths, hpath⟩ := encode_paths (hque _ hpro)
      exact ⟨_, map_eq_some_iff.mpr ⟨paths, hpath, rfl⟩⟩
    unfold SavedTranscript.toVec
    dsimp only
    rw [hentV, hsubV, hqueV]
    exact ⟨_, rfl⟩

end Wu.Saves
