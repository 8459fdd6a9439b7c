import Wu.AgentHarness.Feed

/-!
# The text of a part

What is emitted for a text or reasoning part of the agent's, against the text that the part has on the server. The text grows, and
each growth is told by a snapshot or by a delta.
-/

namespace Wu.OpenCode.SessionFeed

open List Function

/-! ## The text on the server -/

/-- The text of a part after an update. -/
def Update.grow (p : String) (text : Str) : Update → Str
  | .partUpdated part => if part.id = some p then part.text else text
  | .partDelta _ partId delta => if partId = p then text ++ delta else text
  | .messageUpdated _ _ => text

/-- The text of a part after updates. -/
def grown (p : String) (text : Str) (updates : List Update) : Str := updates.foldl (Update.grow p) text

/-- What an update may say of a part of a message of the agent's: a snapshot has the text so far, or more of it. -/
def Update.Fits (p m kind : String) (text : Str) : Update → Prop
  | .partUpdated part => part.id = some p → part.messageId = some m ∧ part.kind = kind ∧ text <+: part.text
  | .partDelta messageId partId _ => partId = p → messageId = m
  | .messageUpdated message role => message = m → role = "assistant"

/-- The updates tell of a part whose text only grows. -/
def Grows (p m kind : String) : Str → List Update → Prop
  | _, [] => True
  | text, update :: updates => update.Fits p m kind text ∧ Grows p m kind (update.grow p text) updates

instance Update.decidableFits (p m kind : String) (text : Str) : (update : Update) → Decidable (update.Fits p m kind text)
  | .partUpdated part =>
    inferInstanceAs (Decidable (part.id = some p → part.messageId = some m ∧ part.kind = kind ∧ text <+: part.text))
  | .partDelta messageId partId _ => inferInstanceAs (Decidable (partId = p → messageId = m))
  | .messageUpdated message role => inferInstanceAs (Decidable (message = m → role = "assistant"))

instance decidableGrows (p m kind : String) : (text : Str) → (updates : List Update) → Decidable (Grows p m kind text updates)
  | _, [] => isTrue trivial
  | text, update :: updates =>
    have := decidableGrows p m kind (update.grow p text) updates
    inferInstanceAs (Decidable (update.Fits p m kind text ∧ Grows p m kind (update.grow p text) updates))

/-- Whether an update announces the role of a message. -/
def Update.announces (m : String) : Update → Bool
  | .messageUpdated message _ => message == m
  | _ => false

/-- The first snapshot of a part. -/
def firstSnapshot (p : String) (updates : List Update) : Option Part :=
  updates.findSome? fun
    | .partUpdated part => if part.id = some p then some part else none
    | _ => none

/-- The deltas of a part up to its first snapshot. -/
def nextPieces (p : String) : List Update → Str
  | [] => []
  | .partUpdated part :: updates => if part.id = some p then [] else nextPieces p updates
  | .partDelta _ partId delta :: updates => if partId = p then delta ++ nextPieces p updates else nextPieces p updates
  | .messageUpdated _ _ :: updates => nextPieces p updates

/-! ## What is delivered -/

/-- The text of an event of a kind. -/
def AgentEvent.textOf (kind : String) : AgentEvent → Str
  | .textDelta text => if kind = "text" then text else []
  | .reasoningDelta text => if kind = "reasoning" then text else []
  | _ => []

/-- The text that is emitted for a part, as a kind. -/
def delivered (p kind : String) (events : List (String × AgentEvent)) : Str :=
  events.flatMap fun event => if event.1 = p then AgentEvent.textOf kind event.2 else []

@[simp] theorem delivered_nil (p kind : String) : delivered p kind [] = [] := rfl

@[simp] theorem delivered_append (p kind : String) (events later : List (String × AgentEvent)) :
    delivered p kind (events ++ later) = delivered p kind events ++ delivered p kind later :=
  flatMap_append

variable {p q m kind k : String} {updates : List Update} {feed : SessionFeed} {state : Option PartState} {emitted : Str}

/-- The events of another part have no text of a part. -/
theorem delivered_other (h : q ≠ p) (kind : String) (events : List AgentEvent) : delivered p kind (events.map (q, ·)) = [] := by
  unfold delivered
  rw [flatMap_map, flatMap_eq_nil_iff]
  intro event _
  exact if_neg h

/-- The events of a snapshot of another part, beside its id, have no text of a part. -/
theorem delivered_snapshot_other {part : Part} (h : part.id ≠ some p) (kind : String) (feed : SessionFeed) (isMain : Bool) :
    delivered p kind ((feed.partSnapshotEvents part isMain).2.map (part.id.getD "", ·)) = [] := by
  cases hid : part.id with
  | none =>
    unfold partSnapshotEvents
    rw [hid]
    rfl
  | some q => exact delivered_other (fun heq => h (by rw [hid, ← heq]; rfl)) kind _

/-! ## Other parts -/

/-- The snapshots of a part that are held back. -/
def heldOf (p : String) (feed : SessionFeed) : List Part := feed.partsAwaitingRole.filter fun part => part.id == some p

/-- What happened to the feed leaves a part as it is. -/
structure Leaves (p : String) (feed feed' : SessionFeed) : Prop where
  parts : feed'.parts p = feed.parts p
  held : heldOf p feed' = heldOf p feed
  roles : feed'.messageIsAssistant = feed.messageIsAssistant

theorem Leaves.refl (p : String) (feed : SessionFeed) : Leaves p feed feed := ⟨rfl, rfl, rfl⟩

theorem leaves_setPart (h : q ≠ p) (feed : SessionFeed) (state : PartState) : Leaves p feed (feed.setPart q state) :=
  ⟨update_of_ne (Ne.symm h) _ _, rfl, rfl⟩

theorem leaves_holdPart (h : q ≠ p) (feed : SessionFeed) {part : Part} (hid : part.id = some q) :
    Leaves p feed (feed.holdPart part q) := by
  unfold holdPart
  split
  · exact Leaves.refl p feed
  · refine ⟨rfl, ?_, rfl⟩
    have hne : (part.id == some p) = false := by simp [hid, h]
    unfold heldOf
    rw [filter_append, filter_cons, hne]
    exact append_nil _

theorem leaves_userText (h : q ≠ p) (feed : SessionFeed) (part : Part) (isMain : Bool) :
    Leaves p feed (feed.userText part q isMain).1 := by
  unfold userText
  dsimp only
  split
  · exact Leaves.refl p feed
  · split
    · exact Leaves.refl p feed
    · split <;> exact leaves_setPart h _ _

theorem leaves_assistantText (h : q ≠ p) (feed : SessionFeed) (part : Part) : Leaves p feed (feed.assistantText part q).1 := by
  unfold assistantText
  dsimp only
  split <;> exact leaves_setPart h _ _

/-- The snapshot of another part leaves a part as it is. -/
theorem leaves_partSnapshotEvents (feed : SessionFeed) {part : Part} (h : part.id ≠ some p) (isMain : Bool) :
    Leaves p feed (feed.partSnapshotEvents part isMain).1 := by
  unfold partSnapshotEvents
  cases hid : part.id with
  | none => exact Leaves.refl p feed
  | some q =>
    have hq : q ≠ p := fun heq => h (by rw [hid, heq])
    dsimp only
    split
    · split
      · exact leaves_holdPart hq feed hid
      · split
        · exact leaves_userText hq feed part _
        · split
          · split
            · exact leaves_holdPart hq feed hid
            · exact Leaves.refl p feed
          · exact leaves_assistantText hq feed part
    · split
      · exact leaves_setPart hq _ _
      · exact Leaves.refl p feed

theorem leaves_partDeltaEvents (h : q ≠ p) (feed : SessionFeed) (messageId : String) (delta : Str) :
    Leaves p feed (feed.partDeltaEvents messageId q delta).1 := by
  unfold partDeltaEvents
  dsimp only
  split
  · exact Leaves.refl p feed
  · split
    · exact Leaves.refl p feed
    · split <;> exact leaves_setPart h _ _

theorem Leaves.trans {a b c : SessionFeed} (h : Leaves p a b) (h' : Leaves p b c) : Leaves p a c :=
  ⟨h'.parts.trans h.parts, h'.held.trans h.held, h'.roles.trans h.roles⟩

theorem snapshots_append (isMain : Bool) (feed : SessionFeed) (parts later : List Part) : feed.snapshots isMain (parts ++ later) =
      (((feed.snapshots isMain parts).1.snapshots isMain later).1,
        (feed.snapshots isMain parts).2 ++ ((feed.snapshots isMain parts).1.snapshots isMain later).2) := by
  induction parts generalizing feed with
  | nil => rfl
  | cons part parts ih =>
    simp only [cons_append, snapshots, ih]
    rw [append_assoc]

/-- The snapshots of other parts leave a part as it is and have no text of it. -/
theorem leaves_snapshots (isMain : Bool) (feed : SessionFeed) {parts : List Part} (h : ∀ part ∈ parts, part.id ≠ some p) :
    Leaves p feed (feed.snapshots isMain parts).1 ∧ ∀ kind, delivered p kind (feed.snapshots isMain parts).2 = [] := by
  induction parts generalizing feed with
  | nil => exact ⟨Leaves.refl p feed, fun _ => rfl⟩
  | cons part parts ih =>
    obtain ⟨hpart, hpar⟩ := forall_mem_cons.mp h
    obtain ⟨hleav, hnone⟩ := ih _ hpar
    refine ⟨(leaves_partSnapshotEvents feed hpart _).trans hleav, ?_⟩
    intro kind
    simp only [snapshots, delivered_append, hnone, append_nil]
    exact delivered_snapshot_other hpart kind _ _

/-- A feed that knows the role of a message and has let go of the message's parts. -/
def released (feed : SessionFeed) (message role : String) : SessionFeed where
  messageIsAssistant := (feed.announce message role).messageIsAssistant
  partsAwaitingRole := feed.partsAwaitingRole.filter fun part => !(part.messageId == some message)
  parts := feed.parts

/-- The role of a message: the parts of the message that are held back are taken. -/
theorem handle_messageUpdated (isMain : Bool) (feed : SessionFeed) (message role : String) :
    feed.handle isMain (.messageUpdated message role) = (feed.released message role).snapshots isMain
        (feed.partsAwaitingRole.filter fun part => part.messageId == some message) := by
  simp only [handle, replayPending, partition_eq_filter_filter]
  rfl

/-! ## Before the role is announced -/

/-- The role of the part's message is not known: at most the part's first snapshot is held. -/
structure Waiting (p m kind : String) (first : Option Part) (feed : SessionFeed) : Prop where
  unknown : feed.messageIsAssistant m = none
  fresh : feed.parts p = none
  held : heldOf p feed = first.toList
  fits : ∀ part ∈ first, part.messageId = some m ∧ part.kind = kind

/-- The snapshot of a part in an update. -/
def Update.snapshot (p : String) : Update → Option Part
  | .partUpdated part => if part.id = some p then some part else none
  | _ => none

namespace Waiting

variable {p m kind : String} {first : Option Part} {feed feed' : SessionFeed}

section

variable (h : Waiting p m kind first feed)
include h

theorem of_leaves (hl : Leaves p feed feed') : Waiting p m kind first feed' :=
  ⟨by rw [hl.roles]; exact h.unknown, by rw [hl.parts]; exact h.fresh, by rw [hl.held]; exact h.held, h.fits⟩

/-- A held snapshot of the part is one of the message. -/
theorem messageId_of_held {part : Part} (hpart : part ∈ feed.partsAwaitingRole)
    (hid : part.id = some p) : part.messageId = some m := by
  have hmem : part ∈ heldOf p feed := mem_filter.mpr ⟨hpart, by simp [hid]⟩
  rw [h.held, Option.mem_toList] at hmem
  exact (h.fits part hmem).1

/-- The role of another message is no concern of the part. -/
theorem announce_other {message : String} (hne : message ≠ m) (role : String) (isMain : Bool) :
    Waiting p m kind first (feed.handle isMain (.messageUpdated message role)).1 ∧
      ∀ k, delivered p k (feed.handle isMain (.messageUpdated message role)).2 = [] := by
  rw [handle_messageUpdated]
  have hoth : ∀ part ∈ feed.partsAwaitingRole.filter fun part => part.messageId == some message, part.id ≠ some p := by
    intro part hpart hid
    obtain ⟨hmem, hmsg⟩ := mem_filter.mp hpart
    have hm := h.messageId_of_held hmem hid
    rw [hm] at hmsg
    exact hne (Option.some.inj (eq_of_beq hmsg)).symm
  obtain ⟨hleav, hnone⟩ := leaves_snapshots _ _ hoth
  have hrel : Waiting p m kind first (feed.released message role) := by
    refine ⟨(update_of_ne (Ne.symm hne) _ _).trans h.unknown, h.fresh, ?_, h.fits⟩
    rw [← h.held]
    unfold heldOf released
    rw [filter_filter]
    refine filter_congr ?_
    intro part hpart
    by_cases hid : part.id = some p
    · simp [hid, h.messageId_of_held hpart, Ne.symm hne]
    · simp [hid]
  exact ⟨hrel.of_leaves hleav, hnone⟩

/-- A snapshot of the part is held back, where there is none. -/
theorem hold {part : Part} (hid : part.id = some p) (hm : part.messageId = some m)
    (hk : part.kind = kind) : Waiting p m kind (first.or (some part)) (feed.holdPart part p) := by
  have hany : (feed.partsAwaitingRole.any fun held => held.id == some p) = (heldOf p feed).any fun _ => true := by
    unfold heldOf
    rw [any_filter]
    simp
  rw [h.held] at hany
  unfold holdPart
  rw [hany]
  cases hf : first with
  | some held =>
    rw [hf] at h
    exact h
  | none =>
    refine ⟨h.unknown, h.fresh, ?_, ?_⟩
    · have hheld : feed.partsAwaitingRole.filter (fun part => part.id == some p) = [] := by
        rw [hf] at h
        exact h.held
      unfold heldOf
      simp [filter_append, hheld, hid]
    · rintro part ⟨⟩
      exact ⟨hm, hk⟩

/-- Before the role is announced nothing is emitted for the part, and its first snapshot is held. -/
theorem step (hkind : kind = "text" ∨ kind = "reasoning") {text : Str} {update : Update}
    (hfit : update.Fits p m kind text) (hrole : update.announces m = false) (isMain : Bool) :
    Waiting p m kind (first.or (update.snapshot p)) (feed.handle isMain update).1 ∧
      ∀ k, delivered p k (feed.handle isMain update).2 = [] := by
  cases update with
  | messageUpdated message role =>
    have hne : message ≠ m := ne_of_beq_false hrole
    simpa [Update.snapshot] using h.announce_other hne role _
  | partUpdated part =>
    by_cases hid : part.id = some p
    · obtain ⟨hm, hk, -⟩ := hfit hid
      have hhold : feed.partSnapshotEvents part isMain = (feed.holdPart part p, []) := by
        unfold partSnapshotEvents
        rw [hid, hm, hk]
        dsimp only [Option.getD_some]
        rw [h.unknown]
        rcases hkind with rfl | rfl <;> rfl
      simp only [handle, hhold, Update.snapshot, if_pos hid]
      exact ⟨h.hold hid hm hk, fun _ => rfl⟩
    · simp only [handle, Update.snapshot, if_neg hid, Option.or_none]
      exact ⟨h.of_leaves (leaves_partSnapshotEvents feed hid _), fun k => delivered_snapshot_other hid k feed _⟩
  | partDelta messageId partId delta =>
    simp only [handle, Update.snapshot, Option.or_none]
    by_cases hid : partId = p
    · have hm : messageId = m := hfit hid
      have hdrop : feed.partDeltaEvents messageId partId delta = (feed, []) := by
        unfold partDeltaEvents
        rw [hm, h.unknown]
        split <;> rfl
      rw [hdrop]
      exact ⟨h, fun _ => rfl⟩
    · exact ⟨h.of_leaves (leaves_partDeltaEvents hid feed _ _), fun k => delivered_other hid k _⟩

end

end Waiting

/-- The first snapshot of updates is that of the first update, or that of the others. -/
theorem firstSnapshot_cons (p : String) (update : Update) (updates : List Update) :
    firstSnapshot p (update :: updates) = (update.snapshot p).or (firstSnapshot p updates) := by
  cases update with
  | messageUpdated message role => rfl
  | partUpdated part =>
    unfold firstSnapshot Update.snapshot
    by_cases hid : part.id = some p <;> simp [hid]
  | partDelta messageId partId delta => rfl

/-- Before the role is announced nothing is emitted for the part, and its first snapshot is held, along a run. -/
theorem Waiting.run (hkind : kind = "text" ∨ kind = "reasoning") (isMain : Bool)
    {first : Option Part} (h : Waiting p m kind first feed) {text : Str}
    (hgrow : Grows p m kind text updates) (hrole : ∀ update ∈ updates, update.announces m = false) :
    Waiting p m kind (first.or (firstSnapshot p updates)) (feed.run isMain updates).1 ∧
      ∀ k, delivered p k (feed.run isMain updates).2 = [] := by
  induction updates generalizing first feed text with
  | nil => simpa [firstSnapshot, SessionFeed.run] using h
  | cons update updates ih =>
    obtain ⟨hfit, hgrow⟩ := hgrow
    obtain ⟨hhead, hrole⟩ := forall_mem_cons.mp hrole
    obtain ⟨hstep, hnone⟩ := h.step hkind hfit hhead _
    obtain ⟨hrun, hlat⟩ := ih hstep hgrow hrole
    rw [Option.or_assoc, ← firstSnapshot_cons] at hrun
    refine ⟨hrun, ?_⟩
    intro k
    simp only [SessionFeed.run, delivered_append, hnone, hlat, append_nil]

/-! ## After the role is announced -/

/-- The role of the part's message is known: what the feed knows of the part. -/
structure Following (p m : String) (state : Option PartState) (feed : SessionFeed) : Prop where
  known : feed.messageIsAssistant m = some true
  part : feed.parts p = state
  held : heldOf p feed = []

/-- What a part's text is emitted as. -/
theorem textOf_emitted (hkind : kind = "text" ∨ kind = "reasoning") (hk : k = "text" ∨ k = "reasoning") (text : Str) :
    AgentEvent.textOf kind (if k == "reasoning" then .reasoningDelta text else .textDelta text) = if k = kind then text else [] := by
  rcases hkind with rfl | rfl <;> rcases hk with rfl | rfl <;> rfl

theorem delivered_single (p kind : String) (event : AgentEvent) :
    delivered p kind ([event].map (p, ·)) = AgentEvent.textOf kind event := by
  simp [delivered]

namespace Following

variable {p m kind : String} {state : Option PartState} {feed feed' : SessionFeed}

section

variable (h : Following p m state feed)
include h

theorem of_leaves (hl : Leaves p feed feed') : Following p m state feed' :=
  ⟨by rw [hl.roles]; exact h.known, by rw [hl.parts]; exact h.part, by rw [hl.held]; exact h.held⟩

/-- A role is no concern of the part any more. -/
theorem announce (message role : String) (isMain : Bool) : Following p m state (feed.handle isMain (.messageUpdated message role)).1 ∧
      ∀ k, delivered p k (feed.handle isMain (.messageUpdated message role)).2 = [] := by
  rw [handle_messageUpdated]
  have hnone : ∀ part ∈ feed.partsAwaitingRole, part.id ≠ some p := by
    intro part hpart hid
    have hmem : part ∈ heldOf p feed := mem_filter.mpr ⟨hpart, by simp [hid]⟩
    rw [h.held] at hmem
    nomatch hmem
  have hoth : ∀ part ∈ feed.partsAwaitingRole.filter fun part => part.messageId == some message, part.id ≠ some p :=
    fun part hpart => hnone part (mem_filter.mp hpart).1
  obtain ⟨hleav, hemp⟩ := leaves_snapshots _ _ hoth
  have hrel : Following p m state (feed.released message role) := by
    refine ⟨?_, h.part, ?_⟩
    · unfold released SessionFeed.announce
      dsimp only
      by_cases heq : message = m
      · rw [heq, update_self, h.known]
        rfl
      · exact (update_of_ne (Ne.symm heq) _ _).trans h.known
    · refine filter_eq_nil_iff.mpr ?_
      intro part hpart
      simpa using hnone part (mem_filter.mp hpart).1
  exact ⟨hrel.of_leaves hleav, hemp⟩

/-- A snapshot of the part, taken: what has not been emitted of its text is. -/
theorem assistantText_eq {part : Part} (hm : part.messageId = some m) (hid : part.id = some p)
    (hk : part.kind = kind) (hkind : kind = "text" ∨ kind = "reasoning") (isMain : Bool) :
    feed.partSnapshotEvents part isMain = feed.assistantText part p := by
  unfold partSnapshotEvents
  rw [hid, hm, hk]
  dsimp only [Option.getD_some]
  rw [h.known]
  rcases hkind with rfl | rfl <;> rfl

theorem setPart (state' : PartState) : Following p m (some state') (feed.setPart p state') :=
  ⟨h.known, update_self .., h.held⟩

/-- The state of the part, or of a new one. -/
theorem entry_eq (k : String) : feed.entry p k = state.getD { kind := k } := by
  rw [entry, h.part]

/-- A snapshot of the part: what follows what has been emitted is emitted, where the text goes on from there. -/
theorem snapshot {part : Part} (hm : part.messageId = some m) (hid : part.id = some p)
    (hk : part.kind = kind) (hkind : kind = "text" ∨ kind = "reasoning") {entry : PartState}
    (hent : state.getD { kind } = entry) (hek : entry.kind = "text" ∨ entry.kind = "reasoning") {before after : Str}
    (htext : part.text = before ++ after) (hlen : entry.emitted = before.len) (isMain : Bool) :
    Following p m (some { entry with emitted := part.text.len }) (feed.handle isMain (.partUpdated part)).1 ∧
      delivered p kind (feed.handle isMain (.partUpdated part)).2 = if entry.kind = kind then after else [] := by
  have hfrom : getFrom part.text entry.emitted = some after := by
    rw [htext, hlen, getFrom, Str.splitAt_append]
    rfl
  simp only [handle, h.assistantText_eq hm hid hk hkind, assistantText, h.entry_eq, hk, hent, hfrom]
  cases haft : after with
  | nil =>
    have hsame : entry.emitted = part.text.len := by rw [hlen, htext, haft, append_nil]
    simp only [Option.filter, isEmpty_nil, Bool.not_true, Bool.false_eq_true, if_false, map_nil, delivered_nil, ite_self, and_true]
    rw [← hsame]
    exact h.setPart _
  | cons c rest =>
    simp only [Option.filter, isEmpty_cons, Bool.not_false, if_true]
    refine ⟨h.setPart _, ?_⟩
    rw [hid, Option.getD_some, delivered_single, textOf_emitted hkind hek]

/-- A snapshot of the part, whatever it says: the feed knows the part from then on. -/
theorem snapshot_kind {part : Part} (hm : part.messageId = some m) (hid : part.id = some p)
    (hk : part.kind = kind) (hkind : kind = "text" ∨ kind = "reasoning") {entry : PartState}
    (hent : state.getD { kind } = entry) (hek : entry.kind = "text" ∨ entry.kind = "reasoning") (isMain : Bool) :
    (∃ entry', entry'.kind = entry.kind ∧ Following p m (some entry') (feed.handle isMain (.partUpdated part)).1) ∧
      (entry.kind ≠ kind → delivered p kind (feed.handle isMain (.partUpdated part)).2 = []) := by
  simp only [handle, h.assistantText_eq hm hid hk hkind, assistantText, h.entry_eq, hk, hent]
  split
  · exact ⟨⟨entry, rfl, h.setPart _⟩, fun _ => rfl⟩
  · refine ⟨⟨{ entry with emitted := part.text.len }, rfl, h.setPart _⟩, ?_⟩
    intro hne
    rw [hid, Option.getD_some, delivered_single, textOf_emitted hkind hek, if_neg hne]

/-- A delta of the part. -/
theorem delta (hkind : kind = "text" ∨ kind = "reasoning") {entry : PartState}
    (hent : state.getD { kind := "text" } = entry) (hek : entry.kind = "text" ∨ entry.kind = "reasoning") {piece : Str}
    (hpie : piece ≠ []) (isMain : Bool) :
    Following p m (some { entry with emitted := entry.emitted + piece.len }) (feed.handle isMain (.partDelta m p piece)).1 ∧
      delivered p kind (feed.handle isMain (.partDelta m p piece)).2 = if entry.kind = kind then piece else [] := by
  have hemp : piece.isEmpty = false := isEmpty_eq_false_iff.mpr hpie
  have htool : (entry.kind == "tool") = false := by rcases hek with he | he <;> rw [he] <;> rfl
  simp only [handle, partDeltaEvents, hemp, h.known, h.entry_eq, hent, htool, bne_self_eq_false, Bool.false_eq_true, if_false]
  refine ⟨h.setPart _, ?_⟩
  rw [delivered_single, textOf_emitted hkind hek]

theorem delta_nil (messageId partId : String) (isMain : Bool) :
    Following p m state (feed.handle isMain (.partDelta messageId partId [])).1 ∧
      ∀ k, delivered p k (feed.handle isMain (.partDelta messageId partId [])).2 = [] :=
  ⟨h, fun _ => rfl⟩

/-- An update that says nothing of the part. -/
theorem other {update : Update} (hs : update.snapshot p = none)
    (hd : ∀ messageId delta, update ≠ .partDelta messageId p delta) (isMain : Bool) :
    Following p m state (feed.handle isMain update).1 ∧ ∀ k, delivered p k (feed.handle isMain update).2 = [] := by
  cases update with
  | messageUpdated message role => exact h.announce _ role _
  | partUpdated part =>
    have hid : part.id ≠ some p := by
      intro hid
      simp [Update.snapshot, hid] at hs
    exact ⟨h.of_leaves (leaves_partSnapshotEvents feed hid _), fun k => delivered_snapshot_other hid k feed _⟩
  | partDelta messageId partId delta =>
    have hid : partId ≠ p := fun hid => hd _ _ (by rw [hid])
    exact ⟨h.of_leaves (leaves_partDeltaEvents hid feed _ _), fun k => delivered_other hid k _⟩

end

end Following

/-- An update is a snapshot of the part, a delta of it, or says nothing of it. -/
theorem Update.cases_of (p : String) (update : Update) :
    (∃ part, update = .partUpdated part ∧ part.id = some p) ∨ (∃ messageId delta, update = .partDelta messageId p delta) ∨
      (update.snapshot p = none ∧ ∀ messageId delta, update ≠ .partDelta messageId p delta) := by
  cases update with
  | messageUpdated message role => exact .inr (.inr ⟨rfl, nofun⟩)
  | partUpdated part =>
    by_cases hid : part.id = some p
    · exact .inl ⟨part, rfl, hid⟩
    · exact .inr (.inr ⟨if_neg hid, nofun⟩)
  | partDelta messageId partId delta =>
    by_cases hid : partId = p
    · exact .inr (.inl ⟨messageId, delta, by rw [hid]⟩)
    · refine .inr (.inr ⟨rfl, ?_⟩)
      rintro - - ⟨⟩
      exact hid rfl

/-- An update that says nothing of a part does not make it grow. -/
theorem grow_other {update : Update} (hs : update.snapshot p = none)
    (hd : ∀ messageId delta, update ≠ .partDelta messageId p delta) (text : Str) (updates : List Update) :
    update.grow p text = text ∧ nextPieces p (update :: updates) = nextPieces p updates := by
  cases update with
  | messageUpdated message role => exact ⟨rfl, rfl⟩
  | partUpdated part =>
    have hid : part.id ≠ some p := by
      intro hid
      simp [Update.snapshot, hid] at hs
    exact ⟨if_neg hid, if_neg hid⟩
  | partDelta messageId partId delta =>
    have hid : partId ≠ p := fun hid => hd _ _ (by rw [hid])
    exact ⟨if_neg hid, if_neg hid⟩

/-- A text that grows keeps what it has. -/
theorem Grows.isPrefix {text : Str} (h : Grows p m kind text updates) : text <+: grown p text updates := by
  induction updates generalizing text with
  | nil => exact prefix_refl _
  | cons update updates ih =>
    obtain ⟨hfit, hgrow⟩ := h
    have hlat := ih hgrow
    refine List.IsPrefix.trans ?_ hlat
    rcases update.cases_of p with ⟨part, rfl, hid⟩ | ⟨messageId, delta, rfl⟩ | ⟨hs, hd⟩
    · simp only [Update.grow, if_pos hid]
      exact (hfit hid).2.2
    · rw [show (Update.partDelta messageId p delta).grow p text = text ++ delta from if_pos rfl]
      exact prefix_append _ _
    · exact ⟨[], (append_nil _).trans (grow_other hs hd text updates).1.symm⟩

/-- What goes to a part that is filed as the other kind is not delivered as its own. -/
theorem misfiled_run (hkind : kind = "text" ∨ kind = "reasoning") (isMain : Bool)
    {entry : PartState} (hek : entry.kind = "text" ∨ entry.kind = "reasoning") (hne : entry.kind ≠ kind)
    (h : Following p m (some entry) feed) {text : Str} (hgrow : Grows p m kind text updates) :
    delivered p kind (feed.run isMain updates).2 = [] := by
  induction updates generalizing entry feed text with
  | nil => rfl
  | cons update updates ih =>
    obtain ⟨hfit, hgrow⟩ := hgrow
    simp only [SessionFeed.run, delivered_append]
    rcases update.cases_of p with ⟨part, rfl, hid⟩ | ⟨messageId, delta, rfl⟩ | ⟨hs, hd⟩
    · obtain ⟨hm, hk, -⟩ := hfit hid
      obtain ⟨⟨entry', hsame, hnext⟩, hnone⟩ := h.snapshot_kind hm hid hk hkind rfl hek _
      rw [hnone hne, ih (by rw [hsame]; exact hek) (by rw [hsame]; exact hne) hnext hgrow, append_nil]
    · obtain rfl : messageId = m := hfit rfl
      by_cases hpie : delta = []
      · subst hpie
        obtain ⟨hnext, hnone⟩ := h.delta_nil _ p _
        rw [hnone, ih hek hne hnext hgrow, append_nil]
      · obtain ⟨hnext, hnone⟩ := h.delta hkind rfl hek hpie _
        rw [Option.getD_some, if_neg hne] at hnone
        rw [hnone, ih (by exact hek) (by exact hne) hnext hgrow, append_nil]
    · obtain ⟨hnext, hnone⟩ := h.other hs hd _
      rw [hnone, ih hek hne hnext hgrow, append_nil]

/-- The feed knows how much of a part has been emitted, as its kind. -/
def Right (kind : String) (state : Option PartState) (emitted : Str) : Prop :=
  state = none ∧ emitted = [] ∨ ∃ entry, state = some entry ∧ entry.kind = kind ∧ entry.emitted = emitted.len

/-- What the updates after the announcement must be for a part's text to be whole: what has been emitted, and the deltas up to the
next snapshot, are a beginning of the text; and the first that is emitted of a reasoning comes with a snapshot. -/
def Whole (p kind : String) (state : Option PartState) (emitted text : Str) (updates : List Update) : Prop :=
  (if (firstSnapshot p updates).isSome then emitted ++ nextPieces p updates <+: text ++ nextPieces p updates else emitted = text) ∧
    (kind = "reasoning" → state = none → nextPieces p updates = [])

/-- The state of a part whose kind is known, or of a new one. -/
theorem Right.entry (h : Right kind state emitted)
    (hk : state = none → k = kind) : (state.getD { kind := k }).kind = kind ∧ (state.getD { kind := k }).emitted = emitted.len := by
  rcases h with ⟨rfl, rfl⟩ | ⟨entry, rfl, hkind, hlen⟩
  · exact ⟨hk rfl, rfl⟩
  · exact ⟨hkind, hlen⟩

theorem whole_self (p kind : String) {entry : PartState} (text : Str) (updates : List Update) :
    Whole p kind (some entry) text text updates := by
  refine ⟨?_, nofun⟩
  split
  · exact prefix_refl _
  · rfl

/-- Where a snapshot is next, the text is whole when what has been emitted is a beginning of it. -/
theorem whole_snapshot {text : Str} {part : Part} (hid : part.id = some p) (updates : List Update) :
    Whole p kind state emitted text (.partUpdated part :: updates) ↔ emitted <+: text := by
  unfold Whole
  rw [firstSnapshot_cons]
  simp [Update.snapshot, nextPieces, hid]

/-- A delta that is emitted adds to what has been emitted and to the text. -/
theorem whole_delta {entry : PartState} {text : Str} (piece : Str) (hrt : kind = "reasoning" → state ≠ none) (updates : List Update) :
    Whole p kind state emitted text (.partDelta m p piece :: updates) ↔
      Whole p kind (some entry) (emitted ++ piece) (text ++ piece) updates := by
  have hpiec : nextPieces p (.partDelta m p piece :: updates) = piece ++ nextPieces p updates := if_pos rfl
  unfold Whole
  rw [hpiec, and_iff_left (fun hk hs => absurd hs (hrt hk)), and_iff_left (fun _ => nofun),
    append_left_inj, append_assoc, append_assoc]
  rfl

/-- After the announcement the text of a part is whole in the end exactly when the updates are so. -/
theorem following_run (hkind : kind = "text" ∨ kind = "reasoning") (isMain : Bool) (h : Following p m state feed) {text : Str}
    (hrt : Right kind state emitted) (hlen : emitted.length ≤ text.length) (hgro : Grows p m kind text updates) :
    emitted ++ delivered p kind (feed.run isMain updates).2 = grown p text updates ↔ Whole p kind state emitted text updates := by
  induction updates generalizing state feed emitted text with
  | nil => simp [SessionFeed.run, grown, Whole, firstSnapshot, nextPieces]
  | cons update updates ih =>
    obtain ⟨hfit, hgro⟩ := hgro
    have hrun : delivered p kind (feed.run isMain (update :: updates)).2 =
        delivered p kind (feed.handle isMain update).2 ++ delivered p kind ((feed.handle isMain update).1.run isMain updates).2 := by
      simp only [SessionFeed.run, delivered_append]
    have hgrown : grown p text (update :: updates) = grown p (update.grow p text) updates := rfl
    rw [hrun, hgrown]
    rcases update.cases_of p with ⟨part, rfl, hid⟩ | ⟨messageId, piece, rfl⟩ | ⟨hs, hd⟩
    · obtain ⟨hm, hk, hpre⟩ := hfit hid
      have hgrow : Update.grow p text (.partUpdated part) = part.text := if_pos hid
      rw [hgrow] at hgro ⊢
      obtain ⟨hek, hel⟩ := hrt.entry fun _ => rfl
      rw [whole_snapshot hid]
      by_cases hE : emitted <+: text
      · obtain ⟨after, haft⟩ := hE.trans hpre
        obtain ⟨hnext, hsome⟩ := h.snapshot hm hid hk hkind rfl (by rw [hek]; exact hkind) haft.symm hel _
        rw [hsome, if_pos hek, ← append_assoc, haft, ih hnext (.inr ⟨_, rfl, hek, rfl⟩) le_rfl hgro]
        exact iff_of_true (whole_self ..) hE
      · refine iff_of_false ?_ hE
        intro heq
        have hlgr : text <+: grown p part.text updates := hpre.trans hgro.isPrefix
        rw [← heq] at hlgr
        exact hE (prefix_of_prefix_length_le (prefix_append _ _) hlgr hlen)
    · obtain rfl : messageId = m := hfit rfl
      have hgrow : Update.grow p text (.partDelta messageId p piece) = text ++ piece := if_pos rfl
      rw [hgrow] at hgro ⊢
      have hlen' : (emitted ++ piece).length ≤ (text ++ piece).length := by
        rw [length_append, length_append]
        exact Nat.add_le_add_right hlen _
      by_cases hpie : piece = []
      · subst hpie
        obtain ⟨hnext, hnone⟩ := h.delta_nil _ p _
        rw [append_nil] at hgro ⊢
        rw [hnone, nil_append, ih hnext hrt hlen hgro]
        unfold Whole
        rw [firstSnapshot_cons]
        simp [Update.snapshot, nextPieces]
      · by_cases hwro : kind = "reasoning" ∧ state = none
        · -- A new part is taken for a text.
          obtain ⟨rfl, rfl⟩ := hwro
          obtain ⟨hnext, hnone⟩ := h.delta hkind rfl (.inl rfl) hpie _
          have hemp : emitted = [] := by
            rcases hrt with ⟨-, hemp⟩ | ⟨_, hsta, -⟩
            · exact hemp
            · nomatch hsta
          rw [hnone, misfiled_run hkind _ (by exact .inl rfl) (show "text" ≠ "reasoning" by decide) hnext hgro, hemp]
          refine iff_of_false ?_ ?_
          · intro heq
            have hlgr := hgro.isPrefix
            rw [← heq] at hlgr
            simp [hpie] at hlgr
          · rintro ⟨-, hnext⟩
            have hnil := hnext rfl rfl
            simp [nextPieces, hpie] at hnil
        · obtain ⟨hek, hel⟩ := hrt.entry fun hsta => by
            rcases hkind with hk | hk
            · exact hk.symm
            · exact absurd ⟨hk, hsta⟩ hwro
          obtain ⟨hnext, hsome⟩ := h.delta hkind rfl (by rw [hek]; exact hkind) hpie _
          rw [hsome, if_pos hek, ← append_assoc,
            ih hnext (.inr ⟨_, rfl, hek, by rw [Str.len_append]; exact congrArg (· + piece.len) hel⟩) hlen' hgro]
          exact (whole_delta _ (fun hk hs => hwro ⟨hk, hs⟩) _).symm
    · obtain ⟨hnext, hnone⟩ := h.other hs hd _
      obtain ⟨hgrow, hpiec⟩ := grow_other hs hd text _
      rw [hgrow] at hgro ⊢
      rw [hnone, nil_append, ih hnext hrt hlen hgro]
      unfold Whole
      rw [hpiec, firstSnapshot_cons, hs, Option.none_or]

/-! ## The announcement -/

/-- What has been emitted of a part once its message's role is announced: the first snapshot that was held. -/
def shown (first : Option Part) : Str := (first.map Part.text).getD []

theorem snapshots_cons (isMain : Bool) (feed : SessionFeed) (part : Part) (parts : List Part) :
    feed.snapshots isMain (part :: parts) = (((feed.handle isMain (.partUpdated part)).1.snapshots isMain parts).1,
        (feed.handle isMain (.partUpdated part)).2 ++ ((feed.handle isMain (.partUpdated part)).1.snapshots isMain parts).2) := rfl

/-- The announcement: the held snapshot is taken. -/
theorem Waiting.announce (hkind : kind = "text" ∨ kind = "reasoning") {first : Option Part}
    (h : Waiting p m kind first feed) (isMain : Bool) :
    ∃ state, Following p m state (feed.handle isMain (.messageUpdated m "assistant")).1 ∧ Right kind state (shown first) ∧
      delivered p kind (feed.handle isMain (.messageUpdated m "assistant")).2 = shown first ∧
      (state = none ↔ first = none) := by
  rw [handle_messageUpdated]
  have hheld : (feed.partsAwaitingRole.filter fun part => part.messageId == some m).filter (fun part => part.id == some p) =
      first.toList := by
    rw [filter_filter, ← h.held]
    refine filter_congr ?_
    intro part hpart
    by_cases hid : part.id = some p
    · simp [hid, h.messageId_of_held hpart]
    · simp [hid]
  have hrel : Following p m none (feed.released m "assistant") := by
    refine ⟨?_, h.fresh, ?_⟩
    · unfold released SessionFeed.announce
      dsimp only
      rw [update_self, h.unknown]
      rfl
    · refine filter_eq_nil_iff.mpr ?_
      intro part hpart
      obtain ⟨hmem, hm⟩ := mem_filter.mp hpart
      intro hid
      rw [h.messageId_of_held hmem (eq_of_beq hid)] at hm
      simp at hm
  generalize feed.partsAwaitingRole.filter (fun part => part.messageId == some m) = held at hheld
  cases hf : first with
  | none =>
    rw [hf] at hheld
    have hoth : ∀ part ∈ held, part.id ≠ some p := by
      intro part hpart hid
      exact filter_eq_nil_iff.mp hheld part hpart (by simp [hid])
    obtain ⟨hleav, hnone⟩ := leaves_snapshots _ _ hoth
    exact ⟨none, hrel.of_leaves hleav, .inl ⟨rfl, rfl⟩, hnone kind, iff_of_true rfl rfl⟩
  | some part =>
    rw [hf] at hheld h
    obtain ⟨hm, hk⟩ := h.fits part rfl
    obtain ⟨before, after, rfl, hbef, hid, haft⟩ := filter_eq_cons_iff.mp hheld
    have hid : part.id = some p := eq_of_beq hid
    have hbef : ∀ part ∈ before, part.id ≠ some p := fun part hpart heq => hbef part hpart (by simp [heq])
    have haft : ∀ part ∈ after, part.id ≠ some p := by
      intro part hpart heq
      exact filter_eq_nil_iff.mp haft part hpart (by simp [heq])
    rw [snapshots_append, snapshots_cons]
    obtain ⟨hleav, hnone⟩ := leaves_snapshots _ _ hbef
    obtain ⟨hpart, hsome⟩ := (hrel.of_leaves hleav).snapshot hm hid hk hkind rfl hkind (nil_append _).symm rfl _
    obtain ⟨hleav', hnone'⟩ := leaves_snapshots _ _ haft
    refine ⟨_, hpart.of_leaves hleav', .inr ⟨_, rfl, rfl, rfl⟩, ?_, iff_of_false nofun nofun⟩
    rw [delivered_append, delivered_append, hnone, hnone', hsome, Option.getD_none, if_pos rfl, append_nil]
    rfl

/-! ## The text of a part, delivered -/

/-- The updates before the announcement of a message's role, and those after it. -/
def beforeRole (m : String) (updates : List Update) : List Update := updates.takeWhile fun update => !update.announces m

def afterRole (m : String) (updates : List Update) : List Update := (updates.dropWhile fun update => !update.announces m).tail

/-- The text of a part is not broken by the announcement of its message's role: what was held of it, with the deltas up to the
next snapshot, is a beginning of the part's text with them (or all of the text, where no snapshot is next); and where no
snapshot of a reasoning is held, none of its deltas comes before the next one. -/
def Unbroken (p m kind : String) (updates : List Update) : Prop :=
  let held := firstSnapshot p (beforeRole m updates)
  let text := grown p [] (beforeRole m updates)
  let pieces := nextPieces p (afterRole m updates)
  (if (firstSnapshot p (afterRole m updates)).isSome then shown held ++ pieces <+: text ++ pieces else shown held = text) ∧
    (kind = "reasoning" → held = none → pieces = [])

instance (p m kind : String) (updates : List Update) : Decidable (Unbroken p m kind updates) :=
  have : Decidable (firstSnapshot p (beforeRole m updates) = none) := decidable_of_iff _ Option.isNone_iff_eq_none
  inferInstanceAs (Decidable (_ ∧ (kind = "reasoning" → firstSnapshot p (beforeRole m updates) = none → _)))

theorem grows_append {later : List Update} {text : Str} (h : Grows p m kind text (updates ++ later)) :
    Grows p m kind text updates ∧ Grows p m kind (grown p text updates) later := by
  induction updates generalizing text with
  | nil => exact ⟨trivial, h⟩
  | cons update updates ih =>
    obtain ⟨hfit, hgrow⟩ := h
    obtain ⟨hupd, hlat⟩ := ih hgrow
    exact ⟨⟨hfit, hupd⟩, hlat⟩

/-- The first snapshot has a text that the part's text begins with. -/
theorem shown_isPrefix {text : Str} (h : Grows p m kind text updates) : shown (firstSnapshot p updates) <+: grown p text updates := by
  induction updates generalizing text with
  | nil => exact nil_prefix
  | cons update updates ih =>
    obtain ⟨-, hgro⟩ := h
    rw [firstSnapshot_cons]
    rcases update.cases_of p with ⟨part, rfl, hid⟩ | ⟨messageId, delta, rfl⟩ | ⟨hs, hd⟩
    · have hgrow : Update.grow p text (.partUpdated part) = part.text := if_pos hid
      rw [hgrow] at hgro
      simp only [Update.snapshot, if_pos hid, Option.some_or, shown, Option.map_some, Option.getD_some, grown, foldl_cons, hgrow]
      exact hgro.isPrefix
    · exact ih hgro
    · rw [hs]
      exact ih hgro

theorem run_append (isMain : Bool) (feed : SessionFeed) (updates later : List Update) : feed.run isMain (updates ++ later) =
      (((feed.run isMain updates).1.run isMain later).1,
        (feed.run isMain updates).2 ++ ((feed.run isMain updates).1.run isMain later).2) := by
  induction updates generalizing feed with
  | nil => rfl
  | cons update updates ih =>
    simp only [cons_append, SessionFeed.run, ih]
    rw [append_assoc]

/-- The updates are those before the announcement, the announcement, and those after it. -/
theorem split_at_role {text : Str} (hgrow : Grows p m kind text updates) (hrole : ∃ update ∈ updates, update.announces m = true) :
    updates = beforeRole m updates ++ .messageUpdated m "assistant" :: afterRole m updates := by
  induction updates generalizing text with
  | nil =>
    obtain ⟨update, hmem, -⟩ := hrole
    nomatch hmem
  | cons update updates ih =>
    obtain ⟨hfit, hgrow⟩ := hgrow
    unfold beforeRole afterRole
    by_cases hhead : update.announces m = true
    · have hanno : update = .messageUpdated m "assistant" := by
        cases update with
        | messageUpdated message role =>
          obtain rfl : message = m := eq_of_beq hhead
          rw [hfit rfl]
        | partUpdated part => nomatch hhead
        | partDelta messageId partId delta => nomatch hhead
      subst hanno
      simp [Update.announces]
    · have hlat : ∃ update ∈ updates, update.announces m = true := by
        obtain ⟨other, hmem, hann⟩ := hrole
        rcases mem_cons.mp hmem with rfl | hmem
        · exact absurd hann hhead
        · exact ⟨other, hmem, hann⟩
      rw [takeWhile_cons_of_pos (by simp [hhead]), dropWhile_cons_of_pos (by simp [hhead])]
      exact congrArg _ (ih hgrow hlat)

theorem waiting_new (p m kind : String) : Waiting p m kind none {} := ⟨rfl, rfl, rfl, nofun⟩

theorem not_announces_beforeRole (m : String) (updates : List Update) :
    ∀ update ∈ beforeRole m updates, update.announces m = false := by
  intro update hmem
  have hnot := mem_takeWhile_imp hmem
  simpa using hnot

/-- The text of a part is delivered as it is exactly when the announcement does not break it. -/
theorem delivered_iff (hkind : kind = "text" ∨ kind = "reasoning") (isMain : Bool)
    (hgrow : Grows p m kind [] updates) (hrole : ∃ update ∈ updates, update.announces m = true) :
    delivered p kind (SessionFeed.run isMain {} updates).2 = grown p [] updates ↔ Unbroken p m kind updates := by
  have hspl := split_at_role hgrow hrole
  have hgrow' := hgrow
  rw [hspl] at hgrow'
  obtain ⟨hbef, -, haft⟩ := grows_append hgrow'
  have hgro : grown p [] updates = grown p (grown p [] (beforeRole m updates)) (afterRole m updates) := by
    conv_lhs => rw [hspl]
    unfold grown
    rw [foldl_append]
    rfl
  obtain ⟨hwait, hnone⟩ := (waiting_new p m kind).run hkind _ hbef (not_announces_beforeRole m _)
  rw [Option.none_or] at hwait
  obtain ⟨state, hfol, hrt, hsho, hsta⟩ := hwait.announce hkind isMain
  have hdel : delivered p kind (SessionFeed.run isMain {} updates).2 =
      shown (firstSnapshot p (beforeRole m updates)) ++
        delivered p kind ((((SessionFeed.run isMain {} (beforeRole m updates)).1.handle isMain
          (.messageUpdated m "assistant")).1.run isMain (afterRole m updates)).2) := by
    conv_lhs => rw [hspl]
    rw [run_append, delivered_append, hnone, nil_append]
    simp only [SessionFeed.run, delivered_append, hsho]
  rw [hdel, hgro, following_run hkind _ hfol hrt (shown_isPrefix hbef).length_le haft]
  unfold Whole Unbroken
  rw [hsta]

/-- The updates of a session that are among a bus's payloads. -/
def updatesOf (sessionId : String) (payloads : List Value) : List Update := payloads.filterMap (Update.ofPayload sessionId)

/-- The text of a part of an assistant's message is delivered once, whatever comes of the session, exactly when the announcement
of the message's role does not break it. -/
theorem text_delivered_iff (sessionId p m kind : String) (isMain : Bool) (payloads : List Value)
    (hkind : kind = "text" ∨ kind = "reasoning") (hgrows : Grows p m kind [] (updatesOf sessionId payloads))
    (hrole : ∃ update ∈ updatesOf sessionId payloads, update.announces m = true) :
    delivered p kind (SessionFeed.run isMain {} (updatesOf sessionId payloads)).2 =
        grown p [] (updatesOf sessionId payloads) ↔
      Unbroken p m kind (updatesOf sessionId payloads) :=
  delivered_iff hkind isMain hgrows hrole

/-- A snapshot on the bus. -/
def snapshotPayload (session m p kind text : String) : Value :=
  .object [("type", .string "message.part.updated"), ("properties", .object [("part", .object [("id", .string p),
    ("messageID", .string m), ("sessionID", .string session), ("type", .string kind), ("text", .string text)])])]

/-- A delta on the bus. -/
def deltaPayload (session m p delta : String) : Value :=
  .object [("type", .string "message.part.delta"), ("properties", .object [("sessionID", .string session),
    ("messageID", .string m), ("partID", .string p), ("field", .string "text"), ("delta", .string delta)])]

/-- A role on the bus. -/
def rolePayload (session m role : String) : Value :=
  .object [("type", .string "message.updated"), ("properties", .object [("info", .object [("sessionID", .string session),
    ("id", .string m), ("role", .string role)])])]

/-- A part whose first delta comes before the role of its message. -/
def lateRole : List Value :=
  [snapshotPayload "s" "m" "p" "text" "", deltaPayload "s" "m" "p" "Hello", rolePayload "s" "m" "assistant",
    deltaPayload "s" "m" "p" " world", snapshotPayload "s" "m" "p" "text" "Hello world"]

/-- The text of a part is not delivered once where its message's role comes late: a word is lost, and one comes twice. -/
theorem text_broken :
    ¬∀ (sessionId p m kind : String) (isMain : Bool) (payloads : List Value), kind = "text" ∨ kind = "reasoning" →
      Grows p m kind [] (updatesOf sessionId payloads) →
      (∃ update ∈ updatesOf sessionId payloads, update.announces m = true) →
      (∃ update ∈ updatesOf sessionId payloads,
        (update.snapshot p).map Part.text = some (grown p [] (updatesOf sessionId payloads))) →
      delivered p kind (SessionFeed.run isMain {} (updatesOf sessionId payloads)).2 =
        grown p [] (updatesOf sessionId payloads) := by
  intro hall
  have hgrows : Grows "p" "m" "text" [] (updatesOf "s" lateRole) := by decide +kernel
  have hrole : ∃ update ∈ updatesOf "s" lateRole, update.announces "m" = true := by decide +kernel
  have hfinal : ∃ update ∈ updatesOf "s" lateRole,
      (update.snapshot "p").map Part.text = some (grown "p" [] (updatesOf "s" lateRole)) := by decide +kernel
  have hbroken : delivered "p" "text" (SessionFeed.run true {} (updatesOf "s" lateRole)).2 = " worldworld".toList := by
    decide +kernel
  have hgrown : grown "p" [] (updatesOf "s" lateRole) = "Hello world".toList := by decide +kernel
  have heq := hall "s" "p" "m" "text" true lateRole (.inl rfl) hgrows hrole hfinal
  rw [hbroken, hgrown] at heq
  exact absurd heq (by decide +kernel)

/-- A part whose message's role comes after its first snapshot, and before its deltas. -/
def timelyRole : List Value :=
  [snapshotPayload "s" "m" "p" "reasoning" "Hello", rolePayload "s" "m" "assistant", deltaPayload "s" "m" "p" " wörld",
    snapshotPayload "s" "m" "p" "reasoning" "Hello wörld!"]

theorem text_delivered_timely :
    delivered "p" "reasoning" (SessionFeed.run true {} (updatesOf "s" timelyRole)).2 = "Hello wörld!".toList := by
  have hdelivered := (text_delivered_iff "s" "p" "m" "reasoning" true timelyRole (.inr rfl) (by decide +kernel)
    (by decide +kernel)).mpr (by decide +kernel)
  rw [hdelivered]
  decide +kernel

end Wu.OpenCode.SessionFeed
