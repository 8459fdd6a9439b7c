import Mathlib.Data.List.Nodup
import Mathlib.Data.List.Pairwise
import Mathlib.Data.List.TakeWhile
import Wu.Remote.ChannelClient

/-!
# One direction of a link

What a party has sent against what the other has received: the messages that were received come first, then those on the link,
then those that are still to be sent, and the buffer has all that was not received.
-/

namespace Wu.Remote

open List

namespace ChannelClient

/-- The envelopes that a party is sending, has buffered, or has on a link. -/
def Holds (self : ChannelClient) (link : List Envelope) (envelope : Envelope) : Prop :=
  (∃ sending ∈ self.sending, sending.envelope = envelope) ∨ envelope ∈ self.buffer ∨ envelope ∈ link

/-- A party by itself: its ids are new, the messages in its buffer are in order, and those that are still to come are later. -/
structure Sender (party : ChannelClient) : Prop where
  fresh : ∀ sending ∈ party.sending, sending.envelope.id < party.nextMessageId
  takenFresh : ∀ id ∈ party.taken, id < party.nextMessageId
  nodup : (party.sending.map fun sending => sending.envelope.id).Nodup
  loaded : ∀ sending ∈ party.sending, sending.stage = .loaded → sending.envelope.payload = .message
  later : ∀ sending ∈ party.sending, sending.envelope.payload = .message → sending.stage ≠ .ready →
    sending.envelope.id ∈ party.taken ∧ ∀ id ∈ party.pushed, id < sending.envelope.id
  ready : ∀ sending ∈ party.sending, sending.envelope.payload = .message → sending.stage = .ready → sending.envelope.id ∈ party.pushed
  pushedTaken : ∀ id ∈ party.pushed, id ∈ party.taken
  sorted : party.pushed.Pairwise (· < ·)
  buffered : ∀ message ∈ party.buffer, message.payload = .message

theorem sender_new : Sender .new :=
  ⟨nofun, nofun, nodup_nil, nofun, nofun, nofun, nofun, List.Pairwise.nil, nofun⟩

variable {party : ChannelClient}

variable {sendings : List Sending} {sending : Sending} {envelope : Envelope} {back' : List Envelope} {ackId : Option Nat}

/-- What is being sent, after one of it has gone on. -/
theorem mem_advance {after other : Sending} (h : other ∈ sendings.erase sending ++ [after]) : other ∈ sendings ∨ other = after := by
  rcases mem_append.mp h with h | h
  · exact .inl (mem_of_mem_erase h)
  · exact .inr (mem_singleton.mp h)

theorem nodup_advance (h : (sendings.map fun sending => sending.envelope.id).Nodup)
    {after : Sending} (hmem : sending ∈ sendings) (hid : after.envelope.id = sending.envelope.id) :
    ((sendings.erase sending ++ [after]).map fun sending => sending.envelope.id).Nodup := by
  have hperm : (sendings.map fun sending => sending.envelope.id).Perm
      ((sendings.erase sending ++ [after]).map fun sending => sending.envelope.id) := by
    rw [map_append, map_cons, hid]
    refine ((perm_cons_erase hmem).map _).trans ?_
    exact (perm_append_singleton ..).symm
  exact hperm.nodup_iff.mp h

section

variable (h : Sender party)
include h

/-- With distinct ids, what has the id of what is being sent is it. -/
theorem Sender.eq_of_id {other : Sending} (hsend : sending ∈ party.sending)
    (hoth : other ∈ party.sending) (hid : other.envelope.id = sending.envelope.id) : other = sending :=
  inj_on_of_nodup_map h.nodup hoth hsend hid

theorem Sender.start {payload : Payload} (respondingTo : Option Nat) {stage : Stage}
    (hload : stage ≠ .loaded) (hready : payload = .message → stage = .taken) :
    Sender (party.start payload respondingTo stage) := by
  have htak : ∀ {id}, id ∈ party.taken → id ∈ (party.start payload respondingTo stage).taken := by
    intro id hid
    unfold ChannelClient.start
    split
    · exact mem_append_left _ hid
    · exact hid
  refine ⟨?_, ?_, ?_, ?_, ?_, ?_, fun id hid => htak (h.pushedTaken id hid), h.sorted, h.buffered⟩
  · intro sending hsend
    rcases mem_append.mp hsend with hsend | hsend
    · exact Nat.lt_succ_of_lt (h.fresh _ hsend)
    · rw [mem_singleton.mp hsend]
      exact Nat.lt_succ_self _
  · intro id hid
    unfold ChannelClient.start at hid ⊢
    split at hid
    · rcases mem_append.mp hid with hid | hid
      · exact Nat.lt_succ_of_lt (h.takenFresh id hid)
      · rw [mem_singleton.mp hid]
        exact Nat.lt_succ_self _
    · exact Nat.lt_succ_of_lt (h.takenFresh id hid)
  · unfold ChannelClient.start
    rw [map_append, map_cons, map_nil]
    refine nodup_append.mpr ⟨h.nodup, nodup_singleton _, ?_⟩
    rintro id hid other hoth rfl
    obtain ⟨sending, hsend, rfl⟩ := mem_map.mp hid
    exact Nat.ne_of_lt (h.fresh _ hsend) (mem_singleton.mp hoth)
  · intro sending hsend hstg
    rcases mem_append.mp hsend with hsend | hsend
    · exact h.loaded _ hsend hstg
    · rw [mem_singleton.mp hsend] at hstg
      exact absurd hstg hload
  · intro sending hsend hmsg hstg
    rcases mem_append.mp hsend with hsend | hsend
    · obtain ⟨hid, hlat⟩ := h.later _ hsend hmsg hstg
      exact ⟨htak hid, hlat⟩
    · rw [mem_singleton.mp hsend] at hmsg ⊢
      refine ⟨?_, fun id hid => h.takenFresh id (h.pushedTaken id hid)⟩
      unfold ChannelClient.start
      rw [if_pos hmsg]
      exact mem_append_right _ (.head _)
  · intro sending hsend hmsg hstg
    rcases mem_append.mp hsend with hsend | hsend
    · exact h.ready _ hsend hmsg hstg
    · rw [mem_singleton.mp hsend] at hmsg hstg
      rw [show stage = .taken from hready hmsg] at hstg
      nomatch hstg

theorem Sender.load (hmem : sending ∈ party.sending) (hstg : sending.stage = .taken) : Sender (party.load sending) := by
  refine ⟨?_, h.takenFresh, nodup_advance h.nodup hmem rfl, ?_, ?_, ?_, h.pushedTaken, h.sorted, h.buffered⟩
  · intro other hoth
    rcases mem_advance hoth with hoth | rfl
    · exact h.fresh _ hoth
    · exact h.fresh sending hmem
  · intro other hoth hload
    rcases mem_advance hoth with hoth | rfl
    · exact h.loaded _ hoth hload
    · split at hload
      · assumption
      · nomatch hload
  · intro other hoth hmsg hnot
    rcases mem_advance hoth with hoth | rfl
    · exact h.later _ hoth hmsg hnot
    · exact h.later sending hmem hmsg (by rw [hstg]; nofun)
  · intro other hoth hmsg hready
    rcases mem_advance hoth with hoth | rfl
    · exact h.ready _ hoth hmsg hready
    · rw [if_pos hmsg] at hready
      nomatch hready

theorem Sender.push (hmem : sending ∈ party.sending) (hstg : sending.stage = .loaded)
    (hord : ∀ other ∈ party.sending, other.envelope.payload = .message → other.stage ≠ .ready →
      sending.envelope.id ≤ other.envelope.id) : Sender (party.push sending) := by
  have hmsg := h.loaded _ hmem hstg
  have hnot : sending.stage ≠ .ready := by
    rw [hstg]
    nofun
  obtain ⟨htak, hlat⟩ := h.later _ hmem hmsg hnot
  have hpush : ∀ id, id ∈ (party.push sending).pushed ↔ id ∈ party.pushed ∨ id = sending.envelope.id := by
    intro id
    exact mem_append.trans (or_congr_right mem_singleton)
  refine ⟨?_, h.takenFresh, nodup_advance h.nodup hmem rfl, ?_, ?_, ?_, ?_, ?_, ?_⟩
  · intro other hoth
    rcases mem_advance hoth with hoth | rfl
    · exact h.fresh _ hoth
    · exact h.fresh sending hmem
  · intro other hoth hload
    rcases mem_advance hoth with hoth | rfl
    · exact h.loaded _ hoth hload
    · nomatch hload
  · intro other hoth hoth' hready
    rcases mem_append.mp hoth with hoth | hoth
    · have hin := mem_of_mem_erase hoth
      obtain ⟨hid, hids⟩ := h.later _ hin hoth' hready
      refine ⟨hid, fun id hmem' => ?_⟩
      rcases (hpush id).mp hmem' with hmem' | rfl
      · exact hids id hmem'
      · refine Nat.lt_of_le_of_ne (hord _ hin hoth' hready) fun heq => ?_
        rw [h.eq_of_id hmem hin heq.symm] at hoth
        exact absurd hoth ((List.Nodup.of_map _ h.nodup).not_mem_erase)
    · rw [mem_singleton.mp hoth] at hready
      exact absurd rfl hready
  · intro other hoth hoth' hready
    rw [hpush]
    rcases mem_advance hoth with hoth | rfl
    · exact .inl (h.ready _ hoth hoth' hready)
    · exact .inr rfl
  · intro id hid
    rcases (hpush id).mp hid with hid | rfl
    · exact h.pushedTaken id hid
    · exact htak
  · refine pairwise_append.mpr ⟨h.sorted, pairwise_singleton _ _, fun id hid other hoth => ?_⟩
    rw [mem_singleton.mp hoth]
    exact hlat id hid
  · intro message hin
    rcases mem_append.mp hin with hin | hin
    · exact h.buffered _ hin
    · rw [mem_singleton.mp hin]
      exact hmsg

/-- What is on the link is being sent no more. -/
theorem Sender.erase (sending : Sending) : Sender { party with sending := party.sending.erase sending } := by
  have hmem : ∀ {other}, other ∈ party.sending.erase sending → other ∈ party.sending := mem_of_mem_erase
  refine ⟨fun other hoth => h.fresh _ (hmem hoth), h.takenFresh, ?_, fun other hoth => h.loaded _ (hmem hoth),
    fun other hoth => h.later _ (hmem hoth), fun other hoth => h.ready _ (hmem hoth), h.pushedTaken, h.sorted,
    h.buffered⟩
  exact h.nodup.sublist (List.erase_sublist.map _)

/-- A party that differs in what it has received, and has less in its buffer. -/
theorem Sender.received {after : ChannelClient} (hnext : after.nextMessageId = party.nextMessageId)
    (hsend : after.sending = party.sending) (htak : after.taken = party.taken) (hpush : after.pushed = party.pushed)
    (hbuf : ∀ message ∈ after.buffer, message ∈ party.buffer) : Sender after := by
  refine ⟨?_, ?_, ?_, ?_, ?_, ?_, ?_, ?_, fun message hmem => h.buffered _ (hbuf _ hmem)⟩
  · rw [hsend, hnext]
    exact h.fresh
  · rw [htak, hnext]
    exact h.takenFresh
  · rw [hsend]
    exact h.nodup
  · rw [hsend]
    exact h.loaded
  · rw [hsend, htak, hpush]
    exact h.later
  · rw [hsend, hpush]
    exact h.ready
  · rw [hpush, htak]
    exact h.pushedTaken
  · rw [hpush]
    exact h.sorted

end

/-! ## What is under way -/

/-- The messages of a sender, those that its receiver has, and those on the link between them; `back` is the receiver's link. -/
structure Lane (sender receiver : ChannelClient) (link back : List Envelope) : Prop where
  order : ∃ left, sender.pushed = receiver.dispatched ++ (messageIds link ++ left)
  kept : ∃ removed ≤ receiver.dispatched.length, sender.buffer.map Envelope.id = sender.pushed.drop removed
  acked : ∀ envelope, receiver.Holds back envelope → ∀ ackId, envelope.ackId = some ackId → ∀ id ∈ sender.taken, id ≤ ackId →
    id ∈ receiver.dispatched

theorem messageIds_append (link more : List Envelope) : messageIds (link ++ more) = messageIds link ++ messageIds more := by
  simp [messageIds]

theorem messageIds_all {envelopes : List Envelope} (h : ∀ envelope ∈ envelopes, envelope.payload = .message) :
    messageIds envelopes = envelopes.map Envelope.id := by
  unfold messageIds
  rw [filter_eq_self.mpr fun envelope hmem => decide_eq_true (h _ hmem)]

theorem messageIds_other (h : envelope.payload ≠ .message) : messageIds [envelope] = [] := by
  simp [messageIds, h]

theorem messageIds_message (h : envelope.payload = .message) : messageIds [envelope] = [envelope.id] := by
  simp [messageIds, h]

variable {sender receiver : ChannelClient} {link back : List Envelope}

section

variable (h : Lane sender receiver link back)
include h

/-- A receiver that holds no new acknowledgements. -/
theorem Lane.holds {receiver' : ChannelClient} (hdis : receiver'.dispatched = receiver.dispatched)
    (hhold : ∀ envelope, receiver'.Holds back' envelope → envelope.ackId = none ∨
      ∃ before, receiver.Holds back before ∧ before.ackId = envelope.ackId) : Lane sender receiver' link back' := by
  refine ⟨?_, ?_, ?_⟩
  · rw [hdis]
    exact h.order
  · rw [hdis]
    exact h.kept
  · intro envelope henv ackId hack
    rw [hdis]
    rcases hhold _ henv with hnone | ⟨before, hbef, hsame⟩
    · rw [hnone] at hack
      nomatch hack
    · exact h.acked _ hbef _ (hsame.trans hack)

/-- A message gets an id that is not acknowledged. -/
theorem Lane.startMessage (respondingTo : Option Nat)
    (hnew : ∀ envelope, receiver.Holds back envelope → ∀ ackId, envelope.ackId = some ackId → ackId < sender.nextMessageId) :
    Lane (sender.start .message respondingTo .taken) receiver link back := by
  refine ⟨h.order, h.kept, ?_⟩
  intro envelope henv ackId hack id hid hle
  rcases mem_append.mp hid with hid | hid
  · exact h.acked _ henv _ hack id hid hle
  · rw [mem_singleton.mp hid] at hle
    exact absurd (hnew _ henv _ hack) (Nat.not_lt.mpr hle)

/-- What a receiver starts has no acknowledgement. -/
theorem Lane.startReceiver (payload : Payload) (respondingTo : Option Nat) (stage : Stage) :
    Lane sender (receiver.start payload respondingTo stage) link back := by
  refine h.holds rfl fun envelope henv => ?_
  rcases henv with ⟨sending, hsend, rfl⟩ | hbuf
  · rcases mem_append.mp hsend with hsend | hsend
    · exact .inr ⟨_, .inl ⟨sending, hsend, rfl⟩, rfl⟩
    · rw [mem_singleton.mp hsend]
      exact .inl rfl
  · exact .inr ⟨envelope, .inr hbuf, rfl⟩

/-- What was received last is noted when every message up to it was received. -/
theorem Lane.loadReceiver (hrecv : ∀ id ∈ sender.taken, id ≤ receiver.maxReceived → id ∈ receiver.dispatched) :
    Lane sender (receiver.load sending) link back := by
  refine ⟨h.order, h.kept, ?_⟩
  intro envelope henv ackId hack
  rcases henv with ⟨other, hoth, rfl⟩ | hbuf
  · rcases mem_advance hoth with hoth | rfl
    · exact h.acked _ (.inl ⟨other, hoth, rfl⟩) _ hack
    · rw [← Option.some.inj hack]
      exact hrecv
  · exact h.acked _ (.inr hbuf) _ hack

theorem Lane.pushReceiver (hmem : sending ∈ receiver.sending) : Lane sender (receiver.push sending) link back := by
  refine h.holds rfl fun envelope henv => .inr ?_
  rcases henv with ⟨other, hoth, rfl⟩ | hbuf | hlink
  · rcases mem_advance hoth with hoth | rfl
    · exact ⟨_, .inl ⟨other, hoth, rfl⟩, rfl⟩
    · exact ⟨_, .inl ⟨sending, hmem, rfl⟩, rfl⟩
  · rcases mem_append.mp hbuf with hbuf | hbuf
    · exact ⟨envelope, .inr (.inl hbuf), rfl⟩
    · rw [mem_singleton.mp hbuf]
      exact ⟨_, .inl ⟨sending, hmem, rfl⟩, rfl⟩
  · exact ⟨envelope, .inr (.inr hlink), rfl⟩

/-- A message goes into the buffer, after those that are there. -/
theorem Lane.push (sending : Sending) : Lane (sender.push sending) receiver link back := by
  refine ⟨?_, ?_, h.acked⟩
  · obtain ⟨left, hleft⟩ := h.order
    refine ⟨left ++ [sending.envelope.id], ?_⟩
    unfold ChannelClient.push
    rw [hleft]
    simp
  · obtain ⟨left, hleft⟩ := h.order
    obtain ⟨removed, hrem, hbuf⟩ := h.kept
    refine ⟨removed, hrem, ?_⟩
    unfold ChannelClient.push
    rw [map_append, hbuf, drop_append_of_le_length]
    · rfl
    · rw [hleft, length_append]
      exact Nat.le_add_right_of_le hrem

/-- What is still to come after the messages that arrive is in the buffer. -/
theorem Lane.buffer_eq {left : List Nat} (hleft : sender.pushed = receiver.dispatched ++ (messageIds link ++ left)) :
    ∃ removed ≤ receiver.dispatched.length,
      sender.buffer.map Envelope.id = receiver.dispatched.drop removed ++ (messageIds link ++ left) := by
  obtain ⟨removed, hrem, hbuf⟩ := h.kept
  refine ⟨removed, hrem, ?_⟩
  rw [hbuf, hleft, drop_append_of_le_length hrem]

/-- The next message that is still to come goes on the link. -/
theorem Lane.queueMessage (hsort : sender.pushed.Pairwise (· < ·))
    (hmsg : envelope.payload = .message) (hpush : envelope.id ∈ sender.pushed)
    (hnew : ¬ (envelope.id ∈ receiver.dispatched ∨ envelope.id ∈ messageIds link))
    (hbef : ∀ message ∈ sender.buffer, message.id < envelope.id →
      message.id ∈ receiver.dispatched ∨ message.id ∈ messageIds link) : Lane sender receiver (link ++ [envelope]) back := by
  obtain ⟨left, hleft⟩ := h.order
  obtain ⟨removed, -, hbuf⟩ := h.buffer_eq hleft
  have hin : envelope.id ∈ left := by
    rw [hleft] at hpush
    rcases mem_append.mp hpush with hid | hid
    · exact absurd (.inl hid) hnew
    · rcases mem_append.mp hid with hid | hid
      · exact absurd (.inr hid) hnew
      · exact hid
  obtain ⟨first, rest, hspl⟩ := append_of_mem hin
  have hnod : (receiver.dispatched ++ (messageIds link ++ left)).Nodup := by
    rw [← hleft]
    exact hsort.imp fun hlt => Nat.ne_of_lt hlt
  have hfst : first = [] := by
    by_contra hne
    obtain ⟨id, hid⟩ := exists_mem_of_ne_nil _ hne
    have hidl : id ∈ left := by
      rw [hspl]
      exact mem_append_left _ hid
    have hlt : id < envelope.id := by
      rw [hleft, hspl] at hsort
      have hpair := (pairwise_append.mp (pairwise_append.mp hsort).2.1).2.1
      exact (pairwise_append.mp hpair).2.2 id hid _ (mem_cons_self ..)
    have hmem : id ∈ sender.buffer.map Envelope.id := by
      rw [hbuf]
      exact mem_append_right _ (mem_append_right _ hidl)
    obtain ⟨message, hmsg, rfl⟩ := mem_map.mp hmem
    rcases hbef _ hmsg hlt with harr | harr
    · exact (nodup_append.mp hnod).2.2 _ harr _ (mem_append_right _ hidl) rfl
    · exact (nodup_append.mp (nodup_append.mp hnod).2.1).2.2 _ harr _ hidl rfl
  refine ⟨⟨rest, ?_⟩, h.kept, h.acked⟩
  rw [messageIds_append, messageIds_message hmsg, hleft, hspl, hfst]
  simp

/-- What is no message goes on the link. -/
theorem Lane.queueOther (hoth : envelope.payload ≠ .message) : Lane sender receiver (link ++ [envelope]) back := by
  obtain ⟨left, hleft⟩ := h.order
  refine ⟨⟨left, ?_⟩, h.kept, h.acked⟩
  rw [messageIds_append, messageIds_other hoth, append_nil]
  exact hleft

/-- What was not received is sent again, when none of it is on the link. -/
theorem Lane.replay (hbuff : ∀ message ∈ sender.buffer, message.payload = .message)
    (hnone : ∀ message ∈ sender.buffer, ¬ (message.id ∈ receiver.dispatched ∨ message.id ∈ messageIds link)) :
    sender.pushed = receiver.dispatched ++ (messageIds (link ++ sender.buffer) ++ []) := by
  obtain ⟨left, hleft⟩ := h.order
  obtain ⟨removed, -, hbuf⟩ := h.buffer_eq hleft
  have hnot : ∀ id ∈ sender.buffer.map Envelope.id, ¬ (id ∈ receiver.dispatched ∨ id ∈ messageIds link) := by
    intro id hid
    obtain ⟨message, hmem, rfl⟩ := mem_map.mp hid
    exact hnone _ hmem
  rw [hbuf] at hnot
  have hdrop : receiver.dispatched.drop removed = [] := by
    refine eq_nil_iff_forall_not_mem.mpr fun id hid => ?_
    exact hnot id (mem_append_left _ hid) (.inl (mem_of_mem_drop hid))
  have hlink : messageIds link = [] := by
    refine eq_nil_iff_forall_not_mem.mpr fun id hid => ?_
    exact hnot id (mem_append_right _ (mem_append_left _ hid)) (.inr hid)
  rw [messageIds_append, messageIds_all hbuff, hbuf, hdrop, hleft, hlink]
  simp

/-- The link breaks: what was on it is still to come. -/
theorem Lane.lose {after : List Envelope} (haft : messageIds after = [])
    (hback : ∀ envelope ∈ back', envelope.ackId = none) : Lane sender receiver after back' := by
  obtain ⟨left, hleft⟩ := h.order
  refine ⟨⟨messageIds link ++ left, ?_⟩, h.kept, ?_⟩
  · rw [haft, hleft]
    rfl
  · intro envelope henv ackId hack
    rcases henv with hsend | hbuf | hlink
    · exact h.acked _ (.inl hsend) _ hack
    · exact h.acked _ (.inr (.inl hbuf)) _ hack
    · rw [hback _ hlink] at hack
      nomatch hack

/-- What a receiver puts on its link it held. -/
theorem Lane.queueReceiver (hmem : sending ∈ receiver.sending)
    (hback : ∀ envelope ∈ back', envelope ∈ back ∨ envelope = sending.envelope) :
    Lane sender { receiver with sending := receiver.sending.erase sending } link back' := by
  refine h.holds rfl fun envelope henv => .inr ⟨envelope, ?_, rfl⟩
  rcases henv with ⟨other, hoth, rfl⟩ | hbuf | hlink
  · exact .inl ⟨other, mem_of_mem_erase hoth, rfl⟩
  · exact .inr (.inl hbuf)
  · rcases hback _ hlink with hlink | rfl
    · exact .inr (.inr hlink)
    · exact .inl ⟨sending, hmem, rfl⟩

/-- A receiver sends again what it has buffered. -/
theorem Lane.resendReceiver : Lane sender receiver link (back ++ receiver.buffer) := by
  refine h.holds rfl fun envelope henv => .inr ⟨envelope, ?_, rfl⟩
  rcases henv with hsend | hbuf | hlink
  · exact .inl hsend
  · exact .inr (.inl hbuf)
  · rcases mem_append.mp hlink with hlink | hbuf
    · exact .inr (.inr hlink)
    · exact .inr (.inl hbuf)

end

/-! ## An envelope is taken -/

theorem acknowledge_mem {message : Envelope} (h : message ∈ (party.acknowledge ackId).buffer) : message ∈ party.buffer := by
  unfold acknowledge at h
  split at h
  · exact h
  · exact (List.dropWhile_suffix _).subset h

theorem acknowledge_same (party : ChannelClient) (ackId : Option Nat) :
    party.acknowledge ackId = { party with buffer := (party.acknowledge ackId).buffer } := by
  unfold acknowledge
  split <;> rfl

theorem respond_same (party : ChannelClient) (respondingTo : Option Nat) :
    ∃ resync, party.respond respondingTo = { party with resync } := by
  unfold respond
  split
  · split
    · exact ⟨.answered, rfl⟩
    · exact ⟨party.resync, rfl⟩
  · exact ⟨party.resync, rfl⟩

/-- What a party does with an envelope, after what it acknowledges. -/
inductive Handled (party : ChannelClient) (incoming : Envelope) : ChannelClient × List Envelope → Prop
  | flush : incoming.payload = .flushBufferedMessages →
      Handled party incoming (party.start .ack (some incoming.id) .ready, party.buffer)
  | started : incoming.payload = .remoteStarted → Handled party incoming (party.start .ack (some incoming.id) .ready, [])
  | ack (resync : Resync) : incoming.payload = .ack →
      Handled party incoming ({ party with maxReceived := incoming.id, resync }, [])
  | message (resync : Resync) : incoming.payload = .message →
      Handled party incoming ({ party with maxReceived := incoming.id, resync, dispatched := party.dispatched ++ [incoming.id] }, [])

theorem handled (party : ChannelClient) (incoming : Envelope) :
    Handled (party.acknowledge incoming.ackId) incoming (party.handle incoming) := by
  unfold handle
  cases hpay : incoming.payload with
  | flushBufferedMessages => exact .flush hpay
  | remoteStarted => exact .started hpay
  | ack =>
    obtain ⟨resync, hres⟩ :=
      respond_same _ _
    dsimp only
    rw [hres]
    exact .ack _ hpay
  | message =>
    obtain ⟨resync, hres⟩ :=
      respond_same _ _
    dsimp only
    rw [hres]
    exact .message _ hpay

theorem Sender.acknowledge (h : Sender party) (ackId : Option Nat) : Sender (party.acknowledge ackId) := by
  have hbuf : ∀ message ∈ (party.acknowledge ackId).buffer, message ∈ party.buffer := fun _ hmem => acknowledge_mem hmem
  rw [acknowledge_same] at hbuf ⊢
  exact h.received rfl rfl rfl rfl hbuf

theorem Sender.handle (h : Sender party) (incoming : Envelope) : Sender (party.handle incoming).1 := by
  have hack := h.acknowledge incoming.ackId
  have hhan := handled party incoming
  generalize party.handle incoming = after at hhan ⊢
  cases hhan with
  | flush _ | started _ => exact hack.start _ (by nofun) (by nofun)
  | ack resync _ | message resync _ => exact hack.received rfl rfl rfl rfl fun _ h => h

theorem Lane.acknowledgeReceiver (h : Lane sender receiver link back) (ackId : Option Nat) :
    Lane sender (receiver.acknowledge ackId) link back := by
  have hbuf : ∀ message ∈ (receiver.acknowledge ackId).buffer, message ∈ receiver.buffer := fun _ hmem => acknowledge_mem hmem
  rw [acknowledge_same] at hbuf ⊢
  refine h.holds rfl fun envelope henv => .inr ⟨envelope, ?_, rfl⟩
  rcases henv with hsend | hmem | hlink
  · exact .inl hsend
  · exact .inr (.inl (hbuf _ hmem))
  · exact .inr (.inr hlink)

/-- A receiver takes the next envelope. -/
theorem Lane.receive {incoming : Envelope} (h : Lane sender receiver (incoming :: link) back) :
    Lane sender (receiver.handle incoming).1 link (back ++ (receiver.handle incoming).2) := by
  have hlane := h.acknowledgeReceiver incoming.ackId
  have hoth : incoming.payload ≠ .message → Lane sender (receiver.acknowledge incoming.ackId) link back := by
    intro hpay
    have hids : messageIds (incoming :: link) = messageIds link := by simp [messageIds, hpay]
    obtain ⟨left, hleft⟩ := hlane.order
    rw [hids] at hleft
    exact ⟨⟨left, hleft⟩, hlane.kept, hlane.acked⟩
  have hhan := handled receiver incoming
  generalize receiver.handle incoming = after at hhan ⊢
  cases hhan with
  | flush hpay => exact ((hoth (by rw [hpay]; nofun)).resendReceiver).startReceiver _ _ _
  | started hpay =>
    rw [append_nil]
    exact (hoth (by rw [hpay]; nofun)).startReceiver _ _ _
  | ack resync hpay =>
    rw [append_nil]
    exact (hoth (by rw [hpay]; nofun)).holds rfl fun envelope henv => .inr ⟨envelope, henv, rfl⟩
  | message resync hpay =>
    rw [append_nil]
    have hids : messageIds (incoming :: link) = incoming.id :: messageIds link := by simp [messageIds, hpay]
    obtain ⟨left, hleft⟩ := hlane.order
    obtain ⟨removed, hrem, hbuf⟩ := hlane.kept
    refine ⟨⟨left, ?_⟩, ⟨removed, ?_, hbuf⟩, ?_⟩
    · rw [hleft, hids]
      simp
    · rw [length_append]
      exact Nat.le_add_right_of_le hrem
    · intro envelope henv ackId hack id hid hle
      exact mem_append_left _ (hlane.acked _ henv _ hack id hid hle)

/-- What is acknowledged has been received, and leaves the buffer. -/
theorem Lane.acknowledgeSender (h : Lane sender receiver link back) (hsend : Sender sender)
    (hack : ∀ ack, ackId = some ack → ∀ id ∈ sender.taken, id ≤ ack → id ∈ receiver.dispatched) :
    Lane (sender.acknowledge ackId) receiver link back := by
  cases ackId with
  | none => exact h
  | some ack =>
    obtain ⟨left, hleft⟩ := h.order
    obtain ⟨removed, hrem, hbuf⟩ := h.kept
    refine ⟨⟨left, hleft⟩, ?_, h.acked⟩
    let gone := sender.buffer.takeWhile fun message => message.id ≤ ack
    let rest := sender.buffer.dropWhile fun message => message.id ≤ ack
    have hspl : gone ++ rest = sender.buffer := takeWhile_append_dropWhile
    have hgone : ∀ id ∈ gone.map Envelope.id, id ∈ sender.pushed → id ∈ receiver.dispatched := by
      intro id hid hpush
      obtain ⟨message, hmem, rfl⟩ := mem_map.mp hid
      have hle := mem_takeWhile_imp hmem
      exact hack ack rfl _ (hsend.pushedTaken _ hpush) (of_decide_eq_true hle)
    have hnod : (receiver.dispatched ++ (messageIds link ++ left)).Nodup := by
      rw [← hleft]
      exact hsend.sorted.imp fun hlt => Nat.ne_of_lt hlt
    have hids : gone.map Envelope.id ++ rest.map Envelope.id =
        receiver.dispatched.drop removed ++ (messageIds link ++ left) := by
      rw [← map_append, hspl, hbuf, hleft, drop_append_of_le_length hrem]
    -- What leaves the buffer is no more than what was received.
    have hleng : gone.length ≤ receiver.dispatched.length - removed := by
      rcases append_eq_append_iff.mp hids with ⟨more, hdrop, -⟩ | ⟨more, hmore, hrest⟩
      · have hlen := congrArg List.length hdrop
        rw [length_drop, length_append, length_map] at hlen
        omega
      · have hnone : more = [] := by
          refine eq_nil_iff_forall_not_mem.mpr fun id hid => ?_
          have hin : id ∈ messageIds link ++ left := by
            rw [hrest]
            exact mem_append_left _ hid
          have hrecv := hgone id (hmore ▸ mem_append_right _ hid) (hleft ▸ mem_append_right _ hin)
          exact (nodup_append.mp hnod).2.2 id hrecv id hin rfl
        have hlen := congrArg List.length hmore
        rw [hnone, append_nil, length_map, length_drop] at hlen
        omega
    refine ⟨removed + gone.length, by omega, ?_⟩
    have hrest : (gone.map Envelope.id ++ rest.map Envelope.id).drop gone.length = rest.map Envelope.id :=
      drop_left' (length_map _)
    change rest.map Envelope.id = sender.pushed.drop (removed + gone.length)
    rw [← drop_drop, ← hbuf, ← hspl, map_append, hrest]

end ChannelClient

end Wu.Remote
