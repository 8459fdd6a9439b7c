import Wu.Remote.ChannelLanes

/-!
# Moves on both directions of a link

Careful moves keep what holds of both directions, and nothing that was sent is taken back as long as the link does not break.
-/

namespace Wu.Remote

open List Function

namespace System

open ChannelClient

theorem other_other (side : Side) : side.other.other = side := by cases side <;> rfl

theorem other_ne (side : Side) : side.other ≠ side := by cases side <;> nofun

theorem eq_or_other (side found : Side) : found = side ∨ found = side.other := by cases side <;> cases found <;> simp [Side.other]

variable {system : System}

@[simp] theorem setParty_self (system : System) (side : Side) (party : ChannelClient) :
    (system.setParty side party).parties side = party := update_self ..

@[simp] theorem setParty_other (system : System) (side : Side) (party : ChannelClient) :
    (system.setParty side party).parties side.other = system.parties side.other := update_of_ne (other_ne side) ..

@[simp] theorem setParty_links (system : System) (side : Side) (party : ChannelClient) :
    (system.setParty side party).links = system.links := rfl

@[simp] theorem setParty_up (system : System) (side : Side) (party : ChannelClient) :
    (system.setParty side party).up = system.up := rfl

@[simp] theorem setParty_phase (system : System) (side : Side) (party : ChannelClient) :
    (system.setParty side party).phase = system.phase := rfl

@[simp] theorem send_parties (system : System) (side : Side) (envelopes : List Envelope) :
    (system.send side envelopes).parties = system.parties := by
  unfold send
  split <;> rfl

@[simp] theorem send_up (system : System) (side : Side) (envelopes : List Envelope) :
    (system.send side envelopes).up = system.up := by
  unfold send
  split <;> rfl

@[simp] theorem send_phase (system : System) (side : Side) (envelopes : List Envelope) :
    (system.send side envelopes).phase = system.phase := by
  unfold send
  split <;> rfl

theorem send_self (system : System) (side : Side) (envelopes : List Envelope) : (system.send side envelopes).links side =
      if system.up then system.links side ++ envelopes else system.links side := by
  unfold send
  split
  · exact update_self ..
  · rfl

@[simp] theorem send_other (system : System) (side : Side) (envelopes : List Envelope) :
    (system.send side envelopes).links side.other = system.links side.other := by
  unfold send
  split
  · exact update_of_ne (other_ne side) ..
  · rfl

/-! ### The lanes -/

/-- Both parties by themselves, and both directions of the link. -/
structure Lanes (system : System) : Prop where
  senders : ∀ side, (system.parties side).Sender
  lanes : ∀ side, Lane (system.parties side) (system.parties side.other) (system.links side) (system.links side.other)

/-- One party, and the two directions as seen from it. -/
theorem Lanes.of (side : Side) (hsend : (system.parties side).Sender) (hoth : (system.parties side.other).Sender)
    (hout : Lane (system.parties side) (system.parties side.other) (system.links side) (system.links side.other))
    (hin : Lane (system.parties side.other) (system.parties side) (system.links side.other) (system.links side)) :
    Lanes system := by
  refine ⟨fun found => ?_, fun found => ?_⟩
  · rcases eq_or_other side found with rfl | rfl
    · exact hsend
    · exact hoth
  · rcases eq_or_other side found with rfl | rfl
    · exact hout
    · rw [other_other]
      exact hin

theorem Lanes.back (h : Lanes system) (side : Side) :
    Lane (system.parties side.other) (system.parties side) (system.links side.other) (system.links side) := by
  have hlane := h.lanes side.other
  rw [other_other] at hlane
  exact hlane

variable {party : ChannelClient} {side : Side} {sending : Sending}

/-- A party that does something on its own. -/
theorem Lanes.setParty (h : Lanes system) (side : Side) (hsend : party.Sender)
    (hout : Lane party (system.parties side.other) (system.links side) (system.links side.other))
    (hin : Lane (system.parties side.other) party (system.links side.other) (system.links side)) :
    Lanes (system.setParty side party) := by
  refine Lanes.of side ?_ ?_ ?_ ?_
  · rw [setParty_self]
    exact hsend
  · rw [setParty_other]
    exact h.senders _
  · rw [setParty_self, setParty_other]
    exact hout
  · rw [setParty_self, setParty_other]
    exact hin

theorem Lanes.new : Lanes new := by
  have hlane : Lane .new .new [.started] [.started] := by
    refine ⟨⟨[], rfl⟩, ⟨0, le_rfl, rfl⟩, ?_⟩
    intro envelope henv ackId hack id hid
    nomatch hid
  exact ⟨fun _ => sender_new, fun _ => hlane⟩

theorem Lanes.start (h : Lanes system) {respondingTo : Option Nat}
    (hcare : system.Careful (.start side respondingTo)) : Lanes (system.apply (.start side respondingTo)) :=
  h.setParty side ((h.senders side).start _ (by nofun) fun _ => rfl) ((h.lanes side).startMessage _ hcare)
    ((h.back side).startReceiver _ _ _)

theorem Lanes.load (h : Lanes system) (halw : system.Allowed (.load side sending))
    (hcare : system.Careful (.load side sending)) : Lanes (system.apply (.load side sending)) := by
  have hout := h.lanes side
  exact h.setParty side ((h.senders side).load halw.1 halw.2) ⟨hout.order, hout.kept, hout.acked⟩ ((h.back side).loadReceiver hcare)

theorem Lanes.push (h : Lanes system) (halw : system.Allowed (.push side sending))
    (hcare : system.Careful (.push side sending)) : Lanes (system.apply (.push side sending)) :=
  h.setParty side ((h.senders side).push halw.1 halw.2 hcare) ((h.lanes side).push _) ((h.back side).pushReceiver halw.1)

theorem Lanes.queue (h : Lanes system) (halw : system.Allowed (.queue side sending))
    (hcare : system.Careful (.queue side sending)) : Lanes (system.apply (.queue side sending)) := by
  obtain ⟨hmem, hstg⟩ := halw
  have hlane := h.lanes side
  have hin := h.back side
  unfold System.apply
  refine Lanes.of side ?_ ?_ ?_ ?_
  · rw [send_parties, setParty_self]
    exact (h.senders side).erase _
  · rw [send_parties, setParty_other]
    exact h.senders _
  · rw [send_parties, setParty_self, setParty_other, send_other, send_self]
    split
    · rename_i hup
      have hqueued : Lane (system.parties side) (system.parties side.other) (system.links side ++ [sending.envelope])
          (system.links side.other) := by
        by_cases hmsg : sending.envelope.payload = .message
        · obtain ⟨hnew, hbef⟩ := hcare hmsg hup
          exact hlane.queueMessage (h.senders side).sorted hmsg ((h.senders side).ready _ hmem hmsg hstg) hnew hbef
        · exact hlane.queueOther hmsg
      exact ⟨hqueued.order, hqueued.kept, hqueued.acked⟩
    · exact ⟨hlane.order, hlane.kept, hlane.acked⟩
  · rw [send_parties, setParty_self, setParty_other, send_other, send_self]
    refine hin.queueReceiver hmem fun envelope henv => ?_
    split at henv
    · exact (mem_append.mp henv).imp_right mem_singleton.mp
    · exact .inl henv

/-- The party that takes the next envelope has acknowledged what it names. -/
theorem Lanes.acknowledge (h : Lanes system) {incoming : Envelope} {rest : List Envelope}
    (hlink : system.links side.other = incoming :: rest) :
    Lane ((system.parties side).acknowledge incoming.ackId) (system.parties side.other) (system.links side) rest := by
  have hackn := (h.lanes side).acknowledgeSender (h.senders side) fun ack hack =>
    (h.lanes side).acked _ (.inr (.inr (by rw [hlink]; exact mem_cons_self ..))) ack hack
  refine ⟨hackn.order, hackn.kept, fun envelope henv => hackn.acked _ ?_⟩
  refine henv.imp_right (Or.imp_right fun hmem => ?_)
  rw [hlink]
  exact .tail _ hmem

/-- What the party sends back leaves nothing behind when it sends all that it has buffered. -/
theorem Lanes.handle (h : Lanes system) {incoming : Envelope} {rest : List Envelope}
    (hlink : system.links side.other = incoming :: rest) (hcare : system.Careful (.deliver side)) :
    Lane ((system.parties side).handle incoming).1 (system.parties side.other)
        (system.links side ++ ((system.parties side).handle incoming).2) rest ∧
      (incoming.payload = .flushBufferedMessages → ((system.parties side).handle incoming).1.pushed =
        (system.parties side.other).dispatched ++
          (messageIds (system.links side ++ ((system.parties side).handle incoming).2) ++ [])) := by
  have hlane := h.acknowledge hlink
  have hbuf := ((h.senders side).acknowledge incoming.ackId).buffered
  have hhan := handled (system.parties side) incoming
  generalize (system.parties side).handle incoming = after at hhan ⊢
  cases hhan with
  | flush hpay =>
    have hrep := hlane.replay hbuf (hcare _ (by rw [hlink]; rfl) hpay)
    exact ⟨⟨⟨[], hrep⟩, hlane.kept, hlane.acked⟩, fun _ => hrep⟩
  | started hpay | ack resync hpay | message resync hpay =>
    rw [append_nil]
    exact ⟨⟨hlane.order, hlane.kept, hlane.acked⟩, fun hflu => by rw [hpay] at hflu; nomatch hflu⟩

theorem deliver_eq {incoming : Envelope} {rest : List Envelope} (hlink : system.links side.other = incoming :: rest) :
    system.deliver side = ({ system with links := Function.update system.links side.other rest }.setParty side
        ((system.parties side).handle incoming).1).send side ((system.parties side).handle incoming).2 := by
  unfold deliver
  rw [hlink]

theorem Lanes.deliver (h : Lanes system) (hup : system.up = true) (hcare : system.Careful (.deliver side)) :
    Lanes (system.deliver side) := by
  cases hlink : system.links _ with
  | nil =>
    unfold System.deliver
    rw [hlink]
    exact h
  | cons incoming rest =>
    obtain ⟨hout, -⟩ := h.handle hlink hcare
    have hin := h.back side
    rw [hlink] at hin
    have hself : Function.update system.links side.other rest side = system.links side :=
      update_of_ne (other_ne side).symm ..
    rw [deliver_eq hlink]
    refine Lanes.of side ?_ ?_ ?_ ?_
    · rw [send_parties, setParty_self]
      exact (h.senders side).handle _
    · rw [send_parties, setParty_other]
      exact h.senders _
    · rw [send_parties, setParty_self, setParty_other, send_other, send_self, setParty_up, setParty_links, if_pos hup]
      dsimp only
      rw [hself, update_self]
      exact hout
    · rw [send_parties, setParty_self, setParty_other, send_other, send_self, setParty_up, setParty_links, if_pos hup]
      dsimp only
      rw [hself, update_self]
      exact hin.receive

theorem Lanes.break (h : Lanes system) : Lanes (system.apply .break) :=
  ⟨h.senders, fun side => (h.lanes side).lose rfl nofun⟩

theorem Lanes.reconnect (h : Lanes system) : Lanes system.reconnect := by
  refine ⟨h.senders, fun side => (h.lanes side).lose ?_ ?_⟩
  · cases side <;> rfl
  · intro envelope henv
    cases side with
    | client => nomatch henv
    | peer =>
      rw [mem_singleton.mp henv]
      rfl

theorem Lanes.resync (h : Lanes system) : Lanes system.resync := by
  have hout := h.lanes .client
  have hin := h.back .client
  let client := { system.parties .client with resync := .waiting (system.parties .client).nextMessageId }
  have hsend : client.Sender := (h.senders _).received rfl rfl rfl rfl fun _ h => h
  have hrecv : Lane (system.parties .peer) client (system.links .peer) (system.links .client) :=
    ⟨hin.order, hin.kept, hin.acked⟩
  have hlane : Lanes (system.setParty .client (client.start .flushBufferedMessages none .taken)) :=
    h.setParty _ (hsend.start none (by nofun) (by nofun)) ⟨hout.order, hout.kept, hout.acked⟩ (hrecv.startReceiver _ _ _)
  exact ⟨hlane.senders, hlane.lanes⟩

/-- The client's resync is over, one way or the other. -/
theorem Lanes.idle (h : Lanes system) : Lanes (system.setParty .client { system.parties .client with resync := .idle }) := by
  have hout := h.lanes .client
  have hin := h.back .client
  exact h.setParty _ ((h.senders _).received rfl rfl rfl rfl fun _ h => h)
    ⟨hout.order, hout.kept, hout.acked⟩ ⟨hin.order, hin.kept, hin.acked⟩

theorem Lanes.replay (h : Lanes system) (hcare : system.Careful .replay) : Lanes system.replay := by
  have hidle := h.idle
  have hout := h.lanes .client
  have hlane : Lanes ((system.setParty .client { system.parties .client with resync := .idle }).send .client
      (system.parties .client).buffer) := by
    unfold send
    split
    · rename_i hup
      refine Lanes.of .client (hidle.senders .client) (hidle.senders .peer) ?_ ?_
      · dsimp only
        rw [update_self]
        have hrep := hout.replay (h.senders _).buffered (hcare hup)
        exact ⟨⟨[], hrep⟩, hout.kept, hout.acked⟩
      · dsimp only
        rw [update_self]
        have hin := (h.back .client).resendReceiver
        exact ⟨hin.order, hin.kept, hin.acked⟩
    · exact hidle
  exact ⟨hlane.senders, hlane.lanes⟩

/-! ### What is left behind -/

/-- A message is in the buffer and goes on the link next. -/
def Ready (system : System) (side : Side) (id : Nat) : Prop :=
  ∃ sending ∈ (system.parties side).sending, sending.envelope.id = id ∧ sending.envelope.payload = .message ∧ sending.stage = .ready

/-- Every message of a party has been received, is on the link, or goes there next. -/
def Sent (system : System) (side : Side) : Prop :=
  ∀ id ∈ (system.parties side).pushed, system.Arrives side id ∨ system.Ready side id

/-- The client's request for what the peer has buffered is under way. -/
def Flushing (system : System) : Prop :=
  (∃ sending ∈ (system.parties .client).sending, sending.envelope.payload = .flushBufferedMessages) ∨
    ∃ envelope ∈ system.links .client, envelope.payload = .flushBufferedMessages

/-- Nothing that was sent is taken back. -/
structure Grows (system after : System) : Prop where
  arrives : ∀ side id, system.Arrives side id → after.Arrives side id
  ready : ∀ side id, system.Ready side id → after.Ready side id ∨ after.Arrives side id
  pushed : ∀ side, ∀ id ∈ (after.parties side).pushed, id ∈ (system.parties side).pushed ∨ after.Ready side id ∨ after.Arrives side id
  flushing : system.Flushing → after.Flushing ∨ after.Sent .peer

theorem Sent.grows {after : System} (h : system.Sent side) (hgrow : system.Grows after) : after.Sent side := by
  intro id hid
  rcases hgrow.pushed side id hid with hid | hready
  · rcases h id hid with harr | hready
    · exact .inl (hgrow.arrives side id harr)
    · exact (hgrow.ready side id hready).symm
  · exact hready.symm

/-- A party that has received what it had, and sends what it was sending. -/
theorem grows_setParty (hdis : ∀ id ∈ (system.parties side).dispatched, id ∈ party.dispatched)
    (hsend : ∀ sending ∈ (system.parties side).sending, ∃ after ∈ party.sending,
      after.envelope.id = sending.envelope.id ∧ after.envelope.payload = sending.envelope.payload ∧
        (sending.stage = .ready → after.stage = .ready))
    (hpush : ∀ id ∈ party.pushed, id ∈ (system.parties side).pushed ∨ (system.setParty side party).Ready side id) :
    system.Grows (system.setParty side party) := by
  have hat : ∀ found, found = side ∨ (system.setParty side party).parties found = system.parties found := by
    intro found
    rcases eq_or_other side found with rfl | rfl
    · exact .inl rfl
    · exact .inr (setParty_other ..)
  refine ⟨?_, ?_, ?_, ?_⟩
  · intro found id harr
    refine harr.imp_left fun hid => ?_
    rcases hat found.other with hfnd | hfnd
    · rw [hfnd] at hid ⊢
      rw [setParty_self]
      exact hdis id hid
    · rw [hfnd]
      exact hid
  · rintro found id ⟨sending, hmem, hid, hmsg, hstg⟩
    left
    rcases hat found with rfl | hfnd
    · obtain ⟨after, haft, hsame, hpay, hready⟩ := hsend _ hmem
      refine ⟨after, ?_, hsame.trans hid, hpay.trans hmsg, hready hstg⟩
      rw [setParty_self]
      exact haft
    · refine ⟨sending, ?_, hid, hmsg, hstg⟩
      rw [hfnd]
      exact hmem
  · intro found id hid
    rcases hat found with rfl | hfnd
    · rw [setParty_self] at hid
      exact (hpush id hid).imp_right .inl
    · rw [hfnd] at hid
      exact .inl hid
  · rintro (⟨sending, hmem, hpay⟩ | hlink)
    · left
      left
      rcases hat .client with rfl | hfnd
      · obtain ⟨after, haft, -, hsame, -⟩ := hsend _ hmem
        refine ⟨after, ?_, hsame.trans hpay⟩
        exact haft
      · refine ⟨sending, ?_, hpay⟩
        rw [hfnd]
        exact hmem
    · exact .inl (.inr hlink)

theorem Grows.trans {middle after : System} (h : system.Grows middle) (h' : middle.Grows after) : system.Grows after := by
  refine ⟨fun side id harr => h'.arrives side id (h.arrives side id harr), ?_, ?_, ?_⟩
  · intro side id hready
    rcases h.ready side id hready with hready | harr
    · exact h'.ready side id hready
    · exact .inr (h'.arrives side id harr)
  · intro side id hid
    rcases h'.pushed side id hid with hid | haft
    · rcases h.pushed side id hid with hid | hready | harr
      · exact .inl hid
      · exact .inr (h'.ready side id hready)
      · exact .inr (.inr (h'.arrives side id harr))
    · exact .inr haft
  · intro hflu
    rcases h.flushing hflu with hflu | hsent
    · exact h'.flushing hflu
    · exact .inr (hsent.grows h')

/-- More is on the link. -/
theorem grows_send (side : Side) (envelopes : List Envelope) : system.Grows (system.send side envelopes) := by
  have hlink : ∀ found, ∀ envelope ∈ system.links found, envelope ∈ (system.send side envelopes).links found := by
    intro found envelope hmem
    rcases eq_or_other side found with rfl | rfl
    · rw [send_self]
      split
      · exact mem_append_left _ hmem
      · exact hmem
    · rw [send_other]
      exact hmem
  refine ⟨?_, ?_, ?_, ?_⟩
  · intro found id harr
    unfold Arrives at harr ⊢
    rw [send_parties]
    refine harr.imp_right fun hid => ?_
    obtain ⟨envelope, hmem, rfl⟩ := mem_map.mp hid
    obtain ⟨hmem, hmsg⟩ := mem_filter.mp hmem
    exact mem_map_of_mem (mem_filter.mpr ⟨hlink _ _ hmem, hmsg⟩)
  · intro found id hready
    unfold Ready at hready ⊢
    rw [send_parties]
    exact .inl hready
  · intro found id hid
    rw [send_parties] at hid
    exact .inl hid
  · intro hflu
    unfold Flushing at hflu ⊢
    rw [send_parties]
    refine .inl (hflu.imp_right ?_)
    rintro ⟨envelope, hmem, hpay⟩
    exact ⟨envelope, hlink _ _ hmem, hpay⟩

theorem grows_start (side : Side) (respondingTo : Option Nat) : system.Grows (system.apply (.start side respondingTo)) :=
  grows_setParty (fun _ h => h) (fun sending hmem => ⟨sending, mem_append_left _ hmem, rfl, rfl, fun h => h⟩)
    fun _ hid => .inl hid

theorem grows_load (halw : system.Allowed (.load side sending)) : system.Grows (system.apply (.load side sending)) := by
  refine grows_setParty (fun _ h => h) (fun other hmem => ?_) fun _ hid => .inl hid
  by_cases hoth : other = sending
  · subst hoth
    refine ⟨_, mem_append_right _ (.head _), rfl, rfl, fun hready => ?_⟩
    rw [halw.2] at hready
    nomatch hready
  · exact ⟨other, mem_append_left _ ((mem_erase_of_ne hoth).mpr hmem), rfl, rfl, fun h => h⟩

theorem grows_push (h : Lanes system) (halw : system.Allowed (.push side sending)) :
    system.Grows (system.apply (.push side sending)) := by
  have hmsg := (h.senders side).loaded _ halw.1 halw.2
  refine grows_setParty (fun _ h => h) (fun other hmem => ?_) fun id hid => ?_
  · by_cases hoth : other = sending
    · subst hoth
      exact ⟨_, mem_append_right _ (.head _), rfl, rfl, fun _ => rfl⟩
    · exact ⟨other, mem_append_left _ ((mem_erase_of_ne hoth).mpr hmem), rfl, rfl, fun h => h⟩
  · rcases mem_append.mp hid with hid | hid
    · exact .inl hid
    · right
      unfold Ready
      rw [setParty_self]
      refine ⟨_, mem_append_right _ (.head _), ?_, hmsg, rfl⟩
      exact (mem_singleton.mp hid).symm

/-- What is ready goes on the link. -/
theorem grows_queue (hup : system.up = true) (side : Side) (sending : Sending) :
    system.Grows (system.apply (.queue side sending)) := by
  let party := { system.parties side with sending := (system.parties side).sending.erase sending }
  let without := system.setParty side party
  have hself : without.parties side = party := setParty_self ..
  have hpar : ∀ found, ((without.send side [sending.envelope]).parties found).dispatched = (system.parties found).dispatched ∧
      ((without.send side [sending.envelope]).parties found).pushed = (system.parties found).pushed := by
    intro found
    rw [send_parties]
    rcases eq_or_other side found with rfl | rfl
    · rw [hself]
      exact ⟨rfl, rfl⟩
    · rw [setParty_other]
      exact ⟨rfl, rfl⟩
  have hlink : (without.send side [sending.envelope]).links side = system.links side ++ [sending.envelope] := by
    rw [send_self]
    exact if_pos hup
  have hlin : ∀ found, ∀ envelope ∈ system.links found, envelope ∈ (without.send side [sending.envelope]).links found := by
    intro found envelope hmem
    rcases eq_or_other side found with rfl | rfl
    · rw [hlink]
      exact mem_append_left _ hmem
    · rw [send_other]
      exact hmem
  have hsend : ∀ found, ∀ other ∈ (system.parties found).sending,
      other ∈ ((without.send side [sending.envelope]).parties found).sending ∨ (found = side ∧ other = sending) := by
    intro found other hmem
    rw [send_parties]
    rcases eq_or_other side found with rfl | rfl
    · rw [hself]
      by_cases hoth : other = sending
      · exact .inr ⟨rfl, hoth⟩
      · exact .inl ((mem_erase_of_ne hoth).mpr hmem)
    · rw [setParty_other]
      exact .inl hmem
  refine ⟨?_, ?_, ?_, ?_⟩
  · intro found id harr
    refine Or.imp (fun hid => ?_) (fun hid => ?_) harr
    · exact (hpar _).1 ▸ hid
    · obtain ⟨envelope, hmem, rfl⟩ := mem_map.mp hid
      obtain ⟨hmem, hmsg⟩ := mem_filter.mp hmem
      exact mem_map_of_mem (mem_filter.mpr ⟨hlin _ _ hmem, hmsg⟩)
  · rintro found id ⟨other, hmem, rfl, hmsg, hstg⟩
    rcases hsend _ _ hmem with hmem | ⟨rfl, rfl⟩
    · exact .inl ⟨other, hmem, rfl, hmsg, hstg⟩
    · refine .inr (.inr (mem_map_of_mem (mem_filter.mpr ⟨?_, decide_eq_true hmsg⟩)))
      change other.envelope ∈ (without.send found [other.envelope]).links found
      rw [hlink]
      exact mem_append_right _ (.head _)
  · intro found id hid
    exact .inl ((hpar _).2 ▸ hid)
  · rintro (⟨other, hmem, hpay⟩ | ⟨envelope, hmem, hpay⟩)
    · left
      rcases hsend _ _ hmem with hmem | ⟨rfl, rfl⟩
      · exact .inl ⟨other, hmem, hpay⟩
      · refine .inr ⟨other.envelope, ?_, hpay⟩
        change other.envelope ∈ (without.send .client [other.envelope]).links .client
        rw [hlink]
        exact mem_append_right _ (.head _)
    · exact .inl (.inr ⟨envelope, hlin _ _ hmem, hpay⟩)

/-- What a party that takes an envelope keeps. -/
structure Keeps (party after : ChannelClient) (incoming : Envelope) : Prop where
  pushed : after.pushed = party.pushed
  dispatched : ∀ id ∈ party.dispatched, id ∈ after.dispatched
  sending : ∀ sending ∈ party.sending, sending ∈ after.sending
  message : incoming.payload = .message → incoming.id ∈ after.dispatched

theorem keeps_handle (party : ChannelClient) (incoming : Envelope) : Keeps party (party.handle incoming).1 incoming := by
  have hsame := acknowledge_same party incoming.ackId
  have hhan := handled party incoming
  generalize party.handle incoming = after at hhan ⊢
  rw [hsame] at hhan
  have hnot : ∀ {payload : Payload}, incoming.payload = payload → payload ≠ .message →
      incoming.payload = .message → False := by
    intro payload hpay hne hmsg
    exact hne (hpay.symm.trans hmsg)
  cases hhan with
  | flush hpay | started hpay =>
    exact ⟨rfl, fun _ h => h, fun _ hmem => mem_append_left _ hmem, fun h => (hnot hpay (by nofun) h).elim⟩
  | ack resync hpay =>
    exact ⟨rfl, fun _ h => h, fun _ h => h, fun h => (hnot hpay (by nofun) h).elim⟩
  | message resync hpay =>
    exact ⟨rfl, fun _ hid => mem_append_left _ hid, fun _ h => h, fun _ => mem_append_right _ (.head _)⟩

/-- The parties and the links when a party has handled the first envelope that waits for it. -/
theorem deliver_spec (hup : system.up = true) {incoming : Envelope} {rest : List Envelope}
    (hlink : system.links side.other = incoming :: rest) :
    (system.deliver side).parties side = ((system.parties side).handle incoming).1 ∧
      (system.deliver side).parties side.other = system.parties side.other ∧
      (system.deliver side).links side = system.links side ++ ((system.parties side).handle incoming).2 ∧
      (system.deliver side).links side.other = rest := by
  refine ⟨?_, ?_, ?_, ?_⟩
  · rw [deliver_eq hlink, send_parties, setParty_self]
  · rw [deliver_eq hlink, send_parties, setParty_other]
  · rw [deliver_eq hlink, send_self, setParty_up, if_pos hup, setParty_links]
    dsimp only
    rw [update_of_ne (other_ne side).symm]
  · rw [deliver_eq hlink, send_other]
    exact update_self ..

/-- What is taken from the link has arrived, and a request for what is buffered is answered with all of it. -/
theorem grows_deliver (h : Lanes system) (hup : system.up = true) (hcare : system.Careful (.deliver side)) :
    system.Grows (system.deliver side) := by
  cases hlink : system.links _ with
  | nil =>
    unfold System.deliver
    rw [hlink]
    exact ⟨fun _ _ h => h, fun _ _ h => .inl h, fun _ _ h => .inl h, .inl⟩
  | cons incoming rest =>
    obtain ⟨-, hflu⟩ := h.handle hlink hcare
    have hkeep := keeps_handle (system.parties side) incoming
    obtain ⟨hat, hoth, hout, hin⟩ := deliver_spec hup hlink
    refine ⟨?_, ?_, ?_, ?_⟩
    · intro found id harr
      rcases eq_or_other side found with rfl | rfl
      · unfold Arrives at harr ⊢
        rw [hoth, hout, messageIds_append]
        exact harr.imp_right (mem_append_left _)
      · unfold Arrives at harr ⊢
        rw [other_other] at harr ⊢
        rw [hat, hin]
        rw [hlink] at harr
        rcases harr with hid | hid
        · exact .inl (hkeep.dispatched id hid)
        · obtain ⟨envelope, hmem, rfl⟩ := mem_map.mp hid
          obtain ⟨hmem, hmsg⟩ := mem_filter.mp hmem
          rcases mem_cons.mp hmem with rfl | hmem
          · exact .inl (hkeep.message (of_decide_eq_true hmsg))
          · exact .inr (mem_map_of_mem (mem_filter.mpr ⟨hmem, hmsg⟩))
    · rintro found id ⟨sending, hmem, hready⟩
      refine .inl ⟨sending, ?_, hready⟩
      rcases eq_or_other side found with rfl | rfl
      · rw [hat]
        exact hkeep.sending _ hmem
      · rw [hoth]
        exact hmem
    · intro found id hid
      left
      rcases eq_or_other side found with rfl | rfl
      · rw [hat, hkeep.pushed] at hid
        exact hid
      · rw [hoth] at hid
        exact hid
    · rintro (⟨sending, hmem, hpay⟩ | ⟨envelope, hmem, hpay⟩)
      · refine .inl (.inl ⟨sending, ?_, hpay⟩)
        rcases eq_or_other side .client with heq | heq
        · rw [heq, hat]
          rw [heq] at hmem
          exact hkeep.sending _ hmem
        · rw [heq, hoth]
          rw [heq] at hmem
          exact hmem
      · cases side with
        | client =>
          refine .inl (.inr ⟨envelope, ?_, hpay⟩)
          rw [hout]
          exact mem_append_left _ hmem
        | peer =>
          change system.links .client = incoming :: rest at hlink
          rw [hlink] at hmem
          rcases mem_cons.mp hmem with rfl | hmem
          · right
            intro id hid
            left
            unfold Arrives
            rw [hat, hflu hpay, append_nil] at hid
            rw [hoth, hout]
            exact mem_append.mp hid
          · refine .inl (.inr ⟨envelope, ?_, hpay⟩)
            change envelope ∈ (system.deliver .peer).links (Side.other .peer)
            rw [hin]
            exact hmem

/-- What a party is left with after each of its moves. -/
theorem grows_idle : system.Grows (system.setParty .client { system.parties .client with resync := .idle }) :=
  grows_setParty (fun _ h => h) (fun sending hmem => ⟨sending, hmem, rfl, rfl, fun h => h⟩) fun _ hid => .inl hid

theorem grows_replay : system.Grows system.replay := by
  have hidle : system.Grows (system.setParty .client { system.parties .client with resync := .idle }) := grows_idle
  have hgrow := hidle.trans (grows_send .client (system.parties .client).buffer)
  exact ⟨hgrow.arrives, hgrow.ready, hgrow.pushed, hgrow.flushing⟩

/-! ### Runs -/

structure Sound (system : System) : Prop where
  lanes : Lanes system
  up : system.phase ≠ .broken → system.up = true
  client : system.phase = .complete → system.Sent .client
  peer : system.phase ≠ .broken → system.Flushing ∨ system.Sent .peer

theorem sound_new : Sound new := by
  have hsent : ∀ side, new.Sent side := by
    intro side id hid
    nomatch hid
  exact ⟨Lanes.new, fun _ => rfl, fun _ => hsent _, fun _ => .inr (hsent _)⟩

/-- A move that takes nothing back, and leaves the link and the client's resync as they are. -/
theorem Sound.grows (h : Sound system) {after : System} (hlane : Lanes after) (hup : after.up = system.up)
    (hphase : after.phase = system.phase) (hgrow : system.up = true → system.Grows after) : Sound after := by
  refine ⟨hlane, ?_, ?_, ?_⟩
  · rw [hphase, hup]
    exact h.up
  · intro hcom
    rw [hphase] at hcom
    exact (h.client hcom).grows (hgrow (h.up (by rw [hcom]; nofun)))
  · intro hbro
    rw [hphase] at hbro
    have haft := hgrow (h.up hbro)
    rcases h.peer hbro with hflu | hsent
    · exact haft.flushing hflu
    · exact .inr (hsent.grows haft)

theorem deliver_up (side : Side) : (system.deliver side).up = system.up ∧ (system.deliver side).phase = system.phase := by
  unfold System.deliver
  split
  · exact ⟨rfl, rfl⟩
  · exact ⟨send_up .., send_phase ..⟩

/-- The client has sent what it has buffered. -/
theorem Sound.replay (h : Sound system) (hcare : system.Careful .replay) : Sound system.replay := by
  by_cases hphase : system.phase = .broken
  · have haft : system.replay.phase = .broken := by
      unfold System.replay
      dsimp only
      rw [send_phase, setParty_phase, if_pos hphase]
    refine ⟨h.lanes.replay hcare, fun hne => absurd haft hne, fun heq => ?_, fun hne => absurd haft hne⟩
    nomatch haft.symm.trans heq
  · have hup := h.up hphase
    have hlink : system.replay.links .client = system.links .client ++ (system.parties .client).buffer :=
      (send_self ..).trans (if_pos hup)
    have hpush : (system.replay.parties .client).pushed = (system.parties .client).pushed := by
      unfold System.replay
      rw [send_parties, setParty_self]
    have hdis : (system.replay.parties .peer).dispatched = (system.parties .peer).dispatched := by
      unfold System.replay
      rw [send_parties]
      exact congrArg _ (setParty_other _ _ _)
    have hrep := (h.lanes.lanes _).replay (h.lanes.senders _).buffered (hcare hup)
    refine ⟨h.lanes.replay hcare, fun _ => (send_up ..).trans hup, fun _ id hid => .inl ?_, fun _ => ?_⟩
    · rw [hpush, hrep, append_nil] at hid
      change id ∈ (system.replay.parties .peer).dispatched ∨ id ∈ messageIds (system.replay.links .client)
      rw [hdis, hlink]
      exact mem_append.mp hid
    · rcases h.peer hphase with hflu | hsent
      · exact grows_replay.flushing hflu
      · exact .inr (hsent.grows grows_replay)

/-- One case for each move. -/
theorem Sound.apply (h : Sound system) {move : Move} (halw : system.Allowed move) (hcare : system.Careful move) :
    Sound (system.apply move) := by
  cases move with
  | start side respondingTo => exact h.grows (h.lanes.start hcare) rfl rfl fun _ => grows_start side _
  | load side sending => exact h.grows (h.lanes.load halw hcare) rfl rfl fun _ => grows_load halw
  | push side sending => exact h.grows (h.lanes.push halw hcare) rfl rfl fun _ => grows_push h.lanes halw
  | queue side sending =>
    exact h.grows (h.lanes.queue halw hcare) (send_up ..) (send_phase ..) fun hup => grows_queue hup side _
  | deliver side =>
    have hboth : (system.deliver side).up = system.up ∧ (system.deliver side).phase = system.phase := deliver_up side
    obtain ⟨hup, hphase⟩ := hboth
    exact h.grows (h.lanes.deliver halw.1 hcare) hup hphase fun hup => grows_deliver h.lanes hup hcare
  | «break» => exact ⟨h.lanes.break, fun hphase => absurd rfl hphase, nofun, fun hphase => absurd rfl hphase⟩
  | reconnect =>
    have hbro : system.phase = .broken := by
      by_contra hphase
      have hup := h.up hphase
      rw [halw] at hup
      nomatch hup
    refine ⟨h.lanes.reconnect, fun _ => rfl, fun hphase => ?_, fun hphase => absurd hbro hphase⟩
    nomatch hbro.symm.trans hphase
  | resync =>
    refine ⟨h.lanes.resync, fun _ => halw.1, nofun, fun _ => .inl (.inl ?_)⟩
    exact ⟨_, mem_append_right _ (.head _), rfl⟩
  | replay => exact h.replay hcare
  | timeout => exact h.grows h.lanes.idle rfl rfl fun _ => grows_idle

theorem Reach.sound (h : Reach Careful system) : Sound system := by
  induction h with
  | start => exact sound_new
  | move move _ halw hcare ih => exact ih.apply halw hcare

end System

end Wu.Remote
