import Wu.Remote.ChannelRuns
import Wu.Runs

/-!
# Messages across breaks of the link

In every run whose moves are careful, each message is handed to the dispatch at most once, messages are handed to it in the order of
their ids, a message stays in the buffer until it has been received, and after a resync that has completed what is under way comes
to an end, with every message received.
-/

namespace Wu.Remote

open List Bool

/-- What brings envelopes further that are under way: no new message, no break and no new resync. -/
def Move.isInner : Move → Bool
  | load .. => true
  | push .. => true
  | queue .. => true
  | deliver _ => true
  | replay => true
  | _ => false

namespace System

variable {system : System}

/-- A careful move brings envelopes further. -/
def GoesOn (system after : System) : Prop :=
  ∃ move, move.isInner = true ∧ system.Allowed move ∧ system.Careful move ∧ after = system.apply move

/-! ### What is under way comes to an end -/

/-- How many envelopes of a kind a side has under way. -/
def count (payload : Payload) (party : ChannelClient) (link : List Envelope) : Nat :=
  party.sending.countP (fun sending => sending.envelope.payload = payload) + link.countP fun envelope => envelope.payload = payload

/-- How many steps the envelopes of a side have before them. -/
def steps (party : ChannelClient) (link : List Envelope) : Nat :=
  4 * party.sending.countP (fun sending => sending.stage = .taken) +
    3 * party.sending.countP (fun sending => sending.stage = .loaded) +
    2 * party.sending.countP (fun sending => sending.stage = .ready) + link.length

def Resync.steps : Resync → Nat
  | .idle => 0
  | .answered => 1
  | .waiting _ => 2

/-- A sum over both sides. -/
def both (f : ChannelClient → List Envelope → Nat) (system : System) : Nat :=
  f (system.parties .client) (system.links .client) + f (system.parties .peer) (system.links .peer)

theorem both_eq (f : ChannelClient → List Envelope → Nat) (side : Side) :
    both f system = f (system.parties side) (system.links side) + f (system.parties side.other) (system.links side.other) := by
  cases side with
  | client => rfl
  | peer => exact Nat.add_comm ..

/-- The requests for what is buffered, how far the client's resync is, the starts, and the steps before what is under way. -/
def measure (system : System) : Nat × Nat × Nat × Nat :=
  (both (count .flushBufferedMessages) system, Resync.steps (system.parties .client).resync, both (count .remoteStarted) system,
    both steps system)

def Less : Nat × Nat × Nat × Nat → Nat × Nat × Nat × Nat → Prop :=
  Prod.Lex (· < ·) (Prod.Lex (· < ·) (Prod.Lex (· < ·) (· < ·)))

theorem less_wf : WellFounded Less :=
  (Prod.lex _ _).wf

theorem lex_of_le {β : Type} {r : β → β → Prop} {a a' : Nat} {b b' : β} (ha : a' ≤ a) (hb : r b' b) :
    Prod.Lex (· < ·) r (a', b') (a, b) := by
  rcases Nat.lt_or_eq_of_le ha with hlt | rfl
  · exact .left _ _ hlt
  · exact .right _ hb

variable {sendings : List Sending} {sending : Sending} {side : Side}

theorem countP_erase (hmem : sending ∈ sendings) (p : Sending → Bool) :
    sendings.countP p = (sendings.erase sending).countP p + if p sending then 1 else 0 := by
  rw [(perm_cons_erase hmem).countP_eq, countP_cons]

theorem countP_advance (hmem : sending ∈ sendings) (after : Sending)
    (p : Sending → Bool) : (sendings.erase sending ++ [after]).countP p + (if p sending then 1 else 0) =
      sendings.countP p + if p after then 1 else 0 := by
  rw [countP_erase hmem, countP_append, countP_singleton]
  omega

/-- Something that is being sent gets further. -/
theorem measure_advance {after : Sending} {party : ChannelClient} (hmem : sending ∈ (system.parties side).sending)
    (hsend : party.sending = (system.parties side).sending.erase sending ++ [after])
    (hpay : after.envelope.payload = sending.envelope.payload) (hres : party.resync = (system.parties side).resync)
    (hstg : sending.stage = .taken ∧ after.stage ≠ .taken ∨ sending.stage = .loaded ∧ after.stage = .ready) :
    Less (system.setParty side party).measure system.measure := by
  have hcnt : ∀ payload, both (count payload) (system.setParty side party) = both (count payload) system := by
    intro payload
    rw [both_eq, both_eq _ side, setParty_self, setParty_other, setParty_links]
    have hadv := countP_advance hmem after fun sending => sending.envelope.payload = payload
    unfold count
    rw [hsend]
    rw [hpay] at hadv
    omega
  have hstep : both steps (system.setParty side party) < both steps system := by
    rw [both_eq, both_eq _ side, setParty_self, setParty_other, setParty_links]
    have htak := countP_advance hmem after fun sending => sending.stage = .taken
    have hload := countP_advance hmem after fun sending => sending.stage = .loaded
    have hready := countP_advance hmem after fun sending => sending.stage = .ready
    unfold steps
    rw [hsend]
    rcases hstg with ⟨hbef, haft⟩ | ⟨hbef, haft⟩
    · cases hstg : after.stage with
      | taken => exact absurd hstg haft
      | loaded | ready =>
        simp only [hbef, hstg, decide_true, reduceCtorEq, decide_false, if_true, false_eq_true, if_false] at htak hload hready
        omega
    · simp only [hbef, haft, decide_true, reduceCtorEq, decide_false, if_true, false_eq_true, if_false] at htak hload hready
      omega
  have hcli : ((system.setParty side party).parties .client).resync = (system.parties .client).resync := by
    rcases eq_or_other side .client with heq | heq
    · rw [heq, setParty_self, hres]
    · rw [heq, setParty_other]
  unfold measure
  rw [hcnt, hcnt, hcli]
  exact .right _ (.right _ (.right _ hstep))

/-- Something that is ready goes on the link, if there is one. -/
theorem measure_queue (halw : system.Allowed (.queue side sending)) :
    Less (system.apply (.queue side sending)).measure system.measure := by
  obtain ⟨hmem, hstg⟩ := halw
  have hpar : ∀ found, ((system.apply (.queue side sending)).parties found).resync = (system.parties found).resync := by
    intro found
    unfold System.apply
    rw [send_parties]
    rcases eq_or_other side found with rfl | rfl
    · rw [setParty_self]
    · rw [setParty_other]
  have hself : ((system.apply (.queue side sending)).parties side).sending = (system.parties side).sending.erase sending := by
    unfold System.apply
    rw [send_parties, setParty_self]
  have hoth : (system.apply (.queue side sending)).parties side.other = system.parties side.other := by
    unfold System.apply
    rw [send_parties, setParty_other]
  have hback : (system.apply (.queue side sending)).links side.other = system.links side.other := send_other ..
  have hlink : (system.apply (.queue side sending)).links side = system.links side ++ [sending.envelope] ∨
      (system.apply (.queue side sending)).links side = system.links side := by
    unfold System.apply
    rw [send_self]
    split
    · exact .inl rfl
    · exact .inr rfl
  have hcnt : ∀ payload, both (count payload) (system.apply (.queue side sending)) ≤ both (count payload) system := by
    intro payload
    rw [both_eq _ side, both_eq _ side, hoth, hback]
    have hera := countP_erase hmem fun sending => sending.envelope.payload = payload
    unfold count
    rw [hself]
    rcases hlink with hlink | hlink
    · rw [hlink, countP_append, countP_singleton]
      omega
    · rw [hlink]
      omega
  have hstep : both steps (system.apply (.queue side sending)) < both steps system := by
    rw [both_eq _ side, both_eq _ side, hoth, hback]
    have htak := countP_erase hmem fun sending => sending.stage = .taken
    have hload := countP_erase hmem fun sending => sending.stage = .loaded
    have hready := countP_erase hmem fun sending => sending.stage = .ready
    simp only [hstg, decide_true, reduceCtorEq, decide_false, if_true, false_eq_true, if_false] at htak hload hready
    unfold steps
    rw [hself]
    rcases hlink with hlink | hlink
    · rw [hlink, length_append, length_singleton]
      omega
    · rw [hlink]
      omega
  unfold measure
  rw [hpar]
  exact lex_of_le (hcnt _) (.right _ (lex_of_le (hcnt _) hstep))

theorem respond_steps (party : ChannelClient) (respondingTo : Option Nat) :
    Resync.steps (party.respond respondingTo).resync ≤ Resync.steps party.resync := by
  unfold ChannelClient.respond
  split
  · rename_i request id hres
    split
    · rw [hres]
      exact Nat.le_succ 1
    · exact le_rfl
  · exact le_rfl

theorem handle_steps (party : ChannelClient) (incoming : Envelope) :
    Resync.steps (party.handle incoming).1.resync ≤ Resync.steps party.resync := by
  have hsame : (party.acknowledge incoming.ackId).resync = party.resync := by rw [ChannelClient.acknowledge_same]
  rw [← hsame]
  unfold ChannelClient.handle
  split
  · exact le_rfl
  · exact le_rfl
  · exact respond_steps ..
  · exact respond_steps ..

/-- An envelope is taken. -/
theorem measure_deliver (h : Lanes system) (hup : system.up = true) (hlin : system.links side.other ≠ []) :
    Less (system.deliver side).measure system.measure := by
  obtain ⟨incoming, rest, hlink⟩ := exists_cons_of_ne_nil hlin
  obtain ⟨hat, hoth, hout, hin⟩ := deliver_spec hup hlink
  have hres : Resync.steps ((system.deliver side).parties .client).resync ≤ Resync.steps (system.parties .client).resync := by
    rcases eq_or_other side .client with heq | heq
    · rw [heq, hat]
      exact handle_steps ..
    · rw [heq, hoth]
  have hbuf := ((h.senders side).acknowledge incoming.ackId).buffered
  have hsend : ((system.parties side).acknowledge incoming.ackId).sending = (system.parties side).sending := by
    rw [ChannelClient.acknowledge_same]
  have hhan := ChannelClient.handled (system.parties side) incoming
  unfold measure
  rw [both_eq, both_eq, both_eq, both_eq _ side, both_eq _ side, both_eq _ side, hat, hoth, hout, hin, hlink]
  generalize (system.parties side).handle incoming = after at hhan ⊢
  generalize (system.parties side).acknowledge incoming.ackId = party at hbuf hsend hhan
  cases hhan with
  | flush hpay =>
    refine .left _ _ ?_
    have hnone : party.buffer.countP (fun envelope => envelope.payload = .flushBufferedMessages) = 0 := by
      refine countP_eq_zero.mpr fun message hmem => ?_
      rw [hbuf _ hmem]
      nofun
    unfold count ChannelClient.start
    simp only [countP_append, countP_cons, countP_nil, hnone, hsend, hpay, reduceCtorEq, decide_false,
      decide_true, if_true, false_eq_true, if_false]
    omega
  | started hpay =>
    refine lex_of_le ?_ (lex_of_le hres (.left _ _ ?_))
    · unfold count ChannelClient.start
      simp only [append_nil, countP_append, countP_cons, countP_nil, hsend, hpay, reduceCtorEq, decide_false, false_eq_true, if_false]
      omega
    · unfold count ChannelClient.start
      simp only [append_nil, countP_append, countP_cons, countP_nil, hsend, hpay, reduceCtorEq,
        decide_false, decide_true, if_true, false_eq_true, if_false]
      omega
  | ack resync hpay | message resync hpay =>
    refine lex_of_le ?_ (lex_of_le hres (lex_of_le ?_ ?_))
    · unfold count
      rw [append_nil, countP_cons, hsend]
      omega
    · unfold count
      rw [append_nil, countP_cons, hsend]
      omega
    · unfold steps
      rw [append_nil, length_cons, hsend]
      omega

/-- The client sends again what it has buffered, and its resync is over. -/
theorem measure_replay (h : Lanes system) (hansd : (system.parties .client).resync = .answered) :
    Less system.replay.measure system.measure := by
  have hcli : system.replay.parties .client = { system.parties .client with resync := .idle } := by
    unfold System.replay
    rw [send_parties, setParty_self]
  have hpeer : system.replay.parties .peer = system.parties .peer := by
    unfold System.replay
    rw [send_parties]
    exact setParty_other _ _ _
  have hback : system.replay.links .peer = system.links .peer := send_other _ _ _
  have hnone : (system.parties .client).buffer.countP (fun envelope => envelope.payload = .flushBufferedMessages) = 0 := by
    refine countP_eq_zero.mpr fun message hmem => ?_
    rw [(h.senders _).buffered _ hmem]
    nofun
  have hlink : (system.replay.links .client).countP (fun envelope => envelope.payload = .flushBufferedMessages) =
      (system.links .client).countP fun envelope => envelope.payload = .flushBufferedMessages := by
    unfold System.replay
    rw [send_self]
    split
    · rw [countP_append, hnone]
      rfl
    · rfl
  refine lex_of_le ?_ (.left _ _ ?_)
  · unfold both count
    rw [hcli, hpeer, hback, hlink]
  · rw [hcli, hansd]
    exact Nat.zero_lt_one

/-- Each careful move that brings envelopes further comes nearer to the end. -/
theorem GoesOn.less {after : System} (h : Sound system) (hgoes : system.GoesOn after) :
    Less after.measure system.measure ∧ Sound after := by
  obtain ⟨move, hinn, halw, hcare, rfl⟩ := hgoes
  refine ⟨?_, h.apply halw hcare⟩
  cases move with
  | load side sending =>
    refine measure_advance halw.1 rfl rfl rfl (.inl ⟨halw.2, ?_⟩)
    split <;> nofun
  | push side sending => exact measure_advance halw.1 rfl rfl rfl (.inr ⟨halw.2, rfl⟩)
  | queue side sending => exact measure_queue halw
  | deliver side => exact measure_deliver h.lanes halw.1 halw.2
  | replay => exact measure_replay h.lanes halw
  | _ => nomatch hinn

theorem Sound.settles (h : Sound system) : Acc (fun after before : System => before.GoesOn after) system := by
  have hacc := less_wf.apply system.measure
  generalize hmea : system.measure = size at hacc
  induction hacc generalizing system with
  | intro size _ ih =>
    refine .intro _ fun after hgoes => ?_
    obtain ⟨hless, hsou⟩ := GoesOn.less h hgoes
    exact ih _ (hmea ▸ hless) hsou rfl

/-- Nothing is being sent and nothing is on the link. -/
def Rests (system : System) : Prop := ∀ side, (system.parties side).sending = [] ∧ system.links side = []

/-- Messages are handed on at most once and in the order of their ids, they stay in the buffer until they have been received, and
after a resync that has completed all of them are received once what is under way has arrived. -/
structure Exact (system : System) : Prop where
  once : ∀ side, (system.parties side).dispatched.Pairwise (· < ·)
  sent : ∀ side : Side, (system.parties side.other).dispatched <+: (system.parties side).pushed
  kept : ∀ side : Side, ∀ id ∈ (system.parties side).pushed,
    id ∈ (system.parties side).buffer.map Envelope.id ∨ id ∈ (system.parties side.other).dispatched
  settles : Acc (fun after before : System => before.GoesOn after) system
  all : system.phase = .complete → (∀ move, move.isInner = true → ¬ system.Allowed move) → ∀ side : Side,
    (system.parties side.other).dispatched = (system.parties side).pushed

theorem Lanes.sent (h : Lanes system) (side : Side) : (system.parties side.other).dispatched <+: (system.parties side).pushed := by
  obtain ⟨left, hleft⟩ := (h.lanes side).order
  rw [hleft]
  exact prefix_append _ _

theorem Lanes.kept (h : Lanes system) (side : Side) {id : Nat} (hid : id ∈ (system.parties side).pushed) :
    id ∈ (system.parties side).buffer.map Envelope.id ∨ id ∈ (system.parties side.other).dispatched := by
  obtain ⟨left, hleft⟩ := (h.lanes side).order
  obtain ⟨removed, -, hbuf⟩ := (h.lanes side).buffer_eq hleft
  rw [hleft] at hid
  rw [hbuf]
  rcases mem_append.mp hid with hid | hid
  · exact .inr hid
  · exact .inl (mem_append_right _ hid)

/-- A party that has sent everything has had it received when nothing is under way. -/
theorem Sent.all (h : system.Sent side) (hlane : Lanes system) (hrest : system.Rests) :
    (system.parties side.other).dispatched = (system.parties side).pushed := by
  obtain ⟨left, hleft⟩ := (hlane.lanes side).order
  have hsort := (hlane.senders side).sorted
  have hnone : messageIds (system.links side) = [] := by
    rw [(hrest side).2]
    rfl
  rw [hnone, nil_append] at hleft
  rw [hleft] at hsort ⊢
  have hemp : left = [] := by
    refine eq_nil_iff_forall_not_mem.mpr fun id hid => ?_
    have hpush : id ∈ (system.parties side).pushed := by
      rw [hleft]
      exact mem_append_right _ hid
    rcases h id hpush with (hrecv | hlink) | ⟨sending, hmem, -⟩
    · exact Nat.lt_irrefl id ((pairwise_append.mp hsort).2.2 id hrecv id hid)
    · rw [hnone] at hlink
      nomatch hlink
    · rw [(hrest side).1] at hmem
      nomatch hmem
  rw [hemp, append_nil]

/-- Without a move that brings envelopes further, nothing is under way. -/
theorem rests (hup : system.up = true) (hstu : ∀ move, move.isInner = true → ¬ system.Allowed move) : system.Rests := by
  intro side
  refine ⟨?_, ?_⟩
  · refine eq_nil_iff_forall_not_mem.mpr fun sending hmem => ?_
    cases hstg : sending.stage with
    | taken => exact hstu (.load side _) rfl ⟨hmem, hstg⟩
    | loaded => exact hstu (.push side _) rfl ⟨hmem, hstg⟩
    | ready => exact hstu (.queue side _) rfl ⟨hmem, hstg⟩
  · by_contra hlink
    refine hstu (.deliver side.other) rfl ⟨hup, ?_⟩
    rw [other_other]
    exact hlink

theorem Sound.exact (h : Sound system) : Exact system := by
  have honce : ∀ side : Side, (system.parties side.other).dispatched.Pairwise (· < ·) := by
    intro side
    exact (h.lanes.senders side).sorted.sublist (h.lanes.sent side).sublist
  refine ⟨fun side => ?_, h.lanes.sent, fun side id hid => h.lanes.kept side hid, h.settles, ?_⟩
  · have hside := honce side.other
    rw [other_other] at hside
    exact hside
  · intro hcom hstu side
    have hrest := rests (h.up (by rw [hcom]; nofun)) hstu
    cases side with
    | client => exact (h.client hcom).all h.lanes hrest
    | peer =>
      rcases h.peer (by rw [hcom]; nofun) with (⟨sending, hmem, -⟩ | ⟨envelope, hmem, -⟩) | hsent
      · rw [(hrest _).1] at hmem
        nomatch hmem
      · rw [(hrest _).2] at hmem
        nomatch hmem
      · exact hsent.all h.lanes hrest

end System

namespace System

/-- The state after moves that are made one after another. -/
def run (moves : List Move) : System := moves.foldl System.apply .new

theorem Reach.run {condition : System → Move → Prop} {moves : List Move}
    (h : Follows System.apply (fun system move => system.Allowed move ∧ condition system move) .new moves) :
    Reach condition (run moves) :=
  Follows.keeps (fun _ move hrch hmove => hrch.move move hmove.1 hmove.2) .start h

end System

def demoMessage (ackId : Option Nat) (stage : Stage) : Sending where
  envelope := { id := 0, ackId, respondingTo := none, payload := .message }
  stage

end Wu.Remote
