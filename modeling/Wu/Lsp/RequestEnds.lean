import Wu.Lsp.RequestRuns
import Mathlib.Data.List.Infix

/-!
# Requests come to an end

When the reader or the writer has ended, every request ends in steps that need no message: the dispatcher takes what is queued and
drops the handlers, and a future whose handler is gone is ready.
-/

namespace Wu.Lsp

open List Option Function

theorem countP_lt {p q : Nat → Bool} {l : List Nat} (hle : ∀ x ∈ l, q x = true → p x = true) {x : Nat} (hx : x ∈ l)
    (hp : p x = true) (hq : q x = false) : l.countP q < l.countP p := by
  induction l with
  | nil => nomatch hx
  | cons y l ih =>
    rw [countP_cons, countP_cons]
    have htail : l.countP q ≤ l.countP p := countP_mono_left fun z hz => hle z (.tail _ hz)
    rcases mem_cons.mp hx with rfl | hmem
    · rw [hp, hq]
      simp only [Bool.false_eq_true, if_false, if_true]
      omega
    · have hlt := ih (fun z hz => hle z (.tail _ hz)) hmem
      have hhead := hle y mem_cons_self
      cases hqy : q y with
      | false => simp only [Bool.false_eq_true, if_false]; split <;> omega
      | true =>
        rw [hhead hqy]
        omega

namespace LanguageServer

variable {V : Type} {serde : Serde} {capacity : Nat} {server : LanguageServer V} {request : Nat}

/-! ### What is left to do -/

def Reader.steps : Reader → Nat
  | .stopped => 0
  | .reading => 1
  | .flushing | .answering .. => 2
  | .offering _ => 5

/-- How many of the first requests satisfy a condition. -/
def countRequests (requests : Nat → LspRequest V) (nextId : Nat) (p : LspRequest V → Bool) : Nat :=
  (List.range nextId).countP fun request => p (requests request)

def unsent (requests : Nat → LspRequest V) (nextId : Nat) : Nat := countRequests requests nextId fun value => value.sent.isNone

def waiting (requests : Nat → LspRequest V) (nextId : Nat) : Nat := countRequests requests nextId fun value => value.outcome.isNone

/-- A bound for the inner steps that are left. -/
def measure (server : LanguageServer V) : Nat :=
  8 * server.input.length + Reader.steps server.reader + 2 * server.incoming.length + (if server.dispatcherOver then 0 else 1) +
    unsent server.requests server.nextId + waiting server.requests server.nextId

variable {requests : Nat → LspRequest V} {p : LspRequest V → Bool} {move : Move V}

theorem countRequests_update_le {value : LspRequest V} (h : p value = true → p (requests request) = true) (nextId : Nat) :
    countRequests (Function.update requests request value) nextId p ≤ countRequests requests nextId p := by
  refine countP_mono_left fun found _ hfnd => ?_
  rcases eq_or_ne found request with rfl | hne
  · rw [update_self] at hfnd
    exact h hfnd
  · rwa [update_of_ne hne] at hfnd

theorem countRequests_update_lt {value : LspRequest V} {nextId : Nat}
    (hlt : request < nextId) (hbef : p (requests request) = true) (haft : p value = false) :
    countRequests (Function.update requests request value) nextId p < countRequests requests nextId p := by
  refine countP_lt (fun found _ hfnd => ?_) (mem_range.mpr hlt) hbef ?_
  · rcases eq_or_ne found request with rfl | hne
    · exact hbef
    · rwa [update_of_ne hne] at hfnd
  · rw [update_self]
    exact haft

theorem unsent_update_le (requests : Nat → LspRequest V) (request : Nat) (value : LspRequest V)
    (hsent : value.sent = (requests request).sent) (nextId : Nat) : unsent (Function.update requests request value) nextId ≤ unsent requests nextId := by
  refine countRequests_update_le ?_ _
  rw [hsent]
  exact fun hnone => hnone

theorem waiting_update_le (requests : Nat → LspRequest V) (request : Nat) (value : LspRequest V)
    (houtc : value.outcome = (requests request).outcome) (nextId : Nat) :
    waiting (Function.update requests request value) nextId ≤ waiting requests nextId := by
  refine countRequests_update_le ?_ _
  rw [houtc]
  exact fun hnone => hnone

/-- The handlers are there only as long as the dispatcher and the writer are, and the dispatcher ends after the reader. -/
structure Going (server : LanguageServer V) : Prop where
  dispatcher : server.dispatcherOver = true → server.reader = .stopped ∧ server.incoming = []
  handlers : server.responseHandlers ≠ none → server.dispatcherOver = false ∧ server.outgoing.writerOver = false

theorem Sound.going (h : Sound serde server) : Going server := ⟨h.dispatcher, h.handlers⟩

/-- An inner step brings the end nearer, and an end that has come stays. -/
structure Nearer (server after : LanguageServer V) : Prop where
  going : Going after
  ended : after.Ended
  nextId : after.nextId = server.nextId
  measure : after.measure < server.measure

theorem Going.not_over (h : Going server) (hread : server.reader ≠ .stopped) : server.dispatcherOver ≠ true :=
  fun hover => hread (h.dispatcher hover).1

theorem Ended.writerOver (h : server.Ended) (hread : server.reader ≠ .stopped) : server.outgoing.writerOver = true :=
  h.resolve_left hread

theorem nearer_send (h : Going server) (hended : server.Ended) {method params : String}
    (halw : server.Allowed capacity (.send request method params)) : Nearer server (server.send request method params) := by
  obtain ⟨⟨hlt, -⟩, hsent⟩ := halw
  have hmea : ∀ (outgoing : Outgoing) (sent : Bool),
      ({ server with outgoing }.setRequest request { server.requests request with sent := some sent }).measure < server.measure := by
    intro outgoing sent
    let value := { server.requests request with sent := some sent }
    have huns : unsent (Function.update server.requests request value) server.nextId < unsent server.requests server.nextId :=
      countRequests_update_lt hlt (isNone_iff_eq_none.mpr hsent) rfl
    have hwait : waiting (Function.update server.requests request value) server.nextId ≤ waiting server.requests server.nextId :=
      waiting_update_le _ request value rfl _
    change 8 * server.input.length + Reader.steps server.reader + 2 * server.incoming.length +
      (if server.dispatcherOver then 0 else 1) + unsent (Function.update server.requests request value) server.nextId +
      waiting (Function.update server.requests request value) server.nextId < server.measure
    unfold measure
    omega
  unfold LanguageServer.send
  dsimp only
  split
  · rename_i outgoing hsome
    have hwrit : outgoing.writerOver = server.outgoing.writerOver := by
      unfold Outgoing.trySend at hsome
      split at hsome
      · nomatch hsome
      · obtain rfl := some.inj hsome
        rfl
    refine ⟨⟨h.dispatcher, fun hne => ?_⟩, hended.imp_right fun hover => ?_, rfl, hmea _ _⟩
    · exact ⟨(h.handlers hne).1, hwrit.trans (h.handlers hne).2⟩
    · exact hwrit.trans hover
  · exact ⟨⟨h.dispatcher, h.handlers⟩, hended, rfl, hmea _ _⟩

theorem nearer_finish (h : Going server) (hended : server.Ended) {result : ConnectionResult V}
    (halw : server.Allowed capacity (.finish request result)) :
    Nearer server (server.apply serde (.finish request result)) := by
  obtain ⟨⟨hlt, houtc⟩, -⟩ := halw
  refine ⟨⟨h.dispatcher, h.handlers⟩, hended, rfl, ?_⟩
  let value := { server.requests request with outcome := some result }
  have hwait : waiting (Function.update server.requests request value) server.nextId < waiting server.requests server.nextId :=
    countRequests_update_lt hlt (isNone_iff_eq_none.mpr houtc) rfl
  have huns : unsent (Function.update server.requests request value) server.nextId ≤ unsent server.requests server.nextId :=
    unsent_update_le _ request value rfl _
  change 8 * server.input.length + Reader.steps server.reader + 2 * server.incoming.length +
    (if server.dispatcherOver then 0 else 1) + unsent (Function.update server.requests request value) server.nextId +
    waiting (Function.update server.requests request value) server.nextId < server.measure
  unfold measure
  omega

/-- The reader makes a step while the writer has ended. -/
theorem nearer_reader {after : LanguageServer V} (h : Going server) (hended : server.Ended) (hread : server.reader ≠ .stopped)
    (hnone : after.responseHandlers ≠ none → server.responseHandlers ≠ none) (hout : after.outgoing = server.outgoing)
    (hdis : after.dispatcherOver = server.dispatcherOver) (hnextI : after.nextId = server.nextId)
    (hmea : after.measure < server.measure) : Nearer server after := by
  refine ⟨⟨?_, ?_⟩, .inr ?_, hnextI, hmea⟩
  · intro hover
    rw [hdis] at hover
    exact absurd hover (h.not_over hread)
  · intro hsome
    rw [hdis, hout]
    exact h.handlers (hnone hsome)
  · rw [hout]
    exact hended.writerOver hread

/-- The reader has come further. -/
theorem measure_reader (server : LanguageServer V) (input : List UInt8) (reader : Reader) (incoming : List NotificationOrRequest)
    (hless : 8 * input.length + Reader.steps reader + 2 * incoming.length <
      8 * server.input.length + Reader.steps server.reader + 2 * server.incoming.length) :
    8 * input.length + Reader.steps reader + 2 * incoming.length + (if server.dispatcherOver then 0 else 1) +
      unsent server.requests server.nextId + waiting server.requests server.nextId < server.measure := by
  unfold measure
  omega

section

variable (h : Going server) (hended : server.Ended)
include h hended

theorem nearer_read (halw : server.Allowed capacity .read) : Nearer server (server.read serde) := by
  obtain ⟨hrdg, hnotP⟩ := halw
  have hrea : server.reader ≠ .stopped := by
    rw [hrdg]
    nofun
  unfold LanguageServer.read
  split
  · rename_i body rest hread
    have hshr := readMessage_shorter hread
    have hmea : ∀ reader, Reader.steps reader ≤ 5 →
        8 * rest.length + Reader.steps reader + 2 * server.incoming.length + (if server.dispatcherOver then 0 else 1) +
          unsent server.requests server.nextId + waiting server.requests server.nextId < server.measure :=
      fun reader hstep => measure_reader _ rest _ _ (by omega)
    unfold LanguageServer.handleBody
    split
    · exact nearer_reader h hended hrea id rfl rfl rfl (hmea _ le_rfl)
    · split
      · dsimp only
        refine nearer_reader h hended hrea ?_ rfl rfl rfl ?_
        · intro hsome hnone
          refine hsome ?_
          rw [hnone]
          rfl
        · split
          · exact hmea _ (by change 2 ≤ 5; decide)
          · exact hmea .reading (by decide)
      · split
        · refine nearer_reader h hended hrea id rfl rfl rfl (hmea _ ?_)
          rw [hrdg]
          decide
        · exact nearer_reader h hended hrea id rfl rfl rfl (hmea .stopped (by decide))
  · refine nearer_reader h hended hrea id rfl rfl rfl (measure_reader server _ _ _ ?_)
    rw [hrdg]
    change 8 * server.input.length + 0 + 2 * server.incoming.length < 8 * server.input.length + 1 + 2 * server.incoming.length
    omega
  · rename_i hpend
    exact absurd hpend hnotP

theorem nearer_offer (halw : server.Allowed capacity .offer) : Nearer server server.offer := by
  obtain ⟨⟨message, hrdg⟩, -⟩ := halw
  have hread : server.reader ≠ .stopped := by
    rw [hrdg]
    nofun
  unfold LanguageServer.offer
  rw [hrdg]
  dsimp only
  rw [if_neg (h.not_over hread)]
  refine nearer_reader h hended hread id rfl rfl rfl (measure_reader server _ _ _ ?_)
  rw [hrdg, length_append]
  change 8 * server.input.length + 2 + 2 * (server.incoming.length + 1) < 8 * server.input.length + 5 + 2 * server.incoming.length
  omega

theorem nearer_flush (halw : server.Allowed capacity .flush) : Nearer server { server with reader := .reading } := by
  obtain ⟨hflu, -⟩ := halw
  refine nearer_reader h hended (by rw [hflu]; nofun) id rfl rfl rfl (measure_reader server _ _ _ ?_)
  rw [hflu]
  change 8 * server.input.length + 1 + 2 * server.incoming.length < 8 * server.input.length + 2 + 2 * server.incoming.length
  omega

theorem nearer_deserialize (halw : server.Allowed capacity .deserialize) : Nearer server server.deserialize := by
  obtain ⟨request, response, hansg⟩ := halw
  unfold LanguageServer.deserialize
  rw [hansg]
  refine nearer_reader h hended (by rw [hansg]; nofun) id rfl rfl rfl ?_
  let value := { server.requests request with received := some ((server.requests request).resultType.answer response) }
  have huns : unsent (Function.update server.requests request value) server.nextId ≤ unsent server.requests server.nextId :=
    unsent_update_le _ request value rfl _
  have hwait : waiting (Function.update server.requests request value) server.nextId ≤ waiting server.requests server.nextId :=
    waiting_update_le _ request value rfl _
  change 8 * server.input.length + 1 + 2 * server.incoming.length +
    (if server.dispatcherOver then 0 else 1) + unsent (Function.update server.requests request value) server.nextId +
    waiting (Function.update server.requests request value) server.nextId < server.measure
  have hstep : Reader.steps server.reader = 2 := by
    rw [hansg]
    rfl
  unfold measure
  omega

theorem nearer_dispatch (halw : server.Allowed capacity .dispatch) : Nearer server server.dispatch := by
  obtain ⟨hgoi, hne⟩ := halw
  unfold LanguageServer.dispatch
  split
  · rename_i message rest hinc
    refine ⟨⟨fun hover => ?_, h.handlers⟩, hended, rfl, ?_⟩
    · rw [show server.dispatcherOver = true from hover] at hgoi
      nomatch hgoi
    · unfold measure
      rw [hinc]
      dsimp only
      rw [length_cons]
      omega
  · rename_i hinc
    exact absurd hinc hne

end

theorem nearer_dispatcherEnds (hended : server.Ended) (halw : server.Allowed capacity .dispatcherEnds) :
    Nearer server { server with dispatcherOver := true, responseHandlers := none } := by
  obtain ⟨hgoi, hinc, hread⟩ := halw
  refine ⟨⟨fun _ => ⟨hread, hinc⟩, fun hne => absurd rfl hne⟩, hended, rfl, ?_⟩
  unfold measure
  rw [hgoi]
  simp only [Bool.false_eq_true, if_true, if_false]
  omega

theorem Going.nearer (h : Going server) (hended : server.Ended) (hinn : move.isInner = true)
    (halw : server.Allowed capacity move) : Nearer server (server.apply serde move) := by
  cases move with
  | send request method params => exact nearer_send h hended halw
  | finish request result => exact nearer_finish h hended halw
  | read => exact nearer_read h hended halw
  | offer => exact nearer_offer h hended halw
  | flush => exact nearer_flush h hended halw
  | deserialize => exact nearer_deserialize h hended halw
  | dispatch => exact nearer_dispatch h hended halw
  | dispatcherEnds => exact nearer_dispatcherEnds hended halw
  | register | expire | arrive | close | notify | outgoing => nomatch hinn

/-- As long as a request waits, there is a step to make. -/
theorem Going.allowed (h : Going server) (hended : server.Ended) (hwait : server.Waiting request) :
    ∃ move : Move V, move.isInner = true ∧ server.Allowed capacity move := by
  cases hsent : (server.requests _).sent with
  | none => exact ⟨.send _ "" "", rfl, hwait, hsent⟩
  | some sent =>
    have hfin : ∀ {result}, server.Ready request result → ∃ move : Move V, move.isInner = true ∧ server.Allowed capacity move :=
      fun hready => ⟨.finish _ _, rfl, hwait, by rw [hsent]; exact some_ne_none _, hready⟩
    cases hreg : (server.requests _).registered with
    | false => exact hfin (.notRegistered hreg)
    | true =>
      cases sent with
      | false => exact hfin (.notSent hreg hsent)
      | true =>
        cases hrecv : (server.requests _).received with
        | some answer => exact hfin (.received hreg hsent hrecv)
        | none =>
          by_cases hans : server.Answerable request
          · rcases hans with ⟨handlers, hhan, -⟩ | ⟨response, hansg⟩
            · obtain ⟨hdis, hwrit⟩ := h.handlers (by rw [hhan]; exact some_ne_none _)
              have hover : server.reader = .stopped := hended.resolve_right (by rw [hwrit]; exact Bool.false_ne_true)
              by_cases hinc : server.incoming = []
              · exact ⟨.dispatcherEnds, rfl, hdis, hinc, hover⟩
              · exact ⟨.dispatch, rfl, hdis, hinc⟩
            · exact ⟨.deserialize, rfl, request, response, hansg⟩
          · exact hfin (.canceled hreg hsent hrecv hans)

theorem Going.settles (h : Going server) (hended : server.Ended) (hlt : request < server.nextId) :
    server.Settles serde capacity request := by
  induction hmea : server.measure using Nat.strongRecOn generalizing server with
  | ind n ih =>
    by_cases houtc : (server.requests request).outcome = none
    · refine .step (h.allowed hended ⟨hlt, houtc⟩) fun move hinn halw => ?_
      have hnear : Nearer server (server.apply serde move) := h.nearer hended hinn halw
      refine ih _ (hmea ▸ hnear.measure) hnear.going hnear.ended ?_ rfl
      rw [hnear.nextId]
      exact hlt
    · exact .ended houtc

/-! ### Every request ends exactly once -/

theorem setRequest_outcome (server : LanguageServer V) (changed : Nat) {value : LspRequest V}
    (hval : value.outcome = (server.requests changed).outcome) (request : Nat) :
    ((server.setRequest changed value).requests request).outcome = (server.requests request).outcome := by
  rcases eq_or_ne request changed with rfl | hne
  · rw [setRequest_self]
    exact hval
  · rw [setRequest_other _ _ hne]

/-- A request that waits ends, and the others stay as they are. -/
theorem setRequest_ended (server : LanguageServer V) {changed : Nat} (value : LspRequest V) (hwait : server.Waiting changed)
    {outcome : ConnectionResult V} (houtc : (server.requests request).outcome = some outcome) :
    ((server.setRequest changed value).requests request).outcome = some outcome := by
  have hne : request ≠ changed := by
    rintro rfl
    rw [hwait.2] at houtc
    exact some_ne_none _ houtc.symm
  rw [setRequest_other _ _ hne]
  exact houtc

theorem outcome_send (server : LanguageServer V) (sent : Nat) (method params : String) (request : Nat) :
    ((server.send sent method params).requests request).outcome = (server.requests request).outcome := by
  unfold LanguageServer.send
  dsimp only
  split
  · rename_i outgoing _
    refine setRequest_outcome _ sent ?_ _
    rfl
  · refine setRequest_outcome _ sent ?_ _
    rfl

theorem outcome_expire {outcome : ConnectionResult V} {expired : Nat} (hwait : server.Waiting expired)
    (houtc : (server.requests request).outcome = some outcome) :
    ((server.expire expired).requests request).outcome = some outcome := by
  unfold LanguageServer.expire
  split
  · exact setRequest_ended _ _ hwait houtc
  · exact setRequest_ended _ _ hwait houtc

theorem requests_read (serde : Serde) (server : LanguageServer V) : (server.read serde).requests = server.requests := by
  unfold LanguageServer.read
  split
  · unfold LanguageServer.handleBody
    split
    · rfl
    · split
      · rfl
      · split <;> rfl
  · rfl
  · rfl

theorem requests_offer (server : LanguageServer V) : server.offer.requests = server.requests := by
  unfold LanguageServer.offer
  split
  · split <;> rfl
  · rfl

theorem outcome_deserialize (server : LanguageServer V) (request : Nat) :
    (server.deserialize.requests request).outcome = (server.requests request).outcome := by
  unfold LanguageServer.deserialize
  split
  · rename_i answered response _
    refine setRequest_outcome _ _ ?_ _
    rfl
  · rfl

theorem requests_dispatch (server : LanguageServer V) : server.dispatch.requests = server.requests := by
  unfold LanguageServer.dispatch
  split <;> rfl

/-- A request that has ended stays as it ended. -/
theorem ended_stays (halw : server.Allowed capacity move) (hlt : request < server.nextId)
    {outcome : ConnectionResult V} (houtc : (server.requests request).outcome = some outcome) :
    ((server.apply serde move).requests request).outcome = some outcome := by
  cases move with
  | register resultType =>
    change ((Function.update server.requests server.nextId _) request).outcome = some outcome
    rw [update_of_ne (Nat.ne_of_lt hlt)]
    exact houtc
  | send sent method params => exact (outcome_send _ sent _ _ _).trans houtc
  | finish finished result => exact setRequest_ended _ _ halw.1 houtc
  | expire expired => exact outcome_expire halw.1 houtc
  | read =>
    change ((server.read serde).requests request).outcome = some outcome
    rw [requests_read]
    exact houtc
  | offer =>
    change (server.offer.requests request).outcome = some outcome
    rw [requests_offer]
    exact houtc
  | deserialize => exact (outcome_deserialize _ _).trans houtc
  | dispatch =>
    change (server.dispatch.requests request).outcome = some outcome
    rw [requests_dispatch]
    exact houtc
  | arrive | close | flush | dispatcherEnds | notify => exact houtc
  | outgoing move => cases move <;> exact houtc

/-- A reader that has stopped has left no message behind. -/
theorem Sound.all (h : Sound serde server)
    (hstpd : server.reader = .stopped ∨ (server.reader = .reading ∧ ¬ server.Allowed capacity .read)) : NoneFramed server.input := by
  rintro header body more hhead
  rcases hstpd with hover | ⟨hrdg, hnotA⟩
  · rcases h.stopped hover with hmal | ⟨-, hnone⟩
    · exact hmal.not_framed hhead
    · exact hnone _ body more hhead
  · intro heq
    refine hnotA ⟨hrdg, ?_⟩
    rw [heq, readMessage_complete hhead]
    nofun

/-- At rest nothing waits for the dispatcher. -/
theorem Sound.delivered (h : Sound serde server) (hrest : ∀ move : Move V, move.isInner = true → ¬ server.Allowed capacity move) :
    server.dispatched = messages serde server.bodies := by
  have hinc : server.incoming = [] := by
    refine Classical.byContradiction fun hne => ?_
    cases hdis : server.dispatcherOver with
    | true => exact hne (h.dispatcher hdis).2
    | false => exact hrest .dispatch rfl ⟨hdis, hne⟩
  have hinH : Reader.inHand server.reader = [] := by
    cases hread : server.reader with
    | offering message =>
      refine absurd ⟨⟨message, hread⟩, ?_⟩ (hrest .offer rfl)
      rw [hinc]
      exact Nat.zero_le _
    | reading | flushing | answering | stopped => rfl
  have hord := h.order
  rw [hinc, hinH, append_nil, append_nil] at hord
  exact hord

/-- When each body is a message or text, the reader recovers what was framed, and every request ends once and with its own answer. -/
theorem requests_end_exactly (h : Reach serde capacity (fun server => server.Careful serde) server) :
    server.Exact serde capacity where
  framed := h.sound.framed
  all := h.sound.all
  answered := fun request hlt => (h.sound.faithful request hlt).answered
  canceled := fun request hlt => (h.sound.faithful request hlt).canceled
  once := fun _ hallowed _ hlt _ houtcome => ended_stays hallowed hlt houtcome
  inOrder := by
    rw [← h.sound.order, append_assoc]
    exact prefix_append _ _
  delivered := h.sound.delivered
  settles := fun hended _ hlt => h.sound.going.settles hended hlt

/-! ### Runs on a few bytes -/

/-- The state after moves that are made one after another. -/
def run (serde : Serde) (requests : Nat → LspRequest V) (moves : List (Move V)) : LanguageServer V :=
  moves.foldl (fun server move => server.apply serde move) (.new requests)

theorem Reach.run {condition : LanguageServer V → Move V → Prop} {moves : List (Move V)}
    (h : Follows (fun server move => LanguageServer.apply server serde move)
      (fun server move => server.Allowed capacity move ∧ condition server move) (.new requests) moves) : Reach serde capacity condition (run serde requests moves) :=
  Follows.keeps (fun _ move hrch hmove => hrch.move move hmove.1 hmove.2) (.start _) h

/-- `Content-Length: 35` and a blank line. -/
def responseHeader : List UInt8 :=
  [0x43, 0x6F, 0x6E, 0x74, 0x65, 0x6E, 0x74, 0x2D, 0x4C, 0x65, 0x6E, 0x67, 0x74, 0x68, 0x3A, 0x20, 0x33, 0x35, 0x0D, 0x0A, 0x0D, 0x0A]

/-- `\x7b"jsonrpc":"2.0","id":0,"result":1\x7d`. -/
def responseBody : List UInt8 :=
  [0x7B, 0x22, 0x6A, 0x73, 0x6F, 0x6E, 0x72, 0x70, 0x63, 0x22, 0x3A, 0x22, 0x32, 0x2E, 0x30, 0x22, 0x2C, 0x22, 0x69,
    0x64, 0x22, 0x3A, 0x30, 0x2C, 0x22, 0x72, 0x65, 0x73, 0x75, 0x6C, 0x74, 0x22, 0x3A, 0x31, 0x7D]

/-- Only the body above is looked at. -/
def demoSerde : Serde where
  notificationOrRequest _ := none
  anyResponse body := if body = responseBody then some ⟨.int 0, none, some "1"⟩ else none

def demoResult : ResultType Nat where
  isUnit := false
  fromStr result := if result = "1" then .ok 1 else .error "expected 1"

def demoRequests (_ : Nat) : LspRequest Nat := ⟨0, demoResult, false, none, none, none, 0⟩

theorem readMessage_demo : readMessage false (responseHeader ++ responseBody) = .done responseBody [] := by rfl

/-- A request gets its answer in two pieces. -/
theorem requests_end_exactly_demo : (run demoSerde demoRequests [.register demoResult, .send 0 "textDocument/foldingRange" "\x7b\x7d",
    .arrive responseHeader, .arrive responseBody, .read, .deserialize, .finish 0 (.result (.ok 1))]).Exact demoSerde 100 := by
  refine requests_end_exactly (Reach.run ⟨⟨trivial, trivial⟩, ⟨⟨⟨by decide, rfl⟩, rfl⟩, trivial⟩, ⟨rfl, trivial⟩, ⟨rfl, trivial⟩,
    ⟨⟨rfl, ?_⟩, ?_⟩, ⟨⟨0, ⟨.int 0, none, some "1"⟩, rfl⟩, trivial⟩, ⟨⟨⟨by decide, rfl⟩, nofun, .received rfl rfl rfl⟩, trivial⟩, trivial⟩)
  · change readMessage false (responseHeader ++ responseBody) ≠ .pending
    rw [readMessage_demo]
    nofun
  · intro body rest hread _ hresponse
    change readMessage false (responseHeader ++ responseBody) = .done body rest at hread
    rw [readMessage_demo] at hread
    obtain ⟨rfl, -⟩ := Reading.done.inj hread
    have hsome : demoSerde.anyResponse responseBody = some ⟨.int 0, none, some "1"⟩ := by
      unfold demoSerde
      dsimp only
      rw [if_pos rfl]
    rw [hsome] at hresponse
    exact absurd hresponse (some_ne_none _)

/-- `Content-Length: 1`, a blank line, and a byte that is no text. -/
def noText : List UInt8 :=
  [0x43, 0x6F, 0x6E, 0x74, 0x65, 0x6E, 0x74, 0x2D, 0x4C, 0x65, 0x6E, 0x67, 0x74, 0x68, 0x3A, 0x20, 0x31, 0x0D, 0x0A, 0x0D, 0x0A, 0xFF]

theorem isHeader_response : IsHeader responseHeader 35 where
  ends := by decide
  first := by
    intro shorter hshr
    have hall : ∀ shorter ∈ responseHeader.inits, headerDelimiter <:+ shorter → shorter = responseHeader := by decide
    exact hall _ ((mem_inits _ _).mpr hshr)
  length := by decide

/-- The reader ends at a body that is no text, and does not read the response that follows it. -/
theorem reader_gives_up : ¬ ∀ server : LanguageServer Nat, Reach demoSerde 100 (fun _ _ => True) server →
    server.Exact demoSerde 100 := by
  intro hall
  have hread : readMessage false (noText ++ responseHeader ++ responseBody) = .done [0xFF] (responseHeader ++ responseBody) := by rfl
  have hreach : Reach demoSerde 100 (fun _ _ => True)
      (run demoSerde demoRequests [.arrive (noText ++ responseHeader ++ responseBody), .read]) := by
    refine Reach.run ⟨⟨rfl, trivial⟩, ⟨⟨rfl, ?_⟩, trivial⟩, trivial⟩
    change readMessage false (noText ++ responseHeader ++ responseBody) ≠ .pending
    rw [hread]
    nofun
  refine (hall _ hreach).all (.inl rfl) responseHeader responseBody [] isHeader_response ?_
  rfl

end LanguageServer

end Wu.Lsp
