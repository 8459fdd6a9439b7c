import Wu.Lsp.Requests

/-!
# The answers of a language server

In every run in which each body is a message or text, the reader recovers what was framed, and requests end once and with their own
answers.
-/

namespace Wu.Lsp

open List Function Option Outgoing

/-! ### A reader that gives up -/

/-- The header at the front says no length. -/
def Malformed (input : List UInt8) : Prop :=
  ∃ header rest, input = header ++ rest ∧ headerDelimiter <:+ header ∧
    (∀ shorter, shorter <+: header → headerDelimiter <:+ shorter → shorter = header) ∧ contentLength header = none

theorem Malformed.extend {input : List UInt8} (h : Malformed input) (piece : List UInt8) : Malformed (input ++ piece) := by
  obtain ⟨header, rest, rfl, hends, hfst, hlen⟩ := h
  exact ⟨header, rest ++ piece, append_assoc .., hends, hfst, hlen⟩

/-- A malformed header is not the header of a message. -/
theorem Malformed.not_framed {input header body more : List UInt8} (h : Malformed input) (hhead : IsHeader header body.length) :
    input ≠ header ++ body ++ more := by
  obtain ⟨malformed, rest, rfl, hends, hfst, hlen⟩ := h
  intro heq
  rw [append_assoc] at heq
  have hsame : malformed = header := by
    rcases prefix_or_prefix_of_prefix (prefix_append _ rest) (heq ▸ prefix_append header _) with hshr | hshr
    · exact hhead.first _ hshr hends
    · exact (hfst _ hshr hhead.ends).symm
  rw [hsame, hhead.length] at hlen
  nomatch hlen

/-- While the stream goes on, the end of a header is awaited. -/
theorem readHeaders_open (buffer input : List UInt8) : readHeaders false buffer input ≠ .failed := by
  induction input generalizing buffer with
  | nil => nofun
  | cons byte input ih =>
    rw [readHeaders_cons]
    split
    · nofun
    · exact ih _

/-- Reading fails at a malformed header, or at the end of the stream. -/
theorem readMessage_failed {eof : Bool} {input : List UInt8} (h : readMessage eof input = .failed) :
    Malformed input ∨ eof = true := by
  unfold readMessage at h
  split at h
  · rename_i header more hhea
    obtain ⟨header, -, rfl, rfl, hends, hfst⟩ := readHeaders_sound hhea
    split at h
    · split at h
      · nomatch h
      · split at h
        · rename_i heof
          exact .inr heof
        · nomatch h
    · rename_i hlen
      refine .inl ⟨header, more, rfl, hends, ?_, hlen⟩
      intro shorter hshr hshrE
      refine hfst _ (List.nil_prefix) ?_ hshr hshrE
      rintro rfl
      nomatch hshrE.length_le
  · rename_i hhea
    refine .inr ?_
    cases eof with
    | true => rfl
    | false => exact absurd hhea (readHeaders_open [] _)
  · nomatch h

/-! ### What is issued stays issued -/

namespace Outgoing

variable {outgoing : Outgoing} {message : Message}

theorem mem_notify (h : message ∈ outgoing.issued) (other : Message) : message ∈ ((outgoing.notify other).getD outgoing).issued := by
  unfold Outgoing.notify
  split
  · exact h
  · exact mem_append_left _ h

/-- What happens to the notifications leaves the writer as it is. -/
theorem notify_writerOver (outgoing : Outgoing) (message : Message) :
    ((outgoing.notify message).getD outgoing).writerOver = outgoing.writerOver ∧
      ((outgoing.notify message).getD outgoing).serializerOver = outgoing.serializerOver := by
  unfold Outgoing.notify
  split
  · exact ⟨rfl, rfl⟩
  · exact ⟨rfl, rfl⟩

/-- A notification is issued as long as the queue is open. -/
theorem mem_notify_self (h : outgoing.serializerOver = false) (message : Message) :
    message ∈ ((outgoing.notify message).getD outgoing).issued := by
  unfold Outgoing.notify
  rw [if_neg (by rw [h]; exact Bool.false_ne_true)]
  exact mem_append_right _ (.head _)

/-- A step of a task issues nothing, and leaves the queue of the notifications open as long as the writer goes on. -/
structure TaskStep (outgoing after : Outgoing) : Prop where
  issued : after.issued = outgoing.issued
  writerOver : after.writerOver = false → outgoing.writerOver = false
  serializerOver : after.writerOver = false → outgoing.serializerOver = false → after.serializerOver = false

theorem TaskStep.rfl : TaskStep outgoing outgoing := ⟨Eq.refl _, id, fun _ => id⟩

theorem serialize_step : TaskStep outgoing outgoing.serialize := by
  unfold Outgoing.serialize
  split
  · exact ⟨rfl, id, fun _ => id⟩
  · exact .rfl

theorem forward_step : TaskStep outgoing outgoing.forward := by
  unfold Outgoing.forward
  split
  · split
    · rename_i hover
      refine ⟨rfl, id, fun hopen => ?_⟩
      rw [show outgoing.writerOver = false from hopen] at hover
      nomatch hover
    · exact ⟨rfl, id, fun _ => id⟩
  · exact .rfl

theorem receive_step : TaskStep outgoing outgoing.receive := by
  unfold Outgoing.receive
  split
  · exact ⟨rfl, id, fun _ => id⟩
  · exact .rfl

theorem write_step : TaskStep outgoing outgoing.write := by
  unfold Outgoing.write
  split
  · exact ⟨rfl, id, fun _ => id⟩
  · exact .rfl

end Outgoing

/-- The message that the reader has in hand. -/
def Reader.inHand : Reader → List NotificationOrRequest
  | .offering message => [message]
  | _ => []

namespace LanguageServer

variable {V : Type} {serde : Serde} {capacity : Nat} {server after : LanguageServer V} {request : Nat}

/-! ### One request -/

/-- The first response with the id of a request since it was registered. -/
def first (server : LanguageServer V) (request : Nat) : Option AnyResponse :=
  firstResponse (server.requests request).id (server.responses.drop (server.requests request).responsesBefore)

theorem firstResponse_append (id : Int32) (responses later : List AnyResponse) :
    firstResponse id (responses ++ later) = (firstResponse id responses).or (firstResponse id later) :=
  List.find?_append

theorem firstResponse_single (id : Int32) (response : AnyResponse) :
    firstResponse id [response] = if response.id = .int id then some response else none := by
  unfold firstResponse
  rw [List.find?_singleton]
  simp

/-- What holds of a request. As long as its handler is there, no response with its id has come. -/
structure Faithful (server : LanguageServer V) (request : Nat) : Prop where
  before : (server.requests request).responsesBefore ≤ server.responses.length
  present : ∀ handlers, server.responseHandlers = some handlers →
    handlers (.int (server.requests request).id) = some request → server.first request = none
  answering : ∀ response, server.reader = .answering request response → server.first request = some response
  received : ∀ answer, (server.requests request).received = some answer →
    ∃ response, server.first request = some response ∧ answer = (server.requests request).resultType.answer response
  answered : ∀ result, (server.requests request).outcome = some (.result result) →
    result = .error "server shut down" ∨ result = .error "failed to write to language server's stdin" ∨
      ∃ response, server.first request = some response ∧ result = (server.requests request).resultType.answer response
  canceled : (server.requests request).outcome = some .timeout → cancelMessage (server.requests request).id ∈ server.outgoing.issued

/-- Requests that differ in what has been sent only. -/
structure Same (value other : LspRequest V) : Prop where
  id : other.id = value.id
  resultType : other.resultType = value.resultType
  responsesBefore : other.responsesBefore = value.responsesBefore
  received : other.received = value.received
  outcome : other.outcome = value.outcome

theorem Same.rfl {value : LspRequest V} : Same value value := ⟨Eq.refl _, Eq.refl _, Eq.refl _, Eq.refl _, Eq.refl _⟩

theorem first_same (hsame : Same (server.requests request) (after.requests request))
    (hres : after.responses = server.responses) : after.first request = server.first request := by
  unfold first
  rw [hsame.id, hsame.responsesBefore, hres]

/-- A request to which nothing happens, but that its handler may be dropped. -/
theorem Faithful.keep (h : Faithful server request) (hsame : Same (server.requests request) (after.requests request))
    (hres : after.responses = server.responses)
    (hpre : ∀ handlers, after.responseHandlers = some handlers → handlers (.int (server.requests request).id) = some request →
      ∃ earlier, server.responseHandlers = some earlier ∧ earlier (.int (server.requests request).id) = some request)
    (hansg : ∀ response, after.reader = .answering request response → server.reader = .answering request response)
    (hissu : ∀ message ∈ server.outgoing.issued, message ∈ after.outgoing.issued) : Faithful after request := by
  have hfst := first_same hsame hres
  refine ⟨?_, ?_, ?_, ?_, ?_, ?_⟩
  · rw [hsame.responsesBefore, hres]
    exact h.before
  · intro handlers hsome hmaps
    rw [hsame.id] at hmaps
    obtain ⟨earlier, hear, hmaps⟩ := hpre _ hsome hmaps
    rw [hfst]
    exact h.present _ hear hmaps
  · intro response hread
    rw [hfst]
    exact h.answering _ (hansg _ hread)
  · intro answer hans
    rw [hsame.received] at hans
    rw [hfst, hsame.resultType]
    exact h.received _ hans
  · intro result hresu
    rw [hsame.outcome] at hresu
    rw [hfst, hsame.resultType]
    exact h.answered _ hresu
  · intro htim
    rw [hsame.outcome] at htim
    rw [hsame.id]
    exact hissu _ (h.canceled htim)

theorem setRequest_self (server : LanguageServer V) (request : Nat) (value : LspRequest V) :
    (server.setRequest request value).requests request = value := update_self ..

theorem setRequest_other (server : LanguageServer V) {request other : Nat} (value : LspRequest V) (hne : other ≠ request) :
    (server.setRequest request value).requests other = server.requests other := update_of_ne hne ..

/-- Setting a request to one that differs in what has been sent only leaves every request the same. -/
theorem same_setRequest {value : LspRequest V} (hsame : Same (server.requests request) value) (other : Nat) :
    Same (server.requests other) ((server.setRequest request value).requests other) := by
  rcases eq_or_ne other request with rfl | hne
  · rw [setRequest_self]
    exact hsame
  · rw [setRequest_other _ _ hne]
    exact .rfl

/-! ### The invariant -/

/-- No message is at the front of what has not been read. -/
def NoneFramed (input : List UInt8) : Prop :=
  ∀ header body more, IsHeader header body.length → input ≠ header ++ body ++ more

structure Sound (serde : Serde) (server : LanguageServer V) : Prop where
  framed : Framed server.arrived server.bodies server.input
  stopped : server.reader = .stopped → Malformed server.input ∨ server.eof = true ∧ NoneFramed server.input
  dispatcher : server.dispatcherOver = true → server.reader = .stopped ∧ server.incoming = []
  handlers : server.responseHandlers ≠ none → server.dispatcherOver = false ∧ server.outgoing.writerOver = false
  serializing : server.outgoing.writerOver = false → server.outgoing.serializerOver = false
  owned : ∀ handlers key request, server.responseHandlers = some handlers → handlers key = some request →
    request < server.nextId ∧ key = .int (server.requests request).id
  faithful : ∀ request < server.nextId, Faithful server request
  answering : ∀ request response, server.reader = .answering request response → request < server.nextId
  order : server.dispatched ++ server.incoming ++ Reader.inHand server.reader = messages serde server.bodies

theorem sound_new (requests : Nat → LspRequest V) : Sound serde (new requests) where
  framed := .nil []
  stopped := nofun
  dispatcher := nofun
  handlers := fun _ => ⟨rfl, rfl⟩
  serializing := fun _ => rfl
  owned := by
    rintro handlers key request hsome hmaps
    rw [← some.inj hsome] at hmaps
    nomatch hmaps
  faithful := nofun
  answering := nofun
  order := rfl

/-! ### Steps of the callers -/

/-- A request that has just been registered. -/
theorem register_self (server : LanguageServer V) (resultType : ResultType V) :
    (server.register resultType).requests server.nextId = {
      id := Int32.ofNat server.nextId
      resultType
      registered := server.responseHandlers.isSome
      sent := none
      received := none
      outcome := none
      responsesBefore := server.responses.length } := update_self ..

section

variable (h : Sound serde server)
include h

theorem Sound.register (resultType : ResultType V) : Sound serde (server.register resultType) := by
  have hoth : ∀ {found : Nat}, found < server.nextId →
      (server.register resultType).requests found = server.requests found :=
    fun hlt => update_of_ne (Nat.ne_of_lt hlt) ..
  refine { h with handlers := ?_, owned := ?_, faithful := ?_, answering := ?_ }
  · intro hsome
    refine h.handlers fun hnone => hsome ?_
    unfold LanguageServer.register
    rw [hnone]
    rfl
  · intro handlers key found hsome hmaps
    obtain ⟨earlier, hear, rfl⟩ := map_eq_some_iff.mp hsome
    by_cases hkey : key = .int (Int32.ofNat server.nextId)
    · rw [hkey, update_self] at hmaps
      obtain rfl := some.inj hmaps
      refine ⟨Nat.lt_succ_self _, ?_⟩
      rw [hkey, register_self]
    · rw [update_of_ne hkey] at hmaps
      obtain ⟨hlt, hown⟩ := h.owned _ key _ hear hmaps
      rw [hoth hlt]
      exact ⟨Nat.lt_succ_of_lt hlt, hown⟩
  · intro found hlt
    rcases Nat.lt_succ_iff_lt_or_eq.mp hlt with hlt | rfl
    · refine (h.faithful _ hlt).keep (by rw [hoth hlt]; exact .rfl) rfl ?_ (fun _ h => h) fun _ h => h
      intro handlers hsome hmaps
      obtain ⟨earlier, hear, rfl⟩ := map_eq_some_iff.mp hsome
      refine ⟨earlier, hear, ?_⟩
      by_cases hkey : RequestId.int (server.requests found).id = .int (Int32.ofNat server.nextId)
      · rw [hkey, update_self] at hmaps
        exact absurd (some.inj hmaps) (Nat.ne_of_gt hlt)
      · rwa [update_of_ne hkey] at hmaps
    · have hself := register_self server resultType
      have hfst : (server.register resultType).first server.nextId = none := by
        unfold first
        rw [hself]
        change firstResponse _ (server.responses.drop server.responses.length) = none
        rw [drop_length]
        rfl
      refine ⟨?_, fun _ _ _ => hfst, ?_, ?_, ?_, ?_⟩
      · rw [hself]
        exact le_rfl
      · intro response hread
        exact absurd (h.answering _ _ hread) (Nat.lt_irrefl _)
      · rw [hself]
        nofun
      · rw [hself]
        nofun
      · rw [hself]
        nofun
  · intro found response hread
    exact Nat.lt_succ_of_lt (h.answering _ _ hread)

/-- The outgoing messages change, and the writer is as it was. -/
theorem Sound.outgoing {outgoing : Outgoing} (hissu : ∀ message ∈ server.outgoing.issued, message ∈ outgoing.issued)
    (hwrit : outgoing.writerOver = server.outgoing.writerOver)
    (hser : outgoing.serializerOver = server.outgoing.serializerOver) : Sound serde { server with outgoing } := by
  refine { h with handlers := ?_, serializing := ?_, faithful := ?_ }
  · intro hsome
    exact ⟨(h.handlers hsome).1, hwrit.trans (h.handlers hsome).2⟩
  · intro hopen
    exact hser.trans (h.serializing (hwrit.symm.trans hopen))
  · intro found hlt
    exact (h.faithful _ hlt).keep .rfl rfl (fun _ hsome hmaps => ⟨_, hsome, hmaps⟩) (fun _ h => h) hissu

/-- A request changes in what has been sent only. -/
theorem Sound.setSent {value : LspRequest V} (hsame : Same (server.requests request) value) :
    Sound serde (server.setRequest request value) := by
  have hall := same_setRequest hsame
  refine { h with owned := ?_, faithful := ?_ }
  · intro handlers key found hsome hmaps
    rw [(hall _).id]
    exact h.owned _ key _ hsome hmaps
  · intro found hlt
    exact (h.faithful _ hlt).keep (hall _) rfl (fun _ hsome hmaps => ⟨_, hsome, hmaps⟩)
      (fun _ h => h) fun _ h => h

theorem Sound.send (request : Nat) (method params : String) : Sound serde (server.send request method params) := by
  unfold LanguageServer.send
  dsimp only
  split
  · rename_i outgoing hsent
    have hpart : outgoing.issued = server.outgoing.issued ++ [requestMessage (server.requests request).id method params] ∧
        outgoing.writerOver = server.outgoing.writerOver ∧ outgoing.serializerOver = server.outgoing.serializerOver := by
      unfold Outgoing.trySend at hsent
      split at hsent
      · nomatch hsent
      · obtain rfl := some.inj hsent
        exact ⟨rfl, rfl, rfl⟩
    obtain ⟨hissu, hwrit, hser⟩ := hpart
    have hout : Sound serde { server with outgoing } :=
      h.outgoing (fun message hmem => by rw [hissu]; exact mem_append_left _ hmem) hwrit hser
    exact hout.setSent ⟨rfl, rfl, rfl, rfl, rfl⟩
  · exact h.setSent ⟨rfl, rfl, rfl, rfl, rfl⟩

theorem Sound.notify (message : Message) :
    Sound serde { server with outgoing := (server.outgoing.notify message).getD server.outgoing } := by
  obtain ⟨hwrit, hser⟩ := server.outgoing.notify_writerOver _
  exact h.outgoing (fun _ hmem => mem_notify hmem _) hwrit hser

/-- A request ends. -/
theorem Sound.setOutcome {result : ConnectionResult V} (hansd : ∀ answer, result = .result answer →
      answer = .error "server shut down" ∨ answer = .error "failed to write to language server's stdin" ∨
        ∃ response, server.first request = some response ∧ answer = (server.requests request).resultType.answer response)
    (hcan : result = .timeout → cancelMessage (server.requests request).id ∈ server.outgoing.issued) :
    Sound serde (server.setRequest request { server.requests request with outcome := some result }) := by
  have hid : ∀ found, ((server.setRequest request { server.requests request with outcome := some result }).requests found).id =
      (server.requests found).id := by
    intro found
    rcases eq_or_ne found request with rfl | hne
    · rw [setRequest_self]
    · rw [setRequest_other _ _ hne]
  refine { h with owned := ?_, faithful := ?_ }
  · intro handlers key found hsome hmaps
    rw [hid]
    exact h.owned _ key _ hsome hmaps
  · intro found hlt
    have hfai := h.faithful _ hlt
    rcases eq_or_ne found request with rfl | hne
    · have hself := server.setRequest_self found { server.requests found with outcome := some result }
      have hfst : (server.setRequest found { server.requests found with outcome := some result }).first found =
          server.first found := by
        unfold first
        rw [hself]
        rfl
      refine ⟨?_, ?_, ?_, ?_, ?_, ?_⟩
      · rw [hself]
        exact hfai.before
      · rw [hfst, hself]
        exact hfai.present
      · rw [hfst]
        exact hfai.answering
      · rw [hfst, hself]
        exact hfai.received
      · rw [hfst, hself]
        intro answer hres
        exact hansd _ (some.inj hres)
      · rw [hself]
        intro hres
        exact hcan (some.inj hres)
    · exact hfai.keep (by rw [setRequest_other _ _ hne]; exact .rfl) rfl
        (fun _ hsome hmaps => ⟨_, hsome, hmaps⟩) (fun _ h => h) fun _ h => h

theorem Sound.finish {result : ConnectionResult V} (hlt : request < server.nextId) (hready : server.Ready request result) :
    Sound serde (server.setRequest request { server.requests request with outcome := some result }) := by
  refine h.setOutcome ?_ ?_
  · rintro answer rfl
    cases hready with
    | notRegistered => exact .inl rfl
    | notSent => exact .inr (.inl rfl)
    | received _ _ hrecv => exact .inr (.inr ((h.faithful _ hlt).received _ hrecv))
  · rintro rfl
    nomatch hready

/-- Handlers are dropped. -/
theorem Sound.dropHandler (key : RequestId) : Sound serde { server with
      responseHandlers := server.responseHandlers.map fun handlers => Function.update handlers key none } := by
  have hear : ∀ handlers found request,
      (server.responseHandlers.map fun handlers => Function.update handlers key none) = some handlers →
      handlers found = some request →
      ∃ earlier, server.responseHandlers = some earlier ∧ earlier found = some request := by
    intro handlers found request hsome hmaps
    obtain ⟨earlier, hear, rfl⟩ := map_eq_some_iff.mp hsome
    refine ⟨earlier, hear, ?_⟩
    rcases eq_or_ne found key with rfl | hne
    · rw [update_self] at hmaps
      nomatch hmaps
    · rwa [update_of_ne hne] at hmaps
  refine { h with handlers := ?_, owned := ?_, faithful := ?_ }
  · intro hsome
    refine h.handlers fun hnone => hsome ?_
    rw [hnone]
    rfl
  · intro handlers found request hsome hmaps
    obtain ⟨earlier, hear, hmaps⟩ := hear _ _ _ hsome hmaps
    exact h.owned _ _ _ hear hmaps
  · intro found hlt
    exact (h.faithful _ hlt).keep .rfl rfl (fun handlers => hear _ _ _) (fun _ h => h) fun _ h => h

theorem Sound.dropHandlers : Sound serde { server with responseHandlers := none } :=
  { h with
    handlers := fun hne => absurd rfl hne
    owned := nofun
    faithful := fun found hlt => (h.faithful found hlt).keep .rfl rfl nofun (fun _ h => h) fun _ hmem => hmem }

theorem Sound.expire (request : Nat) : Sound serde (server.expire request) := by
  have hnot := h.notify (cancelMessage (server.requests request).id)
  unfold LanguageServer.expire
  split
  · rename_i handlers hsome
    have hopen := h.serializing (h.handlers (by rw [hsome]; exact some_ne_none _)).2
    have hdrop := hnot.dropHandler (.int (server.requests request).id)
    dsimp only at hdrop
    rw [hsome] at hdrop
    exact hdrop.setOutcome nofun fun _ => mem_notify_self hopen _
  · exact hnot.setOutcome (fun answer hans => .inl (ConnectionResult.result.inj hans).symm) nofun

end

/-! ### Steps of the reader -/

theorem Sound.arrive (h : Sound serde server) (heof : server.eof = false) (piece : List UInt8) :
    Sound serde { server with input := server.input ++ piece, arrived := server.arrived ++ piece } := by
  refine { h with
    framed := h.framed.extend _
    stopped := ?_
    faithful := fun found hlt => (h.faithful _ hlt).keep .rfl rfl (fun _ hsome hmaps => ⟨_, hsome, hmaps⟩)
      (fun _ h => h) fun _ hmem => hmem }
  intro hover
  rcases h.stopped hover with hmal | ⟨hend, -⟩
  · exact .inl (hmal.extend _)
  · rw [heof] at hend
    nomatch hend

theorem Sound.close (h : Sound serde server) (heof : server.eof = false) : Sound serde { server with eof := true } := by
  refine { h with
    stopped := ?_
    faithful := fun found hlt => (h.faithful _ hlt).keep .rfl rfl (fun _ hsome hmaps => ⟨_, hsome, hmaps⟩)
      (fun _ h => h) fun _ hmem => hmem }
  intro hover
  rcases h.stopped hover with hmal | ⟨hend, -⟩
  · exact .inl hmal
  · rw [heof] at hend
    nomatch hend

theorem messages_append (serde : Serde) (bodies : List (List UInt8)) (body : List UInt8) :
    messages serde (bodies ++ [body]) = messages serde bodies ++ (serde.notificationOrRequest body).toList := by
  unfold messages
  rw [filterMap_append, filterMap_cons]
  cases serde.notificationOrRequest body <;> rfl

/-- The reader gives up. -/
theorem Sound.fail (h : Sound serde server) (hrdg : server.reader = .reading)
    (hfail : readMessage server.eof server.input = .failed) : Sound serde { server with reader := .stopped } := by
  refine { h with
    stopped := fun _ => ?_
    dispatcher := fun hover => ⟨rfl, (h.dispatcher hover).2⟩
    faithful := fun found hlt => (h.faithful _ hlt).keep .rfl rfl (fun _ hsome hmaps => ⟨_, hsome, hmaps⟩)
      nofun fun _ h => h
    answering := nofun
    order := ?_ }
  · rcases readMessage_failed hfail with hmal | hend
    · exact .inl hmal
    · refine .inr ⟨hend, ?_⟩
      rintro header body more hhead heq
      rw [heq, readMessage_complete hhead] at hfail
      nomatch hfail
  · have hord := h.order
    rw [hrdg] at hord
    exact hord

/-- The dispatcher goes on as long as the reader does. -/
theorem Sound.dispatcher_going (h : Sound serde server) (hread : server.reader ≠ .stopped) : server.dispatcherOver ≠ true :=
  fun hover => hread (h.dispatcher hover).1

/-- A response comes to its handler, or there is no handler for it. -/
theorem Faithful.respond (h : Faithful server request) (response : AnyResponse)
    (hown : ∀ handlers, server.responseHandlers = some handlers → handlers response.id = some request →
      response.id = .int (server.requests request).id)
    (hreq : after.requests request = server.requests request) (hres : after.responses = server.responses ++ [response])
    (hhan : after.responseHandlers = server.responseHandlers.map fun handlers => Function.update handlers response.id none)
    (hread : ∀ found, after.reader = .answering request found → found = response ∧
      (server.responseHandlers.bind fun handlers => handlers response.id) = some request)
    (hout : after.outgoing = server.outgoing) : Faithful after request := by
  have hfst : after.first request =
      (server.first request).or (firstResponse (server.requests request).id [response]) := by
    unfold first
    rw [hreq, hres, drop_append_of_le_length h.before, firstResponse_append]
  have hsome : ∀ found, server.first request = some found → after.first request = some found := by
    intro found hfnd
    rw [hfst, hfnd]
    rfl
  refine ⟨?_, ?_, ?_, ?_, ?_, ?_⟩
  · rw [hreq, hres, length_append]
    exact Nat.le_add_right_of_le h.before
  · intro handlers haft hmaps
    rw [hhan] at haft
    obtain ⟨earlier, hear, rfl⟩ := map_eq_some_iff.mp haft
    rw [hreq] at hmaps
    have hne : RequestId.int (server.requests request).id ≠ response.id := by
      intro heq
      rw [heq, update_self] at hmaps
      nomatch hmaps
    rw [update_of_ne hne] at hmaps
    rw [hfst, h.present _ hear hmaps, firstResponse_single, if_neg hne.symm]
    rfl
  · intro found hansg
    obtain ⟨rfl, hhand⟩ := hread _ hansg
    obtain ⟨handlers, hhan, hmaps⟩ := bind_eq_some_iff.mp hhand
    have hid := hown _ hhan hmaps
    rw [hfst, h.present _ hhan (hid ▸ hmaps), firstResponse_single, if_pos hid]
    rfl
  · intro answer hans
    rw [hreq] at hans ⊢
    obtain ⟨found, hfnd, heq⟩ := h.received _ hans
    exact ⟨found, hsome _ hfnd, heq⟩
  · intro result hresu
    rw [hreq] at hresu ⊢
    refine (h.answered _ hresu).imp_right fun hansd => hansd.imp_right ?_
    rintro ⟨found, hfnd, heq⟩
    exact ⟨found, hsome _ hfnd, heq⟩
  · intro htim
    rw [hreq] at htim ⊢
    rw [hout]
    exact h.canceled htim

section

variable (h : Sound serde server)
include h

theorem Sound.handleBody (hrdg : server.reader = .reading) {body rest : List UInt8}
    (hread : readMessage server.eof server.input = .done body rest)
    (hcare : serde.notificationOrRequest body = none → serde.anyResponse body = none → fromUtf8 body ≠ none) :
    Sound serde ({ server with input := rest, bodies := server.bodies ++ [body] }.handleBody serde body) := by
  obtain ⟨header, hinp, hhead⟩ := readMessage_sound hread
  have hfram : Framed server.arrived (server.bodies ++ [body]) rest := by
    have hbef := h.framed
    rw [hinp] at hbef
    exact hbef.snoc hhead
  have hgoi := h.dispatcher_going (by rw [hrdg]; nofun)
  have hord := h.order
  rw [hrdg] at hord
  have hmsgs := messages_append serde server.bodies body
  unfold LanguageServer.handleBody
  split
  · rename_i message hmsg
    refine { h with
      framed := hfram
      stopped := nofun
      dispatcher := fun hover => absurd hover hgoi
      faithful := fun found hlt => (h.faithful _ hlt).keep .rfl rfl (fun _ hsome hmaps => ⟨_, hsome, hmaps⟩)
        nofun fun _ h => h
      answering := nofun
      order := ?_ }
    rw [hmsg, ← hord] at hmsgs
    rw [hmsgs]
    simp only [Reader.inHand, append_nil, toList_some]
  · rename_i hnone
    rw [hnone, toList_none, append_nil] at hmsgs
    split
    · rename_i response hresp
      have hdrop := h.dropHandler response.id
      dsimp only
      refine { h with
        framed := hfram
        stopped := ?_
        dispatcher := fun hover => absurd hover hgoi
        handlers := hdrop.handlers
        owned := hdrop.owned
        faithful := ?_
        answering := ?_
        order := ?_ }
      · split <;> nofun
      · intro found hlt
        refine (h.faithful _ hlt).respond _ (fun handlers hsome hmaps => (h.owned _ _ _ hsome hmaps).2) rfl rfl rfl ?_ rfl
        intro other hoth
        split at hoth
        · rename_i handler hhan
          obtain ⟨rfl, rfl⟩ := Reader.answering.inj hoth
          exact ⟨rfl, hhan⟩
        · nomatch hoth
      · intro found other hoth
        split at hoth
        · rename_i handler hhan
          obtain ⟨rfl, -⟩ := Reader.answering.inj hoth
          obtain ⟨handlers, hhand, hmaps⟩ := bind_eq_some_iff.mp hhan
          exact (h.owned _ _ _ hhand hmaps).1
        · nomatch hoth
      · rw [hmsgs, ← hord]
        split <;> rfl
    · rename_i hnor
      split
      · refine { h with
          framed := hfram
          stopped := fun hover => ?_
          faithful := fun found hlt => (h.faithful _ hlt).keep .rfl rfl
            (fun _ hsome hmaps => ⟨_, hsome, hmaps⟩) (fun _ h => h) fun _ h => h
          order := ?_ }
        · rw [show server.reader = .stopped from hover] at hrdg
          nomatch hrdg
        · rw [hmsgs, ← hord, hrdg]
      · rename_i htext
        exact absurd htext (hcare hnone hnor)

theorem Sound.read (hrdg : server.reader = .reading) (hcare : server.Careful serde .read) : Sound serde (server.read serde) := by
  unfold LanguageServer.read
  split
  · rename_i body rest hread
    exact h.handleBody hrdg hread (hcare body rest hread)
  · rename_i hfail
    exact h.fail hrdg hfail
  · exact h

theorem Sound.offer : Sound serde server.offer := by
  unfold LanguageServer.offer
  split
  · rename_i message hread
    have hgoi := h.dispatcher_going (by rw [hread]; nofun)
    rw [if_neg hgoi]
    refine { h with
      stopped := nofun
      dispatcher := fun hover => absurd hover hgoi
      faithful := fun found hlt => (h.faithful _ hlt).keep .rfl rfl (fun _ hsome hmaps => ⟨_, hsome, hmaps⟩)
        nofun fun _ h => h
      answering := nofun
      order := ?_ }
    have hord := h.order
    rw [hread] at hord
    rw [← hord]
    simp only [Reader.inHand, append_nil, append_assoc]
  · exact h

theorem Sound.flush (hread : server.reader = .flushing) : Sound serde { server with reader := .reading } := by
  have hgoi := h.dispatcher_going (by rw [hread]; nofun)
  refine { h with
    stopped := nofun
    dispatcher := fun hover => absurd hover hgoi
    faithful := fun found hlt => (h.faithful _ hlt).keep .rfl rfl (fun _ hsome hmaps => ⟨_, hsome, hmaps⟩)
      nofun fun _ h => h
    answering := nofun
    order := ?_ }
  have hord := h.order
  rw [hread] at hord
  exact hord

theorem Sound.deserialize : Sound serde server.deserialize := by
  unfold LanguageServer.deserialize
  split
  · rename_i request response hread
    have hgoi := h.dispatcher_going (by rw [hread]; nofun)
    have hfst := (h.faithful _ (h.answering _ _ hread)).answering _ hread
    have hoth : ∀ found, found ≠ request → (server.setRequest request { server.requests request with
        received := some ((server.requests request).resultType.answer response) }).requests found = server.requests found :=
      fun found hne => setRequest_other _ _ hne
    refine { h with
      stopped := nofun
      dispatcher := fun hover => absurd hover hgoi
      owned := ?_
      faithful := ?_
      answering := nofun
      order := ?_ }
    · intro handlers key found hsome hmaps
      refine ⟨(h.owned _ key _ hsome hmaps).1, (h.owned _ key _ hsome hmaps).2.trans ?_⟩
      rcases eq_or_ne found request with rfl | hne
      · rw [setRequest_self]
      · rw [hoth _ hne]
    · intro found hlt
      have hfai := h.faithful _ hlt
      rcases eq_or_ne found request with rfl | hne
      · refine ⟨?_, ?_, nofun, ?_, ?_, ?_⟩
        · rw [setRequest_self]
          exact hfai.before
        · unfold first
          rw [setRequest_self]
          exact hfai.present
        · unfold first
          rw [setRequest_self]
          intro answer hans
          exact ⟨response, hfst, (some.inj hans).symm⟩
        · unfold first
          rw [setRequest_self]
          exact hfai.answered
        · rw [setRequest_self]
          exact hfai.canceled
      · exact hfai.keep (by rw [hoth _ hne]; exact .rfl) rfl
          (fun _ hsome hmaps => ⟨_, hsome, hmaps⟩) nofun fun _ h => h
    · have hord := h.order
      rw [hread] at hord
      exact hord
  · exact h

end

/-! ### Steps of the dispatcher, and all steps -/

section

variable (h : Sound serde server)
include h

theorem Sound.dispatch (hgoi : server.dispatcherOver = false) : Sound serde server.dispatch := by
  unfold LanguageServer.dispatch
  split
  · rename_i message rest hinc
    refine { h with
      dispatcher := fun hover => ?_
      faithful := fun found hlt => (h.faithful _ hlt).keep .rfl rfl (fun _ hsome hmaps => ⟨_, hsome, hmaps⟩)
        (fun _ h => h) fun _ h => h
      order := ?_ }
    · rw [show server.dispatcherOver = true from hover] at hgoi
      nomatch hgoi
    · have hord := h.order
      rw [hinc] at hord
      rw [← hord]
      simp
  · exact h

theorem Sound.dispatcherEnds (hread : server.reader = .stopped) (hinc : server.incoming = []) :
    Sound serde { server with dispatcherOver := true, responseHandlers := none } := by
  have hdrop := h.dropHandlers
  exact { hdrop with
    dispatcher := fun _ => ⟨hread, hinc⟩
    handlers := fun hne => absurd rfl hne
    faithful := fun found hlt => (hdrop.faithful _ hlt).keep .rfl rfl nofun (fun _ h => h) fun _ hmem => hmem }

theorem Sound.writeFails : Sound serde { server with outgoing := server.outgoing.writeFails, responseHandlers := none } := by
  have hdrop := h.dropHandlers
  exact { hdrop with
    handlers := fun hne => absurd rfl hne
    serializing := nofun
    faithful := fun found hlt => (hdrop.faithful _ hlt).keep .rfl rfl nofun (fun _ h => h) fun _ hmem => hmem }

/-- A step of the tasks of the outgoing messages that leaves the writer as it is. -/
theorem Sound.task {outgoing : Outgoing} (hstep : Outgoing.TaskStep server.outgoing outgoing)
    (hwrit : outgoing.writerOver = server.outgoing.writerOver) : Sound serde { server with outgoing } := by
  refine { h with handlers := ?_, serializing := ?_, faithful := ?_ }
  · intro hsome
    exact ⟨(h.handlers hsome).1, hwrit.trans (h.handlers hsome).2⟩
  · intro hopen
    exact hstep.serializerOver hopen (h.serializing (hstep.writerOver hopen))
  · intro found hlt
    refine (h.faithful _ hlt).keep .rfl rfl (fun _ hsome hmaps => ⟨_, hsome, hmaps⟩) (fun _ h => h) ?_
    intro message hmem
    rw [hstep.issued]
    exact hmem

theorem Sound.apply {move : Move V} (halw : server.Allowed capacity move)
    (hcare : server.Careful serde move) : Sound serde (server.apply serde move) := by
  cases move with
  | register resultType => exact h.register _
  | send request method params => exact h.send _ _ _
  | finish request result => exact h.finish halw.1.1 halw.2.2
  | expire request => exact h.expire _
  | arrive piece => exact h.arrive halw _
  | close => exact h.close halw
  | read => exact h.read halw.1 hcare
  | offer => exact h.offer
  | flush => exact h.flush halw.1
  | deserialize => exact h.deserialize
  | dispatch => exact h.dispatch halw.1
  | dispatcherEnds => exact h.dispatcherEnds halw.2.2 halw.2.1
  | notify method params => exact h.notify _
  | outgoing move =>
    cases move with
    | writeFails => exact h.writeFails
    | notify | request => nomatch halw.1
    | serialize => exact h.task serialize_step (by unfold Outgoing.apply Outgoing.serialize; dsimp only; split <;> rfl)
    | forward =>
      refine h.task forward_step ?_
      change server.outgoing.forward.writerOver = server.outgoing.writerOver
      unfold Outgoing.forward
      split
      · split <;> rfl
      · rfl
    | receive => exact h.task receive_step (by unfold Outgoing.apply Outgoing.receive; dsimp only; split <;> rfl)
    | write => exact h.task write_step (by unfold Outgoing.apply Outgoing.write; dsimp only; split <;> rfl)

end

theorem Reach.sound (h : Reach serde capacity (fun server => server.Careful serde) server) : Sound serde server := by
  induction h with
  | start requests => exact sound_new _
  | move move _ halw hcare ih => exact ih.apply halw hcare

end LanguageServer

end Wu.Lsp
