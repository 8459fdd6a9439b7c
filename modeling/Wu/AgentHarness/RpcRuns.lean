import Wu.AgentHarness.JsonRpc

/-!
# Runs of the JSON-RPC client

What is known in every run: a request that is pending has an empty slot and no answer yet, an outcome on its way to a request
is the first answer to it, and the client is closed from the end of the lines on.
-/

namespace Wu.JsonRpc

open List Function Option Bool

/-! ## The log -/

/-- The outcome of the first response with an id. -/
def answerTo (id : Int) : List Event → Option (Except String Value)
  | [] => none
  | .response id' outcome :: log => if id' = id then some outcome else answerTo id log
  | .registered _ _ :: log => answerTo id log

/-- The outcome of the first response with a request's id that is read after the request has been registered. -/
def firstAnswer (request : Nat) : List Event → Option (Except String Value)
  | [] => none
  | .registered request' id :: log => if request' = request then answerTo id log else firstAnswer request log
  | .response _ _ :: log => firstAnswer request log

/-- The id that a request has been registered with. -/
def registeredId (request : Nat) : List Event → Option Int
  | [] => none
  | .registered request' id :: log => if request' = request then some id else registeredId request log
  | .response _ _ :: log => registeredId request log

section Log

variable {log more : List Event} {request : Nat} {id : Int}

theorem answerTo_append : answerTo id (log ++ more) = (answerTo id log).or (answerTo id more) := by
  induction log with
  | nil => rfl
  | cons event log ih =>
    cases event with
    | response id' outcome =>
      simp only [cons_append, answerTo]
      split
      · rfl
      · exact ih
    | registered request' id' => exact ih

theorem registeredId_append : registeredId request (log ++ more) = (registeredId request log).or (registeredId request more) := by
  induction log with
  | nil => rfl
  | cons event log ih =>
    cases event with
    | response id' outcome => exact ih
    | registered request' id' =>
      simp only [cons_append, registeredId]
      split
      · rfl
      · exact ih

/-- The first answer of a request that has been registered, when more happens. -/
theorem firstAnswer_append (h : registeredId request log = some id) :
    firstAnswer request (log ++ more) = (firstAnswer request log).or (answerTo id more) := by
  induction log with
  | nil => nomatch h
  | cons event log ih =>
    cases event with
    | response id' outcome => exact ih h
    | registered request' id' =>
      simp only [cons_append, firstAnswer, registeredId] at h ⊢
      split at h
      · rename_i heq
        obtain rfl := some.inj h
        rw [if_pos heq, if_pos heq]
        exact answerTo_append
      · rename_i hne
        rw [if_neg hne, if_neg hne]
        exact ih h

/-- What is answered has been registered. -/
theorem registeredId_of_firstAnswer {outcome : Except String Value} (h : firstAnswer request log = some outcome) :
    ∃ id, registeredId request log = some id := by
  induction log with
  | nil => nomatch h
  | cons event log ih =>
    cases event with
    | response id' outcome => exact ih h
    | registered request' id' =>
      unfold firstAnswer at h
      unfold registeredId
      split
      · exact ⟨id', rfl⟩
      · rename_i hne
        rw [if_neg hne] at h
        exact ih h

/-- Before a request is registered nothing answers it. -/
theorem firstAnswer_append_of_none (h : registeredId request log = none) :
    firstAnswer request (log ++ more) = firstAnswer request more := by
  induction log with
  | nil => rfl
  | cons event log ih =>
    cases event with
    | response id' outcome => exact ih h
    | registered request' id' =>
      simp only [cons_append, firstAnswer, registeredId] at h ⊢
      split at h
      · nomatch h
      · rename_i hne
        rw [if_neg hne]
        exact ih h

end Log

/-! ## The invariant -/

/-- What is known of a request. -/
structure Request.Ok (client : Client) (request : Nat) (r : Request) : Prop where
  called : r.phase = .called → r.slot = .empty ∧ registeredId request client.log = none
  registered : r.phase = .registered ∨ r.phase = .waiting → registeredId request client.log = some r.id
  filled : ∀ outcome, r.slot = .filled outcome → firstAnswer request client.log = some outcome
  live : r.phase = .registered ∨ r.phase = .waiting → r.slot = .empty →
    client.pending r.id = some request ∨ ∃ outcome, client.reader = .delivering request outcome
  failed : ∀ message, r.phase = .failed message →
    message = ": app-server exited before responding" ∨ message = ": app-server stdin closed"

/-- What holds in every run. -/
structure Client.Inv (client : Client) : Prop where
  finite : ∃ n, ∀ request ≥ n, client.requests request = none
  unknown : ∀ request, client.requests request = none → registeredId request client.log = none
  requests : ∀ request r, client.requests request = some r → r.Ok client request
  pending : ∀ id request, client.pending id = some request → ∃ r, client.requests request = some r ∧ r.id = id ∧
    r.slot = .empty ∧ registeredId request client.log = some id ∧ firstAnswer request client.log = none
  delivering : ∀ request outcome, client.reader = .delivering request outcome →
    (∃ r, client.requests request = some r ∧ r.slot = .empty ∧ registeredId request client.log = some r.id) ∧
      firstAnswer request client.log = some outcome
  closed : client.closed = true ↔
    client.reader = .closing ∨ client.reader = .sendingEof ∨ client.reader = .returned ∧ client.gaveUp = false
  cleared : client.reader = .sendingEof ∨ client.reader = .returned ∧ client.gaveUp = false → ∀ id, client.pending id = none
  gaveUp : client.gaveUp = true → client.reader = .returned

section Requests

variable {client client' : Client} {request : Nat} {r : Request} {more : List Event}

/-- What is known of a request stays so when its entry stays and more is read. -/
theorem Request.Ok.frame (ok : r.Ok client request) (hlog : client'.log = client.log ++ more)
    (hmore : registeredId request more = none)
    (hpend : client.pending r.id = some request → client'.pending r.id = some request ∨
      ∃ outcome, client'.reader = .delivering request outcome)
    (hread : ∀ outcome, client.reader = .delivering request outcome → client'.reader = .delivering request outcome) :
    r.Ok client' request where
  called h := by
    obtain ⟨hslot, hnone⟩ := ok.called h
    rw [hlog, registeredId_append, hnone, hmore]
    exact ⟨hslot, rfl⟩
  registered h := by
    rw [hlog, registeredId_append, ok.registered h]
    rfl
  filled outcome h := by
    have hans := ok.filled _ h
    obtain ⟨id, hid⟩ := registeredId_of_firstAnswer hans
    rw [hlog, firstAnswer_append hid, hans]
    rfl
  live h hslot := by
    rcases ok.live h hslot with h | ⟨outcome, h⟩
    · exact hpend h
    · exact .inr ⟨outcome, hread _ h⟩
  failed := ok.failed

end Requests

namespace Client

variable {serde : Serde} {client client' : Client} {request : Nat} {r : Request}

theorem inv_new : Inv new where
  finite := ⟨0, fun _ _ => rfl⟩
  unknown _ _ := rfl
  requests _ _ h := nomatch h
  pending _ _ h := nomatch h
  delivering _ _ h := nomatch h
  closed := by simp [new]
  cleared h := by simp [new] at h
  gaveUp h := nomatch h

@[simp] theorem requests_modify (self : Client) (request other : Nat) (f : Request → Request) :
    (self.modify request f).requests other = if other = request then (self.requests request).map f else self.requests other := by
  simp [modify, update_apply]

theorem requests_call (self : Client) (request other : Nat) (method : String) (params : Value) :
    (self.call request method params).requests other =
      if other = request then some ⟨method, params, wrappedSucc self.nextId, .called, .empty⟩ else self.requests other := by
  simp [call, update_apply]

/-- A request that is pending is not the one that nothing is known of. -/
theorem Inv.ne_of_pending (inv : Inv client) {id : Int} {other : Nat} (h : client.pending id = some other)
    (hnone : client.requests request = none) : other ≠ request := by
  rintro rfl
  obtain ⟨r, hr, -⟩ := inv.pending id _ h
  rw [hnone] at hr
  nomatch hr

/-- What is known stays so when requests, entries and log do, and the reader is not about to deliver. -/
theorem Inv.frame (inv : Inv client) (hreqs : client'.requests = client.requests)
    (hpend : client'.pending = client.pending) (hlog : client'.log = client.log)
    (hread : ∀ request outcome, client'.reader = .delivering request outcome ↔ client.reader = .delivering request outcome)
    (closed : client'.closed = true ↔
      client'.reader = .closing ∨ client'.reader = .sendingEof ∨ client'.reader = .returned ∧ client'.gaveUp = false)
    (cleared : client'.reader = .sendingEof ∨ client'.reader = .returned ∧ client'.gaveUp = false → ∀ id, client'.pending id = none)
    (gaveUp : client'.gaveUp = true → client'.reader = .returned) : Inv client' where
  finite := hreqs ▸ inv.finite
  unknown := by
    rw [hreqs, hlog]
    exact inv.unknown
  requests request r h := by
    rw [hreqs] at h
    refine (inv.requests _ r h).frame (hlog.trans (append_nil _).symm) rfl (fun h => .inl ?_) fun outcome => (hread _ _).mpr
    rw [hpend, h]
  pending := by
    rw [hreqs, hpend, hlog]
    exact inv.pending
  delivering request outcome h := by
    rw [hreqs, hlog]
    exact inv.delivering _ _ ((hread _ _).mp h)
  closed := closed
  cleared := cleared
  gaveUp := gaveUp

/-! ## Callers -/

theorem Inv.call (inv : Inv client) (method : String) (params : Value) (fresh : client.requests request = none) :
    Inv (client.call request method params) where
  finite := by
    obtain ⟨n, hn⟩ := inv.finite
    refine ⟨max n (request + 1), fun other hoth => ?_⟩
    rw [requests_call, if_neg (by omega)]
    exact hn _ (by omega)
  unknown other h := by
    rw [requests_call] at h
    split at h
    · nomatch h
    · exact inv.unknown _ h
  requests other r h := by
    rw [requests_call] at h
    split at h
    · rename_i heq
      cases h
      rw [heq]
      exact ⟨fun _ => ⟨rfl, inv.unknown _ fresh⟩, nofun, nofun, nofun, nofun⟩
    · exact (inv.requests _ r h).frame (append_nil _).symm rfl .inl fun _ => id
  pending id other h := by
    rw [requests_call, if_neg (inv.ne_of_pending h fresh)]
    exact inv.pending id _ h
  delivering other outcome h := by
    obtain ⟨⟨r, hr, hslot⟩, hans⟩ := inv.delivering _ _ h
    have hne : other ≠ request := by
      rintro rfl
      rw [fresh] at hr
      nomatch hr
    refine ⟨⟨r, ?_, hslot⟩, hans⟩
    rw [requests_call, if_neg hne]
    exact hr
  closed := inv.closed
  cleared := inv.cleared
  gaveUp := inv.gaveUp

/-- A request goes on when what is known of requests is so of it then. -/
theorem Inv.modify (inv : Inv client) (hr : client.requests request = some r) (phase : Phase)
    (ok : ({ r with phase := phase } : Request).Ok client request) :
    Inv (client.modify request fun r => { r with phase := phase }) where
  finite := by
    obtain ⟨n, hn⟩ := inv.finite
    refine ⟨n, fun other hoth => ?_⟩
    rw [requests_modify]
    split
    · rename_i heq
      rw [← heq, hn _ hoth]
      rfl
    · exact hn _ hoth
  unknown other h := by
    rw [requests_modify, hr] at h
    split at h
    · nomatch h
    · exact inv.unknown _ h
  requests other r' h := by
    rw [requests_modify, hr] at h
    split at h
    · rename_i heq
      obtain rfl := some.inj h
      rw [heq]
      exact ok.frame (append_nil _).symm rfl .inl fun _ => id
    · exact (inv.requests _ r' h).frame (append_nil _).symm rfl .inl fun _ => id
  pending id other h := by
    obtain ⟨r', hr', hkno⟩ := inv.pending id _ h
    rw [requests_modify, hr]
    split
    · rename_i heq
      rw [heq, hr] at hr'
      obtain rfl := some.inj hr'
      exact ⟨_, rfl, hkno⟩
    · exact ⟨r', hr', hkno⟩
  delivering other outcome h := by
    obtain ⟨⟨r', hr', hkno⟩, hans⟩ := inv.delivering _ _ h
    refine ⟨?_, hans⟩
    rw [requests_modify, hr]
    split
    · rename_i heq
      rw [heq, hr] at hr'
      obtain rfl := some.inj hr'
      exact ⟨_, rfl, hkno⟩
    · exact ⟨r', hr', hkno⟩
  closed := inv.closed
  cleared := inv.cleared
  gaveUp := inv.gaveUp

/-- What is known when the entry of a request has been removed, with its sender. -/
theorem Inv.drop (inv : Inv client) {id : Int} (hrem : client.pending id = some request) (hr : client.requests request = some r)
    (hreqs : ∀ other, client'.requests other = if other = request then some { r with slot := .gone } else client.requests other)
    (hpend : ∀ id', client'.pending id' = if id' = id then none else client.pending id')
    (hlog : client'.log = client.log) (hread : client'.reader = client.reader)
    (hclsd : client'.closed = client.closed) (hgaveU : client'.gaveUp = client.gaveUp) : Inv client' := by
  obtain ⟨r', hr', hid, -, hreg, hans⟩ := inv.pending id _ hrem
  rw [hr] at hr'
  obtain rfl := some.inj hr'
  constructor
  case finite =>
    obtain ⟨n, hn⟩ := inv.finite
    refine ⟨n, fun other hoth => ?_⟩
    have hne : other ≠ request := by
      rintro rfl
      rw [hn _ hoth] at hr
      nomatch hr
    rw [hreqs, if_neg hne]
    exact hn _ hoth
  case unknown =>
    intro other h
    rw [hreqs] at h
    rw [hlog]
    split at h
    · nomatch h
    · exact inv.unknown _ h
  case requests =>
    intro other r' h
    rw [hreqs] at h
    split at h
    · rename_i heq
      obtain rfl := some.inj h
      have ok := inv.requests _ r hr
      rw [heq]
      refine ⟨fun h => ?_, fun h => ?_, nofun, nofun, ok.failed⟩
      · have := (ok.called h).2
        rw [hreg] at this
        nomatch this
      · rw [hlog]
        exact ok.registered h
    · rename_i hne
      refine (inv.requests _ r' h).frame (hlog.trans (append_nil _).symm) rfl (fun h => .inl ?_) fun outcome h => ?_
      · have hoth : r'.id ≠ id := by
          intro heq
          rw [heq, hrem] at h
          exact hne (some.inj h).symm
        rw [hpend, if_neg hoth]
        exact h
      · rw [hread]
        exact h
  case pending =>
    intro id' other h
    rw [hpend] at h
    split at h
    · nomatch h
    · rename_i hne
      obtain ⟨r', hr', hid', hkno⟩ := inv.pending id' _ h
      have hoth : other ≠ request := by
        rintro rfl
        rw [hr] at hr'
        obtain rfl := some.inj hr'
        exact hne (hid'.symm.trans hid)
      rw [hreqs, if_neg hoth, hlog]
      exact ⟨r', hr', hid', hkno⟩
  case delivering =>
    intro other outcome h
    rw [hread] at h
    obtain ⟨⟨r', hr', hkno⟩, hans'⟩ := inv.delivering _ _ h
    have hoth : other ≠ request := by
      rintro rfl
      rw [hans] at hans'
      nomatch hans'
    rw [hreqs, if_neg hoth, hlog]
    exact ⟨⟨r', hr', hkno⟩, hans'⟩
  case closed =>
    rw [hclsd, hread, hgaveU]
    exact inv.closed
  case cleared =>
    intro h
    rw [hread, hgaveU] at h
    have := inv.cleared h id
    rw [hrem] at this
    nomatch this
  case gaveUp =>
    rw [hread, hgaveU]
    exact inv.gaveUp

theorem Inv.removePending (inv : Inv client) (id : Int) : Inv (client.removePending id) := by
  unfold Client.removePending
  split
  · rename_i request hrem
    obtain ⟨r, hr, -⟩ := inv.pending id _ hrem
    refine inv.drop hrem hr (fun other => ?_) (fun id' => update_apply _ _ _ _) rfl rfl rfl rfl
    unfold dropSender
    rw [requests_modify, hr]
    rfl
  · exact inv

/-- What removing an entry leaves as it is. -/
theorem removePending_spec (self : Client) (id : Int) :
    (self.removePending id).pending id = none ∧ (self.removePending id).log = self.log ∧
      (self.removePending id).reader = self.reader ∧ (self.removePending id).closed = self.closed ∧
      (self.removePending id).gaveUp = self.gaveUp ∧ (self.removePending id).receiver = self.receiver := by
  unfold Client.removePending
  split
  · exact ⟨update_self _ _ _, rfl, rfl, rfl, rfl, rfl⟩
  · rename_i h
    exact ⟨h, rfl, rfl, rfl, rfl, rfl⟩

section

variable (inv : Inv client) (hr : client.requests request = some r)
include inv hr

/-- Removing an entry leaves a request that is not in it. -/
theorem removePending_requests {id : Int}
    (hnone : registeredId request client.log = none) : (client.removePending id).requests request = some r := by
  unfold Client.removePending
  split
  · rename_i other hrem
    obtain ⟨_, -, -, -, hreg, -⟩ := inv.pending id _ hrem
    have hne : request ≠ other := by
      rintro rfl
      rw [hnone] at hreg
      nomatch hreg
    refine (requests_modify ..).trans ?_
    rw [if_neg hne]
    exact hr
  · exact hr

/-- What is known when a request has been registered, in the place of an entry that nothing is in. -/
theorem Inv.insert (hcall : r.phase = .called) (hfree : client.pending r.id = none) (hclsd : client.closed = false)
    (hreqs : ∀ other, client'.requests other =
      if other = request then some { r with phase := .registered } else client.requests other)
    (hpend : ∀ id', client'.pending id' = if id' = r.id then some request else client.pending id')
    (hlog : client'.log = client.log ++ [Event.registered request r.id]) (hread : client'.reader = client.reader)
    (hclsd' : client'.closed = client.closed) (hgaveU : client'.gaveUp = client.gaveUp) : Inv client' := by
  obtain ⟨hslot, hnone⟩ := (inv.requests _ r hr).called hcall
  have hoth : ∀ other ≠ request, registeredId other [Event.registered request r.id] = none :=
    fun other hne => if_neg hne.symm
  have hreg : registeredId request client'.log = some r.id := by
    rw [hlog, registeredId_append, hnone]
    exact if_pos rfl
  constructor
  case finite =>
    obtain ⟨n, hn⟩ := inv.finite
    refine ⟨n, fun other hge => ?_⟩
    have hne : other ≠ request := by
      rintro rfl
      rw [hn _ hge] at hr
      nomatch hr
    rw [hreqs, if_neg hne]
    exact hn _ hge
  case unknown =>
    intro other h
    rw [hreqs] at h
    split at h
    · nomatch h
    · rename_i hne
      rw [hlog, registeredId_append, inv.unknown _ h]
      exact hoth _ hne
  case requests =>
    intro other r' h
    rw [hreqs] at h
    split at h
    · rename_i heq
      obtain rfl := some.inj h
      rw [heq]
      refine ⟨nofun, fun _ => hreg, fun outcome h => ?_, fun _ _ => .inl ?_, nofun⟩
      · rw [hslot] at h
        nomatch h
      · exact (hpend r.id).trans (if_pos rfl)
    · rename_i hne
      refine (inv.requests _ r' h).frame hlog (hoth _ hne) (fun h => .inl ?_) fun outcome h => ?_
      · have hid : r'.id ≠ r.id := by
          intro heq
          rw [heq, hfree] at h
          nomatch h
        rw [hpend, if_neg hid]
        exact h
      · rw [hread]
        exact h
  case pending =>
    intro id' other h
    rw [hpend] at h
    split at h
    · rename_i heq
      obtain rfl := some.inj h
      refine ⟨{ r with phase := .registered }, ?_, heq.symm, hslot, ?_, ?_⟩
      · rw [hreqs, if_pos rfl]
      · rw [heq]
        exact hreg
      · rw [hlog, firstAnswer_append_of_none hnone]
        exact if_pos rfl
    · obtain ⟨r', hr', hid', hslot', hreg', hans⟩ := inv.pending id' _ h
      have hne : other ≠ request := by
        rintro rfl
        rw [hnone] at hreg'
        nomatch hreg'
      rw [hreqs, if_neg hne, hlog]
      refine ⟨r', hr', hid', hslot', ?_, ?_⟩
      · rw [registeredId_append, hreg']
        rfl
      · rw [firstAnswer_append hreg', hans]
        rfl
  case delivering =>
    intro other outcome h
    rw [hread] at h
    obtain ⟨⟨r', hr', hslot', hreg'⟩, hans⟩ := inv.delivering _ _ h
    have hne : other ≠ request := by
      rintro rfl
      rw [hnone] at hreg'
      nomatch hreg'
    rw [hreqs, if_neg hne, hlog]
    refine ⟨⟨r', hr', hslot', ?_⟩, ?_⟩
    · rw [registeredId_append, hreg']
      rfl
    · rw [firstAnswer_append hreg', hans]
      rfl
  case closed =>
    rw [hclsd', hread, hgaveU]
    exact inv.closed
  case cleared =>
    intro h
    rw [hread, hgaveU] at h
    have := inv.closed.mpr (.inr h)
    rw [hclsd] at this
    nomatch this
  case gaveUp =>
    rw [hread, hgaveU]
    exact inv.gaveUp

theorem Inv.register (hcall : r.phase = .called) : Inv (client.register request r.id) := by
  unfold Client.register
  have ok := inv.requests _ r hr
  split
  · refine inv.modify hr _ ⟨nofun, nofun, ok.filled, nofun, fun message h => .inl ?_⟩
    exact (Phase.failed.inj h).symm
  · rename_i hclsd
    obtain ⟨hfree, -, -, hclsd', -⟩ := removePending_spec _ r.id
    have hr' : (client.removePending r.id).requests request = some r := removePending_requests inv hr (ok.called hcall).2
    refine (inv.removePending r.id).insert hr' hcall hfree ?_ (fun other => ?_) (fun id' => ?_) rfl rfl rfl rfl
    · rw [hclsd']
      exact not_eq_true _ ▸ hclsd
    · refine (requests_modify ..).trans ?_
      rw [hr']
      rfl
    · exact update_apply _ _ _ _

theorem Inv.write (hreg : r.phase = .registered) : Inv (client.write request r) := by
  unfold Client.write
  split
  · have ok := inv.requests _ r hr
    have hwait : Inv (client.modify request fun r => { r with phase := .waiting }) :=
      inv.modify hr _ ⟨nofun, fun _ => ok.registered (.inl hreg), ok.filled, fun _ => ok.live (.inl hreg), nofun⟩
    exact hwait.frame rfl rfl rfl (fun _ _ => Iff.rfl) hwait.closed hwait.cleared hwait.gaveUp
  · have inv' := inv.removePending r.id
    obtain ⟨slot, hr'⟩ : ∃ slot, (client.removePending r.id).requests request = some { r with slot := slot } := by
      unfold Client.removePending
      split
      · rename_i other hrem
        by_cases heq : request = other
        · refine ⟨.gone, (requests_modify ..).trans ?_⟩
          rw [if_pos heq, ← heq, hr]
          rfl
        · refine ⟨r.slot, (requests_modify ..).trans ?_⟩
          rw [if_neg heq]
          exact hr
      · exact ⟨r.slot, hr⟩
    have ok := inv'.requests _ _ hr'
    refine inv'.modify hr' _ ⟨nofun, nofun, ok.filled, nofun, fun message h => .inr ?_⟩
    exact (Phase.failed.inj h).symm

theorem Inv.abandon : Inv (client.abandon request) := by
  have ok := inv.requests _ r hr
  exact inv.modify hr _ ⟨nofun, nofun, ok.filled, nofun, nofun⟩

end

/-! ## The reader -/

section

variable (inv : Inv client)
include inv

/-- What is known when the response to a request that is pending has been read. -/
theorem Inv.take {id : Int} {outcome : Except String Value} (hrdg : client.reader = .reading)
    (htak : client.pending id = some request) :
    Inv { client with
      log := client.log ++ [Event.response id outcome]
      pending := Function.update client.pending id none
      reader := .delivering request outcome } := by
  obtain ⟨r, hr, hid, hslot, hreg, hans⟩ := inv.pending id _ htak
  constructor
  case finite => exact inv.finite
  case unknown =>
    intro other h
    rw [registeredId_append, inv.unknown _ h]
    rfl
  case requests =>
    intro other r' h
    refine (inv.requests _ r' h).frame rfl rfl (fun h => ?_) fun outcome' h => ?_
    · by_cases heq : r'.id = id
      · rw [heq, htak] at h
        exact .inr ⟨outcome, congrArg (Reader.delivering · _) (some.inj h)⟩
      · exact .inl ((update_of_ne heq _ _).trans h)
    · rw [hrdg] at h
      nomatch h
  case pending =>
    intro id' other h
    by_cases heq : id' = id
    · rw [heq] at h
      exact absurd h (by simp)
    · obtain ⟨r', hr', hid', hslot', hreg', hans'⟩ :=
        inv.pending id' _ ((update_of_ne heq _ _).symm.trans h)
      refine ⟨r', hr', hid', hslot', ?_, ?_⟩
      · rw [registeredId_append, hreg']
        rfl
      · rw [firstAnswer_append hreg', hans']
        exact if_neg (Ne.symm heq)
  case delivering =>
    intro other outcome' h
    obtain ⟨rfl, rfl⟩ : request = other ∧ outcome = outcome' := by
      injection h with h h'
      exact ⟨h, h'⟩
    refine ⟨⟨r, hr, hslot, ?_⟩, ?_⟩
    · rw [registeredId_append, hreg, hid]
      rfl
    · rw [firstAnswer_append hreg, hans]
      exact if_pos rfl
  case closed =>
    have hclsd : client.closed = false := by
      rw [← not_eq_true, inv.closed, hrdg]
      simp
    simp [hclsd]
  case cleared => simp
  case gaveUp =>
    intro h
    have := inv.gaveUp h
    rw [hrdg] at this
    nomatch this

/-- What is known when a response has been read that nothing waits for. -/
theorem Inv.ignore {id : Int} {outcome : Except String Value} (hfree : client.pending id = none) :
    Inv { client with log := client.log ++ [Event.response id outcome] } where
  finite := inv.finite
  unknown other h := by
    rw [registeredId_append, inv.unknown _ h]
    rfl
  requests other r h := (inv.requests _ r h).frame rfl rfl .inl fun _ h => h
  pending id' other h := by
    obtain ⟨r, hr, hid, hslot, hreg, hans⟩ := inv.pending id' _ h
    refine ⟨r, hr, hid, hslot, ?_, ?_⟩
    · rw [registeredId_append, hreg]
      rfl
    · have hne : id ≠ id' := by
        rintro rfl
        rw [hfree] at h
        nomatch h
      rw [firstAnswer_append hreg, hans]
      exact if_neg hne
  delivering other outcome' h := by
    obtain ⟨⟨r, hr, hslot, hreg⟩, hans⟩ := inv.delivering _ _ h
    refine ⟨⟨r, hr, hslot, ?_⟩, ?_⟩
    · rw [registeredId_append, hreg]
      rfl
    · rw [firstAnswer_append hreg, hans]
      rfl
  closed := inv.closed
  cleared := inv.cleared
  gaveUp := inv.gaveUp

/-- While the reader reads or has a message to forward, the client is open and the reader has not given up. -/
theorem Inv.open (h : client.reader = .reading ∨ (∃ message, client.reader = .forwarding message) ∨
    ∃ request outcome, client.reader = .delivering request outcome) : client.closed = false ∧ client.gaveUp = false := by
  have hne : client.reader ≠ .closing ∧ client.reader ≠ .sendingEof ∧ client.reader ≠ .returned := by
    rcases h with h | ⟨_, h⟩ | ⟨_, _, h⟩ <;> rw [h] <;> exact ⟨nofun, nofun, nofun⟩
  constructor
  · rw [← not_eq_true, inv.closed]
    rintro (h | h | ⟨h, -⟩)
    · exact hne.1 h
    · exact hne.2.1 h
    · exact hne.2.2 h
  · rw [← not_eq_true]
    exact fun h => hne.2.2 (inv.gaveUp h)

theorem Inv.read (line : String) (hrdg : client.reader = .reading) : Inv (client.read serde line) := by
  obtain ⟨hclsd, hgaveU⟩ := inv.open (.inl hrdg)
  unfold Client.read
  split
  · exact inv
  · dsimp only
    split
    · rename_i request htak
      exact inv.take hrdg htak
    · rename_i hfree
      exact inv.ignore hfree
  · refine inv.frame rfl rfl rfl (fun request outcome => ?_) ?_ ?_ ?_
    · rw [hrdg]
      exact iff_of_false nofun nofun
    · rw [hclsd]
      simp
    · simp
    · rw [hgaveU]
      nofun

theorem Inv.endLines (hrdg : client.reader = .reading) : Inv client.endLines := by
  obtain ⟨-, hgaveU⟩ := inv.open (.inl hrdg)
  refine inv.frame rfl rfl rfl (fun request outcome => ?_) ?_ ?_ ?_
  · rw [hrdg]
    exact iff_of_false nofun nofun
  · simp [Client.endLines]
  · simp [Client.endLines]
  · unfold Client.endLines
    rw [hgaveU]
    nofun

theorem Inv.clear (hclos : client.reader = .closing) : Inv client.clear := by
  have hreqs : ∀ other r', client.clear.requests other = some r' → ∃ r, client.requests other = some r ∧
      r' = if client.pending r.id = some other then { r with slot := .gone } else r := by
    intro other r' h
    obtain ⟨r, hr, rfl⟩ := map_eq_some_iff.mp h
    exact ⟨r, hr, rfl⟩
  constructor
  case finite =>
    obtain ⟨n, hn⟩ := inv.finite
    refine ⟨n, fun other hge => ?_⟩
    exact map_eq_none_iff.mpr (hn _ hge)
  case unknown =>
    intro other h
    exact inv.unknown _ (map_eq_none_iff.mp h)
  case requests =>
    intro other r' h
    obtain ⟨r, hr, rfl⟩ := hreqs _ r' h
    have ok := inv.requests _ r hr
    split
    · rename_i hpend
      refine ⟨fun h => ?_, ok.registered, nofun, nofun, ok.failed⟩
      obtain ⟨_, _, _, _, hreg, _⟩ := inv.pending _ _ hpend
      have := (ok.called h).2
      rw [hreg] at this
      nomatch this
    · rename_i hne
      refine ok.frame (append_nil _).symm rfl (fun h => absurd h hne) fun outcome h => ?_
      rw [hclos] at h
      nomatch h
  case pending => exact nofun
  case delivering => exact nofun
  case closed =>
    have : client.closed = true := inv.closed.mpr (.inl hclos)
    simp [Client.clear, this]
  case cleared => exact fun _ _ => rfl
  case gaveUp =>
    intro h
    have := inv.gaveUp h
    rw [hclos] at this
    nomatch this

theorem Inv.deliver {outcome : Except String Value}
    (hdel : client.reader = .delivering request outcome) : Inv (client.deliver request outcome) := by
  obtain ⟨⟨r, hr, -, hreg⟩, hans⟩ := inv.delivering _ _ hdel
  obtain ⟨hclsd, hgaveU⟩ := inv.open (.inr (.inr ⟨request, outcome, hdel⟩))
  have hreqs : ∀ other, (client.deliver request outcome).requests other =
      if other = request then some { r with slot := .filled outcome } else client.requests other := by
    intro other
    refine (requests_modify ..).trans ?_
    rw [hr]
    rfl
  constructor
  case finite =>
    obtain ⟨n, hn⟩ := inv.finite
    refine ⟨n, fun other hge => ?_⟩
    have hne : other ≠ request := by
      rintro rfl
      rw [hn _ hge] at hr
      nomatch hr
    rw [hreqs, if_neg hne]
    exact hn _ hge
  case unknown =>
    intro other h
    rw [hreqs] at h
    split at h
    · nomatch h
    · exact inv.unknown _ h
  case requests =>
    intro other r' h
    rw [hreqs] at h
    split at h
    · rename_i heq
      obtain rfl := some.inj h
      have ok := inv.requests _ r hr
      rw [heq]
      refine ⟨fun h => ?_, ok.registered, fun outcome' h => ?_, nofun, ok.failed⟩
      · have := (ok.called h).2
        rw [hreg] at this
        nomatch this
      · obtain rfl := Slot.filled.inj h
        exact hans
    · rename_i hne
      refine (inv.requests _ r' h).frame (append_nil _).symm rfl .inl fun outcome' h => ?_
      rw [hdel] at h
      injection h with h
      exact absurd h.symm hne
  case pending =>
    intro id other h
    obtain ⟨r', hr', hid, hslot', hreg', hans'⟩ := inv.pending id _ h
    have hne : other ≠ request := by
      rintro rfl
      rw [hans] at hans'
      nomatch hans'
    rw [hreqs, if_neg hne]
    exact ⟨r', hr', hid, hslot', hreg', hans'⟩
  case delivering => exact nofun
  case closed =>
    unfold Client.deliver Client.modify
    rw [hclsd]
    simp
  case cleared => simp [Client.deliver]
  case gaveUp =>
    unfold Client.deliver Client.modify
    rw [hgaveU]
    nofun

theorem Inv.step (h : Step serde client client') : Inv client' := by
  cases h with
  | call request method params fresh => exact inv.call _ _ fresh
  | register request r requested called => exact inv.register requested called
  | write request r requested registered => exact inv.write requested registered
  | abandon request r requested waiting unanswered => exact inv.abandon requested
  | closeWriter => exact inv.frame rfl rfl rfl (fun _ _ => Iff.rfl) inv.closed inv.cleared inv.gaveUp
  | read line reading => exact inv.read line reading
  | endLines reading => exact inv.endLines reading
  | clear closing => exact inv.clear closing
  | deliver request outcome delivering => exact inv.deliver delivering
  | forward message forwarding open_ room =>
    obtain ⟨hclsd, hgaveU⟩ := inv.open (.inr (.inl ⟨message, forwarding⟩))
    refine inv.frame rfl rfl rfl (fun _ _ => ?_) (by simp [hclsd]) (by simp) (by simp [hgaveU])
    rw [forwarding]
    exact iff_of_false nofun nofun
  | giveUp message forwarding dropped =>
    obtain ⟨hclsd, -⟩ := inv.open (.inr (.inl ⟨message, forwarding⟩))
    refine inv.frame rfl rfl rfl (fun _ _ => ?_) (by simp [hclsd]) (by simp) fun _ => rfl
    rw [forwarding]
    exact iff_of_false nofun nofun
  | sendEof sending open_ room | skipEof sending dropped =>
    refine inv.frame rfl rfl rfl (fun _ _ => ?_) ?_ (fun _ => inv.cleared (.inl sending)) fun _ => rfl
    · rw [sending]
      exact iff_of_false nofun nofun
    · refine iff_of_true (inv.closed.mpr (.inr (.inl sending))) (.inr (.inr ⟨rfl, ?_⟩))
      rw [← not_eq_true]
      intro h
      have := inv.gaveUp h
      rw [sending] at this
      nomatch this
  | receive message messages open_ received =>
    exact inv.frame rfl rfl rfl (fun _ _ => Iff.rfl) inv.closed inv.cleared inv.gaveUp
  | dropReceiver => exact inv.frame rfl rfl rfl (fun _ _ => Iff.rfl) inv.closed inv.cleared inv.gaveUp

theorem Inv.steps (h : Steps serde client client') : Inv client' := by
  induction h with
  | refl => exact inv
  | tail _ hstep ih => exact ih.step hstep

end

theorem Reachable.inv (h : Reachable serde client) : Inv client := inv_new.steps h

end Client

end Wu.JsonRpc
