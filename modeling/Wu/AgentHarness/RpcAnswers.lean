import Wu.AgentHarness.RpcRuns

/-!
# The answers of the JSON-RPC client

A request is answered by the first response with its id that is read after it has been registered, or fails, and either once.
When the lines have ended nothing is pending, and a request that comes later fails. The reader also returns when the receiver
is dropped while it has a message to forward; then requests stay pending.
-/

namespace Wu.JsonRpc.Client

open Option

variable {serde : Serde} {client client' : Client} {request : Nat} {r : Request}

/-! ## Outcomes -/

/-- What a request may be ready with: an error of the client, or its first answer. -/
def Completion (client : Client) (request : Nat) (r : Request) (outcome : Except String Value) : Prop :=
  outcome = .error (r.method ++ ": app-server exited before responding") ∨
  outcome = .error (r.method ++ ": app-server stdin closed") ∨
  registeredId request client.log = some r.id ∧ ∃ answer, firstAnswer request client.log = some answer ∧
    outcome = answer.mapError fun message => r.method ++ ": " ++ message

theorem Inv.completion (inv : Inv client) {outcome : Except String Value} (hr : client.requests request = some r)
    (h : r.outcome = some outcome) : Completion client request r outcome := by
  have ok := inv.requests _ r hr
  unfold Request.outcome at h
  split at h
  · rename_i message hphase
    obtain rfl := some.inj h
    rcases ok.failed _ hphase with rfl | rfl
    · exact .inl rfl
    · exact .inr (.inl rfl)
  · rename_i hphase
    have hreg := ok.registered (.inr hphase)
    split at h
    · rename_i result hslot
      obtain rfl := some.inj h
      exact .inr (.inr ⟨hreg, _, ok.filled _ hslot, rfl⟩)
    · rename_i message hslot
      obtain rfl := some.inj h
      exact .inr (.inr ⟨hreg, _, ok.filled _ hslot, rfl⟩)
    · obtain rfl := some.inj h
      exact .inl rfl
    · nomatch h
  · nomatch h

/-- A request that is as ready as another one: only an empty slot has changed. -/
structure Keeps (r r' : Request) : Prop where
  method : r'.method = r.method
  phase : r'.phase = r.phase
  slot : r'.slot = r.slot ∨ r.slot = .empty

theorem Keeps.rfl : Keeps r r := ⟨Eq.refl _, Eq.refl _, .inl (Eq.refl _)⟩

theorem Keeps.outcome {r' : Request} (keeps : Keeps r r') {outcome : Except String Value} (h : r.outcome = some outcome) :
    r'.outcome = some outcome := by
  unfold Request.outcome at h ⊢
  rw [keeps.phase, keeps.method]
  rcases keeps.slot with hslot | hslot
  · rw [hslot]
    exact h
  · rw [hslot] at h
    split at h
    · exact h
    · nomatch h
    · nomatch h

/-- A request that is ready is neither called nor registered. -/
theorem ready_phase {outcome : Except String Value} (h : r.outcome = some outcome) : r.phase ≠ .called ∧ r.phase ≠ .registered := by
  unfold Request.outcome at h
  constructor <;> intro hphase <;> rw [hphase] at h <;> nomatch h

theorem modify_keeps (self : Client) {request other : Nat} (hr : self.requests request = some r) (f : Request → Request)
    (h : request = other → Keeps r (f r)) : ∃ r', (self.modify other f).requests request = some r' ∧ Keeps r r' := by
  rw [requests_modify]
  by_cases heq : request = other
  · rw [if_pos heq, ← heq, hr]
    exact ⟨f r, Eq.refl _, h heq⟩
  · rw [if_neg heq]
    exact ⟨r, hr, .rfl⟩

theorem Inv.removePending_keeps (inv : Inv client) (id : Int) (hr : client.requests request = some r) :
    ∃ r', (client.removePending id).requests request = some r' ∧ Keeps r r' := by
  unfold Client.removePending
  split
  · rename_i other hrem
    refine modify_keeps _ hr _ ?_
    rintro rfl
    obtain ⟨r', hr', -, hslot, -⟩ := inv.pending id _ hrem
    rw [hr] at hr'
    obtain rfl := some.inj hr'
    exact ⟨Eq.refl _, Eq.refl _, .inr hslot⟩
  · exact ⟨r, hr, .rfl⟩

/-- A request that is ready stays so. -/
theorem Inv.step_keeps (inv : Inv client) (h : Step serde client client') {outcome : Except String Value}
    (hr : client.requests request = some r) (hready : r.outcome = some outcome) :
    ∃ r', client'.requests request = some r' ∧ Keeps r r' := by
  obtain ⟨hcall, hreg⟩ := ready_phase hready
  cases h with
  | call other method params fresh =>
    have hne : request ≠ other := by
      rintro rfl
      rw [fresh] at hr
      nomatch hr
    rw [requests_call, if_neg hne]
    exact ⟨r, hr, .rfl⟩
  | register other r' requested called =>
    have hne : request ≠ other := by
      rintro rfl
      rw [hr] at requested
      obtain rfl := some.inj requested
      exact hcall called
    unfold Client.register
    split
    · exact modify_keeps _ hr _ fun h => absurd h hne
    · obtain ⟨r₁, hr₁, hkeep⟩ := inv.removePending_keeps _ hr
      refine ⟨r₁, (requests_modify ..).trans ?_, hkeep⟩
      rw [if_neg hne]
      exact hr₁
  | write other r' requested registered =>
    have hne : request ≠ other := by
      rintro rfl
      rw [hr] at requested
      obtain rfl := some.inj requested
      exact hreg registered
    unfold Client.write
    split
    · exact modify_keeps _ hr _ fun h => absurd h hne
    · obtain ⟨r₁, hr₁, hkeep⟩ := inv.removePending_keeps _ hr
      refine ⟨r₁, ?_, hkeep⟩
      rw [requests_modify, if_neg hne]
      exact hr₁
  | abandon other r' requested waiting unanswered =>
    refine modify_keeps _ hr _ ?_
    rintro rfl
    rw [hr] at requested
    obtain rfl := some.inj requested
    rw [hready] at unanswered
    nomatch unanswered
  | read line reading =>
    refine ⟨r, ?_, .rfl⟩
    unfold Client.read
    split
    · exact hr
    · dsimp only
      split <;> exact hr
    · exact hr
  | clear closing =>
    refine ⟨_, map_eq_some_iff.mpr ⟨r, hr, Eq.refl _⟩, ?_⟩
    split
    · rename_i hpend
      obtain ⟨r', hr', -, hslot, -⟩ := inv.pending _ _ hpend
      rw [hr] at hr'
      obtain rfl := some.inj hr'
      exact ⟨Eq.refl _, Eq.refl _, .inr hslot⟩
    · exact .rfl
  | deliver other outcome' delivering =>
    refine modify_keeps _ hr _ ?_
    rintro rfl
    obtain ⟨⟨r', hr', hslot, -⟩, -⟩ := inv.delivering _ _ delivering
    rw [hr] at hr'
    obtain rfl := some.inj hr'
    exact ⟨Eq.refl _, Eq.refl _, .inr hslot⟩
  | closeWriter => exact ⟨r, hr, .rfl⟩
  | endLines reading => exact ⟨r, hr, .rfl⟩
  | forward message forwarding open_ room => exact ⟨r, hr, .rfl⟩
  | giveUp message forwarding dropped => exact ⟨r, hr, .rfl⟩
  | sendEof sending open_ room => exact ⟨r, hr, .rfl⟩
  | skipEof sending dropped => exact ⟨r, hr, .rfl⟩
  | receive message messages open_ received => exact ⟨r, hr, .rfl⟩
  | dropReceiver => exact ⟨r, hr, .rfl⟩

theorem Inv.steps_outcome (inv : Inv client) (h : Steps serde client client') {outcome : Except String Value}
    (hr : client.requests request = some r) (hready : r.outcome = some outcome) :
    ∃ r', client'.requests request = some r' ∧ r'.outcome = some outcome := by
  induction h with
  | refl => exact ⟨r, hr, hready⟩
  | tail hste hstep ih =>
    obtain ⟨r₁, hr₁, hrdy₁⟩ := ih
    obtain ⟨r', hr', hkeep⟩ := (inv.steps hste).step_keeps hstep hr₁ hrdy₁
    exact ⟨r', hr', hkeep.outcome hrdy₁⟩

/-! ## After the reader has returned -/

/-- Nothing is pending, now or later: a request that comes later fails and makes no entry, and no request waits. -/
def Settled (serde : Serde) (client : Client) : Prop :=
  ∀ later, Steps serde client later → (∀ id, later.pending id = none) ∧
    (∀ request r, later.requests request = some r → r.phase = .called → (later.register request r.id).pending = later.pending ∧
        ((later.register request r.id).requests request).bind Request.outcome =
          some (.error (r.method ++ ": app-server exited before responding"))) ∧
    ∀ request r, later.requests request = some r → r.phase = .waiting → r.outcome ≠ none

/-- On the way to a state the receiver has been dropped while the reader had a message to forward. -/
def Deserted (serde : Serde) (client : Client) : Prop :=
  ∃ before message, Reachable serde before ∧ Steps serde before client ∧ before.reader = .forwarding message ∧ before.receiver = false

/-- The reader has returned, and will not go on. -/
theorem Step.returned (h : Step serde client client') (hret : client.reader = .returned) :
    client'.reader = .returned ∧ client'.closed = client.closed ∧ client'.gaveUp = client.gaveUp := by
  cases h with
  | register request r requested called =>
    unfold Client.register
    split
    · exact ⟨hret, rfl, rfl⟩
    · obtain ⟨-, -, hread, hclsd, hgaveU, -⟩ := removePending_spec _ r.id
      exact ⟨hread.trans hret, hclsd, hgaveU⟩
  | write request r requested registered =>
    unfold Client.write
    split
    · exact ⟨hret, rfl, rfl⟩
    · obtain ⟨-, -, hread, hclsd, hgaveU, -⟩ := removePending_spec _ r.id
      exact ⟨hread.trans hret, hclsd, hgaveU⟩
  | call request method params fresh => exact ⟨hret, rfl, rfl⟩
  | abandon request r requested waiting unanswered => exact ⟨hret, rfl, rfl⟩
  | closeWriter => exact ⟨hret, rfl, rfl⟩
  | read line reading => exact nomatch hret.symm.trans reading
  | endLines reading => exact nomatch hret.symm.trans reading
  | clear closing => exact nomatch hret.symm.trans closing
  | deliver request outcome delivering => exact nomatch hret.symm.trans delivering
  | forward message forwarding open_ room => exact nomatch hret.symm.trans forwarding
  | giveUp message forwarding dropped => exact nomatch hret.symm.trans forwarding
  | sendEof sending open_ room => exact nomatch hret.symm.trans sending
  | skipEof sending dropped => exact nomatch hret.symm.trans sending
  | receive message messages open_ received => exact ⟨hret, rfl, rfl⟩
  | dropReceiver => exact ⟨hret, rfl, rfl⟩

theorem Steps.returned (h : Steps serde client client') (hret : client.reader = .returned) :
    client'.reader = .returned ∧ client'.closed = client.closed ∧ client'.gaveUp = client.gaveUp := by
  induction h with
  | refl => exact ⟨hret, rfl, rfl⟩
  | tail _ hstep ih =>
    obtain ⟨hread, hclsd, hgaveU⟩ := ih
    obtain ⟨hread', hclsd', hgaveU'⟩ := Step.returned hstep hread
    exact ⟨hread', hclsd'.trans hclsd, hgaveU'.trans hgaveU⟩

/-- When the lines have ended and the reader has returned, nothing is pending any more. -/
theorem Inv.settled (inv : Inv client) (hret : client.reader = .returned) (hgaveU : client.gaveUp = false) :
    Settled serde client := by
  intro later hstep
  obtain ⟨hread, -, hgaveU'⟩ := Steps.returned hstep hret
  have inv' := inv.steps hstep
  have hended : later.reader = .returned ∧ later.gaveUp = false := ⟨hread, hgaveU'.trans hgaveU⟩
  have hnone := inv'.cleared (.inr hended)
  have hlat : later.closed = true := inv'.closed.mpr (.inr (.inr hended))
  refine ⟨hnone, fun request r hr hcall => ?_, fun request r hr hwait hnot => ?_⟩
  · unfold Client.register
    rw [if_pos hlat]
    refine ⟨rfl, ?_⟩
    rw [requests_modify, if_pos rfl, hr]
    rfl
  · have hemp : r.slot = .empty := by
      unfold Request.outcome at hnot
      rw [hwait] at hnot
      dsimp only at hnot
      split at hnot
      · nomatch hnot
      · nomatch hnot
      · nomatch hnot
      · rename_i hslot
        exact hslot
    rcases (inv'.requests _ r hr).live (.inr hwait) hemp with h | ⟨outcome, h⟩
    · rw [hnone] at h
      nomatch h
    · rw [hread] at h
      nomatch h

theorem register_pending (self : Client) (request : Nat) (id : Int) (hclsd : self.closed = false) :
    (self.register request id).pending id = some request := by
  unfold Client.register
  rw [if_neg (by simp [hclsd])]
  exact Function.update_self _ _ _

/-- When the reader has given up, a request that comes later is pending. -/
theorem Inv.not_settled (inv : Inv client) (hgaveU : client.gaveUp = true) : ¬Settled serde client := by
  intro h
  obtain ⟨n, hn⟩ := inv.finite
  have hread := inv.gaveUp hgaveU
  have hclsd : client.closed = false := by
    rw [← Bool.not_eq_true, inv.closed, hread, hgaveU]
    simp
  obtain ⟨hnone, hfail, -⟩ := h _ (.single (.call n "" _ (hn n (Nat.le_refl n))))
  have hr := requests_call client n n "" .null
  rw [if_pos rfl] at hr
  have hent := congrFun (hfail n _ hr rfl).1 (wrappedSucc client.nextId)
  rw [hnone] at hent
  have hreg := register_pending (client.call n "" .null) n (wrappedSucc client.nextId) hclsd
  rw [hent] at hreg
  nomatch hreg

/-- The reader gives up only when the receiver has been dropped. -/
theorem Reachable.deserted (h : Reachable serde client) (hgaveU : client.gaveUp = true) : Deserted serde client := by
  induction h with
  | refl => nomatch hgaveU
  | tail hste hstep ih =>
    rename_i before after
    by_cases hbef : before.gaveUp = true
    · obtain ⟨state, message, hrch, hto, hfwd⟩ := ih hbef
      exact ⟨state, message, hrch, hto.tail hstep, hfwd⟩
    · cases hstep with
      | giveUp message forwarding dropped =>
        exact ⟨before, message, hste, .single (.giveUp _ forwarding dropped), forwarding, dropped⟩
      | register request r requested called =>
        unfold Client.register at hgaveU
        split at hgaveU
        · exact absurd hgaveU hbef
        · exact absurd ((removePending_spec _ r.id).2.2.2.2.1.symm.trans hgaveU) hbef
      | write request r requested registered =>
        unfold Client.write at hgaveU
        split at hgaveU
        · exact absurd hgaveU hbef
        · exact absurd ((removePending_spec _ r.id).2.2.2.2.1.symm.trans hgaveU) hbef
      | read line reading =>
        unfold Client.read at hgaveU
        dsimp only at hgaveU
        repeat' split at hgaveU
        all_goals exact absurd hgaveU hbef
      | _ => exact absurd hgaveU hbef

/-- Once the receiver has been dropped while the reader has a message to forward, all the reader does is give up. -/
theorem Step.deserted (h : Step serde client client')
    (hdes : client.gaveUp = true ∨ (∃ message, client.reader = .forwarding message) ∧ client.receiver = false)
    (inv : Inv client) :
    client'.gaveUp = true ∨ (∃ message, client'.reader = .forwarding message) ∧ client'.receiver = false := by
  rcases hdes with hgaveU | ⟨⟨message, hfwd⟩, hdrop⟩
  · exact .inl ((Step.returned h (inv.gaveUp hgaveU)).2.2.trans hgaveU)
  · cases h with
    | register request r requested called =>
      unfold Client.register
      split
      · exact .inr ⟨⟨message, hfwd⟩, hdrop⟩
      · obtain ⟨-, -, hread, -, -, hrecv⟩ := removePending_spec _ r.id
        exact .inr ⟨⟨message, hread.trans hfwd⟩, hrecv.trans hdrop⟩
    | write request r requested registered =>
      unfold Client.write
      split
      · exact .inr ⟨⟨message, hfwd⟩, hdrop⟩
      · obtain ⟨-, -, hread, -, -, hrecv⟩ := removePending_spec _ r.id
        exact .inr ⟨⟨message, hread.trans hfwd⟩, hrecv.trans hdrop⟩
    | giveUp message forwarding dropped => exact .inl rfl
    | read line reading => exact nomatch hfwd.symm.trans reading
    | endLines reading => exact nomatch hfwd.symm.trans reading
    | clear closing => exact nomatch hfwd.symm.trans closing
    | deliver request outcome delivering => exact nomatch hfwd.symm.trans delivering
    | forward message forwarding open_ room => exact nomatch hdrop.symm.trans open_
    | sendEof sending open_ room => exact nomatch hfwd.symm.trans sending
    | skipEof sending dropped => exact nomatch hfwd.symm.trans sending
    | receive message messages open_ received => exact nomatch hdrop.symm.trans open_
    | call request method params fresh => exact .inr ⟨⟨message, hfwd⟩, hdrop⟩
    | abandon request r requested waiting unanswered => exact .inr ⟨⟨message, hfwd⟩, hdrop⟩
    | closeWriter => exact .inr ⟨⟨message, hfwd⟩, hdrop⟩
    | dropReceiver => exact .inr ⟨⟨message, hfwd⟩, rfl⟩

theorem Steps.deserted (h : Steps serde client client') (inv : Inv client)
    (hdes : client.gaveUp = true ∨ (∃ message, client.reader = .forwarding message) ∧ client.receiver = false) :
    client'.gaveUp = true ∨ (∃ message, client'.reader = .forwarding message) ∧ client'.receiver = false := by
  induction h with
  | refl => exact hdes
  | tail hste hstep ih => exact Step.deserted hstep ih (inv.steps hste)

/-- When the reader has returned, it has given up if and only if the receiver has been dropped while it had a message to
forward. -/
theorem Reachable.gaveUp_iff (h : Reachable serde client) (hret : client.reader = .returned) :
    client.gaveUp = true ↔ Deserted serde client := by
  refine ⟨h.deserted, ?_⟩
  rintro ⟨before, message, hrch, hstep, hfwd, hdrop⟩
  rcases Steps.deserted hstep hrch.inv (.inr ⟨⟨message, hfwd⟩, hdrop⟩) with h | ⟨⟨_, h⟩, -⟩
  · exact h
  · rw [hret] at h
    nomatch h

/-- Every request is ready once at most, and with an error of the client or the first answer to it. When the reader has
returned, nothing is pending and no request waits, now or later, if and only if the receiver has not been dropped while the
reader had a message to forward. -/
theorem requests_answered (serde : Serde) (client : Client) (h : Reachable serde client) :
    (∀ request r outcome, client.requests request = some r → r.outcome = some outcome →
      Completion client request r outcome ∧
        ∀ later, Steps serde client later → ∃ r', later.requests request = some r' ∧ r'.outcome = some outcome) ∧
    (client.reader = .returned → (Settled serde client ↔ ¬Deserted serde client)) := by
  have inv := h.inv
  refine ⟨fun request r outcome hr hready => ⟨inv.completion hr hready, fun later hsteps => ?_⟩, fun hreturned => ?_⟩
  · exact inv.steps_outcome hsteps hr hready
  · rw [← h.gaveUp_iff hreturned]
    constructor
    · exact fun hsettled hgaveUp => inv.not_settled hgaveUp hsettled
    · exact fun hnot => inv.settled hreturned (Bool.eq_false_iff.mpr hnot)

/-! ## Runs -/

/-- The request of the runs below. -/
def demoRequest (phase : Phase) : Request := ⟨"initialize", .null, 1, phase, .empty⟩

/-- A client that has queued the line of a request. -/
def demoWaiting : Client := ((new.call 0 "initialize" .null).register 0 1).write 0 (demoRequest .registered)

theorem reachable_demoWaiting : Reachable demoSerde demoWaiting := by
  have hcall : Step demoSerde new (new.call 0 "initialize" .null) := .call 0 _ _ rfl
  have hreg : Step demoSerde (new.call 0 "initialize" .null) ((new.call 0 "initialize" .null).register 0 1) :=
    .register 0 (demoRequest _) rfl rfl
  exact ((Relation.ReflTransGen.single hcall).tail hreg).tail (.write 0 _ rfl rfl)

/-- The request is answered by a response that has its id as a string. -/
theorem requests_answered_response :
    let client := (demoWaiting.read demoSerde "\x7b\"id\":\"1\",\"result\":true\x7d").deliver 0 (.ok (.bool true))
    Completion client 0 { demoRequest .waiting with slot := .filled (.ok (.bool true)) } (.ok (.bool true)) := by
  intro client
  have hread : Step demoSerde demoWaiting (demoWaiting.read demoSerde "\x7b\"id\":\"1\",\"result\":true\x7d") :=
    .read _ rfl
  have hreach : Reachable demoSerde client := (reachable_demoWaiting.tail hread).tail (.deliver 0 _ rfl)
  exact ((requests_answered demoSerde client hreach).1 0 _ _ rfl rfl).1

/-- The receiver is dropped before a notification comes: the reader returns, and the request stays pending. -/
theorem requests_answered_not_settled :
    ∃ client, Reachable demoSerde client ∧ client.reader = .returned ∧ client.pending 1 = some 0 ∧
      ¬Settled demoSerde client := by
  let dropped : Client := { demoWaiting with receiver := false, incoming := [] }
  have hdrop : Step demoSerde demoWaiting dropped := .dropReceiver
  have hread : Step demoSerde dropped (dropped.read demoSerde "\x7b\"method\":\"initialized\"\x7d") := .read _ rfl
  have hreach := ((reachable_demoWaiting.tail hdrop).tail hread).tail (.giveUp (.notification "initialized" .null) rfl rfl)
  exact ⟨_, hreach, rfl, rfl, Inv.not_settled (Reachable.inv hreach) rfl⟩

end Wu.JsonRpc.Client
