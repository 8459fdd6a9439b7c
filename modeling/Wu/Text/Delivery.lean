import Wu.Text.Passes

/-!
# Delivery of operations

A run of the network is a run of the causal broadcast, so every replica applies an operation once and after everything it
depends on, and when every operation has been handed over, none is left waiting.
-/

namespace Wu

open List Function Broadcast Global

namespace Buffer

/-- The snapshot after an operation that takes effect. -/
theorem snapshot_applyOp (self : Buffer) (op : Operation) :
    (self.applyOp op).snapshot = if self.takesEffect op then self.snapshot.takeOp op else self.snapshot := by
  rw [applyOp_eq, takesEffect]
  cases hobs : self.version.observed _ with
  | true => rfl
  | false => cases op <;> rfl

/-- A pass takes what is in its log, one operation after the other. -/
theorem Passes.snapshot {old new : Buffer} {ops deferred : List Operation} {log : List Applied}
    (h : Passes old ops new deferred log) :
    new.snapshot = log.foldl (fun snapshot entry => snapshot.takeOp entry.2) old.snapshot := by
  induction h with
  | nil => rfl
  | history pushed rest ih => exact ih
  | @apply self new op ops deferred log can rest ih =>
    rw [ih, snapshot_applyOp]
    cases self.takesEffect op <;> rfl
  | defer cannot rest ih => exact ih

/-- The snapshot after operations are received: what is in the log has taken effect, and nothing else. -/
theorem snapshot_applyOps (self : Buffer) (ops : List Operation) : (self.applyOps ops).snapshot =
      (self.applyOpsLog ops).foldl (fun snapshot entry => snapshot.takeOp entry.2) self.snapshot := by
  obtain ⟨mid, deferred, log, last, rest, log', hrecv, hflu, hnew, hlog⟩ := self.applyOps_passes ops
  rw [hnew, hlog, foldl_append, ← hrecv.snapshot]
  exact hflu.snapshot

end Buffer

namespace Broadcast

/-- A replica has made operations and applied operations. -/
def advance (self : Broadcast) (replicaId : ReplicaId) (made applied : List Operation) (new : BufferSnapshot) :
    Broadcast where
  sent := self.sent ++ made
  applied := Function.update self.applied replicaId (self.applied replicaId ++ applied)
  snapshots := Function.update self.snapshots replicaId new

section

variable (self : Broadcast) (replicaId : ReplicaId)
include self replicaId

theorem advance_nil : self.advance replicaId [] [] (self.snapshots replicaId) = self := by
  simp [advance]

theorem advance_advance (made made' applied applied' : List Operation) (new new' : BufferSnapshot) :
    (self.advance replicaId made applied new).advance replicaId made' applied' new' =
      self.advance replicaId (made ++ made') (applied ++ applied') new' := by
  simp [advance]

@[simp] theorem advance_snapshots (made applied : List Operation)
    (new : BufferSnapshot) : (self.advance replicaId made applied new).snapshots replicaId = new :=
  update_self _ _ _

@[simp] theorem advance_applied (made applied : List Operation) (new : BufferSnapshot) :
    (self.advance replicaId made applied new).applied replicaId = self.applied replicaId ++ applied :=
  update_self _ _ _

end

end Broadcast

namespace Buffer

/-- What a replica's buffer has beside its snapshot: a clock ahead of its version, edits of its own in its stacks, and
deferred operations that wait. -/
structure Local (sent applied : List Operation) (replicaId : ReplicaId) (buffer : Buffer) : Prop where
  clock : ∀ r, buffer.version.get r < buffer.lamportClock.value
  replicaId_eq : buffer.lamportClock.replicaId = replicaId
  editIds : ∀ id ∈ buffer.history.editIds, id ∈ editIdsOf applied
  sorted : OperationQueue.Sorted buffer.deferredOps
  queued : ∀ op ∈ buffer.deferredOps, op ∈ sent
  waits : ∀ op ∈ buffer.deferredOps, buffer.version.observedAll op.version = false

section Local

variable {base : Global} {sent applied : List Operation} {replicaId : ReplicaId}

variable {self old : Buffer} {op : Operation} {net : Broadcast} {ops : List Operation} {log : List Applied}

theorem Local.quiet {new : Buffer} (h : self.Local sent applied replicaId) (quiet : self.Quiet new) :
    new.Local sent applied replicaId where
  clock r := by
    have hver : new.version = self.version := congrArg BufferSnapshot.version quiet.snapshot
    rw [hver]
    exact lt_of_lt_of_le (h.clock r) quiet.clock
  replicaId_eq := quiet.replicaId.trans h.replicaId_eq
  editIds id hid := h.editIds id (quiet.editIds id hid)
  sorted := quiet.deferredOps ▸ h.sorted
  queued := quiet.deferredOps ▸ h.queued
  waits op hop := by
    have hver : new.version = self.version := congrArg BufferSnapshot.version quiet.snapshot
    rw [hver]
    exact h.waits op (quiet.deferredOps ▸ hop)

/-- What waits for an operation of another replica goes on waiting when the replica sends one of its own. -/
theorem waits_observe {version : Global} (hv : VersionOf base sent version) (hs : Causal base sent) {t : Lamport}
    (hown : Owns sent t.replicaId version) (hop : op ∈ sent)
    (h : version.observedAll op.version = false) : (version.observe t).observedAll op.version = false := by
  obtain ⟨dep, hdep, hin, hnot, -⟩ := hv.missing hs hop h
  have hne : dep.timestamp.replicaId ≠ t.replicaId := by
    intro heq
    rw [hown dep hdep heq] at hnot
    nomatch hnot
  rw [← Bool.not_eq_true]
  intro hall
  have hobs := observed_mono (observedAll_get hall) hin
  rw [observed_iff, get_observe, if_neg hne, ← observed_iff, hnot] at hobs
  nomatch hobs

/-- What a buffer makes is a step of the broadcast. -/
theorem Produces.make {new : Buffer} (p : old.Produces op new) (inv : net.Inv base) (hsnap : net.snapshots replicaId = old.snapshot)
    (h : old.Local net.sent (net.applied replicaId) replicaId) :
    net.Step (net.advance replicaId [op] [op] new.snapshot) ∧
      new.Local (net.sent ++ [op]) (net.applied replicaId ++ [op]) replicaId := by
  obtain ⟨htime, -⟩ := p.effect.timestamp_eq
  obtain rfl : op.replicaId = replicaId := (congrArg _ htime).trans h.replicaId_eq
  have hsver : (net.snapshots op.replicaId).version = old.version := congrArg _ hsnap
  have hnew : new.version = old.version.observe op.timestamp := p.effect.version
  have hlt : ∀ r, old.version.get r < op.timestamp.value := fun r => htime ▸ h.clock r
  constructor
  · refine Broadcast.Step.make (fun r => hsver ▸ hlt r) ?_
    rw [hsnap, htime]
    exact p.effect.mono h.editIds
  · constructor
    · intro r
      have := hlt r
      have := p.clock
      rw [hnew, get_observe]
      rw [htime] at *
      split <;> omega
    · exact p.replicaId.trans h.replicaId_eq
    · intro id hid
      rw [mem_editIdsOf]
      rcases p.editIds id hid with hid | ⟨hedit, rfl⟩
      · obtain ⟨other, hoth, ho⟩ := mem_editIdsOf.mp (h.editIds id hid)
        exact ⟨other, mem_append_left _ hoth, ho⟩
      · exact ⟨op, by simp, hedit, rfl⟩
    · exact p.deferredOps ▸ h.sorted
    · intro other hoth
      exact mem_append_left _ (h.queued _ (p.deferredOps ▸ hoth))
    · intro other hoth
      rw [p.deferredOps] at hoth
      rw [hnew]
      have hown := inv.owns op.replicaId
      rw [hsver] at hown
      exact waits_observe (hsver ▸ (inv.view _).versionOf) inv.causal hown (h.queued _ hoth) (h.waits _ hoth)

/-- What a command makes is a run of the broadcast. -/
theorem Emits.steps {new : Buffer} (h : Emits old ops new) :
    ∀ {net : Broadcast}, net.Inv base → net.snapshots replicaId = old.snapshot →
      old.Local net.sent (net.applied replicaId) replicaId →
      net.Steps (net.advance replicaId ops ops new.snapshot) ∧
        new.Local (net.sent ++ ops) (net.applied replicaId ++ ops) replicaId := by
  induction h with
  | quiet quiet =>
    intro net inv hsnap hloc
    rw [quiet.snapshot, ← hsnap, advance_nil, append_nil, append_nil]
    exact ⟨.refl, hloc.quiet quiet⟩
  | @cons self ready next new op ops quiet produces rest ih =>
    intro net inv hsnap hloc
    obtain ⟨hstep, hnext⟩ := produces.make inv (hsnap.trans quiet.snapshot.symm) (hloc.quiet quiet)
    have hrest := ih (inv.step hstep) (advance_snapshots _ _ _ _ _)
      (by rw [advance_applied]; exact hnext)
    rw [advance_advance, advance_applied, append_assoc] at hrest
    obtain ⟨hste, hlast⟩ := hrest
    refine ⟨.head hstep hste, ?_⟩
    have hsent : (net.sent ++ [op]) ++ ops = net.sent ++ op :: ops := by simp
    exact hsent ▸ hlast

/-- A pass over operations of the run is a run of the broadcast. -/
theorem Passes.steps {new : Buffer} {deferred : List Operation} (h : Passes old ops new deferred log) :
    ∀ {net : Broadcast}, (∀ op ∈ ops, op ∈ net.sent) → net.snapshots replicaId = old.snapshot →
      net.Steps (net.advance replicaId [] (log.map (·.2)) new.snapshot) := by
  induction h with
  | nil =>
    intro net _ hsnap
    rw [← hsnap, map_nil, advance_nil]
  | history pushed rest ih => exact fun hops hsnap => ih hops hsnap
  | @apply self new op ops deferred log can rest ih =>
    intro net hops hsnap
    have hrest := snapshot_applyOp self op
    cases heff : self.takesEffect op with
    | false =>
      rw [heff] at hrest
      exact ih (fun x hx => hops x (by simp [hx])) (hsnap.trans hrest.symm)
    | true =>
      rw [heff, ← hsnap] at hrest
      have hver : (net.snapshots replicaId).version = self.version := congrArg _ hsnap
      have hnot : self.version.observed op.timestamp = false := by simpa [takesEffect] using heff
      have hstep : net.Step (net.take replicaId op) :=
        .take _ (hops op (by simp)) (hver ▸ hnot) (hver ▸ (canApplyOp_eq_true.mp can).2)
      have htake : net.take replicaId op = net.advance replicaId [] [op] (self.applyOp op).snapshot := by
        rw [hrest]
        simp [Broadcast.take, Broadcast.advance]
      have hlat : ∀ x ∈ ops, x ∈ (net.advance replicaId [] [op] (self.applyOp op).snapshot).sent := fun x hx =>
        mem_append_left _ (hops x (by simp [hx]))
      have hste := ih hlat (advance_snapshots _ _ _ _ _)
      rw [advance_advance] at hste
      exact .head (htake ▸ hstep) hste
  | defer cannot rest ih =>
    intro net hops hsnap
    exact ih (fun x hx => hops x (by simp [hx])) hsnap

/-- Receiving operations is a run of the broadcast. -/
theorem applyOps_steps (self : Buffer)
    (hs : Causal base net.sent) (hv : VersionOf base net.sent self.version) (hque : ∀ op ∈ self.deferredOps, op ∈ net.sent)
    (hsort : OperationQueue.Sorted self.deferredOps) (hops : ∀ op ∈ ops, op ∈ net.sent)
    (hsnap : net.snapshots replicaId = self.snapshot) :
    net.Steps (net.advance replicaId [] ((self.applyOpsLog ops).map (·.2)) (self.applyOps ops).snapshot) := by
  obtain ⟨mid, deferred, log, last, rest, log', hrecv, hflu, hnew, hlog⟩ := self.applyOps_passes ops
  have p := hrecv.passed hs hops hv
  obtain ⟨-, hqm⟩ := OperationQueue.insert_spec hs hque hsort fun op h => hops op (p.sublist.subset h)
  have hin : ∀ op ∈ OperationQueue.insert mid.deferredOps deferred, op ∈ net.sent := by
    intro op hop
    rw [p.deferredOps] at hop
    rcases (hqm op).mp hop with h | h
    · exact hops op (p.sublist.subset h)
    · exact hque op h
  have hfst : net.Steps (net.advance replicaId [] (log.map (·.2)) mid.snapshot) := hrecv.steps hops hsnap
  have hsec : (net.advance replicaId [] (log.map (·.2)) mid.snapshot).Steps
      ((net.advance replicaId [] (log.map (·.2)) mid.snapshot).advance replicaId [] (log'.map (·.2)) last.snapshot) :=
    hflu.steps (fun op hop => mem_append_left _ (hin op hop)) (advance_snapshots _ _ _ _ _)
  rw [advance_advance, ← map_append] at hsec
  rw [hnew, hlog]
  exact hfst.trans hsec

theorem Local.grow (h : self.Local sent applied replicaId) (made : List Operation) : self.Local (sent ++ made) applied replicaId :=
  ⟨h.clock, h.replicaId_eq, h.editIds, h.sorted, fun op hop => mem_append_left _ (h.queued op hop), h.waits⟩

/-- A command leaves the deferred operations alone, and what has been observed stays so. -/
theorem Emits.keeps {new : Buffer} (h : Emits old ops new) :
    new.deferredOps = old.deferredOps ∧ ∀ r, old.version.get r ≤ new.version.get r := by
  induction h with
  | quiet quiet =>
    refine ⟨quiet.deferredOps, fun r => ?_⟩
    rw [version, version, quiet.snapshot]
  | @cons self ready next new op ops quiet produces rest ih =>
    refine ⟨ih.1.trans (produces.deferredOps.trans quiet.deferredOps), fun r => ?_⟩
    have hnext := get_le_observe self.version op.timestamp r
    have hready : ready.snapshot = self.snapshot := quiet.snapshot
    have hver : next.version = self.version.observe op.timestamp :=
      produces.effect.version.trans (by rw [hready]; rfl)
    exact hnext.trans (hver ▸ ih.2 r)

/-- Receiving operations keeps a replica's own invariant. -/
theorem Received.local {new : Buffer} (h : Received base sent old ops new log) (hloc : old.Local sent applied replicaId) :
    new.Local sent (applied ++ log.map (·.2)) replicaId where
  clock := h.clock hloc.clock
  replicaId_eq := h.replicaId.trans hloc.replicaId_eq
  editIds id hid := by
    obtain ⟨op, hop, he⟩ := mem_editIdsOf.mp (hloc.editIds id (h.editIds ▸ hid))
    exact mem_editIdsOf.mpr ⟨op, mem_append_left _ hop, he⟩
  sorted := h.sorted
  queued := h.queued
  waits := h.waits

end Local

end Buffer

namespace Network

/-- The broadcast that a network runs. -/
def broadcast (self : Network) : Broadcast where
  sent := self.sent
  applied := self.applied
  snapshots r := (self.buffers r).snapshot

/-- What holds in every run of the network. -/
structure Inv (base : Global) (net : Network) : Prop where
  broadcast : net.broadcast.Inv base
  buffers : ∀ r, (net.buffers r).Local net.sent (net.applied r) r
  received : ∀ r, ∀ op ∈ net.received r, op ∈ net.sent ∧
    ((net.buffers r).version.observed op.timestamp = true ∨ op ∈ (net.buffers r).deferredOps)

variable {base : Global} {net : Network} {ops : List Operation} {r : ReplicaId}

theorem Inv.version (inv : net.Inv base) (r : ReplicaId) :
    VersionOf base net.sent (net.buffers r).version := (inv.broadcast.view r).versionOf

/-- What receiving operations does to a replica of the network. -/
theorem Inv.received_applyOps (inv : net.Inv base) (r : ReplicaId) (hops : ∀ op ∈ ops, op ∈ net.sent) :
    (net.buffers r).Received base net.sent ops ((net.buffers r).applyOps ops) ((net.buffers r).applyOpsLog ops) :=
  Buffer.received_applyOps inv.broadcast.causal (inv.version r) (inv.buffers r).queued (inv.buffers r).sorted hops

/-- The network with a replica's new buffer, after operations it has made and operations it has applied. -/
def advance (self : Network) (replicaId : ReplicaId) (made applied : List Operation) (buffer : Buffer)
    (received : ReplicaId → List Operation) : Network where
  buffers := Function.update self.buffers replicaId buffer
  sent := self.sent ++ made
  received := received
  applied := Function.update self.applied replicaId (self.applied replicaId ++ applied)

theorem broadcast_advance (self : Network) (replicaId : ReplicaId) (made applied : List Operation) (buffer : Buffer)
    (received : ReplicaId → List Operation) :
    (self.advance replicaId made applied buffer received).broadcast =
      self.broadcast.advance replicaId made applied buffer.snapshot := by
  have hsnap : (fun r => (Function.update self.buffers replicaId buffer r).snapshot) =
      Function.update (fun r => (self.buffers r).snapshot) replicaId buffer.snapshot := by
    funext r
    by_cases hr : r = replicaId
    · subst hr
      simp
    · simp [hr]
  unfold broadcast Broadcast.advance advance
  rw [hsnap]

theorem perform_eq (self : Network) (replicaId : ReplicaId) (command : Command) : self.perform replicaId command =
      self.advance replicaId ((self.buffers replicaId).perform command).2 ((self.buffers replicaId).perform command).2
        ((self.buffers replicaId).perform command).1 self.received := rfl

theorem deliver_eq (self : Network) (replicaId : ReplicaId) (ops : List Operation) : self.deliver replicaId ops =
      self.advance replicaId [] (((self.buffers replicaId).applyOpsLog ops).map (·.2)) ((self.buffers replicaId).applyOps ops)
        (Function.update self.received replicaId (self.received replicaId ++ ops)) := by
  unfold deliver advance
  rw [append_nil]

/-- A step of the network is a run of the broadcast. -/
theorem Inv.simulates {new : Network} (inv : net.Inv base) (h : net.Step new) : net.broadcast.Steps new.broadcast := by
  cases h with
  | perform replicaId command allowed =>
    rw [perform_eq, broadcast_advance]
    exact (((net.buffers _).emits_perform allowed).steps inv.broadcast rfl (inv.buffers _)).1
  | deliver replicaId ops sent =>
    rw [deliver_eq, broadcast_advance]
    exact (net.buffers _).applyOps_steps inv.broadcast.causal (inv.version _) (inv.buffers _).queued (inv.buffers _).sorted sent rfl

theorem Inv.step {new : Network} (inv : net.Inv base) (h : net.Step new) : new.Inv base := by
  have hbro : new.broadcast.Inv base := inv.broadcast.steps (inv.simulates h)
  cases h with
  | perform replicaId command allowed =>
    obtain ⟨-, hloc⟩ :=
      ((net.buffers _).emits_perform allowed).steps inv.broadcast rfl (inv.buffers _)
    obtain ⟨hdefe, hle⟩ := ((net.buffers _).emits_perform allowed).keeps
    refine ⟨hbro, fun r => ?_, fun r op hop => ?_⟩
    · by_cases hr : r = replicaId
      · subst hr
        simp only [perform, update_self]
        exact hloc
      · simp only [perform, update_of_ne hr]
        exact (inv.buffers r).grow _
    · obtain ⟨hsent, hdone⟩ := inv.received r op hop
      refine ⟨mem_append_left _ hsent, ?_⟩
      by_cases hr : r = replicaId
      · subst hr
        simp only [perform, update_self, hdefe]
        exact hdone.imp_left (observed_mono hle)
      · simp only [perform, update_of_ne hr]
        exact hdone
  | deliver replicaId ops sent =>
    have hrecv := inv.received_applyOps replicaId sent
    refine ⟨hbro, fun r => ?_, fun r op hop => ?_⟩
    · by_cases hr : r = replicaId
      · subst hr
        simp only [deliver, update_self]
        exact hrecv.local (inv.buffers r)
      · simp only [deliver, update_of_ne hr]
        exact inv.buffers r
    · by_cases hr : r = replicaId
      · subst hr
        simp only [deliver, update_self] at hop ⊢
        rcases mem_append.mp hop with hop | hop
        · obtain ⟨hsent, hdone⟩ := inv.received r op hop
          refine ⟨hsent, ?_⟩
          rcases hdone with hobs | hdef
          · exact .inl (observed_mono hrecv.le hobs)
          · exact hrecv.handled op (.inr hdef)
        · exact ⟨sent op hop, hrecv.handled op (.inl hop)⟩
      · simp only [deliver, update_of_ne hr] at hop ⊢
        exact inv.received r op hop

/-- The version of every new replica of a base text. -/
def baseVersion (baseText : Text) : Global :=
  if baseText.normalize.isEmpty then Global.new else Global.new.observe (Lamport.new ReplicaId.localReplica)

theorem trimmed_baseVersion (baseText : Text) : (baseVersion baseText).Trimmed := by
  unfold baseVersion
  split
  · exact trimmed_new
  · exact trimmed_new.observe _

/-- The clock of a new replica is ahead of its version. -/
theorem baseVersion_lt_clock (replicaId : ReplicaId) (groupInterval : Nat) (baseText : Text) (r : ReplicaId) :
    (baseVersion baseText).get r < (Buffer.new replicaId groupInterval baseText).lamportClock.value := by
  unfold baseVersion Buffer.new Buffer.newNormalized
  split
  · simp [Lamport.new]
  · rw [get_observe]
    simp only [Lamport.new, Lamport.observe_value]
    by_cases hr : r = ReplicaId.localReplica <;> simp [hr]

theorem inv_init (baseText : Text) (groupInterval : ReplicaId → Nat) :
    (init baseText groupInterval).Inv (baseVersion baseText) where
  broadcast := by
    have ht : (Buffer.new ⟨0⟩ 0 baseText).snapshot.version.Trimmed := trimmed_baseVersion _
    exact Broadcast.inv_init ht
  buffers r :=
    { clock := baseVersion_lt_clock r _ _
      replicaId_eq := by
        unfold init Buffer.new Buffer.newNormalized
        split <;> rfl
      editIds := nofun
      sorted := List.Pairwise.nil
      queued := nofun
      waits := nofun }
  received _ := nofun

theorem Inv.steps {new : Network} (inv : net.Inv base) (h : net.Steps new) : new.Inv base := by
  induction h with
  | refl => exact inv
  | tail _ step ih => exact ih.step step

theorem Reachable.inv {baseText : Text} (h : net.Reachable baseText) : net.Inv (baseVersion baseText) := by
  obtain ⟨groupInterval, hstep⟩ := h
  exact (inv_init _ _).steps hstep

/-! ## Every operation arrives -/

/-- When every operation has been handed over, none waits: the one with the smallest timestamp would wait for a smaller one. -/
theorem Inv.deferredOps_eq_nil (inv : net.Inv base)
    (hall : ∀ op ∈ net.sent, op ∈ net.received r ∨ op.replicaId = r) : (net.buffers r).deferredOps = [] := by
  have hloc := inv.buffers r
  have hdone : ∀ op ∈ net.sent,
      (net.buffers r).version.observed op.timestamp = true ∨ op ∈ (net.buffers r).deferredOps := by
    intro op hop
    rcases hall op hop with h | h
    · exact (inv.received r op h).2
    · exact .inl (inv.broadcast.owns r op hop h)
  rcases hq : (net.buffers r).deferredOps with _ | ⟨op, ops⟩
  · rfl
  · have hmem : op ∈ (net.buffers r).deferredOps := hq ▸ mem_cons_self
    have hsort := hloc.sorted
    rw [hq] at hsort
    obtain ⟨hfst, -⟩ := pairwise_cons.mp hsort
    obtain ⟨dep, hdep, -, hnot, hlt⟩ :=
      (inv.version r).missing inv.broadcast.causal (hloc.queued op hmem) (hloc.waits op hmem)
    rcases hdone dep hdep with hobs | hdef
    · rw [hnot] at hobs
      nomatch hobs
    · rw [hq] at hdef
      rcases mem_cons.mp hdef with rfl | hdef
      · exact absurd hlt (lt_irrefl _)
      · exact absurd (hfst dep hdef) (Lamport.lt_of_value_lt hlt).asymm

/-- The join of a version with the timestamps of operations. -/
def joinTimestamps (base : Global) (ops : List Operation) : Global :=
  ops.foldl (fun version op => version.observe op.timestamp) base

theorem trimmed_joinTimestamps (ht : base.Trimmed) (ops : List Operation) : (joinTimestamps base ops).Trimmed := by
  induction ops generalizing base with
  | nil => exact ht
  | cons op ops ih => exact ih (ht.observe _)

/-- What is below a bound is joined below it. -/
theorem get_joinTimestamps_le_iff {n : Nat} :
    (joinTimestamps base ops).get r ≤ n ↔ base.get r ≤ n ∧ ∀ op ∈ ops, op.replicaId = r → op.timestamp.value ≤ n := by
  induction ops generalizing base with
  | nil => exact ⟨fun h => ⟨h, nofun⟩, fun h => h.1⟩
  | cons op ops ih =>
    rw [joinTimestamps, foldl_cons, ← joinTimestamps, ih, get_observe, forall_mem_cons, ← and_assoc]
    refine and_congr_left fun _ => ?_
    by_cases hr : r = op.timestamp.replicaId
    · rw [if_pos hr, Nat.max_le]
      exact and_congr_right fun _ => ⟨fun h _ => h, fun h => h hr.symm⟩
    · rw [if_neg hr]
      exact ⟨fun h => ⟨h, fun heq => absurd heq.symm hr⟩, fun h => h.1⟩

/-- A version that has observed every operation is the join of their timestamps. -/
theorem eq_joinTimestamps {version : Global} {sent : List Operation} (hbase : base.Trimmed)
    (hv : VersionOf base sent version) (hall : ∀ op ∈ sent, version.observed op.timestamp = true) :
    version = joinTimestamps base sent := by
  refine hv.trimmed.ext (trimmed_joinTimestamps hbase sent) fun r => le_antisymm ?_ ?_
  · obtain ⟨hle, hops⟩ := get_joinTimestamps_le_iff.mp (le_refl _)
    rcases hv.reached r with h | ⟨op, hop, hr, hval⟩
    · exact h ▸ hle
    · exact hval ▸ hops op hop hr
  · refine get_joinTimestamps_le_iff.mpr ⟨hv.base_le r, fun op hop hr => ?_⟩
    rw [← hr]
    exact observed_iff.mp (hall op hop)

/-- Causal delivery: an operation takes effect at most once, and only when its version has been observed; after operations
have been received, none that is deferred could be applied; and when every operation has been handed over, none is
deferred, and the version is the join of their timestamps with the base version. -/
theorem causal_delivery {baseText : Text} {net : Network} (h : net.Reachable baseText) (r : ReplicaId) :
    ((net.applied r).map Operation.timestamp).Nodup ∧
      (∀ ops, (∀ op ∈ ops, op ∈ net.sent) →
        (∀ entry ∈ (net.buffers r).applyOpsLog ops,
          entry.1.observedAll entry.2.version = true ∧ entry.2 ∉ net.applied r) ∧
        (((net.buffers r).applyOpsLog ops).map fun entry => entry.2.timestamp).Nodup ∧
        ((net.buffers r).applyOps ops).snapshot =
          ((net.buffers r).applyOpsLog ops).foldl (fun snapshot entry => snapshot.takeOp entry.2)
            (net.buffers r).snapshot ∧
        ∀ op ∈ ((net.buffers r).applyOps ops).deferredOps,
          ((net.buffers r).applyOps ops).version.observedAll op.version = false) ∧
      ((∀ op ∈ net.sent, op ∈ net.received r ∨ op.replicaId = r) →
        (net.buffers r).deferredOps = [] ∧
          (net.buffers r).version = joinTimestamps (Buffer.new r 0 baseText).version net.sent) := by
  have inv := h.inv
  refine ⟨(inv.broadcast.view r).nodup, fun ops hops => ?_, fun hall => ?_⟩
  · have hreceived := inv.received_applyOps r hops
    refine ⟨fun entry he => ⟨hreceived.ready entry he, fun happ => ?_⟩, hreceived.nodup, Buffer.snapshot_applyOps _ _,
      hreceived.waits⟩
    have hobs := ((inv.broadcast.view r).mem_applied entry.2).mp happ
    have hnot := (hreceived.fresh entry he).2
    rw [show (net.buffers r).version = (net.broadcast.snapshots r).version from rfl, hobs.2] at hnot
    nomatch hnot
  · have hempty := inv.deferredOps_eq_nil hall
    refine ⟨hempty, eq_joinTimestamps (trimmed_baseVersion baseText) (inv.version r) fun op hop => ?_⟩
    rcases hall op hop with h | h
    · refine (inv.received r op h).2.resolve_right fun hdef => ?_
      rw [hempty] at hdef
      nomatch hdef
    · exact inv.broadcast.owns r op hop h

/-- Replica 1 inserts "a" and then "b". -/
def twoInserts : Network :=
  ((init [] fun _ => 0).perform ⟨1⟩ (.edit [(⟨0, 0⟩, [97])] 0 0)).perform ⟨1⟩ (.edit [(⟨1, 1⟩, [98])] 1 1)

/-- Replica 2 is handed the later one twice, and then both. -/
def twoInsertsDelivered : Network :=
  ((twoInserts.deliver ⟨2⟩ (twoInserts.sent.drop 1)).deliver ⟨2⟩ (twoInserts.sent.drop 1)).deliver ⟨2⟩ twoInserts.sent

theorem reachable_twoInsertsDelivered : twoInsertsDelivered.Reachable [] := by
  refine ⟨fun _ => 0, ?_⟩
  have hfst : Text.Valid [97] := by decide
  have hsec : Text.Valid [98] := by decide
  have h1 : Step (init [] fun _ => 0) _ := .perform ⟨1⟩ (.edit [(⟨0, 0⟩, [97])] 0 0)
    ⟨by decide, fun edit he => mem_singleton.mp he ▸ ⟨by decide, by decide, hfst⟩⟩
  have h2 : Step _ twoInserts := .perform _ _
    ⟨by decide, fun edit he => mem_singleton.mp he ▸ ⟨by decide, by decide, hsec⟩⟩
  have h3 : twoInserts.Step _ := .deliver ⟨2⟩ (twoInserts.sent.drop 1) fun op => mem_of_mem_drop
  have h4 : (twoInserts.deliver ⟨2⟩ (twoInserts.sent.drop 1)).Step _ :=
    .deliver ⟨2⟩ (twoInserts.sent.drop 1) fun op => mem_of_mem_drop
  have h5 : Step _ twoInsertsDelivered := .deliver _ _ fun op h => h
  exact .tail (.tail (.tail (.tail (.tail .refl h1) h2) h3) h4) h5

theorem causal_delivery_two_inserts :
    (twoInsertsDelivered.buffers ⟨2⟩).deferredOps = [] ∧
      (twoInsertsDelivered.buffers ⟨2⟩).version =
        joinTimestamps (Buffer.new ⟨2⟩ 0 []).version twoInsertsDelivered.sent :=
  (causal_delivery reachable_twoInsertsDelivered ⟨2⟩).2.2 (by decide)

end Network

end Wu
