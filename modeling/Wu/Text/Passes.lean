import Wu.Text.Broadcast

/-!
# Passes over operations

The loops of `apply_ops` over received and over deferred operations. An operation waits until the buffer has observed its
version, and one pass over the deferred operations in Lamport order is enough, since everything an operation waits for has a
smaller timestamp.
-/

namespace Wu

open List Global

/-! ## The loops over operations -/

namespace Buffer

/-- What an operation does to everything but the text. -/
structure AppliesOp (old : Buffer) (op : Operation) (new : Buffer) : Prop where
  version : new.version = if old.version.observed op.timestamp then old.version else old.version.observe op.timestamp
  deferredOps : new.deferredOps = old.deferredOps
  deferredReplicas : new.deferredReplicas = old.deferredReplicas
  replicaId : new.lamportClock.replicaId = old.lamportClock.replicaId
  clock : old.lamportClock.value ≤ new.lamportClock.value
  clock_op : old.version.observed op.timestamp = false → op.timestamp.value < new.lamportClock.value
  history : new.history = old.history

/-- The part of `apply_op` that changes the text. -/
def applyText (self : Buffer) : Operation → Buffer
  | .edit edit => self.applyRemoteEdit edit
  | .undo undo => self.applyUndo undo

theorem applyOp_eq (self : Buffer) (op : Operation) : self.applyOp op =
      if self.version.observed op.timestamp then self else (self.applyText op).observe op.timestamp := by
  cases op with
  | edit edit =>
    unfold applyOp
    by_cases h : self.version.observed edit.timestamp = true <;> simp [Operation.timestamp, applyText, h]
  | undo undo =>
    unfold applyOp
    by_cases h : self.version.observed undo.timestamp = true <;> simp [Operation.timestamp, applyText, h]

theorem version_applyText (self : Buffer) (op : Operation) : (self.applyText op).version = self.version := by
  cases op with
  | edit edit => exact BufferSnapshot.version_applyRemoteEdit _ _ _ _ _
  | undo undo => rfl

theorem appliesOp_applyOp (self : Buffer) (op : Operation) : self.AppliesOp op (self.applyOp op) := by
  rw [applyOp_eq]
  have hclo : (self.applyText op).lamportClock = self.lamportClock := by cases op <;> rfl
  split
  · rename_i hobs
    refine ⟨(if_pos hobs).symm, rfl, rfl, rfl, le_rfl, fun h => ?_, rfl⟩
    rw [h] at hobs
    nomatch hobs
  · rename_i hobs
    refine ⟨?_, ?_, ?_, ?_, ?_, ?_, ?_⟩
    · rw [if_neg hobs, ← self.version_applyText]
      rfl
    · cases op <;> rfl
    · cases op <;> rfl
    · cases op <;> rfl
    · simp only [observe, Lamport.observe_value, hclo]
      omega
    · simp only [observe, Lamport.observe_value, hclo]
      omega
    · cases op <;> rfl

/-- The two loops: operations are applied or deferred, one after the other, and the history may record some between them. -/
inductive Passes : Buffer → List Operation → Buffer → List Operation → List Applied → Prop where
  | nil {self : Buffer} : Passes self [] self [] []
  | history {self new : Buffer} {ops deferred : List Operation} {log : List Applied} (op : Operation)
      (rest : Passes (self.pushHistory op) ops new deferred log) : Passes self ops new deferred log
  | apply {self new : Buffer} {op : Operation} {ops deferred : List Operation} {log : List Applied}
      (can : self.canApplyOp op = true) (rest : Passes (self.applyOp op) ops new deferred log) :
      Passes self (op :: ops) new deferred ((if self.takesEffect op then [(self.version, op)] else []) ++ log)
  | defer {self new : Buffer} {op : Operation} {ops deferred : List Operation} {log : List Applied}
      (cannot : self.canApplyOp op = false) (rest : Passes (self.deferReplica op) ops new deferred log) :
      Passes self (op :: ops) new (op :: deferred) log

theorem passes_receiveLoop (ops : List Operation) :
    ∀ self : Buffer, Passes self ops (receiveLoop ops self).1 (receiveLoop ops self).2 (receiveLog ops self) := by
  induction ops with
  | nil => intro self; exact .nil
  | cons op ops ih =>
    intro self
    simp only [receiveLoop, receiveLog]
    refine .history op ?_
    cases hcan : (self.pushHistory op).canApplyOp op with
    | true => exact .apply hcan (ih _)
    | false => exact .defer hcan (ih _)

theorem passes_flushLoop (ops : List Operation) :
    ∀ self : Buffer, Passes self ops (flushLoop ops self).1 (flushLoop ops self).2 (flushLog ops self) := by
  induction ops with
  | nil => intro self; exact .nil
  | cons op ops ih =>
    intro self
    simp only [flushLoop, flushLog]
    cases hcan : self.canApplyOp op with
    | true => exact .apply hcan (ih _)
    | false => exact .defer hcan (ih _)

theorem canApplyOp_eq_true {self : Buffer} {op : Operation} :
    self.canApplyOp op = true ↔ op.replicaId ∉ self.deferredReplicas ∧ self.version.observedAll op.version = true := by
  unfold canApplyOp
  by_cases h : self.deferredReplicas.contains op.replicaId = true
  · simp only [contains_iff_mem] at h
    simp [h]
  · simp only [contains_iff_mem] at h
    simp [h]

section Passes

variable {base : Global} {sent : List Operation}

/-- What every pass keeps, and what it has observed at the end. -/
structure Passed (base : Global) (sent : List Operation) (old : Buffer) (ops : List Operation) (new : Buffer)
    (deferred : List Operation) (log : List Applied) : Prop where
  version : VersionOf base sent new.version
  le : ∀ r, old.version.get r ≤ new.version.get r
  clock : (∀ r, old.version.get r < old.lamportClock.value) → ∀ r, new.version.get r < new.lamportClock.value
  clock_le : old.lamportClock.value ≤ new.lamportClock.value
  replicaId : new.lamportClock.replicaId = old.lamportClock.replicaId
  deferredOps : new.deferredOps = old.deferredOps
  editIds : new.history.editIds = old.history.editIds
  sublist : deferred.Sublist ops
  handled : ∀ op ∈ ops, new.version.observed op.timestamp = true ∨ op ∈ deferred
  observed : ∀ op ∈ sent, new.version.observed op.timestamp = true ↔ old.version.observed op.timestamp = true ∨ op ∈ log.map (·.2)
  fresh : ∀ entry ∈ log, entry.2 ∈ ops ∧ old.version.observed entry.2.timestamp = false
  ready : ∀ entry ∈ log, entry.1.observedAll entry.2.version = true
  nodup : (log.map fun entry => entry.2.timestamp).Nodup

/-- A pass over operations of the run. -/
theorem Passes.passed (hs : Causal base sent) {old new : Buffer} {ops deferred : List Operation} {log : List Applied}
    (h : Passes old ops new deferred log) :
    (∀ op ∈ ops, op ∈ sent) → VersionOf base sent old.version → Passed base sent old ops new deferred log := by
  induction h with
  | nil =>
    intro _ hv
    exact ⟨hv, fun _ => le_rfl, fun h => h, le_rfl, rfl, rfl, rfl, List.Sublist.refl _, nofun, by simp, nofun, nofun,
      nodup_nil⟩
  | history pushed rest ih =>
    intro hops hv
    have p := ih hops hv
    exact ⟨p.version, p.le, p.clock, p.clock_le, p.replicaId, p.deferredOps, p.editIds, p.sublist, p.handled, p.observed,
      p.fresh, p.ready, p.nodup⟩
  | @apply self new op ops deferred log can rest ih =>
    intro hops hv
    have hop := hops op (by simp)
    have hdeps := observedAll_get (canApplyOp_eq_true.mp can).2
    have ha := self.appliesOp_applyOp op
    cases hobs : self.version.observed _ with
    | true =>
      have hver : (self.applyOp op).version = self.version := by rw [ha.version, if_pos hobs]
      have p := ih (fun x hx => hops x (by simp [hx])) (hver ▸ hv)
      rw [takesEffect, hobs]
      refine ⟨p.version, hver ▸ p.le, fun hc => p.clock fun r => ?_, ha.clock.trans p.clock_le, p.replicaId.trans ha.replicaId,
        p.deferredOps.trans ha.deferredOps, p.editIds.trans (congrArg _ ha.history),
        p.sublist.trans (sublist_cons_self _ _), ?_, hver ▸ p.observed, ?_, p.ready, p.nodup⟩
      · rw [hver]
        exact lt_of_lt_of_le (hc r) ha.clock
      · intro x hx
        rcases mem_cons.mp hx with rfl | hx
        · exact .inl (observed_mono (hver ▸ p.le) hobs)
        · exact p.handled x hx
      · intro entry he
        obtain ⟨hmem, hnot⟩ := p.fresh _ he
        exact ⟨.tail _ hmem, hver ▸ hnot⟩
    | false =>
      have hver : (self.applyOp op).version = self.version.observe op.timestamp := by
        rw [ha.version, hobs]
        rfl
      have p := ih (fun x hx => hops x (by simp [hx])) (hver ▸ hv.observe hs hop hdeps)
      have hiff : ∀ x ∈ sent, (self.version.observe op.timestamp).observed x.timestamp = true ↔
          self.version.observed x.timestamp = true ∨ x = op := fun x hx => hs.observed_observe hop hdeps hx
      have hmono := get_le_observe self.version op.timestamp
      rw [takesEffect, hobs]
      simp only [Bool.not_false, if_true, singleton_append]
      refine ⟨p.version, fun r => (hmono r).trans (hver ▸ p.le r), fun hc => p.clock fun r => ?_, ha.clock.trans p.clock_le,
        p.replicaId.trans ha.replicaId, p.deferredOps.trans ha.deferredOps,
        p.editIds.trans (congrArg _ ha.history), p.sublist.trans (sublist_cons_self _ _),
        ?_, ?_, ?_, ?_, ?_⟩
      · rw [hver, get_observe]
        have := lt_of_lt_of_le (hc r) ha.clock
        have := ha.clock_op hobs
        split <;> omega
      · intro x hx
        rcases mem_cons.mp hx with rfl | hx
        · exact .inl (observed_mono p.le (hver ▸ observed_observe_self _ _))
        · exact p.handled x hx
      · intro x hx
        rw [p.observed x hx, hver, hiff x hx, map_cons, mem_cons]
        tauto
      · intro entry he
        rcases mem_cons.mp he with rfl | he
        · exact ⟨by simp, hobs⟩
        · obtain ⟨hmem, hnot⟩ := p.fresh _ he
          refine ⟨.tail _ hmem, Bool.eq_false_iff.mpr fun htrue => ?_⟩
          rw [hver, observed_mono hmono htrue] at hnot
          nomatch hnot
      · intro entry he
        rcases mem_cons.mp he with rfl | he
        · exact (canApplyOp_eq_true.mp can).2
        · exact p.ready _ he
      · rw [map_cons, nodup_cons]
        refine ⟨fun hm => ?_, p.nodup⟩
        obtain ⟨entry, he, heq⟩ := mem_map.mp hm
        have hnot := (p.fresh _ he).2
        rw [hver, heq, observed_observe_self] at hnot
        nomatch hnot
  | @defer self new op ops deferred log cannot rest ih =>
    intro hops hv
    have p := ih (fun x hx => hops x (by simp [hx])) hv
    refine ⟨p.version, p.le, p.clock, p.clock_le, p.replicaId, p.deferredOps, p.editIds, p.sublist.cons_cons op, ?_,
      p.observed, ?_, p.ready, p.nodup⟩
    · intro x hx
      rcases mem_cons.mp hx with rfl | hx
      · exact .inr (by simp)
      · exact (p.handled x hx).imp_right fun h => .tail _ h
    · intro entry he
      obtain ⟨hmem, hnot⟩ := p.fresh _ he
      exact ⟨.tail _ hmem, hnot⟩

/-- A replica that is blocked: an operation of its own has not been observed, and is not among the ones to come. -/
def Blocked (sent : List Operation) (self : Buffer) (ops : List Operation) : Prop :=
  ∀ r ∈ self.deferredReplicas, ∃ op ∈ sent, op.replicaId = r ∧ self.version.observed op.timestamp = false ∧
    ∀ later ∈ ops, op.timestamp < later.timestamp

/-- In a pass in Lamport order, what a deferred operation waits for is not observed by the end of the pass. -/
theorem Passes.deferred_waits (hs : Causal base sent) {old new : Buffer} {ops deferred : List Operation}
    {log : List Applied} (h : Passes old ops new deferred log) :
    (∀ op ∈ ops, op ∈ sent) → KeyedList.Sorted Operation.timestamp ops → VersionOf base sent old.version →
      Blocked sent old ops → ∀ op ∈ deferred, new.version.observedAll op.version = false := by
  induction h with
  | nil => exact fun _ _ _ _ => nofun
  | history pushed rest ih => exact ih
  | @apply self new op ops deferred log can rest ih =>
    intro hops hsort hv hblo
    obtain ⟨-, hsort⟩ := pairwise_cons.mp hsort
    have hop := hops op (by simp)
    have hdeps := observedAll_get (canApplyOp_eq_true.mp can).2
    have ha := self.appliesOp_applyOp op
    have hobs : ∀ x ∈ sent, (self.applyOp op).version.observed x.timestamp = true →
        self.version.observed x.timestamp = true ∨ x = op := by
      intro x hx h
      rw [ha.version] at h
      split at h
      · exact .inl h
      · exact (hs.observed_observe hop hdeps hx).mp h
    refine ih (fun x hx => hops x (by simp [hx])) hsort ?_ ?_
    · rw [ha.version]
      split
      · exact hv
      · exact hv.observe hs hop hdeps
    · intro r hr
      obtain ⟨w, hw, hwr, hnot, hlt⟩ := hblo r (ha.deferredReplicas ▸ hr)
      refine ⟨w, hw, hwr, Bool.eq_false_iff.mpr fun htrue => ?_, fun x hx => hlt x (by simp [hx])⟩
      rcases hobs w hw htrue with h | rfl
      · rw [h] at hnot
        nomatch hnot
      · exact lt_irrefl _ (hlt w (by simp))
  | @defer self new op ops deferred log cannot rest ih =>
    intro hops hsort hv hblo
    obtain ⟨hlat, hsort⟩ := pairwise_cons.mp hsort
    have hop := hops op (by simp)
    -- what `op` waits for: it comes before `op`, so the rest of the pass does not apply it
    have hwait : ∃ dep ∈ sent, op.version.observed dep.timestamp = true ∧ self.version.observed dep.timestamp = false ∧
        dep.timestamp < op.timestamp := by
      by_cases hmem : op.replicaId ∈ self.deferredReplicas
      · obtain ⟨w, hw, hwr, hnot, hlt⟩ := hblo _ hmem
        have hlt := hlt op (by simp)
        refine ⟨w, hw, hs.prior op hop w hw hwr ?_, hnot, hlt⟩
        rcases Lamport.lt_iff.mp hlt with h | ⟨-, h⟩
        · exact h
        · unfold Operation.replicaId at hwr
          rw [hwr] at h
          omega
      · have hall : self.version.observedAll op.version = false := by
          rw [← Bool.not_eq_true]
          intro hall
          rw [canApplyOp_eq_true.mpr ⟨hmem, hall⟩] at cannot
          nomatch cannot
        obtain ⟨dep, hdep, h1, h2, h3⟩ := hv.missing hs hop hall
        exact ⟨dep, hdep, h1, h2, Lamport.lt_of_value_lt h3⟩
    obtain ⟨dep, hdep, hin, hnot, hlt⟩ := hwait
    have hopn : self.version.observed op.timestamp = false := by
      rw [← Bool.not_eq_true]
      intro h
      rw [observed_mono (hv.closed op hop h) hin] at hnot
      nomatch hnot
    have hblo' : Blocked sent (self.deferReplica op) ops := by
      intro r hr
      rcases mem_cons.mp hr with rfl | hr
      · exact ⟨op, hop, rfl, hopn, hlat⟩
      · obtain ⟨w, hw, hwr, hn, hl⟩ := hblo r hr
        exact ⟨w, hw, hwr, hn, fun x hx => hl x (by simp [hx])⟩
    have hrest := ih (fun x hx => hops x (by simp [hx])) hsort hv hblo'
    have p := rest.passed hs (fun x hx => hops x (by simp [hx])) hv
    intro x hx
    rcases mem_cons.mp hx with rfl | hx
    · rw [← Bool.not_eq_true]
      intro hall
      have hobs := observed_mono (observedAll_get hall) hin
      rcases (p.observed dep hdep).mp hobs with h | h
      · rw [show (self.deferReplica x).version = self.version from rfl, hnot] at h
        nomatch h
      · obtain ⟨entry, he, rfl⟩ := mem_map.mp h
        exact lt_irrefl _ (hlt.trans (hlat _ (p.fresh _ he).1))
    · exact hrest x hx

end Passes

/-! ## Receiving operations -/

end Buffer

namespace OperationQueue

/-- Operations are queued by their timestamps. -/
theorem dedup_eq (ops : List Operation) : dedup ops = KeyedList.dedup Operation.timestamp ops := by
  induction ops with
  | nil => rfl
  | cons op ops ih =>
    unfold dedup KeyedList.dedup
    rw [ih]
    -- the instances that decide the equality of timestamps differ
    cases KeyedList.dedup Operation.timestamp ops with
    | nil => rfl
    | cons next rest =>
      by_cases heq : op.timestamp = next.timestamp
      · simp
      · simp

/-- The queue after operations of a run are inserted. -/
theorem insert_spec {base : Global} {sent : List Operation} (hs : Causal base sent) {self : OperationQueue}
    {ops : List Operation} (hself : ∀ op ∈ self, op ∈ sent) (hsort : Sorted self) (hops : ∀ op ∈ ops, op ∈ sent) :
    Sorted (insert self ops) ∧ ∀ op, op ∈ insert self ops ↔ op ∈ ops ∨ op ∈ self := by
  have hsent : ∀ op ∈ ops ++ self, op ∈ sent := fun op hop => (mem_append.mp hop).elim (hops op) (hself op)
  have hins : insert self ops = KeyedList.insertAll Operation.timestamp ops self := by
    unfold insert KeyedList.insertAll
    rw [dedup_eq]
  rw [hins]
  exact KeyedList.insertAll_spec hsort fun a ha b hb => hs.eq_of_timestamp (hsent a ha) (hsent b hb)

end OperationQueue

namespace Buffer

/-- What receiving operations does: everything but what it does to the text. -/
structure Received (base : Global) (sent : List Operation) (old : Buffer) (ops : List Operation) (new : Buffer)
    (log : List Applied) : Prop where
  version : VersionOf base sent new.version
  le : ∀ r, old.version.get r ≤ new.version.get r
  clock : (∀ r, old.version.get r < old.lamportClock.value) → ∀ r, new.version.get r < new.lamportClock.value
  clock_le : old.lamportClock.value ≤ new.lamportClock.value
  replicaId : new.lamportClock.replicaId = old.lamportClock.replicaId
  editIds : new.history.editIds = old.history.editIds
  sorted : OperationQueue.Sorted new.deferredOps
  queued : ∀ op ∈ new.deferredOps, op ∈ sent
  handled : ∀ op, op ∈ ops ∨ op ∈ old.deferredOps → new.version.observed op.timestamp = true ∨ op ∈ new.deferredOps
  observed : ∀ op ∈ sent, new.version.observed op.timestamp = true ↔ old.version.observed op.timestamp = true ∨ op ∈ log.map (·.2)
  fresh : ∀ entry ∈ log, entry.2 ∈ sent ∧ old.version.observed entry.2.timestamp = false
  ready : ∀ entry ∈ log, entry.1.observedAll entry.2.version = true
  nodup : (log.map fun entry => entry.2.timestamp).Nodup
  waits : ∀ op ∈ new.deferredOps, new.version.observedAll op.version = false

/-- Receiving operations is two passes: over the operations, and over the queue with those that have been deferred. -/
theorem applyOps_passes (self : Buffer) (ops : List Operation) : ∃ mid deferred log last rest log', Passes self ops mid deferred log ∧
        Passes { mid with deferredReplicas := [], deferredOps := [] } (OperationQueue.insert mid.deferredOps deferred)
          last rest log' ∧
        self.applyOps ops = { last with deferredOps := OperationQueue.insert last.deferredOps rest } ∧
        self.applyOpsLog ops = log ++ log' :=
  ⟨_, _, _, _, _, _, passes_receiveLoop ops self, passes_flushLoop _ _, rfl, rfl⟩

theorem received_applyOps {base : Global} {sent : List Operation} (hs : Causal base sent) {self : Buffer}
    {ops : List Operation} (hv : VersionOf base sent self.version) (hque : ∀ op ∈ self.deferredOps, op ∈ sent)
    (hsort : OperationQueue.Sorted self.deferredOps) (hops : ∀ op ∈ ops, op ∈ sent) :
    Received base sent self ops (self.applyOps ops) (self.applyOpsLog ops) := by
  obtain ⟨mid, deferred, log, last, rest, log', hrecv, hflu, hnew, hlog⟩ := self.applyOps_passes ops
  have p := hrecv.passed hs hops hv
  obtain ⟨hqs, hqm⟩ := OperationQueue.insert_spec hs hque hsort fun op h => hops op (p.sublist.subset h)
  rw [← p.deferredOps] at hqs hqm
  generalize OperationQueue.insert mid.deferredOps deferred = queue at hqs hqm hflu
  have hin : ∀ op ∈ queue, op ∈ sent := by
    intro op hop
    rcases (hqm op).mp hop with h | h
    · exact hops op (p.sublist.subset h)
    · exact hque op (p.deferredOps ▸ h)
  have q := hflu.passed hs hin p.version
  have hwait := hflu.deferred_waits hs hin hqs p.version nofun
  have hemp : ∀ op ∈ ([] : OperationQueue), op ∈ sent := nofun
  obtain ⟨hls, hlm⟩ := OperationQueue.insert_spec hs hemp List.Pairwise.nil fun op h => hin op (q.sublist.subset h)
  have hlast : last.deferredOps = [] := q.deferredOps
  have hobse : ∀ op ∈ sent, last.version.observed op.timestamp = true ↔ mid.version.observed op.timestamp = true ∨
      op ∈ log'.map (·.2) := q.observed
  have hfre : ∀ entry ∈ log', mid.version.observed entry.2.timestamp = false := fun entry he => (q.fresh _ he).2
  rw [hnew, hlog]
  constructor
  · exact q.version
  · exact fun r => (p.le r).trans (q.le r)
  · exact fun hc => q.clock (p.clock hc)
  · exact p.clock_le.trans q.clock_le
  · exact q.replicaId.trans p.replicaId
  · exact q.editIds.trans p.editIds
  · rw [hlast]
    exact hls
  · intro op hop
    rw [hlast, hlm] at hop
    exact hin op (q.sublist.subset (hop.resolve_right nofun))
  · intro op hop
    rw [hlast, hlm]
    have hmid : mid.version.observed op.timestamp = true ∨ op ∈ queue := by
      rw [hqm]
      rcases hop with hop | hop
      · exact (p.handled op hop).imp_right .inl
      · exact .inr (.inr (p.deferredOps ▸ hop))
    rcases hmid with h | h
    · exact .inl (observed_mono q.le h)
    · exact (q.handled op h).imp_right .inl
  · intro op hop
    have hq := hobse op hop
    rw [p.observed op hop, or_assoc, ← mem_append, ← map_append] at hq
    exact hq
  · intro entry he
    rcases mem_append.mp he with he | he
    · exact ⟨hops _ (p.fresh _ he).1, (p.fresh _ he).2⟩
    · refine ⟨hin _ (q.fresh _ he).1, Bool.eq_false_iff.mpr fun h => ?_⟩
      have hnot := hfre _ he
      rw [observed_mono p.le h] at hnot
      nomatch hnot
  · intro entry he
    exact (mem_append.mp he).elim (p.ready _) (q.ready _)
  · rw [map_append, nodup_append]
    refine ⟨p.nodup, q.nodup, ?_⟩
    intro t ht t' ht' heq
    obtain ⟨a, ha, rfl⟩ := mem_map.mp ht
    obtain ⟨b, hb, rfl⟩ := mem_map.mp ht'
    have hnot := hfre b hb
    have hobs := (p.observed a.2 (hops _ (p.fresh a ha).1)).mpr (.inr (mem_map.mpr ⟨a, ha, rfl⟩))
    rw [← heq, hobs] at hnot
    nomatch hnot
  · intro op hop
    rw [hlast, hlm] at hop
    exact hwait op (hop.resolve_right nofun)

end Buffer

end Wu
