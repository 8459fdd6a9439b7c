import Wu.Text.Commands

/-!
# Causal broadcast

The network without its queues: a replica makes an operation, or takes one that has been sent, once it has observed the
operation's version and not yet the operation. What a replica has observed is closed: it has observed everything that the
operations it has observed had observed.
-/

namespace Wu

open List Function Global

/-- A version that a replica can have: it is reached by operations that have been sent, and it has observed what the ones it
has observed had observed. -/
structure VersionOf (base : Global) (sent : List Operation) (version : Global) : Prop where
  trimmed : version.Trimmed
  base_le : ∀ r, base.get r ≤ version.get r
  reached : ∀ r, version.get r = base.get r ∨ ∃ op ∈ sent, op.replicaId = r ∧ op.timestamp.value = version.get r
  closed : ∀ op ∈ sent, version.observed op.timestamp = true → ∀ r, op.version.get r ≤ version.get r

/-- The operations of a run: each has a timestamp of its own, larger than everything in its version, and a version that has
observed the operations that its replica made before. -/
structure Causal (base : Global) (sent : List Operation) : Prop where
  nodup : (sent.map Operation.timestamp).Nodup
  version : ∀ op ∈ sent, VersionOf base sent op.version
  version_lt : ∀ op ∈ sent, ∀ r, op.version.get r < op.timestamp.value
  prior : ∀ op ∈ sent, ∀ earlier ∈ sent, earlier.replicaId = op.replicaId →
    earlier.timestamp.value < op.timestamp.value → op.version.observed earlier.timestamp = true

section Causal

variable {base version : Global} {sent : List Operation}

variable {a b op : Operation}

theorem Causal.eq_of_timestamp (hs : Causal base sent) (ha : a ∈ sent) (hb : b ∈ sent) (h : a.timestamp = b.timestamp) : a = b :=
  inj_on_of_nodup_map hs.nodup ha hb h

/-- Operations of one replica have different values. -/
theorem Causal.eq_of_value (hs : Causal base sent) (ha : a ∈ sent) (hb : b ∈ sent)
    (hr : a.replicaId = b.replicaId) (hv : a.timestamp.value = b.timestamp.value) : a = b := by
  refine hs.eq_of_timestamp ha hb ?_
  unfold Operation.replicaId at hr
  cases hta : a.timestamp with
  | mk va ra =>
    cases htb : b.timestamp with
    | mk vb rb =>
      rw [hta, htb] at hr hv
      simp only at hr hv
      rw [hr, hv]

/-- When the version of an operation is observed, observing the operation makes that operation observed and no other one. -/
theorem Causal.observed_observe (hs : Causal base sent) (hop : op ∈ sent)
    (hdeps : ∀ r, op.version.get r ≤ version.get r) {other : Operation} (hoth : other ∈ sent) :
    (version.observe op.timestamp).observed other.timestamp = true ↔ version.observed other.timestamp = true ∨ other = op := by
  constructor
  · intro h
    rw [observed_iff, get_observe] at h
    split at h
    · rename_i hr
      rcases Nat.lt_or_ge (version.get other.timestamp.replicaId) other.timestamp.value with hlt | hge
      · have hle : other.timestamp.value ≤ op.timestamp.value := by omega
        rcases hle.lt_or_eq with hlt' | heq
        · have hpri := hs.prior op hop _ hoth hr hlt'
          exact .inl (observed_mono hdeps hpri)
        · exact .inr (hs.eq_of_value hoth hop hr heq)
      · exact .inl (observed_iff.mpr hge)
    · exact .inl (observed_iff.mpr h)
  · rintro (h | rfl)
    · exact observed_mono (get_le_observe _ _) h
    · exact observed_observe_self _ _

/-- A version goes on with an operation whose own version it has observed. -/
theorem VersionOf.observe (hv : VersionOf base sent version) (hs : Causal base sent) (hop : op ∈ sent)
    (hdeps : ∀ r, op.version.get r ≤ version.get r) : VersionOf base sent (version.observe op.timestamp) where
  trimmed := hv.trimmed.observe _
  base_le r := (hv.base_le r).trans (get_le_observe _ _ r)
  reached r := by
    rw [get_observe]
    split
    · rename_i hr
      rcases Nat.le_total _ _ with hle | hle
      · rw [max_eq_left hle]
        exact hv.reached r
      · rw [max_eq_right hle]
        exact .inr ⟨op, hop, hr.symm, rfl⟩
    · exact hv.reached r
  closed other hoth hobs r := by
    rcases (hs.observed_observe hop hdeps hoth).mp hobs with h | rfl
    · exact (hv.closed _ hoth h r).trans (get_le_observe _ _ r)
    · exact (hdeps r).trans (get_le_observe _ _ r)

/-- What is missing of an operation's version is an operation with a smaller timestamp. -/
theorem VersionOf.missing (hv : VersionOf base sent version) (hs : Causal base sent) (hop : op ∈ sent)
    (h : version.observedAll op.version = false) :
    ∃ dep ∈ sent, op.version.observed dep.timestamp = true ∧ version.observed dep.timestamp = false ∧
      dep.timestamp.value < op.timestamp.value := by
  have hnot : ¬ ∀ r, op.version.get r ≤ version.get r := by
    intro hall
    rw [(hs.version op hop).trimmed.observedAll hall] at h
    nomatch h
  obtain ⟨r, hr⟩ := not_forall.mp hnot
  rcases (hs.version op hop).reached r with hbase | ⟨dep, hdep, hrep, hval⟩
  · have := hv.base_le r
    omega
  · subst hrep
    refine ⟨dep, hdep, observed_iff.mpr hval.le, observed_eq_false_iff.mpr ?_, ?_⟩
    · exact lt_of_lt_of_eq (Nat.lt_of_not_le hr) hval.symm
    · have := hs.version_lt op hop dep.replicaId
      omega

end Causal

/-! ## Operations that are new -/

section Newer

variable {base version : Global} {sent : List Operation}

/-- A timestamp that is newer than everything its replica has sent. -/
structure Newer (base : Global) (sent : List Operation) (t : Lamport) : Prop where
  base_lt : base.get t.replicaId < t.value
  sent_lt : ∀ op ∈ sent, op.replicaId = t.replicaId → op.timestamp.value < t.value

/-- No version has observed a newer timestamp. -/
theorem Newer.not_observed {t : Lamport} (hn : Newer base sent t) (hv : VersionOf base sent version) :
    version.observed t = false := by
  rw [observed_eq_false_iff]
  rcases hv.reached _ with hbase | ⟨op, hop, hr, hval⟩
  · rw [hbase]
    exact hn.base_lt
  · rw [← hval]
    exact hn.sent_lt op hop hr

/-- Versions stay versions when a newer operation is sent. -/
theorem VersionOf.grow (hv : VersionOf base sent version) {op : Operation} (hn : Newer base sent op.timestamp) :
    VersionOf base (sent ++ [op]) version where
  trimmed := hv.trimmed
  base_le := hv.base_le
  reached r := (hv.reached r).imp_right fun ⟨other, hoth, h⟩ => ⟨other, mem_append_left _ hoth, h⟩
  closed other hoth hobs := by
    rcases mem_append.mp hoth with hoth | hoth
    · exact hv.closed _ hoth hobs
    · rw [mem_singleton.mp hoth, hn.not_observed hv] at hobs
      nomatch hobs

/-- An operation whose version has observed everything that its replica has sent. -/
theorem Causal.grow (hs : Causal base sent) {op : Operation} (hn : Newer base sent op.timestamp)
    (hv : VersionOf base sent op.version) (hlt : ∀ r, op.version.get r < op.timestamp.value)
    (hown : ∀ other ∈ sent, other.replicaId = op.replicaId → op.version.observed other.timestamp = true) :
    Causal base (sent ++ [op]) where
  nodup := by
    rw [map_append, nodup_append]
    refine ⟨hs.nodup, nodup_singleton _, fun t ht t' ht' heq => ?_⟩
    obtain ⟨other, hoth, rfl⟩ := mem_map.mp ht
    obtain rfl := mem_singleton.mp ht'
    have hlt := hn.sent_lt _ hoth (congrArg Lamport.replicaId heq)
    rw [heq] at hlt
    exact lt_irrefl _ hlt
  version other hoth := by
    rcases mem_append.mp hoth with hoth | hoth
    · exact (hs.version _ hoth).grow hn
    · rw [mem_singleton.mp hoth]
      exact hv.grow hn
  version_lt other hoth := by
    rcases mem_append.mp hoth with hoth | hoth
    · exact hs.version_lt _ hoth
    · rw [mem_singleton.mp hoth]
      exact hlt
  prior other hoth earlier hear hr hval := by
    rcases mem_append.mp hoth with ho | ho
    · rcases mem_append.mp hear with he | he
      · exact hs.prior _ ho _ he hr hval
      · -- the new operation is not before another one of its replica
        obtain rfl := mem_singleton.mp he
        exact absurd (hn.sent_lt _ ho hr.symm) (Nat.lt_asymm hval)
    · obtain rfl := mem_singleton.mp ho
      rcases mem_append.mp hear with he | he
      · exact hown _ he hr
      · obtain rfl := mem_singleton.mp he
        exact absurd hval (lt_irrefl _)

end Newer

/-! ## What a replica has applied -/

/-- What a replica knows of a run: its version, and the operations it has applied, each after those that it depends on. -/
structure ReplicaView (base : Global) (sent applied : List Operation) (version : Global) : Prop where
  versionOf : VersionOf base sent version
  mem_applied : ∀ op, op ∈ applied ↔ op ∈ sent ∧ version.observed op.timestamp = true
  nodup : (applied.map Operation.timestamp).Nodup
  ordered : applied.Pairwise fun earlier later => earlier.version.observed later.timestamp = false

/-- A version has observed everything that a replica has sent. -/
def Owns (sent : List Operation) (replicaId : ReplicaId) (version : Global) : Prop :=
  ∀ op ∈ sent, op.replicaId = replicaId → version.observed op.timestamp = true

section ReplicaView

variable {base version : Global} {sent applied : List Operation} {replicaId : ReplicaId}

section

variable (view : ReplicaView base sent applied version)
include view

/-- A view stays one when a newer operation is sent. -/
theorem ReplicaView.grow {op : Operation}
    (hn : Newer base sent op.timestamp) : ReplicaView base (sent ++ [op]) applied version where
  versionOf := view.versionOf.grow hn
  mem_applied other := by
    rw [view.mem_applied, mem_append, mem_singleton]
    constructor
    · rintro ⟨h, hobs⟩
      exact ⟨.inl h, hobs⟩
    · rintro ⟨h | rfl, hobs⟩
      · exact ⟨h, hobs⟩
      · rw [hn.not_observed view.versionOf] at hobs
        nomatch hobs
  nodup := view.nodup
  ordered := view.ordered

/-- An operation whose version has been observed is applied. -/
theorem ReplicaView.apply (hs : Causal base sent) {op : Operation} (hop : op ∈ sent) (hnot : version.observed op.timestamp = false)
    (hdeps : ∀ r, op.version.get r ≤ version.get r) :
    ReplicaView base sent (applied ++ [op]) (version.observe op.timestamp) where
  versionOf := view.versionOf.observe hs hop hdeps
  mem_applied other := by
    rw [mem_append, mem_singleton, view.mem_applied]
    constructor
    · rintro (⟨h, hobs⟩ | rfl)
      · exact ⟨h, (hs.observed_observe hop hdeps h).mpr (.inl hobs)⟩
      · exact ⟨hop, observed_observe_self _ _⟩
    · rintro ⟨h, hobs⟩
      exact ((hs.observed_observe hop hdeps h).mp hobs).imp_left fun hobs => ⟨h, hobs⟩
  nodup := by
    rw [map_append, nodup_append]
    refine ⟨view.nodup, nodup_singleton _, fun t ht t' ht' heq => ?_⟩
    obtain ⟨other, hoth, rfl⟩ := mem_map.mp ht
    obtain rfl := mem_singleton.mp ht'
    rw [← heq, ((view.mem_applied _).mp hoth).2] at hnot
    nomatch hnot
  ordered := by
    rw [pairwise_append]
    refine ⟨view.ordered, pairwise_singleton _ _, fun other hoth x hx => ?_⟩
    obtain rfl := mem_singleton.mp hx
    obtain ⟨hsent, hobs⟩ := (view.mem_applied _).mp hoth
    rw [← Bool.not_eq_true]
    intro h
    rw [observed_mono (view.versionOf.closed _ hsent hobs) h] at hnot
    nomatch hnot

/-- What a replica that has observed its own operations sends next is newer. -/
theorem ReplicaView.newer {t : Lamport}
    (hown : Owns sent t.replicaId version) (hlt : ∀ r, version.get r < t.value) : Newer base sent t where
  base_lt := lt_of_le_of_lt (view.versionOf.base_le _) (hlt _)
  sent_lt op hop hr := lt_of_le_of_lt (hr ▸ observed_iff.mp (hown op hop hr)) (hlt t.replicaId)

/-- The replica sends an operation. -/
theorem ReplicaView.send (hs : Causal base sent) {op : Operation}
    (hown : Owns sent op.replicaId version) (hv : op.version = version) (hlt : ∀ r, version.get r < op.timestamp.value) :
    Causal base (sent ++ [op]) ∧ ReplicaView base (sent ++ [op]) (applied ++ [op]) (version.observe op.timestamp) := by
  have hn : Newer base sent op.timestamp := view.newer hown hlt
  have hs' : Causal base (sent ++ [op]) := by
    refine hs.grow hn (hv ▸ view.versionOf) (hv ▸ hlt) fun other hoth hrep => ?_
    rw [hv]
    exact hown _ hoth hrep
  refine ⟨hs', (view.grow hn).apply hs' (by simp) (hn.not_observed view.versionOf) fun r => ?_⟩
  rw [hv]

end

end ReplicaView

/-! ## Runs of the broadcast -/

namespace BufferSnapshot

/-- The snapshot after an operation of another replica. -/
def takeOp (self : BufferSnapshot) (op : Operation) : BufferSnapshot :=
  match op with
  | .edit edit =>
    let new := (self.applyRemoteEdit edit.version edit.ranges edit.newText edit.timestamp).1
    { new with version := new.version.observe edit.timestamp }
  | .undo undo =>
    let new := (self.applyUndo undo).1
    { new with version := new.version.observe undo.timestamp }

theorem version_applyRemoteEdit (self : BufferSnapshot) (version : Global) (ranges : List Span) (newText : List Text)
    (timestamp : Lamport) : (self.applyRemoteEdit version ranges newText timestamp).1.version = self.version := by
  unfold applyRemoteEdit
  split <;> rfl

theorem version_applyEditInternal (self : BufferSnapshot) (edits : List (Span × Text)) (timestamp : Lamport) :
    (self.applyEditInternal edits timestamp).1.version = self.version := by
  unfold applyEditInternal
  split <;> rfl

theorem version_takeOp (self : BufferSnapshot) (op : Operation) : (self.takeOp op).version = self.version.observe op.timestamp := by
  cases op with
  | edit edit =>
    exact congrArg (observe · _) (self.version_applyRemoteEdit _ _ _ _)
  | undo undo => rfl

theorem Effect.version {self new : BufferSnapshot} {editIds : List Lamport} {t : Lamport} {op : Operation}
    (h : self.Effect editIds t op new) : new.version = self.version.observe op.timestamp := by
  rw [h.timestamp_eq.1]
  cases h with
  | edit edits => exact congrArg (observe · t) (self.version_applyEditInternal _ t)
  | undo counts => rfl

/-- More edits may be known. -/
theorem Effect.mono {self new : BufferSnapshot} {ids ids' : List Lamport} {t : Lamport} {op : Operation}
    (h : self.Effect ids t op new) (hids : ∀ id ∈ ids, id ∈ ids') : self.Effect ids' t op new := by
  cases h with
  | edit edits sorted valid => exact .edit _ sorted valid
  | undo counts nodup counted =>
    exact .undo _ nodup fun count hc => ⟨hids _ (counted _ hc).1, (counted _ hc).2⟩

end BufferSnapshot

/-- The edits among operations. -/
def editIdsOf (ops : List Operation) : List Lamport := (ops.filter Operation.isEdit).map Operation.timestamp

theorem mem_editIdsOf {ops : List Operation} {id : Lamport} :
    id ∈ editIdsOf ops ↔ ∃ op ∈ ops, op.isEdit = true ∧ op.timestamp = id := by
  simp [editIdsOf, and_assoc]

/-- The operations that have been sent, those that each replica has applied, in its order, and its snapshot. -/
structure Broadcast where
  sent : List Operation
  applied : ReplicaId → List Operation
  snapshots : ReplicaId → BufferSnapshot

namespace Broadcast

/-- A replica makes an operation, and its snapshot is the new one. -/
def make (self : Broadcast) (replicaId : ReplicaId) (op : Operation) (new : BufferSnapshot) : Broadcast where
  sent := self.sent ++ [op]
  applied := Function.update self.applied replicaId (self.applied replicaId ++ [op])
  snapshots := Function.update self.snapshots replicaId new

/-- A replica takes an operation that has been sent. -/
def take (self : Broadcast) (replicaId : ReplicaId) (op : Operation) : Broadcast where
  sent := self.sent
  applied := Function.update self.applied replicaId (self.applied replicaId ++ [op])
  snapshots := Function.update self.snapshots replicaId ((self.snapshots replicaId).takeOp op)

/-- One step. -/
inductive Step (self : Broadcast) : Broadcast → Prop where
  | make {op : Operation} {new : BufferSnapshot}
      (newer : ∀ r, (self.snapshots op.replicaId).version.get r < op.timestamp.value)
      (effect : (self.snapshots op.replicaId).Effect (editIdsOf (self.applied op.replicaId)) op.timestamp op new) :
      Step self (self.make op.replicaId op new)
  | take (replicaId : ReplicaId) {op : Operation} (sent : op ∈ self.sent)
      (new : (self.snapshots replicaId).version.observed op.timestamp = false)
      (ready : (self.snapshots replicaId).version.observedAll op.version = true) : Step self (self.take replicaId op)

/-- New replicas of a snapshot. -/
def init (snapshot : BufferSnapshot) : Broadcast := ⟨[], fun _ => [], fun _ => snapshot⟩

/-- What holds in every run of the broadcast. -/
structure Inv (base : Global) (net : Broadcast) : Prop where
  causal : Causal base net.sent
  view : ∀ r, ReplicaView base net.sent (net.applied r) (net.snapshots r).version
  owns : ∀ r, Owns net.sent r (net.snapshots r).version

theorem inv_init {snapshot : BufferSnapshot} (ht : snapshot.version.Trimmed) :
    (init snapshot).Inv snapshot.version where
  causal := ⟨nodup_nil, nofun, nofun, nofun⟩
  view _ := ⟨⟨ht, fun _ => le_rfl, fun _ => .inl rfl, nofun⟩, by simp [init], nodup_nil, List.Pairwise.nil⟩
  owns _ := nofun

theorem Inv.step {base : Global} {self new : Broadcast} (inv : self.Inv base) (h : self.Step new) : new.Inv base := by
  cases h with
  | @make op snapshot newer effect =>
    have hver := effect.version
    have hn := (inv.view _).newer (inv.owns _) newer
    obtain ⟨hs, hview⟩ :=
      (inv.view _).send inv.causal (inv.owns _) effect.timestamp_eq.2 newer
    refine ⟨hs, fun r => ?_, fun r => ?_⟩
    · by_cases hr : r = op.replicaId
      · subst hr
        simp only [Broadcast.make, update_self, hver]
        exact hview
      · simp only [Broadcast.make, update_of_ne hr]
        exact (inv.view r).grow hn
    · intro other hoth hrep
      by_cases hr : r = op.replicaId
      · subst hr
        simp only [Broadcast.make, update_self, hver]
        rcases mem_append.mp hoth with hoth | hoth
        · exact observed_mono (get_le_observe _ _) (inv.owns _ _ hoth hrep)
        · rw [mem_singleton.mp hoth]
          exact observed_observe_self _ _
      · simp only [Broadcast.make, update_of_ne hr]
        rcases mem_append.mp hoth with hoth | hoth
        · exact inv.owns r _ hoth hrep
        · rw [mem_singleton.mp hoth] at hrep
          exact absurd hrep.symm hr
  | @take replicaId op sent fresh ready =>
    have hdeps := observedAll_get ready
    refine ⟨inv.causal, fun r => ?_, fun r => ?_⟩
    · by_cases hr : r = replicaId
      · subst hr
        simp only [Broadcast.take, update_self, BufferSnapshot.version_takeOp]
        exact (inv.view r).apply inv.causal sent fresh hdeps
      · simp only [Broadcast.take, update_of_ne hr]
        exact inv.view r
    · intro other hoth hrep
      by_cases hr : r = replicaId
      · subst hr
        simp only [Broadcast.take, update_self, BufferSnapshot.version_takeOp]
        exact observed_mono (get_le_observe _ _) (inv.owns r _ hoth hrep)
      · simp only [Broadcast.take, update_of_ne hr]
        exact inv.owns r _ hoth hrep

/-- The steps of a run, any number of them. -/
abbrev Steps : Broadcast → Broadcast → Prop := Relation.ReflTransGen Step

theorem Inv.steps {base : Global} {self new : Broadcast} (inv : self.Inv base) (h : self.Steps new) : new.Inv base := by
  induction h with
  | refl => exact inv
  | tail _ step ih => exact ih.step step

end Broadcast

end Wu
