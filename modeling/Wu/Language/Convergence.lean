import Mathlib.Data.Finset.Max
import Wu.Language.Buffer

/-!
# Agreement on the state of a buffer

Replicas that have applied the same operations agree on the selections, whatever the order was. They agree on the rest when the newest
operation about each thing takes effect and no older one comes after it: diagnostics of one server make those of the others stale, and
triggers and line endings are taken as they come.
-/

namespace Wu.Language

open List AList

/-! ### What an operation is about -/

inductive Subject where
  | diagnostics (serverId : Nat)
  | selections (replicaId : ReplicaId)
  | completionTriggers (serverId : Nat)
  | lineEnding
  deriving DecidableEq

def StateOperation.subject : StateOperation → Subject
  | .updateDiagnostics serverId _ _ => .diagnostics serverId
  | .updateSelections _ lamportTimestamp _ _ => .selections lamportTimestamp.replicaId
  | .updateCompletionTriggers _ _ serverId => .completionTriggers serverId
  | .updateLineEnding .. => .lineEnding

inductive StateValue where
  | diagnostics (set : Option DiagnosticSet)
  | selections (set : Option SelectionSet)
  | completionTriggers (triggers : Option (Finset String))
  | lineEnding (lineEnding : LineEnding)

/-- What an operation sets. -/
def StateOperation.value : StateOperation → StateValue
  | .updateDiagnostics _ diagnostics _ => .diagnostics (if diagnostics.isEmpty then none else some diagnostics)
  | .updateSelections selections lamportTimestamp lineMode cursorShape =>
    .selections (some ⟨lineMode, cursorShape, selections, lamportTimestamp⟩)
  | .updateCompletionTriggers triggers _ _ => .completionTriggers (if triggers.isEmpty then none else some triggers.toFinset)
  | .updateLineEnding lineEnding _ => .lineEnding lineEnding

/-- No operation about the same thing has a greater timestamp. -/
def StateOperation.Newest (ops : List Operation) (op : StateOperation) : Prop :=
  ∀ other, Operation.state other ∈ ops → other.subject = op.subject → other.lamportTimestamp ≤ op.lamportTimestamp

namespace Buffer

/-- What a buffer holds about a thing. -/
def valueAt (self : Buffer) : Subject → StateValue
  | .diagnostics serverId => .diagnostics (self.diagnostics.lookup serverId)
  | .selections replicaId => .selections (self.remoteSelections.lookup replicaId)
  | .completionTriggers serverId => .completionTriggers (self.completionTriggersPerLanguageServer.lookup serverId)
  | .lineEnding => .lineEnding self.lineEnding

/-- The test that `apply_op` makes before an operation takes effect. -/
def stale (self : Buffer) : StateOperation → Bool
  | .updateDiagnostics _ _ lamportTimestamp => ¬ self.diagnosticsTimestamp < lamportTimestamp
  | .updateSelections _ lamportTimestamp _ _ =>
    (self.remoteSelections.lookup lamportTimestamp.replicaId).any fun set => lamportTimestamp < set.lamportTimestamp
  | .updateCompletionTriggers .. | .updateLineEnding .. => false

/-- The same for every server and every peer. -/
structure Agrees (buffer other : Buffer) : Prop where
  diagnostics : ∀ serverId, buffer.diagnostics.lookup serverId = other.diagnostics.lookup serverId
  remoteSelections : ∀ replicaId, buffer.remoteSelections.lookup replicaId = other.remoteSelections.lookup replicaId
  completionTriggers : buffer.completionTriggers = other.completionTriggers
  lineEnding : buffer.lineEnding = other.lineEnding

/-! ### Runs -/

/-- An operation with the buffer that it is applied to. -/
abbrev Applied := Buffer × StateOperation

/-- The operations that are applied in the loop over received operations. -/
def receiveLog : List Operation → Buffer → List Applied
  | [], _ => []
  | .buffer _ :: ops, self => receiveLog ops self
  | .state op :: ops, self =>
    if self.canApplyOp op then (self, op) :: receiveLog ops (self.applyOp op) else receiveLog ops self

/-- The operations that are applied in the loop over the deferred operations. -/
def flushLog : List StateOperation → Buffer → List Applied
  | [], _ => []
  | op :: ops, self => if self.canApplyOp op then (self, op) :: flushLog ops (self.applyOp op) else flushLog ops self

/-- The operations that are applied when operations are received. -/
def applyOpsLog (self : Buffer) (ops : List Operation) : List Applied :=
  let (received, bufferOps, deferred) := receiveLoop ops self
  let queued := received.takeText bufferOps deferred
  receiveLog ops self ++ flushLog queued.deferredOps { queued with deferredOps := [] }

/-- Batches are received one after another. -/
def run (self : Buffer) (batches : List (List Operation)) : Buffer := batches.foldl applyOps self

def runLog : List (List Operation) → Buffer → List Applied
  | [], _ => []
  | ops :: batches, self => self.applyOpsLog ops ++ runLog batches (self.applyOps ops)

/-- The newest diagnostics of a server are not stale when they come. After the newest triggers of a server, or the newest line ending,
come no older ones. -/
def Timely (ops : List Operation) (applied : List StateOperation) (self : Buffer) (op : StateOperation) : Prop :=
  match op with
  | .updateDiagnostics _ _ lamportTimestamp => op.Newest ops → op ∉ applied → self.diagnosticsTimestamp < lamportTimestamp
  | .updateSelections .. => True
  | .updateCompletionTriggers .. | .updateLineEnding .. =>
    ∀ newest ∈ applied, newest.subject = op.subject → newest.Newest ops → newest = op

/-- Each operation of a log comes in time, after others that have been applied. -/
def Orderly (ops : List Operation) : List StateOperation → List Applied → Prop
  | _, [] => True
  | applied, (self, op) :: log => Timely ops applied self op ∧ Orderly ops (applied ++ [op]) log

/-- What the loops do to a buffer: operations on the state are applied in order, and between them the text and the queue change. -/
inductive Takes : Buffer → List Applied → Buffer → Prop
  | done (self : Buffer) : Takes self [] self
  | other {self new : Buffer} {log : List Applied} (text : Wu.Buffer) (deferredOps : List StateOperation) :
      Takes { self with text, deferredOps } log new → Takes self log new
  | apply {self new : Buffer} {log : List Applied} (op : StateOperation) :
      Takes (self.applyOp op) log new → Takes self ((self, op) :: log) new

variable {self : Buffer} {log : List Applied} {deferred applied : List StateOperation} {op : StateOperation}
variable {ops all : List Operation} {batches : List (List Operation)}

theorem Takes.trans {middle new : Buffer} {log' : List Applied} (h : Takes self log middle) (h' : Takes middle log' new) :
    Takes self (log ++ log') new := by
  induction h with
  | done => exact h'
  | other text deferredOps _ ih => exact .other text _ (ih h')
  | apply op _ ih => exact .apply op (ih h')

theorem deferredOps_applyOp (self : Buffer) (op : StateOperation) : (self.applyOp op).deferredOps = self.deferredOps := by
  cases op with
  | updateDiagnostics serverId diagnostics lamportTimestamp =>
    change (self.applyDiagnosticUpdate serverId diagnostics lamportTimestamp).deferredOps = self.deferredOps
    unfold applyDiagnosticUpdate
    split <;> rfl
  | updateSelections =>
    dsimp only [applyOp]
    split <;> rfl
  | updateCompletionTriggers | updateLineEnding => rfl

/-- The loop over received operations applies or gives back each operation on the state, and leaves the queue alone. -/
structure Receives (ops : List StateOperation) (old : Buffer) (log : List Applied) (new : Buffer)
    (deferred : List StateOperation) : Prop where
  takes : Takes old log new
  queue : new.deferredOps = old.deferredOps
  all : ∀ op, op ∈ ops ↔ op ∈ log.map (·.2) ∨ op ∈ deferred

theorem Receives.nil (self : Buffer) : Receives [] self [] self [] :=
  ⟨.done self, rfl, fun _ => ⟨nofun, fun h => h.elim nofun nofun⟩⟩

theorem Receives.apply {ops : List StateOperation} {new : Buffer} (h : Receives ops (self.applyOp op) log new deferred) :
    Receives (op :: ops) self ((self, op) :: log) new deferred := by
  refine ⟨.apply op h.takes, h.queue.trans (self.deferredOps_applyOp op), fun other => ?_⟩
  rw [mem_cons, h.all, map_cons, mem_cons, or_assoc]

theorem Receives.defer {ops : List StateOperation} {new : Buffer}
    (h : Receives ops self log new deferred) (op : StateOperation) : Receives (op :: ops) self log new (op :: deferred) := by
  refine ⟨h.takes, h.queue, fun other => ?_⟩
  rw [mem_cons, h.all, mem_cons, or_left_comm]

/-- The operations on the state. -/
def stateOps (ops : List Operation) : List StateOperation :=
  ops.filterMap fun
    | .buffer _ => none
    | .state op => some op

theorem mem_stateOps : op ∈ stateOps ops ↔ Operation.state op ∈ ops := by
  unfold stateOps
  rw [mem_filterMap]
  constructor
  · rintro ⟨found, hmem, hsome⟩
    cases found with
    | buffer => nomatch hsome
    | state found =>
      obtain rfl := Option.some.inj hsome
      exact hmem
  · exact fun hmem => ⟨.state op, hmem, rfl⟩

theorem receiveLoop_receives (ops : List Operation) (self : Buffer) :
    Receives (stateOps ops) self (receiveLog ops self) (receiveLoop ops self).1 (receiveLoop ops self).2.2 := by
  induction ops generalizing self with
  | nil => exact .nil self
  | cons op ops ih =>
    cases op with
    | buffer => exact ih self
    | state op =>
      unfold receiveLoop receiveLog
      split
      · exact (ih _).apply
      · exact (ih self).defer op

theorem flushLoop_receives (ops : List StateOperation) (self : Buffer) :
    Receives ops self (flushLog ops self) (flushLoop ops self).1 (flushLoop ops self).2 := by
  induction ops generalizing self with
  | nil => exact .nil self
  | cons op ops ih =>
    unfold flushLoop flushLog
    split
    · exact (ih _).apply
    · exact (ih self).defer op

/-- The operations of a queue are among those that have been sent, which differ in their timestamps. -/
structure Queued (ops : List Operation) (buffer : Buffer) : Prop where
  sorted : KeyedList.Sorted StateOperation.lamportTimestamp buffer.deferredOps
  sent : ∀ op ∈ buffer.deferredOps, Operation.state op ∈ ops

theorem eq_of_timestamp (hdistinct : (ops.map Operation.lamportTimestamp).Nodup) {a b : StateOperation}
    (ha : Operation.state a ∈ ops) (hb : Operation.state b ∈ ops) (h : a.lamportTimestamp = b.lamportTimestamp) : a = b :=
  Operation.state.inj (inj_on_of_nodup_map hdistinct ha hb h)

section

variable (hdistinct : (all.map Operation.lamportTimestamp).Nodup) (hqueued : Queued all self)
include hdistinct hqueued

/-- What is deferred is in the queue, with what was there. -/
theorem defer_queued {ops : List StateOperation} (hops : ∀ op ∈ ops, Operation.state op ∈ all) :
    Queued all (self.defer ops) ∧ ∀ op, op ∈ (self.defer ops).deferredOps ↔ op ∈ ops ∨ op ∈ self.deferredOps := by
  have hsent : ∀ op ∈ ops ++ self.deferredOps, Operation.state op ∈ all :=
    fun op hop => (mem_append.mp hop).elim (hops op) (hqueued.sent op)
  obtain ⟨hsort, hmem⟩ := KeyedList.insertAll_spec hqueued.sorted fun a ha b hb h =>
    eq_of_timestamp hdistinct (hsent a ha) (hsent b hb) h
  refine ⟨⟨hsort, fun op hop => ?_⟩, hmem⟩
  exact hsent op (mem_append.mpr ((hmem op).mp hop))

/-- Each operation on the state that is received, or was waiting, is applied or waits. -/
theorem applyOps_spec (hops : ∀ op ∈ ops, op ∈ all) :
    Takes self (self.applyOpsLog ops) (self.applyOps ops) ∧ Queued all (self.applyOps ops) ∧
      ∀ op, Operation.state op ∈ ops ∨ op ∈ self.deferredOps ↔
        op ∈ (self.applyOpsLog ops).map (·.2) ∨ op ∈ (self.applyOps ops).deferredOps := by
  have hrecv := receiveLoop_receives ops self
  generalize hrec : (receiveLoop ops self).1 = received at hrecv
  generalize hdef : (receiveLoop ops self).2.2 = deferred at hrecv
  have hsent : ∀ op ∈ deferred, Operation.state op ∈ all :=
    fun op hop => hops _ (mem_stateOps.mp ((hrecv.all op).mpr (.inr hop)))
  have htext : Queued all { received with text := received.text.applyOps (receiveLoop ops self).2.1 } :=
    ⟨hrecv.queue ▸ hqueued.sorted, fun op hop => hqueued.sent op (hrecv.queue ▸ hop)⟩
  obtain ⟨hque, hwait⟩ := defer_queued hdistinct htext hsent
  generalize hqueB : received.takeText (receiveLoop ops self).2.1 deferred = queued
  change Queued all (received.takeText (receiveLoop ops self).2.1 deferred) at hque
  change ∀ op, op ∈ (received.takeText (receiveLoop ops self).2.1 deferred).deferredOps ↔
    op ∈ deferred ∨ op ∈ received.deferredOps at hwait
  have htakeT : ∀ {log new}, Takes { queued with deferredOps := [] } log new → Takes received log new := by
    intro log new htake
    rw [← hqueB] at htake
    exact .other _ [] htake
  rw [hqueB] at hque hwait
  have hflu := flushLoop_receives queued.deferredOps { queued with deferredOps := [] }
  have hemp : Queued all (flushLoop queued.deferredOps { queued with deferredOps := [] }).1 := by
    refine ⟨?_, ?_⟩
    · rw [hflu.queue]
      exact List.Pairwise.nil
    · rw [hflu.queue]
      nofun
  obtain ⟨hnew, hrest⟩ := defer_queued hdistinct hemp fun op hop => hque.sent op ((hflu.all op).mpr (.inr hop))
  have hlog : self.applyOpsLog ops =
      receiveLog ops self ++ flushLog queued.deferredOps { queued with deferredOps := [] } := by
    rw [← hqueB, ← hrec, ← hdef]
    rfl
  have happ : self.applyOps ops =
      (flushLoop queued.deferredOps { queued with deferredOps := [] }).1.defer
        (flushLoop queued.deferredOps { queued with deferredOps := [] }).2 := by
    rw [← hqueB, ← hrec, ← hdef]
    rfl
  rw [hlog, happ]
  refine ⟨?_, hnew, fun op => ?_⟩
  · refine hrecv.takes.trans (htakeT ?_)
    have hlast : Takes (flushLoop queued.deferredOps { queued with deferredOps := [] }).1 []
        ((flushLoop queued.deferredOps { queued with deferredOps := [] }).1.defer
          (flushLoop queued.deferredOps { queued with deferredOps := [] }).2) := .other _ _ (.done _)
    have hall := hflu.takes.trans hlast
    rwa [append_nil] at hall
  · rw [hrest, hflu.queue, ← mem_stateOps, hrecv.all, map_append, mem_append, or_assoc, or_assoc]
    rw [← hrecv.queue, ← hwait, hflu.all]
    simp

theorem run_spec (hbat : ∀ op ∈ batches.flatten, op ∈ all) : Takes self (runLog batches self) (self.run batches) ∧
      ∀ op, Operation.state op ∈ batches.flatten ∨ op ∈ self.deferredOps ↔
        op ∈ (runLog batches self).map (·.2) ∨ op ∈ (self.run batches).deferredOps := by
  induction batches generalizing self with
  | nil => exact ⟨.done self, fun op => ⟨fun h => .inr (h.resolve_left nofun), fun h => .inr (h.resolve_left nofun)⟩⟩
  | cons ops batches ih =>
    obtain ⟨htake, hnext, hall⟩ := applyOps_spec hdistinct hqueued fun op hop => hbat op (mem_append_left _ hop)
    obtain ⟨htakeR, hallR⟩ := ih hnext fun op hop => hbat op (mem_append_right _ hop)
    refine ⟨htake.trans htakeR, fun op => ?_⟩
    rw [flatten_cons, mem_append]
    change _ ↔ op ∈ (self.applyOpsLog ops ++ runLog batches (self.applyOps ops)).map (·.2) ∨
      op ∈ ((self.applyOps ops).run batches).deferredOps
    rw [map_append, mem_append, or_right_comm, hall, or_assoc, @or_comm (op ∈ (self.applyOps ops).deferredOps), hallR, ← or_assoc]

end

/-! ### One operation -/

/-- The triggers of a buffer are those of its servers. -/
def TriggersOf (self : Buffer) : Prop := self.completionTriggers = allTriggers self.completionTriggersPerLanguageServer

theorem mem_allTriggers {triggers : AList fun _ : Nat => Finset String} {trigger : String} :
    trigger ∈ allTriggers triggers ↔ ∃ serverId set, triggers.lookup serverId = some set ∧ trigger ∈ set := by
  have hents : ∀ entries : List (Sigma fun _ : Nat => Finset String),
      trigger ∈ entries.foldr (fun entry all => entry.2 ∪ all) ∅ ↔ ∃ entry ∈ entries, trigger ∈ entry.2 := by
    intro entries
    induction entries with
    | nil => simp
    | cons entry entries ih =>
      rw [foldr_cons, Finset.mem_union, ih]
      simp
  unfold allTriggers
  rw [hents]
  constructor
  · rintro ⟨⟨serverId, set⟩, hmem, htri⟩
    exact ⟨serverId, set, AList.mem_lookup_iff.mpr hmem, htri⟩
  · rintro ⟨serverId, set, hloo, htri⟩
    exact ⟨⟨serverId, set⟩, AList.mem_lookup_iff.mp hloo, htri⟩

theorem triggersOf_applyOp (h : self.TriggersOf) (op : StateOperation) : (self.applyOp op).TriggersOf := by
  cases op with
  | updateDiagnostics serverId diagnostics lamportTimestamp =>
    change (self.applyDiagnosticUpdate serverId diagnostics lamportTimestamp).TriggersOf
    unfold applyDiagnosticUpdate
    split
    · exact h
    · exact h
  | updateSelections =>
    dsimp only [applyOp]
    split
    · exact h
    · exact h
  | updateCompletionTriggers => rfl
  | updateLineEnding => exact h

/-- An operation that is stale changes nothing. -/
theorem applyOp_stale (hsta : self.stale op = true) : self.applyOp op = self := by
  cases op with
  | updateDiagnostics => exact if_neg (of_decide_eq_true hsta)
  | updateSelections => exact if_pos hsta
  | updateCompletionTriggers | updateLineEnding => nomatch hsta

/-- An operation that is not stale sets its value. -/
theorem valueAt_applyOp_self (hsta : self.stale op = false) : (self.applyOp op).valueAt op.subject = op.value := by
  cases op with
  | updateDiagnostics serverId diagnostics lamportTimestamp =>
    have hnew : self.diagnosticsTimestamp < lamportTimestamp := not_not.mp (of_decide_eq_false hsta)
    dsimp only [applyOp, applyDiagnosticUpdate]
    rw [if_pos hnew]
    dsimp only [StateOperation.subject, StateOperation.value, valueAt, observe]
    split
    · rw [lookup_erase]
    · rw [lookup_insert]
  | updateSelections selections lamportTimestamp lineMode cursorShape =>
    dsimp only [applyOp]
    rw [if_neg (by rw [show Option.any _ _ = false from hsta]; exact Bool.false_ne_true)]
    dsimp only [StateOperation.subject, StateOperation.value, valueAt, observe]
    rw [lookup_insert]
  | updateCompletionTriggers triggers lamportTimestamp serverId =>
    dsimp only [applyOp, StateOperation.subject, StateOperation.value, valueAt, observe]
    split
    · rw [lookup_erase]
    · rw [lookup_insert]
  | updateLineEnding => rfl

theorem valueAt_applyOp_other {subject : Subject} (hne : op.subject ≠ subject) :
    (self.applyOp op).valueAt subject = self.valueAt subject := by
  cases hsta : self.stale op with
  | true => rw [applyOp_stale hsta]
  | false =>
    cases op with
    | updateDiagnostics serverId diagnostics lamportTimestamp =>
      have hnew : self.diagnosticsTimestamp < lamportTimestamp := not_not.mp (of_decide_eq_false hsta)
      dsimp only [applyOp, applyDiagnosticUpdate]
      rw [if_pos hnew]
      cases subject with
      | diagnostics other =>
        have hoth : other ≠ serverId := fun heq => hne (heq ▸ rfl)
        dsimp only [valueAt, observe]
        split
        · rw [lookup_erase_ne hoth]
        · rw [lookup_insert_ne hoth]
      | selections | completionTriggers | lineEnding => rfl
    | updateSelections selections lamportTimestamp lineMode cursorShape =>
      dsimp only [applyOp]
      rw [if_neg (by rw [show Option.any _ _ = false from hsta]; exact Bool.false_ne_true)]
      cases subject with
      | selections other =>
        have hoth : other ≠ lamportTimestamp.replicaId := fun heq => hne (heq ▸ rfl)
        dsimp only [valueAt, observe]
        rw [lookup_insert_ne hoth]
      | diagnostics | completionTriggers | lineEnding => rfl
    | updateCompletionTriggers triggers lamportTimestamp serverId =>
      cases subject with
      | completionTriggers other =>
        have hoth : other ≠ serverId := fun heq => hne (heq ▸ rfl)
        dsimp only [applyOp, valueAt, observe]
        split
        · rw [lookup_erase_ne hoth]
        · rw [lookup_insert_ne hoth]
      | diagnostics | selections | lineEnding => rfl
    | updateLineEnding =>
      cases subject with
      | lineEnding => exact absurd rfl hne
      | diagnostics | selections | completionTriggers => rfl

theorem diagnosticsTimestamp_applyOp (self : Buffer) (op : StateOperation) :
    self.diagnosticsTimestamp ≤ (self.applyOp op).diagnosticsTimestamp ∧
      ∀ serverId diagnostics lamportTimestamp, op = .updateDiagnostics serverId diagnostics lamportTimestamp →
        lamportTimestamp ≤ (self.applyOp op).diagnosticsTimestamp := by
  cases op with
  | updateDiagnostics serverId diagnostics lamportTimestamp =>
    dsimp only [applyOp, applyDiagnosticUpdate]
    split
    · rename_i hnew
      refine ⟨le_of_lt hnew, ?_⟩
      rintro _ _ _ ⟨⟩
      exact le_refl _
    · rename_i hsta
      refine ⟨le_refl _, ?_⟩
      rintro _ _ _ ⟨⟩
      exact not_lt.mp hsta
  | updateSelections =>
    refine ⟨?_, nofun⟩
    dsimp only [applyOp]
    split <;> exact le_refl _
  | updateCompletionTriggers | updateLineEnding => exact ⟨le_refl _, nofun⟩

/-! ### What a buffer holds after operations -/

/-- What a buffer holds after operations that came in time, from a state in which nothing was there. -/
structure Holds (ops : List Operation) (initial : Buffer) (applied : List StateOperation) (buffer : Buffer) : Prop where
  sent : ∀ op ∈ applied, Operation.state op ∈ ops
  newest : ∀ op ∈ applied, op.Newest ops → buffer.valueAt op.subject = op.value
  untouched : ∀ subject, (∀ op ∈ applied, op.subject ≠ subject) → buffer.valueAt subject = initial.valueAt subject
  diagnosticsTimestamp : ∀ serverId diagnostics lamportTimestamp,
    StateOperation.updateDiagnostics serverId diagnostics lamportTimestamp ∈ applied → lamportTimestamp ≤ buffer.diagnosticsTimestamp
  selections : ∀ replicaId set, buffer.remoteSelections.lookup replicaId = some set →
    ∃ op ∈ applied, op.subject = .selections replicaId ∧ op.lamportTimestamp = set.lamportTimestamp
  triggers : buffer.TriggersOf

theorem holds_new (ops : List Operation) (text : Wu.Buffer) (remoteId : Nat) (lineEnding : LineEnding) :
    Holds ops (new text remoteId lineEnding) [] (new text remoteId lineEnding) :=
  ⟨nofun, nofun, fun _ _ => rfl, nofun, nofun, rfl⟩

section

variable {buffer initial : Buffer} (h : Holds ops initial applied buffer)
include h

theorem Holds.other (text : Wu.Buffer) (deferredOps : List StateOperation) :
    Holds ops initial applied { buffer with text, deferredOps } :=
  ⟨h.sent, h.newest, h.untouched, h.diagnosticsTimestamp, h.selections, h.triggers⟩

/-- The newest operation about something is not stale when it comes. -/
theorem Holds.not_stale (hnew : op ∉ applied) (hnewe : op.Newest ops)
    (htime : Timely ops applied buffer op) : buffer.stale op = false := by
  cases op with
  | updateDiagnostics => exact decide_eq_false (not_not.mpr (htime hnewe hnew))
  | updateSelections selections lamportTimestamp lineMode cursorShape =>
    dsimp only [stale]
    cases hloo : buffer.remoteSelections.lookup _ with
    | none => rfl
    | some set =>
      obtain ⟨other, hoth, hsub, htim⟩ := h.selections _ set hloo
      have hle := hnewe _ (h.sent _ hoth) hsub
      rw [htim] at hle
      exact decide_eq_false (not_lt.mpr hle)
  | updateCompletionTriggers | updateLineEnding => rfl

/-- After the newest operation about something, an older one is stale. -/
theorem Holds.stale_after {newest : StateOperation} (happ : newest ∈ applied) (hnew : newest.Newest ops)
    (hsub : op.subject = newest.subject) (holder : op.lamportTimestamp < newest.lamportTimestamp)
    (htim : Timely ops applied buffer op) : buffer.stale op = true := by
  have hne : newest ≠ op := fun heq => absurd holder (by rw [heq]; exact lt_irrefl _)
  cases op with
  | updateDiagnostics serverId diagnostics lamportTimestamp =>
    cases newest with
    | updateDiagnostics other otherDiagnostics otherTimestamp =>
      have hle := h.diagnosticsTimestamp _ _ _ happ
      exact decide_eq_true (not_lt.mpr (le_of_lt (lt_of_lt_of_le holder hle)))
    | updateSelections | updateCompletionTriggers | updateLineEnding => nomatch hsub
  | updateSelections selections lamportTimestamp lineMode cursorShape =>
    cases newest with
    | updateSelections otherSelections otherTimestamp otherLineMode otherShape =>
      have hval := h.newest _ happ hnew
      rw [← hsub] at hval
      have hloo : buffer.remoteSelections.lookup lamportTimestamp.replicaId =
          some ⟨otherLineMode, otherShape, otherSelections, otherTimestamp⟩ := StateValue.selections.inj hval
      dsimp only [stale]
      rw [hloo]
      exact decide_eq_true holder
    | updateDiagnostics | updateCompletionTriggers | updateLineEnding => nomatch hsub
  | updateCompletionTriggers | updateLineEnding => exact absurd (htim _ happ hsub.symm hnew) hne

end

theorem Holds.apply (hdistinct : (ops.map Operation.lamportTimestamp).Nodup) {initial buffer : Buffer}
    (h : Holds ops initial applied buffer) (hsent : Operation.state op ∈ ops)
    (htim : Timely ops applied buffer op) : Holds ops initial (applied ++ [op]) (buffer.applyOp op) where
  sent := by
    intro found hfnd
    rcases mem_append.mp hfnd with hfnd | hfnd
    · exact h.sent _ hfnd
    · rwa [mem_singleton.mp hfnd]
  newest := by
    intro found hfnd hnew
    by_cases happ : found ∈ applied
    · by_cases hsub : op.subject = found.subject
      · rcases (hnew op hsent hsub).lt_or_eq with holder | heq
        · rw [applyOp_stale (h.stale_after happ hnew hsub holder htim)]
          exact h.newest _ happ hnew
        · obtain rfl := eq_of_timestamp hdistinct hsent (h.sent _ happ) heq
          cases hsta : buffer.stale op with
          | true =>
            rw [applyOp_stale hsta]
            exact h.newest op happ hnew
          | false => exact valueAt_applyOp_self hsta
      · rw [valueAt_applyOp_other hsub]
        exact h.newest _ happ hnew
    · obtain rfl := mem_singleton.mp ((mem_append.mp hfnd).resolve_left happ)
      exact valueAt_applyOp_self (h.not_stale happ hnew htim)
  untouched := by
    intro subject hnone
    rw [valueAt_applyOp_other (hnone op (mem_append_right _ (.head _)))]
    exact h.untouched _ fun found hfnd => hnone _ (mem_append_left _ hfnd)
  diagnosticsTimestamp := by
    intro serverId diagnostics lamportTimestamp hfnd
    obtain ⟨hgrow, hself⟩ := buffer.diagnosticsTimestamp_applyOp op
    rcases mem_append.mp hfnd with hfnd | hfnd
    · exact (h.diagnosticsTimestamp _ _ _ hfnd).trans hgrow
    · exact hself _ _ _ (mem_singleton.mp hfnd).symm
  selections := by
    intro replicaId set hloo
    cases hsta : buffer.stale op with
    | true =>
      rw [applyOp_stale hsta] at hloo
      obtain ⟨found, hfnd, hfact⟩ := h.selections _ set hloo
      exact ⟨found, mem_append_left _ hfnd, hfact⟩
    | false =>
      by_cases hsub : op.subject = .selections replicaId
      · have hval := valueAt_applyOp_self hsta
        rw [hsub] at hval
        cases op with
        | updateSelections selections lamportTimestamp lineMode cursorShape =>
          have hset := StateValue.selections.inj hval
          rw [hloo] at hset
          obtain rfl := Option.some.inj hset
          exact ⟨_, mem_append_right _ (.head _), hsub, rfl⟩
        | updateDiagnostics | updateCompletionTriggers | updateLineEnding => nomatch hsub
      · have hval := StateValue.selections.inj (@valueAt_applyOp_other buffer op _ hsub)
        rw [hloo] at hval
        obtain ⟨found, hfnd, hfact⟩ := h.selections _ set hval.symm
        exact ⟨found, mem_append_left _ hfnd, hfact⟩
  triggers := triggersOf_applyOp h.triggers op

/-- What a buffer holds after a log of operations that came in time. -/
theorem Takes.holds (hdistinct : (ops.map Operation.lamportTimestamp).Nodup) {initial buffer new : Buffer}
    (htake : Takes buffer log new) (h : Holds ops initial applied buffer)
    (hsent : ∀ op ∈ log.map (·.2), Operation.state op ∈ ops) (hord : Orderly ops applied log) :
    Holds ops initial (applied ++ log.map (·.2)) new := by
  induction htake generalizing applied with
  | done self =>
    rw [map_nil, append_nil]
    exact h
  | other text deferredOps _ ih => exact ih (h.other text _) hsent hord
  | apply op _ ih =>
    obtain ⟨htim, hrest⟩ := hord
    rw [map_cons, append_cons]
    exact ih (h.apply hdistinct (hsent op mem_cons_self) htim) (fun found hfnd => hsent _ (.tail _ hfnd)) hrest

/-- Among the operations about a thing, if there are any, there is a newest one. -/
theorem exists_newest (ops : List Operation) (subject : Subject) : (∀ op, Operation.state op ∈ ops → op.subject ≠ subject) ∨
      ∃ op, Operation.state op ∈ ops ∧ op.subject = subject ∧ op.Newest ops := by
  let candidates := ((stateOps ops).filter (·.subject = subject)).toFinset
  have hmem : ∀ op, op ∈ candidates ↔ Operation.state op ∈ ops ∧ op.subject = subject := by
    intro op
    rw [mem_toFinset, mem_filter, mem_stateOps, decide_eq_true_iff]
  rcases candidates.eq_empty_or_nonempty with hemp | hnon
  · left
    intro op hop hsub
    have hin := (hmem op).mpr ⟨hop, hsub⟩
    rw [hemp] at hin
    exact Finset.notMem_empty op hin
  · right
    obtain ⟨op, hop, hmax⟩ := candidates.exists_max_image StateOperation.lamportTimestamp hnon
    obtain ⟨hsent, hsub⟩ := (hmem op).mp hop
    refine ⟨op, hsent, hsub, fun other hoth hsame => ?_⟩
    exact hmax _ ((hmem _).mpr ⟨hoth, hsame.trans hsub⟩)

/-- Buffers that hold all operations, from the same state, hold the same. -/
theorem Holds.agree {initial initial' first second : Buffer} {applied' : List StateOperation}
    (h : Holds ops initial applied first) (h' : Holds ops initial' applied' second)
    (hall : ∀ op, Operation.state op ∈ ops → op ∈ applied) (hall' : ∀ op, Operation.state op ∈ ops → op ∈ applied')
    (hini : ∀ subject, initial.valueAt subject = initial'.valueAt subject) (subject : Subject) :
    first.valueAt subject = second.valueAt subject := by
  rcases exists_newest ops subject with hnone | ⟨op, hsent, rfl, hnew⟩
  · rw [h.untouched _ fun op hop => hnone op (h.sent op hop), h'.untouched _ fun op hop => hnone op (h'.sent op hop)]
    exact hini _
  · rw [h.newest op (hall op hsent) hnew, h'.newest op (hall' op hsent) hnew]

/-- A new buffer that has received all operations in batches, with none deferred, holds them all. -/
theorem run_holds (hdistinct : (ops.map Operation.lamportTimestamp).Nodup) (text : Wu.Buffer) (remoteId : Nat)
    (lineEnding : LineEnding) (hall : ∀ op, op ∈ batches.flatten ↔ op ∈ ops)
    (hdone : ((new text remoteId lineEnding).run batches).deferredOps = [])
    (hord : Orderly ops [] (runLog batches (new text remoteId lineEnding))) :
    Holds ops (new text remoteId lineEnding) ((runLog batches (new text remoteId lineEnding)).map (·.2))
        ((new text remoteId lineEnding).run batches) ∧
      ∀ op, Operation.state op ∈ ops → op ∈ (runLog batches (new text remoteId lineEnding)).map (·.2) := by
  have hqueued : Queued ops (new text remoteId lineEnding) := ⟨List.Pairwise.nil, nofun⟩
  obtain ⟨htake, hwhe⟩ := run_spec hdistinct hqueued fun op hop => (hall op).mp hop
  rw [hdone] at hwhe
  refine ⟨?_, fun op hop => ?_⟩
  · refine htake.holds hdistinct (holds_new ops text _ _) (fun op hop => ?_) hord
    exact (hall _).mp (((hwhe op).mpr (.inl hop)).resolve_right nofun)
  · exact ((hwhe op).mp (.inl ((hall _).mpr hop))).resolve_right nofun

/-- Replicas of a buffer that have received the same operations, each operation in time, agree. -/
theorem state_converges {ops : List Operation} (hdistinct : (ops.map Operation.lamportTimestamp).Nodup) (text text' : Wu.Buffer)
    (remoteId : Nat) (lineEnding : LineEnding) {batches batches' : List (List Operation)}
    (hall : ∀ op, op ∈ batches.flatten ↔ op ∈ ops) (hall' : ∀ op, op ∈ batches'.flatten ↔ op ∈ ops)
    (hdone : ((new text remoteId lineEnding).run batches).deferredOps = [])
    (hdone' : ((new text' remoteId lineEnding).run batches').deferredOps = [])
    (horderly : Orderly ops [] (runLog batches (new text remoteId lineEnding)))
    (horderly' : Orderly ops [] (runLog batches' (new text' remoteId lineEnding))) :
    ((new text remoteId lineEnding).run batches).Agrees ((new text' remoteId lineEnding).run batches') := by
  obtain ⟨hholds, happlied⟩ := run_holds hdistinct text remoteId lineEnding hall hdone horderly
  obtain ⟨hholds', happlied'⟩ := run_holds hdistinct text' remoteId lineEnding hall' hdone' horderly'
  have hagree := hholds.agree hholds' happlied happlied' fun subject => by cases subject <;> rfl
  refine ⟨fun serverId => ?_, fun replicaId => ?_, ?_, ?_⟩
  · exact StateValue.diagnostics.inj (hagree (.diagnostics serverId))
  · exact StateValue.selections.inj (hagree (.selections replicaId))
  · rw [hholds.triggers, hholds'.triggers]
    ext trigger
    rw [mem_allTriggers, mem_allTriggers]
    refine exists_congr fun serverId => ?_
    rw [StateValue.completionTriggers.inj (hagree (.completionTriggers serverId))]
  · exact StateValue.lineEnding.inj (hagree .lineEnding)

/-! ### Runs on a few operations -/

/-- An empty text on a replica. -/
def emptyText (replicaId : Nat) : Wu.Buffer := Wu.Buffer.new ⟨replicaId⟩ 0 []

/-- A diagnostic of a language server about the whole buffer. -/
def diagnosticsOf (serverId value : Nat) : Operation :=
  .state (.updateDiagnostics serverId [⟨.minForBuffer 1, .maxForBuffer 1, "unused"⟩] ⟨value, ⟨0⟩⟩)

def triggersOf (serverId value : Nat) : Operation := .state (.updateCompletionTriggers ["."] ⟨value, ⟨0⟩⟩ serverId)

/-- Diagnostics and triggers that come in either order. -/
theorem state_converges_demo :
    ((new (emptyText 1) 1 .unix).run [[diagnosticsOf 0 1, triggersOf 0 2]]).Agrees
      ((new (emptyText 2) 1 .unix).run [[triggersOf 0 2], [diagnosticsOf 0 1]]) := by
  have hmin : Lamport.min < ⟨1, ⟨0⟩⟩ := Lamport.lt_of_value_lt Nat.zero_lt_one
  have hdistinct : ([diagnosticsOf 0 1, triggersOf 0 2].map Operation.lamportTimestamp).Nodup := by decide
  refine state_converges hdistinct (emptyText 1) (emptyText 2) 1 .unix (fun op => Iff.rfl)
    (fun op => (List.Perm.swap _ _ []).mem_iff) rfl rfl ?_ ?_
  · refine ⟨fun _ _ => hmin, fun newest hmem hsubject _ => ?_, trivial⟩
    rw [mem_singleton.mp hmem] at hsubject
    nomatch hsubject
  · exact ⟨nofun, fun _ _ => hmin, trivial⟩

/-- The diagnostics of one server make older ones of another server stale. -/
theorem diagnostics_diverge : ¬ ∀ (ops : List Operation) (text text' : Wu.Buffer) (remoteId : Nat) (lineEnding : LineEnding)
    (batches batches' : List (List Operation)), (ops.map Operation.lamportTimestamp).Nodup →
    (∀ op, op ∈ batches.flatten ↔ op ∈ ops) → (∀ op, op ∈ batches'.flatten ↔ op ∈ ops) →
    ((new text remoteId lineEnding).run batches).deferredOps = [] →
    ((new text' remoteId lineEnding).run batches').deferredOps = [] →
    ((new text remoteId lineEnding).run batches).Agrees ((new text' remoteId lineEnding).run batches') := by
  intro hall
  have hagree := hall [diagnosticsOf 0 1, diagnosticsOf 1 2] (emptyText 1) (emptyText 2) 1 .unix
    [[diagnosticsOf 0 1, diagnosticsOf 1 2]] [[diagnosticsOf 1 2], [diagnosticsOf 0 1]] (by decide) (fun op => Iff.rfl)
    (fun op => (List.Perm.swap _ _ []).mem_iff) rfl rfl
  exact Option.some_ne_none _ (hagree.diagnostics 0)

end Buffer

end Wu.Language
