import Wu.Runs

/-!
# Messages to a language server

Callers issue notifications and requests. A request enters the queue of the writer at once. A notification enters a queue of its own,
and a task serialises it and moves it to the queue of the writer, which writes what it takes from there to the server's stdin.
-/

namespace Wu.Lsp

open List Option

inductive Message where
  | notification (method params : String)
  | request (id : Int) (method params : String)
  deriving DecidableEq

structure Outgoing where
  /-- The queue of the task that serialises notifications. -/
  notifications : List Message
  /-- The notification that this task has serialised. -/
  serialized : Option Message
  /-- The queue of the writer. -/
  outbound : List Message
  /-- The message that the writer has taken. -/
  writing : Option Message
  serializerOver : Bool
  writerOver : Bool
  /-- What the callers have issued. -/
  issued : List Message
  /-- What has been written to stdin. -/
  written : List Message

namespace Outgoing

def new : Outgoing where
  notifications := []
  serialized := none
  outbound := []
  writing := none
  serializerOver := false
  writerOver := false
  issued := []
  written := []

variable (outgoing : Outgoing)

/-- `notify_internal`: it fails when the queue is closed. -/
def notify (message : Message) : Option Outgoing :=
  if outgoing.serializerOver then none
  else
    some { outgoing with
      notifications := outgoing.notifications ++ [message]
      issued := outgoing.issued ++ [message] }

/-- What a request does to the writer's queue: it fails when the queue is closed. -/
def trySend (message : Message) : Option Outgoing :=
  if outgoing.writerOver then none
  else
    some { outgoing with
      outbound := outgoing.outbound ++ [message]
      issued := outgoing.issued ++ [message] }

/-- The next notification is serialised. -/
def serialize : Outgoing :=
  match outgoing.notifications with
  | message :: rest => { outgoing with notifications := rest, serialized := some message }
  | [] => outgoing

/-- The serialised notification is sent to the writer. The task ends when the writer's queue is closed, and closes its own. -/
def forward : Outgoing :=
  match outgoing.serialized with
  | some message =>
    if outgoing.writerOver then { outgoing with notifications := [], serialized := none, serializerOver := true }
    else { outgoing with outbound := outgoing.outbound ++ [message], serialized := none }
  | none => outgoing

/-- The writer takes a message. -/
def receive : Outgoing :=
  match outgoing.outbound with
  | message :: rest => { outgoing with outbound := rest, writing := some message }
  | [] => outgoing

/-- The writer writes the message that it has taken. -/
def write : Outgoing :=
  match outgoing.writing with
  | some message => { outgoing with written := outgoing.written ++ [message], writing := none }
  | none => outgoing

/-- Stdin is closed: the writer ends, and drops its queue. -/
def writeFails : Outgoing := { outgoing with outbound := [], writing := none, writerOver := true }

inductive Move where
  | notify (method params : String)
  | request (id : Int) (method params : String)
  | serialize
  | forward
  | receive
  | write
  | writeFails

/-- A step of the task that serialises notifications, or of the writer. -/
def Move.isTask : Move → Bool
  | notify .. | request .. => false
  | _ => true

def apply : Move → Outgoing
  | .notify method params => (outgoing.notify (.notification method params)).getD outgoing
  | .request id method params => (outgoing.trySend (.request id method params)).getD outgoing
  | .serialize => outgoing.serialize
  | .forward => outgoing.forward
  | .receive => outgoing.receive
  | .write => outgoing.write
  | .writeFails => outgoing.writeFails

def Allowed : Move → Prop
  | .notify .. | .request .. => True
  | .serialize => outgoing.notifications ≠ [] ∧ outgoing.serialized = none
  | .forward => outgoing.serialized ≠ none
  | .receive => outgoing.outbound ≠ [] ∧ outgoing.writing = none
  | .write | .writeFails => outgoing.writing ≠ none

/-- A request is issued when no notification is on its way to the writer's queue. -/
def Careful : Move → Prop
  | .request .. => outgoing.writerOver = false → outgoing.notifications = [] ∧ outgoing.serialized = none
  | _ => True

/-- The states that are reached by moves that meet a condition. -/
inductive Reach (condition : Outgoing → Move → Prop) : Outgoing → Prop
  | start : Reach condition .new
  | move {outgoing : Outgoing} (move : Move) : Reach condition outgoing → outgoing.Allowed move → condition outgoing move →
      Reach condition (outgoing.apply move)

/-- No task can make a further step. -/
def Idle : Prop := ∀ move, move.isTask = true → ¬ outgoing.Allowed move

/-- What is written is what was issued, in its order, up to some message, and all of it when the tasks have come to rest. -/
structure InOrder : Prop where
  order : outgoing.written <+: outgoing.issued
  complete : outgoing.Idle → outgoing.writerOver = false → outgoing.written = outgoing.issued

/-! ### What is on its way -/

/-- What has been issued and is not written, as the writer gets it. -/
def onTheWay : List Message :=
  outgoing.writing.toList ++ outgoing.outbound ++ outgoing.serialized.toList ++ outgoing.notifications

/-- While stdin is open, what was issued is what was written, and then what is on its way. -/
structure Sound : Prop where
  split : outgoing.writerOver = false → outgoing.issued = outgoing.written ++ outgoing.onTheWay
  order : outgoing.written <+: outgoing.issued
  serializing : outgoing.writerOver = false → outgoing.serializerOver = false
  closed : outgoing.writerOver = true → outgoing.writing = none ∧ outgoing.outbound = []

variable {outgoing}

theorem sound_new : Sound new := ⟨fun _ => rfl, prefix_refl _, fun _ => rfl, nofun⟩

section

variable (h : Sound outgoing)
include h

/-- What is on its way only gets further. -/
theorem Sound.further {after : Outgoing} (hissu : after.issued = outgoing.issued)
    (hwrit : after.writerOver = outgoing.writerOver) (hser : after.serializerOver = outgoing.serializerOver)
    (hway : after.written ++ after.onTheWay = outgoing.written ++ outgoing.onTheWay)
    (hord : after.written <+: outgoing.issued)
    (hover : after.writerOver = true → after.writing = none ∧ after.outbound = []) : Sound after := by
  refine ⟨?_, ?_, ?_, hover⟩
  · intro hopen
    rw [hissu, hway]
    exact h.split (hwrit ▸ hopen)
  · rw [hissu]
    exact hord
  · intro hopen
    rw [hser]
    exact h.serializing (hwrit ▸ hopen)

theorem Sound.notify (message : Message) : Sound ((outgoing.notify message).getD outgoing) := by
  unfold Outgoing.notify
  split
  · exact h
  · refine ⟨?_, h.order.trans (prefix_append _ _), h.serializing, h.closed⟩
    intro hopen
    dsimp only [getD_some] at hopen ⊢
    rw [h.split hopen]
    unfold onTheWay
    rw [append_assoc, append_assoc]

theorem Sound.trySend (message : Message)
    (hcare : outgoing.writerOver = false → outgoing.notifications = [] ∧ outgoing.serialized = none) :
    Sound ((outgoing.trySend message).getD outgoing) := by
  unfold Outgoing.trySend
  split
  · exact h
  · rename_i hwrit
    refine ⟨?_, h.order.trans (prefix_append _ _), h.serializing, fun hover => absurd hover hwrit⟩
    intro hopen
    dsimp only [getD_some] at hopen ⊢
    obtain ⟨hnot, hser⟩ := hcare hopen
    rw [h.split hopen]
    unfold onTheWay
    rw [hnot, hser]
    simp

theorem Sound.serialize (halw : outgoing.Allowed .serialize) : Sound outgoing.serialize := by
  obtain ⟨-, hser⟩ := halw
  unfold Outgoing.serialize
  split
  · rename_i message rest hnot
    refine h.further rfl rfl rfl ?_ h.order h.closed
    unfold onTheWay
    rw [hnot, hser]
    simp
  · exact h

theorem Sound.forward : Sound outgoing.forward := by
  unfold Outgoing.forward
  split
  · rename_i message hser
    split
    · rename_i hover
      refine ⟨?_, h.order, ?_, h.closed⟩
      · intro hopen
        rw [hover] at hopen
        nomatch hopen
      · intro hopen
        rw [hover] at hopen
        nomatch hopen
    · rename_i hwrit
      refine h.further rfl rfl rfl ?_ h.order fun hover => absurd hover hwrit
      unfold onTheWay
      rw [hser]
      simp
  · exact h

theorem Sound.receive (halw : outgoing.Allowed .receive) : Sound outgoing.receive := by
  obtain ⟨hne, hwrtg⟩ := halw
  unfold Outgoing.receive
  split
  · rename_i message rest hout
    refine h.further rfl rfl rfl ?_ h.order fun hover => absurd (h.closed hover).2 hne
    unfold onTheWay
    rw [hout, hwrtg]
    simp
  · exact h

theorem Sound.write : Sound outgoing.write := by
  unfold Outgoing.write
  split
  · rename_i message hwrtg
    have hopen : outgoing.writerOver = false := by
      cases hover : outgoing.writerOver with
      | false => rfl
      | true =>
        rw [(h.closed hover).1] at hwrtg
        nomatch hwrtg
    have hspl := h.split hopen
    unfold onTheWay at hspl
    rw [hwrtg] at hspl
    refine h.further rfl rfl rfl ?_ ?_ fun hover => ⟨rfl, (h.closed hover).2⟩
    · unfold onTheWay
      rw [hwrtg]
      simp
    · rw [hspl]
      simp only [toList_some, append_assoc]
      rw [← append_assoc]
      exact prefix_append _ _
  · exact h

theorem Sound.writeFails : Sound outgoing.writeFails :=
  ⟨nofun, h.order, nofun, fun _ => ⟨rfl, rfl⟩⟩

theorem Sound.apply {move : Move} (halw : outgoing.Allowed move) (hcare : outgoing.Careful move) : Sound (outgoing.apply move) := by
  cases move with
  | notify method params => exact h.notify _
  | request id method params => exact h.trySend _ hcare
  | serialize => exact h.serialize halw
  | forward => exact h.forward
  | receive => exact h.receive halw
  | write => exact h.write
  | writeFails => exact h.writeFails

end

theorem Reach.sound (h : Reach Careful outgoing) : Sound outgoing := by
  induction h with
  | start => exact sound_new
  | move move _ halw hcare ih => exact ih.apply halw hcare

/-- When the tasks have come to rest, nothing is on its way. -/
theorem Idle.onTheWay (h : outgoing.Idle) : outgoing.onTheWay = [] := by
  have hwrtg : outgoing.writing = none := Classical.byContradiction (h .write rfl)
  have hout : outgoing.outbound = [] := Classical.byContradiction fun hne => h .receive rfl ⟨hne, hwrtg⟩
  have hser : outgoing.serialized = none := Classical.byContradiction (h .forward rfl)
  have hnot : outgoing.notifications = [] :=
    Classical.byContradiction fun hne => h .serialize rfl ⟨hne, hser⟩
  unfold Outgoing.onTheWay
  rw [hwrtg, hout, hser, hnot]
  rfl

/-- Requests that are not issued while a notification is on its way leave the messages in their order. -/
theorem messages_in_order (h : Reach Careful outgoing) : outgoing.InOrder where
  order := h.sound.order
  complete := by
    intro hidle hopen
    rw [h.sound.split hopen, hidle.onTheWay, append_nil]

/-! ### A request that overtakes a notification -/

/-- The state after moves that are made one after another. -/
def run (moves : List Move) : Outgoing := moves.foldl Outgoing.apply .new

theorem Reach.run {condition : Outgoing → Move → Prop} {moves : List Move}
    (h : Follows Outgoing.apply (fun outgoing move => outgoing.Allowed move ∧ condition outgoing move) .new moves) :
    Reach condition (run moves) :=
  Follows.keeps (fun _ move hrch hmove => hrch.move move hmove.1 hmove.2) .start h

/-- A change is sent to the writer before a completion is requested. -/
theorem messages_in_order_demo : (run [.notify "textDocument/didChange" "{}", .serialize, .forward,
    .request 0 "textDocument/completion" "{}", .receive, .write, .receive, .write]).InOrder :=
  messages_in_order (Reach.run ⟨⟨trivial, trivial⟩, ⟨⟨nofun, rfl⟩, trivial⟩, ⟨nofun, trivial⟩, ⟨trivial, fun _ => ⟨rfl, rfl⟩⟩,
    ⟨⟨nofun, rfl⟩, trivial⟩, ⟨nofun, trivial⟩, ⟨⟨nofun, rfl⟩, trivial⟩, ⟨nofun, trivial⟩, trivial⟩)

/-- The writer is at rest when a completion is requested after a change, and gets the request before the change is serialised. -/
theorem request_overtakes : ¬ ∀ outgoing : Outgoing, Reach (fun _ _ => True) outgoing → outgoing.InOrder := by
  intro hall
  have hreach : Reach (fun _ _ => True) (run [.notify "textDocument/didChange" "{}",
      .request 0 "textDocument/completion" "{}", .receive, .write]) :=
    Reach.run ⟨⟨trivial, trivial⟩, ⟨trivial, trivial⟩, ⟨⟨nofun, rfl⟩, trivial⟩, ⟨nofun, trivial⟩, trivial⟩
  obtain ⟨rest, hrest⟩ := (hall _ hreach).order
  nomatch (List.cons.inj hrest).1

end Outgoing

end Wu.Lsp
