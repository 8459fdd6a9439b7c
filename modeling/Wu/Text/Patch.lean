import Wu.Text.Operation

/-!
# Patches

A patch is a list of edits in order, each one with the range of the old text it replaces and the range of the new text it
puts there.
-/

namespace Wu

/-- An edit of a patch. -/
@[ext] structure Patch.Edit where
  old : Span
  new : Span
  deriving DecidableEq, Repr

namespace Patch.Edit

/-- An edit that replaces nothing by nothing. -/
def isEmpty (self : Edit) : Bool := self.old.start == self.old.stop && self.new.start == self.new.stop

/-- The length of the old range. -/
def oldLen (self : Edit) : Nat := self.old.stop - self.old.start

/-- The length of the new range. -/
def newLen (self : Edit) : Nat := self.new.stop - self.new.start

end Patch.Edit

/-- Edits in order. -/
abbrev Patch := List Patch.Edit

namespace Patch

/-- Add an edit that is not before the last one; an edit that touches the last one is merged into it. -/
def pushMaybeEmpty (self : Patch) (edit : Edit) : Patch :=
  match self.getLast? with
  | some last =>
    if last.old.stop ≥ edit.old.start then
      self.dropLast ++ [⟨⟨last.old.start, edit.old.stop⟩, ⟨last.new.start, edit.new.stop⟩⟩]
    else self ++ [edit]
  | none => [edit]

/-- Add an edit, unless it is empty. -/
def push (self : Patch) (edit : Edit) : Patch := if edit.isEmpty then self else pushMaybeEmpty self edit

/-- The state of the loop of `compose`: the edits left on both sides, the patch so far and where it ends. -/
structure Composing where
  oldEdits : List Edit
  newEdits : List Edit
  composed : Patch
  oldStart : Nat
  newStart : Nat
  deriving Repr

namespace Composing

/-- The ends move by a distance that both texts share. -/
def catchUp (self : Composing) (catchup : Nat) : Composing :=
  { self with oldStart := self.oldStart + catchup, newStart := self.newStart + catchup }

/-- An edit with ends at the two positions becomes part of the patch. -/
def pushTo (self : Composing) (oldEnd newEnd : Nat) : Composing :=
  { self with
    composed := Patch.push self.composed ⟨⟨self.oldStart, oldEnd⟩, ⟨self.newStart, newEnd⟩⟩
    oldStart := oldEnd
    newStart := newEnd }

/-- The old edit ends before the new one starts. -/
def pushOld (self : Composing) (oldEdit : Edit) (oldEdits : List Edit) : Composing :=
  let s := self.catchUp (oldEdit.old.start - self.oldStart)
  { s.pushTo (s.oldStart + oldEdit.oldLen) (s.newStart + oldEdit.newLen) with oldEdits := oldEdits }

/-- The new edit ends before the old one starts. -/
def pushNew (self : Composing) (newEdit : Edit) (newEdits : List Edit) : Composing :=
  let s := self.catchUp (newEdit.new.start - self.newStart)
  { s.pushTo (s.oldStart + newEdit.oldLen) (s.newStart + newEdit.newLen) with newEdits := newEdits }

/-- The edit that starts first is pushed up to the start of the other one; both then start at one place. -/
def pushOverlapStart (self : Composing) (oldEdit newEdit : Edit) : Composing × Edit × Edit :=
  if oldEdit.new.start < newEdit.old.start then
    let s := self.catchUp (oldEdit.old.start - self.oldStart)
    let overshoot := newEdit.old.start - oldEdit.new.start
    let oldEnd := min (s.oldStart + overshoot) oldEdit.old.stop
    (s.pushTo oldEnd (s.newStart + overshoot),
      ⟨⟨oldEnd, oldEdit.old.stop⟩, ⟨oldEdit.new.start + overshoot, oldEdit.new.stop⟩⟩, newEdit)
  else
    let s := self.catchUp (newEdit.new.start - self.newStart)
    let overshoot := oldEdit.new.start - newEdit.old.start
    let newEnd := min (s.newStart + overshoot) newEdit.new.stop
    (s.pushTo (s.oldStart + overshoot) newEnd, oldEdit,
      ⟨⟨newEdit.old.start + overshoot, newEdit.old.stop⟩, ⟨newEnd, newEdit.new.stop⟩⟩)

/-- The edit that ends first is pushed and dropped; the other one goes on from there. -/
def pushOverlapEnd (self : Composing) (oldEdit newEdit : Edit) (oldEdits newEdits : List Edit) : Composing :=
  if oldEdit.new.stop > newEdit.old.stop then
    let oldEnd := self.oldStart + min oldEdit.oldLen newEdit.oldLen
    { self.pushTo oldEnd (self.newStart + newEdit.newLen) with
      oldEdits := ⟨⟨oldEnd, oldEdit.old.stop⟩, ⟨newEdit.old.stop, oldEdit.new.stop⟩⟩ :: oldEdits
      newEdits := newEdits }
  else
    let newEnd := self.newStart + min oldEdit.newLen newEdit.newLen
    { self.pushTo (self.oldStart + oldEdit.oldLen) newEnd with
      oldEdits := oldEdits
      newEdits := ⟨⟨oldEdit.new.stop, newEdit.old.stop⟩, ⟨newEnd, newEdit.new.stop⟩⟩ :: newEdits }

/-- One pass of the loop. -/
def step (self : Composing) : Composing :=
  match self.oldEdits, self.newEdits with
  | [], [] => self
  | oldEdit :: oldEdits, [] => self.pushOld oldEdit oldEdits
  | [], newEdit :: newEdits => self.pushNew newEdit newEdits
  | oldEdit :: oldEdits, newEdit :: newEdits =>
    if oldEdit.new.stop < newEdit.old.start then self.pushOld oldEdit oldEdits
    else if newEdit.old.stop < oldEdit.new.start then self.pushNew newEdit newEdits
    else
      let (s, oldEdit, newEdit) := self.pushOverlapStart oldEdit newEdit
      s.pushOverlapEnd oldEdit newEdit oldEdits newEdits

/-- The loop. Every pass drops an edit, so there are as many as edits. -/
def loop : Nat → Composing → Composing
  | 0, self => self
  | n + 1, self => loop n self.step

end Composing

/-- The patch that does what this one does and then what the other edits do. -/
def compose (self : Patch) (newEdits : List Edit) : Patch :=
  (Composing.loop (self.length + newEdits.length) ⟨self, newEdits, [], 0, 0⟩).composed

end Patch

end Wu
