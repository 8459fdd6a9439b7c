import Wu.Positions.Position

/-!
# Patches between positions

Patches of offsets or of points. The loop that composes two patches is the same for all of them.
-/

namespace Wu.Positions

universe u

/-- From a position to another one. -/
@[ext] structure Range (T : Type u) where
  start : T
  stop : T
  deriving DecidableEq, Repr

/-- An edit: a range of the old text and the range of the new text in its place. -/
@[ext] structure Edit (T : Type u) where
  old : Range T
  new : Range T
  deriving DecidableEq, Repr

/-- The edits of a patch, in order. -/
abbrev Patch (T : Type u) := List (Edit T)

variable {T : Type u} [LinearOrder T] [Add T] [Sub T] [Position T]

namespace Edit

/-- An edit that replaces nothing by nothing. -/
def isEmpty (self : Edit T) : Bool := self.old.start == self.old.stop && self.new.start == self.new.stop

/-- The length of the old range. -/
def oldLen (self : Edit T) : T := self.old.stop - self.old.start

/-- The length of the new range. -/
def newLen (self : Edit T) : T := self.new.stop - self.new.start

omit [LinearOrder T] [Add T] [Sub T] [Position T] in
/-- The edit from the new text to the old one. -/
def invert (self : Edit T) : Edit T := ⟨self.new, self.old⟩

end Edit

namespace Patch

/-- Add an edit that is not before the last one; an edit that touches the last one is merged into it. -/
def pushMaybeEmpty (self : Patch T) (edit : Edit T) : Patch T :=
  match self.getLast? with
  | some last =>
    if last.old.stop ≥ edit.old.start then
      self.dropLast ++ [⟨⟨last.old.start, edit.old.stop⟩, ⟨last.new.start, edit.new.stop⟩⟩]
    else self ++ [edit]
  | none => [edit]

/-- Add an edit, unless it is empty. -/
def push (self : Patch T) (edit : Edit T) : Patch T := if edit.isEmpty then self else pushMaybeEmpty self edit

/-- The patch from the new text to the old one. -/
def invert (self : Patch T) : Patch T := self.map Edit.invert

end Patch

/-- The state of the loop of `compose`: the edits left on both sides, the patch so far and where it ends. -/
structure Composing (T : Type u) where
  oldEdits : List (Edit T)
  newEdits : List (Edit T)
  composed : Patch T
  oldStart : T
  newStart : T

namespace Composing

/-- The ends move by a distance that both texts share. -/
def catchUp (self : Composing T) (catchup : T) : Composing T :=
  { self with oldStart := self.oldStart + catchup, newStart := self.newStart + catchup }

/-- An edit up to the two positions becomes part of the patch. -/
def pushTo (self : Composing T) (oldEnd newEnd : T) : Composing T :=
  { self with
    composed := Patch.push self.composed ⟨⟨self.oldStart, oldEnd⟩, ⟨self.newStart, newEnd⟩⟩
    oldStart := oldEnd
    newStart := newEnd }

/-- The old edit ends before the new one starts. -/
def pushOld (self : Composing T) (oldEdit : Edit T) (oldEdits : List (Edit T)) : Composing T :=
  let s := self.catchUp (oldEdit.old.start - self.oldStart)
  { s.pushTo (s.oldStart + oldEdit.oldLen) (s.newStart + oldEdit.newLen) with oldEdits := oldEdits }

/-- The new edit ends before the old one starts. -/
def pushNew (self : Composing T) (newEdit : Edit T) (newEdits : List (Edit T)) : Composing T :=
  let s := self.catchUp (newEdit.new.start - self.newStart)
  { s.pushTo (s.oldStart + newEdit.oldLen) (s.newStart + newEdit.newLen) with newEdits := newEdits }

/-- The edits intersect: the one that starts first is pushed up to the start of the other one. -/
def pushOverlapStart (self : Composing T) (oldEdit newEdit : Edit T) : Composing T × Edit T × Edit T :=
  if oldEdit.new.start < newEdit.old.start then
    let s := self.catchUp (oldEdit.old.start - self.oldStart)
    let overshoot := newEdit.old.start - oldEdit.new.start
    let oldEnd := min (s.oldStart + overshoot) oldEdit.old.stop
    (s.pushTo oldEnd (s.newStart + overshoot),
      ⟨⟨oldEnd, oldEdit.old.stop⟩, ⟨oldEdit.new.start + overshoot, oldEdit.new.stop⟩⟩, newEdit)
  else
    let s := self.catchUp (newEdit.new.start - self.newStart)
    let overshoot := oldEdit.new.start - newEdit.old.start
    let newEnd := min (s.newStart + overshoot) newEdit.new.stop
    (s.pushTo (s.oldStart + overshoot) newEnd, oldEdit,
      ⟨⟨newEdit.old.start + overshoot, newEdit.old.stop⟩, ⟨newEnd, newEdit.new.stop⟩⟩)

/-- The edit that ends first is pushed and dropped; the other one goes on from there. -/
def pushOverlapEnd (self : Composing T) (oldEdit newEdit : Edit T) (oldEdits newEdits : List (Edit T)) : Composing T :=
  if oldEdit.new.stop > newEdit.old.stop then
    let oldEnd := self.oldStart + min oldEdit.oldLen newEdit.oldLen
    { self.pushTo oldEnd (self.newStart + newEdit.newLen) with
      oldEdits := ⟨⟨oldEnd, oldEdit.old.stop⟩, ⟨newEdit.old.stop, oldEdit.new.stop⟩⟩ :: oldEdits
      newEdits := newEdits }
  else
    let newEnd := self.newStart + min oldEdit.newLen newEdit.newLen
    { self.pushTo (self.oldStart + oldEdit.oldLen) newEnd with
      oldEdits := oldEdits
      newEdits := ⟨⟨oldEdit.new.stop, newEdit.old.stop⟩, ⟨newEnd, newEdit.new.stop⟩⟩ :: newEdits }

/-- A turn for two edits that intersect. -/
def pushOverlap (self : Composing T) (oldEdit newEdit : Edit T) (oldEdits newEdits : List (Edit T)) : Composing T :=
  let (s, oldEdit, newEdit) := self.pushOverlapStart oldEdit newEdit
  s.pushOverlapEnd oldEdit newEdit oldEdits newEdits

/-- A turn of the loop. -/
def step (self : Composing T) : Composing T :=
  match self.oldEdits, self.newEdits with
  | [], [] => self
  | oldEdit :: oldEdits, [] => self.pushOld oldEdit oldEdits
  | [], newEdit :: newEdits => self.pushNew newEdit newEdits
  | oldEdit :: oldEdits, newEdit :: newEdits =>
    if oldEdit.new.stop < newEdit.old.start then self.pushOld oldEdit oldEdits
    else if newEdit.old.stop < oldEdit.new.start then self.pushNew newEdit newEdits
    else self.pushOverlap oldEdit newEdit oldEdits newEdits

/-- How many edits are left. -/
def size (self : Composing T) : Nat := self.oldEdits.length + self.newEdits.length

/-- A number of turns. Each one drops an edit, so there are as many as edits. -/
def loop : Nat → Composing T → Composing T
  | 0, self => self
  | n + 1, self => loop n self.step

end Composing

namespace Patch

/-- The patch that does what this one does and then what the other edits do. -/
def compose (self : Patch T) (newEdits : List (Edit T)) : Patch T :=
  (Composing.loop (self.length + newEdits.length) ⟨self, newEdits, [], Position.zero, Position.zero⟩).composed

/-- The last edit that starts at the position or before it. -/
def lastBefore (self : Patch T) (old : T) : Option (Edit T) := (self.takeWhile fun edit => edit.old.start ≤ old).getLast?

/-- Where a position of the old text is in the new one. -/
def oldToNew (self : Patch T) (old : T) : T :=
  match self.lastBefore old with
  | none => old
  | some edit => if old ≥ edit.old.stop then edit.new.stop + (old - edit.old.stop) else edit.new.start

/-- The edit that touches a position of the old text; an empty one at the position and where it is in the new text when none
does. -/
def editForOldPosition (self : Patch T) (old : T) : Edit T :=
  match self.lastBefore old with
  | none => ⟨⟨old, old⟩, ⟨old, old⟩⟩
  | some edit =>
    if old > edit.old.stop then
      let translated := edit.new.stop + (old - edit.old.stop)
      ⟨⟨old, old⟩, ⟨translated, translated⟩⟩
    else edit

end Patch

end Wu.Positions
