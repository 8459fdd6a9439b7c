import Wu.BufferDiff.EditsSince
import Wu.Positions.Window

/-!
# Patches between the buffer and the base text

The patch of a range is composed from the hunks and the later edits of a window around the range. The range may be any points;
an anchor of the buffer the diff was computed for is its offset. The tree of the hunks is a list, and its cursor has the hunks it
has passed, the last one first.
-/

namespace Wu.BufferDiff

open Positions.Patch

open Positions (Range prefixEdit pointOf)

/-- What the tree of the hunks sums up. -/
structure DiffHunkSummary where
  bufferRange : Span
  diffBaseByteRange : Span
  deriving DecidableEq, Repr

/-- The summary of a hunk. -/
def InternalDiffHunk.summary (self : InternalDiffHunk) : DiffHunkSummary := ⟨self.bufferRange, self.diffBaseByteRange⟩

namespace DiffHunkSummary

/-- Before the first hunk. -/
def zero : DiffHunkSummary := ⟨⟨0, 0⟩, ⟨0, 0⟩⟩

/-- From the first start to the last end. -/
def addSummary (self other : DiffHunkSummary) : DiffHunkSummary where
  bufferRange :=
    ⟨min self.bufferRange.start other.bufferRange.start, max self.bufferRange.stop other.bufferRange.stop⟩
  diffBaseByteRange :=
    ⟨min self.diffBaseByteRange.start other.diffBaseByteRange.start, max self.diffBaseByteRange.stop other.diffBaseByteRange.stop⟩

end DiffHunkSummary

/-- How the target of a seek compares to a location of the cursor: an anchor to its range of the buffer, an offset of the base
text to its range of the base text. -/
def cmpTarget (range : Span) (target : Nat) : Ordering :=
  if target < range.start then .lt else if target > range.stop then .gt else .eq

/-- The cursor of the tree of the hunks. -/
structure HunkCursor where
  passed : List InternalDiffHunk
  rest : List InternalDiffHunk
  beforeFirst : Bool
  deriving DecidableEq, Repr

namespace HunkCursor

/-- The hunk at the cursor. -/
def item (self : HunkCursor) : Option InternalDiffHunk := if self.beforeFirst then none else self.rest.head?

/-- The hunk before the cursor. -/
def prevItem (self : HunkCursor) : Option InternalDiffHunk := self.passed.head?

/-- Move on to the next hunk. -/
def next (self : HunkCursor) : HunkCursor :=
  if self.beforeFirst then { self with beforeFirst := false }
  else match self.rest with
    | [] => self
    | hunk :: rest => ⟨hunk :: self.passed, rest, false⟩

/-- Move back to the hunk before. The cursor of an empty tree stays at its end. -/
def prev (self : HunkCursor) : HunkCursor :=
  match self.passed with
  | hunk :: passed => ⟨passed, hunk :: self.rest, false⟩
  | [] => { self with beforeFirst := !self.rest.isEmpty }

/-- Seek from a position of the cursor: on over the hunks that end before the target. -/
def seekForward (cmp : DiffHunkSummary → Ordering) (position : DiffHunkSummary) (passed : List InternalDiffHunk) :
    List InternalDiffHunk → HunkCursor
  | [] => ⟨passed, [], false⟩
  | hunk :: rest =>
    let childEnd := position.addSummary hunk.summary
    if cmp childEnd = .gt then seekForward cmp childEnd (hunk :: passed) rest else ⟨passed, hunk :: rest, false⟩

/-- Move on to the first hunk from before it. -/
def started (self : HunkCursor) : HunkCursor := if self.item.isNone then self.next else self

/-- The hunks from the cursor on, as long as they are in the window. -/
def takeWhile (self : HunkCursor) (p : InternalDiffHunk → Bool) : List InternalDiffHunk :=
  if self.beforeFirst then [] else self.rest.takeWhile p

end HunkCursor

/-- The last hunk that does not start behind a position, and the cursor at it. -/
def hunkBefore (range : DiffHunkSummary → Span) (target : Nat) (hunks : List InternalDiffHunk) :
    Option InternalDiffHunk × HunkCursor :=
  let cursor := HunkCursor.seekForward (fun location => cmpTarget (range location) target) .zero [] hunks
  let cursor := if cursor.item.all fun hunk => target < (range hunk.summary).start then cursor.prev else cursor
  (cursor.item.filter fun hunk => target ≥ (range hunk.summary).start, cursor)

/-- Where the window of a range of the buffer starts: at the range or at the first edit. -/
def windowStart (editsSinceDiff : Positions.Patch Point) (start : Point) : Point :=
  let startPoint := oldToNew editsSinceDiff start
  match editsSinceDiff.head? with
  | some firstEdit => min startPoint firstEdit.new.start
  | none => startPoint

/-- Where the window ends: at the range or at the last edit. -/
def windowEnd (editsSinceDiff : Positions.Patch Point) (stop : Point) : Point :=
  let rangeEnd := oldToNew editsSinceDiff stop
  match editsSinceDiff.getLast? with
  | some lastEdit => max rangeEnd lastEdit.new.stop
  | none => rangeEnd

namespace BufferDiffSnapshot

/-- By offsets of the base text. -/
def hunkBeforeBaseTextOffset (self : BufferDiffSnapshot) (target : Nat) : Option InternalDiffHunk × HunkCursor :=
  hunkBefore (·.diffBaseByteRange) target self.hunks

/-- By anchors of the buffer. -/
def hunkBeforeBufferAnchor (self : BufferDiffSnapshot) (target : Nat) : Option InternalDiffHunk × HunkCursor :=
  hunkBefore (·.bufferRange) target self.hunks

variable (self : BufferDiffSnapshot) (range : Range Point) (point : Point) (buffer : List SinceFragment)

/-- A patch from the buffer to the base text that is exact for the points of the range. -/
def patchForBufferRange : Positions.Patch Point :=
  if !self.baseTextExists then [⟨⟨RowColumn.zero, maxPoint (newText buffer)⟩, ⟨RowColumn.zero, RowColumn.zero⟩⟩]
  else
    let original := oldText buffer
    let editsSinceDiff := invert (editsSince buffer)
    let startPoint := windowStart editsSinceDiff range.start
    let cursor := (self.hunkBeforeBufferAnchor (pointToOffset original startPoint)).2.started
    let prefixEdits := cursor.prevItem.map fun prevHunk => prefixEdit (prevHunk.edit self.baseText original).invert
    let rangeEnd := pointToOffset original (windowEnd editsSinceDiff range.stop)
    let hunks := cursor.takeWhile fun hunk => hunk.bufferRange.start ≤ rangeEnd
    compose editsSinceDiff (prefixEdits.toList ++ hunks.map fun hunk => (hunk.edit self.baseText original).invert)

/-- The patch from the buffer to the base text, from all hunks. -/
def patchForBufferRangeNaive : Positions.Patch Point :=
  compose (invert (editsSince buffer)) ((self.hunks.map fun hunk => (hunk.edit self.baseText (oldText buffer)).invert) ++
      if !self.baseTextExists && self.hunks.isEmpty then
        [⟨⟨RowColumn.zero, maxPoint (oldText buffer)⟩, ⟨RowColumn.zero, RowColumn.zero⟩⟩]
      else [])

/-- The cursor where the window of a range of the base text starts. When the first edit is before the hunk, the window starts at
the edit. -/
def baseWindowCursor (self : BufferDiffSnapshot) (target : Nat) (buffer : List SinceFragment) : HunkCursor :=
  let (found, cursor) := self.hunkBeforeBaseTextOffset target
  match found, (editsSince buffer).head? with
  | some hunk, some firstEdit =>
    if offsetToPoint (oldText buffer) hunk.bufferRange.start > firstEdit.old.start then
      (self.hunkBeforeBufferAnchor (pointToOffset (oldText buffer) firstEdit.old.start)).2
    else cursor
  | _, _ => cursor

/-- A patch from the base text to the buffer that is exact for the points of the range. -/
def patchForBaseTextRange : Positions.Patch Point :=
  if !self.baseTextExists then [⟨⟨RowColumn.zero, RowColumn.zero⟩, ⟨RowColumn.zero, maxPoint (newText buffer)⟩⟩]
  else
    let original := oldText buffer
    let editsSinceDiff := editsSince buffer
    let cursor := (self.baseWindowCursor (pointToOffset self.baseText range.start) buffer).started
    let prefixEdits := cursor.prevItem.map fun prevHunk => prefixEdit (prevHunk.edit self.baseText original)
    let rangeEnd := pointToOffset self.baseText range.stop
    let hunks := cursor.takeWhile fun hunk =>
      hunk.diffBaseByteRange.start ≤ rangeEnd ||
        editsSinceDiff.getLast?.any fun lastEdit => offsetToPoint original hunk.bufferRange.start ≤ lastEdit.old.stop
    compose (prefixEdits.toList ++ hunks.map fun hunk => hunk.edit self.baseText original) editsSinceDiff

/-- The patch from the base text to the buffer, from all hunks. -/
def patchForBaseTextRangeNaive : Positions.Patch Point :=
  compose ((self.hunks.map fun hunk => hunk.edit self.baseText (oldText buffer)) ++ if !self.baseTextExists && self.hunks.isEmpty then
        [⟨⟨RowColumn.zero, RowColumn.zero⟩, ⟨RowColumn.zero, maxPoint (oldText buffer)⟩⟩]
      else [])
    (editsSince buffer)

/-- The range of the base text that a point of the buffer is for. -/
def bufferPointToBaseTextRange : Range Point :=
  (editForOldPosition (self.patchForBufferRange ⟨point, point⟩ buffer) point).new

/-- The range of the buffer that a point of the base text is for. -/
def baseTextPointToBufferRange : Range Point :=
  (editForOldPosition (self.patchForBaseTextRange ⟨point, point⟩ buffer) point).new

/-- The point of the base text that a point of the buffer is for. -/
def bufferPointToBaseTextPoint : Point :=
  pointOf (editForOldPosition (self.patchForBufferRange ⟨point, point⟩ buffer) point) point

/-- The point of the buffer that a point of the base text is for. -/
def baseTextPointToBufferPoint : Point :=
  pointOf (editForOldPosition (self.patchForBaseTextRange ⟨point, point⟩ buffer) point) point

end BufferDiffSnapshot

end Wu.BufferDiff
