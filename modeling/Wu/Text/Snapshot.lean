import Wu.Text.Fragment

/-!
# Snapshots of a buffer

The loops that rebuild the fragments: a local edit, the edit of another replica, and an undo.
-/

namespace Wu

/-- The state of a buffer that its replicas agree on. -/
structure BufferSnapshot where
  visibleText : Text
  deletedText : Text
  fragments : List Fragment
  insertions : List InsertionFragment
  insertionSlices : List InsertionSlice
  undoMap : UndoMap
  version : Global
  deriving Repr

/-! ## Positions among fragments -/

instance : FragmentDimension FragmentTextSummary where
  zero := FragmentTextSummary.zero
  add := FragmentTextSummary.add

/-- A position among the fragments that a version has observed, and the position in the visible text. -/
structure VersionedFullOffset (version : Global) where
  fullOffset : Nat
  visible : Nat
  deriving Repr

instance (version : Global) : FragmentDimension (VersionedFullOffset version) where
  zero := ⟨0, 0⟩
  add position fragment :=
    { fullOffset := position.fullOffset + if version.observed fragment.timestamp then fragment.len else 0
      visible := position.visible + (FragmentTextSummary.ofFragment fragment).visible }

/-- The id of the last fragment before a position, and the position in the visible text. -/
structure LocatorPosition where
  locator : Option Locator
  visible : Nat
  deriving Repr

instance : FragmentDimension LocatorPosition where
  zero := ⟨none, 0⟩
  add position fragment :=
    { locator := some fragment.id
      visible := position.visible + (FragmentTextSummary.ofFragment fragment).visible }

/-- Whether a position is before the fragment with an id. -/
def LocatorPosition.before (fragmentId : Locator) (position : LocatorPosition) : Bool :=
  match position.locator with
  | some locator => locator < fragmentId
  | none => true

namespace BufferSnapshot

/-- What a loop starts with. -/
def rebuild (self : BufferSnapshot) : Rebuild :=
  { fragments := []
    ropes := ⟨self.visibleText, self.deletedText, [], []⟩
    insertions := []
    slices := []
    insertionOffset := 0
    patch := [] }

/-- A loop's state at the first fragment that a target does not pass. -/
def seek {D : Type} [FragmentDimension D] (self : BufferSnapshot) (offset : D → Nat) (passes : D → Bool) : EditState D :=
  let (slice, cursor) := (FragmentsCursor.new self.fragments : FragmentsCursor D).slice passes
  { oldFragments := cursor, fragmentStart := offset cursor.start, new := self.rebuild.append slice }

/-- The snapshot with what a loop has built. -/
def rebuilt (self : BufferSnapshot) (new : Rebuild) : BufferSnapshot :=
  let (visibleText, deletedText) := new.ropes.finish
  { self with
    visibleText := visibleText
    deletedText := deletedText
    fragments := new.fragments
    insertions := KeyedList.edit InsertionFragment.key new.insertions self.insertions
    insertionSlices := KeyedList.edit InsertionSlice.key new.slices self.insertionSlices }

/-! ## Local edits -/

/-- Insert the new text before any existing fragments within the range. -/
def insertLocal (timestamp : Lamport) (newText : Text) (st : EditState FragmentTextSummary) : EditState FragmentTextSummary :=
  if newText ≠ [] then
    let newStart := st.new.visibleLen
    let new := pushFragmentsForInsertion newText timestamp st.nextFragmentId st.new
    { st with
      new := new.pushEdit ⟨⟨st.fragmentStart, st.fragmentStart⟩, ⟨newStart, newStart + newText.length⟩⟩ }
  else st

/-- Advance through every fragment that intersects this range, marking the intersecting portions as deleted. There is a
fragment as long as the range has not been passed; past its last fragment the source would fail. -/
def deleteLocal (timestamp : Lamport) (rangeEnd : Nat) :
    List Fragment → FragmentTextSummary → Nat → Rebuild → EditState FragmentTextSummary
  | [], start, fragmentStart, new => ⟨⟨start, []⟩, fragmentStart, new⟩
  | fragment :: rest, start, fragmentStart, new =>
    if fragmentStart < rangeEnd then
      let fragmentEnd := (start.add fragment).visible
      let intersectionEnd := min rangeEnd fragmentEnd
      let intersection :=
        if fragment.visible then
          { fragment.part (fragmentStart - start.visible) (intersectionEnd - fragmentStart) with
            id := Locator.between new.maxId fragment.id
            deletions := fragment.deletions ++ [timestamp]
            visible := false }
        else fragment
      let (fragmentStart, new) :=
        if intersection.len > 0 then
          let new :=
            if fragment.visible && !intersection.visible then
              (new.pushEdit ⟨⟨fragmentStart, intersectionEnd⟩, ⟨new.visibleLen, new.visibleLen⟩⟩).pushSlice
                (InsertionSlice.fromFragment timestamp intersection)
            else new
          (intersectionEnd, new.pushFragment intersection fragment.visible)
        else (fragmentStart, new)
      -- a fragment that reaches past the range ends the loop
      if fragmentEnd ≤ rangeEnd then deleteLocal timestamp rangeEnd rest (start.add fragment) fragmentStart new
      else ⟨⟨start, fragment :: rest⟩, fragmentStart, new⟩
    else ⟨⟨start, fragment :: rest⟩, fragmentStart, new⟩

/-- One edit of a local operation, with its range among all fragments. -/
def editLocal (timestamp : Lamport) (st : EditState FragmentTextSummary) (range : Span) (newText : Text) :
    EditState FragmentTextSummary × Span :=
  let st := st.jumpAhead (·.visible) (fun stop => stop.visible ≤ range.start) range.start
  let fullRangeStart := range.start + st.oldFragments.start.deleted
  let st := st.pushPrefix (·.visible) range.start
  let st := insertLocal timestamp newText st
  let st := deleteLocal timestamp range.stop st.oldFragments.rest st.oldFragments.start st.fragmentStart st.new
  (st, ⟨fullRangeStart, range.stop + st.oldFragments.start.deleted⟩)

/-- The loop over the edits of a local operation; the new texts have been normalized. -/
def editsLocal (timestamp : Lamport) : List (Span × Text) → EditState FragmentTextSummary → EditState FragmentTextSummary × List Span
  | [], st => (st, [])
  | (range, newText) :: edits, st =>
    let (st, fullRange) := editLocal timestamp st range newText
    let (st, fullRanges) := editsLocal timestamp edits st
    (st, fullRange :: fullRanges)

/-- Apply edits, with their ranges in the visible text. -/
def applyEditInternal (self : BufferSnapshot) (edits : List (Span × Text)) (timestamp : Lamport) :
    BufferSnapshot × EditOperation × Patch :=
  match edits with
  | [] => (self, ⟨timestamp, self.version, [], []⟩, [])
  | (range, _) :: _ =>
    let normalized := edits.map fun edit => (edit.1, Text.normalize edit.2)
    let st : EditState FragmentTextSummary := self.seek (·.visible) fun stop => stop.visible ≤ range.start
    let (st, fullRanges) := editsLocal timestamp normalized st
    let new := st.finish (·.visible)
    (self.rebuilt new, ⟨timestamp, self.version, fullRanges, normalized.map (·.2)⟩, new.patch)

/-! ## Edits of other replicas -/

section Remote

variable (version : Global) (timestamp : Lamport)

/-- If we are at the end of a non-concurrent fragment, advance to the next one. -/
def finishNonConcurrent (rangeStart : Nat) (st : EditState (VersionedFullOffset version)) : EditState (VersionedFullOffset version) :=
  let start := st.oldFragments.start.fullOffset
  let fragmentEnd := st.oldFragments.stop.fullOffset
  if fragmentEnd = rangeStart ∧ fragmentEnd > st.fragmentStart then
    match st.oldFragments.item with
    | some fragment =>
      let fragment := fragment.part (st.fragmentStart - start) (fragmentEnd - st.fragmentStart)
      { oldFragments := st.oldFragments.next
        fragmentStart := st.oldFragments.next.start.fullOffset
        new := st.new.pushFragment fragment fragment.visible }
    | none => st
  else st

/-- Skip over insertions that are concurrent to this edit, but have a higher lamport timestamp. -/
def skipConcurrent (rangeStart : Nat) :
    List Fragment → VersionedFullOffset version → Nat → Rebuild → EditState (VersionedFullOffset version)
  | [], start, fragmentStart, new => ⟨⟨start, []⟩, fragmentStart, new⟩
  | fragment :: rest, start, fragmentStart, new =>
    if fragmentStart = rangeStart ∧ fragment.timestamp > timestamp then
      skipConcurrent rangeStart rest (FragmentDimension.add start fragment) fragmentStart (new.pushOld fragment)
    else ⟨⟨start, fragment :: rest⟩, fragmentStart, new⟩

/-- Insert the new text before any existing fragments within the range. -/
def insertRemote (newText : Text) (st : EditState (VersionedFullOffset version)) : EditState (VersionedFullOffset version) :=
  if newText ≠ [] then
    let start := st.oldFragments.start
    let oldStart :=
      match st.oldFragments.item with
      | some fragment => if fragment.visible then start.visible + (st.fragmentStart - start.fullOffset) else start.visible
      | none => start.visible
    let newStart := st.new.visibleLen
    let new := pushFragmentsForInsertion newText timestamp st.nextFragmentId st.new
    { st with new := new.pushEdit ⟨⟨oldStart, oldStart⟩, ⟨newStart, newStart + newText.length⟩⟩ }
  else st

/-- Advance through every fragment that intersects this range, marking the intersecting portions as deleted. There is a
fragment as long as the range has not been passed; past its last fragment the source would fail. -/
def deleteRemote (undoMap : UndoMap) (rangeEnd : Nat) :
    List Fragment → VersionedFullOffset version → Nat → Rebuild → EditState (VersionedFullOffset version)
  | [], start, fragmentStart, new => ⟨⟨start, []⟩, fragmentStart, new⟩
  | fragment :: rest, start, fragmentStart, new =>
    if fragmentStart < rangeEnd then
      let stop : VersionedFullOffset version := FragmentDimension.add start fragment
      let fragmentEnd := stop.fullOffset
      let intersectionEnd := min rangeEnd fragmentEnd
      let wasVisible := fragment.wasVisible version undoMap
      let intersection :=
        if version.observed fragment.timestamp then
          let part :=
            { fragment.part (fragmentStart - start.fullOffset) (intersectionEnd - fragmentStart) with
              id := Locator.between new.maxId fragment.id }
          if wasVisible then { part with deletions := part.deletions ++ [timestamp], visible := false } else part
        else fragment
      let new :=
        if version.observed fragment.timestamp && wasVisible then
          new.pushSlice (InsertionSlice.fromFragment timestamp intersection)
        else new
      let (fragmentStart, new) :=
        if intersection.len > 0 then
          let new :=
            if fragment.visible && !intersection.visible then
              let oldStart := start.visible + (fragmentStart - start.fullOffset)
              new.pushEdit ⟨⟨oldStart, oldStart + intersection.len⟩, ⟨new.visibleLen, new.visibleLen⟩⟩
            else new
          (intersectionEnd, new.pushFragment intersection fragment.visible)
        else (fragmentStart, new)
      -- a fragment that reaches past the range ends the loop
      if fragmentEnd ≤ rangeEnd then deleteRemote undoMap rangeEnd rest stop fragmentStart new
      else ⟨⟨start, fragment :: rest⟩, fragmentStart, new⟩
    else ⟨⟨start, fragment :: rest⟩, fragmentStart, new⟩

/-- One range of an edit operation. -/
def editRemote (undoMap : UndoMap) (st : EditState (VersionedFullOffset version)) (range : Span) (newText : Text) :
    EditState (VersionedFullOffset version) :=
  let st := st.jumpAhead (·.fullOffset) (fun stop => stop.fullOffset < range.start) range.start
  let st := finishNonConcurrent version range.start st
  let st := skipConcurrent version timestamp range.start st.oldFragments.rest st.oldFragments.start st.fragmentStart st.new
  let st := st.pushPrefix (·.fullOffset) range.start
  let st := insertRemote version timestamp newText st
  deleteRemote version timestamp undoMap range.stop st.oldFragments.rest st.oldFragments.start st.fragmentStart st.new

/-- The loop over the ranges of an edit operation. -/
def editsRemote (undoMap : UndoMap) :
    List (Span × Text) → EditState (VersionedFullOffset version) → EditState (VersionedFullOffset version)
  | [], st => st
  | (range, newText) :: edits, st => editsRemote undoMap edits (editRemote version timestamp undoMap st range newText)

end Remote

/-- Apply an edit operation, with its ranges among what its version has observed. -/
def applyRemoteEdit (self : BufferSnapshot) (version : Global) (ranges : List Span) (newText : List Text)
    (timestamp : Lamport) : BufferSnapshot × Patch :=
  match ranges with
  | [] => (self, [])
  | range :: _ =>
    let st : EditState (VersionedFullOffset version) :=
      self.seek (·.fullOffset) fun stop => stop.fullOffset < range.start
    let st := editsRemote version timestamp self.undoMap (ranges.zip newText) st
    let new := st.finish (·.fullOffset)
    (self.rebuilt new, new.patch)

/-! ## Undos -/

/-- The slices of an edit. -/
def slicesOf (self : BufferSnapshot) (editId : Lamport) : List InsertionSlice :=
  let slices := KeyedList.iterFrom InsertionSlice.key (toLex (editId, toLex (Lamport.min, toLex (0, 0)))) self.insertionSlices
  slices.takeWhile fun slice => slice.editId = editId

/-- Slices in the order of the insertions, the ones with the larger range first. -/
def SliceLe (a b : InsertionSlice) : Prop :=
  a.insertionId < b.insertionId ∨ a.insertionId = b.insertionId ∧
    (a.range.start < b.range.start ∨ a.range.start = b.range.start ∧ b.range.stop ≤ a.range.stop)

instance : DecidableRel SliceLe := fun a b => by unfold SliceLe; infer_instance

/-- The entries that the cursor over the insertions passes, and the ones from its item on. -/
structure InsertionsCursor where
  start : Lex (Lamport × Nat)
  rest : List InsertionFragment

namespace InsertionsCursor

/-- Seek to an entry. -/
def seekForward (target : Lex (Lamport × Nat)) : List InsertionFragment → Lex (Lamport × Nat) → InsertionsCursor
  | item :: rest, start =>
    if item.key < target then seekForward target rest item.key else ⟨start, item :: rest⟩
  | [], start => ⟨start, []⟩

/-- The fragments of a slice. -/
def collect (slice : InsertionSlice) : List InsertionFragment → Lex (Lamport × Nat) → List Locator × InsertionsCursor
  | item :: rest, start =>
    if item.timestamp ≠ slice.insertionId ∨ item.splitOffset ≥ slice.range.stop then ([], ⟨start, item :: rest⟩)
    else
      let (ids, cursor) := collect slice rest item.key
      (item.fragmentId :: ids, cursor)
  | [], start => ([], ⟨start, []⟩)

/-- The fragments of the slices. -/
def fragmentIds : List InsertionSlice → InsertionsCursor → List Locator
  | [], _ => []
  | slice :: slices, cursor =>
    let cursor :=
      if slice.insertionId ≠ (ofLex cursor.start).1 ∨ slice.range.start > (ofLex cursor.start).2 then
        seekForward (toLex (slice.insertionId, slice.range.start)) cursor.rest cursor.start
      else cursor
    let (ids, cursor) := collect slice cursor.rest cursor.start
    ids ++ fragmentIds slices cursor

end InsertionsCursor

/-- The fragments that edits inserted or deleted. -/
def fragmentIdsForEdits (self : BufferSnapshot) (editIds : List Lamport) : List Locator :=
  let slices := (editIds.flatMap self.slicesOf).insertionSort SliceLe
  let ids := InsertionsCursor.fragmentIds slices ⟨toLex (Lamport.min, 0), self.insertions⟩
  ids.insertionSort (· ≤ ·)

/-- The fragment with an id is shown or hidden as the undo map says. -/
def undoFragment (undo : UndoOperation) (undoMap : UndoMap) (fragmentId : Locator)
    (old : FragmentsCursor LocatorPosition) (new : Rebuild) : FragmentsCursor LocatorPosition × Rebuild :=
  let (preceding, old) := old.slice (LocatorPosition.before fragmentId)
  let new := new.append preceding
  match old.item with
  | some fragment =>
    let fragment' :=
      { fragment with
        visible := fragment.isVisible undoMap
        maxUndos := fragment.maxUndos.observe undo.timestamp }
    let oldStart := old.start.visible
    let newStart := new.visibleLen
    let new :=
      if fragment.visible && !fragment'.visible then
        new.pushEdit ⟨⟨oldStart, oldStart + fragment'.len⟩, ⟨newStart, newStart⟩⟩
      else if !fragment.visible && fragment'.visible then
        new.pushEdit ⟨⟨oldStart, oldStart⟩, ⟨newStart, newStart + fragment'.len⟩⟩
      else new
    let new :=
      { new with
        fragments := new.fragments ++ [fragment']
        ropes := new.ropes.pushFragment fragment' fragment.visible }
    (old.next, new)
  | none => (old, new)

/-- The loop over the fragments of an undo. -/
def undoLoop (undo : UndoOperation) (undoMap : UndoMap) :
    List Locator → FragmentsCursor LocatorPosition → Rebuild → FragmentsCursor LocatorPosition × Rebuild
  | [], old, new => (old, new)
  | fragmentId :: fragmentIds, old, new =>
    let (old, new) := undoFragment undo undoMap fragmentId old new
    undoLoop undo undoMap fragmentIds old new

/-- Apply an undo operation. -/
def applyUndo (self : BufferSnapshot) (undo : UndoOperation) : BufferSnapshot × Patch :=
  let self := { self with undoMap := self.undoMap.insert undo }
  let fragmentIds := self.fragmentIdsForEdits (undo.counts.map (·.1))
  let (old, new) := undoLoop undo self.undoMap fragmentIds (FragmentsCursor.new self.fragments) self.rebuild
  let new := new.append old.rest
  let (visibleText, deletedText) := new.ropes.finish
  ({ self with visibleText := visibleText, deletedText := deletedText, fragments := new.fragments }, new.patch)

end BufferSnapshot

end Wu
