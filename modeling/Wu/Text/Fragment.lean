import Wu.Text.Locator
import Wu.Text.Patch

/-!
# Fragments

A fragment is a part of the text of an insertion, with the edits that deleted it. `Rebuild` holds what the loops over the
fragments build: the new fragments, the new texts, and the entries for the other structures of a snapshot. `EditState` is
the state of such a loop: the cursor over the old fragments, how much of its fragment has been used, and what has been built.
The trees of fragments are lists here; the cursors over them are the list cursors that the tree cursors refine.
-/

namespace Wu

/-- A part of the text of an insertion. -/
structure Fragment where
  id : Locator
  timestamp : Lamport
  insertionOffset : Nat
  len : Nat
  visible : Bool
  deletions : List Lamport
  maxUndos : Global
  deriving DecidableEq, Repr

/-- The lengths of the visible and of the deleted text. -/
@[ext] structure FragmentTextSummary where
  visible : Nat
  deleted : Nat
  deriving DecidableEq, Repr

/-- Where the fragment of a part of an insertion is. -/
structure InsertionFragment where
  timestamp : Lamport
  splitOffset : Nat
  fragmentId : Locator
  deriving DecidableEq, Repr

/-- A part of an insertion that an edit inserted or deleted. -/
structure InsertionSlice where
  editId : Lamport
  insertionId : Lamport
  range : Span
  deriving DecidableEq, Repr

/-- Entries are sorted by the insertion and then by the offset in it. -/
def InsertionFragment.key (self : InsertionFragment) : Lex (Lamport × Nat) := toLex (self.timestamp, self.splitOffset)

/-- Slices are sorted by the edit, the insertion and the range. -/
def InsertionSlice.key (self : InsertionSlice) : Lex (Lamport × Lex (Lamport × Lex (Nat × Nat))) :=
  toLex (self.editId, toLex (self.insertionId, toLex (self.range.start, self.range.stop)))

/-- The entry of a fragment. -/
def InsertionFragment.new (fragment : Fragment) : InsertionFragment :=
  ⟨fragment.timestamp, fragment.insertionOffset, fragment.id⟩

/-- The slice of a fragment that an edit inserts or deletes. -/
def InsertionSlice.fromFragment (editId : Lamport) (fragment : Fragment) : InsertionSlice :=
  ⟨editId, fragment.timestamp, ⟨fragment.insertionOffset, fragment.insertionOffset + fragment.len⟩⟩

namespace FragmentTextSummary

/-- No text. -/
def zero : FragmentTextSummary := ⟨0, 0⟩

/-- The text of a fragment. -/
def ofFragment (fragment : Fragment) : FragmentTextSummary :=
  if fragment.visible then ⟨fragment.len, 0⟩ else ⟨0, fragment.len⟩

/-- Add the text of a fragment. -/
def add (self : FragmentTextSummary) (fragment : Fragment) : FragmentTextSummary :=
  ⟨self.visible + (ofFragment fragment).visible, self.deleted + (ofFragment fragment).deleted⟩

/-- The text of fragments. -/
def ofFragments (fragments : List Fragment) : FragmentTextSummary := fragments.foldl add zero

end FragmentTextSummary

namespace Fragment

/-- Whether the fragment is in the text: its insertion is not undone, and every deletion is. -/
def isVisible (self : Fragment) (undos : UndoMap) : Bool :=
  !UndoMap.isUndone undos self.timestamp && self.deletions.all fun d => UndoMap.isUndone undos d

/-- Whether the fragment was in the text at a version. -/
def wasVisible (self : Fragment) (version : Global) (undos : UndoMap) : Bool :=
  (version.observed self.timestamp && !UndoMap.wasUndone undos self.timestamp version) &&
    self.deletions.all fun d => !version.observed d || UndoMap.wasUndone undos d version

/-- The part of a fragment at an offset in it. -/
def part (self : Fragment) (offset len : Nat) : Fragment :=
  { self with len := len, insertionOffset := self.insertionOffset + offset }

end Fragment

/-! ## Cursors over fragments -/

/-- A cursor over the fragments: its position, and the fragments from its item on. -/
structure FragmentsCursor (D : Type) where
  start : D
  rest : List Fragment
  deriving Repr

/-- A position among fragments, and how a fragment moves it. -/
class FragmentDimension (D : Type) where
  zero : D
  add : D → Fragment → D

namespace FragmentsCursor

variable {D : Type} [FragmentDimension D]

/-- A cursor at the first fragment. -/
def new (fragments : List Fragment) : FragmentsCursor D := ⟨FragmentDimension.zero, fragments⟩

/-- The fragment at the cursor. -/
def item (self : FragmentsCursor D) : Option Fragment := self.rest.head?

/-- The end of the fragment at the cursor. -/
def stop (self : FragmentsCursor D) : D :=
  match self.rest with
  | fragment :: _ => FragmentDimension.add self.start fragment
  | [] => self.start

/-- The cursor at the next fragment. -/
def next (self : FragmentsCursor D) : FragmentsCursor D := ⟨self.stop, self.rest.tail⟩

/-- Pass the fragments whose end the target is past. -/
def sliceLoop (passes : D → Bool) : D → List Fragment → List Fragment × FragmentsCursor D
  | start, fragment :: rest =>
    let stop := FragmentDimension.add start fragment
    if passes stop then
      let (slice, cursor) := sliceLoop passes stop rest
      (fragment :: slice, cursor)
    else ([], ⟨start, fragment :: rest⟩)
  | start, [] => ([], ⟨start, []⟩)

/-- The fragments up to a target, and the cursor there. -/
def slice (self : FragmentsCursor D) (passes : D → Bool) : List Fragment × FragmentsCursor D :=
  sliceLoop passes self.start self.rest

end FragmentsCursor

/-! ## What the loops build -/

/-- The old texts that are left, and the new texts. -/
structure RopeBuilder where
  oldVisible : Text
  oldDeleted : Text
  newVisible : Text
  newDeleted : Text
  deriving Repr

namespace RopeBuilder

/-- Move text from an old text to a new one. -/
def push (self : RopeBuilder) (len : Nat) (wasVisible isVisible : Bool) : RopeBuilder :=
  let text := if wasVisible then self.oldVisible.take len else self.oldDeleted.take len
  { oldVisible := if wasVisible then self.oldVisible.drop len else self.oldVisible
    oldDeleted := if wasVisible then self.oldDeleted else self.oldDeleted.drop len
    newVisible := if isVisible then self.newVisible ++ text else self.newVisible
    newDeleted := if isVisible then self.newDeleted else self.newDeleted ++ text }

/-- Keep the texts of fragments as they are. -/
def append (self : RopeBuilder) (len : FragmentTextSummary) : RopeBuilder :=
  (self.push len.visible true true).push len.deleted false false

/-- Move the text of a fragment. -/
def pushFragment (self : RopeBuilder) (fragment : Fragment) (wasVisible : Bool) : RopeBuilder :=
  self.push fragment.len wasVisible fragment.visible

/-- Insert text. -/
def pushStr (self : RopeBuilder) (text : Text) : RopeBuilder := { self with newVisible := self.newVisible ++ text }

/-- The new texts, with what is left of the old ones. -/
def finish (self : RopeBuilder) : Text × Text := (self.newVisible ++ self.oldVisible, self.newDeleted ++ self.oldDeleted)

end RopeBuilder

/-- What the loops over the fragments build. -/
structure Rebuild where
  fragments : List Fragment
  ropes : RopeBuilder
  insertions : List InsertionFragment
  slices : List InsertionSlice
  insertionOffset : Nat
  patch : Patch
  deriving Repr

namespace Rebuild

/-- The id of the last new fragment. -/
def maxId (self : Rebuild) : Locator :=
  match self.fragments.getLast? with
  | some fragment => fragment.id
  | none => Locator.min

/-- The length of the new visible text. -/
def visibleLen (self : Rebuild) : Nat := (FragmentTextSummary.ofFragments self.fragments).visible

/-- Append old fragments. -/
def append (self : Rebuild) (slice : List Fragment) : Rebuild :=
  { self with
    fragments := self.fragments ++ slice
    ropes := self.ropes.append (FragmentTextSummary.ofFragments slice) }

/-- Push an old fragment as it is. -/
def pushOld (self : Rebuild) (fragment : Fragment) : Rebuild :=
  { self with
    fragments := self.fragments ++ [fragment]
    ropes := self.ropes.pushFragment fragment fragment.visible }

/-- Push a fragment that gets a new entry in the insertions. -/
def pushFragment (self : Rebuild) (fragment : Fragment) (wasVisible : Bool) : Rebuild :=
  { self with
    fragments := self.fragments ++ [fragment]
    ropes := self.ropes.pushFragment fragment wasVisible
    insertions := self.insertions ++ [InsertionFragment.new fragment] }

/-- Record an edit of the text. -/
def pushEdit (self : Rebuild) (edit : Patch.Edit) : Rebuild := { self with patch := Patch.push self.patch edit }

/-- Record a slice that the edit inserts or deletes. -/
def pushSlice (self : Rebuild) (slice : InsertionSlice) : Rebuild := { self with slices := self.slices ++ [slice] }

end Rebuild

/-! ## Insertions -/

/-- The maximum length of a fragment of an insertion. -/
def maxInsertionLen : Nat := 2 ^ 32 - 1

/-- The end of the part of an insertion that starts at an offset. -/
def chunkEnd (text : Text) (textOffset : Nat) : Nat :=
  let targetEnd := min text.length (textOffset + maxInsertionLen)
  if targetEnd = text.length then targetEnd else Text.floorCharBoundary text targetEnd

/-- The lengths of the parts of an insertion, from an offset on. The first argument bounds the number of parts. -/
def chunkLens (text : Text) : Nat → Nat → List Nat
  | 0, _ => []
  | n + 1, textOffset =>
    if textOffset < text.length then
      let stop := chunkEnd text textOffset
      if stop = textOffset then [] else (stop - textOffset) :: chunkLens text n stop
    else []

/-- The loop of `push_fragments_for_insertion` over the parts. -/
def pushChunks (timestamp : Lamport) (nextFragmentId : Locator) : List Nat → Rebuild → Rebuild
  | [], new => new
  | chunkLen :: chunks, new =>
    let fragment : Fragment :=
      { id := Locator.between new.maxId nextFragmentId
        timestamp := timestamp
        insertionOffset := new.insertionOffset
        len := chunkLen
        visible := true
        deletions := []
        maxUndos := Global.new }
    pushChunks timestamp nextFragmentId chunks
      { new with
        slices := new.slices ++ [InsertionSlice.fromFragment timestamp fragment]
        insertions := new.insertions ++ [InsertionFragment.new fragment]
        fragments := new.fragments ++ [fragment]
        insertionOffset := new.insertionOffset + chunkLen }

/-- Insert new text before the fragment with an id. -/
def pushFragmentsForInsertion (newText : Text) (timestamp : Lamport) (nextFragmentId : Locator) (new : Rebuild) : Rebuild :=
  let new := pushChunks timestamp nextFragmentId (chunkLens newText newText.length 0) new
  { new with ropes := new.ropes.pushStr newText }

/-! ## The state of a loop -/

/-- The state of a loop over the fragments. -/
structure EditState (D : Type) where
  oldFragments : FragmentsCursor D
  fragmentStart : Nat
  new : Rebuild
  deriving Repr

namespace EditState

variable {D : Type} [FragmentDimension D] (offset : D → Nat)

/-- If the current fragment has been partially consumed, then consume the rest of it and advance to the next fragment. -/
def finishFragment (self : EditState D) : EditState D :=
  let start := offset self.oldFragments.start
  let fragmentEnd := offset self.oldFragments.stop
  if self.fragmentStart > start then
    { self with
      new :=
        match self.oldFragments.item with
        | some fragment =>
          if fragmentEnd > self.fragmentStart then
            let suffix := fragment.part (self.fragmentStart - start) (fragmentEnd - self.fragmentStart)
            self.new.pushFragment suffix suffix.visible
          else self.new
        | none => self.new
      oldFragments := self.oldFragments.next }
  else self

/-- If the current fragment ends before this range, then jump ahead to the first fragment that extends past the start of
this range, reusing any intervening fragments. -/
def jumpAhead (passes : D → Bool) (rangeStart : Nat) (self : EditState D) : EditState D :=
  if offset self.oldFragments.stop < rangeStart then
    let self := self.finishFragment offset
    let (slice, cursor) := self.oldFragments.slice passes
    { oldFragments := cursor, fragmentStart := offset cursor.start, new := self.new.append slice }
  else self

/-- Preserve any portion of the current fragment that precedes this range. -/
def pushPrefix (rangeStart : Nat) (self : EditState D) : EditState D :=
  if self.fragmentStart < rangeStart then
    match self.oldFragments.item with
    | some fragment =>
      let piece := fragment.part (self.fragmentStart - offset self.oldFragments.start) (rangeStart - self.fragmentStart)
      let piece := { piece with id := Locator.between self.new.maxId piece.id }
      { self with fragmentStart := rangeStart, new := self.new.pushFragment piece piece.visible }
    | none => self
  else self

/-- The id of the fragment that new text goes before. -/
def nextFragmentId (self : EditState D) : Locator :=
  match self.oldFragments.item with
  | some fragment => fragment.id
  | none => Locator.max

/-- The rest of the fragments, and what has been built with them. -/
def finish (self : EditState D) : Rebuild :=
  let self := self.finishFragment offset
  self.new.append self.oldFragments.rest

end EditState

end Wu
