import Wu.Splices
import Wu.Text.Operation

/-!
# Buffer diffs

The hunks of a diff between a base text and a buffer, and when they are a correct diff. The anchors of a hunk are the offsets
they resolve to in the buffer the diff was computed for, and a rope is its bytes.
-/

namespace Wu.BufferDiff

/-- The bytes of a rope. -/
abbrev Bytes := List UInt8

/-- The bytes of a range. -/
def textForRange (text : Bytes) (range : Span) : Bytes := (text.take range.stop).drop range.start

/-- A hunk of a diff. -/
structure InternalDiffHunk where
  bufferRange : Span
  diffBaseByteRange : Span
  deriving DecidableEq, Repr

/-- Whether a hunk of the uncommitted diff is staged. -/
inductive DiffHunkSecondaryStatus where
  | hasSecondaryHunk
  | overlapsWithSecondaryHunk
  | noSecondaryHunk
  | secondaryHunkAdditionPending
  | secondaryHunkRemovalPending
  deriving DecidableEq, Repr

/-- A hunk as it is shown. -/
structure DiffHunk where
  bufferRange : Span
  diffBaseByteRange : Span
  secondaryStatus : DiffHunkSecondaryStatus
  deriving DecidableEq, Repr

/-- The hunk of the diff that is shown. -/
def DiffHunk.internal (self : DiffHunk) : InternalDiffHunk := ⟨self.bufferRange, self.diffBaseByteRange⟩

/-- What a pending hunk does to the hunk it matches. -/
inductive PendingSense where
  | setSecondaryStatus (stage : Bool)
  | suppress
  deriving DecidableEq, Repr

/-- A hunk that is shown as if the operation on it were done. -/
structure PendingHunk (V : Type) where
  bufferRange : Span
  diffBaseByteRange : Span
  bufferVersion : V
  sense : PendingSense
  deriving DecidableEq, Repr

/-- A buffer at a version. -/
structure BufferSnapshot (V : Type) where
  text : Bytes
  version : V

/-- The whole buffer, from the least anchor to the greatest. -/
def BufferSnapshot.minMaxRange {V : Type} (self : BufferSnapshot V) : Span := ⟨0, self.text.length⟩

/-- A diff: the hunks in the order of the buffer, the base text, and whether there is one. -/
structure BufferDiffSnapshot where
  hunks : List InternalDiffHunk
  baseText : Bytes
  baseTextExists : Bool
  deriving DecidableEq, Repr

/-- The base text, if there is one. -/
def BufferDiffSnapshot.existingText (self : BufferDiffSnapshot) : Option Bytes :=
  if self.baseTextExists then some self.baseText else none

/-! ### Correct diffs -/

/-- From an offset in the base text and one in the buffer on, the hunks replace ranges of the base text by ranges of the buffer,
and the two texts agree before, between and after them. -/
def Turns (base buffer : Bytes) : Nat → Nat → List InternalDiffHunk → Prop
  | o, n, [] => o ≤ base.length ∧ n ≤ buffer.length ∧ base.drop o = buffer.drop n
  | o, n, hunk :: hunks =>
    (∃ common, hunk.diffBaseByteRange.start = o + common ∧ hunk.bufferRange.start = n + common ∧
      (base.drop o).take common = (buffer.drop n).take common) ∧
    hunk.diffBaseByteRange.start ≤ hunk.diffBaseByteRange.stop ∧ hunk.bufferRange.start ≤ hunk.bufferRange.stop ∧
    Turns base buffer hunk.diffBaseByteRange.stop hunk.bufferRange.stop hunks

/-- The hunks are a correct diff of the texts. A hunk is a longest run of lines that differ, so what the texts have in common
between two hunks is not empty. -/
structure Correct (base buffer : Bytes) (hunks : List InternalDiffHunk) : Prop where
  turns : Turns base buffer 0 0 hunks
  apart : hunks.Pairwise fun a b => a.bufferRange.stop < b.bufferRange.start

section Turns

variable {base buffer : Bytes} {o n p q : Nat} {hunk : InternalDiffHunk} {hunks : List InternalDiffHunk}

/-- A correct diff from the offsets on starts at them, and the texts are as long behind them. -/
theorem Turns.bounds (h : Turns base buffer o n hunks) : o ≤ base.length ∧ n ≤ buffer.length := by
  induction hunks generalizing o n with
  | nil => exact ⟨h.1, h.2.1⟩
  | cons hunk hunks ih =>
    obtain ⟨⟨common, hbase, hbuf, -⟩, hle, hle', hrest⟩ := h
    have := ih hrest
    omega

/-- What is behind the last hunk is as long in both texts. -/
theorem Turns.nil_length (h : Turns base buffer o n []) : base.length - o = buffer.length - n := by
  have := congrArg List.length h.2.2
  rwa [List.length_drop, List.length_drop] at this

/-- Each hunk starts behind the offsets, and in the base text at least as far behind. -/
theorem Turns.start_le (h : Turns base buffer o n hunks) (hmem : hunk ∈ hunks) :
    n ≤ hunk.bufferRange.start ∧ o ≤ hunk.diffBaseByteRange.start ∧ hunk.bufferRange.start ≤ hunk.bufferRange.stop ∧
      hunk.diffBaseByteRange.start ≤ hunk.diffBaseByteRange.stop ∧ hunk.bufferRange.stop ≤ buffer.length ∧
      hunk.diffBaseByteRange.stop ≤ base.length := by
  induction hunks generalizing o n with
  | nil => cases hmem
  | cons first hunks ih =>
    obtain ⟨⟨common, hbase, hbuf, -⟩, hle, hle', hrest⟩ := h
    rcases List.mem_cons.1 hmem with rfl | hmem
    · have := hrest.bounds
      omega
    · have := ih hrest hmem
      omega

end Turns

end Wu.BufferDiff
