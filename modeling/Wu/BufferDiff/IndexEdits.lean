import Wu.BufferDiff.Snapshot

/-!
# The edits of the index that stage or unstage hunks

`compute_uncommitted_index_edits` goes through the chosen hunks of the uncommitted diff and the hunks of the unstaged diff at
the same time.
-/

namespace Wu.BufferDiff

variable {V : Type}

/-- An edit of the index: the range and what replaces it. -/
abbrev IndexEdit := Splice UInt8

/-- A hunk that is not yet in the state that is wanted. -/
def DiffHunk.acted (stage : Bool) (hunk : DiffHunk) : Bool :=
  !((stage && hunk.secondaryStatus == .noSecondaryHunk) || (!stage && hunk.secondaryStatus == .hasSecondaryHunk))

/-- The variables of the inner loop: what is left of both lists of hunks, and the range of the buffer that grows. -/
structure Merging (V : Type) where
  hunks : List DiffHunk
  unstaged : List InternalDiffHunk
  prevBufferEnd : Nat
  prevBaseTextEnd : Nat
  indexStart : Nat
  bufferRange : Span
  pending : List (PendingHunk V)

namespace Merging

/-- Merge with an unstaged hunk. -/
def absorbUnstaged (self : Merging V) (hunk : InternalDiffHunk) (unstaged : List InternalDiffHunk) : Merging V :=
  { self with
    unstaged := unstaged
    prevBaseTextEnd := hunk.diffBaseByteRange.stop
    prevBufferEnd := hunk.bufferRange.stop
    indexStart := min self.indexStart hunk.diffBaseByteRange.start
    bufferRange := ⟨min self.bufferRange.start hunk.bufferRange.start, max self.bufferRange.stop hunk.bufferRange.stop⟩ }

/-- Merge with the next chosen hunk. -/
def absorbHunk (self : Merging V) (version : V) (sense : PendingSense) (hunk : DiffHunk) (hunks : List DiffHunk) : Merging V :=
  { self with
    hunks := hunks
    bufferRange := ⟨self.bufferRange.start, max self.bufferRange.stop hunk.bufferRange.stop⟩
    pending := self.pending ++ [⟨hunk.bufferRange, hunk.diffBaseByteRange, version, sense⟩] }

/-- Merge with the next chosen hunk, if it reaches the range. -/
def stepHunk (self : Merging V) (version : V) (sense : PendingSense) : Option (Merging V) :=
  match self.hunks with
  | hunk :: hunks =>
    if hunk.bufferRange.start ≤ self.bufferRange.stop then some (self.absorbHunk version sense hunk hunks) else none
  | [] => none

/-- A turn of the inner loop; none when it ends. -/
def step (self : Merging V) (version : V) (sense : PendingSense) : Option (Merging V) :=
  match self.unstaged with
  | hunk :: unstaged =>
    if hunk.bufferRange.start ≤ self.bufferRange.stop then some (self.absorbUnstaged hunk unstaged)
    else self.stepHunk version sense
  | [] => self.stepHunk version sense

/-- How many hunks are left. -/
def size (self : Merging V) : Nat := self.unstaged.length + self.hunks.length

/-- What a turn of the loop does: it merges with the next unstaged hunk, or when that does not reach the range, with the next
chosen one. -/
theorem step_cases {self next : Merging V} {version : V} {sense : PendingSense} (h : self.step version sense = some next) :
    (∃ hunk unstaged, self.unstaged = hunk :: unstaged ∧ hunk.bufferRange.start ≤ self.bufferRange.stop ∧
      next = self.absorbUnstaged hunk unstaged) ∨
    (∃ hunk hunks, self.hunks = hunk :: hunks ∧ hunk.bufferRange.start ≤ self.bufferRange.stop ∧
      next = self.absorbHunk version sense hunk hunks) := by
  have hsec (h : self.stepHunk version sense = some next) :
      ∃ hunk hunks, self.hunks = hunk :: hunks ∧ hunk.bufferRange.start ≤ self.bufferRange.stop ∧
        next = self.absorbHunk version sense hunk hunks := by
    unfold stepHunk at h
    split at h
    · rename_i hunk hunks heq
      split at h
      · rename_i hle
        exact ⟨hunk, hunks, heq, hle, (Option.some.inj h).symm⟩
      · cases h
    · cases h
  unfold step at h
  split at h
  · rename_i hunk unstaged heq
    split at h
    · rename_i hle
      exact .inl ⟨hunk, unstaged, heq, hle, (Option.some.inj h).symm⟩
    · exact .inr (hsec h)
  · exact .inr (hsec h)

/-- The loop ends when neither next hunk reaches the range. -/
theorem step_none {self : Merging V} {version : V} {sense : PendingSense} (h : self.step version sense = none) :
    (∀ hunk ∈ self.unstaged.head?, self.bufferRange.stop < hunk.bufferRange.start) ∧
      ∀ hunk ∈ self.hunks.head?, self.bufferRange.stop < hunk.bufferRange.start := by
  have hsec (h : self.stepHunk version sense = none) :
      ∀ hunk ∈ self.hunks.head?, self.bufferRange.stop < hunk.bufferRange.start := by
    unfold stepHunk at h
    split at h
    · rename_i hunk hunks heq
      split at h
      · cases h
      · rename_i hlt
        intro other hoth
        rw [heq, List.head?_cons, Option.mem_some_iff] at hoth
        subst hoth
        exact Nat.lt_of_not_le hlt
    · rename_i heq
      simp [heq]
  unfold step at h
  split at h
  · rename_i hunk unstaged heq
    split at h
    · cases h
    · rename_i hlt
      refine ⟨fun other hoth => ?_, hsec h⟩
      rw [heq, List.head?_cons, Option.mem_some_iff] at hoth
      subst hoth
      exact Nat.lt_of_not_le hlt
  · rename_i heq
    exact ⟨by simp [heq], hsec h⟩

/-- Each turn takes a hunk. -/
theorem step_size {self next : Merging V} {version : V} {sense : PendingSense} (h : self.step version sense = some next) :
    next.size < self.size := by
  obtain ⟨hunk, unstaged, heq, -, rfl⟩ | ⟨hunk, hunks, heq, -, rfl⟩ := step_cases h
  · simp [size, absorbUnstaged, heq]
  · simp [size, absorbHunk, heq]

/-- The inner loop. -/
def run (self : Merging V) (version : V) (sense : PendingSense) : Merging V :=
  match _h : self.step version sense with
  | some next => next.run version sense
  | none => self
termination_by self.size
decreasing_by exact step_size _h

/-- What holds at the start of the loop and is kept by each turn holds when the loop has ended. -/
theorem run_induct {version : V} {sense : PendingSense} {motive : Merging V → Prop}
    (hstep : ∀ self next, motive self → self.step version sense = some next → motive next) (self : Merging V)
    (h : motive self) : motive (self.run version sense) ∧ (self.run version sense).step version sense = none := by
  fun_induction run self _ _ with
  | case1 self next hnext ih => exact ih (hstep self next h hnext)
  | case2 self hnone => exact ⟨h, hnone⟩

/-- The loop leaves at most the chosen hunks it started with. -/
theorem run_hunks_length (version : V) (sense : PendingSense) (self : Merging V) :
    (self.run version sense).hunks.length ≤ self.hunks.length := by
  refine (run_induct (motive := fun m => m.hunks.length ≤ self.hunks.length) (fun m next hm hnext => ?_) self le_rfl).1
  obtain ⟨-, -, -, -, rfl⟩ | ⟨hunk, hunks, heq, -, rfl⟩ := step_cases hnext
  · exact hm
  · rw [heq] at hm
    exact Nat.le_of_succ_le hm

end Merging

/-- Add an edit, merged with the last one when their ranges touch. -/
def pushEdit (edits : List IndexEdit) (edit : IndexEdit) : List IndexEdit :=
  match edits.getLast? with
  | some last =>
    if edit.start ≤ last.stop then edits.dropLast ++ [⟨last.start, edit.stop, last.text ++ edit.text⟩] else edits ++ [edit]
  | none => [edit]

/-- The variables of the outer loop, without the chosen hunks that are left. -/
structure Writing (V : Type) where
  unstaged : List InternalDiffHunk
  prevBufferEnd : Nat
  prevBaseTextEnd : Nat
  edits : List IndexEdit
  pending : List (PendingHunk V)

/-- What the loop reads: the texts, and what is done to the hunks. -/
structure Operation (V : Type) where
  indexText : Bytes
  headText : Bytes
  buffer : BufferSnapshot V
  stage : Bool

namespace Operation

variable (self : Operation V)

/-- What the hunks are shown as until it is done. -/
def sense : PendingSense := .setSecondaryStatus self.stage

/-- Where the inner loop starts for a chosen hunk: behind the unstaged hunks that end before it. -/
def enter (s : Writing V) (hunk : DiffHunk) (hunks : List DiffHunk) : Merging V :=
  let skipped := s.unstaged.takeWhile fun unstaged => unstaged.bufferRange.stop < hunk.bufferRange.start
  let unstaged := s.unstaged.dropWhile fun unstaged => unstaged.bufferRange.stop < hunk.bufferRange.start
  let prevBaseTextEnd := (skipped.getLast?.map fun last => last.diffBaseByteRange.stop).getD s.prevBaseTextEnd
  let prevBufferEnd := (skipped.getLast?.map fun last => last.bufferRange.stop).getD s.prevBufferEnd
  let startOvershoot := hunk.bufferRange.start - prevBufferEnd
  { hunks, unstaged, prevBufferEnd, prevBaseTextEnd
    indexStart := prevBaseTextEnd + startOvershoot
    bufferRange := hunk.bufferRange
    pending := s.pending ++ [⟨hunk.bufferRange, hunk.diffBaseByteRange, self.buffer.version, self.sense⟩] }

/-- The inner loop for a chosen hunk; none where the overshoot is negative, on which the subtraction panics. -/
def mergeHunk (s : Writing V) (hunk : DiffHunk) (hunks : List DiffHunk) : Option (Merging V) :=
  if hunk.bufferRange.start < (self.enter s hunk hunks).prevBufferEnd then none
  else some ((self.enter s hunk hunks).run self.buffer.version self.sense)

theorem mergeHunk_length {s : Writing V} {hunk : DiffHunk} {hunks : List DiffHunk} {m : Merging V}
    (h : self.mergeHunk s hunk hunks = some m) : m.hunks.length < (hunk :: hunks).length := by
  unfold mergeHunk at h
  split at h
  · cases h
  · cases h
    exact Nat.lt_succ_of_le (Merging.run_hunks_length _ _ _)

/-- The edit for a chosen hunk and what has been merged with it. -/
def edit (hunk : DiffHunk) (m : Merging V) : IndexEdit :=
  let endOvershoot := m.bufferRange.stop - m.prevBufferEnd
  let indexEnd := min (m.prevBaseTextEnd + endOvershoot) self.indexText.length
  let indexStart := min m.indexStart indexEnd
  let replacementText :=
    if self.stage then textForRange self.buffer.text m.bufferRange else textForRange self.headText hunk.diffBaseByteRange
  ⟨indexStart, indexEnd, replacementText⟩

/-- The outer loop over the chosen hunks. -/
def write (s : Writing V) : List DiffHunk → Option (Writing V)
  | [] => some s
  | hunk :: hunks =>
    match _h : self.mergeHunk s hunk hunks with
    | none => none
    | some m =>
      write
        { unstaged := m.unstaged
          prevBufferEnd := m.prevBufferEnd
          prevBaseTextEnd := m.prevBaseTextEnd
          edits := pushEdit s.edits (self.edit hunk m)
          pending := m.pending }
        m.hunks
termination_by hunks => hunks.length
decreasing_by exact self.mergeHunk_length _h

end Operation

/-- When there is no file in the head, in the index or on disk, the whole file is created or deleted in the index. -/
def wholeFileEdits (indexText headText : Option Bytes) (stage : Bool) (buffer : BufferSnapshot V) (fileExists : Bool) :
    Option (List IndexEdit) × List (PendingHunk V) :=
  let indexLen := (indexText.map List.length).getD 0
  let newIndexText := if stage then (if fileExists then some buffer.text else none) else headText
  (newIndexText.map fun text => [⟨0, indexLen, text⟩],
    [⟨buffer.minMaxRange, ⟨0, indexLen⟩, buffer.version, .setSecondaryStatus stage⟩])

/-- The edits that the chosen hunks need. -/
def hunkEdits (indexText headText : Bytes) (unstagedDiff : BufferDiffSnapshot) (stage : Bool) (hunks : List DiffHunk)
    (buffer : BufferSnapshot V) : Option (Option (List IndexEdit) × List (PendingHunk V)) :=
  (Operation.write ⟨indexText, headText, buffer, stage⟩ ⟨unstagedDiff.hunks, 0, 0, [], []⟩
    (hunks.filter (DiffHunk.acted stage))).map fun s => (some s.edits, s.pending)

/-- The edits of the index, and the hunks that are shown as pending; none where the code panics. -/
def BufferDiffSnapshot.computeUncommittedIndexEdits (self unstagedDiff : BufferDiffSnapshot) (stage : Bool)
    (hunks : List DiffHunk) (buffer : BufferSnapshot V) (fileExists : Bool) :
    Option (Option (List IndexEdit) × List (PendingHunk V)) :=
  match unstagedDiff.existingText, self.existingText with
  | some indexText, some headText =>
    if fileExists || !stage then hunkEdits indexText headText unstagedDiff stage hunks buffer
    else some (wholeFileEdits (some indexText) (some headText) stage buffer fileExists)
  | indexText, headText => some (wholeFileEdits indexText headText stage buffer fileExists)

/-- The index after `stage_or_unstage_hunks`: the edits are applied from the last to the first. -/
def newIndexText (indexText : Bytes) (edits : List IndexEdit) : Bytes := Splice.applyRev edits indexText

end Wu.BufferDiff
