import Wu.Language.TextDiff
import Wu.Text.LineEnding

/-!
# Unified diffs

`unified_diff_with_context`: the changed lines in hunks, with lines around them that stay. The builder keeps the hunk that is being
written and flushes it when the next change is far away. Lines come without their ends, so a carriage return in front of a line
feed is not in the diff; and the numbers are of 32 bits.
-/

namespace Wu.TextDiff

open List Function

open Pieces (Piece Range Hunk Aligned)

/-- The prefix of a line in a hunk. -/
inductive Mark where
  | same
  | removed
  | added
  deriving DecidableEq, Repr

/-- The character that is printed. -/
def Mark.char : Mark → Char
  | same => ' '
  | removed => '-'
  | added => '+'

/-- Lines that are printed with a mark. -/
def marked (mark : Mark) (tokens : List Str) : List (Mark × Str) := tokens.map fun token => (mark, token)

/-- A hunk as it is printed: the numbers of its header and its lines. -/
structure Written where
  oldStart : Nat
  oldLen : Nat
  newStart : Nat
  newLen : Nat
  lines : List (Mark × Str)
  deriving DecidableEq, Repr

/-- A number of 32 bits; arithmetic that overflows panics. -/
def u32 (n : Nat) : Option Nat := if n < 2 ^ 32 then some n else none

/-- The numbers of a header and the lines, as text. -/
def Written.render (hunk : Written) : Str :=
  "@@ -".toList ++ Nat.toDigits 10 hunk.oldStart ++ ",".toList ++ Nat.toDigits 10 hunk.oldLen ++ " +".toList ++
    Nat.toDigits 10 hunk.newStart ++ ",".toList ++ Nat.toDigits 10 hunk.newLen ++ " @@\n".toList ++
    hunk.lines.flatMap fun line => line.1.char :: line.2 ++ ['\n']

/-- `struct OffsetUnifiedDiffBuilder`; what is printed is kept as lines and hunks. -/
structure OffsetUnifiedDiffBuilder where
  before : List Str
  after : List Str
  pos : Nat
  beforeHunkStart : Nat
  afterHunkStart : Nat
  beforeHunkLen : Nat
  afterHunkLen : Nat
  oldLineOffset : Nat
  newLineOffset : Nat
  contextLines : Nat
  buffer : List (Mark × Str)
  dst : List Written

namespace OffsetUnifiedDiffBuilder

/-- `OffsetUnifiedDiffBuilder::new`. -/
def new (before after : List Str) (oldLineOffset newLineOffset contextLines : Nat) : OffsetUnifiedDiffBuilder where
  before := before
  after := after
  pos := 0
  beforeHunkStart := 0
  afterHunkStart := 0
  beforeHunkLen := 0
  afterHunkLen := 0
  oldLineOffset := oldLineOffset
  newLineOffset := newLineOffset
  contextLines := contextLines
  buffer := []
  dst := []

/-- `print_tokens`. -/
def printTokens (self : OffsetUnifiedDiffBuilder) (tokens : List Str) (mark : Mark) : OffsetUnifiedDiffBuilder :=
  { self with buffer := self.buffer ++ marked mark tokens }

/-- `update_pos`. -/
def updatePos (self : OffsetUnifiedDiffBuilder) (printTo moveTo : Nat) : Option OffsetUnifiedDiffBuilder := do
  let self' := self.printTokens (← slice self.before self.pos printTo) .same
  let len := printTo - self.pos
  return { self' with
    pos := moveTo
    beforeHunkLen := self.beforeHunkLen + len
    afterHunkLen := self.afterHunkLen + len }

/-- `flush`. -/
def flush (self : OffsetUnifiedDiffBuilder) : Option OffsetUnifiedDiffBuilder := do
  if self.beforeHunkLen = 0 ∧ self.afterHunkLen = 0 then return self
  let stop := min (← u32 (self.pos + self.contextLines)) self.before.length
  let self ← self.updatePos stop stop
  let hunk : Written := {
    oldStart := ← u32 (self.beforeHunkStart + 1 + self.oldLineOffset)
    oldLen := self.beforeHunkLen
    newStart := ← u32 (self.afterHunkStart + 1 + self.newLineOffset)
    newLen := self.afterHunkLen
    lines := self.buffer }
  return { self with dst := self.dst ++ [hunk], buffer := [], beforeHunkLen := 0, afterHunkLen := 0 }

/-- A hunk is opened at a change, with context in front of it. -/
def openHunk (self : OffsetUnifiedDiffBuilder) (hunk : Hunk) : OffsetUnifiedDiffBuilder :=
  if self.beforeHunkLen = 0 ∧ self.afterHunkLen = 0 then
    { self with
      pos := hunk.before.start - self.contextLines
      beforeHunkStart := hunk.before.start - self.contextLines
      afterHunkStart := hunk.after.start - self.contextLines }
  else self

/-- A change is printed in the hunk that is open. -/
def printChange (self : OffsetUnifiedDiffBuilder) (hunk : Hunk) : Option OffsetUnifiedDiffBuilder := do
  let self ← self.updatePos hunk.before.start hunk.before.stop
  let self := { self with
    beforeHunkLen := self.beforeHunkLen + (hunk.before.stop - hunk.before.start)
    afterHunkLen := self.afterHunkLen + (hunk.after.stop - hunk.after.start) }
  let self := self.printTokens (← slice self.before hunk.before.start hunk.before.stop) .removed
  return self.printTokens (← slice self.after hunk.after.start hunk.after.stop) .added

/-- `process_change`. -/
def processChange (self : OffsetUnifiedDiffBuilder) (hunk : Hunk) : Option OffsetUnifiedDiffBuilder := do
  let width ← u32 (self.contextLines * 2)
  let self ← if hunk.before.start - self.pos > width then self.flush else some self
  (self.openHunk hunk).printChange hunk

/-- `process_change` of each hunk. -/
def processChanges (self : OffsetUnifiedDiffBuilder) : List Hunk → Option OffsetUnifiedDiffBuilder
  | [] => some self
  | hunk :: hunks => do
    let self ← self.processChange hunk
    self.processChanges hunks

/-- `finish`. -/
def finish (self : OffsetUnifiedDiffBuilder) : Option (List Written) := do
  let self ← self.flush
  return self.dst

end OffsetUnifiedDiffBuilder

/-- The hunks of `unified_diff_with_context`. -/
def unifiedDiffHunks (library : DiffLibrary) (oldText newText : Str) (oldStartLine newStartLine contextLines : Nat) :
    Option (List Written) := do
  let builder := OffsetUnifiedDiffBuilder.new oldText.lines newText.lines oldStartLine newStartLine contextLines
  let builder ← builder.processChanges (library.compute oldText.lines newText.lines)
  builder.finish

/-- `unified_diff_with_context`. -/
def unifiedDiffWithContext (library : DiffLibrary) (oldText newText : Str) (oldStartLine newStartLine contextLines : Nat) :
    Option Str :=
  (unifiedDiffHunks library oldText newText oldStartLine newStartLine contextLines).map fun hunks => hunks.flatMap Written.render

/-! ## What is written of the pieces -/

/-- The lines of a hunk that are in the old text. -/
def oldSide (lines : List (Mark × Str)) : List Str := (lines.filter fun line => line.1 != .added).map Prod.snd

/-- The lines of a hunk that are in the new text. -/
def newSide (lines : List (Mark × Str)) : List Str := (lines.filter fun line => line.1 != .removed).map Prod.snd

/-- The lines of a change. -/
def changeLines (piece : Piece Str) : List (Mark × Str) := marked .removed piece.removed ++ marked .added piece.added

/-- The hunk that starts at an index on each side and has these lines. -/
def header (oldLineOffset newLineOffset s t : Nat) (lines : List (Mark × Str)) : Option Written := do
  return {
    oldStart := ← u32 (s + 1 + oldLineOffset)
    oldLen := (oldSide lines).length
    newStart := ← u32 (t + 1 + newLineOffset)
    newLen := (newSide lines).length
    lines := lines }

/-- What is written of the pieces behind the lines of a hunk that starts at an index on each side. -/
def written (contextLines oldLineOffset newLineOffset : Nat) :
    Nat → Nat → List (Mark × Str) → List (Piece Str) → List Str → Option (List Written)
  | s, t, lines, [], tail => do
    let _ ← u32 (s + (oldSide lines).length + contextLines)
    return [← header oldLineOffset newLineOffset s t (lines ++ marked .same (tail.take contextLines))]
  | s, t, lines, piece :: pieces, tail => do
    let _ ← u32 (contextLines * 2)
    if piece.same.length > contextLines * 2 then
      let _ ← u32 (s + (oldSide lines).length + contextLines)
      let first ← header oldLineOffset newLineOffset s t (lines ++ marked .same (piece.same.take contextLines))
      let apart := piece.same.length - contextLines
      let rest ← written contextLines oldLineOffset newLineOffset (s + (oldSide lines).length + apart)
        (t + (newSide lines).length + apart) (marked .same (piece.same.drop apart) ++ changeLines piece) pieces tail
      return first :: rest
    else
      written contextLines oldLineOffset newLineOffset s t (lines ++ (marked .same piece.same ++ changeLines piece)) pieces tail

@[simp] theorem oldSide_nil : oldSide [] = [] := rfl

@[simp] theorem newSide_nil : newSide [] = [] := rfl

section Sides

variable (a b : List (Mark × Str)) (tokens : List Str)

@[simp] theorem oldSide_append : oldSide (a ++ b) = oldSide a ++ oldSide b := by simp [oldSide]

@[simp] theorem newSide_append : newSide (a ++ b) = newSide a ++ newSide b := by simp [newSide]

theorem oldSide_marked (mark : Mark) : oldSide (marked mark tokens) = if mark = .added then [] else tokens := by
  cases mark <;> simp [oldSide, marked, filter_map, comp_def]

theorem newSide_marked (mark : Mark) : newSide (marked mark tokens) = if mark = .removed then [] else tokens := by
  cases mark <;> simp [newSide, marked, filter_map, comp_def]

@[simp] theorem oldSide_same : oldSide (marked .same tokens) = tokens := oldSide_marked _ _

@[simp] theorem newSide_same : newSide (marked .same tokens) = tokens := newSide_marked _ _

@[simp] theorem oldSide_changeLines (piece : Piece Str) : oldSide (changeLines piece) = piece.removed := by
  simp [changeLines, oldSide_marked]

@[simp] theorem newSide_changeLines (piece : Piece Str) : newSide (changeLines piece) = piece.added := by
  simp [changeLines, newSide_marked]

/-- Each line is on one of the sides. -/
theorem sides_eq_nil {lines : List (Mark × Str)} (hold : (oldSide lines).length = 0) (hnew : (newSide lines).length = 0) :
    lines = [] := by
  cases lines with
  | nil => rfl
  | cons line lines =>
    obtain ⟨mark, text⟩ := line
    cases mark <;> simp [oldSide, newSide] at hold hnew

end Sides

theorem changeLines_ne_nil {piece : Piece Str} (h : 0 < piece.removed.length ∨ 0 < piece.added.length) (lines : List (Mark × Str)) :
    lines ++ changeLines piece ≠ [] := by
  intro hnil
  have hold := congrArg oldSide hnil
  have hnew := congrArg newSide hnil
  rw [oldSide_append, oldSide_changeLines] at hold
  rw [newSide_append, newSide_changeLines] at hnew
  rw [(append_eq_nil_iff.mp hold).2, (append_eq_nil_iff.mp hnew).2] at h
  simp at h

theorem u32_eq_some {n m : Nat} : u32 n = some m ↔ n < 2 ^ 32 ∧ m = n := by
  rw [u32]
  split
  · rename_i h
    simp only [Option.some.injEq, h, true_and, eq_comm]
  · rename_i h
    simp only [h, false_and, reduceCtorEq]

namespace OffsetUnifiedDiffBuilder

variable {self : OffsetUnifiedDiffBuilder} {s t : Nat} {lines : List (Mark × Str)} {dst : List Written}

/-- The builder behind the lines of a hunk that starts at an index on each side. -/
def writing (self : OffsetUnifiedDiffBuilder) (s t : Nat) (lines : List (Mark × Str)) (dst : List Written) :
    OffsetUnifiedDiffBuilder :=
  { self with
    pos := s + (oldSide lines).length
    beforeHunkStart := s
    afterHunkStart := t
    beforeHunkLen := (oldSide lines).length
    afterHunkLen := (newSide lines).length
    buffer := lines
    dst := dst }

/-- The builder when no hunk is being written. -/
def idle (self : OffsetUnifiedDiffBuilder) (s t pos : Nat) (dst : List Written) : OffsetUnifiedDiffBuilder :=
  { self.writing s t [] dst with pos := pos }

variable {same front' rest' : List Str} {piece : Piece Str}

/-- Lines that stay are printed. -/
theorem updatePos_writing {front rest : List Str} (hbef : self.before = front ++ (same ++ rest))
    (hfro : front.length = s + (oldSide lines).length) (moveTo : Nat) :
    (self.writing s t lines dst).updatePos (front.length + same.length) moveTo =
      some { self.writing s t (lines ++ marked .same same) dst with pos := moveTo } := by
  have hsli : slice self.before (s + (oldSide lines).length) (front.length + same.length) = some same := by
    rw [hbef, ← hfro]
    exact slice_append _ _ _
  have hlen : front.length + same.length - (s + (oldSide lines).length) = same.length := by omega
  simp [updatePos, writing, printTokens, hsli, hlen]

/-- A hunk that has lines is flushed with the context behind it. -/
theorem flush_writing {front rest : List Str} (hbef : self.before = front ++ rest)
    (hfro : front.length = s + (oldSide lines).length) (hline : lines ≠ []) :
    (self.writing s t lines dst).flush = do
      let _ ← u32 (s + (oldSide lines).length + self.contextLines)
      let hunk ← header self.oldLineOffset self.newLineOffset s t (lines ++ marked .same (rest.take self.contextLines))
      return self.idle s t (front.length + (rest.take self.contextLines).length) (dst ++ [hunk]) := by
  have hopen : ¬((oldSide lines).length = 0 ∧ (newSide lines).length = 0) := fun h => hline (sides_eq_nil h.1 h.2)
  have hspl : self.before = front ++ (rest.take self.contextLines ++ rest.drop self.contextLines) := by
    rw [take_append_drop, hbef]
  have hstop : min (s + (oldSide lines).length + self.contextLines) self.before.length =
      front.length + (rest.take self.contextLines).length := by
    rw [hbef, length_append, length_take]
    omega
  have hupd : (self.writing s t lines dst).updatePos _ _ = _ :=
    updatePos_writing hspl hfro (front.length + (rest.take self.contextLines).length)
  unfold flush
  rw [if_neg (by exact hopen)]
  cases hpos : u32 (s + (oldSide _).length + self.contextLines) with
  | none => simp [writing, hpos]
  | some pos =>
    obtain rfl := (u32_eq_some.mp hpos).2
    have hpos' : u32 ((self.writing s t lines dst).pos + (self.writing s t lines dst).contextLines) = _ := hpos
    have hstop' : min (s + (oldSide lines).length + self.contextLines) (self.writing s t lines dst).before.length = _ := hstop
    simp only [hpos', hstop', hupd, Option.bind_eq_bind, Option.bind_some]
    cases hold : u32 (s + 1 + self.oldLineOffset) with
    | none => simp [writing, header, hold]
    | some oldStart =>
      cases hnew : u32 (t + 1 + self.newLineOffset) with
      | none => simp [writing, header, hold, hnew]
      | some newStart => simp [writing, idle, header, hold, hnew]

/-- A change is printed behind lines that stay. -/
theorem printChange_writing {front rest : List Str}
    (hbef : self.before = front ++ (same ++ (piece.removed ++ rest))) (haft : self.after = front' ++ (piece.added ++ rest'))
    (hfro : front.length = s + (oldSide lines).length) :
    (self.writing s t lines dst).printChange ⟨⟨front.length + same.length, front.length + same.length + piece.removed.length⟩,
        ⟨front'.length, front'.length + piece.added.length⟩⟩ =
      some (self.writing s t (lines ++ (marked .same same ++ changeLines piece)) dst) := by
  have hrem : slice self.before (front.length + same.length) (front.length + same.length + piece.removed.length) =
      some piece.removed := by
    have hsli := slice_append (front ++ same) piece.removed rest
    rwa [length_append, append_assoc, ← hbef] at hsli
  have hadd : slice self.after front'.length (front'.length + piece.added.length) = some piece.added := by
    rw [haft]
    exact slice_append _ _ _
  simp only [printChange, updatePos_writing hbef hfro, Option.bind_eq_bind, Option.bind_some, Option.pure_def]
  simp [writing, hrem, hadd, printTokens, changeLines, oldSide_marked, newSide_marked]
  omega

/-- A hunk is opened when none is being written. -/
theorem openHunk_idle {pos : Nat} (hunk : Hunk) : (self.idle s t pos dst).openHunk hunk =
      self.writing (hunk.before.start - self.contextLines) (hunk.after.start - self.contextLines) [] dst := by
  rfl

/-- A hunk that has lines stays open. -/
theorem openHunk_writing (hline : lines ≠ []) (hunk : Hunk) :
    (self.writing s t lines dst).openHunk hunk = self.writing s t lines dst := by
  have hopen : ¬((oldSide lines).length = 0 ∧ (newSide lines).length = 0) := fun h => hline (sides_eq_nil h.1 h.2)
  rw [openHunk, if_neg (by exact hopen)]

/-- A hunk is opened with the end of what stays in front of the change. -/
theorem printChange_open {front rest : List Str} (hbef : self.before = front ++ (piece.same ++ (piece.removed ++ rest)))
    (haft : self.after = front' ++ (piece.same ++ (piece.added ++ rest'))) {k : Nat} (hk : k ≤ piece.same.length) :
    (self.writing (front.length + k) (front'.length + k) [] dst).printChange
      ⟨⟨front.length + piece.same.length, front.length + piece.same.length + piece.removed.length⟩,
        ⟨front'.length + piece.same.length, front'.length + piece.same.length + piece.added.length⟩⟩ =
      some (self.writing (front.length + k) (front'.length + k) (marked .same (piece.same.drop k) ++ changeLines piece) dst) := by
  have hlen : (front ++ piece.same.take k).length = front.length + k := by
    rw [length_append, length_take, Nat.min_eq_left hk]
  have hbef' : self.before = (front ++ piece.same.take k) ++ (piece.same.drop k ++ (piece.removed ++ rest)) := by
    rw [hbef, append_assoc, ← append_assoc (piece.same.take k), take_append_drop]
  have haft' : self.after = (front' ++ piece.same) ++ (piece.added ++ rest') := by rw [haft, append_assoc]
  have hchg : (self.writing (front.length + k) (front'.length + k) [] dst).printChange _ = _ :=
    printChange_writing hbef' haft' (by rw [hlen]; rfl)
  have hsame : front.length + k + (piece.same.length - k) = front.length + piece.same.length := by omega
  rwa [hlen, length_drop, hsame, length_append] at hchg

section Step

variable {front rest front' rest' : List Str} {piece : Piece Str}

/-- A change that is near stays in the hunk. -/
theorem processChange_near (hbef : self.before = front ++ (piece.same ++ (piece.removed ++ rest)))
    (haft : self.after = front' ++ (piece.same ++ (piece.added ++ rest'))) (hline : lines ≠ []) (hfro : front.length = s + (oldSide lines).length)
    (hnear : piece.same.length ≤ self.contextLines * 2) :
    (self.writing s t lines dst).processChange
      ⟨⟨front.length + piece.same.length, front.length + piece.same.length + piece.removed.length⟩,
        ⟨front'.length + piece.same.length, front'.length + piece.same.length + piece.added.length⟩⟩ = do
      let _ ← u32 (self.contextLines * 2)
      return self.writing s t (lines ++ (marked .same piece.same ++ changeLines piece)) dst := by
  unfold processChange
  have hwid : (self.writing s t lines dst).contextLines = self.contextLines := rfl
  cases hu : u32 (self.contextLines * 2) with
  | none => simp [hwid, hu]
  | some width =>
    obtain rfl := (u32_eq_some.mp hu).2
    have hpos : ¬front.length + piece.same.length - (self.writing s t lines dst).pos > self.contextLines * 2 := by
      have heq : (self.writing s t lines dst).pos = front.length := hfro.symm
      omega
    have haft' : self.after = (front' ++ piece.same) ++ (piece.added ++ rest') := by rw [haft, append_assoc]
    have hchg : (self.writing s t lines dst).printChange _ = _ := printChange_writing hbef haft' hfro
    rw [length_append] at hchg
    simp only [hwid, hu, Option.bind_eq_bind, Option.bind_some, if_neg hpos, openHunk_writing hline, hchg, Option.pure_def]

/-- In front of a change that is far away the hunk is flushed. -/
theorem processChange_far (hbef : self.before = front ++ (piece.same ++ (piece.removed ++ rest)))
    (haft : self.after = front' ++ (piece.same ++ (piece.added ++ rest'))) (hline : lines ≠ []) (hfro : front.length = s + (oldSide lines).length)
    (hfro' : front'.length = t + (newSide lines).length) (hfar : self.contextLines * 2 < piece.same.length) :
    (self.writing s t lines dst).processChange
      ⟨⟨front.length + piece.same.length, front.length + piece.same.length + piece.removed.length⟩,
        ⟨front'.length + piece.same.length, front'.length + piece.same.length + piece.added.length⟩⟩ = do
      let _ ← u32 (self.contextLines * 2)
      let _ ← u32 (s + (oldSide lines).length + self.contextLines)
      let first ← header self.oldLineOffset self.newLineOffset s t (lines ++ marked .same (piece.same.take self.contextLines))
      let apart := piece.same.length - self.contextLines
      return self.writing (s + (oldSide lines).length + apart) (t + (newSide lines).length + apart)
        (marked .same (piece.same.drop apart) ++ changeLines piece) (dst ++ [first]) := by
  unfold processChange
  have hwid : (self.writing s t lines dst).contextLines = self.contextLines := rfl
  cases hu : u32 (self.contextLines * 2) with
  | none => simp [hwid, hu]
  | some width =>
    obtain rfl := (u32_eq_some.mp hu).2
    have hpos : front.length + piece.same.length - (self.writing s t lines dst).pos > self.contextLines * 2 := by
      have heq : (self.writing s t lines dst).pos = front.length := hfro.symm
      omega
    have hflu : (self.writing s t lines dst).flush = _ := flush_writing hbef hfro hline
    have htake : (piece.same ++ (piece.removed ++ rest)).take self.contextLines = piece.same.take self.contextLines :=
      take_append_of_le_length (by omega)
    rw [htake] at hflu
    have hchg (dst : List Written) : (self.writing _ _ [] dst).printChange _ = _ :=
      printChange_open hbef haft (Nat.sub_le _ self.contextLines)
    have hst : front.length + piece.same.length - self.contextLines = front.length + (piece.same.length - self.contextLines) := by
      omega
    have hst' :
        front'.length + piece.same.length - self.contextLines = front'.length + (piece.same.length - self.contextLines) := by
      omega
    simp only [hwid, hu, Option.bind_eq_bind, Option.bind_some, if_pos hpos, hflu, Option.pure_def, Option.bind_assoc,
      openHunk_idle, hst, hst', hchg, ← hfro, ← hfro']

end Step

/-- What is written of the pieces behind a hunk that has lines. -/
theorem finish_writing (pieces : List (Piece Str)) (tail front front' : List Str)
    (hbef : self.before = front ++ Piece.before pieces tail) (haft : self.after = front' ++ Piece.after pieces tail)
    (hchd : ∀ piece ∈ pieces, 0 < piece.removed.length ∨ 0 < piece.added.length) (hline : lines ≠ [])
    (hfro : front.length = s + (oldSide lines).length) (hfro' : front'.length = t + (newSide lines).length) :
    ((self.writing s t lines dst).processChanges (Piece.hunks front.length front'.length pieces)).bind finish =
      (written self.contextLines self.oldLineOffset self.newLineOffset s t lines pieces tail).map (dst ++ ·) := by
  induction pieces generalizing front front' s t lines dst with
  | nil =>
    have hflu : (self.writing s t lines dst).flush = _ := flush_writing hbef hfro hline
    simp only [Piece.hunks, processChanges, Option.bind_some, finish, hflu, written, Piece.before]
    simp only [Option.bind_eq_bind, Option.bind_assoc, Option.pure_def, Option.map_bind, comp_def, Option.map_some, Option.bind_some]
    rfl
  | cons piece pieces ih =>
    rw [Piece.before] at hbef
    rw [Piece.after] at haft
    rw [forall_mem_cons] at hchd
    have hbef' : self.before = (front ++ (piece.same ++ piece.removed)) ++ Piece.before pieces tail := by
      rw [hbef, append_assoc, append_assoc]
    have haft' : self.after = (front' ++ (piece.same ++ piece.added)) ++ Piece.after pieces tail := by
      rw [haft, append_assoc, append_assoc]
    have hrest (s t : Nat) (same : List Str) (dst : List Written) (lines : List (Mark × Str))
        (hold : s + (oldSide lines).length + same.length = front.length + piece.same.length)
        (hnew : t + (newSide lines).length + same.length = front'.length + piece.same.length) :
        ((self.writing s t (lines ++ (marked .same same ++ changeLines piece)) dst).processChanges
          (Piece.hunks (front.length + piece.same.length + piece.removed.length)
            (front'.length + piece.same.length + piece.added.length) pieces)).bind finish =
          (written self.contextLines self.oldLineOffset self.newLineOffset s t
            (lines ++ (marked .same same ++ changeLines piece)) pieces tail).map (dst ++ ·) := by
      have hlen : (front ++ (piece.same ++ piece.removed)).length = front.length + piece.same.length + piece.removed.length := by
        rw [length_append, length_append, Nat.add_assoc]
      have hlen' : (front' ++ (piece.same ++ piece.added)).length = front'.length + piece.same.length + piece.added.length := by
        rw [length_append, length_append, Nat.add_assoc]
      rw [← hlen, ← hlen', ← append_assoc]
      exact ih _ _ hbef' haft' hchd.2 (changeLines_ne_nil hchd.1 _) (by simp; omega) (by simp; omega)
    rw [Piece.hunks, written]
    by_cases hfar : piece.same.length > self.contextLines * 2
    · have hstep : (self.writing s t lines dst).processChange _ = _ :=
        processChange_far hbef haft hline hfro hfro' hfar
      have hapa := hrest (s + (oldSide lines).length + (piece.same.length - self.contextLines))
        (t + (newSide lines).length + (piece.same.length - self.contextLines))
        (piece.same.drop (piece.same.length - self.contextLines))
      have hapa' (dst : List Written) := hapa dst [] (by simp; omega) (by simp; omega)
      simp only [processChanges, hstep, if_pos hfar, Option.bind_eq_bind, Option.bind_assoc, Option.pure_def, Option.bind_some,
        Option.map_bind, comp_def, nil_append] at hapa' ⊢
      simp only [hapa', Option.bind_some, append_assoc, singleton_append, Option.map_eq_bind, comp_def]
    · have hstep : (self.writing s t lines dst).processChange _ = _ :=
        processChange_near hbef haft hline hfro (by omega)
      simp only [processChanges, hstep, if_neg hfar, Option.bind_eq_bind, Option.bind_assoc, Option.pure_def, Option.bind_some,
        hrest s t piece.same dst lines (by omega) (by omega), Option.map_bind, comp_def]

/-- The first hunk is opened at the first change. -/
theorem processChange_new {before after rest : List Str} {oldLineOffset newLineOffset contextLines : Nat}
    (hbef : before = piece.same ++ (piece.removed ++ rest)) (haft : after = piece.same ++ (piece.added ++ rest')) :
    (new before after oldLineOffset newLineOffset contextLines).processChange
      ⟨⟨0 + piece.same.length, 0 + piece.same.length + piece.removed.length⟩,
        ⟨0 + piece.same.length, 0 + piece.same.length + piece.added.length⟩⟩ = do
      let _ ← u32 (contextLines * 2)
      let apart := piece.same.length - contextLines
      return (new before after oldLineOffset newLineOffset contextLines).writing apart apart
        (marked .same (piece.same.drop apart) ++ changeLines piece) [] := by
  generalize hself : new before after oldLineOffset newLineOffset contextLines = self
  have hidle : self.idle 0 0 0 [] = self := by rw [← hself]; rfl
  have hcon : self.contextLines = contextLines := by rw [← hself]; rfl
  have hflu : self.flush = some self := by
    rw [← hself]
    rfl
  have hbef' : self.before = [] ++ (piece.same ++ (piece.removed ++ rest)) := by rw [← hself]; exact hbef
  have haft' : self.after = [] ++ (piece.same ++ (piece.added ++ rest')) := by rw [← hself]; exact haft
  have hchg : (self.writing _ _ [] []).printChange _ = _ :=
    printChange_open hbef' haft' (Nat.sub_le _ contextLines)
  have hopen (hunk : Hunk) : self.openHunk hunk = _ := hidle ▸ openHunk_idle hunk
  unfold processChange
  rw [hcon]
  cases u32 _ with
  | none => rfl
  | some width =>
    simp only [Option.bind_eq_bind, Option.bind_some, hflu, ite_self, hopen, hcon]
    simpa using hchg

end OffsetUnifiedDiffBuilder

/-- What is written of all pieces. -/
def writtenHunks (contextLines oldLineOffset newLineOffset : Nat) : List (Piece Str) → List Str → Option (List Written)
  | [], _ => some []
  | piece :: pieces, tail => do
    let _ ← u32 (contextLines * 2)
    let apart := piece.same.length - contextLines
    written contextLines oldLineOffset newLineOffset apart apart (marked .same (piece.same.drop apart) ++ changeLines piece) pieces
      tail

/-- `unified_diff_with_context` from the pieces that the library finds. -/
theorem unifiedDiffHunks_eq (library : DiffLibrary) (oldText newText : Str) (oldStartLine newStartLine contextLines : Nat) :
    ∃ pieces tail, oldText.lines = Piece.before pieces tail ∧ newText.lines = Piece.after pieces tail ∧
      library.compute oldText.lines newText.lines = Piece.hunks 0 0 pieces ∧
      unifiedDiffHunks library oldText newText oldStartLine newStartLine contextLines =
        writtenHunks contextLines oldStartLine newStartLine pieces tail := by
  obtain ⟨pieces, tail, hbef, haft, hhunk⟩ := (library.aligned oldText.lines newText.lines).exists_pieces
  have hchd := library.changed oldText.lines newText.lines
  refine ⟨pieces, tail, hbef, haft, hhunk, ?_⟩
  rw [hhunk] at hchd
  have hpiec := Piece.changed_of_hunks hchd
  rw [unifiedDiffHunks, hhunk]
  cases pieces with
  | nil => rfl
  | cons piece pieces =>
    rw [forall_mem_cons] at hpiec
    rw [Piece.before] at hbef
    rw [Piece.after] at haft
    have hfin := @OffsetUnifiedDiffBuilder.finish_writing
      (OffsetUnifiedDiffBuilder.new oldText.lines newText.lines oldStartLine newStartLine contextLines)
      (piece.same.length - contextLines) (piece.same.length - contextLines)
      (marked .same (piece.same.drop (piece.same.length - contextLines)) ++ changeLines _) [] _ tail
      _ _ (by rw [append_assoc]; exact hbef)
      (by rw [append_assoc]; exact haft) hpiec.2 (changeLines_ne_nil hpiec.1 _) (by simp; omega) (by simp; omega)
    have hstep :
        (OffsetUnifiedDiffBuilder.new oldText.lines newText.lines oldStartLine newStartLine contextLines).processChange _ = _ :=
      OffsetUnifiedDiffBuilder.processChange_new hbef haft
    simp only [length_append, nil_append, Option.map_id'] at hfin
    simp only [Nat.zero_add] at hstep
    simp only [Piece.hunks, OffsetUnifiedDiffBuilder.processChanges, writtenHunks, Option.bind_eq_bind, Option.bind_assoc,
      Nat.zero_add, hstep, Option.pure_def, Option.bind_some, hfin]
    rfl

end Wu.TextDiff
