import Wu.Pieces
import Wu.Rope.Str

/-!
# Diffs of texts

`text_diff.rs` of the `language` crate: edits that turn one text into another, from the diff of their tokens. What the diff
library finds in the tokens is a list of pieces, and so is what the code makes of it in the text; within a piece that is small
enough, the pieces of a second diff take its place.
-/

namespace Wu.TextDiff

open List Str

open Pieces (Piece Range Hunk Aligned)

/-- `Diff::compute` of the diff library, and its hunks: they are in order, none is empty on both sides, and the tokens are equal
outside of them. -/
structure DiffLibrary where
  compute : List Str → List Str → List Hunk
  aligned : ∀ before after, Aligned before after 0 0 (compute before after)
  changed : ∀ before after, ∀ hunk ∈ compute before after, hunk.before.start < hunk.before.stop ∨ hunk.after.start < hunk.after.stop

/-- `lines` of the diff library: the lines with their line feeds. -/
structure Lines where
  lines : Str → List Str
  flatten : ∀ text, (lines text).flatten = text

/-- `enum CharKind`. -/
inductive CharKind where
  | whitespace
  | punctuation
  | word
  deriving DecidableEq, Repr

/-- `struct DiffOptions`, without the scope, which decides the kinds of characters. -/
structure DiffOptions where
  maxWordDiffLen : Nat
  maxWordDiffLineCount : Nat

/-! ## The code -/

/-- `&tokens[start..end]`. -/
def slice (tokens : List Str) (start stop : Nat) : Option (List Str) :=
  if start ≤ stop ∧ stop ≤ tokens.length then some ((tokens.drop start).take (stop - start)) else none

/-- `token_len`. -/
def tokenLen (tokens : List Str) : Nat := (tokens.map Str.len).sum

/-- What is told of a hunk: the bytes and the tokens on both sides. -/
structure Change where
  oldBytes : Range
  newBytes : Range
  oldRows : Range
  newRows : Range
  deriving DecidableEq, Repr

/-- The loop of `diff_internal`. -/
def diffLoop (before after : List Str) : Nat → Nat → Nat → Nat → List Hunk → Option (List Change)
  | _, _, _, _, [] => some []
  | oldOffset, newOffset, oldTokenIx, newTokenIx, hunk :: hunks => do
    let oldOffset := oldOffset + tokenLen (← slice before oldTokenIx hunk.before.start)
    let newOffset := newOffset + tokenLen (← slice after newTokenIx hunk.after.start)
    let oldLen := tokenLen (← slice before hunk.before.start hunk.before.stop)
    let newLen := tokenLen (← slice after hunk.after.start hunk.after.stop)
    let rest ← diffLoop before after (oldOffset + oldLen) (newOffset + newLen) hunk.before.stop hunk.after.stop hunks
    return ⟨⟨oldOffset, oldOffset + oldLen⟩, ⟨newOffset, newOffset + newLen⟩, hunk.before, hunk.after⟩ :: rest

/-- `diff_internal`: the changes it is called back with. -/
def diffInternal (library : DiffLibrary) (before after : List Str) : Option (List Change) :=
  diffLoop before after 0 0 0 0 (library.compute before after)

/-- `Range::len`. -/
def rangeLen (range : Range) : Nat := range.stop - range.start

/-- `Range::is_empty`. -/
def rangeIsEmpty (range : Range) : Bool := range.stop ≤ range.start

/-- `should_perform_word_diff_within_hunk`. -/
def shouldPerformWordDiffWithinHunk (change : Change) (options : DiffOptions) : Bool :=
  !rangeIsEmpty change.oldBytes && !rangeIsEmpty change.newBytes && decide (rangeLen change.oldBytes ≤ options.maxWordDiffLen) &&
    decide (rangeLen change.newBytes ≤ options.maxWordDiffLen) &&
    decide (rangeLen change.oldRows ≤ options.maxWordDiffLineCount) &&
    decide (rangeLen change.newRows ≤ options.maxWordDiffLineCount)

/-- `tokenize_chars`. -/
def tokenizeChars (text : Str) : List Str := text.map fun c => [c]

/-- The loop of `tokenize`: the token that has been started, and the character in front of the rest of the text. -/
def tokenizeLoop (kind : Char → CharKind) (token : Str) (prev : Option Char) : Str → List Str
  | [] => if token.isEmpty then [] else [token]
  | c :: text =>
    if prev.any fun prevChar => kind c != kind prevChar || kind c == .punctuation && c != prevChar then
      token :: tokenizeLoop kind [c] (some c) text
    else tokenizeLoop kind (token ++ [c]) (some c) text

/-- `tokenize`. -/
def tokenize (kind : Char → CharKind) (text : Str) : List Str := tokenizeLoop kind [] none text

/-- The text of an edit. -/
def replacement (newText : Str) (range : Range) : Option Str :=
  if rangeIsEmpty range then some [] else newText.index range.start range.stop

/-- An edit of a diff within a hunk that starts at these offsets. -/
def wordEdit (newText : Str) (oldOffset newOffset : Nat) (change : Change) : Option (Range × Str) := do
  let oldBytes : Range := ⟨oldOffset + change.oldBytes.start, oldOffset + change.oldBytes.stop⟩
  let newBytes : Range := ⟨newOffset + change.newBytes.start, newOffset + change.newBytes.stop⟩
  return (oldBytes, ← replacement newText newBytes)

/-- An edit of a whole change. -/
def wholeEdit (newText : Str) (change : Change) : Option (Range × Str) := do
  return (change.oldBytes, ← replacement newText change.newBytes)

/-- The edits that `text_diff_with_options` makes of a change of the lines. -/
def hunkEdits (library : DiffLibrary) (kind : Char → CharKind) (oldText newText : Str) (options : DiffOptions) (change : Change) :
    Option (List (Range × Str)) := do
  if shouldPerformWordDiffWithinHunk change options then
    let before := tokenize kind (← oldText.index change.oldBytes.start change.oldBytes.stop)
    let after := tokenize kind (← newText.index change.newBytes.start change.newBytes.stop)
    let changes ← diffInternal library before after
    changes.mapM (wordEdit newText change.oldBytes.start change.newBytes.start)
  else return [← wholeEdit newText change]

/-- `text_diff_with_options`. -/
def textDiffWithOptions (library : DiffLibrary) (lines : Lines) (kind : Char → CharKind) (oldText newText : Str)
    (options : DiffOptions) : Option (List (Range × Str)) := do
  let changes ← diffInternal library (lines.lines oldText) (lines.lines newText)
  let edits ← changes.mapM (hunkEdits library kind oldText newText options)
  return edits.flatten

/-- `char_diff`. -/
def charDiff (library : DiffLibrary) (oldText newText : Str) : Option (List (Range × Str)) := do
  let changes ← diffInternal library (tokenizeChars oldText) (tokenizeChars newText)
  changes.mapM (wholeEdit newText)

/-- A range is put behind the others, or the last one is extended to it. -/
def pushRange (ranges : List Range) (range : Range) : List Range :=
  if rangeIsEmpty range then ranges
  else
    match ranges.getLast? with
    | some last => if last.stop ≥ range.start then ranges.dropLast ++ [⟨last.start, range.stop⟩] else ranges ++ [range]
    | none => ranges ++ [range]

/-- `word_diff_ranges`. -/
def wordDiffRanges (library : DiffLibrary) (kind : Char → CharKind) (oldText newText : Str) :
    Option (List Range × List Range) := do
  let changes ← diffInternal library (tokenize kind oldText) (tokenize kind newText)
  return (changes.foldl (fun ranges change => pushRange ranges change.oldBytes) [],
    changes.foldl (fun ranges change => pushRange ranges change.newBytes) [])

/-! ## What it is for -/

/-- The text with the edits made, from an offset on; there is none when an edit is not in order or inside a character. -/
def applyEdits (text : Str) : Nat → List (Range × Str) → Option Str
  | pos, [] => text.index pos text.len
  | pos, (range, replacement) :: edits => do
    let kept ← text.index pos range.start
    let _ ← text.index range.start range.stop
    return kept ++ replacement ++ (← applyEdits text range.stop edits)

/-- The ranges are on boundaries of characters, and each of them ends before the next one starts. -/
structure InOrder (text : Str) (ranges : List Range) : Prop where
  boundaries : ∀ range ∈ ranges, text.isCharBoundary range.start = true ∧ text.isCharBoundary range.stop = true
  sorted : ∀ range ∈ ranges, range.start ≤ range.stop
  disjoint : ranges.Pairwise fun a b => a.stop ≤ b.start

/-- The text outside of the ranges. -/
def outside (text : Str) (ranges : List Range) : Option Str := applyEdits text 0 (ranges.map fun range => (range, []))

/-! ## Edits that turn one text into another -/

/-- The edits, from an offset on, turn one text into another: what is between them stays. -/
inductive Turns : Nat → List (Range × Str) → Str → Str → Prop
  | nil (pos : Nat) (text : Str) : Turns pos [] text text
  | cons {pos : Nat} {edits : List (Range × Str)} {old new : Str} (same removed added : Str)
      (h : Turns (pos + (same.len + removed.len)) edits old new) :
      Turns pos ((⟨pos + same.len, pos + same.len + removed.len⟩, added) :: edits) (same ++ (removed ++ old)) (same ++ (added ++ new))

namespace Turns

variable {pos : Nat} {edits edits' : List (Range × Str)} {old new old' new' : Str}

/-- What stays may be longer. -/
theorem keep (text : Str) (h : Turns (pos + text.len) edits old new) : Turns pos edits (text ++ old) (text ++ new) := by
  cases h with
  | nil => exact .nil pos _
  | cons same removed added h =>
    have hlen : pos + text.len + same.len = pos + Str.len (text ++ same) := by rw [len_append, Nat.add_assoc]
    rw [← append_assoc, ← append_assoc text, hlen]
    refine .cons _ _ _ ?_
    rwa [← Nat.add_assoc, hlen, Nat.add_assoc] at h

/-- Edits of one part of the text and of what comes behind it. -/
theorem append (h : Turns pos edits old new) (h' : Turns (pos + old.len) edits' old' new') :
    Turns pos (edits ++ edits') (old ++ old') (new ++ new') := by
  induction h with
  | nil pos text => exact h'.keep text
  | @cons pos edits old new same removed added _ ih =>
    simp only [append_assoc, cons_append]
    refine .cons same _ _ (ih ?_)
    simp only [len_append] at h' ⊢
    rwa [Nat.add_assoc, Nat.add_assoc]

/-- The last edit, and what is on both sides of it. -/
theorem exists_last {range : Range} {text : Str} (h : Turns pos (edits ++ [(range, text)]) old new) :
    ∃ old' new' same removed tail, Turns pos edits old' new' ∧ old = old' ++ (same ++ (removed ++ tail)) ∧
      new = new' ++ (same ++ (text ++ tail)) ∧ range = ⟨pos + old'.len + same.len, pos + old'.len + same.len + removed.len⟩ := by
  induction edits generalizing pos old new with
  | nil =>
    cases h with
    | cons same removed added h =>
      cases h with
      | nil => exact ⟨[], [], same, removed, _, .nil _ _, rfl, rfl, rfl⟩
  | cons edit edits ih =>
    cases h with
    | cons same removed added h =>
      obtain ⟨old', new', same', removed', tail, hturn, rfl, rfl, rfl⟩ := ih h
      refine ⟨same ++ (removed ++ old'), same ++ (added ++ new'), same', removed', tail, .cons same _ _ hturn, ?_, ?_, ?_⟩
      · simp
      · simp
      · simp only [len_append, Nat.add_assoc]

/-- The edits can be applied to the text behind any other, and the result is the other text. -/
theorem applyEdits (h : Turns pos edits old new) (front : Str) (hpos : pos = front.len) :
    TextDiff.applyEdits (front ++ old) pos edits = some new := by
  induction h generalizing front with
  | nil pos text =>
    subst hpos
    have hidx := index_append front text []
    rwa [append_nil] at hidx
  | @cons pos edits old new same removed added _ ih =>
    subst hpos
    have hkept : (front ++ (same ++ (removed ++ old))).index front.len (front.len + same.len) = some same := by
      have hidx := index_append front same (removed ++ old)
      rwa [len_append, append_assoc] at hidx
    have hrem : (front ++ (same ++ (removed ++ old))).index (front.len + same.len) (front.len + same.len + removed.len) =
        some removed := by
      have hidx := index_append (front ++ same) removed old
      rwa [append_assoc, append_assoc, len_append (front ++ same), len_append] at hidx
    have hrest := ih (front ++ (same ++ removed)) (by simp)
    simp only [append_assoc] at hrest
    rw [TextDiff.applyEdits, hkept, Option.bind_eq_bind, hrem]
    rw [Nat.add_assoc, hrest]
    simp

/-- The ranges are in order. -/
theorem inOrder (h : Turns pos edits old new) (front : Str) (hpos : pos = front.len) :
    InOrder (front ++ old) (edits.map Prod.fst) ∧ ∀ edit ∈ edits, pos ≤ edit.1.start := by
  induction h generalizing front with
  | nil => exact ⟨⟨by simp, by simp, List.Pairwise.nil⟩, by simp⟩
  | @cons pos edits old new same removed added _ ih =>
    subst hpos
    obtain ⟨⟨hbou, hsort, hdisjoint⟩, hfrom⟩ := ih (front ++ (same ++ removed)) (by simp)
    simp only [append_assoc] at hbou
    have hst : (front ++ (same ++ (removed ++ old))).isCharBoundary (front.len + same.len) = true := by
      rw [← append_assoc, ← len_append]
      exact isCharBoundary_append _ _
    have hstop : (front ++ (same ++ (removed ++ old))).isCharBoundary (front.len + same.len + removed.len) = true := by
      rw [← append_assoc, ← append_assoc, ← len_append, ← len_append]
      exact isCharBoundary_append _ _
    refine ⟨⟨?_, ?_, ?_⟩, ?_⟩
    · rw [map_cons, forall_mem_cons]
      exact ⟨⟨hst, hstop⟩, hbou⟩
    · rw [map_cons, forall_mem_cons]
      exact ⟨Nat.le_add_right _ _, hsort⟩
    · rw [map_cons, pairwise_cons]
      refine ⟨fun range hran => ?_, hdisjoint⟩
      obtain ⟨edit, hedit, rfl⟩ := mem_map.mp hran
      rw [Nat.add_assoc]
      exact hfrom edit hedit
    · rw [forall_mem_cons]
      refine ⟨Nat.le_add_right _ _, fun edit hedit => ?_⟩
      have hle := hfrom edit hedit
      omega

end Turns

/-! ## What the code finds -/

theorem tokenLen_eq (tokens : List Str) : tokenLen tokens = Str.len tokens.flatten := by
  induction tokens with
  | nil => rfl
  | cons token tokens ih =>
    rw [flatten_cons, len_append, ← ih]
    rfl

theorem tokenLen_append (a b : List Str) : tokenLen (a ++ b) = tokenLen a + tokenLen b := by
  rw [tokenLen, map_append, List.sum_append]
  rfl

theorem slice_append (a b c : List Str) : slice (a ++ (b ++ c)) a.length (a.length + b.length) = some b := by
  rw [slice, if_pos ⟨Nat.le_add_right _ _, by simp only [length_append]; omega⟩, drop_left, Nat.add_sub_cancel_left, take_left]

/-- What is told of the pieces, from offsets and tokens on both sides on. -/
def changes : Nat → Nat → Nat → Nat → List (Piece Str) → List Change
  | _, _, _, _, [] => []
  | oldOffset, newOffset, oldRow, newRow, piece :: pieces =>
    let oldStart := oldOffset + tokenLen piece.same
    let newStart := newOffset + tokenLen piece.same
    let oldRow := oldRow + piece.same.length
    let newRow := newRow + piece.same.length
    ⟨⟨oldStart, oldStart + tokenLen piece.removed⟩, ⟨newStart, newStart + tokenLen piece.added⟩,
      ⟨oldRow, oldRow + piece.removed.length⟩, ⟨newRow, newRow + piece.added.length⟩⟩ ::
      changes (oldStart + tokenLen piece.removed) (newStart + tokenLen piece.added) (oldRow + piece.removed.length)
        (newRow + piece.added.length) pieces

theorem diffLoop_eq (pieces : List (Piece Str)) (tail front front' : List Str) :
    diffLoop (front ++ Piece.before pieces tail) (front' ++ Piece.after pieces tail) (tokenLen front) (tokenLen front')
      front.length front'.length (Piece.hunks front.length front'.length pieces) =
      some (changes (tokenLen front) (tokenLen front') front.length front'.length pieces) := by
  induction pieces generalizing front front' with
  | nil => rfl
  | cons piece pieces ih =>
    obtain ⟨same, removed, added⟩ := piece
    have hsame : slice (front ++ (same ++ (removed ++ Piece.before pieces tail))) front.length (front.length + same.length) =
        some same := slice_append _ _ _
    have hsame' : slice (front' ++ (same ++ (added ++ Piece.after pieces tail))) front'.length (front'.length + same.length) =
        some same := slice_append _ _ _
    have hrem : slice (front ++ (same ++ (removed ++ Piece.before pieces tail))) (front.length + same.length)
        (front.length + same.length + removed.length) = some removed := by
      have hsli := slice_append (front ++ same) removed (Piece.before pieces tail)
      rwa [length_append, append_assoc] at hsli
    have hadd : slice (front' ++ (same ++ (added ++ Piece.after pieces tail))) (front'.length + same.length)
        (front'.length + same.length + added.length) = some added := by
      have hsli := slice_append (front' ++ same) added (Piece.after pieces tail)
      rwa [length_append, append_assoc] at hsli
    have hrest := ih (front ++ (same ++ removed)) (front' ++ (same ++ added))
    simp only [append_assoc, tokenLen_append, length_append, ← Nat.add_assoc] at hrest
    simp only [Piece.before, Piece.after, Piece.hunks, changes, diffLoop, hsame, hsame', hrem, hadd, Option.bind_eq_bind,
      Option.bind_some, hrest, Option.pure_def]

/-- The pieces that the library finds. -/
theorem diffInternal_spec (library : DiffLibrary) (before after : List Str) :
    ∃ pieces tail, before = Piece.before pieces tail ∧ after = Piece.after pieces tail ∧
      diffInternal library before after = some (changes 0 0 0 0 pieces) := by
  obtain ⟨pieces, tail, hbef, haft, hhunk⟩ := (library.aligned _ _).exists_pieces
  rw [drop_zero] at hbef haft
  refine ⟨pieces, tail, hbef, haft, ?_⟩
  rw [diffInternal, hhunk, hbef, haft]
  exact diffLoop_eq _ tail [] []

theorem replacement_append (a b c : Str) : replacement (a ++ (b ++ c)) ⟨a.len, a.len + b.len⟩ = some b := by
  unfold replacement rangeIsEmpty
  split
  · rename_i hemp
    have hlen : b.len = 0 := by
      have hle := of_decide_eq_true hemp
      dsimp only at hle
      omega
    rw [Str.len_eq_zero.mp hlen]
  · have hidx := index_append a b c
    rwa [len_append, append_assoc] at hidx

theorem flatten_before (piece : Piece Str) (pieces : List (Piece Str)) (tail : List Str) :
    (Piece.before (piece :: pieces) tail).flatten =
      piece.same.flatten ++ (piece.removed.flatten ++ (Piece.before pieces tail).flatten) := by
  rw [Piece.before, flatten_append, flatten_append]

theorem flatten_after (piece : Piece Str) (pieces : List (Piece Str)) (tail : List Str) :
    (Piece.after (piece :: pieces) tail).flatten =
      piece.same.flatten ++ (piece.added.flatten ++ (Piece.after pieces tail).flatten) := by
  rw [Piece.after, flatten_append, flatten_append]

section Edits

variable {oldText newText oldOuter newOuter : Str}

/-- The edits of a change turn what is removed into what is added; the texts start in outer ones. -/
def TurnsChanges (oldText newText oldOuter newOuter : Str) (edit : Change → Option (List (Range × Str))) : Prop :=
  ∀ (oldFront newFront removed added oldRest newRest : Str) (oldRows newRows : Range),
    oldText = oldOuter ++ (oldFront ++ (removed ++ oldRest)) → newText = newOuter ++ (newFront ++ (added ++ newRest)) →
    ∃ edits, edit ⟨⟨oldFront.len, oldFront.len + removed.len⟩, ⟨newFront.len, newFront.len + added.len⟩, oldRows, newRows⟩ =
      some edits ∧ Turns (oldOuter.len + oldFront.len) edits removed added

/-- When the edits of each change do what they should, so do those of all. -/
theorem TurnsChanges.all {edit : Change → Option (List (Range × Str))} (hedit : TurnsChanges oldText newText oldOuter newOuter edit)
    (pieces : List (Piece Str)) (tail : List Str) (oldFront newFront oldRest newRest : Str) (oldRow newRow : Nat)
    (hold : oldText = oldOuter ++ (oldFront ++ ((Piece.before pieces tail).flatten ++ oldRest)))
    (hnew : newText = newOuter ++ (newFront ++ ((Piece.after pieces tail).flatten ++ newRest))) :
    ∃ edits, (changes oldFront.len newFront.len oldRow newRow pieces).mapM edit = some edits ∧
      Turns (oldOuter.len + oldFront.len) edits.flatten (Piece.before pieces tail).flatten (Piece.after pieces tail).flatten := by
  induction pieces generalizing oldFront newFront oldRow newRow with
  | nil => exact ⟨[], rfl, .nil _ _⟩
  | cons piece pieces ih =>
    rw [flatten_before, flatten_after]
    rw [flatten_before] at hold
    rw [flatten_after] at hnew
    obtain ⟨first, hfst, hturn⟩ := hedit (oldFront ++ piece.same.flatten) (newFront ++ piece.same.flatten) piece.removed.flatten
      piece.added.flatten ((Piece.before pieces tail).flatten ++ oldRest) ((Piece.after pieces tail).flatten ++ newRest)
      ⟨oldRow + piece.same.length, oldRow + piece.same.length + piece.removed.length⟩
      ⟨newRow + piece.same.length, newRow + piece.same.length + piece.added.length⟩
      (by rw [hold]; simp) (by rw [hnew]; simp)
    obtain ⟨rest, hrest, hturn'⟩ := ih (oldFront ++ (piece.same.flatten ++ piece.removed.flatten))
      (newFront ++ (piece.same.flatten ++ piece.added.flatten)) (oldRow + piece.same.length + piece.removed.length)
      (newRow + piece.same.length + piece.added.length) (by rw [hold]; simp)
      (by rw [hnew]; simp)
    simp only [len_append, ← Nat.add_assoc] at hfst hrest hturn hturn'
    refine ⟨first :: rest, ?_, ?_⟩
    · simp only [changes, tokenLen_eq, mapM_cons, hfst, hrest, Option.bind_eq_bind, Option.bind_some, Option.pure_def]
    · exact (hturn.append hturn').keep _

theorem mapM_singleton {α β : Type} (f : α → Option β) (l : List α) :
    (l.mapM fun a => (f a).map fun b => [b]) = (l.mapM f).map fun bs => bs.map fun b => [b] := by
  induction l with
  | nil => rfl
  | cons a l ih =>
    simp only [mapM_cons, ih]
    cases f a with
    | none => rfl
    | some b => cases l.mapM f <;> rfl

/-- One edit for each change. -/
theorem exists_edits (oldText newText oldOuter newOuter : Str) {edit : Change → Option (Range × Str)}
    (hedit : ∀ (oldFront newFront removed added oldRest newRest : Str) (oldRows newRows : Range),
      oldText = oldOuter ++ (oldFront ++ (removed ++ oldRest)) → newText = newOuter ++ (newFront ++ (added ++ newRest)) →
      edit ⟨⟨oldFront.len, oldFront.len + removed.len⟩, ⟨newFront.len, newFront.len + added.len⟩, oldRows, newRows⟩ =
        some (⟨oldOuter.len + oldFront.len, oldOuter.len + oldFront.len + removed.len⟩, added))
    (pieces : List (Piece Str)) (tail : List Str) (oldRest newRest : Str)
    (hold : oldText = oldOuter ++ ((Piece.before pieces tail).flatten ++ oldRest))
    (hnew : newText = newOuter ++ ((Piece.after pieces tail).flatten ++ newRest)) :
    ∃ edits, (changes 0 0 0 0 pieces).mapM edit = some edits ∧
      Turns oldOuter.len edits (Piece.before pieces tail).flatten (Piece.after pieces tail).flatten := by
  have hall : TurnsChanges oldText newText oldOuter newOuter fun change => (edit change).map fun e => [e] := by
    intro oldFront newFront removed added oldRest newRest oldRows newRows hold hnew
    have heq := hedit _ _ _ _ _ _ oldRows newRows hold hnew
    have hturn := @Turns.cons (oldOuter.len + oldFront.len) [] [] [] [] removed added (.nil _ [])
    rw [append_nil, append_nil] at hturn
    exact ⟨_, congrArg _ heq, hturn⟩
  obtain ⟨lists, hlist, hturn⟩ := hall.all _ tail [] [] _ _ 0 0 hold hnew
  rw [mapM_singleton] at hlist
  obtain ⟨edits, hedi, rfl⟩ := Option.map_eq_some_iff.mp hlist
  have hfla : (edits.map fun e => [e]).flatten = edits := by
    exact flatMap_singleton' _
  rw [hfla] at hturn
  exact ⟨edits, hedi, hturn⟩

theorem tokenize_flatten (kind : Char → CharKind) (token : Str) (prev : Option Char) (text : Str) :
    (tokenizeLoop kind token prev text).flatten = token ++ text := by
  induction text generalizing token prev with
  | nil =>
    unfold tokenizeLoop
    split
    · rename_i hemp
      rw [List.isEmpty_iff.mp hemp]
      rfl
    · rw [flatten_singleton, append_nil]
  | cons c text ih =>
    unfold tokenizeLoop
    split
    · rw [flatten_cons, ih]
      rfl
    · rw [ih, append_assoc]
      rfl

theorem flatten_tokenizeChars (text : Str) : (tokenizeChars text).flatten = text := by
  exact flatMap_singleton' text

/-- A text in the new one. -/
theorem wholeEdit_append (oldFront newFront removed added newRest : Str) (oldRows newRows : Range) :
    wholeEdit (newFront ++ (added ++ newRest))
      ⟨⟨oldFront.len, oldFront.len + removed.len⟩, ⟨newFront.len, newFront.len + added.len⟩, oldRows, newRows⟩ =
      some (⟨oldFront.len, oldFront.len + removed.len⟩, added) := by
  rw [wholeEdit, replacement_append]
  rfl

/-- The edits of `char_diff` turn the old text into the new one. -/
theorem charDiff_turns (library : DiffLibrary) (oldText newText : Str) :
    ∃ edits, charDiff library oldText newText = some edits ∧ Turns 0 edits oldText newText := by
  obtain ⟨pieces, tail, hbef, haft, hchs⟩ := diffInternal_spec _ _ _
  have hold := congrArg List.flatten hbef
  have hnew := congrArg List.flatten haft
  rw [flatten_tokenizeChars] at hold hnew
  rw [charDiff, hchs, hold, hnew]
  refine exists_edits _ _ [] [] (fun oldFront newFront removed added _ newRest oldRows newRows _ hnew => ?_) _ tail [] []
    (append_nil _).symm (append_nil _).symm
  rw [hnew, nil_append, wholeEdit_append, len_nil, Nat.zero_add]

/-- The edits of a change, by words or not. -/
theorem hunkEdits_turns (library : DiffLibrary) (kind : Char → CharKind) (oldText newText : Str) (options : DiffOptions) :
    TurnsChanges oldText newText [] [] (hunkEdits library kind oldText newText options) := by
  intro oldFront newFront removed added oldRest newRest oldRows newRows hold hnew
  rw [nil_append] at hold hnew
  rw [len_nil, Nat.zero_add]
  unfold hunkEdits
  split
  · have hrem : oldText.index oldFront.len (oldFront.len + removed.len) = some removed := by
      have hidx := index_append oldFront removed oldRest
      rwa [append_assoc, ← hold, len_append] at hidx
    have hadd : newText.index newFront.len (newFront.len + added.len) = some added := by
      have hidx := index_append newFront added newRest
      rwa [append_assoc, ← hnew, len_append] at hidx
    obtain ⟨pieces, tail, hbef, haft, hchs⟩ := diffInternal_spec library (tokenize kind removed) (tokenize kind added)
    have hold' := congrArg List.flatten hbef
    have hnew' := congrArg List.flatten haft
    rw [tokenize, tokenize_flatten, nil_append] at hold' hnew'
    simp only [hrem, hadd, hchs, Option.bind_eq_bind, Option.bind_some]
    rw [hold', hnew']
    refine exists_edits oldText newText _ _ (fun oldFront' newFront' removed' added' _ newRest' _ _ _ hnew => ?_)
      _ tail _ _ (by rw [hold, ← hold']) (by rw [hnew, ← hnew'])
    have hrep : replacement newText ⟨newFront.len + newFront'.len, newFront.len + (newFront'.len + added'.len)⟩ =
        some added' := by
      have heq := replacement_append (newFront ++ newFront') added' newRest'
      rwa [append_assoc, ← hnew, len_append, Nat.add_assoc] at heq
    rw [wordEdit, hrep]
    simp only [Option.bind_eq_bind, Option.bind_some, Option.pure_def, Nat.add_assoc]
  · rw [hnew, wholeEdit_append]
    have hturn := @Turns.cons oldFront.len [] [] [] [] removed added (.nil _ [])
    rw [append_nil, append_nil] at hturn
    exact ⟨_, rfl, hturn⟩

/-- The edits of `text_diff_with_options` turn the old text into the new one. -/
theorem textDiffWithOptions_turns (library : DiffLibrary) (lines : Lines) (kind : Char → CharKind) (oldText newText : Str)
    (options : DiffOptions) :
    ∃ edits, textDiffWithOptions library lines kind oldText newText options = some edits ∧ Turns 0 edits oldText newText := by
  obtain ⟨pieces, tail, hbef, haft, hchs⟩ := diffInternal_spec _ _ _
  have hold := congrArg List.flatten hbef
  have hnew := congrArg List.flatten haft
  rw [lines.flatten] at hold hnew
  obtain ⟨lists, hlist, hturn⟩ := (hunkEdits_turns _ kind oldText newText _).all _ tail [] [] [] [] 0 0
    (by rw [append_nil]; exact hold) (by rw [append_nil]; exact hnew)
  rw [← hold, ← hnew] at hturn
  rw [len_nil] at hlist
  refine ⟨lists.flatten, ?_, hturn⟩
  rw [textDiffWithOptions, hchs, Option.bind_eq_bind, Option.bind_some, hlist]
  rfl

/-! ## Ranges of words -/

/-- A range that is behind the others keeps what is in front of it. -/
theorem pushRange_turns {ranges : List Range} {text kept : Str} (h : Turns 0 (ranges.map fun range => (range, [])) text kept)
    (same changed : Str) :
    Turns 0 ((pushRange ranges ⟨text.len + same.len, text.len + same.len + changed.len⟩).map fun range => (range, []))
      (text ++ (same ++ changed)) (kept ++ same) := by
  have hpush : Turns 0 ((ranges ++ [(⟨text.len + same.len, text.len + same.len + changed.len⟩ : Range)]).map fun range => (range, []))
      (text ++ (same ++ changed)) (kept ++ same) := by
    have hturn := @Turns.cons (0 + text.len) [] [] [] same changed [] (.nil _ [])
    simp only [append_nil, Nat.zero_add] at hturn
    rw [map_append]
    exact h.append (by rw [Nat.zero_add]; exact hturn)
  unfold pushRange
  split
  · rename_i hemp
    have hlen : changed.len = 0 := by
      have hle := of_decide_eq_true hemp
      dsimp only at hle
      omega
    rw [Str.len_eq_zero.mp hlen, append_nil]
    have hturn := h.append (.nil _ same)
    rwa [append_nil] at hturn
  · split
    · rename_i last hlast
      obtain ⟨ranges, rfl⟩ := getLast?_eq_some_iff.mp hlast
      split
      · rename_i hle
        -- nothing is between the last range and this one
        rw [map_append] at h
        obtain ⟨text, kept, before, removed, tail, hturn, rfl, rfl, rfl⟩ := h.exists_last
        simp only [len_append, ge_iff_le] at hle
        have htail : tail = [] := Str.len_eq_zero.mp (by omega)
        have hsame : same = [] := Str.len_eq_zero.mp (by omega)
        subst htail hsame
        have hturn' := hturn.append (@Turns.cons _ [] [] [] before (removed ++ changed) [] (.nil _ []))
        simpa [Nat.add_assoc] using hturn'
      · exact hpush
    · exact hpush

/-- What both sides of the pieces have in common. -/
def common (pieces : List (Piece Str)) (tail : List Str) : Str := (pieces.flatMap Piece.same ++ tail).flatten

/-- What is pushed for the changes: the ranges of both sides are turns of their texts, with the same text kept. -/
theorem foldl_bytes (pieces : List (Piece Str)) (tail : List Str) {olds news : List Range} {text text' kept : Str}
    (hold : Turns 0 (olds.map fun range => (range, [])) text kept) (hnew : Turns 0 (news.map fun range => (range, [])) text' kept)
    (oldRow newRow : Nat) :
    Turns 0 (((changes text.len text'.len oldRow newRow pieces).foldl (fun ranges change => pushRange ranges change.oldBytes)
        olds).map fun range => (range, [])) (text ++ (Piece.before pieces tail).flatten) (kept ++ common pieces tail) ∧
      Turns 0 (((changes text.len text'.len oldRow newRow pieces).foldl (fun ranges change => pushRange ranges change.newBytes)
        news).map fun range => (range, [])) (text' ++ (Piece.after pieces tail).flatten) (kept ++ common pieces tail) := by
  induction pieces generalizing olds news text text' kept oldRow newRow with
  | nil =>
    have holdTail := hold.append (.nil _ tail.flatten)
    have hnewT := hnew.append (.nil _ tail.flatten)
    rw [append_nil] at holdTail hnewT
    exact ⟨holdTail, hnewT⟩
  | cons piece pieces ih =>
    have hrest := ih (pushRange_turns hold piece.same.flatten piece.removed.flatten)
      (pushRange_turns hnew _ piece.added.flatten) (oldRow + piece.same.length + piece.removed.length)
      (newRow + piece.same.length + piece.added.length)
    have hcom : common (piece :: pieces) tail = piece.same.flatten ++ common pieces tail := by
      rw [common, common, flatMap_cons, append_assoc, flatten_append]
    rw [flatten_before, flatten_after, hcom]
    simp only [changes, foldl_cons, tokenLen_eq, len_append, append_assoc, ← Nat.add_assoc] at hrest ⊢
    exact hrest

end Edits

/-- The ranges of `word_diff_ranges` are in order, and both texts are the same outside of them. -/
theorem wordDiffRanges_spec (library : DiffLibrary) (kind : Char → CharKind) (oldText newText : Str) :
    ∃ oldRanges newRanges kept, wordDiffRanges library kind oldText newText = some (oldRanges, newRanges) ∧
      InOrder oldText oldRanges ∧ InOrder newText newRanges ∧ outside oldText oldRanges = some kept ∧
      outside newText newRanges = some kept := by
  obtain ⟨pieces, tail, hbef, haft, hchs⟩ := diffInternal_spec _ (tokenize kind _) (tokenize kind _)
  have hold := congrArg List.flatten hbef
  have hnew := congrArg List.flatten haft
  rw [tokenize, tokenize_flatten] at hold hnew
  have hst : Turns 0 (([] : List Range).map fun range => (range, [])) [] [] := .nil 0 []
  obtain ⟨holdTurns, hnewT⟩ := foldl_bytes _ tail hst hst 0 0
  rw [← hold] at holdTurns
  rw [← hnew] at hnewT
  have hran : ∀ ranges : List Range, (ranges.map fun range => (range, ([] : Str))).map Prod.fst = ranges := by
    intro ranges
    rw [map_map]
    exact map_id _
  have holdOrder := (holdTurns.inOrder [] rfl).1
  have hnewO := (hnewT.inOrder [] rfl).1
  rw [hran] at holdOrder hnewO
  refine ⟨_, _, common _ tail, ?_, holdOrder, hnewO, holdTurns.applyEdits [] rfl, hnewT.applyEdits [] rfl⟩
  rw [wordDiffRanges, hchs]
  rfl

end Wu.TextDiff
