import Wu.BufferDiff.Staging

/-!
# The index that staging and unstaging write

Staging hunks writes the buffer's text of each stretch to the index. Unstaging writes the head's text of each stretch exactly
when the unstaged hunks that overlap or touch a chosen hunk lie in it.
-/

namespace Wu.BufferDiff

open List DiffHunk

variable {V : Type}

section Text

variable {text : Bytes} {range : Span}

/-- A range of a text has as many bytes. -/
theorem length_textForRange (h : range.stop ≤ text.length) : (textForRange text range).length = range.stop - range.start := by
  rw [textForRange, length_drop, length_take, min_eq_left h]

end Text

variable {base : Bytes} {uncommitted : List InternalDiffHunk} {hunk : InternalDiffHunk} {stretch : Span}

/-- The head's range of a hunk is in the range that a stretch around the hunk is aligned with. -/
theorem aligned_hunk_le {buffer : Bytes}
    (h : Correct base buffer uncommitted) (hmem : hunk ∈ uncommitted) (hin : Within hunk.bufferRange stretch) :
    (aligned uncommitted stretch).start ≤ hunk.diffBaseByteRange.start ∧
      hunk.diffBaseByteRange.stop ≤ (aligned uncommitted stretch).stop := by
  constructor
  · rcases Nat.eq_or_lt_of_le hin.1 with heq | hlt
    · exact (congrArg _ heq).trans_le (alignedStart_hunk h.turns h.apart hmem).le
    · exact (alignedStart_lt_hunk h.turns h.apart hmem (Nat.zero_le _) hlt).le
  · rcases Nat.eq_or_lt_of_le hin.2 with heq | hlt
    · exact (alignedStop_hunk h.turns h.apart hmem).ge.trans_eq (congrArg _ heq)
    · exact (hunk_lt_alignedStop h.turns h.apart hmem hlt).le

/-- A stretch that is larger than a hunk is aligned with more of the head's text than the hunk is. -/
theorem aligned_hunk_eq_iff {buffer : Bytes} (h : Correct base buffer uncommitted) (hmem : hunk ∈ uncommitted)
    (hin : Within hunk.bufferRange stretch) :
    aligned uncommitted stretch = hunk.diffBaseByteRange ↔ stretch = hunk.bufferRange := by
  constructor
  · intro heq
    apply Span.ext
    · by_contra hne
      have hlt := alignedStart_lt_hunk h.turns h.apart hmem (Nat.zero_le _) (lt_of_le_of_ne hin.1 hne)
      exact absurd (congrArg Span.start heq) hlt.ne
    · by_contra hne
      have hlt := hunk_lt_alignedStop h.turns h.apart hmem (lt_of_le_of_ne hin.2 (Ne.symm hne))
      exact absurd (congrArg Span.stop heq) hlt.ne'
  · rintro rfl
    exact Span.ext (alignedStart_hunk h.turns h.apart hmem) (alignedStop_hunk h.turns h.apart hmem)

namespace Operation

variable {op : Operation V} {uncommitted unstaged : List InternalDiffHunk} {chosen : List DiffHunk}
  {groups : List (DiffHunk × Span)} {s : Writing V}

/-- When the outer loop has ended, the stretches are those of the chosen hunks. -/
theorem Wrote.stretches (h : op.Wrote unstaged chosen chosen [] groups s) (hready : op.Ready unstaged chosen) :
    Stretches unstaged chosen (groups.map Prod.snd) where
  mem_iff stretch := by
    constructor
    · intro hmem
      obtain ⟨group, hgro, rfl⟩ := mem_map.1 hmem
      exact ⟨group.1, h.stretch _ hgro⟩
    · rintro ⟨hunk, hhunk, hstr⟩
      obtain ⟨group, hgro, hcov⟩ := h.covered hunk hhunk
      obtain ⟨hfst, hgroS⟩ := h.stretch _ hgro
      have hsame := hgroS.of_member (mem_members_of_chosen hfst) (hready.proper hunk hhunk).1 hcov
      exact mem_map.2 ⟨group, hgro, hsame.unique hstr⟩
  apart := pairwise_map.2 h.apart

end Operation

/-- A range that ends before another one starts. -/
def Precedes (a b : Span) : Prop := a.start ≤ a.stop ∧ a.stop < b.start

instance : Std.Irrefl Precedes := ⟨fun _ h => absurd h.2 (Nat.not_lt_of_le h.1)⟩

instance : Std.Antisymm Precedes := ⟨fun _ _ h h' => absurd (h.2.trans_le h'.1) (Nat.not_lt_of_lt (h'.2.trans_le h.1))⟩

/-- The stretches are determined by the hunks. -/
theorem Stretches.unique {unstaged : List InternalDiffHunk} {chosen : List DiffHunk} {first second : List Span}
    (hprop : ∀ hunk ∈ chosen, hunk.bufferRange.start ≤ hunk.bufferRange.stop) (hfst : Stretches unstaged chosen first)
    (hsec : Stretches unstaged chosen second) : first = second := by
  have hpre {stretches : List Span} (h : Stretches unstaged chosen stretches) : stretches.Pairwise Precedes := by
    refine h.apart.imp_of_mem fun {a b} ha _ hlt => ⟨?_, hlt⟩
    obtain ⟨hunk, hhunk, hstr⟩ := (h.mem_iff a).1 ha
    exact (hstr.within.1.trans (hprop hunk hhunk)).trans hstr.within.2
  exact (hpre hfst).eq_of_mem_iff (hpre hsec) fun stretch =>
    (hfst.mem_iff _).trans (hsec.mem_iff _).symm

namespace Operation

variable {op : Operation V} {uncommitted unstaged : List InternalDiffHunk} {chosen : List DiffHunk}
  {groups : List (DiffHunk × Span)} {s : Writing V}

/-- Each unstaged hunk that overlaps or touches a chosen hunk lies in it. -/
def Contained (unstaged : List InternalDiffHunk) (chosen : List DiffHunk) : Prop :=
  ∀ hunk ∈ chosen, ∀ other ∈ unstaged, Touches other.bufferRange hunk.bufferRange → Within other.bufferRange hunk.bufferRange

instance (unstaged : List InternalDiffHunk) (chosen : List DiffHunk) : Decidable (Contained unstaged chosen) :=
  inferInstanceAs (Decidable (∀ _ ∈ _, ∀ _ ∈ _, _ → _))

/-- Of two chosen hunks one is before the other. -/
theorem ChosenApart.cases (h : ChosenApart chosen) {a b : DiffHunk} (ha : a ∈ chosen) (hb : b ∈ chosen) :
    a = b ∨ a.bufferRange.stop < b.bufferRange.start ∨ b.bufferRange.stop < a.bufferRange.start := by
  induction chosen with
  | nil => cases ha
  | cons first chosen ih =>
    obtain ⟨hfst, h⟩ := pairwise_cons.1 h
    rcases mem_cons.1 ha with rfl | ha
    · rcases mem_cons.1 hb with rfl | hb
      · exact .inl rfl
      · exact .inr (.inl (hfst b hb))
    · rcases mem_cons.1 hb with hb | hb
      · exact .inr (.inr (hb ▸ hfst a ha))
      · exact ih h ha hb

/-- Chosen hunks that touch are the same. -/
theorem Ready.eq_of_touches (hready : op.Ready unstaged chosen) {a b : DiffHunk} (ha : a ∈ chosen) (hb : b ∈ chosen)
    (htou : Touches a.bufferRange b.bufferRange) : a = b := by
  rcases ChosenApart.cases hready.apart ha hb with heq | hlt | hlt
  · exact heq
  · exact absurd htou.2 (Nat.not_le_of_lt hlt)
  · exact absurd htou.1 (Nat.not_le_of_lt hlt)

/-- A hunk is its own stretch when the unstaged hunks that reach it lie in it. -/
theorem Ready.stretch_eq_of_contained (hready : op.Ready unstaged chosen) (hcon : Contained unstaged chosen)
    {hunk : DiffHunk} {stretch : Span} (hmem : hunk ∈ chosen)
    (hstr : IsStretch (members unstaged chosen) hunk.bufferRange stretch) : stretch = hunk.bufferRange := by
  refine (hstr.least _ (Within.refl _) fun range hran htou => ?_).antisymm hstr.within
  rcases mem_append.1 hran with hran | hran
  · obtain ⟨other, hoth, rfl⟩ := mem_map.1 hran
    rw [hready.eq_of_touches hoth hmem htou]
    exact Within.refl _
  · obtain ⟨other, hoth, rfl⟩ := mem_map.1 hran
    exact hcon hunk hmem _ hoth htou

/-- When each stretch is its first chosen hunk, the unstaged hunks that reach a chosen hunk lie in it. -/
theorem Wrote.contained (h : op.Wrote unstaged chosen chosen [] groups s) (hready : op.Ready unstaged chosen)
    (hall : ∀ group ∈ groups, group.2 = group.1.bufferRange) : Contained unstaged chosen := by
  intro hunk hhunk other hoth htou
  obtain ⟨group, hgro, hcov⟩ := h.covered hunk hhunk
  obtain ⟨hfst, hstr⟩ := h.stretch _ hgro
  have hprop := hready.proper hunk hhunk
  have hsame : hunk = group.1 := by
    refine hready.eq_of_touches hhunk hfst ?_
    rw [← hall _ hgro]
    exact ⟨hprop.1.trans hcov.2, hcov.1.trans hprop.1⟩
  have hclsd := hstr.closed _ (mem_members_of_unstaged hoth)
  rw [hall _ hgro, ← hsame] at hclsd
  exact hclsd htou

/-- The edits that the loop leaves are edits of the index, in order and disjoint. -/
theorem Wrote.ordered (h : op.Wrote unstaged chosen chosen [] groups s) (hready : op.Ready unstaged chosen) :
    Splice.InBounds op.indexText.length s.edits ∧ Splice.Disjoint s.edits := by
  rw [h.edits]
  have hprop {group : DiffHunk × Span} (hgro : group ∈ groups) :
      group.2.start ≤ group.2.stop ∧ group.2.stop ≤ op.buffer.text.length :=
    hready.stretch_proper (h.stretch _ hgro).1 (h.stretch _ hgro).2
  constructor
  · intro edit hedit
    obtain ⟨group, hgro, rfl⟩ := mem_map.1 hedit
    exact aligned_inBounds hready.correct.turns (hprop hgro).1 (hprop hgro).2
  · refine pairwise_map.2 (h.apart.imp_of_mem fun {a b} ha hb hlt => ?_)
    exact aligned_apart hready.correct.turns (fun _ hoth => mem_members_of_unstaged hoth) (h.stretch a ha).2.closed
      (h.stretch b hb).2.closed (hprop ha).1 (hprop hb).1 hlt

/-- What is to be written for a group. -/
def wanted (op : Operation V) (uncommitted unstaged : List InternalDiffHunk) (group : DiffHunk × Span) : IndexEdit :=
  replacement op.headText op.buffer.text uncommitted unstaged op.stage group.2

/-- The texts that are written are never longer than the ones that are wanted. -/
theorem Wrote.length_le (h : op.Wrote unstaged chosen chosen [] groups s) (hready : op.Ready unstaged chosen)
    (hunc : Correct op.headText op.buffer.text uncommitted)
    (hcho : ∀ hunk ∈ chosen, hunk.internal ∈ uncommitted) {group : DiffHunk × Span} (hgro : group ∈ groups) :
    (op.written unstaged group).text.length ≤ (op.wanted uncommitted unstaged group).text.length ∧
      (op.stage = false → (op.written unstaged group).text.length = (op.wanted uncommitted unstaged group).text.length →
        group.2 = group.1.bufferRange) := by
  obtain ⟨hfst, hstr⟩ := h.stretch _ hgro
  have hmem := hcho _ hfst
  have hprop := hready.stretch_proper hfst hstr
  have hle := aligned_hunk_le hunc hmem hstr.within
  have hbds := aligned_inBounds hunc.turns hprop.1 hprop.2
  have hhunk := hunc.turns.start_le hmem
  simp only [written, wanted, replacement]
  cases op.stage with
  | true => exact ⟨le_rfl, by simp⟩
  | false =>
    simp only [Bool.false_eq_true, if_false]
    have hinternal : group.1.internal.diffBaseByteRange = group.1.diffBaseByteRange := rfl
    rw [hinternal] at hle hhunk
    rw [length_textForRange hhunk.2.2.2.2.2, length_textForRange hbds.2]
    refine ⟨by omega, fun _ heq => (aligned_hunk_eq_iff hunc hmem hstr.within).1 (Span.ext ?_ ?_)⟩
    · rw [hinternal]
      omega
    · rw [hinternal]
      omega

/-- The loop writes what is wanted exactly when it stages, or the unstaged hunks that reach a chosen hunk lie in it. -/
theorem Wrote.writesIndex_iff (h : op.Wrote unstaged chosen chosen [] groups s) (hready : op.Ready unstaged chosen)
    (hunc : Correct op.headText op.buffer.text uncommitted)
    (hcho : ∀ hunk ∈ chosen, hunk.internal ∈ uncommitted) :
    WritesIndex op.indexText op.headText op.buffer.text uncommitted unstaged chosen op.stage s.edits ↔
      op.stage = true ∨ Contained unstaged chosen := by
  obtain ⟨hin, hdisjoint⟩ := h.ordered hready
  have hstr := h.stretches hready
  have hmap : (groups.map Prod.snd).map (replacement op.headText op.buffer.text uncommitted unstaged op.stage) =
      groups.map (op.wanted uncommitted unstaged) := by
    rw [map_map]
    rfl
  have happ : newIndexText op.indexText s.edits = Splice.rewritten op.indexText 0 (groups.map (op.written unstaged)) := by
    rw [newIndexText, Splice.applyRev_eq_rewritten hin hdisjoint, h.edits]
  constructor
  · intro hwrit
    cases hstg : op.stage with
    | true => exact .inl rfl
    | false =>
      right
      obtain ⟨stretches, hoth, htext⟩ := hwrit.text
      rw [hoth.unique (fun hunk hhunk => (hready.proper hunk hhunk).1) hstr, hmap, happ] at htext
      rw [h.edits] at hin hdisjoint
      have heq := Splice.length_eq_of_rewritten_eq (f := op.written _) (g := op.wanted _ _)
        (fun _ => rfl) (fun _ => rfl)
        (fun group hgro => (h.length_le hready hunc hcho hgro).1) hin hdisjoint htext
      exact h.contained hready fun group hgro =>
        (h.length_le hready hunc hcho hgro).2 hstg (heq _ hgro)
  · intro hcon
    refine ⟨hin, hdisjoint, groups.map _, hstr, ?_⟩
    rw [happ, hmap]
    refine congrArg _ (map_congr_left fun group hgro => ?_)
    obtain ⟨hfst, hstre⟩ := h.stretch _ hgro
    simp only [written, wanted, replacement]
    rcases hcon with hstg | hcont
    · rw [hstg]
      rfl
    · have hsame := hready.stretch_eq_of_contained hcont hfst hstre
      have hali := (aligned_hunk_eq_iff hunc (hcho _ hfst) hstre.within).2 hsame
      rw [hali]
      rfl

end Operation

/-! ### The edits that are returned -/

section Edits

variable {head index : BufferDiffSnapshot} {stage : Bool} {hunks : List DiffHunk} {buffer : BufferSnapshot V}

/-- Chosen hunks of a correct diff are in order and apart. -/
theorem ready_of_correct (hunc : Correct head.baseText buffer.text head.hunks)
    (huns : Correct index.baseText buffer.text index.hunks) (hhun : (hunks.map internal).Sublist head.hunks)
    (stage : Bool) : (Operation.mk index.baseText head.baseText buffer stage).Ready index.hunks (hunks.filter (acted stage)) ∧
    ∀ hunk ∈ hunks.filter (acted stage), hunk.internal ∈ head.hunks := by
  have hmem : ∀ hunk ∈ hunks.filter (acted stage), hunk.internal ∈ head.hunks := fun hunk hhunk =>
    hhun.subset (mem_map_of_mem (mem_of_mem_filter hhunk))
  have hsub : ((hunks.filter (acted stage)).map internal).Sublist head.hunks :=
    (filter_sublist.map _).trans hhun
  refine ⟨⟨huns, pairwise_map.1 (hunc.apart.sublist hsub), fun hunk hhunk => ?_⟩, hmem⟩
  have hle := hunc.turns.start_le (hmem hunk hhunk)
  exact ⟨hle.2.2.1, hle.2.2.2.2.1⟩

/-- The edits of the chosen hunks are returned without a panic, with each of the chosen hunks pending. -/
theorem hunkEdits_spec (hunc : Correct head.baseText buffer.text head.hunks)
    (huns : Correct index.baseText buffer.text index.hunks) (hhunk : (hunks.map internal).Sublist head.hunks) :
    ∃ edits, hunkEdits index.baseText head.baseText index stage hunks buffer = some (some edits,
        (hunks.filter (acted stage)).map fun hunk => hunk.pending buffer.version (.setSecondaryStatus stage)) ∧
      (WritesIndex index.baseText head.baseText buffer.text head.hunks index.hunks (hunks.filter (acted stage)) stage
        edits ↔ stage = true ∨ Operation.Contained index.hunks (hunks.filter (acted stage))) := by
  obtain ⟨hready, hmem⟩ := ready_of_correct hunc huns hhunk _
  obtain ⟨groups, s, hwri, hwro⟩ := (Operation.wrote_start _ _ _).run hready
  refine ⟨s.edits, ?_, hwro.writesIndex_iff hready hunc hmem⟩
  rw [hunkEdits, hwri, Option.map_some, hwro.pending]
  rfl

/-- The edits of a file that is in the head and in the index: with the file on disk, or when unstaging, they are those of the
chosen hunks, and they write the index as they should exactly when the hunks are staged, or the hunks of the unstaged diff that
overlap or touch a chosen hunk lie in it. A file that is not on disk is staged by deleting it from the index. -/
theorem index_edits_exact_iff (head index : BufferDiffSnapshot) (buffer : BufferSnapshot V) (stage fileExists : Bool)
    (hunks : List DiffHunk) (hhead : head.baseTextExists = true) (hindex : index.baseTextExists = true)
    (huncommitted : Correct head.baseText buffer.text head.hunks)
    (hunstaged : Correct index.baseText buffer.text index.hunks)
    (hhunks : (hunks.map internal).Sublist head.hunks) :
    ∃ edits pending, head.computeUncommittedIndexEdits index stage hunks buffer fileExists = some (edits, pending) ∧
      (edits = none ↔ stage = true ∧ fileExists = false) ∧
      ∀ written, edits = some written →
        (WritesIndex index.baseText head.baseText buffer.text head.hunks index.hunks (hunks.filter (acted stage)) stage
          written ↔ stage = true ∨ Operation.Contained index.hunks (hunks.filter (acted stage))) := by
  obtain ⟨edits, hedits, hwrites⟩ := hunkEdits_spec huncommitted hunstaged hhunks
  have hcompute : head.computeUncommittedIndexEdits index stage hunks buffer fileExists =
      if fileExists || !stage then hunkEdits index.baseText head.baseText index stage hunks buffer
      else some (wholeFileEdits (some index.baseText) (some head.baseText) stage buffer fileExists) := by
    simp only [BufferDiffSnapshot.computeUncommittedIndexEdits, BufferDiffSnapshot.existingText, hhead, hindex, if_true]
  cases hpath : fileExists || !stage with
  | true =>
    refine ⟨some edits, _, by rw [hcompute, hpath, if_pos rfl, hedits], ?_, fun written heq => ?_⟩
    · cases stage <;> cases fileExists <;> simp_all
    · cases heq
      exact hwrites
  | false =>
    obtain ⟨rfl, rfl⟩ : fileExists = false ∧ stage = true := by simpa using hpath
    exact ⟨none, _, by rw [hcompute]; rfl, by simp, by simp⟩

end Edits

/-! ### A staged change that was changed back -/

/-- The lines "a" and "b" in the head. -/
def headLines : BufferDiffSnapshot := ⟨[⟨⟨0, 2⟩, ⟨0, 2⟩⟩], [97, 10, 98, 10], true⟩

/-- Both lines are changed in the index, to "A" and "B". -/
def indexLines : BufferDiffSnapshot := ⟨[⟨⟨2, 4⟩, ⟨2, 4⟩⟩], [65, 10, 66, 10], true⟩

/-- The second line is changed back in the buffer. -/
def bufferLines : BufferSnapshot Unit := ⟨[65, 10, 98, 10], ()⟩

/-- The hunk of the first line, which touches the unstaged hunk of the second line. -/
def firstLine : DiffHunk := ⟨⟨0, 2⟩, ⟨0, 2⟩, .overlapsWithSecondaryHunk⟩

theorem headLines_correct : Correct headLines.baseText bufferLines.text headLines.hunks where
  turns := ⟨⟨0, by decide⟩, by decide, by decide, by decide, by decide, by decide⟩
  apart := by decide

theorem indexLines_correct : Correct indexLines.baseText bufferLines.text indexLines.hunks where
  turns := ⟨⟨2, by decide⟩, by decide, by decide, by decide, by decide, by decide⟩
  apart := by decide

/-- Unstaging the first line replaces both lines of the index by the head's first line. -/
theorem unstaging_loses_a_line :
    Correct headLines.baseText bufferLines.text headLines.hunks ∧
      Correct indexLines.baseText bufferLines.text indexLines.hunks ∧
      ([firstLine].map internal).Sublist headLines.hunks ∧ firstLine.acted false = true ∧
      headLines.computeUncommittedIndexEdits indexLines false [firstLine] bufferLines true =
        some (some [⟨0, 4, [97, 10]⟩], [firstLine.pending () (.setSecondaryStatus false)]) ∧
      newIndexText indexLines.baseText [⟨0, 4, [97, 10]⟩] = [97, 10] ∧
      ¬ WritesIndex indexLines.baseText headLines.baseText bufferLines.text headLines.hunks indexLines.hunks [firstLine] false
        [⟨0, 4, [97, 10]⟩] := by
  have hcompute : hunkEdits indexLines.baseText headLines.baseText indexLines false [firstLine] bufferLines =
      some (some [⟨0, 4, [97, 10]⟩], [firstLine.pending () (.setSecondaryStatus false)]) := by
    have hfilter : [firstLine].filter (acted false) = [firstLine] := by decide
    rw [hunkEdits, hfilter, Operation.write]
    -- the inner loop merges with the unstaged hunk of the second line and ends
    simp only [indexLines, firstLine, Operation.mergeHunk, Operation.enter, not_lt_zero, decide_false,
      Bool.false_eq_true, not_false_eq_true, dropWhile_cons_of_neg, takeWhile_cons_of_neg, getLast?_nil,
      Option.map_none, Option.getD_none, tsub_zero, add_zero, nil_append, lt_self_iff_false, ↓dreduceIte,
      Merging.run, Merging.step, Std.le_refl, Merging.absorbUnstaged, zero_le, inf_of_le_left, Nat.reduceLeDiff,
      sup_of_le_right, Merging.stepHunk, Operation.write, Option.map_some, Option.some.injEq, Prod.mk.injEq,
      List.cons.injEq, and_true]
    decide
  refine ⟨headLines_correct, indexLines_correct, by decide, by decide, hcompute, by decide, fun hwritten => ?_⟩
  have hlist : ([firstLine].map internal).Sublist headLines.hunks := by decide
  obtain ⟨edits, hedits, hwrites⟩ := hunkEdits_spec headLines_correct indexLines_correct hlist
  rw [hcompute, Option.some.injEq, Prod.mk.injEq, Option.some.injEq] at hedits
  obtain ⟨rfl, -⟩ := hedits
  exact absurd (hwrites.1 hwritten) (by decide)

/-- Unstaging an added line that is not changed further writes the right index. -/
theorem index_edits_exact_added :
    ∃ edits pending, (BufferDiffSnapshot.mk [⟨⟨2, 4⟩, ⟨2, 2⟩⟩] [97, 10] true).computeUncommittedIndexEdits
        (BufferDiffSnapshot.mk [] [97, 10, 98, 10] true) false [⟨⟨2, 4⟩, ⟨2, 2⟩, .noSecondaryHunk⟩]
        (BufferSnapshot.mk [97, 10, 98, 10] ()) true = some (edits, pending) ∧
      (edits = none ↔ false = true ∧ true = false) ∧
      ∀ written, edits = some written →
        (WritesIndex [97, 10, 98, 10] [97, 10] [97, 10, 98, 10] [⟨⟨2, 4⟩, ⟨2, 2⟩⟩] []
          [⟨⟨2, 4⟩, ⟨2, 2⟩, .noSecondaryHunk⟩] false written ↔
          false = true ∨ Operation.Contained [] [⟨⟨2, 4⟩, ⟨2, 2⟩, .noSecondaryHunk⟩]) :=
  index_edits_exact_iff (BufferDiffSnapshot.mk [⟨⟨2, 4⟩, ⟨2, 2⟩⟩] [97, 10] true)
    (BufferDiffSnapshot.mk [] [97, 10, 98, 10] true) (BufferSnapshot.mk [97, 10, 98, 10] ()) false true
    [⟨⟨2, 4⟩, ⟨2, 2⟩, .noSecondaryHunk⟩] rfl rfl ⟨⟨⟨2, by decide⟩, by decide, by decide, by decide, by decide, by decide⟩, by decide⟩
    ⟨⟨by decide, by decide, by decide⟩, by decide⟩ (by decide)

end Wu.BufferDiff
