import Wu.BufferDiff.PointPatches

/-!
# The patch of a range is exact

Every hunk that the cursor has passed ends before the window, in both texts, and every hunk that is left out starts behind it.
-/

namespace Wu.BufferDiff

open List Positions.Patch BufferDiffSnapshot

open Positions

/-! ### The cursor -/

/-- The ranges that a summary is sought by: those of the buffer and those of the base text. -/
structure Sought (range : DiffHunkSummary → Span) : Prop where
  stop_add : ∀ a b, (range (a.addSummary b)).stop = max (range a).stop (range b).stop

theorem sought_buffer : Sought (·.bufferRange) := ⟨fun _ _ => rfl⟩

theorem sought_base : Sought (·.diffBaseByteRange) := ⟨fun _ _ => rfl⟩

section Cursor

variable {range : DiffHunkSummary → Span} {target : Nat} {hunks passed rest : List InternalDiffHunk} {hunk : InternalDiffHunk}

theorem lt_of_cmpTarget {span : Span} (h : cmpTarget span target = .gt) : span.stop < target := by
  unfold cmpTarget at h
  split at h
  · cases h
  · split at h
    · assumption
    · cases h

variable (rest) in
/-- A seek passes hunks that end before the target. -/
theorem seekForward_spec (hran : Sought range) (position : DiffHunkSummary)
    (hpass : ∀ hunk ∈ passed, (range hunk.summary).stop < target) :
    let cursor := HunkCursor.seekForward (fun location => cmpTarget (range location) target) position passed rest
    cursor.beforeFirst = false ∧ cursor.passed.reverse ++ cursor.rest = passed.reverse ++ rest ∧
      ∀ hunk ∈ cursor.passed, (range hunk.summary).stop < target := by
  induction rest generalizing position passed with
  | nil => exact ⟨rfl, rfl, hpass⟩
  | cons hunk rest ih =>
    unfold HunkCursor.seekForward
    simp only
    split
    · rename_i hcmp
      have hstop := lt_of_cmpTarget hcmp
      rw [hran.stop_add] at hstop
      have hpass' : ∀ other ∈ hunk :: passed, (range other.summary).stop < target := by
        intro other hoth
        rcases mem_cons.1 hoth with rfl | hoth
        · omega
        · exact hpass other hoth
      obtain ⟨hfst, heq, hsto⟩ := ih (position.addSummary hunk.summary) hpass'
      refine ⟨hfst, ?_, hsto⟩
      rw [heq, reverse_cons, append_assoc, singleton_append]
    · exact ⟨rfl, rfl, hpass⟩

/-- Where the cursor is after the search for a hunk that does not start behind the target. -/
structure Found (range : DiffHunkSummary → Span) (target : Nat) (hunks : List InternalDiffHunk) (found : Option InternalDiffHunk)
    (cursor : HunkCursor) : Prop where
  started : cursor.beforeFirst = false
  split : cursor.passed.reverse ++ cursor.rest = hunks
  stops : ∀ hunk ∈ cursor.passed, (range hunk.summary).stop < target
  none : found = none → cursor.passed = []
  some : ∀ hunk ∈ found, cursor.rest.head? = some hunk

/-- The cursor at a hunk that does not start behind the target. -/
theorem found_item (hstop : ∀ hunk ∈ passed, (range hunk.summary).stop < target) (hst : (range hunk.summary).start ≤ target) :
    Found range target (passed.reverse ++ hunk :: rest) ((some hunk).filter fun hunk => target ≥ (range hunk.summary).start)
      (HunkCursor.started ⟨passed, hunk :: rest, false⟩) := by
  have hfilt : ((some hunk).filter fun hunk => target ≥ (range hunk.summary).start) = some hunk := by simp [hst]
  rw [hfilt]
  exact ⟨rfl, rfl, hstop, by simp, fun other hoth => hoth⟩

/-- The cursor moved back over the last hunk it has passed. -/
theorem found_back (hle : (range hunk.summary).start ≤ (range hunk.summary).stop)
    (hstop : ∀ other ∈ hunk :: passed, (range other.summary).stop < target) :
    Found range target ((hunk :: passed).reverse ++ rest) ((some hunk).filter fun hunk => target ≥ (range hunk.summary).start)
      (HunkCursor.started ⟨passed, hunk :: rest, false⟩) := by
  rw [reverse_cons, append_assoc]
  exact found_item (fun other hoth => hstop _ (.tail _ hoth)) (hle.trans (hstop hunk mem_cons_self).le)

variable (target) in
theorem hunkBefore_spec (hran : Sought range) (hle : ∀ hunk ∈ hunks, (range hunk.summary).start ≤ (range hunk.summary).stop) :
    Found range target hunks (hunkBefore range target hunks).1 (hunkBefore range target hunks).2.started := by
  have hpass : ∀ hunk ∈ ([] : List InternalDiffHunk), (range hunk.summary).stop < target := by simp
  have hseek := seekForward_spec hunks hran .zero hpass
  unfold hunkBefore
  generalize HunkCursor.seekForward (fun location => cmpTarget (range location) target) .zero [] hunks = cursor at *
  obtain ⟨hfst, hspl, hstop⟩ := hseek
  rcases cursor with ⟨passed, rest, first⟩
  simp only at hfst hspl hstop
  subst hfst
  rw [reverse_nil, nil_append] at hspl
  subst hspl
  cases rest with
  | nil =>
    cases passed with
    | nil => exact ⟨rfl, rfl, by simp [HunkCursor.started, HunkCursor.prev, HunkCursor.item, HunkCursor.next], fun _ => rfl, by
        simp [HunkCursor.prev, HunkCursor.item]⟩
    | cons hunk passed => exact found_back (hle hunk (by simp)) hstop
  | cons hunk rest =>
    by_cases hbef : target < (range hunk.summary).start
    · have hitem : (HunkCursor.item ⟨passed, hunk :: rest, false⟩).all
          (fun hunk => decide (target < (range hunk.summary).start)) = true := by simpa [HunkCursor.item] using hbef
      simp only [hitem, if_true]
      cases passed with
      | nil => exact ⟨rfl, rfl, by simp [HunkCursor.started, HunkCursor.prev, HunkCursor.item, HunkCursor.next], fun _ => rfl, by
          simp [HunkCursor.prev, HunkCursor.item]⟩
      | cons last passed => exact found_back (hle last (by simp)) hstop
    · have hitem : (HunkCursor.item ⟨passed, hunk :: rest, false⟩).all
          (fun hunk => decide (target < (range hunk.summary).start)) = false := by simpa [HunkCursor.item] using hbef
      simp only [hitem, Bool.false_eq_true, if_false]
      exact found_item hstop (Nat.le_of_not_lt hbef)

end Cursor

/-! ### Sound diffs -/

/-- The diff of a buffer that had a text: its hunks are correct for the two texts, and a base text that is missing is empty.
Before the first diff there are no hunks and no base text. -/
structure BufferDiffSnapshot.Sound (diff : BufferDiffSnapshot) (original : Bytes) : Prop where
  correct : diff.baseTextExists = true ∨ diff.hunks ≠ [] → Correct diff.baseText original diff.hunks
  missing : diff.baseTextExists = false → diff.baseText = []

/-- All hunks as edits of the base text. A single edit stands for the base text that is missing. -/
def BufferDiffSnapshot.hunkEdits (self : BufferDiffSnapshot) (original : Bytes) : Positions.Patch Point :=
  (self.hunks.map fun hunk => hunk.edit self.baseText original) ++ if !self.baseTextExists && self.hunks.isEmpty then
      [⟨⟨RowColumn.zero, RowColumn.zero⟩, ⟨RowColumn.zero, maxPoint original⟩⟩]
    else []

section Sound

variable {self : BufferDiffSnapshot} {original : Bytes} {buffer : List SinceFragment}

theorem BufferDiffSnapshot.Sound.built (h : self.Sound original) :
    Built Position.zero Position.zero (maxPoint self.baseText) (maxPoint original) (self.hunkEdits original) := by
  unfold hunkEdits
  split
  · rename_i hmiss
    simp only [Bool.and_eq_true, Bool.not_eq_true', List.isEmpty_iff] at hmiss
    rw [hmiss.2, h.missing hmiss.1]
    exact ⟨⟨le_rfl, le_rfl, rfl, le_rfl, RowColumn.zero_le _, le_rfl, le_rfl,
      (Position.sub_self _).trans (Position.sub_self _).symm⟩, pairwise_singleton _ _⟩
  · rename_i hsome
    rw [append_nil]
    exact (h.correct (by simpa [← Bool.not_eq_false, or_iff_not_imp_left] using hsome)).built

theorem BufferDiffSnapshot.patchForBaseTextRangeNaive_eq (self : BufferDiffSnapshot) (buffer : List SinceFragment) :
    self.patchForBaseTextRangeNaive buffer = compose (self.hunkEdits (oldText buffer)) (editsSince buffer) := rfl

theorem BufferDiffSnapshot.patchForBufferRangeNaive_eq (self : BufferDiffSnapshot) (buffer : List SinceFragment) :
    self.patchForBufferRangeNaive buffer = compose (invert (editsSince buffer)) (invert (self.hunkEdits (oldText buffer))) := by
  unfold patchForBufferRangeNaive hunkEdits invert
  rw [map_append, map_map]
  split <;> rfl

end Sound

/-! ### From the buffer to the base text -/

section BufferRange

variable {base original : Bytes} {hunks before after : List InternalDiffHunk} {hunk last : InternalDiffHunk} {point : Point}

theorem dropWhile_head {p : InternalDiffHunk → Bool} (h : hunk ∈ (hunks.dropWhile p).head?) : p hunk = false := by
  have := head?_dropWhile_not p hunks
  rwa [h] at this

/-- The hunks before a hunk end before it, in both texts. -/
theorem Correct.stop_lt (h : Correct base original (before ++ hunk :: after)) (hlast : last ∈ before) :
    offsetToPoint original last.bufferRange.stop < offsetToPoint original hunk.bufferRange.start ∧
      offsetToPoint base last.diffBaseByteRange.stop < offsetToPoint base hunk.diffBaseByteRange.start := by
  have hinv := h.built.invert.apart
  have happ := h.built.apart
  simp only [invert, map_append, map_cons] at hinv happ
  exact ⟨(pairwise_append.1 hinv).2.2 _ (mem_map_of_mem (mem_map_of_mem hlast)) _ mem_cons_self,
    (pairwise_append.1 happ).2.2 _ (mem_map_of_mem hlast) _ mem_cons_self⟩

/-- A hunk that starts behind the offset of a point starts behind the point. -/
theorem lt_offsetToPoint {text : Bytes} {offset : Nat} (hle : offset ≤ text.length) (h : pointToOffset text point < offset) :
    point < offsetToPoint text offset := by
  by_contra hge
  exact absurd ((le_pointToOffset hle).2 (not_lt.1 hge)) (Nat.not_le_of_lt h)

/-- A hunk that ends before the offset of a point ends before the point. -/
theorem offsetToPoint_lt_point {text : Bytes} {offset : Nat} (h : offset < pointToOffset text point) :
    offsetToPoint text offset < point :=
  (offsetToPoint_lt h (pointToOffset_le text _)).trans_le ((le_pointToOffset (pointToOffset_le text _)).1 le_rfl)

theorem invert_hunks (base original : Bytes) (hunks : List InternalDiffHunk) :
    invert (hunks.map fun hunk => hunk.edit base original) = hunks.map fun hunk => (hunk.edit base original).invert := by
  rw [invert, map_map]
  rfl

/-- What comes before a position in the new text is not moved, so a position that goes behind it is behind it. -/
theorem lt_of_lt_oldToNew {m n x y : Point} {edits : Positions.Patch Point} (h : Gaps m n Position.zero Position.zero edits)
    (hbeh : ∀ edit ∈ edits.head?, x < edit.new.start) (hlt : x < oldToNew edits y) : x < y := by
  by_contra hle
  rw [not_lt] at hle
  refine absurd hlt (not_lt_of_ge (hle.trans' (le_of_eq ?_)))
  cases edits with
  | nil => rfl
  | cons edit edits =>
    obtain ⟨-, -, hgap, -⟩ := h
    rw [Position.sub_zero, Position.sub_zero] at hgap
    have hst : y < edit.old.start := hle.trans_lt (hgap ▸ hbeh edit rfl)
    rw [oldToNew, lastBefore_cons_of_lt hst]

variable {edits : Positions.Patch Point} {passed taken dropped : List InternalDiffHunk} {start stop m n : Point}

/-- The hunks of a window around a range of the buffer are enough for the points of the range. -/
theorem editForOldPosition_bufferWindow (hedi : Gaps m (maxPoint original) Position.zero Position.zero edits)
    (h : Correct base original (passed.reverse ++ (taken ++ dropped)))
    (hpass : ∀ hunk ∈ passed.head?, offsetToPoint original hunk.bufferRange.stop < oldToNew edits start ∧
      ∀ edit ∈ edits.head?, offsetToPoint original hunk.bufferRange.stop < edit.new.start)
    (hdrop : ∀ hunk ∈ dropped.head?, oldToNew edits stop < offsetToPoint original hunk.bufferRange.start ∧
      ∀ edit ∈ edits, edit.new.stop < offsetToPoint original hunk.bufferRange.start)
    (hst : start ≤ point) (hstop : point ≤ stop) :
    editForOldPosition (compose edits
        ((passed.reverse ++ (taken ++ dropped)).map fun hunk => (hunk.edit base original).invert)) point =
      editForOldPosition (compose edits ((passed.head?.map fun hunk => prefixEdit (hunk.edit base original).invert).toList ++
          taken.map fun hunk => (hunk.edit base original).invert)) point := by
  have hbui := h.built.invert
  rw [invert_hunks] at hbui
  simp only [map_append, map_reverse] at hbui
  have := hbui.eval_window (fun news => editForOldPosition (compose edits news) point) ?_ ?_
  · simpa [Function.comp_def] using this
  · intro last hlast before later hgaps hlat
    obtain ⟨hunk, hhunk, rfl⟩ := Option.map_eq_some_iff.1 ((head?_map).symm.trans hlast)
    obtain ⟨hrch, hfst⟩ := hpass hunk hhunk
    exact editForOldPosition_compose_prefixNew hedi hgaps hfst (fun edit hedit => (hlat edit hedit).1)
      ((lt_of_lt_oldToNew hedi hfst hrch).trans_le hst)
  · intro news hgaps hsto
    refine editForOldPosition_compose_dropNew hedi hgaps (fun edit hedit => ?_) hstop
    obtain ⟨hunk, hhunk, rfl⟩ := Option.map_eq_some_iff.1 ((head?_map).symm.trans hedit)
    exact ⟨(hdrop hunk hhunk).1, (hdrop hunk hhunk).2, hsto _ hedit⟩

/-- The hunks of a window around a range of the base text are enough for the points of the range. -/
theorem editForOldPosition_baseWindow (hedi : Gaps (maxPoint original) n Position.zero Position.zero edits)
    (h : Correct base original (passed.reverse ++ (taken ++ dropped)))
    (hpass : ∀ hunk ∈ passed.head?, offsetToPoint base hunk.diffBaseByteRange.stop < start ∧
      ∀ edit ∈ edits.head?, offsetToPoint original hunk.bufferRange.stop < edit.old.start)
    (hdrop : ∀ hunk ∈ dropped.head?, stop < offsetToPoint base hunk.diffBaseByteRange.start ∧
      ∀ edit ∈ edits, edit.old.stop < offsetToPoint original hunk.bufferRange.start)
    (hst : start ≤ point) (hstop : point ≤ stop) :
    editForOldPosition (compose ((passed.reverse ++ (taken ++ dropped)).map fun hunk => hunk.edit base original) edits) point =
      editForOldPosition (compose ((passed.head?.map fun hunk => prefixEdit (hunk.edit base original)).toList ++
          taken.map fun hunk => hunk.edit base original) edits) point := by
  have hbui := h.built
  simp only [map_append, map_reverse] at hbui
  have := hbui.eval_window (fun olds => editForOldPosition (compose olds edits) point) ?_ ?_
  · simpa [Function.comp_def] using this
  · intro last hlast before later hgaps hlat
    obtain ⟨hunk, hhunk, rfl⟩ := Option.map_eq_some_iff.1 ((head?_map).symm.trans hlast)
    obtain ⟨hrch, hfst⟩ := hpass hunk hhunk
    exact editForOldPosition_compose_prefixOld hgaps hedi (fun edit hedit => (hlat edit hedit).2) hfst (hrch.trans_le hst)
  · intro olds hgaps hsto
    refine editForOldPosition_compose_dropOld hgaps hedi fun edit hedit => ?_
    obtain ⟨hunk, hhunk, rfl⟩ := Option.map_eq_some_iff.1 ((head?_map).symm.trans hedit)
    exact ⟨hstop.trans_lt (hdrop hunk hhunk).1, hsto _ hedit, (hdrop hunk hhunk).2⟩

end BufferRange

/-! ### The windows of the code -/

section Windows

variable {self : BufferDiffSnapshot} {buffer : List SinceFragment} {range : Range Point} {point : Point}

variable {base original : Bytes} {m n : Point} {edits : Positions.Patch Point}

/-- The hunks of a correct diff do not end before they start. -/
theorem Correct.start_le_stop {hunks : List InternalDiffHunk} (h : Correct base original hunks) :
    ∀ hunk ∈ hunks, hunk.bufferRange.start ≤ hunk.bufferRange.stop ∧
      hunk.diffBaseByteRange.start ≤ hunk.diffBaseByteRange.stop := fun _ hhunk =>
  ⟨(h.turns.start_le hhunk).2.2.1, (h.turns.start_le hhunk).2.2.2.1⟩

theorem windowStart_le (edits : Positions.Patch Point) (start : Point) :
    windowStart edits start ≤ oldToNew edits start ∧ ∀ edit ∈ edits.head?, windowStart edits start ≤ edit.new.start := by
  unfold windowStart
  cases edits.head? with
  | none => exact ⟨le_rfl, by simp⟩
  | some edit => exact ⟨min_le_left _ _, fun other hoth => Option.some.inj hoth ▸ min_le_right _ _⟩

/-- The edits of a patch end where the last one ends or before. -/
theorem stop_le_last {i j : Point} {edit last : Positions.Edit Point} (h : Gaps m n i j edits)
    (hlast : last ∈ edits.getLast?) (hedit : edit ∈ edits) : edit.old.stop ≤ last.old.stop ∧ edit.new.stop ≤ last.new.stop := by
  obtain ⟨front, rfl⟩ := getLast?_eq_some_iff.1 hlast
  obtain ⟨hfro, hold, hnew, -⟩ := gaps_concat.1 h
  rcases mem_append.1 hedit with hedit | hedit
  · have := hfro.mem hedit
    exact ⟨this.2.2.2.2.1.trans hold, this.2.2.2.2.2.trans hnew⟩
  · rw [mem_singleton.1 hedit]
    exact ⟨le_rfl, le_rfl⟩

theorem le_windowEnd (h : Gaps m n Position.zero Position.zero edits) (stop : Point) :
    oldToNew edits stop ≤ windowEnd edits stop ∧ ∀ edit ∈ edits, edit.new.stop ≤ windowEnd edits stop := by
  unfold windowEnd
  cases hlast : edits.getLast? with
  | none =>
    rw [getLast?_eq_none_iff.1 hlast]
    exact ⟨le_rfl, by simp⟩
  | some last => exact ⟨le_max_left _ _, fun edit hedit => (stop_le_last h hlast hedit).2.trans (le_max_right _ _)⟩

theorem patchForBufferRange_exact (hex : self.baseTextExists = true)
    (hcor : Correct self.baseText (oldText buffer) self.hunks) (hst : range.start ≤ point) (hstop : point ≤ range.stop) :
    editForOldPosition (self.patchForBufferRange range buffer) point =
      editForOldPosition (self.patchForBufferRangeNaive buffer) point := by
  have hedi := (built_editsSince buffer).gaps.invert
  unfold patchForBufferRange BufferDiffSnapshot.patchForBufferRangeNaive
  simp only [hex, Bool.not_true, Bool.false_eq_true, if_false, Bool.false_and, append_nil]
  generalize invert (editsSince buffer) = edits at *
  obtain ⟨hle, hfst⟩ := windowStart_le _ _
  obtain ⟨hge, hlast⟩ := le_windowEnd hedi _
  have hcur := hunkBefore_spec (pointToOffset (oldText buffer) (windowStart edits range.start)) sought_buffer
    fun hunk hhunk => (hcor.start_le_stop hunk hhunk).1
  rw [hunkBeforeBufferAnchor]
  generalize (hunkBefore (·.bufferRange) (pointToOffset (oldText buffer) (windowStart edits range.start)) self.hunks).2.started =
    cursor at *
  obtain ⟨hstd, hspl, hsto, -, -⟩ := hcur
  rcases cursor with ⟨passed, rest, first⟩
  subst hstd
  rw [← takeWhile_append_dropWhile (l := rest)] at hspl
  rw [← hspl] at hcor ⊢
  refine (editForOldPosition_bufferWindow hedi hcor (fun hunk hhunk => ?_) (fun hunk hhunk => ?_) hst hstop).symm
  · have hlt := offsetToPoint_lt_point (hsto hunk (List.mem_of_mem_head? hhunk))
    exact ⟨hlt.trans_le hle, fun edit hedit => hlt.trans_le (hfst edit hedit)⟩
  · have hlt : windowEnd edits range.stop < offsetToPoint (oldText buffer) hunk.bufferRange.start := by
      refine lt_offsetToPoint ?_ (by simpa using dropWhile_head hhunk)
      have := hcor.turns.start_le (mem_append_right _ (mem_append_right _ (List.mem_of_mem_head? hhunk)))
      omega
    exact ⟨hge.trans_lt hlt, fun edit hedit => (hlast edit hedit).trans_lt hlt⟩

/-- A hunk that ends before another one starts is before it. -/
theorem Correct.mem_before_of_stop_lt {before after : List InternalDiffHunk} {hunk other : InternalDiffHunk}
    (h : Correct base original (before ++ hunk :: after)) (hoth : other ∈ before ++ hunk :: after)
    (hlt : offsetToPoint original other.bufferRange.stop < offsetToPoint original hunk.bufferRange.start) : other ∈ before := by
  have hle := fun hunk hhunk => (h.start_le_stop hunk hhunk).1
  rcases mem_append.1 hoth with hbef | hoth
  · exact hbef
  · have hself := hle hunk (by simp)
    rcases mem_cons.1 hoth with rfl | haft
    · exact absurd hlt (not_lt_of_ge (offsetToPoint_mono hself))
    · obtain ⟨-, hlat⟩ := pairwise_append.1 h.apart
      have hbeh := (pairwise_cons.1 hlat.1).1 _ haft
      have hoth := hle other (by simp [haft])
      exact absurd hlt (not_lt_of_ge (offsetToPoint_mono (by omega)))

/-- Where the window of a range of the base text starts. -/
theorem baseWindowCursor_spec (hcor : Correct self.baseText (oldText buffer) self.hunks) (target : Nat) :
    let cursor := (self.baseWindowCursor target buffer).started
    cursor.beforeFirst = false ∧ cursor.passed.reverse ++ cursor.rest = self.hunks ∧ ∀ hunk ∈ cursor.passed,
      hunk.diffBaseByteRange.stop < target ∧
        ∀ edit ∈ (editsSince buffer).head?, offsetToPoint (oldText buffer) hunk.bufferRange.stop < edit.old.start := by
  have hcur := hunkBefore_spec target sought_base fun hunk hhunk => (hcor.start_le_stop hunk hhunk).2
  unfold baseWindowCursor hunkBeforeBaseTextOffset
  generalize hunkBefore (·.diffBaseByteRange) target self.hunks = result at *
  rcases result with ⟨found, cursor⟩
  obtain ⟨hstd, hspl, hstop, hnone, hsome⟩ := hcur
  have hfar (hunk : InternalDiffHunk) (hfnd : found = some hunk) :
      ∃ later, cursor.started.passed.reverse ++ hunk :: later = self.hunks := by
    obtain ⟨later, hrest⟩ := head?_eq_some_iff.1 (hsome hunk hfnd)
    exact ⟨later, by rw [← hrest, hspl]⟩
  cases found with
  | none =>
    refine ⟨hstd, hspl, fun hunk hhunk => ?_⟩
    rw [hnone rfl] at hhunk
    cases hhunk
  | some hunk =>
    obtain ⟨later, hhun⟩ := hfar hunk rfl
    have hle : ∀ hunk ∈ self.hunks, hunk.bufferRange.start ≤ hunk.bufferRange.stop := fun hunk hhunk =>
      (hcor.start_le_stop hunk hhunk).1
    rw [← hhun] at hcor
    cases hfst : (editsSince _).head? with
    | none => exact ⟨hstd, hspl, fun other hoth => ⟨hstop _ hoth, by simp⟩⟩
    | some firstEdit =>
      simp only
      split
      · -- the window starts at the first edit
        rename_i hbeh
        rw [hunkBeforeBufferAnchor]
        obtain ⟨hstd', hspl', hstop', -, -⟩ := hunkBefore_spec _ sought_buffer hle
        refine ⟨hstd', hspl', fun other hoth => ?_⟩
        have hlt := offsetToPoint_lt_point (hstop' _ hoth)
        refine ⟨hstop _ ?_, fun edit hedit => Option.some.inj hedit ▸ hlt⟩
        have hmem : other ∈ cursor.started.passed.reverse ++ hunk :: later := by
          rw [hhun, ← hspl']
          exact mem_append_left _ (mem_reverse.2 hoth)
        exact mem_reverse.1 (hcor.mem_before_of_stop_lt hmem (hlt.trans hbeh))
      · rename_i hbef
        refine ⟨hstd, hspl, fun other hoth => ⟨hstop _ hoth, fun edit hedit => ?_⟩⟩
        rw [← Option.some.inj hedit]
        exact ((hcor.stop_lt (mem_reverse.2 hoth)).1).trans_le (not_lt.1 hbef)

theorem patchForBaseTextRange_exact (hex : self.baseTextExists = true)
    (hcor : Correct self.baseText (oldText buffer) self.hunks) (hst : range.start ≤ point) (hstop : point ≤ range.stop) :
    editForOldPosition (self.patchForBaseTextRange range buffer) point =
      editForOldPosition (self.patchForBaseTextRangeNaive buffer) point := by
  have hedi := (built_editsSince buffer).gaps
  unfold patchForBaseTextRange patchForBaseTextRangeNaive
  simp only [hex, Bool.not_true, Bool.false_eq_true, if_false, Bool.false_and, append_nil]
  obtain ⟨hstd, hspl, hsto⟩ := baseWindowCursor_spec hcor _
  generalize (self.baseWindowCursor (pointToOffset self.baseText range.start) buffer).started = cursor at *
  generalize editsSince buffer = edits at *
  rcases cursor with ⟨passed, rest, first⟩
  subst hstd
  rw [← takeWhile_append_dropWhile (l := rest)] at hspl
  rw [← hspl] at hcor ⊢
  refine (editForOldPosition_baseWindow hedi hcor (fun hunk hhunk => ?_) (fun hunk hhunk => ?_) hst hstop).symm
  · obtain ⟨hlt, hfst⟩ := hsto hunk (List.mem_of_mem_head? hhunk)
    exact ⟨offsetToPoint_lt_point hlt, hfst⟩
  · have hbeh := dropWhile_head hhunk
    simp only [Bool.or_eq_false_iff, decide_eq_false_iff_not, not_le] at hbeh
    have hbds := hcor.turns.start_le (mem_append_right _ (mem_append_right _ (List.mem_of_mem_head? hhunk)))
    refine ⟨lt_offsetToPoint (by omega) hbeh.1, fun edit hedit => ?_⟩
    cases hlast : edits.getLast? with
    | none =>
      rw [getLast?_eq_none_iff.1 hlast] at hedit
      cases hedit
    | some last =>
      rw [hlast, Option.any_some, decide_eq_false_iff_not, not_le] at hbeh
      exact (stop_le_last hedi hlast hedit).1.trans_lt hbeh.2

end Windows

/-! ### The windows are exact -/

section Exact

variable {self : BufferDiffSnapshot} {buffer : List SinceFragment} {range : Range Point} {point p q : Point}

section

variable (h : self.Sound (oldText buffer))
include h

theorem BufferDiffSnapshot.Sound.empty (hmiss : self.baseTextExists = false) : maxPoint self.baseText = Position.zero := by
  rw [h.missing hmiss]
  rfl

/-- The full patch from the buffer to the base text. -/
theorem BufferDiffSnapshot.Sound.bufferBuilt : Built Position.zero Position.zero (maxPoint (newText buffer)) (maxPoint self.baseText)
      (self.patchForBufferRangeNaive buffer) := by
  rw [self.patchForBufferRangeNaive_eq]
  exact built_composeFrom (built_editsSince _).gaps.invert h.built.gaps.invert

/-- The full patch from the base text to the buffer. -/
theorem BufferDiffSnapshot.Sound.baseBuilt : Built Position.zero Position.zero (maxPoint self.baseText) (maxPoint (newText buffer))
      (self.patchForBaseTextRangeNaive buffer) := by
  exact built_composeFrom h.built.gaps (built_editsSince _).gaps

theorem BufferDiffSnapshot.Sound.bufferRange_exact (hst : range.start ≤ point)
    (hstop : point ≤ range.stop) (hpoi : point ≤ maxPoint (newText buffer)) :
    editForOldPosition (self.patchForBufferRange range buffer) point =
      editForOldPosition (self.patchForBufferRangeNaive buffer) point := by
  cases hex : self.baseTextExists with
  | true => exact patchForBufferRange_exact hex (h.correct (.inl hex)) hst hstop
  | false =>
    have hbui := h.bufferBuilt
    rw [h.empty hex] at hbui
    rw [editForOldPosition_toEmpty hbui hpoi, patchForBufferRange, hex]
    rfl

theorem BufferDiffSnapshot.Sound.baseTextRange_exact (hst : range.start ≤ point)
    (hstop : point ≤ range.stop) (hpoi : point ≤ maxPoint self.baseText) :
    editForOldPosition (self.patchForBaseTextRange range buffer) point =
      editForOldPosition (self.patchForBaseTextRangeNaive buffer) point := by
  cases hex : self.baseTextExists with
  | true => exact patchForBaseTextRange_exact hex (h.correct (.inl hex)) hst hstop
  | false =>
    have hbui := h.baseBuilt
    rw [h.empty hex] at hbui hpoi
    rw [editForOldPosition_fromEmpty hbui hpoi, patchForBaseTextRange, hex]
    rfl

end

/-- What the patches of a range are for the buffer and the base text: for each point of the range they are as exact as the patches
of all hunks, a point that no edit and no hunk touches goes to the point it is carried on to, and the order of the points is
kept. -/
structure Exact (self : BufferDiffSnapshot) (buffer : List SinceFragment) : Prop where
  bufferRange : ∀ range point, range.start ≤ point → point ≤ range.stop → point ≤ maxPoint (newText buffer) →
    editForOldPosition (self.patchForBufferRange range buffer) point = editForOldPosition (self.patchForBufferRangeNaive buffer) point
  baseTextRange : ∀ range point, range.start ≤ point → point ≤ range.stop → point ≤ maxPoint self.baseText →
    editForOldPosition (self.patchForBaseTextRange range buffer) point =
      editForOldPosition (self.patchForBaseTextRangeNaive buffer) point
  bufferOutside : ∀ range point, range.start ≤ point → point ≤ range.stop → point ≤ maxPoint (newText buffer) →
    Outside point (invert (editsSince buffer)) →
    Outside (oldToNew (invert (editsSince buffer)) point) (invert (self.hunkEdits (oldText buffer))) →
    editForOldPosition (self.patchForBufferRange range buffer) point =
      pointEdit point (oldToNew (invert (self.hunkEdits (oldText buffer))) (oldToNew (invert (editsSince buffer)) point))
  baseTextOutside : ∀ range point, range.start ≤ point → point ≤ range.stop → point ≤ maxPoint self.baseText →
    Outside point (self.hunkEdits (oldText buffer)) →
    Outside (oldToNew (self.hunkEdits (oldText buffer)) point) (editsSince buffer) →
    editForOldPosition (self.patchForBaseTextRange range buffer) point =
      pointEdit point (oldToNew (editsSince buffer) (oldToNew (self.hunkEdits (oldText buffer)) point))
  bufferPoint : ∀ point, point ≤ maxPoint (newText buffer) → self.bufferPointToBaseTextRange point buffer =
      (editForOldPosition (self.patchForBufferRangeNaive buffer) point).new
  baseTextPoint : ∀ point, point ≤ maxPoint self.baseText → self.baseTextPointToBufferRange point buffer =
      (editForOldPosition (self.patchForBaseTextRangeNaive buffer) point).new
  bufferMono : ∀ p q, p ≤ q → q ≤ maxPoint (newText buffer) →
    self.bufferPointToBaseTextPoint p buffer ≤ self.bufferPointToBaseTextPoint q buffer
  baseTextMono : ∀ p q, p ≤ q → q ≤ maxPoint self.baseText →
    self.baseTextPointToBufferPoint p buffer ≤ self.baseTextPointToBufferPoint q buffer

/-- The patches of a range are exact for every sound diff and every later state of its buffer. -/
theorem windowed_patches_exact (self : BufferDiffSnapshot) (buffer : List SinceFragment) (h : self.Sound (oldText buffer)) :
    Exact self buffer where
  bufferRange _ _ hstart hstop hpoint := h.bufferRange_exact hstart hstop hpoint
  baseTextRange _ _ hstart hstop hpoint := h.baseTextRange_exact hstart hstop hpoint
  bufferOutside range point hstart hstop hpoint houtside houtside' := by
    rw [h.bufferRange_exact hstart hstop hpoint, self.patchForBufferRangeNaive_eq]
    exact editForOldPosition_compose_outside (built_editsSince buffer).invert h.built.invert hpoint houtside houtside'
  baseTextOutside range point hstart hstop hpoint houtside houtside' := by
    rw [h.baseTextRange_exact hstart hstop hpoint, self.patchForBaseTextRangeNaive_eq]
    exact editForOldPosition_compose_outside h.built (built_editsSince buffer) hpoint houtside houtside'
  bufferPoint _ hpoint := congrArg Positions.Edit.new (h.bufferRange_exact le_rfl le_rfl hpoint)
  baseTextPoint _ hpoint := congrArg Positions.Edit.new (h.baseTextRange_exact le_rfl le_rfl hpoint)
  bufferMono p q hpq hq := by
    unfold bufferPointToBaseTextPoint
    rw [h.bufferRange_exact le_rfl le_rfl (hpq.trans hq), h.bufferRange_exact le_rfl le_rfl hq,
      self.patchForBufferRangeNaive_eq]
    exact pointOf_compose_mono (built_editsSince buffer).gaps.invert h.built.gaps.invert hpq
  baseTextMono p q hpq hq := by
    unfold baseTextPointToBufferPoint
    rw [h.baseTextRange_exact le_rfl le_rfl (hpq.trans hq), h.baseTextRange_exact le_rfl le_rfl hq,
      self.patchForBaseTextRangeNaive_eq]
    exact pointOf_compose_mono h.built.gaps (built_editsSince buffer).gaps hpq

end Exact

/-- The diff of "a", "b", "c" and "a", "x", "c", one of its rows replaced. -/
def replacedRow : BufferDiffSnapshot :=
  ⟨[⟨⟨2, 4⟩, ⟨2, 4⟩⟩], [97, 10, 98, 10, 99, 10], true⟩

/-- A row is added before the others and the last one is deleted. -/
def laterBuffer : List SinceFragment :=
  [⟨[121, 10], false, true, true, by simp⟩, ⟨[97, 10, 120, 10], true, true, false, fun _ => rfl⟩,
    ⟨[99, 10], true, false, true, by simp⟩]

theorem windowed_patches_exact_replacedRow : Exact replacedRow laterBuffer :=
  windowed_patches_exact replacedRow laterBuffer
    ⟨fun _ => ⟨⟨⟨2, rfl, rfl, rfl⟩, by decide, by decide, by decide, by decide, rfl⟩, pairwise_singleton _ _⟩, by decide⟩

/-- The row in place of "b" and the row deleted behind it are for the rows "b" and "c". -/
example : replacedRow.bufferPointToBaseTextRange ⟨2, 0⟩ laterBuffer = ⟨⟨1, 0⟩, ⟨3, 0⟩⟩ := by decide

end Wu.BufferDiff
