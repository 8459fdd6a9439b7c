import Wu.BufferDiff.Grouping

/-!
# Staging and unstaging hunks

The edits of the index are one for each stretch, with the range of the index that the stretch is aligned with. Staging puts the
text of the buffer there. Unstaging puts the head's text of the first chosen hunk there, which is the head's text of the stretch
only when the stretch is no larger than that hunk.
-/

namespace Wu.BufferDiff

open List

variable {V : Type}

/-- What the texts and the hunks of an operation are: the unstaged hunks are a correct diff of the index and the buffer, and the
chosen hunks are ranges of the buffer, in order and apart. -/
structure Operation.Ready (op : Operation V) (unstaged : List InternalDiffHunk) (chosen : List DiffHunk) : Prop where
  correct : Correct op.indexText op.buffer.text unstaged
  apart : ChosenApart chosen
  proper : ∀ hunk ∈ chosen, hunk.bufferRange.start ≤ hunk.bufferRange.stop ∧ hunk.bufferRange.stop ≤ op.buffer.text.length

/-- The edit for a stretch and its first chosen hunk. -/
def Operation.written (op : Operation V) (unstaged : List InternalDiffHunk) (group : DiffHunk × Span) : IndexEdit :=
  ⟨(aligned unstaged group.2).start, (aligned unstaged group.2).stop,
    if op.stage then textForRange op.buffer.text group.2 else textForRange op.headText group.1.diffBaseByteRange⟩

/-- What the outer loop has done: `groups` are the stretches so far, each with its first chosen hunk, `past` the chosen hunks
that are done, and `rest` the ones that are left. -/
structure Operation.Wrote (op : Operation V) (unstaged : List InternalDiffHunk) (chosen past rest : List DiffHunk)
    (groups : List (DiffHunk × Span)) (s : Writing V) : Prop where
  split : chosen = past ++ rest
  skipped : ∃ done, unstaged = done ++ s.unstaged ∧ s.prevBaseTextEnd = baseEnd 0 done ∧ s.prevBufferEnd = bufferEnd 0 done ∧
    ∀ other ∈ done, ∀ hunk ∈ rest, other.bufferRange.stop < hunk.bufferRange.start
  edits : s.edits = groups.map (op.written unstaged)
  pending : s.pending = past.map fun hunk => hunk.pending op.buffer.version op.sense
  covered : ∀ hunk ∈ past, ∃ group ∈ groups, Within hunk.bufferRange group.2
  stretch : ∀ group ∈ groups, group.1 ∈ chosen ∧ IsStretch (members unstaged chosen) group.1.bufferRange group.2
  before : ∀ group ∈ groups, (∀ hunk ∈ rest, group.2.stop < hunk.bufferRange.start) ∧
    ∀ other ∈ s.unstaged, group.2.stop < other.bufferRange.start
  apart : groups.Pairwise fun a b => a.2.stop < b.2.start

namespace Operation

variable {op : Operation V} {unstaged : List InternalDiffHunk} {chosen past hunks rest : List DiffHunk}
  {groups : List (DiffHunk × Span)} {s : Writing V} {hunk : DiffHunk} {m : Merging V} {stretch : Span}

/-- A stretch of a chosen hunk is a range of the buffer. -/
theorem Ready.stretch_proper (h : op.Ready unstaged chosen) (hmem : hunk ∈ chosen)
    (hstr : IsStretch (members unstaged chosen) hunk.bufferRange stretch) :
    stretch.start ≤ stretch.stop ∧ stretch.stop ≤ op.buffer.text.length := by
  have hprop := h.proper hunk hmem
  have hin := hstr.within
  have hall : Closed (members unstaged chosen) ⟨0, op.buffer.text.length⟩ := by
    intro range hran _
    rcases mem_append.1 hran with hran | hran
    · obtain ⟨other, hoth, rfl⟩ := mem_map.1 hran
      exact ⟨Nat.zero_le _, (h.proper _ hoth).2⟩
    · obtain ⟨other, hoth, rfl⟩ := mem_map.1 hran
      exact ⟨Nat.zero_le _, (h.correct.turns.start_le hoth).2.2.2.2.1⟩
  have hlea := hstr.least _ ⟨Nat.zero_le _, hprop.2⟩ hall
  exact ⟨(hin.1.trans hprop.1).trans hin.2, hlea.2⟩

/-- Each unstaged hunk is one of the ranges that make up the stretches. -/
theorem mem_members_of_unstaged {other : InternalDiffHunk} (hmem : other ∈ unstaged) : other.bufferRange ∈ members unstaged chosen :=
  mem_append_right _ (mem_map_of_mem hmem)

theorem mem_members_of_chosen (hmem : hunk ∈ chosen) : hunk.bufferRange ∈ members unstaged chosen :=
  mem_append_left _ (mem_map_of_mem hmem)

/-- The loop over the chosen hunks starts with nothing done. -/
theorem wrote_start (op : Operation V) (unstaged : List InternalDiffHunk) (chosen : List DiffHunk) :
    op.Wrote unstaged chosen [] chosen [] ⟨unstaged, 0, 0, [], []⟩ where
  split := rfl
  skipped := ⟨[], rfl, rfl, rfl, by simp⟩
  edits := rfl
  pending := rfl
  covered := by simp
  stretch := by simp
  before := by simp
  apart := .nil

/-- Where the inner loop is when it has ended: `passed` are the unstaged hunks before the stretch, `others` the ones it was
entered with. -/
structure Merged (op : Operation V) (unstaged : List InternalDiffHunk) (s : Writing V) (hunk : DiffHunk)
    (hunks : List DiffHunk) (passed others : List InternalDiffHunk) (m : Merging V) : Prop where
  split : unstaged = passed ++ others
  sublist : others.Sublist s.unstaged
  grown : Grown op.buffer.version op.sense hunk (baseEnd 0 passed) (bufferEnd 0 passed) others hunks
    (s.pending ++ [hunk.pending op.buffer.version op.sense]) m
  ended : m.step op.buffer.version op.sense = none
  passed_lt : ∀ other ∈ passed, other.bufferRange.stop < m.bufferRange.start

/-- The unstaged hunks that end before a chosen hunk are skipped, and the others reach it or are behind its start. -/
theorem skip_spec {base buffer : Bytes} {o n p : Nat} (h : Turns base buffer o n unstaged) (happ : Apart unstaged) :
    (∀ other ∈ unstaged.takeWhile fun other => other.bufferRange.stop < p, other.bufferRange.stop < p) ∧
      ∀ other ∈ unstaged.dropWhile fun other => other.bufferRange.stop < p, p ≤ other.bufferRange.stop := by
  induction unstaged generalizing o n with
  | nil => simp
  | cons first unstaged ih =>
    obtain ⟨hfst, happ⟩ := pairwise_cons.1 happ
    obtain ⟨htake, hdrop⟩ := ih h.2.2.2 happ
    by_cases hlt : first.bufferRange.stop < p
    · rw [takeWhile_cons_of_pos (by simpa using hlt), dropWhile_cons_of_pos (by simpa using hlt)]
      exact ⟨forall_mem_cons.2 ⟨hlt, htake⟩, hdrop⟩
    · rw [takeWhile_cons_of_neg (by simpa using hlt), dropWhile_cons_of_neg (by simpa using hlt)]
      refine ⟨by simp, forall_mem_cons.2 ⟨Nat.le_of_not_lt hlt, fun other hoth => ?_⟩⟩
      have hlat := hfst _ hoth
      have hprop := h.start_le (.tail _ hoth)
      omega

/-- The inner loop of a chosen hunk runs without an overflow to its end. -/
theorem Wrote.merged (h : op.Wrote unstaged chosen past (hunk :: hunks) groups s) (hready : op.Ready unstaged chosen) :
    ∃ passed others m, op.mergeHunk s hunk hunks = some m ∧ op.Merged unstaged s hunk hunks passed others m := by
  obtain ⟨done, hspl, hbase, hbuf, hdone⟩ := h.skipped
  have hturn : Turns op.indexText op.buffer.text (baseEnd 0 done) (bufferEnd 0 done) s.unstaged :=
    (hspl ▸ hready.correct.turns).drop
  have happ := pairwise_append.1 (hspl ▸ hready.correct.apart)
  obtain ⟨htake, hdrop⟩ := skip_spec hturn happ.2.1
  have hski := takeWhile_append_dropWhile (p := fun other : InternalDiffHunk =>
    decide (other.bufferRange.stop < hunk.bufferRange.start)) (l := s.unstaged)
  have hbaseE : (op.enter s hunk hunks).prevBaseTextEnd = baseEnd 0 (done ++ s.unstaged.takeWhile fun other =>
      other.bufferRange.stop < hunk.bufferRange.start) := by
    rw [baseEnd_append, ← hbase]
    rfl
  have hbufE : (op.enter s hunk hunks).prevBufferEnd = bufferEnd 0 (done ++ s.unstaged.takeWhile fun other =>
      other.bufferRange.stop < hunk.bufferRange.start) := by
    rw [bufferEnd_append, ← hbuf]
    rfl
  have hothe : (op.enter s hunk hunks).unstaged = s.unstaged.dropWhile fun other =>
    other.bufferRange.stop < hunk.bufferRange.start := rfl
  generalize (s.unstaged.takeWhile fun other => decide (other.bufferRange.stop < hunk.bufferRange.start)) = skipped at *
  generalize hdro : (s.unstaged.dropWhile fun other =>
    decide (other.bufferRange.stop < hunk.bufferRange.start)) = others at *
  have hspl' : unstaged = (done ++ skipped) ++ others := by rw [append_assoc, hski, hspl]
  have hpass : ∀ other ∈ done ++ skipped, other.bufferRange.stop < hunk.bufferRange.start := by
    intro other hoth
    rcases mem_append.1 hoth with hoth | hoth
    · exact hdone _ hoth hunk mem_cons_self
    · exact htake _ hoth
  have hbeh : bufferEnd 0 (done ++ skipped) ≤ hunk.bufferRange.start :=
    bufferEnd_le (Nat.zero_le _) fun other hoth => (hpass _ hoth).le
  have hcho := pairwise_append.1 (h.split ▸ hready.apart)
  have hbef : ∀ other ∈ hunks, hunk.bufferRange.start ≤ other.bufferRange.start ∧
      other.bufferRange.start ≤ other.bufferRange.stop := by
    intro other hoth
    have hlat := (pairwise_cons.1 hcho.2.1).1 _ hoth
    have hhunk := hready.proper hunk (by rw [h.split]; simp)
    exact ⟨by omega, (hready.proper _ (by rw [h.split]; simp [hoth])).1⟩
  have hgro : Grown op.buffer.version op.sense hunk (baseEnd 0 (done ++ skipped)) (bufferEnd 0 (done ++ skipped)) others hunks
      (s.pending ++ [hunk.pending op.buffer.version op.sense]) (op.enter s hunk hunks) :=
    { absorbed := ⟨[], hothe.symm, by rw [hbaseE, baseEnd_nil], by rw [hbufE, bufferEnd_nil], by simp, by simp⟩
      taken := ⟨[], rfl, by simp, by simp [enter, DiffHunk.pending]⟩
      contains := Within.refl _
      start := .inl rfl
      behind := hbeh
      indexStart := by rw [← hbaseE, ← hbufE]; rfl
      least := fun range hran _ _ => hran }
  obtain ⟨hrun, hended⟩ := hgro.run (hspl' ▸ hready.correct.turns).drop hdrop hbef
  refine ⟨done ++ skipped, others, (op.enter s hunk _).run _ _, ?_, hspl',
    hdro ▸ dropWhile_sublist _, hrun, hended, fun other hoth => ?_⟩
  · rw [mergeHunk, if_neg (by omega)]
  · rcases hrun.start with hst | ⟨first, hfst, hst⟩
    · rw [hst]
      exact hpass _ hoth
    · rw [hst]
      exact (pairwise_append.1 (hspl' ▸ hready.correct.apart)).2.2 _ hoth _ hfst

section

variable {passed others : List InternalDiffHunk} (hm : op.Merged unstaged s hunk hunks passed others m)
  (h : op.Wrote unstaged chosen past (hunk :: hunks) groups s) (hready : op.Ready unstaged chosen)
include hm h hready

/-- What is left when the inner loop has ended is behind the range. -/
theorem Merged.left_behind : (∀ other ∈ m.unstaged, m.bufferRange.stop < other.bufferRange.start) ∧
      ∀ other ∈ m.hunks, m.bufferRange.stop < other.bufferRange.start := by
  obtain ⟨absorbed, habs, -⟩ := hm.grown.absorbed
  obtain ⟨taken, htak, -⟩ := hm.grown.taken
  obtain ⟨huns, hhunk⟩ := Merging.step_none hm.ended
  constructor
  · have hspl : unstaged = (passed ++ absorbed) ++ m.unstaged := by rw [hm.split, habs, append_assoc]
    have hturn : Turns op.indexText op.buffer.text _ _ m.unstaged := (hspl ▸ hready.correct.turns).drop
    cases hcase : m.unstaged with
    | nil => simp
    | cons first rest =>
      rw [hcase] at huns hturn
      have hfst := huns _ rfl
      intro other hoth
      have := Grown.start_le_of_turns hturn hoth
      omega
  · have hspl : chosen = (past ++ hunk :: taken) ++ m.hunks := by rw [h.split, htak]; simp
    have happ : ChosenApart m.hunks := (pairwise_append.1 (hspl ▸ hready.apart)).2.1
    cases hcase : m.hunks with
    | nil => simp
    | cons first rest =>
      rw [hcase] at hhunk happ
      have hfst := hhunk _ rfl
      intro other hoth
      rcases mem_cons.1 hoth with rfl | hoth
      · exact hfst
      · have hprop := hready.proper first (by rw [hspl, hcase]; simp)
        have := (pairwise_cons.1 happ).1 _ hoth
        omega

/-- The range that the inner loop ends with is the stretch of the hunk. -/
theorem Merged.isStretch : IsStretch (members unstaged chosen) hunk.bufferRange m.bufferRange := by
  obtain ⟨absorbed, habs, -, -, hwit, -⟩ := hm.grown.absorbed
  obtain ⟨taken, htak, hin, -⟩ := hm.grown.taken
  obtain ⟨huns, hhunk⟩ := hm.left_behind h hready
  refine ⟨hm.grown.contains, fun range hran htou => ?_, fun range hran hclsd => ?_⟩
  · rcases mem_append.1 hran with hran | hran
    · obtain ⟨other, hoth, rfl⟩ := mem_map.1 hran
      rw [h.split, htak, mem_append, mem_cons, mem_append] at hoth
      rcases hoth with hpast | rfl | htak | hleft
      · -- a hunk that is done lies in an earlier stretch, which ends before this one starts
        obtain ⟨group, hgro, hcov⟩ := h.covered _ hpast
        have hbef := h.before _ hgro
        have hlt : group.2.stop < m.bufferRange.start := by
          rcases hm.grown.start with hst | ⟨first, hfst, hst⟩
          · rw [hst]
            exact hbef.1 hunk mem_cons_self
          · rw [hst]
            exact hbef.2 _ (hm.sublist.subset hfst)
        have := hcov.2
        have := htou.2
        omega
      · exact hm.grown.contains
      · exact hin _ htak
      · have := hhunk _ hleft
        have := htou.1
        omega
    · obtain ⟨other, hoth, rfl⟩ := mem_map.1 hran
      rw [hm.split, habs, mem_append, mem_append] at hoth
      rcases hoth with hpass | habs | hleft
      · have := hm.passed_lt _ hpass
        have := htou.2
        omega
      · exact hwit _ habs
      · have := huns _ hleft
        have := htou.1
        omega
  · refine hm.grown.least _ hran (fun other hoth => hclsd _ ?_) fun other hoth => hclsd _ ?_
    · exact mem_members_of_unstaged (by rw [hm.split]; exact mem_append_right _ hoth)
    · exact mem_members_of_chosen (by rw [h.split]; simp [hoth])

/-- The inner loop ends with the range of the index that the stretch is aligned with. -/
theorem Merged.aligned_eq : aligned unstaged m.bufferRange =
      ⟨m.indexStart, m.prevBaseTextEnd + (m.bufferRange.stop - m.prevBufferEnd)⟩ := by
  obtain ⟨absorbed, habs, hbase, hbuf, hwit, hfst⟩ := hm.grown.absorbed
  obtain ⟨huns, -⟩ := hm.left_behind h hready
  have hprop := hready.stretch_proper (by rw [h.split]; simp) (hm.isStretch h hready)
  have hturn := hready.correct.turns
  apply Span.ext
  · have hhead : ∀ other ∈ others.head?, m.bufferRange.start ≤ other.bufferRange.start := by
      intro other hoth
      have hmem := List.mem_of_mem_head? hoth
      by_cases hnone : absorbed = []
      · rw [hnone, nil_append] at habs
        have := huns _ (habs ▸ hmem)
        omega
      · exact (hfst hnone _ hmem).1
    have hdrop := alignedStart_drop (hm.split ▸ hturn) hm.passed_lt
    rw [← hm.split, alignedStart_common hhead, ← hm.grown.indexStart] at hdrop
    exact hdrop
  · have hspl : unstaged = (passed ++ absorbed) ++ m.unstaged := by rw [hm.split, habs, append_assoc]
    have hbeh : ∀ other ∈ passed ++ absorbed, other.bufferRange.stop ≤ m.bufferRange.stop := by
      intro other hoth
      rcases mem_append.1 hoth with hoth | hoth
      · have := hm.passed_lt _ hoth
        omega
      · exact (hwit _ hoth).2
    have hdrop : alignedStop 0 0 ((passed ++ absorbed) ++ m.unstaged) m.bufferRange.stop = _ := alignedStop_drop hbeh
    rw [← hspl, alignedStop_common (hspl ▸ hturn).drop fun other hoth =>
      huns _ (List.mem_of_mem_head? hoth)] at hdrop
    rw [hbase, hbuf, ← baseEnd_append, ← bufferEnd_append]
    exact hdrop

/-- The edit has the range of the index that the stretch is aligned with; it needs no clamping. -/
theorem Merged.edit_eq : op.edit hunk m = op.written unstaged (hunk, m.bufferRange) := by
  have hprop := hready.stretch_proper (by rw [h.split]; simp) (hm.isStretch h hready)
  have hbds := aligned_inBounds hready.correct.turns hprop.1 hprop.2
  have heq := hm.aligned_eq h hready
  rw [heq] at hbds
  simp only [edit, written, heq, min_eq_left hbds.2, min_eq_left hbds.1]

end

/-- An edit behind the others is added to them. -/
theorem pushEdit_of_lt {edits : List IndexEdit} {edit : IndexEdit} (h : ∀ other ∈ edits, other.stop < edit.start) :
    pushEdit edits edit = edits ++ [edit] := by
  unfold pushEdit
  split
  · rename_i last hlast
    rw [if_neg (Nat.not_le_of_lt (h last (List.mem_of_getLast? hlast)))]
  · rename_i hnone
    rw [getLast?_eq_none_iff.1 hnone, nil_append]

/-- A turn of the outer loop: the chosen hunks up to the end of the stretch are done, with one edit. -/
theorem Wrote.step (h : op.Wrote unstaged chosen past (hunk :: hunks) groups s) (hready : op.Ready unstaged chosen) :
    ∃ m taken, op.mergeHunk s hunk hunks = some m ∧
      op.Wrote unstaged chosen (past ++ hunk :: taken) m.hunks (groups ++ [(hunk, m.bufferRange)])
        ⟨m.unstaged, m.prevBufferEnd, m.prevBaseTextEnd, pushEdit s.edits (op.edit hunk m), m.pending⟩ := by
  obtain ⟨passed, others, m, hmer, hm⟩ := h.merged hready
  obtain ⟨absorbed, habs, hbase, hbuf, hwit, -⟩ := hm.grown.absorbed
  obtain ⟨taken, htak, hin, hpend⟩ := hm.grown.taken
  obtain ⟨huns, hhunk⟩ := hm.left_behind h hready
  have hmem : hunk ∈ chosen := by rw [h.split]; simp
  have hstr := hm.isStretch h hready
  have hprop := hready.stretch_proper hmem hstr
  have hspl : unstaged = (passed ++ absorbed) ++ m.unstaged := by rw [hm.split, habs, append_assoc]
  have hgrou : ∀ group ∈ groups, group.2.stop < m.bufferRange.start := by
    intro group hgro
    have hbef := h.before _ hgro
    rcases hm.grown.start with hst | ⟨first, hfst, hst⟩
    · rw [hst]
      exact hbef.1 hunk mem_cons_self
    · rw [hst]
      exact hbef.2 _ (hm.sublist.subset hfst)
  refine ⟨m, taken, hmer, ?_, ?_, ?_, ?_, ?_, ?_, ?_, ?_⟩
  · rw [h.split, htak]
    simp
  · refine ⟨passed ++ absorbed, hspl, by rw [baseEnd_append, hbase], by rw [bufferEnd_append, hbuf], fun other hoth next hnext => ?_⟩
    have hnext := hhunk next hnext
    rcases mem_append.1 hoth with hoth | hoth
    · have := hm.passed_lt _ hoth
      omega
    · have := (hwit _ hoth).2
      omega
  · rw [hm.edit_eq h hready, pushEdit_of_lt, h.edits, map_append, map_singleton]
    intro edit hedit
    rw [h.edits] at hedit
    obtain ⟨group, hgro, rfl⟩ := mem_map.1 hedit
    have hoth := h.stretch _ hgro
    exact aligned_apart hready.correct.turns (fun _ hoth => mem_members_of_unstaged hoth) hoth.2.closed hstr.closed
      (hready.stretch_proper hoth.1 hoth.2).1 hprop.1 (hgrou _ hgro)
  · rw [hpend, h.pending]
    simp
  · intro other hoth
    rw [mem_append, mem_cons] at hoth
    rcases hoth with hpast | rfl | htak
    · obtain ⟨group, hgro, hcov⟩ := h.covered _ hpast
      exact ⟨group, mem_append_left _ hgro, hcov⟩
    · exact ⟨(other, m.bufferRange), by simp, hm.grown.contains⟩
    · exact ⟨(hunk, m.bufferRange), by simp, hin _ htak⟩
  · intro group hgro
    rcases mem_append.1 hgro with hgro | hgro
    · exact h.stretch _ hgro
    · rw [mem_singleton.1 hgro]
      exact ⟨hmem, hstr⟩
  · intro group hgro
    rcases mem_append.1 hgro with hgro | hgro
    · have hlt := hgrou _ hgro
      refine ⟨fun next hnext => ?_, fun next hnext => ?_⟩
      · have := hhunk next hnext
        omega
      · have := huns next hnext
        omega
    · rw [mem_singleton.1 hgro]
      exact ⟨hhunk, huns⟩
  · refine pairwise_append.2 ⟨h.apart, pairwise_singleton _ _, fun group hgro other hoth => ?_⟩
    rw [mem_singleton.1 hoth]
    exact hgrou _ hgro

/-- The outer loop ends with an edit for each stretch. -/
theorem Wrote.run (h : op.Wrote unstaged chosen past rest groups s) (hready : op.Ready unstaged chosen) :
    ∃ groups s', op.write s rest = some s' ∧ op.Wrote unstaged chosen chosen [] groups s' := by
  induction hlen : rest.length using Nat.strong_induction_on generalizing past rest groups s with
  | _ length ih =>
    subst hlen
    cases rest with
    | nil =>
      have hspl := h.split
      rw [append_nil] at hspl
      exact ⟨groups, s, by rw [write], hspl ▸ h⟩
    | cons hunk hunks =>
      obtain ⟨m, taken, hmer, hnext⟩ := h.step hready
      obtain ⟨groups', s', hwri, hdone⟩ := ih _ (op.mergeHunk_length hmer) hnext rfl
      refine ⟨groups', s', ?_, hdone⟩
      rw [write]
      split
      · rename_i hnone
        rw [hmer] at hnone
        cases hnone
      · rename_i other hoth
        rw [hmer, Option.some.injEq] at hoth
        subst hoth
        exact hwri

end Operation

end Wu.BufferDiff
