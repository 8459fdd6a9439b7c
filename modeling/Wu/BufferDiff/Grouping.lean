import Wu.BufferDiff.Stretches

/-!
# What the loops of the index edits keep

The inner loop grows the range of a chosen hunk to its stretch. The outer loop leaves one edit for each stretch.
-/

namespace Wu.BufferDiff

open List

variable {V : Type}

/-- What is shown as pending for a chosen hunk. -/
def DiffHunk.pending (self : DiffHunk) (version : V) (sense : PendingSense) : PendingHunk V :=
  ⟨self.bufferRange, self.diffBaseByteRange, version, sense⟩

/-- The hunks are in order and do not touch. -/
def Apart (hunks : List InternalDiffHunk) : Prop := hunks.Pairwise fun a b => a.bufferRange.stop < b.bufferRange.start

/-- Chosen hunks are in order and do not touch. -/
def ChosenApart (hunks : List DiffHunk) : Prop := hunks.Pairwise fun a b => a.bufferRange.stop < b.bufferRange.start

/-- What the inner loop has done for a hunk: `o` and `n` are where the unstaged hunks go on, in the index and in the buffer,
`unstaged` and `hunks` what was left when it was entered. -/
structure Grown (version : V) (sense : PendingSense) (hunk : DiffHunk) (o n : Nat) (unstaged : List InternalDiffHunk)
    (hunks : List DiffHunk) (pending : List (PendingHunk V)) (m : Merging V) : Prop where
  absorbed : ∃ absorbed, unstaged = absorbed ++ m.unstaged ∧ m.prevBaseTextEnd = baseEnd o absorbed ∧
    m.prevBufferEnd = bufferEnd n absorbed ∧ (∀ other ∈ absorbed, Within other.bufferRange m.bufferRange) ∧
    (absorbed ≠ [] → ∀ other ∈ unstaged, m.bufferRange.start ≤ other.bufferRange.start ∧ m.indexStart ≤ other.diffBaseByteRange.start)
  taken : ∃ taken, hunks = taken ++ m.hunks ∧ (∀ other ∈ taken, Within other.bufferRange m.bufferRange) ∧
    m.pending = pending ++ taken.map fun other => other.pending version sense
  contains : Within hunk.bufferRange m.bufferRange
  start : m.bufferRange.start = hunk.bufferRange.start ∨ ∃ other ∈ unstaged, m.bufferRange.start = other.bufferRange.start
  behind : n ≤ m.bufferRange.start
  indexStart : m.indexStart = o + (m.bufferRange.start - n)
  least : ∀ range, Within hunk.bufferRange range →
    (∀ other ∈ unstaged, Touches other.bufferRange range → Within other.bufferRange range) →
    (∀ other ∈ hunks, Touches other.bufferRange range → Within other.bufferRange range) → Within m.bufferRange range

namespace Grown

variable {version : V} {sense : PendingSense} {base buffer : Bytes} {o n : Nat} {hunk : DiffHunk}
  {unstaged : List InternalDiffHunk} {hunks : List DiffHunk} {pending : List (PendingHunk V)} {m next : Merging V}

/-- Of hunks from an offset on, the first one starts first in both texts. -/
theorem start_le_of_turns {first other : InternalDiffHunk} {rest : List InternalDiffHunk}
    (h : Turns base buffer o n (first :: rest)) (hmem : other ∈ first :: rest) :
    first.bufferRange.start ≤ other.bufferRange.start ∧ first.diffBaseByteRange.start ≤ other.diffBaseByteRange.start := by
  rcases mem_cons.1 hmem with rfl | hmem
  · exact ⟨le_rfl, le_rfl⟩
  · have hfst := h.start_le mem_cons_self
    have hoth := h.2.2.2.start_le hmem
    omega

section

variable (h : Grown version sense hunk o n unstaged hunks pending m)
include h

/-- Merging with an unstaged hunk. -/
theorem absorbUnstaged (htur : Turns base buffer o n unstaged)
    (hrch : ∀ other ∈ unstaged, hunk.bufferRange.start ≤ other.bufferRange.stop) {other : InternalDiffHunk}
    {rest : List InternalDiffHunk} (hrest : m.unstaged = other :: rest)
    (hle : other.bufferRange.start ≤ m.bufferRange.stop) :
    Grown version sense hunk o n unstaged hunks pending (m.absorbUnstaged other rest) := by
  obtain ⟨absorbed, huns, -, -, hwit, hfst⟩ := h.absorbed
  rw [hrest] at huns
  have hmem : other ∈ unstaged := by simp [huns]
  have hgrow : Within m.bufferRange (m.absorbUnstaged other rest).bufferRange := ⟨min_le_left _ _, le_max_left _ _⟩
  have hin : Within other.bufferRange (m.absorbUnstaged other rest).bufferRange := ⟨min_le_right _ _, le_max_right _ _⟩
  have hidx := h.indexStart
  have hbeh := h.behind
  have hcon := h.contains
  -- the first hunk that is absorbed moves both starts; behind it neither moves
  have hsta : ((m.absorbUnstaged other rest).indexStart =
        o + ((m.absorbUnstaged other rest).bufferRange.start - n) ∧ n ≤ (m.absorbUnstaged other rest).bufferRange.start) ∧
      ∀ third ∈ unstaged, (m.absorbUnstaged other rest).bufferRange.start ≤ third.bufferRange.start ∧
        (m.absorbUnstaged other rest).indexStart ≤ third.diffBaseByteRange.start := by
    simp only [Merging.absorbUnstaged]
    cases absorbed with
    | nil =>
      subst huns
      have hturn := htur.1
      refine ⟨by omega, fun third hthi => ?_⟩
      have := start_le_of_turns htur hthi
      omega
    | cons first absorbed =>
      have hoth := hfst (by simp) _ hmem
      refine ⟨by omega, fun third hthi => ?_⟩
      have := hfst (by simp) _ hthi
      omega
  constructor
  · refine ⟨absorbed ++ [other], by simp [huns, Merging.absorbUnstaged], ?_, ?_, fun third hthi => ?_, fun _ => hsta.2⟩
    · simp [Merging.absorbUnstaged, baseEnd]
    · simp [Merging.absorbUnstaged, bufferEnd]
    · rcases mem_append.1 hthi with hthi | hthi
      · exact (hwit _ hthi).trans hgrow
      · rw [mem_singleton.1 hthi]
        exact hin
  · obtain ⟨taken, hhun, htak, hpend⟩ := h.taken
    exact ⟨taken, hhun, fun third hthi => (htak _ hthi).trans hgrow, hpend⟩
  · exact hcon.trans hgrow
  · show min _ _ = _ ∨ ∃ third ∈ unstaged, min _ _ = third.bufferRange.start
    rcases min_choice m.bufferRange.start _ with hmin | hmin
    · rw [hmin]
      exact h.start
    · exact .inr ⟨other, hmem, hmin⟩
  · exact hsta.1.2
  · exact hsta.1.1
  · intro range hhunk hothe hcho
    have hm := h.least _ hhunk hothe hcho
    have hrch' := hrch _ hmem
    have hoth := hothe _ hmem ⟨hle.trans hm.2, hhunk.1.trans hrch'⟩
    exact ⟨le_min hm.1 hoth.1, max_le hm.2 hoth.2⟩

/-- Merging with the next chosen hunk. -/
theorem absorbHunk (hbef : ∀ other ∈ hunks, hunk.bufferRange.start ≤ other.bufferRange.start ∧
      other.bufferRange.start ≤ other.bufferRange.stop) {other : DiffHunk} {rest : List DiffHunk}
    (hrest : m.hunks = other :: rest) (hle : other.bufferRange.start ≤ m.bufferRange.stop) :
    Grown version sense hunk o n unstaged hunks pending (m.absorbHunk version sense other rest) := by
  obtain ⟨taken, hhun, htak, hpend⟩ := h.taken
  rw [hrest] at hhun
  have hmem : other ∈ hunks := by simp [hhun]
  have hst := hbef _ hmem
  have hgrow : Within m.bufferRange (m.absorbHunk version sense other rest).bufferRange := ⟨le_rfl, le_max_left _ _⟩
  have hin : Within other.bufferRange (m.absorbHunk version sense other rest).bufferRange :=
    ⟨h.contains.1.trans hst.1, le_max_right _ _⟩
  constructor
  · obtain ⟨absorbed, huns, hbase, hbuf, hwit, hfst⟩ := h.absorbed
    exact ⟨absorbed, huns, hbase, hbuf, fun third hthi => (hwit _ hthi).trans hgrow, hfst⟩
  · refine ⟨taken ++ [other], by simp [hhun, Merging.absorbHunk], fun third hthi => ?_, ?_⟩
    · rcases mem_append.1 hthi with hthi | hthi
      · exact (htak _ hthi).trans hgrow
      · rw [mem_singleton.1 hthi]
        exact hin
    · simp [Merging.absorbHunk, hpend, DiffHunk.pending]
  · exact h.contains.trans hgrow
  · exact h.start
  · exact h.behind
  · exact h.indexStart
  · intro range hhunk hoth hcho
    have hm := h.least _ hhunk hoth hcho
    have hothe := hcho _ hmem ⟨hle.trans hm.2, (hhunk.1.trans hst.1).trans hst.2⟩
    exact ⟨hm.1, max_le hm.2 hothe.2⟩

/-- The loop ends with the range grown. -/
theorem run (hturn : Turns base buffer o n unstaged) (hrch : ∀ other ∈ unstaged, hunk.bufferRange.start ≤ other.bufferRange.stop)
    (hbef : ∀ other ∈ hunks, hunk.bufferRange.start ≤ other.bufferRange.start ∧ other.bufferRange.start ≤ other.bufferRange.stop) :
    Grown version sense hunk o n unstaged hunks pending (m.run version sense) ∧ (m.run version sense).step version sense = none := by
  refine Merging.run_induct (fun m next hm hnext => ?_) m h
  obtain ⟨other, rest, hrest, hle, rfl⟩ | ⟨other, rest, hrest, hle, rfl⟩ := Merging.step_cases hnext
  · exact hm.absorbUnstaged hturn hrch hrest hle
  · exact hm.absorbHunk hbef hrest hle

end

end Grown

end Wu.BufferDiff
