import Wu.BufferDiff.IndexEdits
import Wu.BufferDiff.Alignment

/-!
# The stretches that an operation on hunks is about

The chosen hunks and the unstaged hunks that they overlap or touch, directly or through other such hunks, make up stretches of
the buffer. In the index, the operation replaces what is aligned with each stretch.
-/

namespace Wu.BufferDiff

/-- Two ranges overlap or touch. -/
def Touches (a b : Span) : Prop := a.start ≤ b.stop ∧ b.start ≤ a.stop

/-- A range lies in another one. -/
def Within (a b : Span) : Prop := b.start ≤ a.start ∧ a.stop ≤ b.stop

instance (a b : Span) : Decidable (Touches a b) := inferInstanceAs (Decidable (_ ∧ _))

instance (a b : Span) : Decidable (Within a b) := inferInstanceAs (Decidable (_ ∧ _))

/-- A range contains each of the members that it overlaps or touches. -/
def Closed (members : List Span) (range : Span) : Prop := ∀ other ∈ members, Touches other range → Within other range

/-- The stretch of a hunk: the least range around it that contains each of the members that it overlaps or touches. -/
structure IsStretch (members : List Span) (hunk range : Span) : Prop where
  within : Within hunk range
  closed : Closed members range
  least : ∀ other, Within hunk other → Closed members other → Within range other

section Stretch

variable {members : List Span} {a b c s t : Span}

theorem Within.refl (a : Span) : Within a a := ⟨le_rfl, le_rfl⟩

theorem Within.trans (hab : Within a b) (hbc : Within b c) : Within a c :=
  ⟨hbc.1.trans hab.1, hab.2.trans hbc.2⟩

theorem Within.antisymm (hab : Within a b) (hba : Within b a) : a = b :=
  Span.ext (le_antisymm hba.1 hab.1) (le_antisymm hab.2 hba.2)

section

variable (hs : Closed members s) (ht : Closed members t)
include hs ht

/-- What is common to two closed ranges is closed. -/
theorem Closed.inter : Closed members ⟨max s.start t.start, min s.stop t.stop⟩ := by
  rintro other hmem ⟨hle, hge⟩
  have hle' := le_min_iff.1 hle
  have hge' := max_le_iff.1 hge
  have hinS := hs _ hmem ⟨hle'.1, hge'.1⟩
  have hinT := ht _ hmem ⟨hle'.2, hge'.2⟩
  exact ⟨max_le hinS.1 hinT.1, le_min hinS.2 hinT.2⟩

/-- What is before a closed range in another one is closed. -/
theorem Closed.before (hle : t.start ≤ t.stop) (hpos : 0 < t.start)
    (hin : t.start ≤ s.stop) : Closed members ⟨s.start, t.start - 1⟩ := by
  rintro other hmem ⟨hst, hstop⟩
  simp only at hst hstop
  have hinS := hs _ hmem ⟨by omega, hstop⟩
  refine ⟨hinS.1, ?_⟩
  by_contra hrch
  simp only at hrch
  have hinT := ht _ hmem ⟨by omega, by omega⟩
  have := hinT.1
  omega

/-- What is behind a closed range in another one is closed. -/
theorem Closed.behind (hle : t.start ≤ t.stop) (hin : s.start ≤ t.stop) : Closed members ⟨t.stop + 1, s.stop⟩ := by
  rintro other hmem ⟨hst, hstop⟩
  simp only at hst hstop
  have hinS := hs _ hmem ⟨hst, by omega⟩
  refine ⟨?_, hinS.2⟩
  by_contra hrch
  simp only at hrch
  have hinT := ht _ hmem ⟨by omega, by omega⟩
  have := hinT.2
  omega

end

/-- A stretch is the stretch of each of the members in it. -/
theorem IsStretch.of_member (h : IsStretch members a s) (ha : a ∈ members) (hle : b.start ≤ b.stop) (hb : Within b s) :
    IsStretch members b s := by
  refine ⟨hb, h.closed, fun other hoth hclsd => ?_⟩
  -- the part of the other range that lies in the stretch; it contains `b`
  have hpart := h.closed.inter hclsd
  have hbst : max s.start other.start ≤ b.start := max_le hb.1 hoth.1
  have hbsto : b.stop ≤ min s.stop other.stop := le_min hb.2 hoth.2
  have hprop : max s.start other.start ≤ min s.stop other.stop := by omega
  have hwit : Within a ⟨max s.start other.start, min s.stop other.stop⟩ := by
    refine hpart a ha ?_
    by_contra htou
    have hin := h.within
    rcases Nat.lt_or_ge a.stop (max s.start other.start) with hbef | hrch
    · -- all of `a` is before the part, and what is before the part is closed
      have hlea := h.least ⟨s.start, max _ _ - 1⟩ ⟨hin.1, by simp only; omega⟩
        (h.closed.before hpart hprop (by simp only; omega) (by simp only; omega))
      have := hlea.2
      simp only at this
      omega
    · have hbeh : min s.stop other.stop < a.start := by
        by_contra hnot
        exact htou ⟨by simp only; omega, hrch⟩
      have hlea := h.least ⟨min _ _ + 1, s.stop⟩ ⟨by simp only; omega, hin.2⟩
        (h.closed.behind hpart hprop (by simp only; omega))
      have := hlea.1
      simp only at this
      omega
  have hall := h.least _ hwit hpart
  exact ⟨(le_max_right _ _).trans hall.1, hall.2.trans (min_le_right _ _)⟩

/-- A hunk has one stretch. -/
theorem IsStretch.unique (hs : IsStretch members a s) (ht : IsStretch members a t) : s = t :=
  (hs.least t ht.within ht.closed).antisymm (ht.least s hs.within hs.closed)

end Stretch

/-- The ranges that make up the stretches. -/
def members (unstaged : List InternalDiffHunk) (chosen : List DiffHunk) : List Span :=
  chosen.map (·.bufferRange) ++ unstaged.map (·.bufferRange)

/-- The stretches of the chosen hunks, in order. -/
structure Stretches (unstaged : List InternalDiffHunk) (chosen : List DiffHunk) (stretches : List Span) : Prop where
  mem_iff : ∀ stretch, stretch ∈ stretches ↔ ∃ hunk ∈ chosen, IsStretch (members unstaged chosen) hunk.bufferRange stretch
  apart : stretches.Pairwise fun a b => a.stop < b.start

/-- What is to be put in the place of each stretch in the index: the text of the buffer when its hunks are staged, and the head's
text when they are unstaged. -/
def replacement (headText bufferText : Bytes) (uncommitted unstaged : List InternalDiffHunk) (stage : Bool) (stretch : Span) :
    IndexEdit :=
  ⟨(aligned unstaged stretch).start, (aligned unstaged stretch).stop,
    if stage then textForRange bufferText stretch else textForRange headText (aligned uncommitted stretch)⟩

/-- The edits are edits of the index, in order and disjoint, and with them nothing outside the stretches changes in the index
and each stretch has the text that it is to have. -/
structure WritesIndex (indexText headText bufferText : Bytes) (uncommitted unstaged : List InternalDiffHunk)
    (chosen : List DiffHunk) (stage : Bool) (edits : List IndexEdit) : Prop where
  inBounds : Splice.InBounds indexText.length edits
  disjoint : Splice.Disjoint edits
  text : ∃ stretches, Stretches unstaged chosen stretches ∧ newIndexText indexText edits =
    Splice.rewritten indexText 0 (stretches.map (replacement headText bufferText uncommitted unstaged stage))

/-! ### The ranges of stretches -/

section Ranges

variable {base buffer : Bytes} {unstaged : List InternalDiffHunk} {ranges : List Span} {s t : Span}

/-- Stretches that are apart are aligned with ranges that are apart. -/
theorem aligned_apart (h : Turns base buffer 0 0 unstaged) (hrang : ∀ hunk ∈ unstaged, hunk.bufferRange ∈ ranges)
    (hs : Closed ranges s) (ht : Closed ranges t) (hs' : s.start ≤ s.stop) (ht' : t.start ≤ t.stop) (hlt : s.stop < t.start) :
    (aligned unstaged s).stop < (aligned unstaged t).start := by
  refine alignedStop_lt_alignedStart h (Nat.zero_le _) hlt (fun hunk hmem => ?_) fun hunk hmem => ?_
  · by_contra hrch
    have hin := hs _ (hrang hunk hmem) ⟨by omega, by omega⟩
    have := hin.2
    omega
  · by_contra hrch
    have hin := ht _ (hrang hunk hmem) ⟨by omega, by omega⟩
    have := hin.1
    omega

/-- A stretch is aligned with a range of the text. -/
theorem aligned_inBounds (h : Turns base buffer 0 0 unstaged) (hle : s.start ≤ s.stop) (hlen : s.stop ≤ buffer.length) :
    (aligned unstaged s).start ≤ (aligned unstaged s).stop ∧ (aligned unstaged s).stop ≤ base.length :=
  ⟨alignedStart_le_alignedStop h (Nat.zero_le _) hle, alignedStop_le_length h (Nat.zero_le _) hlen⟩

end Ranges

end Wu.BufferDiff
