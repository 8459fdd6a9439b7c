import Wu.BufferDiff.Snapshot

/-!
# Aligned ranges

A correct diff aligns each range of the buffer with a range of the base text. Ranges that no hunk reaches into from outside and
that are apart are aligned with ranges that are apart.
-/

namespace Wu.BufferDiff

open List

/-- The first offset in the base text that the diff aligns with an offset of the buffer; a hunk that contains the offset is
aligned as a whole. -/
def alignedStart : Nat → Nat → List InternalDiffHunk → Nat → Nat
  | o, n, [], p => o + (p - n)
  | o, n, hunk :: hunks, p =>
    if p ≤ hunk.bufferRange.start then o + (p - n)
    else if p < hunk.bufferRange.stop then hunk.diffBaseByteRange.start
    else alignedStart hunk.diffBaseByteRange.stop hunk.bufferRange.stop hunks p

/-- The last offset in the base text that the diff aligns with an offset of the buffer. -/
def alignedStop : Nat → Nat → List InternalDiffHunk → Nat → Nat
  | o, n, [], p => o + (p - n)
  | o, n, hunk :: hunks, p =>
    if hunk.bufferRange.stop ≤ p then alignedStop hunk.diffBaseByteRange.stop hunk.bufferRange.stop hunks p
    else if p ≤ hunk.bufferRange.start then o + (p - n)
    else hunk.diffBaseByteRange.stop

/-- The range of the base text that is aligned with a range of the buffer. -/
def aligned (hunks : List InternalDiffHunk) (range : Span) : Span :=
  ⟨alignedStart 0 0 hunks range.start, alignedStop 0 0 hunks range.stop⟩

section Aligned

variable {base buffer : Bytes} {o n p q : Nat} {hunk : InternalDiffHunk} {hunks : List InternalDiffHunk}

/-! ### Bounds -/

section

variable (h : Turns base buffer o n hunks)
include h

theorem le_alignedStart : o ≤ alignedStart o n hunks p := by
  induction hunks generalizing o n with
  | nil => exact Nat.le_add_right _ _
  | cons first hunks ih =>
    have hfst := h.start_le mem_cons_self
    have hrest := ih h.2.2.2
    unfold alignedStart
    split
    · exact Nat.le_add_right _ _
    · split <;> omega

theorem le_alignedStop : o ≤ alignedStop o n hunks p := by
  induction hunks generalizing o n with
  | nil => exact Nat.le_add_right _ _
  | cons first hunks ih =>
    have hfst := h.start_le mem_cons_self
    have hrest := ih h.2.2.2
    unfold alignedStop
    split
    · omega
    · split <;> omega

/-- A range is aligned with a range. -/
theorem alignedStart_le_alignedStop (hp : n ≤ p) (hpq : p ≤ q) : alignedStart o n hunks p ≤ alignedStop o n hunks q := by
  induction hunks generalizing o n with
  | nil => exact Nat.add_le_add_left (Nat.sub_le_sub_right hpq n) o
  | cons first hunks ih =>
    obtain ⟨⟨common, hbase, hbuf, -⟩, hle, -, hrest⟩ := h
    have hlow := le_alignedStop (p := q) hrest
    unfold alignedStart alignedStop
    by_cases hbef : p ≤ first.bufferRange.start
    · rw [if_pos hbef]
      split
      · omega
      · split <;> omega
    · rw [if_neg hbef]
      by_cases hins : p < first.bufferRange.stop
      · rw [if_pos hins]
        split
        · omega
        · split <;> omega
      · rw [if_neg hins, if_pos (by omega)]
        exact ih hrest (by omega)

/-- An offset of the buffer is aligned with an offset of the base text. -/
theorem alignedStop_le_length (hn : n ≤ p) (hp : p ≤ buffer.length) : alignedStop o n hunks p ≤ base.length := by
  induction hunks generalizing o n with
  | nil =>
    have hlen := h.nil_length
    have hbds := h.bounds
    unfold alignedStop
    omega
  | cons first hunks ih =>
    have hfst := h.start_le mem_cons_self
    obtain ⟨⟨common, hbase, hbuf, -⟩, -, -, hrest⟩ := h
    unfold alignedStop
    split
    · rename_i hbeh
      exact ih hrest hbeh
    · split <;> omega

end

/-! ### Ranges that are apart -/

/-- When no hunk reaches over the end of one range or the start of a later one, what they are aligned with is apart. -/
theorem alignedStop_lt_alignedStart (h : Turns base buffer o n hunks) (hp : n ≤ p) (hpq : p < q)
    (hstop : ∀ hunk ∈ hunks, hunk.bufferRange.stop ≤ p ∨ p < hunk.bufferRange.start)
    (hst : ∀ hunk ∈ hunks, hunk.bufferRange.stop < q ∨ q ≤ hunk.bufferRange.start) :
    alignedStop o n hunks p < alignedStart o n hunks q := by
  induction hunks generalizing o n with
  | nil =>
    unfold alignedStop alignedStart
    omega
  | cons first hunks ih =>
    obtain ⟨⟨common, hbase, hbuf, -⟩, hle, hle', hrest⟩ := h
    have hlow := le_alignedStart (p := q) hrest
    have hfst := hst _ mem_cons_self
    unfold alignedStop alignedStart
    rcases hstop _ mem_cons_self with hbeh | hbef
    · rw [if_pos hbeh, if_neg (by omega), if_neg (by omega)]
      exact ih hrest hbeh (fun hunk hmem => hstop hunk (.tail _ hmem)) fun hunk hmem => hst hunk (.tail _ hmem)
    · rw [if_neg (by omega), if_pos (by omega)]
      by_cases hnext : q ≤ first.bufferRange.start
      · rw [if_pos hnext]
        omega
      · rw [if_neg hnext, if_neg (by omega)]
        omega

/-! ### The range of a hunk -/

section

variable (h : Turns base buffer o n hunks)
include h

/-- Where something differs from the offsets on, the base text goes on behind the common text before it. -/
theorem lt_diffBase_start (happ : ∀ hunk ∈ hunks, n < hunk.bufferRange.start)
    (hmem : hunk ∈ hunks) : o < hunk.diffBaseByteRange.start := by
  cases hunks with
  | nil => cases hmem
  | cons first hunks =>
    have hfst := happ _ mem_cons_self
    obtain ⟨⟨common, hbase, hbuf, -⟩, hle, -, hrest⟩ := h
    rcases mem_cons.1 hmem with rfl | hmem
    · omega
    · have := hrest.start_le hmem
      omega

/-- A hunk is aligned with its range of the base text. -/
theorem alignedStart_hunk (happ : hunks.Pairwise fun a b => a.bufferRange.stop < b.bufferRange.start) (hmem : hunk ∈ hunks) :
    alignedStart o n hunks hunk.bufferRange.start = hunk.diffBaseByteRange.start := by
  induction hunks generalizing o n with
  | nil => cases hmem
  | cons first hunks ih =>
    obtain ⟨hfst, happ⟩ := pairwise_cons.1 happ
    obtain ⟨⟨common, hbase, hbuf, -⟩, -, hle', hrest⟩ := h
    unfold alignedStart
    rcases mem_cons.1 hmem with rfl | hmem
    · rw [if_pos le_rfl]
      omega
    · have := hfst hunk hmem
      rw [if_neg (by omega), if_neg (by omega)]
      exact ih hrest happ hmem

theorem alignedStop_hunk (happ : hunks.Pairwise fun a b => a.bufferRange.stop < b.bufferRange.start) (hmem : hunk ∈ hunks) :
    alignedStop o n hunks hunk.bufferRange.stop = hunk.diffBaseByteRange.stop := by
  induction hunks generalizing o n with
  | nil => cases hmem
  | cons first hunks ih =>
    obtain ⟨hfst, happ⟩ := pairwise_cons.1 happ
    have hrest := h.2.2.2
    unfold alignedStop
    rcases mem_cons.1 hmem with rfl | hmem
    · rw [if_pos le_rfl]
      cases hunks with
      | nil => simp [alignedStop]
      | cons second hunks =>
        have hsec := hfst _ mem_cons_self
        have := hrest.start_le mem_cons_self
        unfold alignedStop
        rw [if_neg (by omega), if_pos (by omega), Nat.sub_self, Nat.add_zero]
    · have := hrest.start_le hmem
      rw [if_pos (by omega)]
      exact ih hrest happ hmem

/-- An offset before a hunk is aligned with an offset before its range of the base text. -/
theorem alignedStart_lt_hunk
    (happ : hunks.Pairwise fun a b => a.bufferRange.stop < b.bufferRange.start) (hmem : hunk ∈ hunks) (hn : n ≤ p)
    (hp : p < hunk.bufferRange.start) : alignedStart o n hunks p < hunk.diffBaseByteRange.start := by
  induction hunks generalizing o n with
  | nil => cases hmem
  | cons first hunks ih =>
    obtain ⟨hfst, happ⟩ := pairwise_cons.1 happ
    obtain ⟨⟨common, hbase, hbuf, -⟩, hle, -, hrest⟩ := h
    unfold alignedStart
    rcases mem_cons.1 hmem with rfl | hmem
    · rw [if_pos hp.le]
      omega
    · have hbeh := lt_diffBase_start hrest hfst hmem
      split
      · omega
      · split
        · omega
        · exact ih hrest happ hmem (by omega)

/-- An offset behind the common text's start is aligned with an offset behind it. -/
theorem lt_alignedStop (happ : ∀ hunk ∈ hunks, n < hunk.bufferRange.start) (hp : n < p) : o < alignedStop o n hunks p := by
  cases hunks with
  | nil =>
    unfold alignedStop
    omega
  | cons first hunks =>
    have hfst := lt_diffBase_start h happ mem_cons_self
    obtain ⟨-, hle, -, hrest⟩ := h
    have hlow := le_alignedStop (p := p) hrest
    unfold alignedStop
    split
    · omega
    · split <;> omega

/-- An offset behind a hunk is aligned with an offset behind its range of the base text. -/
theorem hunk_lt_alignedStop (happ : hunks.Pairwise fun a b => a.bufferRange.stop < b.bufferRange.start) (hmem : hunk ∈ hunks)
    (hp : hunk.bufferRange.stop < p) : hunk.diffBaseByteRange.stop < alignedStop o n hunks p := by
  induction hunks generalizing o n with
  | nil => cases hmem
  | cons first hunks ih =>
    obtain ⟨hfst, happ⟩ := pairwise_cons.1 happ
    have hrest := h.2.2.2
    unfold alignedStop
    rcases mem_cons.1 hmem with rfl | hmem
    · rw [if_pos hp.le]
      exact lt_alignedStop hrest hfst hp
    · have := hrest.start_le hmem
      rw [if_pos (by omega)]
      exact ih hrest happ hmem

end

/-! ### Behind some of the hunks -/

/-- The end of the last hunk in the base text, or where the hunks start. -/
def baseEnd (o : Nat) (hunks : List InternalDiffHunk) : Nat := (hunks.getLast?.map fun last => last.diffBaseByteRange.stop).getD o

/-- The end of the last hunk in the buffer, or where the hunks start. -/
def bufferEnd (n : Nat) (hunks : List InternalDiffHunk) : Nat := (hunks.getLast?.map fun last => last.bufferRange.stop).getD n

@[simp] theorem baseEnd_nil (o : Nat) : baseEnd o [] = o := rfl

@[simp] theorem bufferEnd_nil (n : Nat) : bufferEnd n [] = n := rfl

theorem baseEnd_cons (o : Nat) (hunk : InternalDiffHunk) (hunks : List InternalDiffHunk) :
    baseEnd o (hunk :: hunks) = baseEnd hunk.diffBaseByteRange.stop hunks := by
  cases hunks <;> simp [baseEnd, getLast?_cons]

theorem bufferEnd_cons (n : Nat) (hunk : InternalDiffHunk) (hunks : List InternalDiffHunk) :
    bufferEnd n (hunk :: hunks) = bufferEnd hunk.bufferRange.stop hunks := by
  cases hunks <;> simp [bufferEnd, getLast?_cons]

theorem baseEnd_append (o : Nat) (before after : List InternalDiffHunk) :
    baseEnd o (before ++ after) = baseEnd (baseEnd o before) after := by
  induction before generalizing o with
  | nil => rfl
  | cons hunk before ih => rw [cons_append, baseEnd_cons, baseEnd_cons, ih]

theorem bufferEnd_append (n : Nat) (before after : List InternalDiffHunk) :
    bufferEnd n (before ++ after) = bufferEnd (bufferEnd n before) after := by
  induction before generalizing n with
  | nil => rfl
  | cons hunk before ih => rw [cons_append, bufferEnd_cons, bufferEnd_cons, ih]

variable {before after : List InternalDiffHunk}

/-- Behind some of its hunks a diff is a diff. -/
theorem Turns.drop (h : Turns base buffer o n (before ++ after)) :
    Turns base buffer (baseEnd o before) (bufferEnd n before) after := by
  induction before generalizing o n with
  | nil => exact h
  | cons hunk before ih =>
    rw [baseEnd_cons, bufferEnd_cons]
    exact ih h.2.2.2

/-- The last of the hunks ends where all of them do. -/
theorem bufferEnd_lt (hn : n < p) (hbef : ∀ hunk ∈ before, hunk.bufferRange.stop < p) : bufferEnd n before < p := by
  induction before generalizing n with
  | nil => exact hn
  | cons hunk before ih =>
    rw [bufferEnd_cons]
    exact ih (hbef hunk mem_cons_self) fun other hoth => hbef _ (.tail _ hoth)

theorem bufferEnd_le (hn : n ≤ p) (hbef : ∀ hunk ∈ before, hunk.bufferRange.stop ≤ p) : bufferEnd n before ≤ p :=
  Nat.le_of_lt_succ (bufferEnd_lt (Nat.lt_succ_of_le hn) fun hunk hmem => Nat.lt_succ_of_le (hbef hunk hmem))

/-- Hunks that end before an offset do not matter for what it is aligned with. -/
theorem alignedStart_drop (h : Turns base buffer o n (before ++ after)) (hbef : ∀ hunk ∈ before, hunk.bufferRange.stop < p) :
    alignedStart o n (before ++ after) p = alignedStart (baseEnd o before) (bufferEnd n before) after p := by
  induction before generalizing o n with
  | nil => rfl
  | cons hunk before ih =>
    have hstop := hbef hunk mem_cons_self
    have hle := h.start_le mem_cons_self
    rw [baseEnd_cons, bufferEnd_cons, ← ih h.2.2.2 fun other hoth => hbef _ (.tail _ hoth)]
    rw [cons_append, alignedStart, if_neg (by omega), if_neg (by omega)]

theorem alignedStop_drop (hbef : ∀ hunk ∈ before, hunk.bufferRange.stop ≤ p) :
    alignedStop o n (before ++ after) p = alignedStop (baseEnd o before) (bufferEnd n before) after p := by
  induction before generalizing o n with
  | nil => rfl
  | cons hunk before ih =>
    rw [baseEnd_cons, bufferEnd_cons, ← ih fun other hoth => hbef _ (.tail _ hoth)]
    rw [cons_append, alignedStop, if_pos (hbef hunk mem_cons_self)]

/-- In the common text before the next hunk, offsets are aligned one by one. -/
theorem alignedStart_common (hp : ∀ hunk ∈ hunks.head?, p ≤ hunk.bufferRange.start) : alignedStart o n hunks p = o + (p - n) := by
  cases hunks with
  | nil => rfl
  | cons hunk hunks => rw [alignedStart, if_pos (hp hunk rfl)]

theorem alignedStop_common (h : Turns base buffer o n hunks) (hp : ∀ hunk ∈ hunks.head?, p < hunk.bufferRange.start) :
    alignedStop o n hunks p = o + (p - n) := by
  cases hunks with
  | nil => rfl
  | cons hunk hunks =>
    have hlt := hp hunk rfl
    have hle := h.start_le mem_cons_self
    rw [alignedStop, if_neg (by omega), if_pos hlt.le]

end Aligned

end Wu.BufferDiff
