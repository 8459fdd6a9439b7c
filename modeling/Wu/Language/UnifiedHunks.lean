import Wu.Language.UnifiedDiff

/-!
# Hunks that give the new text

The hunks of a unified diff, applied to the lines of the old text, give the lines of the new one, unless a line loses a carriage
return or a number does not fit. The lines near a change are in the hunks; the lines that are far from all changes are not, and are
taken from the old text.
-/

namespace Wu.TextDiff

open List Option Pieces

open Pieces (Piece Range Hunk Aligned Throughout NearFrom near pick)

/-! ## What it is for -/

/-- A text whose lines all end in a line feed. -/
def joinLines (lines : List Str) : Str := lines.flatMap fun line => line ++ ['\n']

/-- Hunks are applied to lines, the first of which has this number. -/
def applyHunks : Nat → List Str → List Written → Option (List Str)
  | _, lines, [] => some lines
  | number, lines, hunk :: hunks =>
    let kept := hunk.oldStart - number
    let removed := (oldSide hunk.lines).length
    if number ≤ hunk.oldStart ∧ kept ≤ lines.length ∧ (lines.drop kept).take removed = oldSide hunk.lines then
      (applyHunks (hunk.oldStart + removed) (lines.drop (kept + removed)) hunks).map fun rest =>
        lines.take kept ++ (newSide hunk.lines ++ rest)
    else none

/-- At a number there are these lines, when the first line has the number that comes behind the offset. -/
def LinesAt (offset : Nat) (lines : List Str) (number : Nat) (part : List Str) : Prop :=
  ∃ front rest, lines = front ++ (part ++ rest) ∧ number = front.length + 1 + offset

/-- The hunks of a unified diff are right. -/
structure Reproduces (oldLineOffset newLineOffset : Nat) (oldLines newLines : List Str) (hunks : List Written) : Prop where
  lens : ∀ hunk ∈ hunks, hunk.oldLen = (oldSide hunk.lines).length ∧ hunk.newLen = (newSide hunk.lines).length
  starts : ∀ hunk ∈ hunks, LinesAt oldLineOffset oldLines hunk.oldStart (oldSide hunk.lines) ∧
    LinesAt newLineOffset newLines hunk.newStart (newSide hunk.lines)
  disjoint : hunks.Pairwise fun a b => a.oldStart + a.oldLen ≤ b.oldStart ∧ a.newStart + a.newLen ≤ b.newStart
  applied : applyHunks (oldLineOffset + 1) oldLines hunks = some newLines

/-- `str::lines` of a line that ends in a line feed. -/
def withoutReturn (line : Str) : Str := (Str.stripSuffix '\r' line).getD line

/-- The changes at which a hunk is opened, behind another one. -/
def opening (contextLines : Nat) : Nat → List Hunk → List Hunk
  | _, [] => []
  | stop, hunk :: hunks =>
    if hunk.before.start - stop > contextLines * 2 then hunk :: opening contextLines hunk.before.stop hunks
    else opening contextLines hunk.before.stop hunks

/-- The changes at which a hunk is opened. -/
def openings (contextLines : Nat) : List Hunk → List Hunk
  | [] => []
  | hunk :: hunks => hunk :: opening contextLines hunk.before.stop hunks

/-- A hunk that is opened at the change has numbers of 32 bits. -/
def HeaderFits (contextLines oldLineOffset newLineOffset : Nat) (hunk : Hunk) : Prop :=
  hunk.before.start - contextLines + 1 + oldLineOffset < 2 ^ 32 ∧ hunk.after.start - contextLines + 1 + newLineOffset < 2 ^ 32

instance (contextLines oldLineOffset newLineOffset : Nat) (hunk : Hunk) :
    Decidable (HeaderFits contextLines oldLineOffset newLineOffset hunk) := inferInstanceAs (Decidable (_ ∧ _))

/-- The numbers that are computed for the changes fit, and no carriage return is lost: the lines near a change have none at the end,
and the other lines are the same in both texts. -/
structure Printable (contextLines oldLineOffset newLineOffset : Nat) (oldLines newLines : List Str) (hunks : List Hunk) : Prop where
  numbers : ∀ hunk ∈ hunks, contextLines * 2 < 2 ^ 32 ∧ hunk.before.stop + contextLines < 2 ^ 32
  headers : ∀ hunk ∈ openings contextLines hunks, HeaderFits contextLines oldLineOffset newLineOffset hunk
  oldNear : ∀ line ∈ pick (near contextLines (hunks.map Hunk.before)) 0 oldLines, withoutReturn line = line
  newNear : ∀ line ∈ pick (near contextLines (hunks.map Hunk.after)) 0 newLines, withoutReturn line = line
  far : pick (fun i => !near contextLines (hunks.map Hunk.before) i) 0 oldLines =
    pick (fun i => !near contextLines (hunks.map Hunk.after) i) 0 newLines

/-! ## Lines of a text -/

theorem splitInclusive_line {line : Str} (hline : '\n' ∉ line) (text : Str) :
    Str.splitInclusive (line ++ '\n' :: text) = (line ++ ['\n']) :: Str.splitInclusive text := by
  induction line with
  | nil => rfl
  | cons c line ih =>
    rw [mem_cons, not_or] at hline
    rw [cons_append, Str.splitInclusive, if_neg (Ne.symm hline.1), ih hline.2]
    rfl

theorem lines_joinLines {lines : List Str} (hline : ∀ line ∈ lines, '\n' ∉ line) :
    (joinLines lines).lines = lines.map withoutReturn := by
  rw [Str.lines_eq]
  induction lines with
  | nil => rfl
  | cons line lines ih =>
    rw [forall_mem_cons] at hline
    have hjoin : joinLines (line :: lines) = line ++ '\n' :: joinLines lines := by
      rw [joinLines, flatMap_cons, append_assoc]
      rfl
    have hstr : Str.stripEnd (line ++ ['\n']) = withoutReturn line := by
      simp [Str.stripEnd, Str.stripSuffix, withoutReturn]
    rw [hjoin, splitInclusive_line hline.1, map_cons, map_cons, hstr, ih hline.2]

/-! ## Numbers that fit -/

theorem bind_u32_isSome (n : Nat) {α : Type} (rest : Option α) :
    ((u32 n).bind fun _ => rest).isSome = true ↔ n < 2 ^ 32 ∧ rest.isSome = true := by
  rw [u32]
  split
  · rename_i h
    simp only [bind_some, h, true_and]
  · rename_i h
    simp only [bind_none, h, false_and, isSome_none, Bool.false_eq_true]

theorem header_isSome (oldLineOffset newLineOffset s t : Nat) (lines : List (Mark × Str)) :
    (header oldLineOffset newLineOffset s t lines).isSome = true ↔
      s + 1 + oldLineOffset < 2 ^ 32 ∧ t + 1 + newLineOffset < 2 ^ 32 := by
  rw [header, u32, u32]
  split <;> split <;> simp_all

section Fits

variable {contextLines oldLineOffset newLineOffset : Nat}

theorem isSome_bind_pure {α β : Type} (o : Option α) (f : α → β) : (o.bind fun a => some (f a)).isSome = true ↔ o.isSome = true := by
  cases o <;> simp

theorem isSome_bind_bind_pure {α β γ : Type} (o : Option α) (o' : Option β) (f : α → β → γ) :
    (o.bind fun a => o'.bind fun b => some (f a b)).isSome = true ↔ o.isSome = true ∧ o'.isSome = true := by
  cases o <;> cases o' <;> simp

/-- The numbers of the pieces behind the lines of a hunk fit. -/
theorem written_isSome (pieces : List (Piece Str)) (tail : List Str) (s t x y : Nat) (lines : List (Mark × Str))
    (hx : x = s + (oldSide lines).length) (hy : y = t + (newSide lines).length) :
    (written contextLines oldLineOffset newLineOffset s t lines pieces tail).isSome = true ↔
      (s + 1 + oldLineOffset < 2 ^ 32 ∧ t + 1 + newLineOffset < 2 ^ 32) ∧ x + contextLines < 2 ^ 32 ∧
      (∀ hunk ∈ Piece.hunks x y pieces, contextLines * 2 < 2 ^ 32 ∧ hunk.before.stop + contextLines < 2 ^ 32) ∧
      ∀ hunk ∈ opening contextLines x (Piece.hunks x y pieces), HeaderFits contextLines oldLineOffset newLineOffset hunk := by
  induction pieces generalizing s t x y lines with
  | nil =>
    rw [written, bind_eq_bind, bind_u32_isSome, bind_eq_bind, Option.pure_def, isSome_bind_pure, header_isSome, ← hx]
    simp only [Piece.hunks, opening, not_mem_nil, false_implies, implies_true, and_true]
    exact and_comm
  | cons piece pieces ih =>
    rw [written, bind_eq_bind, bind_u32_isSome, ← hx, ← hy]
    by_cases hfar : piece.same.length > contextLines * 2
    · have hhead : HeaderFits contextLines oldLineOffset newLineOffset
          ⟨⟨x + piece.same.length, x + piece.same.length + piece.removed.length⟩,
            ⟨y + piece.same.length, y + piece.same.length + piece.added.length⟩⟩ ↔
          x + (piece.same.length - contextLines) + 1 + oldLineOffset < 2 ^ 32 ∧
            y + (piece.same.length - contextLines) + 1 + newLineOffset < 2 ^ 32 := by
        rw [HeaderFits, ← Nat.add_sub_assoc (by omega), ← Nat.add_sub_assoc (by omega)]
      have hopen : x + piece.same.length - x > contextLines * 2 := by omega
      have hrest := ih (x + (piece.same.length - contextLines)) (y + (piece.same.length - contextLines))
        (x + piece.same.length + piece.removed.length) (y + piece.same.length + piece.added.length)
        (marked .same (piece.same.drop (piece.same.length - contextLines)) ++ changeLines piece) (by simp; omega) (by simp; omega)
      simp only [if_pos hfar, bind_eq_bind, bind_u32_isSome, Option.pure_def, isSome_bind_bind_pure, header_isSome, hrest,
        Piece.hunks, opening, if_pos hopen, forall_mem_cons, hhead]
      constructor
      · rintro ⟨hwid, hx, hst, hnext, hstop, hnums, hhea⟩
        exact ⟨hst, hx, ⟨⟨hwid, hstop⟩, hnums⟩, hnext, hhea⟩
      · rintro ⟨hst, hx, ⟨⟨hwid, hstop⟩, hnums⟩, hnext, hhea⟩
        exact ⟨hwid, hx, hst, hnext, hstop, hnums, hhea⟩
    · have hjoin : ¬x + piece.same.length - x > contextLines * 2 := by omega
      have hrest := ih s t (x + piece.same.length + piece.removed.length) (y + piece.same.length + piece.added.length)
        (lines ++ (marked .same piece.same ++ changeLines piece)) (by simp; omega) (by simp; omega)
      simp only [if_neg hfar, hrest, Piece.hunks, opening, if_neg hjoin, forall_mem_cons]
      constructor
      · rintro ⟨hwid, hst, hstop, hnums, hhea⟩
        exact ⟨hst, by omega, ⟨⟨hwid, hstop⟩, hnums⟩, hhea⟩
      · rintro ⟨hst, -, ⟨⟨hwid, hstop⟩, hnums⟩, hhea⟩
        exact ⟨hwid, hst, hstop, hnums, hhea⟩

/-- The numbers of all pieces fit. -/
theorem writtenHunks_isSome (pieces : List (Piece Str)) (tail : List Str) :
    (writtenHunks contextLines oldLineOffset newLineOffset pieces tail).isSome = true ↔
      (∀ hunk ∈ Piece.hunks 0 0 pieces, contextLines * 2 < 2 ^ 32 ∧ hunk.before.stop + contextLines < 2 ^ 32) ∧
      ∀ hunk ∈ openings contextLines (Piece.hunks 0 0 pieces), HeaderFits contextLines oldLineOffset newLineOffset hunk := by
  cases pieces with
  | nil => simp [writtenHunks, Piece.hunks, openings]
  | cons piece pieces =>
    rw [writtenHunks, bind_eq_bind, bind_u32_isSome, written_isSome _ tail _ _
      (0 + piece.same.length + piece.removed.length) (0 + piece.same.length + piece.added.length) _ (by simp; omega) (by simp; omega)]
    simp only [Piece.hunks, openings, forall_mem_cons, HeaderFits, Nat.zero_add]
    constructor
    · rintro ⟨hwid, hst, hstop, hnums, hhea⟩
      exact ⟨⟨⟨hwid, hstop⟩, hnums⟩, hst, hhea⟩
    · rintro ⟨⟨⟨hwid, hstop⟩, hnums⟩, hst, hhea⟩
      exact ⟨hwid, hst, hstop, hnums, hhea⟩

end Fits

/-! ## What the hunks cover -/

/-- Hunks whose lines are near a change on both sides, from an index on each side on; the lines between them are far from all changes
and the same. -/
inductive Covers (near near' : Nat → Bool) (oldLineOffset newLineOffset : Nat) :
    Nat → Nat → List Str → List Str → List Written → Prop
  | nil {x y : Nat} {rest : List Str} (hfar : Throughout near x rest.length false) (hfar' : Throughout near' y rest.length false) :
      Covers near near' oldLineOffset newLineOffset x y rest rest []
  | cons {x y : Nat} {gap old new : List Str} {lines : List (Mark × Str)} {hunks : List Written}
      (hfar : Throughout near x gap.length false) (hfar' : Throughout near' y gap.length false)
      (hnear : Throughout near (x + gap.length) (oldSide lines).length true)
      (hnear' : Throughout near' (y + gap.length) (newSide lines).length true)
      (h : Covers near near' oldLineOffset newLineOffset (x + gap.length + (oldSide lines).length)
        (y + gap.length + (newSide lines).length) old new hunks) :
      Covers near near' oldLineOffset newLineOffset x y (gap ++ (oldSide lines ++ old)) (gap ++ (newSide lines ++ new))
        (⟨x + gap.length + 1 + oldLineOffset, (oldSide lines).length, y + gap.length + 1 + newLineOffset, (newSide lines).length,
          lines⟩ :: hunks)

section Covers

variable {contextLines oldLineOffset newLineOffset : Nat} {near near' : Nat → Bool}

variable {x y : Nat} {gap old oldLines newLines : List Str} {hunk : Written}

/-- A hunk in front of others. -/
theorem Covers.cons_of {x' y' x'' y'' : Nat} {new old' new' : List Str} {lines : List (Mark × Str)} {hunks : List Written}
    (hold : old' = gap ++ (oldSide lines ++ old)) (hnew : new' = gap ++ (newSide lines ++ new)) (hx : x' = x + gap.length)
    (hy : y' = y + gap.length) (hx' : x'' = x' + (oldSide lines).length) (hy' : y'' = y' + (newSide lines).length)
    (hfar : Throughout near x gap.length false) (hfar' : Throughout near' y gap.length false)
    (hnear : Throughout near x' (oldSide lines).length true) (hnear' : Throughout near' y' (newSide lines).length true)
    (h : Covers near near' oldLineOffset newLineOffset x'' y'' old new hunks) :
    Covers near near' oldLineOffset newLineOffset x y old' new'
      (⟨x' + 1 + oldLineOffset, (oldSide lines).length, y' + 1 + newLineOffset, (newSide lines).length, lines⟩ :: hunks) := by
  subst hold hnew hx hy hx' hy'
  exact .cons hfar hfar' hnear hnear' h

theorem header_eq_some {s t : Nat} {lines : List (Mark × Str)} (h : header oldLineOffset newLineOffset s t lines = some hunk) :
    hunk = ⟨s + 1 + oldLineOffset, (oldSide lines).length, t + 1 + newLineOffset, (newSide lines).length, lines⟩ := by
  rw [header] at h
  simp only [bind_eq_bind, bind_eq_some_iff, u32_eq_some, Option.pure_def, some.injEq] at h
  obtain ⟨_, ⟨-, rfl⟩, _, ⟨-, rfl⟩, rfl⟩ := h
  rfl

/-- The hunk that is being written goes on with lines near its last change, and the others cover the rest. -/
theorem written_covers (pieces : List (Piece Str)) (tail : List Str) (s t x y : Nat) (lines : List (Mark × Str))
    (hx : x = s + (oldSide lines).length) (hy : y = t + (newSide lines).length) {hunks : List Written}
    (h : written contextLines oldLineOffset newLineOffset s t lines pieces tail = some hunks)
    (hnear : NearFrom contextLines near x ((Piece.hunks x y pieces).map Hunk.before))
    (hnear' : NearFrom contextLines near' y ((Piece.hunks x y pieces).map Hunk.after)) :
    ∃ more old new rest, hunks = ⟨s + 1 + oldLineOffset, (oldSide (lines ++ more)).length, t + 1 + newLineOffset,
        (newSide (lines ++ more)).length, lines ++ more⟩ :: rest ∧
      Piece.before pieces tail = oldSide more ++ old ∧ Piece.after pieces tail = newSide more ++ new ∧
      Throughout near x (oldSide more).length true ∧ Throughout near' y (newSide more).length true ∧
      Covers near near' oldLineOffset newLineOffset (x + (oldSide more).length) (y + (newSide more).length) old new rest := by
  induction pieces generalizing s t x y lines hunks with
  | nil =>
    rw [written] at h
    simp only [bind_eq_bind, bind_eq_some_iff, Option.pure_def, some.injEq] at h
    obtain ⟨_, -, hunk, hhunk, rfl⟩ := h
    have hlen : (tail.take contextLines).length ≤ contextLines := by rw [length_take]; omega
    refine ⟨marked .same (tail.take contextLines), tail.drop contextLines, tail.drop contextLines, [], ?_, ?_, ?_, ?_, ?_, ?_⟩
    · rw [header_eq_some hhunk]
    · rw [Piece.before, oldSide_same, take_append_drop]
    · rw [Piece.after, newSide_same, take_append_drop]
    · rw [oldSide_same]
      exact hnear.near_start hlen
    · rw [newSide_same]
      exact hnear'.near_start hlen
    · rw [oldSide_same, newSide_same]
      exact .nil (hnear.far_behind tail) (hnear'.far_behind tail)
  | cons piece pieces ih =>
    obtain ⟨same, removed, added⟩ := piece
    rw [Piece.hunks] at hnear hnear'
    dsimp only at hnear hnear'
    have hle : ∀ range ∈ (Piece.hunks (x + same.length + removed.length) (y + same.length + added.length) pieces).map Hunk.before,
        x + same.length + removed.length ≤ range.start :=
      forall_mem_map.mpr fun hunk hhunk => (Piece.le_of_mem_hunks hhunk).1
    have hle' : ∀ range ∈ (Piece.hunks (x + same.length + removed.length) (y + same.length + added.length) pieces).map Hunk.after,
        y + same.length + added.length ≤ range.start :=
      forall_mem_map.mpr fun hunk hhunk => (Piece.le_of_mem_hunks hhunk).2
    rw [written] at h
    by_cases hfar : same.length > contextLines * 2
    · simp only [if_pos hfar, bind_eq_bind, bind_eq_some_iff, Option.pure_def, some.injEq] at h
      obtain ⟨_, -, _, -, first, hfst, rest, hrest, rfl⟩ := h
      obtain rfl := header_eq_some hfst
      rw [← hx, ← hy] at hrest
      obtain ⟨more, old, new, rest, rfl, hbef, haft, hmore, hmore', hcov⟩ := ih _ _
        _ _ _ (by simp; omega) (by simp; omega) hrest hnear.tail hnear'.tail
      -- the lines between the two hunks
      have hsame : same.drop contextLines = (same.drop contextLines).take (same.length - contextLines - contextLines) ++
          same.drop (same.length - contextLines) := by
        conv_lhs => rw [← take_append_drop (same.length - contextLines - contextLines) (same.drop _)]
        rw [drop_drop]
        congr 2
        omega
      have hgap : ((same.drop contextLines).take (same.length - contextLines - contextLines)).length =
          same.length - contextLines - contextLines := by
        rw [length_take, length_drop]
        omega
      have htake : (same.take contextLines).length = contextLines := by rw [length_take]; omega
      have hlen : (same.drop (same.length - contextLines)).length = contextLines := by rw [length_drop]; omega
      have hnearO : Throughout near (x + (same.length - contextLines)) (oldSide (marked .same (same.drop (same.length -
          contextLines)) ++ changeLines ⟨same, removed, added⟩ ++ more)).length true := by
        have hall := (hnear.near_end (by omega)).append (by omega) hmore
        simpa [hlen, Nat.add_assoc] using hall
      have hnearN : Throughout near' (y + (same.length - contextLines)) (newSide (marked .same (same.drop (same.length -
          contextLines)) ++ changeLines ⟨same, removed, added⟩ ++ more)).length true := by
        have hall := (hnear'.near_end (by omega)).append (by omega) hmore'
        simpa [hlen, Nat.add_assoc] using hall
      have hold : same.drop contextLines ++ (removed ++ Piece.before pieces tail) =
          (same.drop contextLines).take (same.length - contextLines - contextLines) ++ (oldSide (marked .same (same.drop (same.length -
          contextLines)) ++ changeLines ⟨same, removed, added⟩ ++ more) ++ old) := by
        conv_lhs => rw [hsame]
        simp [hbef]
      have hnew : same.drop contextLines ++ (added ++ Piece.after pieces tail) =
          (same.drop contextLines).take (same.length - contextLines - contextLines) ++ (newSide (marked .same (same.drop (same.length -
          contextLines)) ++ changeLines ⟨same, removed, added⟩ ++ more) ++ new) := by
        conv_lhs => rw [hsame]
        simp [haft]
      refine ⟨marked _ _, same.drop contextLines ++ (removed ++ Piece.before pieces tail),
        same.drop contextLines ++ (added ++ Piece.after pieces tail), _, rfl, ?_, ?_, ?_, ?_, ?_⟩
      · rw [Piece.before, oldSide_same, ← append_assoc (same.take _), take_append_drop]
      · rw [Piece.after, newSide_same, ← append_assoc (same.take _), take_append_drop]
      · rw [oldSide_same]
        exact hnear.near_start (by omega)
      · rw [newSide_same]
        exact hnear'.near_start (by omega)
      · rw [oldSide_same, newSide_same, htake]
        exact .cons_of hold hnew (by omega) (by omega) (by simp; omega) (by simp; omega) (by rw [hgap]; exact hnear.far_of_lt hle)
          (by rw [hgap]; exact hnear'.far_of_lt hle') hnearO hnearN hcov
    · simp only [if_neg hfar, bind_eq_bind, bind_eq_some_iff] at h
      obtain ⟨_, -, h⟩ := h
      obtain ⟨more, old, new, rest, rfl, hbef, haft, hmore, hmore', hcov⟩ := ih s t
        _ _ _ (by simp; omega) (by simp; omega) h hnear.tail hnear'.tail
      refine ⟨marked .same same ++ changeLines ⟨same, removed, added⟩ ++ more, old, new, rest, ?_, ?_, ?_, ?_, ?_, ?_⟩
      · simp
      · simp [Piece.before, hbef]
      · simp [Piece.after, haft]
      · have hall := (hnear.near_of_le (by omega)).append (by omega) hmore
        simpa [Nat.add_assoc] using hall
      · have hall := (hnear'.near_of_le (by omega)).append (by omega) hmore'
        simpa [Nat.add_assoc] using hall
      · simpa [Nat.add_assoc] using hcov

/-- All hunks that are written cover what is near a change. -/
theorem writtenHunks_covers {pieces : List (Piece Str)} {tail : List Str} {hunks : List Written}
    (h : writtenHunks contextLines oldLineOffset newLineOffset pieces tail = some hunks) :
    Covers (Pieces.near contextLines ((Piece.hunks 0 0 pieces).map Hunk.before))
      (Pieces.near contextLines ((Piece.hunks 0 0 pieces).map Hunk.after)) oldLineOffset newLineOffset 0 0
      (Piece.before pieces tail) (Piece.after pieces tail) hunks := by
  cases pieces with
  | nil =>
    obtain rfl := some.inj h
    exact .nil (fun _ _ _ => rfl) fun _ _ _ => rfl
  | cons piece pieces =>
    obtain ⟨same, removed, added⟩ := piece
    have hle : ∀ range ∈ (Piece.hunks (0 + same.length + removed.length) (0 + same.length + added.length) pieces).map Hunk.before,
        0 + same.length + removed.length ≤ range.start :=
      forall_mem_map.mpr fun hunk hhunk => (Piece.le_of_mem_hunks hhunk).1
    have hle' : ∀ range ∈ (Piece.hunks (0 + same.length + removed.length) (0 + same.length + added.length) pieces).map Hunk.after,
        0 + same.length + added.length ≤ range.start :=
      forall_mem_map.mpr fun hunk hhunk => (Piece.le_of_mem_hunks hhunk).2
    simp only [writtenHunks, bind_eq_bind, bind_eq_some_iff] at h
    obtain ⟨_, -, h⟩ := h
    rw [Piece.hunks]
    obtain ⟨more, old, new, rest, rfl, hbef, haft, hmore, hmore', hcov⟩ := written_covers _ tail _ _
      (0 + same.length + removed.length) (0 + same.length + added.length) _ (by simp; omega) (by simp; omega) h
      nearFrom_first nearFrom_first
    rw [Nat.zero_add] at *
    have hapa : same.length - contextLines ≤ same.length := Nat.sub_le _ _
    have hgap : (same.take (same.length - contextLines)).length = same.length - contextLines := by
      rw [length_take, Nat.min_eq_left hapa]
    have hold : same ++ (removed ++ Piece.before pieces tail) = same.take (same.length - contextLines) ++ (oldSide (marked .same
        (same.drop (same.length - contextLines)) ++ changeLines ⟨same, removed, added⟩ ++ more) ++ old) := by
      simp only [hbef, oldSide_append, oldSide_same, oldSide_changeLines, append_assoc]
      rw [← append_assoc (same.take _), take_append_drop]
    have hnew : same ++ (added ++ Piece.after pieces tail) = same.take (same.length - contextLines) ++ (newSide (marked .same
        (same.drop (same.length - contextLines)) ++ changeLines ⟨same, removed, added⟩ ++ more) ++ new) := by
      simp only [haft, newSide_append, newSide_same, newSide_changeLines, append_assoc]
      rw [← append_assoc (same.take _), take_append_drop]
    refine .cons_of hold hnew (by omega) (by omega) ?_ ?_ ?_ ?_ ?_ ?_ hcov
    · simp
      omega
    · simp
      omega
    · rw [hgap]
      exact far_first hle
    · rw [hgap]
      exact far_first hle'
    · have hall := Pieces.near_first.append (by omega) hmore
      simpa [Nat.add_assoc] using hall
    · have hall := Pieces.near_first.append (by omega) hmore'
      simpa [Nat.add_assoc] using hall

/-- The hunks in order, with the numbers of their lines. -/
theorem Covers.disjoint {new : List Str} {hunks : List Written}
    (h : Covers near near' oldLineOffset newLineOffset x y old new hunks) :
    (∀ hunk ∈ hunks, hunk.oldLen = (oldSide hunk.lines).length ∧ hunk.newLen = (newSide hunk.lines).length) ∧
    (hunks.Pairwise fun a b => a.oldStart + a.oldLen ≤ b.oldStart ∧ a.newStart + a.newLen ≤ b.newStart) ∧
    ∀ hunk ∈ hunks, x + 1 + oldLineOffset ≤ hunk.oldStart ∧ y + 1 + newLineOffset ≤ hunk.newStart := by
  induction h with
  | nil => exact ⟨forall_mem_nil _, .nil, forall_mem_nil _⟩
  | cons _ _ _ _ _ ih =>
    obtain ⟨hlens, hpair, hsta⟩ := ih
    simp only [forall_mem_cons, pairwise_cons]
    refine ⟨⟨⟨trivial, trivial⟩, hlens⟩, ⟨fun hunk hhunk => ?_, hpair⟩, ⟨by omega, by omega⟩, fun hunk hhunk => ?_⟩
    · have hle := hsta hunk hhunk
      omega
    · have hle := hsta hunk hhunk
      omega

/-- Lines that do not lose a carriage return. -/
def Kept (lines : List Str) : Prop := ∀ line ∈ lines, withoutReturn line = line

theorem kept_append {a b : List Str} : Kept (a ++ b) ↔ Kept a ∧ Kept b := forall_mem_append

theorem Kept.map_eq {lines : List Str} (h : Kept lines) : lines.map withoutReturn = lines :=
  (map_congr_left h).trans (map_id _)

theorem kept_of_map_eq {lines : List Str} (h : lines.map withoutReturn = lines) : Kept lines := by
  intro line hline
  obtain ⟨i, hi, rfl⟩ := mem_iff_getElem.mp hline
  have hget := getElem_of_eq h (by rw [length_map]; exact hi)
  rwa [getElem_map] at hget

/-- The lines of one side: what is far away from all changes, what is near and the rest. -/
theorem exists_side {p : Nat → Bool} {between side rest lines : List Str}
    (h : lines.map withoutReturn = between ++ (side ++ rest)) (hfar : Throughout p x between.length false)
    (hnear : Throughout p (x + between.length) side.length true) :
    ∃ gap body lines', lines = gap ++ (body ++ lines') ∧ gap.length = between.length ∧ body.length = side.length ∧
      lines'.map withoutReturn = rest ∧ pick p x lines = body ++ pick p (x + between.length + side.length) lines' ∧
      pick (fun i => !p i) x lines = gap ++ pick (fun i => !p i) (x + between.length + side.length) lines' ∧
      (Kept body ↔ body = side) := by
  obtain ⟨gap, lines, rfl, hgap, hline⟩ := map_eq_append_iff.mp h
  obtain ⟨body, lines, rfl, hbody, hline⟩ := map_eq_append_iff.mp hline
  have hlen := congrArg List.length hgap
  have hside := congrArg List.length hbody
  rw [length_map] at hlen hside
  refine ⟨gap, body, lines, rfl, hlen, hside, hline, ?_, ?_, fun hkept => hkept.map_eq.symm.trans hbody, fun heq => ?_⟩
  · rw [← hlen] at hfar hnear ⊢
    rw [← hside] at hnear ⊢
    rw [pick_append, pick_append, pick_eq_nil hfar, pick_eq_self hnear, nil_append]
  · rw [← hlen] at hfar hnear ⊢
    rw [← hside] at hnear ⊢
    rw [pick_append, pick_append, pick_eq_self hfar.not, pick_eq_nil hnear.not, nil_append]
  · exact kept_of_map_eq (hbody.trans heq.symm)

/-- A hunk is applied to the lines behind a gap. -/
theorem applyHunks_cons {number : Nat} {body rest : List Str} {hunks : List Written}
    (hst : hunk.oldStart = number + gap.length) (hbody : body.length = (oldSide hunk.lines).length) :
    applyHunks number (gap ++ (body ++ rest)) (hunk :: hunks) = if body = oldSide hunk.lines then
        (applyHunks (hunk.oldStart + (oldSide hunk.lines).length) rest hunks).map fun rest => gap ++ (newSide hunk.lines ++ rest)
      else none := by
  have hkept : hunk.oldStart - number = gap.length := by omega
  have hdrop : (gap ++ (body ++ rest)).drop (gap.length + body.length) = rest := by
    rw [← append_assoc, ← length_append, drop_left]
  have hle : number ≤ hunk.oldStart ∧ gap.length ≤ (gap ++ (body ++ rest)).length := by
    rw [length_append]
    omega
  rw [applyHunks]
  simp only [hkept, hdrop, drop_left, take_left, ← hbody, hle.1, hle.2, true_and]

/-- The hunks give the new lines exactly when those near a change are kept and the others are the same. -/
theorem Covers.applied_iff {new : List Str} {hunks : List Written}
    (h : Covers near near' oldLineOffset newLineOffset x y old new hunks)
    (hold : oldLines.map withoutReturn = old) (hnew : newLines.map withoutReturn = new) :
    applyHunks (x + 1 + oldLineOffset) oldLines hunks = some newLines ↔ Kept (pick near x oldLines) ∧ Kept (pick near' y newLines) ∧
      pick (fun i => !near i) x oldLines = pick (fun i => !near' i) y newLines := by
  induction h generalizing oldLines newLines with
  | nil hfar hfar' =>
    rw [← hold, length_map] at hfar
    rw [← hnew, length_map] at hfar'
    have hnone : Kept [] := forall_mem_nil _
    rw [applyHunks, some.injEq, pick_eq_nil hfar, pick_eq_nil hfar', pick_eq_self hfar.not, pick_eq_self hfar'.not]
    exact ⟨fun heq => ⟨hnone, hnone, heq⟩, fun h => h.2.2⟩
  | @cons x y between old new lines hunks hfar hfar' hnear hnear' _ ih =>
    have hnum : x + between.length + 1 + oldLineOffset + (oldSide lines).length =
        x + between.length + (oldSide lines).length + 1 + oldLineOffset := by omega
    obtain ⟨gap, body, oldLines, rfl, hlen, hside, hold, hpick, hpickF, hkept⟩ := exists_side hold hfar hnear
    obtain ⟨gap', body', newLines, rfl, hlen', hside', hnew, hpick', hpickF', hkept'⟩ := exists_side hnew hfar' hnear'
    have hrest := ih hold hnew
    rw [← hnum] at hrest
    rw [applyHunks_cons (by dsimp only; omega) hside, hpick, hpick', hpickF, hpickF', kept_append, kept_append, hkept, hkept']
    constructor
    · intro h
      by_cases hrem : body = oldSide lines
      · rw [if_pos hrem, map_eq_some_iff] at h
        obtain ⟨rest, happ, heq⟩ := h
        obtain ⟨rfl, hbeh⟩ := append_inj heq (hlen.trans hlen'.symm)
        obtain ⟨hadd, rfl⟩ := append_inj hbeh hside'.symm
        obtain ⟨holdKept, hnewK, hsame⟩ := hrest.mp happ
        exact ⟨⟨hrem, holdKept⟩, ⟨hadd.symm, hnewK⟩, congrArg _ hsame⟩
      · rw [if_neg hrem] at h
        cases h
    · rintro ⟨⟨hrem, holdKept⟩, ⟨hadd, hnewK⟩, hsame⟩
      obtain ⟨rfl, -⟩ := append_inj hsame (hlen.trans hlen'.symm)
      rw [if_pos hrem, hrest.mpr ⟨holdKept, hnewK, append_cancel_left hsame⟩, hadd, map_some]

/-- The hunks start at the lines that they say. -/
theorem Covers.starts {new : List Str} {hunks : List Written} (h : Covers near near' oldLineOffset newLineOffset x y old new hunks)
    (hold : oldLines.map withoutReturn = old) (hnew : newLines.map withoutReturn = new) (hkept : Kept (pick near x oldLines))
    (hkept' : Kept (pick near' y newLines)) (front front' : List Str) (hx : front.length = x) (hy : front'.length = y) :
    ∀ hunk ∈ hunks, LinesAt oldLineOffset (front ++ oldLines) hunk.oldStart (oldSide hunk.lines) ∧
      LinesAt newLineOffset (front' ++ newLines) hunk.newStart (newSide hunk.lines) := by
  induction h generalizing oldLines newLines front front' with
  | nil => exact forall_mem_nil _
  | @cons x y between old new lines hunks hfar hfar' hnear hnear' _ ih =>
    obtain ⟨gap, body, oldLines, rfl, hlen, -, holdRest, hpick, -, hbody⟩ := exists_side hold hfar hnear
    obtain ⟨gap', body', newLines, rfl, hlen', -, hnewR, hpick', -, hbody'⟩ := exists_side hnew hfar' hnear'
    rw [hpick, kept_append] at hkept
    rw [hpick', kept_append] at hkept'
    obtain rfl := hbody.mp hkept.1
    obtain rfl := hbody'.mp hkept'.1
    subst hx hy
    rw [forall_mem_cons]
    refine ⟨⟨⟨front ++ gap, oldLines, ?_, ?_⟩, ⟨front' ++ gap', newLines, ?_, ?_⟩⟩, ?_⟩
    · rw [append_assoc]
    · rw [length_append, hlen]
    · rw [append_assoc]
    · rw [length_append, hlen']
    · have hrest := ih holdRest hnewR hkept.2 hkept'.2 (front ++ (gap ++ oldSide lines))
        (front' ++ (gap' ++ newSide lines)) (by simp only [length_append, hlen, Nat.add_assoc]) (by simp only [length_append, hlen', Nat.add_assoc])
      simpa only [append_assoc] using hrest

end Covers

/-- The hunks of a unified diff of lines give the new lines. -/
def DiffReproduces (library : DiffLibrary) (oldLines newLines : List Str) (oldStartLine newStartLine contextLines : Nat) : Prop :=
  ∃ hunks, unifiedDiffHunks library (joinLines oldLines) (joinLines newLines) oldStartLine newStartLine contextLines = some hunks ∧
    Reproduces oldStartLine newStartLine oldLines newLines hunks

theorem diffReproduces_iff (library : DiffLibrary) {oldLines newLines : List Str} (hold : ∀ line ∈ oldLines, '\n' ∉ line)
    (hnew : ∀ line ∈ newLines, '\n' ∉ line) (oldStartLine newStartLine contextLines : Nat) :
    DiffReproduces library oldLines newLines oldStartLine newStartLine contextLines ↔
      Printable contextLines oldStartLine newStartLine oldLines newLines
        (library.compute (joinLines oldLines).lines (joinLines newLines).lines) := by
  obtain ⟨pieces, tail, hbef, haft, hcom, hwrit⟩ :=
    unifiedDiffHunks_eq _ _ _ _ _ _
  rw [DiffReproduces, hwrit, hcom]
  rw [lines_joinLines hold] at hbef
  rw [lines_joinLines hnew] at haft
  have hfits : (writtenHunks contextLines oldStartLine newStartLine pieces tail).isSome = true ↔ _ := writtenHunks_isSome _ tail
  constructor
  · rintro ⟨hunks, hhunk, hrep⟩
    obtain ⟨hnums, hhea⟩ := hfits.mp (by rw [hhunk, isSome_some])
    have happ := (writtenHunks_covers hhunk).applied_iff hbef haft
    rw [Nat.add_comm] at happ
    obtain ⟨holdNear, hnewN, hfar⟩ := happ.mp hrep.applied
    exact ⟨hnums, hhea, holdNear, hnewN, hfar⟩
  · rintro ⟨hnums, hhea, holdNear, hnewN, hfar⟩
    obtain ⟨hunks, hhunk⟩ := isSome_iff_exists.mp (hfits.mpr ⟨hnums, hhea⟩)
    have hcov := writtenHunks_covers hhunk
    have happ := hcov.applied_iff hbef haft
    rw [Nat.add_comm] at happ
    obtain ⟨hlens, hdisjoint, -⟩ := hcov.disjoint
    exact ⟨hunks, hhunk, hlens, hcov.starts hbef haft holdNear hnewN [] [] rfl rfl, hdisjoint, happ.mpr ⟨holdNear, hnewN, hfar⟩⟩

/-- The edits and the ranges are on boundaries and in order and give the new text, with every diff library. A unified diff gives it
exactly when it can be printed. -/
theorem diffs_reproduce (library : DiffLibrary) (lines : Lines) (kind : Char → CharKind) :
    (∀ oldText newText options, ∃ edits, textDiffWithOptions library lines kind oldText newText options = some edits ∧
      InOrder oldText (edits.map Prod.fst) ∧ applyEdits oldText 0 edits = some newText) ∧
    (∀ oldText newText, ∃ edits, charDiff library oldText newText = some edits ∧ InOrder oldText (edits.map Prod.fst) ∧
      applyEdits oldText 0 edits = some newText) ∧
    (∀ oldText newText, ∃ oldRanges newRanges kept, wordDiffRanges library kind oldText newText = some (oldRanges, newRanges) ∧
      InOrder oldText oldRanges ∧ InOrder newText newRanges ∧ outside oldText oldRanges = some kept ∧
      outside newText newRanges = some kept) ∧
    ∀ oldLines newLines oldStartLine newStartLine contextLines, (∀ line ∈ oldLines, '\n' ∉ line) → (∀ line ∈ newLines, '\n' ∉ line) →
      (DiffReproduces library oldLines newLines oldStartLine newStartLine contextLines ↔
        Printable contextLines oldStartLine newStartLine oldLines newLines
          (library.compute (joinLines oldLines).lines (joinLines newLines).lines)) := by
  refine ⟨fun oldText newText options => ?_, fun oldText newText => ?_, wordDiffRanges_spec library kind,
    fun oldLines newLines oldStartLine newStartLine contextLines hold hnew =>
      diffReproduces_iff library hold hnew oldStartLine newStartLine contextLines⟩
  · obtain ⟨edits, hedits, hturns⟩ := textDiffWithOptions_turns library lines kind oldText newText options
    exact ⟨edits, hedits, (hturns.inOrder [] rfl).1, hturns.applyEdits [] rfl⟩
  · obtain ⟨edits, hedits, hturns⟩ := charDiff_turns library oldText newText
    exact ⟨edits, hedits, (hturns.inOrder [] rfl).1, hturns.applyEdits [] rfl⟩

/-- One hunk for everything, unless nothing is changed. -/
def wholeDiff : DiffLibrary where
  compute before after := if before = after then [] else [⟨⟨0, before.length⟩, ⟨0, after.length⟩⟩]
  aligned before after := by
    split
    · rename_i heq
      exact ⟨Nat.zero_le _, Nat.zero_le _, heq⟩
    · exact ⟨⟨Nat.le_refl 0, Nat.zero_le _, Nat.le_refl _⟩, ⟨Nat.le_refl 0, Nat.zero_le _, Nat.le_refl _⟩, rfl,
        Nat.le_refl _, Nat.le_refl _, by rw [drop_length, drop_length]⟩
  changed before after := by
    split
    · exact forall_mem_nil _
    · rename_i hne
      rw [forall_mem_singleton]
      by_contra hnone
      dsimp only at hnone
      have hbefore : before = [] := length_eq_zero_iff.mp (by omega)
      have hafter : after = [] := length_eq_zero_iff.mp (by omega)
      exact hne (hbefore.trans hafter.symm)

/-- The lines of a text with their ends. -/
def inclusiveLines : Lines where
  lines := Str.splitInclusive
  flatten text := by
    induction text with
    | nil => rfl
    | cons c text ih =>
      unfold Str.splitInclusive
      split
      · rw [flatten_cons, ih]
        rfl
      · split <;> simp_all

/-- Lines that are replaced. -/
theorem diffs_reproduce_line : DiffReproduces wholeDiff ["a".toList, "b".toList] ["c".toList] 7 9 3 :=
  ((diffs_reproduce wholeDiff inclusiveLines fun _ => .word).2.2.2 ["a".toList, "b".toList] ["c".toList] 7 9 3
    (by decide) (by decide)).mpr ⟨by decide, by decide, by decide, by decide, by decide⟩

/-- A carriage return that is removed is not in the diff. -/
theorem diff_misses_carriage_return : ¬DiffReproduces wholeDiff ["a\r".toList] ["a".toList] 0 0 3 := by
  intro h
  have hprintable := (diffReproduces_iff wholeDiff (by decide) (by decide) 0 0 3).mp h
  exact absurd hprintable.far (by decide)

end Wu.TextDiff
