import Wu.Rope.Chunk

/-!
# The summary of a chunk

`ChunkSlice::text_summary` counts with the bitmaps of a slice what `TextSummary::from` counts character by character. The two
agree on every text that fits in a chunk (`textSummary_of`).
-/

namespace Wu

open List TextSummary Str

open Bits

namespace ChunkSlice

/-- `ChunkSlice::len_utf16`. -/
def lenUtf16 (slice : ChunkSlice) : OffsetUtf16 := ⟨countOnes slice.charsUtf16⟩

/-- `ChunkSlice::lines`. -/
def lines (slice : ChunkSlice) : Point :=
  ⟨countOnes slice.newlines, leadingZeros slice.newlines - (128 - slice.text.len)⟩

/-- `ChunkSlice::first_line_chars`. -/
def firstLineChars (slice : ChunkSlice) : Nat := countOnes (slice.chars &&& shlMask 128 (trailingZeros slice.newlines))

/-- `ChunkSlice::last_line_chars`. -/
def lastLineChars (slice : ChunkSlice) : Nat := countOnes (slice.chars &&& shrMask 128 (leadingZeros slice.newlines))

/-- `ChunkSlice::last_line_len_utf16`. -/
def lastLineLenUtf16 (slice : ChunkSlice) : Nat :=
  countOnes (slice.charsUtf16 &&& shrMask 128 (leadingZeros slice.newlines))

end ChunkSlice

/-- A word without its lowest bits, up to the first one that is set. -/
theorem shiftRight_lt {x : Bitmap} (h : x ≠ 0#128) (n : Nat) : (x >>> n >>> 1).toNat < x.toNat := by
  have hpos : x.toNat ≠ 0 := fun h0 => h (BitVec.eq_of_toNat_eq h0)
  have hle : x.toNat >>> n ≤ x.toNat := Nat.shiftRight_le ..
  rw [BitVec.toNat_ushiftRight, BitVec.toNat_ushiftRight]
  omega

namespace ChunkSlice

/-- The loop of `ChunkSlice::longest_row`, with the total of the characters and the longest row. -/
def longestRowLoop (chars newlines : Bitmap) (totalChars row : Nat) (longest : Nat × Nat) : Nat × (Nat × Nat) :=
  if h : newlines = 0#128 then
    let rowChars := countOnes chars
    (totalChars + rowChars, longer longest row rowChars)
  else
    let newlineIx := trailingZeros newlines
    let rowChars := countOnes (chars &&& shlMask 128 newlineIx)
    longestRowLoop (chars >>> newlineIx >>> 1) (newlines >>> newlineIx >>> 1) (totalChars + rowChars + 1) (row + 1)
      (longer longest row rowChars)
termination_by newlines.toNat
decreasing_by exact shiftRight_lt h _

/-- `ChunkSlice::longest_row`, with the total of the characters. -/
def longestRow (slice : ChunkSlice) : Nat × (Nat × Nat) := longestRowLoop slice.chars slice.newlines 0 0 (0, 0)

theorem longestRowLoop_zero (chars : Bitmap) (totalChars row : Nat) (longest : Nat × Nat) :
    longestRowLoop chars 0#128 totalChars row longest = (totalChars + countOnes chars, longer longest row (countOnes chars)) := by
  rw [longestRowLoop, dif_pos rfl]

theorem longestRowLoop_of_ne {newlines : Bitmap} (h : newlines ≠ 0#128) (chars : Bitmap) (totalChars row : Nat)
    (longest : Nat × Nat) :
    longestRowLoop chars newlines totalChars row longest =
      longestRowLoop (chars >>> trailingZeros newlines >>> 1) (newlines >>> trailingZeros newlines >>> 1)
        (totalChars + countOnes (chars &&& shlMask 128 (trailingZeros newlines)) + 1) (row + 1)
        (longer longest row (countOnes (chars &&& shlMask 128 (trailingZeros newlines)))) := by
  rw [longestRowLoop, dif_neg h]

/-! ## What the bitmaps of a slice say together -/

/-- A later row is the longest only when it is longer. -/
theorem longer_grows (longest : Nat × Nat) (row n : Nat) : longest.2 ≤ (longer longest row n).2 ∧ n ≤ (longer longest row n).2 ∧
    (longest.2 = (longer longest row n).2 → (longer longest row n).1 = longest.1) := by
  unfold longer
  split_ifs <;> simp <;> omega

theorem longestRowLoop_grows (chars newlines : Bitmap) (totalChars row : Nat) (longest : Nat × Nat) :
    longest.2 ≤ (longestRowLoop chars newlines totalChars row longest).2.2 ∧
      (longest.2 = (longestRowLoop chars newlines totalChars row longest).2.2 →
        (longestRowLoop chars newlines totalChars row longest).2.1 = longest.1) := by
  induction chars, newlines, totalChars, row, longest using longestRowLoop.induct with
  | case1 chars totalChars row longest =>
    rw [longestRowLoop_zero]
    obtain ⟨h1, -, h2⟩ := longer_grows _ row _
    exact ⟨h1, h2⟩
  | case2 chars newlines totalChars row longest h newlineIx rowChars ih =>
    rw [longestRowLoop_of_ne h]
    obtain ⟨h1, -, h2⟩ := longer_grows _ row _
    obtain ⟨h3, h4⟩ := ih
    refine ⟨h1.trans h3, ?_⟩
    intro heq
    rw [h4 (Nat.le_antisymm h3 (heq ▸ h1)), h2 (Nat.le_antisymm h1 (heq ▸ h3))]

/-- The first row is counted first, and it is the only one when no line feed is set. -/
theorem rowCounts (slice : ChunkSlice) : RowCounts slice.lines.row slice.firstLineChars slice.lastLineChars slice.longestRow.2 := by
  have hfst (n : Nat) : longer (0, 0) 0 n = (0, n) := by
    unfold longer
    split_ifs <;> simp_all
  by_cases h : slice.newlines = 0#128
  · have hlon : slice.longestRow.2 = (0, countOnes slice.chars) := by
      rw [longestRow, h, longestRowLoop_zero, hfst]
    rw [firstLineChars, lastLineChars, h, trailingZeros_zero, leadingZeros_zero, and_shlMask_width, and_shrMask_width, hlon]
    exact ⟨fun _ => ⟨rfl, rfl⟩, le_rfl, fun _ => rfl⟩
  · have hgrow := longestRowLoop_grows (slice.chars >>> trailingZeros slice.newlines >>> 1)
      (slice.newlines >>> trailingZeros slice.newlines >>> 1) (0 + slice.firstLineChars + 1) (0 + 1)
      (0, slice.firstLineChars)
    rw [← hfst, firstLineChars, ← longestRowLoop_of_ne h, hfst] at hgrow
    exact ⟨fun h0 => absurd (countOnes_eq_zero.mp h0) h, hgrow.1, hgrow.2⟩

/-- `ChunkSlice::text_summary`. -/
def textSummary (slice : ChunkSlice) : TextSummary :=
  let longest := slice.longestRow.2
  { len := slice.len
    chars := slice.longestRow.1
    lenUtf16 := slice.lenUtf16
    lines := slice.lines
    firstLineChars := slice.firstLineChars
    lastLineChars := slice.lastLineChars
    lastLineLenUtf16 := slice.lastLineLenUtf16
    longestRow := longest.1
    longestRowChars := longest.2
    rows := slice.rowCounts }

end ChunkSlice

/-! ## The bitmaps of a text count its characters -/

theorem count_charMarks (text : Str) : (text.flatMap charMarks).count true = text.length := by
  induction text with
  | nil => rfl
  | cons c text ih => simp [charMarks, count_replicate, ih]

theorem count_utf16Marks (text : Str) : (text.flatMap utf16Marks).count true = text.lenUtf16 := by
  induction text with
  | nil => rfl
  | cons c text ih => simp [utf16Marks, count_replicate, ih]

theorem count_newlines (text : Str) : (text.flatMap (byteMarks '\n')).count true = text.count '\n' := by
  induction text with
  | nil => rfl
  | cons c text ih => by_cases hc : c = '\n' <;> simp [byteMarks, count_replicate, hc, ih]

/-- The first line feed ends the first line. -/
theorem idxOf_newlines (text : Str) : (text.flatMap (byteMarks '\n')).idxOf true = text.firstLine.len := by
  induction text with
  | nil => rfl
  | cons c text ih =>
    by_cases hc : c = '\n'
    · subst hc
      rfl
    · have hmark : true ∉ byteMarks '\n' c := by simp [byteMarks, hc]
      rw [flatMap_cons, idxOf_append, if_neg hmark, marking_byteMarks, ih, Str.firstLine, Str.firstLine,
        takeWhile_cons_of_pos (by simpa using hc), len_cons, Nat.add_comm]

/-- The last line feed is where the last line begins. -/
theorem idxOf_reverse_newlines (text : Str) : (text.flatMap (byteMarks '\n')).reverse.idxOf true = text.lastLine.len := by
  induction text using reverseRecOn with
  | nil => rfl
  | append_singleton text c ih =>
    rw [flatMap_append, reverse_append, lastLine_concat]
    by_cases hc : c = '\n'
    · subst hc
      rfl
    · have hmark : true ∉ ([c].flatMap (byteMarks '\n')).reverse := by simp [byteMarks, hc]
      rw [idxOf_append, if_neg hmark, if_neg hc, ih, length_reverse, (marking_byteMarks '\n').length, len_append]

section Lines

variable {mark : Char → List Bool}

/-- The bits of the first line. -/
theorem Marking.take_firstLine (h : Marking mark) (text : Str) :
    (text.flatMap mark).take text.firstLine.len = text.firstLine.flatMap mark := by
  have hspl : text.firstLine ++ text.dropWhile (· ≠ '\n') = text := takeWhile_append_dropWhile
  calc (text.flatMap mark).take text.firstLine.len
      = ((text.firstLine ++ text.dropWhile (· ≠ '\n')).flatMap mark).take text.firstLine.len := by rw [hspl]
    _ = text.firstLine.flatMap mark := by rw [flatMap_append, ← h.length, take_left]

/-- The bits of the last line. -/
theorem Marking.drop_lastLine (h : Marking mark) (text : Str) :
    (text.flatMap mark).drop (text.len - text.lastLine.len) = text.lastLine.flatMap mark := by
  have hspl : text.rdropWhile (· ≠ '\n') ++ text.lastLine = text := rdropWhile_append_rtakeWhile
  have hlen : text.len - text.lastLine.len = Str.len (text.rdropWhile (· ≠ '\n')) := by
    have hsum := congrArg Str.len hspl
    rw [len_append] at hsum
    omega
  calc (text.flatMap mark).drop (text.len - text.lastLine.len)
      = ((text.rdropWhile (· ≠ '\n') ++ text.lastLine).flatMap mark).drop (Str.len (text.rdropWhile (· ≠ '\n'))) := by
        rw [hspl, hlen]
    _ = text.lastLine.flatMap mark := by rw [flatMap_append, ← h.length, drop_left]

end Lines

/-! ## The loop over the rows -/

/-- A text of one row has its length for the longest. -/
theorem TextSummary.ofStr_longest {text : Str} (h : '\n' ∉ text) :
    ((ofStr text).longestRow, (ofStr text).longestRowChars) = (0, text.length) := by
  induction text using reverseRecOn with
  | nil => rfl
  | append_singleton text c ih =>
    obtain ⟨htext, hc⟩ : '\n' ∉ text ∧ '\n' ≠ c := by simpa using h
    have hrow := ofStr_row_eq_zero.mpr htext
    have hlast := ofStr_lastLineChars text
    rw [lastLine_eq htext] at hlast
    have ih := ih htext
    simp only [ofStr, scan_concat, if_neg hc.symm, stepChar] at hrow hlast ih ⊢
    rw [ih, hrow, hlast]
    simp [longer]

/-- The longest row of a text that begins with a line is the line, unless one of the rows after it is longer. -/
theorem TextSummary.ofStr_longest_cons {line : Str} (h : '\n' ∉ line) (text : Str) :
    ((ofStr (line ++ '\n' :: text)).longestRow, (ofStr (line ++ '\n' :: text)).longestRowChars) =
      longer (0, line.length) (1 + (ofStr text).longestRow) (ofStr text).longestRowChars := by
  have hspl : line ++ '\n' :: text = (line ++ ['\n']) ++ text := by simp
  have hline : ofStr (line ++ ['\n']) = { (ofStr line).stepNewline with len := (line ++ ['\n']).len } := by
    simp only [ofStr, scan_concat, if_true]
    rfl
  have hrow : (ofStr line).lines.row = 0 := ofStr_row_eq_zero.mpr h
  obtain ⟨hlon, hchar⟩ := Prod.mk.inj (ofStr_longest h)
  obtain ⟨-, hfst, hsame⟩ := (ofStr text).rows
  rw [hspl, ofStr_append, hline]
  simp only [add_def, add, stepNewline, RowColumn.add_row, hrow, hlon, hchar, longer] at hfst hsame ⊢
  split_ifs <;> simp_all <;> omega

namespace ChunkSlice

/-- The loop over a text counts its characters and looks for a row that is longer than those before. -/
theorem longestRowLoop_marks {text : Str} (hlen : text.len ≤ 128) (totalChars row : Nat) (longest : Nat × Nat) :
    longestRowLoop (marks charMarks text) (marks (byteMarks '\n') text) totalChars row longest = (totalChars + text.length,
        longer longest (row + (TextSummary.ofStr text).longestRow) (TextSummary.ofStr text).longestRowChars) := by
  have hcharL := marking_charMarks.length text
  have hlineL := (marking_byteMarks '\n').length text
  by_cases h : '\n' ∈ text
  · obtain ⟨line, rest, rfl, hline⟩ := eq_append_cons_of_mem h
    have hsum : Str.len line + (1 + Str.len rest) ≤ 128 := by
      rw [len_append] at hlen
      exact hlen
    have hnew : trailingZeros (marks (byteMarks '\n') (line ++ '\n' :: rest)) = Str.len line := by
      rw [marks, trailingZeros_ofList (by omega), idxOf_newlines, firstLine_append hline, if_pos]
      rw [← count_pos_iff, count_newlines]
      exact count_pos_iff.mpr h
    have hne : marks (byteMarks '\n') (line ++ '\n' :: rest) ≠ 0#128 := by
      intro h0
      rw [h0, trailingZeros_zero] at hnew
      omega
    have hshi {mark : Char → List Bool} (hmark : Marking mark) :
        marks mark (line ++ '\n' :: rest) >>> Str.len line >>> 1 = marks mark rest := by
      have hspl : line ++ '\n' :: rest = (line ++ ['\n']) ++ rest := by simp
      have hdrop := hmark.shiftRight (hspl ▸ hlen)
      rw [len_append] at hdrop
      rw [hspl]
      exact hdrop
    have hline' : countOnes (marks charMarks (line ++ '\n' :: rest) &&& shlMask 128 (Str.len line)) = line.length := by
      rw [marking_charMarks.and_shlMask, marks, countOnes_ofList, count_charMarks]
      rw [marking_charMarks.length]
      omega
    rw [longestRowLoop_of_ne hne, hnew, hline', hshi marking_charMarks, hshi (marking_byteMarks '\n'),
      longestRowLoop_marks (by omega : Str.len rest ≤ 128)]
    have hrow := congrArg Prod.fst (ofStr_longest_cons hline rest)
    have hchar := congrArg Prod.snd (ofStr_longest_cons hline rest)
    dsimp only at hrow hchar
    rw [hrow, hchar, longer_add]
    simp [Nat.add_assoc, Nat.add_comm, Nat.add_left_comm]
  · have hzero : marks (byteMarks '\n') text = 0#128 := by
      refine (ofList_eq_zero (by omega)).mpr ?_
      rw [← count_eq_zero, count_newlines]
      exact count_eq_zero.mpr h
    obtain ⟨hrow, hchar⟩ := Prod.mk.inj (ofStr_longest h)
    rw [hzero, longestRowLoop_zero, marks, countOnes_ofList (by omega), count_charMarks, hrow, hchar, Nat.add_zero]
termination_by text.length

/-! ## The bitmaps of a text give its summary -/

section Of

variable {text : Str} (hlen : text.len ≤ 128)

include hlen

theorem length_marks {mark : Char → List Bool} (hmark : Marking mark) : (text.flatMap mark).length ≤ 128 :=
  (hmark.length text).trans_le hlen

theorem trailingZeros_newlines (h : '\n' ∈ text) : trailingZeros (ChunkSlice.of text).newlines = text.firstLine.len := by
  have hmem : true ∈ text.flatMap (byteMarks '\n') := by
    rw [← count_pos_iff, count_newlines]
    exact count_pos_iff.mpr h
  have hbits := trailingZeros_ofList (length_marks hlen (marking_byteMarks '\n'))
  rwa [if_pos hmem, idxOf_newlines] at hbits

theorem leadingZeros_newlines : leadingZeros (ChunkSlice.of text).newlines = 128 - text.len + text.lastLine.len := by
  have hbits := leadingZeros_ofList (length_marks hlen (marking_byteMarks '\n'))
  rwa [idxOf_reverse_newlines, (marking_byteMarks '\n').length] at hbits

theorem lenUtf16_of : (ChunkSlice.of text).lenUtf16 = ⟨text.lenUtf16⟩ := by
  have hbits := countOnes_ofList (length_marks hlen marking_utf16Marks)
  rw [count_utf16Marks] at hbits
  exact congrArg _ hbits

theorem lines_of : (ChunkSlice.of text).lines = ⟨text.count '\n', text.lastLine.len⟩ := by
  have hbits := countOnes_ofList (length_marks hlen (marking_byteMarks '\n'))
  rw [count_newlines] at hbits
  have htext : (ChunkSlice.of text).text = text := rfl
  rw [lines, leadingZeros_newlines hlen, htext, Nat.add_sub_cancel_left]
  exact congrArg (RowColumn.mk · _) hbits

theorem firstLineChars_of : (ChunkSlice.of text).firstLineChars = text.firstLine.length := by
  rw [firstLineChars]
  by_cases h : '\n' ∈ text
  · have htake : (ChunkSlice.of text).chars &&& shlMask 128 text.firstLine.len = marks charMarks text.firstLine := by
      rw [ChunkSlice.of, marks, ofList_and_shlMask, marking_charMarks.take_firstLine, marks]
    have hle := (text.flatMap charMarks).length_take_le' text.firstLine.len
    rw [marking_charMarks.take_firstLine] at hle
    rw [trailingZeros_newlines hlen h, htake, marks, countOnes_ofList (hle.trans (length_marks hlen marking_charMarks)),
      count_charMarks]
  · have hzero : (ChunkSlice.of text).newlines = 0#128 := by
      refine (ofList_eq_zero (length_marks hlen (marking_byteMarks '\n'))).mpr ?_
      rw [← count_eq_zero, count_newlines]
      exact count_eq_zero.mpr h
    have hbits := countOnes_ofList (length_marks hlen marking_charMarks)
    rw [count_charMarks] at hbits
    rw [hzero, trailingZeros_zero, and_shlMask_width, firstLine_eq h]
    exact hbits

/-- What the mask of the last line leaves of a bitmap is counted. -/
theorem countOnes_lastLine {mark : Char → List Bool} (hmark : Marking mark) :
    countOnes (marks mark text &&& shrMask 128 (leadingZeros (ChunkSlice.of text).newlines)) =
      (text.lastLine.flatMap mark).count true := by
  rw [leadingZeros_newlines hlen, marks, countOnes_and_shrMask (length_marks hlen hmark), ← hmark.drop_lastLine]
  rw [show 128 - (128 - text.len + text.lastLine.len) = text.len - text.lastLine.len by omega]

theorem lastLineChars_of : (ChunkSlice.of text).lastLineChars = text.lastLine.length :=
  (countOnes_lastLine hlen marking_charMarks).trans (count_charMarks _)

theorem lastLineLenUtf16_of : (ChunkSlice.of text).lastLineLenUtf16 = text.lastLine.lenUtf16 :=
  (countOnes_lastLine hlen marking_utf16Marks).trans (count_utf16Marks _)

theorem longestRow_of : (ChunkSlice.of text).longestRow =
    (text.length, ((TextSummary.ofStr text).longestRow, (TextSummary.ofStr text).longestRowChars)) := by
  obtain ⟨-, hfst, hsame⟩ := (TextSummary.ofStr text).rows
  have hlon : longer (0, 0) (TextSummary.ofStr text).longestRow (TextSummary.ofStr text).longestRowChars =
      ((TextSummary.ofStr text).longestRow, (TextSummary.ofStr text).longestRowChars) := by
    dsimp only at hfst hsame
    unfold longer
    split_ifs with hpos
    · rfl
    · have hzero : (TextSummary.ofStr text).longestRowChars = 0 := Nat.le_zero.mp (Nat.not_lt.mp hpos)
      rw [hsame (by omega), hzero]
  have hloop := longestRowLoop_marks hlen 0 0 (0, 0)
  rw [Nat.zero_add, Nat.zero_add, hlon] at hloop
  exact hloop

theorem textSummary_of : (ChunkSlice.of text).textSummary = TextSummary.ofStr text := by
  have hlon := longestRow_of hlen
  refine ext_counts rfl ?_ ?_ ?_ ?_ ?_ ?_ ?_
  · rw [ofStr_chars]
    exact congrArg Prod.fst hlon
  · rw [ofStr_lenUtf16]
    exact lenUtf16_of hlen
  · rw [ofStr_lines]
    exact lines_of hlen
  · rw [ofStr_firstLineChars]
    exact firstLineChars_of hlen
  · rw [ofStr_lastLineChars]
    exact lastLineChars_of hlen
  · rw [ofStr_lastLineLenUtf16]
    exact lastLineLenUtf16_of hlen
  · exact congrArg Prod.snd hlon

end Of

end ChunkSlice

namespace TextSummary

/-- The summary of a text is found part by part, in any grouping, and by the bitmaps of a chunk. -/
theorem text_summary_homomorphism :
    (∀ a b : Str, ofStr a + ofStr b = ofStr (a ++ b)) ∧ (∀ s t u : TextSummary, s + t + u = s + (t + u)) ∧
      (∀ s : TextSummary, zero + s = s) ∧ (∀ text : Str, ofStr text + zero = ofStr text) ∧
      ∀ text : Str, text.len ≤ maxBase →
        (Chunk.new text).map (fun chunk => chunk.asSlice.textSummary) = some (ofStr text) := by
  refine ⟨fun a b => (ofStr_append a b).symm, add_assoc, zero_add, fun text => add_zero (scan_last_le text), ?_⟩
  intro text hlen
  rw [Chunk.new_eq text hlen, Option.map_some, Option.some.injEq]
  exact ChunkSlice.textSummary_of hlen

theorem text_summary_homomorphism_lines :
    (Chunk.new "é\nabc\n𝄞".toList).map (fun chunk => chunk.asSlice.textSummary) = some (ofStr "é\nabc\n𝄞".toList) :=
  text_summary_homomorphism.2.2.2.2 "é\nabc\n𝄞".toList (by decide)

end TextSummary

end Wu
