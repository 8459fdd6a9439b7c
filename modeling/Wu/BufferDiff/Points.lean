import Wu.BufferDiff.Snapshot
import Wu.Positions.Compose
import Wu.Rope.TextSummary

/-!
# Points of a text

Points are positions as offsets are, and the hunks of a correct diff are a patch between the points of its two texts.
-/

namespace Wu

open List RowColumn

/-- Points are positions. -/
instance {unit : ColumnUnit} : Position (RowColumn unit) where
  zero := RowColumn.zero
  zero_le := zero_le
  zero_add := zero_add
  add_zero := add_zero
  add_assoc := add_assoc
  add_le_add_left := add_le_add_left
  add_sub_of_le := add_sub_of_le
  add_sub_cancel := add_sub_cancel

namespace BufferDiff

/-- How far a byte goes: a line feed to the start of the next row. -/
def pointOfByte (byte : UInt8) : Point := if byte = 10 then ⟨1, 0⟩ else ⟨0, 1⟩

/-- The rows of a text and the columns of its last row. -/
def maxPoint : Bytes → Point
  | [] => RowColumn.zero
  | byte :: text => pointOfByte byte + maxPoint text

/-- The point of an offset. -/
def offsetToPoint (text : Bytes) (offset : Nat) : Point := maxPoint (text.take offset)

/-- The offset of a point: the end of the row when the row is shorter, and the end of the text when there are fewer rows. -/
def pointToOffset : Bytes → Point → Nat
  | [], _ => 0
  | byte :: text, ⟨0, column⟩ =>
    match column with
    | 0 => 0
    | column + 1 => if byte = 10 then 0 else pointToOffset text ⟨0, column⟩ + 1
  | byte :: text, ⟨row + 1, column⟩ =>
    if byte = 10 then pointToOffset text ⟨row, column⟩ + 1 else pointToOffset text ⟨row + 1, column⟩ + 1

section Points

variable {text : Bytes} {a b offset : Nat} {point : Point}

@[simp] theorem maxPoint_append (text other : Bytes) : maxPoint (text ++ other) = maxPoint text + maxPoint other := by
  induction text with
  | nil => exact (zero_add _).symm
  | cons byte text ih => rw [cons_append, maxPoint, maxPoint, ih, add_assoc]

theorem zero_lt_pointOfByte (byte : UInt8) : RowColumn.zero < pointOfByte byte := by
  rw [lt_iff]
  unfold pointOfByte
  split <;> simp

/-- A text that is not empty goes on. -/
theorem zero_lt_maxPoint (h : text ≠ []) : RowColumn.zero < maxPoint text := by
  cases text with
  | nil => exact absurd rfl h
  | cons byte text => exact (zero_lt_pointOfByte byte).trans_le (le_add _ _)

/-- From an offset to another one. -/
theorem offsetToPoint_add (text : Bytes) (a common : Nat) :
    offsetToPoint text (a + common) = offsetToPoint text a + maxPoint ((text.drop a).take common) := by
  rw [offsetToPoint, take_add, maxPoint_append]
  rfl

theorem offsetToPoint_sub (text : Bytes) (a common : Nat) :
    offsetToPoint text (a + common) - offsetToPoint text a = maxPoint ((text.drop a).take common) := by
  rw [offsetToPoint_add, add_sub_cancel]

theorem offsetToPoint_mono (h : a ≤ b) : offsetToPoint text a ≤ offsetToPoint text b := by
  obtain ⟨-, rfl⟩ := Nat.exists_eq_add_of_le h
  rw [offsetToPoint_add]
  exact le_add _ _

/-- Offsets of a text are in the order of their points. -/
theorem offsetToPoint_lt (h : a < b) (hb : b ≤ text.length) : offsetToPoint text a < offsetToPoint text b := by
  obtain ⟨common, rfl⟩ := Nat.exists_eq_add_of_lt h
  rw [Nat.add_assoc, offsetToPoint_add]
  have hne : (text.drop a).take (common + 1) ≠ [] := by
    intro hnil
    have := congrArg List.length hnil
    simp only [length_take, length_drop, length_nil] at this
    omega
  calc offsetToPoint text a = offsetToPoint text a + RowColumn.zero := (add_zero _).symm
    _ < offsetToPoint text a + maxPoint ((text.drop a).take (common + 1)) :=
      RowColumn.add_lt_add_left.2 (zero_lt_maxPoint hne)

theorem offsetToPoint_length (text : Bytes) : offsetToPoint text text.length = maxPoint text := by
  rw [offsetToPoint, take_length]

theorem maxPoint_sub (h : a ≤ text.length) : maxPoint text - offsetToPoint text a = maxPoint (text.drop a) := by
  have hsub := offsetToPoint_sub text a (text.length - a)
  rwa [Nat.add_sub_cancel' h, offsetToPoint_length, take_of_length_le (by rw [length_drop])] at hsub

variable {row column : Nat} {point : Point}

/-- A byte and then a point is not behind another point exactly when the byte is not and the point is not behind the rest. -/
theorem newline_add_le : (⟨1, 0⟩ : Point) + point ≤ ⟨row + 1, column⟩ ↔ point ≤ ⟨row, column⟩ := by
  simp only [le_iff, add_row, add_column]
  split_ifs <;> omega

theorem column_add_le_row : (⟨0, 1⟩ : Point) + point ≤ ⟨row + 1, column⟩ ↔ point ≤ ⟨row + 1, column⟩ := by
  simp only [le_iff, add_row, add_column]
  split_ifs <;> omega

theorem column_add_le : (⟨0, 1⟩ : Point) + point ≤ ⟨0, column + 1⟩ ↔ point ≤ ⟨0, column⟩ := by
  simp only [le_iff, add_row, add_column]
  split_ifs <;> omega

theorem not_add_le {byte : UInt8} : ¬ pointOfByte byte + point ≤ ⟨0, 0⟩ :=
  not_le_of_gt ((zero_lt_pointOfByte byte).trans_le (le_add _ _))

theorem not_newline_add_le : ¬ (⟨1, 0⟩ : Point) + point ≤ ⟨0, column⟩ := by
  simp only [le_iff, add_row, add_column]
  omega

theorem pointToOffset_le (text : Bytes) (point : Point) : pointToOffset text point ≤ text.length := by
  fun_induction pointToOffset text point <;> simp only [length_cons, length_nil] <;> omega

/-- The offset of a point is the last one whose point is not behind it. -/
theorem le_pointToOffset (h : offset ≤ text.length) : offset ≤ pointToOffset text point ↔ offsetToPoint text offset ≤ point := by
  cases offset with
  | zero => exact ⟨fun _ => zero_le _, fun _ => Nat.zero_le _⟩
  | succ offset =>
    induction text generalizing offset point with
    | nil => exact absurd h (by simp)
    | cons byte text ih =>
      have hrest (other : Point) : offset ≤ pointToOffset text other ↔ offsetToPoint text offset ≤ other := by
        cases offset with
        | zero => exact ⟨fun _ => zero_le _, fun _ => Nat.zero_le _⟩
        | succ offset => exact ih _ (by simpa using h)
      have hstep : offsetToPoint (byte :: text) (offset + 1) = pointOfByte byte + offsetToPoint text offset := rfl
      rw [hstep]
      obtain ⟨row, column⟩ := point
      cases row with
      | zero =>
        cases column with
        | zero => exact ⟨fun hle => absurd hle (by simp [pointToOffset]), fun hle => absurd hle not_add_le⟩
        | succ column =>
          by_cases hbyte : byte = 10
          · simp only [pointToOffset, pointOfByte, hbyte, if_true]
            exact ⟨fun hle => absurd hle (by simp), fun hle => absurd hle not_newline_add_le⟩
          · simp only [pointToOffset, pointOfByte, hbyte, if_false]
            rw [Nat.add_le_add_iff_right, column_add_le, hrest]
      | succ row =>
        by_cases hbyte : byte = 10
        · simp only [pointToOffset, pointOfByte, hbyte, if_true]
          rw [Nat.add_le_add_iff_right, newline_add_le, hrest]
        · simp only [pointToOffset, pointOfByte, hbyte, if_false]
          rw [Nat.add_le_add_iff_right, column_add_le_row, hrest]

end Points

/-! ### Hunks as edits -/

open Positions (Range Gaps Built Apart)

/-- The points of a hunk in the base text and in the buffer. -/
def InternalDiffHunk.edit (base buffer : Bytes) (hunk : InternalDiffHunk) : Positions.Edit Point :=
  ⟨⟨offsetToPoint base hunk.diffBaseByteRange.start, offsetToPoint base hunk.diffBaseByteRange.stop⟩,
    ⟨offsetToPoint buffer hunk.bufferRange.start, offsetToPoint buffer hunk.bufferRange.stop⟩⟩

section Hunks

variable {base buffer : Bytes} {o n : Nat} {hunks : List InternalDiffHunk}

/-- The hunks of a correct diff are a patch. -/
theorem Turns.gaps (h : Turns base buffer o n hunks) :
    Gaps (maxPoint base) (maxPoint buffer) (offsetToPoint base o) (offsetToPoint buffer n) (hunks.map (·.edit base buffer)) := by
  induction hunks generalizing o n with
  | nil =>
    obtain ⟨ho, hn, hdrop⟩ := h
    refine ⟨?_, ?_, ?_⟩
    · rw [← offsetToPoint_length]
      exact offsetToPoint_mono ho
    · rw [← offsetToPoint_length]
      exact offsetToPoint_mono hn
    · rw [maxPoint_sub ho, maxPoint_sub hn, hdrop]
  | cons hunk hunks ih =>
    obtain ⟨⟨common, hbase, hbuf, hcom⟩, hle, hle', hrest⟩ := h
    refine ⟨offsetToPoint_mono (by omega), offsetToPoint_mono (by omega), ?_, offsetToPoint_mono hle, offsetToPoint_mono hle',
      ih hrest⟩
    show offsetToPoint base _ - _ = offsetToPoint _ _ - _
    rw [hbase, hbuf, offsetToPoint_sub, offsetToPoint_sub, hcom]

/-- A correct diff is a patch from the base text to the buffer. -/
theorem Correct.built (h : Correct base buffer hunks) :
    Built Position.zero Position.zero (maxPoint base) (maxPoint buffer) (hunks.map (·.edit base buffer)) := by
  have hgaps := h.turns.gaps
  have happ : Apart (hunks.map fun hunk => (hunk.edit base buffer).invert) := by
    refine pairwise_map.2 (h.apart.imp_of_mem fun ha hb hlt => ?_)
    exact offsetToPoint_lt hlt ((h.turns.start_le hb).2.2.1.trans (h.turns.start_le hb).2.2.2.2.1)
  have hinv : Built Position.zero Position.zero (maxPoint buffer) (maxPoint base)
      (Positions.Patch.invert (hunks.map (·.edit base buffer))) := by
    refine ⟨hgaps.invert, ?_⟩
    rw [Positions.Patch.invert, map_map]
    exact happ
  have := hinv.invert
  rwa [Positions.invert_invert] at this

end Hunks

end BufferDiff

end Wu
