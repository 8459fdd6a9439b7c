import Mathlib.Data.Prod.Lex
import Wu.SumTree.Summary
import Wu.Rope.Str

/-!
# Summaries of text

`Point`, `PointUtf16`, `OffsetUtf16` and `TextSummary` of the `rope` crate. Counts that are `u32` or `usize` in the source are natural
numbers.

Adding summaries is associative only for summaries of text: one without a line feed has a first line that is its last, and
the longest row is the first one when no other is longer. `TextSummary` carries these facts as fields.
-/

namespace Wu

open List Str

/-- What the columns of a point count. -/
inductive ColumnUnit where
  | utf8
  | utf16
  deriving DecidableEq

/-- A row and a column in it: `Point` and `PointUtf16` differ in what a column counts. -/
@[ext] structure RowColumn (unit : ColumnUnit) where
  row : Nat
  column : Nat
  deriving DecidableEq, Repr

/-- `struct Point`. -/
abbrev Point := RowColumn .utf8

/-- `struct PointUtf16`. -/
abbrev PointUtf16 := RowColumn .utf16

namespace RowColumn

variable {unit : ColumnUnit}

/-- `zero`. -/
def zero : RowColumn unit := ⟨0, 0⟩

/-- `impl Add`: the second point counts from the first. -/
instance : Add (RowColumn unit) where
  add a b := if b.row = 0 then ⟨a.row, a.column + b.column⟩ else ⟨a.row + b.row, b.column⟩

/-- `impl Sub`: the point as it counts from another that is not after it. -/
instance : Sub (RowColumn unit) where
  sub a b := if a.row = b.row then ⟨0, a.column - b.column⟩ else ⟨a.row - b.row, a.column⟩

/-- `impl Ord`: by row, then by column. -/
instance : LinearOrder (RowColumn unit) :=
  LinearOrder.lift' (fun p => toLex (p.row, p.column)) fun p q h => by
    obtain ⟨h1, h2⟩ := Prod.mk.inj (toLex.injective h)
    exact RowColumn.ext h1 h2

theorem add_def (a b : RowColumn unit) : a + b = if b.row = 0 then ⟨a.row, a.column + b.column⟩ else ⟨a.row + b.row, b.column⟩ := rfl

theorem sub_def (a b : RowColumn unit) : a - b = if a.row = b.row then ⟨0, a.column - b.column⟩ else ⟨a.row - b.row, a.column⟩ := rfl

variable {a b c : RowColumn unit}

theorem le_iff : a ≤ b ↔ a.row < b.row ∨ a.row = b.row ∧ a.column ≤ b.column :=
  Prod.Lex.toLex_le_toLex

theorem lt_iff : a < b ↔ a.row < b.row ∨ a.row = b.row ∧ a.column < b.column :=
  Prod.Lex.toLex_lt_toLex

@[simp] theorem zero_row : (zero : RowColumn unit).row = 0 := rfl

@[simp] theorem zero_column : (zero : RowColumn unit).column = 0 := rfl

@[simp] theorem add_row (a b : RowColumn unit) : (a + b).row = a.row + b.row := by
  rw [add_def]
  split <;> simp_all

theorem add_column (a b : RowColumn unit) : (a + b).column = if b.row = 0 then a.column + b.column else b.column := by
  rw [add_def]
  split <;> rfl

@[simp] theorem zero_add (a : RowColumn unit) : zero + a = a := by
  ext
  · simp
  · rw [add_column]
    simp

@[simp] theorem add_zero (a : RowColumn unit) : a + zero = a := by
  ext
  · simp
  · rw [add_column]
    simp

theorem add_assoc (a b c : RowColumn unit) : a + b + c = a + (b + c) := by
  ext
  · simp [Nat.add_assoc]
  · simp only [add_column, add_row]
    split_ifs <;> omega

/-- A point does not come after one that counts from it. -/
theorem le_add (a b : RowColumn unit) : a ≤ a + b := by
  rw [le_iff, add_row, add_column]
  split_ifs <;> omega

theorem zero_le (a : RowColumn unit) : zero ≤ a := by
  rw [le_iff]
  simp only [zero_row, zero_column]
  omega

/-- Counting from a point keeps the order. -/
theorem add_lt_add_left : a + b < a + c ↔ b < c := by
  simp only [lt_iff, add_row, add_column]
  split_ifs <;> omega

theorem add_le_add_left : a + b ≤ a + c ↔ b ≤ c := by
  simp only [le_iff, add_row, add_column]
  split_ifs <;> omega

/-- A point that is not before another counts from it. -/
theorem add_sub_of_le (h : a ≤ b) : a + (b - a) = b := by
  rw [le_iff] at h
  rw [sub_def, RowColumn.ext_iff, add_column]
  split_ifs <;> simp_all <;> omega

theorem add_sub_cancel (a b : RowColumn unit) : a + b - a = b := by
  rw [sub_def, RowColumn.ext_iff]
  simp only [add_row, add_column]
  split_ifs <;> simp_all

end RowColumn

/-- `struct OffsetUtf16`. -/
@[ext] structure OffsetUtf16 where
  val : Nat
  deriving DecidableEq, Repr

namespace OffsetUtf16

instance : Add OffsetUtf16 where
  add a b := ⟨a.val + b.val⟩

@[simp] theorem add_val (a b : OffsetUtf16) : (a + b).val = a.val + b.val := rfl

end OffsetUtf16

/-- The row and the length of the longest row, when a row of `chars` characters has been seen last. -/
def longer (longest : Nat × Nat) (row chars : Nat) : Nat × Nat := if chars > longest.2 then (row, chars) else longest

/-- Two rows at one place: the longer one counts. -/
theorem longer_longer (longest : Nat × Nat) (row m n : Nat) : longer (longer longest row m) row n = longer longest row (max m n) := by
  unfold longer
  split_ifs <;> simp_all <;> omega

/-- The longest row of what comes later, counted from an earlier row, is found one row at a time. -/
theorem longer_add (longest later : Nat × Nat) (row n k : Nat) : longer longest (k + (longer later row n).1) (longer later row n).2 =
      longer (longer longest (k + later.1) later.2) (k + row) n := by
  unfold longer
  split_ifs <;> simp_all <;> omega

/-- What the counts of a text say together: a text of one row has a first line that is its last, and the longest row is the
first one when no other is longer. -/
structure RowCounts (rows firstLineChars lastLineChars : Nat) (longest : Nat × Nat) : Prop where
  single : rows = 0 → firstLineChars = lastLineChars ∧ longest.1 = 0
  first_le : firstLineChars ≤ longest.2
  first_longest : firstLineChars = longest.2 → longest.1 = 0

namespace RowCounts

variable {rows first last rows' first' last' : Nat} {longest longest' : Nat × Nat}

/-- A character at the end of the last line, which is the first one in the row 0. -/
theorem char (h : RowCounts rows first last longest) :
    RowCounts rows (if rows = 0 then last + 1 else first) (last + 1) (longer longest rows (last + 1)) := by
  obtain ⟨h1, h2, h3⟩ := h
  unfold longer
  constructor <;> split_ifs <;> simp_all <;> omega

/-- A line feed at the end. -/
theorem newline (h : RowCounts rows first last longest) : RowCounts (rows + 1) first 0 (longer longest (rows + 1) 0) := by
  obtain ⟨h1, h2, h3⟩ := h
  refine ⟨by simp, ?_, ?_⟩ <;> simpa [longer] using by assumption

/-- A text after a text. -/
theorem add (h : RowCounts rows first last longest) (h' : RowCounts rows' first' last' longest') :
    RowCounts (rows + rows') (if rows = 0 then first + first' else first) (if rows' = 0 then last + first' else last')
      (longer (longer longest rows (last + first')) (rows + longest'.1) longest'.2) := by
  obtain ⟨h1, h2, h3⟩ := h
  obtain ⟨h1', -, -⟩ := h'
  unfold longer
  constructor <;> split_ifs <;> simp_all <;> omega

end RowCounts

/-- `struct TextSummary`. -/
structure TextSummary where
  /-- The length in bytes. -/
  len : Nat
  /-- The number of characters. -/
  chars : Nat
  lenUtf16 : OffsetUtf16
  /-- The number of line feeds, and the length of the last line in bytes. -/
  lines : Point
  firstLineChars : Nat
  lastLineChars : Nat
  lastLineLenUtf16 : Nat
  longestRow : Nat
  longestRowChars : Nat
  rows : RowCounts lines.row firstLineChars lastLineChars (longestRow, longestRowChars)
  deriving DecidableEq, Repr

namespace TextSummary

/-- `TextSummary::lines_utf16`. -/
def linesUtf16 (s : TextSummary) : PointUtf16 := ⟨s.lines.row, s.lastLineLenUtf16⟩

/-- `TextSummary::default`. -/
def zero : TextSummary where
  len := 0
  chars := 0
  lenUtf16 := ⟨0⟩
  lines := ⟨0, 0⟩
  firstLineChars := 0
  lastLineChars := 0
  lastLineLenUtf16 := 0
  longestRow := 0
  longestRowChars := 0
  rows := ⟨fun _ => ⟨rfl, rfl⟩, Nat.le_refl 0, fun _ => rfl⟩

/-- A round of the loop of `TextSummary::from`, for a character other than a line feed. -/
def stepChar (s : TextSummary) (c : Char) : TextSummary :=
  let lastLineChars := s.lastLineChars + 1
  let longest := longer (s.longestRow, s.longestRowChars) s.lines.row lastLineChars
  { len := s.len
    chars := s.chars + 1
    lenUtf16 := s.lenUtf16 + ⟨utf16Size c⟩
    lines := ⟨s.lines.row, s.lines.column + c.utf8Size⟩
    firstLineChars := if s.lines.row = 0 then lastLineChars else s.firstLineChars
    lastLineChars
    lastLineLenUtf16 := s.lastLineLenUtf16 + utf16Size c
    longestRow := longest.1
    longestRowChars := longest.2
    rows := s.rows.char }

/-- A round of the loop of `TextSummary::from`, for a line feed. -/
def stepNewline (s : TextSummary) : TextSummary :=
  let lines := s.lines + ⟨1, 0⟩
  let longest := longer (s.longestRow, s.longestRowChars) lines.row 0
  { len := s.len
    chars := s.chars + 1
    lenUtf16 := s.lenUtf16 + ⟨utf16Size '\n'⟩
    lines
    firstLineChars := s.firstLineChars
    lastLineChars := 0
    lastLineLenUtf16 := 0
    longestRow := longest.1
    longestRowChars := longest.2
    rows := by simpa only [lines, longest, RowColumn.add_row] using s.rows.newline }

/-- The loop of `TextSummary::from`, which does not count bytes. -/
def scan (text : Str) : TextSummary := text.foldl (fun s c => if c = '\n' then s.stepNewline else s.stepChar c) zero

/-- `TextSummary::from`. -/
def ofStr (text : Str) : TextSummary := { scan text with len := text.len }

/-- `impl AddAssign`. -/
def add (s other : TextSummary) : TextSummary :=
  let joinedChars := s.lastLineChars + other.firstLineChars
  let joined := longer (s.longestRow, s.longestRowChars) s.lines.row joinedChars
  let longest := longer joined (s.lines.row + other.longestRow) other.longestRowChars
  { len := s.len + other.len
    chars := s.chars + other.chars
    lenUtf16 := s.lenUtf16 + other.lenUtf16
    lines := s.lines + other.lines
    firstLineChars := if s.lines.row = 0 then s.firstLineChars + other.firstLineChars else s.firstLineChars
    lastLineChars := if other.lines.row = 0 then s.lastLineChars + other.firstLineChars else other.lastLineChars
    lastLineLenUtf16 :=
      if other.lines.row = 0 then s.lastLineLenUtf16 + other.lastLineLenUtf16 else other.lastLineLenUtf16
    longestRow := longest.1
    longestRowChars := longest.2
    rows := by
      rw [RowColumn.add_row]
      exact s.rows.add other.rows }

instance : Add TextSummary where
  add := add

theorem add_def (s t : TextSummary) : s + t = s.add t := rfl

/-- Two summaries are equal when their counts are. -/
theorem ext_counts {s t : TextSummary} (len : s.len = t.len) (chars : s.chars = t.chars)
    (utf16 : s.lenUtf16 = t.lenUtf16) (lines : s.lines = t.lines) (first : s.firstLineChars = t.firstLineChars)
    (last : s.lastLineChars = t.lastLineChars) (last16 : s.lastLineLenUtf16 = t.lastLineLenUtf16)
    (longest : (s.longestRow, s.longestRowChars) = (t.longestRow, t.longestRowChars)) : s = t := by
  cases s
  simp_all

/-! ## The counts of a string -/

theorem scan_concat (s : Str) (c : Char) : scan (s ++ [c]) = if c = '\n' then (scan s).stepNewline else (scan s).stepChar c := by
  simp [scan]

@[simp] theorem ofStr_nil : ofStr [] = zero := rfl

theorem ofStr_chars (s : Str) : (ofStr s).chars = s.length := by
  induction s using reverseRecOn with
  | nil => rfl
  | append_singleton s c ih =>
    simp only [ofStr, scan_concat, length_append] at ih ⊢
    rw [← ih]
    split_ifs <;> rfl

theorem ofStr_lenUtf16 (s : Str) : (ofStr s).lenUtf16 = ⟨s.lenUtf16⟩ := by
  induction s using reverseRecOn with
  | nil => rfl
  | append_singleton s c ih =>
    simp only [ofStr, scan_concat, lenUtf16_append] at ih ⊢
    split_ifs with hc
    · subst hc
      simp only [stepNewline, ih]
      rfl
    · simp only [stepChar, ih]
      rfl

theorem ofStr_lines (s : Str) : (ofStr s).lines = ⟨s.count '\n', s.lastLine.len⟩ := by
  induction s using reverseRecOn with
  | nil => rfl
  | append_singleton s c ih =>
    simp only [ofStr, scan_concat, lastLine_concat, count_append] at ih ⊢
    by_cases hc : c = '\n'
    · subst hc
      simp only [if_true, stepNewline, ih]
      rfl
    · simp only [if_neg hc, stepChar, ih]
      simp [hc]

theorem ofStr_lastLineChars (s : Str) : (ofStr s).lastLineChars = s.lastLine.length := by
  induction s using reverseRecOn with
  | nil => rfl
  | append_singleton s c ih =>
    simp only [ofStr, scan_concat, lastLine_concat] at ih ⊢
    split_ifs with hc
    · rfl
    · simp only [stepChar, ih]
      simp

theorem ofStr_lastLineLenUtf16 (s : Str) : (ofStr s).lastLineLenUtf16 = s.lastLine.lenUtf16 := by
  induction s using reverseRecOn with
  | nil => rfl
  | append_singleton s c ih =>
    simp only [ofStr, scan_concat, lastLine_concat] at ih ⊢
    split_ifs with hc
    · rfl
    · simp only [stepChar, ih]
      simp

theorem ofStr_row_eq_zero {s : Str} : (ofStr s).lines.row = 0 ↔ '\n' ∉ s := by
  rw [ofStr_lines]
  exact count_eq_zero

theorem ofStr_firstLineChars (s : Str) : (ofStr s).firstLineChars = s.firstLine.length := by
  induction s using reverseRecOn with
  | nil => rfl
  | append_singleton s c ih =>
    have hlast := ofStr_lastLineChars s
    have hrow := ofStr_row_eq_zero (s := s)
    simp only [ofStr, scan_concat, firstLine_concat] at ih hlast hrow ⊢
    by_cases hc : c = '\n'
    · rw [if_pos hc, if_pos (Or.inr hc)]
      exact ih
    rw [if_neg hc]
    by_cases hn : '\n' ∈ s
    · simp only [stepChar, if_neg fun h => hrow.mp h hn, ih]
      simp [hn]
    · simp only [stepChar, if_pos (hrow.mpr hn), hlast, lastLine_eq hn]
      simp [hn, hc]

/-- The last row is not longer than the longest one. -/
theorem scan_last_le (s : Str) : (scan s).lastLineChars ≤ (scan s).longestRowChars := by
  induction s using reverseRecOn with
  | nil => exact le_rfl
  | append_singleton s c ih =>
    rw [scan_concat]
    split_ifs with hc
    · exact Nat.zero_le _
    · simp only [stepChar, longer]
      split_ifs <;> omega

/-! ## Adding summaries -/

@[simp] theorem zero_add (s : TextSummary) : zero + s = s := by
  obtain ⟨h1, h2, h3⟩ := s.rows
  refine ext_counts (Nat.zero_add _) (Nat.zero_add _) ?_ (RowColumn.zero_add _) ?_ ?_ ?_ ?_
  · exact OffsetUtf16.ext (Nat.zero_add _)
  · simp [add_def, add, zero]
  · simp only [add_def, add, zero]
    split_ifs with h
    · rw [(h1 h).1, Nat.zero_add]
    · rfl
  · simp only [add_def, add, zero]
    split_ifs <;> simp
  · simp only [add_def, add, zero, longer]
    split_ifs <;> simp_all
    omega

theorem add_assoc (a b c : TextSummary) : a + b + c = a + (b + c) := by
  obtain ⟨h1, h2, h3⟩ := b.rows
  refine ext_counts (Nat.add_assoc ..) (Nat.add_assoc ..) ?_ (RowColumn.add_assoc ..) ?_ ?_ ?_ ?_
  · exact OffsetUtf16.ext (Nat.add_assoc ..)
  · simp only [add_def, add, RowColumn.add_row]
    split_ifs <;> omega
  · simp only [add_def, add, RowColumn.add_row]
    split_ifs <;> omega
  · simp only [add_def, add, RowColumn.add_row]
    split_ifs <;> omega
  · simp only [add_def, add, RowColumn.add_row, longer_add, ← Nat.add_assoc]
    by_cases hb : b.lines.row = 0
    · -- the rows that `b` adds to are one row of the sum
      obtain ⟨hfst, hlon⟩ := h1 hb
      simp only at hlon
      simp only [hb, if_true, hfst, hlon, Nat.add_zero, longer_longer, Prod.mk.eta]
      rw [show max (max (a.lastLineChars + b.lastLineChars) b.longestRowChars)
          (a.lastLineChars + b.lastLineChars + c.firstLineChars) =
        max (max (a.lastLineChars + (b.lastLineChars + c.firstLineChars)) b.longestRowChars)
          (b.lastLineChars + c.firstLineChars) by omega]
    · simp only [hb, if_false]

/-- A character after the second of two texts. -/
theorem add_stepChar (s t : TextSummary) (c : Char) : s + t.stepChar c = (s + t).stepChar c := by
  have hs := s.rows.single
  obtain ⟨h1, h2, h3⟩ := t.rows
  refine ext_counts rfl (Nat.add_assoc ..).symm ?_ ?_ ?_ ?_ ?_ ?_
  · exact OffsetUtf16.ext (Nat.add_assoc ..).symm
  · simp only [add_def, add, stepChar]
    ext
    · simp
    · simp only [RowColumn.add_column]
      split_ifs <;> omega
  · simp only [add_def, add, stepChar, RowColumn.add_row]
    split_ifs <;> simp_all
    omega
  · simp only [add_def, add, stepChar]
    split_ifs <;> omega
  · simp only [add_def, add, stepChar]
    split_ifs <;> omega
  · simp only [add_def, add, stepChar, RowColumn.add_row, longer_add]
    by_cases ht : t.lines.row = 0
    · obtain ⟨hfst, hlon⟩ := h1 ht
      simp only at hlon
      simp only [ht, if_true, hfst, hlon, Nat.add_zero, longer_longer, Prod.mk.eta]
      rw [show max (max (s.lastLineChars + (t.lastLineChars + 1)) t.longestRowChars) (t.lastLineChars + 1) =
        max (max (s.lastLineChars + t.lastLineChars) t.longestRowChars) (s.lastLineChars + t.lastLineChars + 1) by omega]
    · simp only [ht, if_false]

theorem add_stepNewline (s t : TextSummary) : s + t.stepNewline = (s + t).stepNewline := by
  refine ext_counts rfl (Nat.add_assoc ..).symm ?_ ?_ ?_ ?_ ?_ ?_
  · exact OffsetUtf16.ext (Nat.add_assoc ..).symm
  · exact (RowColumn.add_assoc ..).symm
  · simp only [add_def, add, stepNewline]
  · simp only [add_def, add, stepNewline, RowColumn.add_row]
    simp
  · simp only [add_def, add, stepNewline, RowColumn.add_row]
    simp
  · simp only [add_def, add, stepNewline, RowColumn.add_row, longer_add, Nat.add_assoc]

theorem add_zero {s : TextSummary} (h : s.lastLineChars ≤ s.longestRowChars) : s + zero = s := by
  refine ext_counts rfl rfl rfl (RowColumn.add_zero _) ?_ rfl rfl ?_
  · simp only [add_def, add, zero]
    split_ifs <;> rfl
  · have h' : ¬s.longestRowChars < s.lastLineChars := by omega
    simp [add_def, add, zero, longer, h']

theorem scan_append (s t : Str) : scan (s ++ t) = scan s + scan t := by
  induction t using reverseRecOn with
  | nil => rw [append_nil, show scan [] = zero from rfl, add_zero (scan_last_le s)]
  | append_singleton t c ih =>
    rw [← append_assoc, scan_concat, scan_concat, ih]
    split_ifs
    · exact (add_stepNewline ..).symm
    · exact (add_stepChar ..).symm

/-- The summary of a text in two parts is the sum of the summaries of the parts. -/
theorem ofStr_append (s t : Str) : ofStr (s ++ t) = ofStr s + ofStr t := by
  have hscan := scan_append s t
  refine ext_counts (len_append s t) ?_ ?_ ?_ ?_ ?_ ?_ ?_ <;> simp only [ofStr, hscan] <;> rfl

end TextSummary

end Wu
