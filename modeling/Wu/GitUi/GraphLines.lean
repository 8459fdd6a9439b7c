import Wu.GitUi.GraphData

/-!
# The shapes of lines

A line that is completed has one of six shapes. In the rows strictly between its ends it runs straight in one column: the lane that it
held, or the lane of its parent.
-/

namespace Wu.GitUi

variable {Oid : Type}

open CommitLineSegment (straight curve)

/-! ## Following segments -/

def CommitLineSegment.endRow : CommitLineSegment → Nat
  | straight toRow => toRow
  | curve _ onRow _ => onRow

/-- The column after segments. -/
def endColumn (column : Nat) : List CommitLineSegment → Nat
  | [] => column
  | straight _ :: segments => endColumn column segments
  | curve toColumn _ _ :: segments => endColumn toColumn segments

/-- Whether segments run straight in a column through a row. -/
def runsStraight (row column : Nat) (currentRow currentColumn : Nat) : List CommitLineSegment → Bool
  | [] => false
  | straight toRow :: segments =>
    decide (currentColumn = column ∧ currentRow ≤ row ∧ row ≤ toRow) || runsStraight row column toRow currentColumn segments
  | curve toColumn onRow _ :: segments => runsStraight row column onRow toColumn segments

namespace CommitLine

/-- Whether the line runs straight in a column through a row. -/
def RunsStraight (self : CommitLine Oid) (row column : Nat) : Prop :=
  runsStraight row column self.startRow self.childColumn self.segments = true

/-- The rows strictly inside the interval of the line. -/
def Inside (self : CommitLine Oid) (row : Nat) : Prop := self.startRow < row ∧ row < self.endRow

instance (self : CommitLine Oid) (row column : Nat) : Decidable (self.RunsStraight row column) := inferInstanceAs (Decidable (_ = _))

instance (self : CommitLine Oid) (row : Nat) : Decidable (self.Inside row) := inferInstanceAs (Decidable (_ ∧ _))

/-- Says that an index and a column are those of the first segment that reaches a row. -/
structure FirstReaching (self : CommitLine Oid) (row idx column : Nat) : Prop where
  reaches : ∃ segment, self.segments[idx]? = some segment ∧ row ≤ segment.endRow
  first : ∀ (j : Nat) (segment : CommitLineSegment), j < idx → self.segments[j]? = some segment → segment.endRow < row
  column : column = endColumn self.childColumn (self.segments.take idx)

end CommitLine

theorem firstVisible_spec {row : Nat} {segments : List CommitLineSegment} (h : ∃ segment ∈ segments, row ≤ segment.endRow)
    (idx column : Nat) :
    ∃ i, firstVisible row idx column segments = some (idx + i, endColumn column (segments.take i)) ∧
      (∃ segment, segments[i]? = some segment ∧ row ≤ segment.endRow) ∧
      ∀ (j : Nat) (segment : CommitLineSegment), j < i → segments[j]? = some segment → segment.endRow < row := by
  induction segments generalizing idx column with
  | nil =>
    obtain ⟨segment, hmem, -⟩ := h
    cases hmem
  | cons segment segments ih =>
    by_cases hrea : row ≤ segment.endRow
    · refine ⟨0, ?_, ⟨segment, rfl, hrea⟩, fun j _ hj => absurd hj (Nat.not_lt_zero j)⟩
      cases segment with
      | straight toRow => exact if_pos hrea
      | curve toColumn onRow kind => exact if_pos hrea
    · have hrest : ∃ segment ∈ segments, row ≤ segment.endRow := by
        obtain ⟨found, hmem, hfnd⟩ := h
        obtain rfl | hmem := List.mem_cons.mp hmem
        · exact absurd hfnd hrea
        · exact ⟨found, hmem, hfnd⟩
      have hlat : ∀ {i : Nat}, (∀ (j : Nat) (s : CommitLineSegment), j < i → segments[j]? = some s → s.endRow < row) →
          ∀ (j : Nat) (s : CommitLineSegment), j < i + 1 → (segment :: segments)[j]? = some s → s.endRow < row := by
        intro i hfst j s hj hs
        cases j with
        | zero =>
          cases hs
          exact Nat.lt_of_not_le hrea
        | succ j => exact hfst j s (Nat.lt_of_succ_lt_succ hj) hs
      cases segment with
      | straight toRow =>
        obtain ⟨i, hvis, hrch, hfst⟩ := ih hrest _ _
        refine ⟨i + 1, (if_neg hrea).trans ?_, hrch, hlat hfst⟩
        rw [hvis, Nat.add_assoc, Nat.add_comm 1]
        rfl
      | curve toColumn onRow kind =>
        obtain ⟨i, hvis, hrch, hfst⟩ := ih hrest _ _
        refine ⟨i + 1, (if_neg hrea).trans ?_, hrch, hlat hfst⟩
        rw [hvis, Nat.add_assoc, Nat.add_comm 1]
        rfl

/-! ## Shapes -/

/-- The shapes of a line from a row and a column to a row and a column, and the column in which each runs straight. -/
inductive Drawn (startRow startColumn endRow endColumn : Nat) : Nat → List CommitLineSegment → Prop
  | along : startRow < endRow → startColumn = endColumn → Drawn startRow startColumn endRow endColumn startColumn [straight endRow]
  | beside : startRow + 1 = endRow → startColumn ≠ endColumn →
      Drawn startRow startColumn endRow endColumn startColumn [curve endColumn endRow .checkout]
  | leaving : startRow + 1 < endRow → startColumn ≠ endColumn →
      Drawn startRow startColumn endRow endColumn startColumn [straight (endRow - 1), curve endColumn endRow .checkout]
  | merging (column : Nat) : startRow + 1 = endRow →
      Drawn startRow startColumn endRow endColumn column [curve endColumn endRow .merge]
  | into : startRow + 1 < endRow →
      Drawn startRow startColumn endRow endColumn endColumn [curve endColumn (startRow + 1) .merge, straight endRow]
  | aside (column : Nat) : startRow + 1 < endRow →
      Drawn startRow startColumn endRow endColumn column
        [curve column (startRow + 1) .merge, straight (endRow - 1), curve endColumn endRow .checkout]

namespace Drawn

variable {startRow startColumn endRow lastColumn column : Nat} {segments : List CommitLineSegment}

section

variable (h : Drawn startRow startColumn endRow lastColumn column segments)
include h

theorem endColumn_eq : endColumn startColumn segments = lastColumn := by
  cases h with
  | along _ heq => exact heq
  | _ => rfl

theorem endRow_le : ∀ segment ∈ segments, startRow ≤ segment.endRow ∧ segment.endRow ≤ endRow := by
  cases h <;> simp [CommitLineSegment.endRow] <;> omega

theorem endRow_pairwise : (segments.map CommitLineSegment.endRow).Pairwise (· ≤ ·) := by
  cases h <;> simp [CommitLineSegment.endRow] <;> omega

theorem getLast_endRow : segments.getLast?.map CommitLineSegment.endRow = some endRow := by
  cases h <;> rfl

/-- Strictly between its ends the line runs straight in its column, and nowhere else does it run straight in another one. -/
theorem runsStraight_iff {row : Nat} (hst : startRow < row)
    (hend : row < endRow) (at' : Nat) : runsStraight row at' startRow startColumn segments = true ↔ at' = column := by
  cases h <;> simp [runsStraight] <;> omega

theorem of_runsStraight {row at' : Nat}
    (hrun : runsStraight row at' startRow startColumn segments = true) : at' = column ∧ startRow ≤ row ∧ row ≤ endRow := by
  cases h <;> simp [runsStraight] at hrun <;> omega

end

end Drawn

/-! ## Lines that are completed -/

theorem completeSegments_straight (startingRow endingRow laneColumn finalDestination : Nat) :
    completeSegments startingRow endingRow laneColumn finalDestination [straight usizeMax] = if finalDestination ≠ laneColumn then
        if endingRow - 1 = startingRow then [curve finalDestination endingRow .checkout]
        else [straight (endingRow - 1), curve finalDestination endingRow .checkout]
      else [straight endingRow] := by
  rfl

theorem completeSegments_merge (startingRow endingRow laneColumn finalDestination toColumn : Nat) :
    completeSegments startingRow endingRow laneColumn finalDestination [curve toColumn usizeMax .merge] =
      let toColumn := if toColumn = usizeMax then finalDestination else toColumn
      if startingRow + 1 < endingRow then
        if toColumn ≠ finalDestination then
          [curve toColumn (startingRow + 1) .merge, straight (endingRow - 1), curve finalDestination endingRow .checkout]
        else [curve toColumn (startingRow + 1) .merge, straight endingRow]
      else if toColumn ≠ finalDestination then
        [curve toColumn (startingRow + 1) .merge, curve finalDestination endingRow .checkout]
      else [curve toColumn (startingRow + 1) .merge] := by
  rfl

namespace ActiveLane

variable {edge : ActiveLane Oid} {commits : List (CommitEntry Oid)} {laneColumn : Nat}

/-- The edge to a first parent runs straight in its lane. -/
theorem drawn_first (hsha : edge.segments = [straight usizeMax]) (hcol : edge.startingCol = laneColumn)
    (hdes : edge.destinationColumn = none) (hlt : edge.startingRow < commits.length) (commitLane : Nat) (color : UInt8) :
    Drawn edge.startingRow edge.startingCol commits.length commitLane laneColumn
      (edge.finish commits commitLane color laneColumn).segments := by
  have hasi : edge.keptAside commits laneColumn commitLane = edge := by rw [keptAside, hsha]
  have hseg : (edge.finish commits commitLane color laneColumn).segments =
      completeSegments edge.startingRow commits.length laneColumn commitLane [straight usizeMax] := by
    rw [finish, hasi, toCommitLine, hdes, hsha, Option.getD_none]
  rw [hseg, completeSegments_straight, ← hcol]
  by_cases hsame : commitLane = edge.startingCol
  · rw [if_neg (not_not.mpr hsame)]
    exact .along hlt hsame.symm
  · rw [if_pos hsame]
    by_cases hnext : commits.length - 1 = edge.startingRow
    · rw [if_pos hnext]
      exact .beside (by omega) (Ne.symm hsame)
    · rw [if_neg hnext]
      exact .leaving (by omega) (Ne.symm hsame)

/-- The edge to another parent runs straight in its own lane, when there are commits in the lane of the parent, or else there. -/
theorem drawn_merge (hsha : edge.segments = [curve usizeMax usizeMax .merge]) (hdes : edge.destinationColumn = none)
    (hlt : edge.startingRow < commits.length) (hlane : laneColumn < usizeMax) (commitLane : Nat) (color : UInt8) :
    Drawn edge.startingRow edge.startingCol commits.length commitLane
      (if wouldOverlap commits edge.startingRow laneColumn commitLane then laneColumn else commitLane)
      (edge.finish commits commitLane color laneColumn).segments := by
  by_cases hoverlap : wouldOverlap commits edge.startingRow laneColumn commitLane = true
  · have hasi : edge.keptAside commits laneColumn commitLane = { edge with segments := [curve laneColumn usizeMax .merge] } := by
      rw [keptAside, hsha]
      exact if_pos hoverlap
    have hseg : (edge.finish commits commitLane color laneColumn).segments =
        completeSegments edge.startingRow commits.length laneColumn commitLane [curve laneColumn usizeMax .merge] := by
      rw [finish, hasi, toCommitLine, hdes, Option.getD_none]
    have hboth : laneColumn ≠ commitLane ∧ edge.startingRow + 1 < commits.length := by
      rw [wouldOverlap, Bool.and_eq_true, decide_eq_true_eq] at hoverlap
      exact hoverlap.1
    rw [hseg, completeSegments_merge, if_pos hoverlap]
    rw [if_neg (Nat.ne_of_lt hlane), if_pos hboth.2, if_pos hboth.1]
    exact .aside _ hboth.2
  · have hasi : edge.keptAside commits laneColumn commitLane = edge := by
      rw [keptAside, hsha]
      exact if_neg hoverlap
    have hseg : (edge.finish commits commitLane color laneColumn).segments =
        completeSegments edge.startingRow commits.length laneColumn commitLane [curve usizeMax usizeMax .merge] := by
      rw [finish, hasi, toCommitLine, hdes, hsha, Option.getD_none]
    rw [hseg, completeSegments_merge, if_neg hoverlap]
    dsimp only
    rw [if_pos rfl, if_neg (not_not.mpr rfl), if_neg (not_not.mpr rfl)]
    by_cases hnext : edge.startingRow + 1 < commits.length
    · rw [if_pos hnext]
      exact .into hnext
    · have hend : edge.startingRow + 1 = commits.length := by omega
      rw [if_neg hnext, hend]
      exact .merging _ hend

end ActiveLane

end Wu.GitUi
