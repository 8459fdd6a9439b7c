import Mathlib.Data.List.Basic
import Mathlib.Algebra.Ring.Nat

/-!
# The graph of commits

Commits come one after another, each before its parents, and each gets a row and a lane. An edge to a parent that has not come yet holds a
lane; when the parent comes, the edges to it become lines, each drawn in one of a few shapes.
-/

namespace Wu.GitUi

variable {Oid : Type}

def usizeMax : Nat := 2 ^ 64 - 1

inductive CurveKind where
  | merge
  | checkout
  deriving DecidableEq, Repr

inductive CommitLineSegment where
  | straight (toRow : Nat)
  | curve (toColumn onRow : Nat) (curveKind : CurveKind)
  deriving DecidableEq, Repr

open CommitLineSegment (straight curve)

/-- The fields of `LaneState::Active`. -/
structure ActiveLane (Oid : Type) where
  child : Oid
  parent : Oid
  color : Option UInt8
  startingRow : Nat
  startingCol : Nat
  destinationColumn : Option Nat
  segments : List CommitLineSegment
  deriving Repr

inductive LaneState (Oid : Type) where
  | empty
  | active (lane : ActiveLane Oid)
  deriving Repr

structure CommitLine (Oid : Type) where
  child : Oid
  parent : Oid
  childColumn : Nat
  startRow : Nat
  endRow : Nat
  colorIdx : Nat
  segments : List CommitLineSegment
  deriving Repr

/-! ## Completing a line -/

/-- The segments of a line whose parent has come: how the last one goes on depends on whether its end is open, and on where it is. -/
def completeSegments (startingRow endingRow laneColumn finalDestination : Nat) (segments : List CommitLineSegment) :
    List CommitLineSegment :=
  match segments.getLast? with
  | some (straight toRow) =>
    if toRow = usizeMax then
      if finalDestination ≠ laneColumn then
        let curvedLine := curve finalDestination endingRow .checkout
        if endingRow - 1 = startingRow then segments.dropLast ++ [curvedLine]
        else segments.dropLast ++ [straight (endingRow - 1), curvedLine]
      else segments.dropLast ++ [straight endingRow]
    else segments
  | some (curve toColumn onRow curveKind) =>
    if onRow = usizeMax then
      let toColumn := if toColumn = usizeMax then finalDestination else toColumn
      match curveKind with
      | .merge =>
        let merged := segments.dropLast ++ [curve toColumn (startingRow + 1) .merge]
        if startingRow + 1 < endingRow then
          if toColumn ≠ finalDestination then
            merged ++ [straight (endingRow - 1), curve finalDestination endingRow .checkout]
          else merged ++ [straight endingRow]
        else if toColumn ≠ finalDestination then merged ++ [curve finalDestination endingRow .checkout]
        else merged
      | .checkout =>
        let curved := segments.dropLast ++ [curve toColumn endingRow .checkout]
        if toColumn ≠ finalDestination then
          curved ++ [straight endingRow, curve finalDestination endingRow .checkout]
        else curved
    else if onRow < endingRow then
      if toColumn ≠ finalDestination then
        segments ++ [straight (endingRow - 1), curve finalDestination endingRow .checkout]
      else segments ++ [straight endingRow]
    else if toColumn ≠ finalDestination then segments ++ [curve finalDestination endingRow .checkout]
    else segments
  | none => segments

/-- `LaneState::to_commit_lines` of an active lane. -/
def ActiveLane.toCommitLine (self : ActiveLane Oid) (endingRow laneColumn parentColumn : Nat) (parentColor : UInt8) :
    CommitLine Oid where
  child := self.child
  parent := self.parent
  childColumn := self.startingCol
  startRow := self.startingRow
  endRow := endingRow
  colorIdx := (self.color.getD parentColor).toNat
  segments :=
    completeSegments self.startingRow endingRow laneColumn (self.destinationColumn.getD parentColumn) self.segments

/-- The first segment that reaches a row, from a segment with an index and a column on. -/
def firstVisible (firstVisibleRow : Nat) (idx currentColumn : Nat) : List CommitLineSegment → Option (Nat × Nat)
  | [] => none
  | straight toRow :: segments =>
    if toRow ≥ firstVisibleRow then some (idx, currentColumn) else firstVisible firstVisibleRow (idx + 1) currentColumn segments
  | curve toColumn onRow _ :: segments =>
    if onRow ≥ firstVisibleRow then some (idx, currentColumn) else firstVisible firstVisibleRow (idx + 1) toColumn segments

def CommitLine.getFirstVisibleSegmentIdx (self : CommitLine Oid) (firstVisibleRow : Nat) : Option (Nat × Nat) :=
  if firstVisibleRow > self.endRow then none
  else if firstVisibleRow ≤ self.startRow then some (0, self.childColumn)
  else firstVisible firstVisibleRow 0 self.childColumn self.segments

/-! ## Adding commits -/

/-- What is known of a commit before it is loaded. -/
structure InitialGraphCommitData (Oid : Type) where
  sha : Oid
  parents : List Oid
  deriving DecidableEq, Repr

structure CommitEntry (Oid : Type) where
  data : InitialGraphCommitData Oid
  lane : Nat
  colorIdx : Nat
  deriving DecidableEq, Repr

/-- In `parentToLanes` a missing key has no lanes. -/
structure GraphData (Oid : Type) where
  laneStates : List (LaneState Oid)
  laneColors : Nat → Option UInt8
  parentToLanes : Oid → List Nat
  nextColor : UInt8
  accentColorsCount : Nat
  commits : List (CommitEntry Oid)
  lines : List (CommitLine Oid)

def LaneState.isEmpty : LaneState Oid → Bool
  | empty => true
  | active _ => false

/-- The first empty lane, which is added when there is none. -/
def firstEmptyLaneIdx (laneStates : List (LaneState Oid)) : Nat × List (LaneState Oid) :=
  match laneStates.findIdx? LaneState.isEmpty with
  | some idx => (idx, laneStates)
  | none => (laneStates.length, laneStates ++ [.empty])

namespace GraphData

def new (accentColorsCount : Nat) : GraphData Oid where
  laneStates := []
  laneColors _ := none
  parentToLanes _ := []
  nextColor := 0
  accentColorsCount := accentColorsCount
  commits := []
  lines := []

/-- `get_lane_color`, with the colors of the lanes and the next color that it leaves. -/
def getLaneColor (self : GraphData Oid) (laneIdx : Nat) : UInt8 × (Nat → Option UInt8) × UInt8 :=
  match self.laneColors laneIdx with
  | some color => (color, self.laneColors, self.nextColor)
  | none =>
    (self.nextColor, Function.update self.laneColors laneIdx (some self.nextColor),
      (self.nextColor + 1) % UInt8.ofNat self.accentColorsCount)

/-- The lane of a commit: the leftmost one that waits for it, or else the first empty one. -/
def commitLane (self : GraphData Oid) (sha : Oid) : Nat × List (LaneState Oid) :=
  match (self.parentToLanes sha).min? with
  | some lane => (lane, self.laneStates)
  | none => firstEmptyLaneIdx self.laneStates

end GraphData

/-- Whether a commit since a row is in a lane. -/
def wouldOverlap (commits : List (CommitEntry Oid)) (startingRow laneColumn commitLane : Nat) : Bool :=
  decide (laneColumn ≠ commitLane ∧ startingRow + 1 < commits.length) &&
    (commits.drop (startingRow + 1)).any fun c => c.lane = commitLane

/-- A merge edge stays in its own lane when there are commits in the lane that it leads to. -/
def ActiveLane.keptAside (self : ActiveLane Oid) (commits : List (CommitEntry Oid)) (laneColumn commitLane : Nat) : ActiveLane Oid :=
  match self.segments with
  | curve _ onRow .merge :: segments =>
    if wouldOverlap commits self.startingRow laneColumn commitLane then
      { self with segments := curve laneColumn onRow .merge :: segments }
    else self
  | _ => self

/-- The line of a lane that waits for a commit with a lane and a color. -/
def ActiveLane.finish (self : ActiveLane Oid) (commits : List (CommitEntry Oid)) (commitLane : Nat) (commitColor : UInt8)
    (laneColumn : Nat) : CommitLine Oid :=
  (self.keptAside commits laneColumn commitLane).toCommitLine commits.length laneColumn commitLane commitColor

/-- A lane that waits for a commit becomes a line, and is empty then. -/
def finishLane (commits : List (CommitEntry Oid)) (commitLane : Nat) (commitColor : UInt8)
    (graph : List (LaneState Oid) × List (CommitLine Oid)) (laneColumn : Nat) :
    List (LaneState Oid) × List (CommitLine Oid) :=
  match graph.1[laneColumn]? with
  | some (.active lane) =>
    (graph.1.set laneColumn .empty, graph.2 ++ [lane.finish commits commitLane commitColor laneColumn])
  | _ => graph

/-- The edge to the first parent of a commit. -/
def firstParentEdge (child parent : Oid) (color : UInt8) (row lane : Nat) : ActiveLane Oid where
  child := child
  parent := parent
  color := some color
  startingRow := row
  startingCol := lane
  destinationColumn := none
  segments := [straight usizeMax]

/-- The edge to another parent of a commit. -/
def mergeEdge (child parent : Oid) (row lane : Nat) : ActiveLane Oid where
  child := child
  parent := parent
  color := none
  startingRow := row
  startingCol := lane
  destinationColumn := none
  segments := [curve usizeMax usizeMax .merge]

section

variable [DecidableEq Oid]

/-- An edge is put into a lane, and its parent waits there. -/
def addEdge (graph : List (LaneState Oid) × (Oid → List Nat)) (lane : Nat) (edge : ActiveLane Oid) :
    List (LaneState Oid) × (Oid → List Nat) :=
  (graph.1.set lane (.active edge), Function.update graph.2 edge.parent (graph.2 edge.parent ++ [lane]))

/-- The edge to another parent goes into the first empty lane. -/
def addMergeEdge (child : Oid) (row lane : Nat) (graph : List (LaneState Oid) × (Oid → List Nat)) (parent : Oid) :
    List (LaneState Oid) × (Oid → List Nat) :=
  let (newLane, laneStates) := firstEmptyLaneIdx graph.1
  addEdge (laneStates, graph.2) newLane (mergeEdge child parent row lane)

/-- The edge to the first parent goes into the lane of the commit. -/
def addEdges (child : Oid) (color : UInt8) (row lane : Nat) (graph : List (LaneState Oid) × (Oid → List Nat)) :
    List Oid → List (LaneState Oid) × (Oid → List Nat)
  | [] => graph
  | parent :: parents =>
    parents.foldl (addMergeEdge child row lane) (addEdge graph lane (firstParentEdge child parent color row lane))

namespace GraphData

/-- The body of the loop of `add_commits`. -/
def addCommit (self : GraphData Oid) (commit : InitialGraphCommitData Oid) : GraphData Oid :=
  let (lane, laneStates) := self.commitLane commit.sha
  let (color, laneColors, nextColor) := self.getLaneColor lane
  let (laneStates, lines) := (self.parentToLanes commit.sha).foldl (finishLane self.commits lane color) (laneStates, self.lines)
  let parentToLanes := Function.update self.parentToLanes commit.sha []
  let (laneStates, parentToLanes) := addEdges commit.sha color self.commits.length lane (laneStates, parentToLanes) commit.parents
  { self with
    laneStates, laneColors, parentToLanes, nextColor, lines
    commits := self.commits ++ [⟨commit, lane, color.toNat⟩] }

def addCommits (self : GraphData Oid) (commits : List (InitialGraphCommitData Oid)) : GraphData Oid :=
  commits.foldl addCommit self

end GraphData

end

end Wu.GitUi
