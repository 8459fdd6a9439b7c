import Wu.GitUi.GraphLines
import Mathlib.Data.List.Perm.Basic
import Mathlib.Data.List.Nodup

/-!
# Lanes and the edges that hold them

Each edge whose parent has not come yet holds a lane of its own, in which no commit is put meanwhile; each other edge has become a line.
-/

namespace Wu.GitUi

open List Function Option

variable {Oid : Type}

open CommitLineSegment (straight curve)

/-! ## Lane states -/

/-- The edge that holds a lane. -/
def LaneState.edge : LaneState Oid → Option (ActiveLane Oid)
  | empty => none
  | active lane => some lane

def activeAt (laneStates : List (LaneState Oid)) (lane : Nat) : Option (ActiveLane Oid) := laneStates[lane]?.bind LaneState.edge

variable {laneStates : List (LaneState Oid)} {lane : Nat} {commits : List (CommitEntry Oid)} {parentToLanes : Oid → List Nat}
variable {toAdd : List (Oid × Oid)}

theorem activeAt_some {edge : ActiveLane Oid}
    (h : activeAt laneStates lane = some edge) : laneStates[lane]? = some (.active edge) := by
  rw [activeAt, bind_eq_some_iff] at h
  obtain ⟨state, hsta, hedge⟩ := h
  cases state with
  | empty => cases hedge
  | active lane =>
    cases hedge
    exact hsta

theorem lt_of_activeAt {edge : ActiveLane Oid} (h : activeAt laneStates lane = some edge) : lane < laneStates.length :=
  (List.getElem?_eq_some_iff.mp (activeAt_some h)).1

theorem activeAt_append_empty (laneStates : List (LaneState Oid)) (lane : Nat) :
    activeAt (laneStates ++ [.empty]) lane = activeAt laneStates lane := by
  rw [activeAt, activeAt]
  rcases Nat.lt_trichotomy lane laneStates.length with h | rfl | h
  · rw [List.getElem?_append_left h]
  · rw [List.getElem?_append_right le_rfl, Nat.sub_self, List.getElem?_eq_none le_rfl]
    rfl
  · rw [List.getElem?_eq_none (by rw [length_append, length_singleton]; omega), List.getElem?_eq_none (by omega)]

theorem activeAt_set (h : lane < laneStates.length) (state : LaneState Oid)
    (other : Nat) : activeAt (laneStates.set lane state) other = if other = lane then state.edge else activeAt laneStates other := by
  rw [activeAt, activeAt]
  by_cases hoth : other = lane
  · rw [if_pos hoth, hoth, List.getElem?_set_self h]
    rfl
  · rw [if_neg hoth, List.getElem?_set_ne (Ne.symm hoth)]

/-- A lane with nothing in it, which may have been added. -/
theorem firstEmptyLaneIdx_spec (laneStates : List (LaneState Oid)) :
    (firstEmptyLaneIdx laneStates).1 < (firstEmptyLaneIdx laneStates).2.length ∧
      activeAt (firstEmptyLaneIdx laneStates).2 (firstEmptyLaneIdx laneStates).1 = none ∧
      (∀ lane, activeAt (firstEmptyLaneIdx laneStates).2 lane = activeAt laneStates lane) ∧
      ((firstEmptyLaneIdx laneStates).2 = laneStates ∨ (firstEmptyLaneIdx laneStates).2 = laneStates ++ [.empty]) := by
  rw [firstEmptyLaneIdx]
  cases h : laneStates.findIdx? _ with
  | some idx =>
    obtain ⟨hlt, hemp, -⟩ := findIdx?_eq_some_iff_getElem.mp h
    refine ⟨hlt, ?_, fun _ => rfl, .inl rfl⟩
    rw [activeAt, List.getElem?_eq_getElem hlt]
    cases hsta : laneStates[idx] with
    | empty => rfl
    | active lane =>
      rw [hsta] at hemp
      cases hemp
  | none =>
    refine ⟨?_, ?_, activeAt_append_empty _, .inr rfl⟩
    · rw [length_append]
      exact Nat.lt_succ_self _
    · rw [activeAt_append_empty, activeAt, List.getElem?_eq_none le_rfl]
      rfl

/-! ## Edges -/

/-- The child and the parent of a line. -/
def CommitLine.key (self : CommitLine Oid) : Oid × Oid := (self.child, self.parent)

/-- The child and the parent of an edge in a lane. -/
def LaneState.key? (state : LaneState Oid) : Option (Oid × Oid) := state.edge.map fun edge => (edge.child, edge.parent)

/-- The edges that hold lanes. -/
def activeKeys (laneStates : List (LaneState Oid)) : List (Oid × Oid) := laneStates.filterMap LaneState.key?

/-- The edges of a commit. -/
def CommitEntry.keys (entry : CommitEntry Oid) : List (Oid × Oid) := entry.data.parents.map (entry.data.sha, ·)

theorem filterMap_cons_toList {α β : Type} (f : α → Option β) (x : α) (l : List α) :
    (x :: l).filterMap f = (f x).toList ++ l.filterMap f := by
  rw [filterMap_cons]
  cases f x <;> rfl

theorem perm_swap_ends {α : Type} (a b c : List α) : (a ++ b ++ c).Perm (c ++ b ++ a) := by
  rw [append_assoc c]
  exact perm_append_comm.trans (perm_append_comm.append_left c)

/-- Replacing an item takes out what was made of it, and puts in what is made of the new one. -/
theorem perm_filterMap_set {α β : Type} {f : α → Option β} {l : List α} {i : Nat} {x : α} (h : l[i]? = some x) (y : α) :
    ((l.set i y).filterMap f ++ (f x).toList).Perm (l.filterMap f ++ (f y).toList) := by
  induction l generalizing i with
  | nil => cases h
  | cons z l ih =>
    cases i with
    | zero =>
      cases h
      rw [set_cons_zero, filterMap_cons_toList, filterMap_cons_toList]
      exact perm_swap_ends _ _ _
    | succ i =>
      rw [set_cons_succ, filterMap_cons_toList, filterMap_cons_toList, append_assoc, append_assoc]
      exact (ih h).append_left _

theorem activeKeys_append_empty (laneStates : List (LaneState Oid)) : activeKeys (laneStates ++ [.empty]) = activeKeys laneStates := by
  rw [activeKeys, filterMap_append]
  exact append_nil _

theorem activeKeys_firstEmptyLaneIdx (laneStates : List (LaneState Oid)) :
    activeKeys (firstEmptyLaneIdx laneStates).2 = activeKeys laneStates := by
  obtain ⟨-, -, -, heq | heq⟩ := firstEmptyLaneIdx_spec _
  · rw [heq]
  · rw [heq, activeKeys_append_empty]

/-! ## What holds between two commits -/

/-- An edge that holds a lane since the row of its child. -/
structure Waiting (commits : List (CommitEntry Oid)) (lane : Nat) (edge : ActiveLane Oid) : Prop where
  start : ∃ entry, commits[edge.startingRow]? = some entry ∧ entry.data.sha = edge.child ∧ entry.lane = edge.startingCol ∧
    edge.parent ∈ entry.data.parents
  destination : edge.destinationColumn = none
  shape : edge.segments = [straight usizeMax] ∧ edge.startingCol = lane ∨ edge.segments = [curve usizeMax usizeMax .merge]
  alone : ∀ (row : Nat) (entry : CommitEntry Oid), edge.startingRow < row → commits[row]? = some entry → entry.lane ≠ lane
  missing : ∀ entry ∈ commits, entry.data.sha ≠ edge.parent

/-- A line between two commits, drawn in a column with no other commits. -/
structure Completed (commits : List (CommitEntry Oid)) (line : CommitLine Oid) : Prop where
  start : ∃ entry, commits[line.startRow]? = some entry ∧ entry.data.sha = line.child ∧ entry.lane = line.childColumn ∧
    line.parent ∈ entry.data.parents
  finish : ∃ entry, commits[line.endRow]? = some entry ∧ entry.data.sha = line.parent ∧
    ∃ column, Drawn line.startRow line.childColumn line.endRow entry.lane column line.segments ∧
      ∀ (row : Nat) (between : CommitEntry Oid), line.Inside row → commits[row]? = some between → between.lane ≠ column

/-- The state of the graph, where some edges are yet to be added. -/
structure Consistent (commits : List (CommitEntry Oid)) (laneStates : List (LaneState Oid)) (parentToLanes : Oid → List Nat)
    (lines : List (CommitLine Oid)) (toAdd : List (Oid × Oid)) : Prop where
  mapped : ∀ (lane : Nat) (parent : Oid),
    lane ∈ parentToLanes parent ↔ ∃ edge, activeAt laneStates lane = some edge ∧ edge.parent = parent
  nodup : ∀ parent : Oid, (parentToLanes parent).Nodup
  waiting : ∀ (lane : Nat) (edge : ActiveLane Oid), activeAt laneStates lane = some edge → Waiting commits lane edge
  keys : (lines.map CommitLine.key ++ activeKeys laneStates ++ toAdd).Perm (commits.flatMap CommitEntry.keys)
  completed : ∀ line ∈ lines, Completed commits line
  before : ∀ (lane : Nat) (edge : ActiveLane Oid), activeAt laneStates lane = some edge → ∀ line ∈ lines, ∀ row, line.Inside row →
    line.RunsStraight row lane → row ≤ edge.startingRow

/-! ## Adding an edge -/

theorem activeKeys_set_active (h : lane < laneStates.length) (hemp : activeAt laneStates lane = none) (edge : ActiveLane Oid) :
    (activeKeys (laneStates.set lane (.active edge))).Perm (activeKeys laneStates ++ [(edge.child, edge.parent)]) := by
  have hperm := perm_filterMap_set (f := LaneState.key?) (List.getElem?_eq_getElem h) (.active edge)
  rw [activeAt, List.getElem?_eq_getElem h, bind_some] at hemp
  have hnone : laneStates[lane].key? = none := by rw [LaneState.key?, hemp, map_none]
  rw [hnone, toList_none, append_nil] at hperm
  exact hperm

/-- An edge may be put into a lane that nothing holds, when its row is the last one. -/
theorem Consistent.addedEdge [DecidableEq Oid] {lines : List (CommitLine Oid)} (edge : ActiveLane Oid)
    (h : Consistent commits laneStates parentToLanes lines ((edge.child, edge.parent) :: toAdd)) (hlt : lane < laneStates.length)
    (hemp : activeAt laneStates lane = none) (hwait : Waiting commits lane edge)
    (hlast : ∀ line ∈ lines, line.endRow ≤ edge.startingRow) :
    Consistent commits (addEdge (laneStates, parentToLanes) lane edge).1 (addEdge (laneStates, parentToLanes) lane edge).2
      lines toAdd := by
  have hact := activeAt_set hlt (.active edge)
  have hnotM : ∀ parent, lane ∉ parentToLanes parent := by
    intro parent hmem
    obtain ⟨found, hfnd, -⟩ := (h.mapped lane _).mp hmem
    rw [hemp] at hfnd
    cases hfnd
  have hcase : ∀ {other : Nat} {found : ActiveLane Oid}, activeAt (laneStates.set lane (.active edge)) other = some found →
      other = lane ∧ found = edge ∨ other ≠ lane ∧ activeAt laneStates other = some found := by
    intro other found hfnd
    rw [hact] at hfnd
    by_cases hoth : other = lane
    · rw [if_pos hoth] at hfnd
      cases hfnd
      exact .inl ⟨hoth, rfl⟩
    · rw [if_neg hoth] at hfnd
      exact .inr ⟨hoth, hfnd⟩
  refine ⟨fun other parent => ?_, fun parent => ?_, fun other found hfnd => ?_, ?_, h.completed, fun other found hfnd => ?_⟩
  · have hset : (∃ found, activeAt (laneStates.set lane (.active edge)) other = some found ∧ found.parent = parent) ↔
        other = lane ∧ edge.parent = parent ∨ other ∈ parentToLanes parent := by
      rw [h.mapped, hact]
      by_cases hoth : other = lane
      · rw [if_pos hoth, hoth, hemp]
        exact ⟨fun ⟨_, hfnd, hpar⟩ => .inl ⟨rfl, by cases hfnd; exact hpar⟩,
          fun hor => hor.elim (fun hand => ⟨edge, rfl, hand.2⟩) fun ⟨_, hfnd, _⟩ => by cases hfnd⟩
      · rw [if_neg hoth]
        exact ⟨.inr, fun hor => hor.resolve_left fun hand => hoth hand.1⟩
    refine Iff.trans ?_ hset.symm
    show other ∈ Function.update parentToLanes _ _ _ ↔ _
    by_cases hpar : parent = edge.parent
    · rw [hpar, update_self, mem_append, mem_singleton, or_comm, and_iff_left rfl]
    · rw [update_of_ne hpar]
      exact (or_iff_right fun hand => hpar hand.2.symm).symm
  · show (Function.update parentToLanes _ _ _).Nodup
    by_cases hpar : parent = edge.parent
    · rw [hpar, update_self]
      exact nodup_append.mpr ⟨h.nodup _, nodup_singleton _, fun x hx y hy hxy => by
        rw [mem_singleton.mp hy] at hxy
        exact hnotM _ (hxy ▸ hx)⟩
    · rw [update_of_ne hpar]
      exact h.nodup _
  · obtain ⟨rfl, rfl⟩ | ⟨-, hold⟩ := hcase hfnd
    · exact hwait
    · exact h.waiting _ _ hold
  · refine List.Perm.trans ?_ h.keys
    rw [← singleton_append, ← append_assoc, append_assoc _ (activeKeys laneStates)]
    exact (((activeKeys_set_active hlt hemp edge).append_left _).append_right _)
  · obtain ⟨-, rfl⟩ | ⟨-, hold⟩ := hcase hfnd
    · exact fun line hline row hins _ => Nat.le_of_lt (Nat.lt_of_lt_of_le hins.2 (hlast line hline))
    · exact h.before _ _ hold

/-- Only what holds the lanes matters. -/
theorem Consistent.congr {laneStates' : List (LaneState Oid)} {lines : List (CommitLine Oid)}
    (h : Consistent commits laneStates parentToLanes lines toAdd)
    (hact : ∀ lane, activeAt laneStates' lane = activeAt laneStates lane) (hkeys : activeKeys laneStates' = activeKeys laneStates) :
    Consistent commits laneStates' parentToLanes lines toAdd := by
  refine ⟨fun lane parent => ?_, h.nodup, fun lane edge hedge => ?_, ?_, h.completed, fun lane edge hedge => ?_⟩
  · rw [hact]
    exact h.mapped lane _
  · exact h.waiting lane edge ((hact lane).symm.trans hedge)
  · rw [hkeys]
    exact h.keys
  · exact h.before lane edge ((hact lane).symm.trans hedge)

/-- The commit that was added last, and edges to parents of it. -/
structure LastCommit (commits : List (CommitEntry Oid)) (child : Oid) (row lane : Nat) (parents : List Oid) : Prop where
  last : commits.length = row + 1
  entry : ∃ entry, commits[row]? = some entry ∧ entry.data.sha = child ∧ entry.lane = lane ∧ parents ⊆ entry.data.parents
  missing : ∀ parent ∈ parents, ∀ entry ∈ commits, entry.data.sha ≠ parent

theorem LastCommit.waiting {child parent : Oid} {row : Nat} {parents : List Oid}
    (h : LastCommit commits child row lane parents) (hpar : parent ∈ parents) {edge : ActiveLane Oid} {column : Nat}
    (hedge : edge.child = child ∧ edge.parent = parent ∧ edge.startingRow = row ∧ edge.startingCol = lane)
    (hdes : edge.destinationColumn = none)
    (hshap : edge.segments = [straight usizeMax] ∧ edge.startingCol = column ∨ edge.segments = [curve usizeMax usizeMax .merge]) :
    Waiting commits column edge := by
  obtain ⟨rfl, rfl, rfl, rfl⟩ := hedge
  obtain ⟨entry, hent, hsha, hlane, hpare⟩ := h.entry
  refine ⟨⟨entry, hent, hsha, hlane, hpare hpar⟩, hdes, hshap, fun row between hrow hbetw => ?_, h.missing _ hpar⟩
  have hlt := (List.getElem?_eq_some_iff.mp hbetw).1
  have hlast := h.last
  omega

section

variable [DecidableEq Oid] {commits : List (CommitEntry Oid)} {lines : List (CommitLine Oid)} {child : Oid} {row lane : Nat}

variable {graph : List (LaneState Oid) × (Oid → List Nat)} {parents : List Oid}

/-- An edge to another parent is added in a lane of its own. -/
theorem Consistent.addedMergeEdge {toAdd : List (Oid × Oid)} {parent : Oid}
    (h : Consistent commits graph.1 graph.2 lines ((child, parent) :: toAdd))
    (hcom : LastCommit commits child row lane parents) (hpar : parent ∈ parents) (hline : ∀ line ∈ lines, line.endRow ≤ row) :
    Consistent commits (addMergeEdge child row lane graph parent).1 (addMergeEdge child row lane graph parent).2 lines toAdd := by
  obtain ⟨hlt, hemp, hact, -⟩ := firstEmptyLaneIdx_spec _
  have hsame := h.congr hact (activeKeys_firstEmptyLaneIdx _)
  exact hsame.addedEdge _ hlt hemp (hcom.waiting hpar ⟨rfl, rfl, rfl, rfl⟩ rfl (.inr rfl)) hline

theorem Consistent.addedMergeEdges {rest : List Oid}
    (h : Consistent commits graph.1 graph.2 lines (rest.map (child, ·))) (hcom : LastCommit commits child row lane parents)
    (hrest : rest ⊆ parents) (hline : ∀ line ∈ lines, line.endRow ≤ row) :
    Consistent commits (rest.foldl (addMergeEdge child row lane) graph).1 (rest.foldl (addMergeEdge child row lane) graph).2
      lines [] := by
  induction rest generalizing graph with
  | nil => exact h
  | cons parent rest ih =>
    exact ih (h.addedMergeEdge hcom (hrest mem_cons_self) hline) fun x hx => hrest (.tail _ hx)

/-- All edges of the last commit are added. -/
theorem Consistent.addedEdges (color : UInt8)
    (h : Consistent commits graph.1 graph.2 lines (parents.map (child, ·))) (hcom : LastCommit commits child row lane parents)
    (hlt : lane < graph.1.length) (hemp : activeAt graph.1 lane = none) (hline : ∀ line ∈ lines, line.endRow ≤ row) :
    Consistent commits (addEdges child color row lane graph parents).1 (addEdges child color row lane graph parents).2 lines [] := by
  cases parents with
  | nil => exact h
  | cons parent parents =>
    have hfst := h.addedEdge (firstParentEdge _ _ color row lane) hlt hemp
      (hcom.waiting mem_cons_self ⟨rfl, rfl, rfl, rfl⟩ rfl (.inl ⟨rfl, rfl⟩)) hline
    exact hfst.addedMergeEdges hcom (subset_cons_self _ _) hline

end

/-- Adding edges adds at most a lane for each. -/
theorem length_addMergeEdge [DecidableEq Oid] (child : Oid) (row lane : Nat) (graph : List (LaneState Oid) × (Oid → List Nat)) (parent : Oid) :
    (addMergeEdge child row lane graph parent).1.length ≤ graph.1.length + 1 := by
  have hset : (addMergeEdge child row lane graph parent).1.length = (firstEmptyLaneIdx graph.1).2.length := length_set ..
  rw [hset]
  obtain ⟨-, -, -, heq | heq⟩ := firstEmptyLaneIdx_spec _
  · rw [heq]
    exact Nat.le_succ _
  · rw [heq, length_append]
    exact le_rfl

theorem length_addEdges [DecidableEq Oid] (child : Oid) (color : UInt8) (row lane : Nat) (graph : List (LaneState Oid) × (Oid → List Nat))
    (parents : List Oid) : (addEdges child color row lane graph parents).1.length ≤ graph.1.length + parents.length := by
  have hfold : ∀ (parents : List Oid) (graph : List (LaneState Oid) × (Oid → List Nat)),
      (parents.foldl (addMergeEdge child row lane) graph).1.length ≤ graph.1.length + parents.length := by
    intro parents
    induction parents with
    | nil => exact fun graph => le_rfl
    | cons parent parents ih =>
      intro graph
      have hrest := ih (addMergeEdge child row lane graph parent)
      have hone := length_addMergeEdge child row lane graph parent
      rw [foldl_cons, length_cons]
      omega
  cases parents with
  | nil => exact le_rfl
  | cons parent parents =>
    have hrest := hfold parents (addEdge graph lane (firstParentEdge child parent color row lane))
    have hset : (addEdge graph lane (firstParentEdge child parent color row lane)).1.length = graph.1.length := length_set ..
    rw [addEdges, length_cons]
    omega

end Wu.GitUi
