import Wu.GitUi.GraphLanes

/-!
# The graph of a list of commits

When a commit comes, the edges that wait for it become lines, and its own edges are added. So in the end each edge whose parent has come
is one line from the child to the parent.
-/

namespace Wu.GitUi

open List ActiveLane GraphData Function

variable {Oid : Type}

open CommitLineSegment (straight curve)

/-! ## Completing the edges to a commit -/

/-- Completing a line touches only the segments. -/
theorem ActiveLane.keptAside_eq (edge : ActiveLane Oid) (commits : List (CommitEntry Oid)) (laneColumn commitLane : Nat) :
    ∃ segments, edge.keptAside commits laneColumn commitLane = { edge with segments } := by
  unfold keptAside
  split
  · split
    · exact ⟨_, rfl⟩
    · exact ⟨edge.segments, rfl⟩
  · exact ⟨edge.segments, rfl⟩

theorem ActiveLane.finish_spec (edge : ActiveLane Oid) (commits : List (CommitEntry Oid)) (commitLane : Nat) (color : UInt8)
    (laneColumn : Nat) :
    (edge.finish commits commitLane color laneColumn).key = (edge.child, edge.parent) ∧
      (edge.finish commits commitLane color laneColumn).startRow = edge.startingRow ∧
      (edge.finish commits commitLane color laneColumn).childColumn = edge.startingCol ∧
      (edge.finish commits commitLane color laneColumn).endRow = commits.length := by
  obtain ⟨segments, hseg⟩ := edge.keptAside_eq _ _ _
  rw [finish, hseg]
  exact ⟨rfl, rfl, rfl, rfl⟩

/-- No commit since a row is in the lane of a commit when a line may be drawn there. -/
theorem lane_ne_of_wouldOverlap {commits : List (CommitEntry Oid)} {startingRow laneColumn commitLane : Nat}
    (h : wouldOverlap commits startingRow laneColumn commitLane = false) (hne : laneColumn ≠ commitLane) {row : Nat}
    {entry : CommitEntry Oid} (hrow : startingRow < row) (hent : commits[row]? = some entry) : entry.lane ≠ commitLane := by
  obtain ⟨hlt, -⟩ := List.getElem?_eq_some_iff.mp hent
  have hboth : decide (laneColumn ≠ commitLane ∧ startingRow + 1 < commits.length) = true := decide_eq_true ⟨hne, by omega⟩
  rw [wouldOverlap, hboth, Bool.true_and, any_eq_false] at h
  have hmem : entry ∈ commits.drop (startingRow + 1) := by
    refine mem_iff_getElem?.mpr ⟨row - (startingRow + 1), ?_⟩
    rw [List.getElem?_drop, show startingRow + 1 + (row - (startingRow + 1)) = row by omega]
    exact hent
  exact fun heq => h _ hmem (decide_eq_true heq)

/-- The line of a waiting edge is drawn in its lane, or in the lane of the commit when there are no commits in it. -/
theorem Waiting.drawn {commits : List (CommitEntry Oid)} {edge : ActiveLane Oid} {laneColumn : Nat}
    (h : Waiting commits laneColumn edge) (hlane : laneColumn < usizeMax) (commitLane : Nat) (color : UInt8) :
    ∃ column, Drawn edge.startingRow edge.startingCol commits.length commitLane column
        (edge.finish commits commitLane color laneColumn).segments ∧
      (∀ (row : Nat) (between : CommitEntry Oid), edge.startingRow < row → commits[row]? = some between → between.lane ≠ column) ∧
      (column = laneColumn ∨ column = commitLane ∧ edge.segments = [curve usizeMax usizeMax .merge] ∧ laneColumn ≠ commitLane ∧
        wouldOverlap commits edge.startingRow laneColumn commitLane = false) := by
  obtain ⟨entry, hent, -⟩ := h.start
  have hlt := (List.getElem?_eq_some_iff.mp hent).1
  obtain ⟨hsha, hcol⟩ | hsha := h.shape
  · exact ⟨laneColumn, drawn_first hsha hcol h.destination hlt _ _, h.alone, .inl rfl⟩
  · have hdra := drawn_merge hsha h.destination hlt hlane commitLane color
    cases hoverlap : wouldOverlap _ _ _ _ with
    | true =>
      rw [hoverlap] at hdra
      exact ⟨laneColumn, hdra, h.alone, .inl rfl⟩
    | false =>
      rw [hoverlap] at hdra
      by_cases hsame : laneColumn = commitLane
      · exact ⟨commitLane, hdra, hsame ▸ h.alone, .inl hsame.symm⟩
      · exact ⟨commitLane, hdra, fun row between hrow hbetw => lane_ne_of_wouldOverlap hoverlap hsame hrow hbetw,
          .inr ⟨rfl, hsha, hsame, rfl⟩⟩

/-- Lanes have become lines: they are empty, and there is a line for each. -/
structure Finished (commits : List (CommitEntry Oid)) (commitLane : Nat) (color : UInt8) (laneStates : List (LaneState Oid))
    (lines : List (CommitLine Oid)) (lanes : List Nat) (result : List (LaneState Oid) × List (CommitLine Oid)) : Prop where
  active : ∀ lane, activeAt result.1 lane = if lane ∈ lanes then none else activeAt laneStates lane
  length : result.1.length = laneStates.length
  added : ∃ more, result.2 = lines ++ more ∧ ∀ line, line ∈ more ↔
    ∃ lane ∈ lanes, ∃ edge, activeAt laneStates lane = some edge ∧ line = edge.finish commits commitLane color lane
  keys : (result.2.map CommitLine.key ++ activeKeys result.1).Perm (lines.map CommitLine.key ++ activeKeys laneStates)

theorem finishLane_active {commits : List (CommitEntry Oid)} {commitLane : Nat} {color : UInt8} {laneStates : List (LaneState Oid)}
    {lines : List (CommitLine Oid)} {lane : Nat} {edge : ActiveLane Oid} (h : activeAt laneStates lane = some edge) :
    finishLane commits commitLane color (laneStates, lines) lane =
      (laneStates.set lane .empty, lines ++ [edge.finish commits commitLane color lane]) := by
  rw [finishLane, activeAt_some h]

/-- The edge of a lane goes over to the lines. -/
theorem perm_keys_finish {commits : List (CommitEntry Oid)} {commitLane : Nat} {color : UInt8} {laneStates : List (LaneState Oid)}
    {lane : Nat} {edge : ActiveLane Oid} (h : activeAt laneStates lane = some edge) (lines : List (CommitLine Oid)) :
    ((lines ++ [edge.finish commits commitLane color lane]).map CommitLine.key ++ activeKeys (laneStates.set lane .empty)).Perm
      (lines.map CommitLine.key ++ activeKeys laneStates) := by
  have hperm := perm_filterMap_set (f := LaneState.key?) (activeAt_some h) .empty
  have hkey : (LaneState.active edge).key?.toList = [(edge.finish commits commitLane color lane).key] := by
    rw [(edge.finish_spec _ _ _ lane).1]
    rfl
  rw [hkey] at hperm
  rw [map_append, append_assoc]
  refine List.Perm.append_left _ ((perm_append_comm).trans (hperm.trans ?_))
  exact List.Perm.of_eq (append_nil _)

theorem finished (commits : List (CommitEntry Oid)) (commitLane : Nat) (color : UInt8) {lanes : List Nat}
    {laneStates : List (LaneState Oid)} (lines : List (CommitLine Oid)) (hnod : lanes.Nodup)
    (hact : ∀ lane ∈ lanes, ∃ edge, activeAt laneStates lane = some edge) :
    Finished commits commitLane color laneStates lines lanes
      (lanes.foldl (finishLane commits commitLane color) (laneStates, lines)) := by
  induction lanes generalizing laneStates lines with
  | nil =>
    refine ⟨fun lane => (if_neg not_mem_nil).symm, rfl, ⟨[], (append_nil _).symm, fun line => ?_⟩, .rfl⟩
    exact iff_of_false not_mem_nil fun ⟨_, hmem, _⟩ => by cases hmem
  | cons lane lanes ih =>
    obtain ⟨edge, hedge⟩ := hact lane mem_cons_self
    obtain ⟨hnotM, hnod⟩ := nodup_cons.mp hnod
    have hset := activeAt_set (lt_of_activeAt hedge) LaneState.empty
    have hkept : ∀ other ∈ lanes, activeAt (laneStates.set lane .empty) other = activeAt laneStates other := by
      intro other hmem
      have hne : other ≠ lane := fun heq => hnotM (heq ▸ hmem)
      rw [hset, if_neg hne]
    have hrest := ih (lines ++ [edge.finish commits commitLane color lane]) hnod fun other hmem => by
      rw [hkept _ hmem]
      exact hact _ (mem_cons_of_mem lane hmem)
    rw [foldl_cons, finishLane_active hedge]
    refine ⟨fun other => ?_, hrest.length.trans (length_set ..), ?_, hrest.keys.trans (perm_keys_finish hedge _)⟩
    · rw [hrest.active, hset]
      by_cases hoth : other = lane
      · rw [if_pos hoth, if_pos (mem_cons.mpr (.inl hoth)), LaneState.edge, ite_self]
      · rw [if_neg hoth]
        exact if_congr (mem_cons.trans (or_iff_right hoth)).symm rfl rfl
    · obtain ⟨more, hmore, hiff⟩ := hrest.added
      refine ⟨edge.finish commits commitLane color lane :: more, ?_, fun line => ?_⟩
      · rw [hmore, append_assoc]
        rfl
      · rw [mem_cons, hiff]
        constructor
        · rintro (rfl | ⟨other, hmem, found, hfnd, rfl⟩)
          · exact ⟨lane, mem_cons_self, edge, hedge, rfl⟩
          · exact ⟨other, mem_cons_of_mem lane hmem, found, (hkept _ hmem).symm.trans hfnd, rfl⟩
        · rintro ⟨other, hmem, found, hfnd, rfl⟩
          obtain rfl | hmem := mem_cons.mp hmem
          · rw [hedge] at hfnd
            cases hfnd
            exact .inl rfl
          · exact .inr ⟨other, hmem, found, (hkept _ hmem).trans hfnd, rfl⟩

theorem getElem?_snoc_of_some {α : Type} {l : List α} {i : Nat} {x : α} (h : l[i]? = some x) (y : α) : (l ++ [y])[i]? = some x := by
  rw [List.getElem?_append_left (List.getElem?_eq_some_iff.mp h).1]
  exact h

theorem getElem?_snoc {α : Type} {l : List α} {i : Nat} {x y : α} (h : (l ++ [y])[i]? = some x) :
    l[i]? = some x ∨ i = l.length ∧ x = y := by
  rcases Nat.lt_or_ge i _ with hlt | hge
  · rw [List.getElem?_append_left hlt] at h
    exact .inl h
  · rw [List.getElem?_append_right hge] at h
    have hzero : i - l.length < [y].length := (List.getElem?_eq_some_iff.mp h).1
    rw [length_singleton] at hzero
    have hi : i = l.length := by omega
    rw [hi, Nat.sub_self] at h
    cases h
    exact .inr ⟨hi, rfl⟩

/-- An edge still waits after another commit in another lane. -/
theorem Waiting.snoc {commits : List (CommitEntry Oid)} {lane : Nat} {edge : ActiveLane Oid} (h : Waiting commits lane edge)
    {entry : CommitEntry Oid} (hlane : entry.lane ≠ lane) (hsha : entry.data.sha ≠ edge.parent) :
    Waiting (commits ++ [entry]) lane edge := by
  obtain ⟨child, hchd, hst⟩ := h.start
  refine ⟨⟨child, getElem?_snoc_of_some hchd _, hst⟩, h.destination, h.shape, fun row between hrow hbetw => ?_, fun other hoth => ?_⟩
  · obtain hbetw | ⟨-, rfl⟩ := getElem?_snoc hbetw
    · exact h.alone row _ hrow hbetw
    · exact hlane
  · obtain hoth | hoth := mem_append.mp hoth
    · exact h.missing _ hoth
    · rw [mem_singleton.mp hoth]
      exact hsha

theorem Completed.endRow_lt {commits : List (CommitEntry Oid)} {line : CommitLine Oid} (h : Completed commits line) :
    line.endRow < commits.length := by
  obtain ⟨parent, hpar, -⟩ := h.finish
  exact (List.getElem?_eq_some_iff.mp hpar).1

/-- Later commits do not come between the ends of a line. -/
theorem Completed.snoc {commits : List (CommitEntry Oid)} {line : CommitLine Oid} (h : Completed commits line)
    (entry : CommitEntry Oid) : Completed (commits ++ [entry]) line := by
  obtain ⟨child, hchd, hst⟩ := h.start
  obtain ⟨parent, hpar, hsha, column, hdra, halo⟩ := h.finish
  refine ⟨⟨child, getElem?_snoc_of_some hchd _, hst⟩,
    ⟨parent, getElem?_snoc_of_some hpar _, hsha, column, hdra, fun row between hins hbetw => ?_⟩⟩
  obtain hbetw | ⟨rfl, -⟩ := getElem?_snoc hbetw
  · exact halo row _ hins hbetw
  · exact absurd (Nat.lt_trans hins.2 h.endRow_lt) (Nat.lt_irrefl _)

/-- An edge to the commit that comes becomes a line to it. -/
theorem Waiting.completed {commits : List (CommitEntry Oid)} {lane : Nat} {edge : ActiveLane Oid} (h : Waiting commits lane edge)
    (hlane : lane < usizeMax) {entry : CommitEntry Oid} (hpar : edge.parent = entry.data.sha) (color : UInt8) :
    Completed (commits ++ [entry]) (edge.finish commits entry.lane color lane) := by
  obtain ⟨hkey, hst, hcol, hend⟩ := edge.finish_spec _ _ _ lane
  obtain ⟨hchd', hpar'⟩ := Prod.mk.inj hkey
  obtain ⟨child, hchd, hsha, hsta, hmem⟩ := h.start
  obtain ⟨column, hdra, halo, -⟩ := h.drawn hlane _ _
  refine ⟨⟨child, ?_, hsha.trans hchd'.symm, hsta.trans hcol.symm, ?_⟩, ⟨entry, ?_, hpar.symm.trans hpar'.symm, column, ?_,
    fun row between hins hbetw => ?_⟩⟩
  · rw [hst]
    exact getElem?_snoc_of_some hchd _
  · rw [hpar']
    exact hmem
  · rw [hend, List.getElem?_append_right le_rfl, Nat.sub_self]
    rfl
  · rw [hst, hcol]
    exact hdra
  · obtain ⟨hlow, hhigh⟩ := hins
    rw [hst] at hlow
    obtain hbetw | ⟨rfl, -⟩ := getElem?_snoc hbetw
    · exact halo row _ hlow hbetw
    · exact absurd hhigh (Nat.lt_irrefl _)

section

variable {commits : List (CommitEntry Oid)} {laneStates : List (LaneState Oid)} {parentToLanes : Oid → List Nat}
  {lines : List (CommitLine Oid)}

/-- When a commit comes, the edges to it become lines, and the others stay. -/
theorem Consistent.finished (h : Consistent commits laneStates parentToLanes lines []) (sha : Oid) (lane : Nat) (color : UInt8) :
    Finished commits lane color laneStates lines (parentToLanes sha)
      ((parentToLanes sha).foldl (finishLane commits lane color) (laneStates, lines)) := by
  refine Wu.GitUi.finished _ lane _ _ (h.nodup sha) fun waiting hmem => ?_
  obtain ⟨edge, hedge, -⟩ := (h.mapped _ sha).mp hmem
  exact ⟨edge, hedge⟩

/-- The edges that stay are those to other parents. -/
theorem Consistent.left_iff (h : Consistent commits laneStates parentToLanes lines []) {sha : Oid} {lane : Nat} {color : UInt8}
    {result : List (LaneState Oid) × List (CommitLine Oid)}
    (hfin : Finished commits lane color laneStates lines (parentToLanes sha) result) (column : Nat) (edge : ActiveLane Oid) :
    activeAt result.1 column = some edge ↔ activeAt laneStates column = some edge ∧ edge.parent ≠ sha := by
  rw [hfin.active]
  by_cases hmem : column ∈ parentToLanes sha
  · rw [if_pos hmem]
    obtain ⟨found, hfnd, hpar⟩ := (h.mapped _ sha).mp hmem
    refine iff_of_false (fun hnone => by cases hnone) fun ⟨hedge, hne⟩ => hne ?_
    rw [hfnd] at hedge
    cases hedge
    exact hpar
  · rw [if_neg hmem]
    exact (and_iff_left_of_imp fun hedge hpar => hmem ((h.mapped _ sha).mpr ⟨edge, hedge, hpar⟩)).symm

theorem Consistent.arrived [DecidableEq Oid] (h : Consistent commits laneStates parentToLanes lines []) {entry : CommitEntry Oid}
    (hlane : ∀ edge, activeAt laneStates entry.lane = some edge → edge.parent = entry.data.sha)
    (hlen : laneStates.length ≤ usizeMax) {color : UInt8} {result : List (LaneState Oid) × List (CommitLine Oid)}
    (hfin : Finished commits entry.lane color laneStates lines (parentToLanes entry.data.sha) result) :
    Consistent (commits ++ [entry]) result.1 (Function.update parentToLanes entry.data.sha []) result.2 entry.keys := by
  have hleft := h.left_iff hfin
  obtain ⟨more, hmore, hadd⟩ := hfin.added
  refine ⟨fun lane parent => ?_, fun parent => ?_, fun lane edge hedge => ?_, ?_, fun line hline => ?_,
    fun lane edge hedge line hline row hins hrun => ?_⟩
  · by_cases hpar : parent = entry.data.sha
    · rw [hpar, update_self]
      exact iff_of_false not_mem_nil fun ⟨edge, hedge, heq⟩ => ((hleft lane edge).mp hedge).2 heq
    · rw [update_of_ne hpar, h.mapped]
      refine exists_congr fun edge => ?_
      rw [hleft, and_assoc]
      refine and_congr_right fun _ => (and_iff_right_of_imp fun heq => ?_).symm
      rw [heq]
      exact hpar
  · by_cases hpar : parent = entry.data.sha
    · rw [hpar, update_self]
      exact nodup_nil
    · rw [update_of_ne hpar]
      exact h.nodup _
  · obtain ⟨hold, hne⟩ := (hleft lane edge).mp hedge
    exact (h.waiting lane edge hold).snoc (fun heq => hne (hlane edge (heq ▸ hold))) hne.symm
  · rw [flatMap_append, flatMap_singleton]
    refine List.Perm.append_right _ (hfin.keys.trans ?_)
    have hkeys := h.keys
    rw [append_nil] at hkeys
    exact hkeys
  · rw [hmore, mem_append] at hline
    obtain hline | hline := hline
    · exact (h.completed line hline).snoc _
    · obtain ⟨lane, hmem, edge, hedge, rfl⟩ := (hadd line).mp hline
      obtain ⟨found, hfnd, hpar⟩ := (h.mapped lane _).mp hmem
      rw [hedge] at hfnd
      cases hfnd
      exact (h.waiting lane edge hedge).completed (Nat.lt_of_lt_of_le (lt_of_activeAt hedge) hlen) hpar _
  · obtain ⟨hold, hne⟩ := (hleft lane edge).mp hedge
    rw [hmore, mem_append] at hline
    obtain hline | hline := hline
    · exact h.before lane edge hold line hline row hins hrun
    -- A new line runs straight in a lane that waited for the commit, or in the lane of the commit.
    · obtain ⟨other, hmem, finishing, hfini, rfl⟩ := (hadd line).mp hline
      obtain ⟨-, hst, hcol, -⟩ := finishing.finish_spec _ _ _ _
      obtain ⟨column, hdra, -, hcase⟩ := (h.waiting _ _ hfini).drawn (Nat.lt_of_lt_of_le (lt_of_activeAt hfini) hlen) _ _
      rw [CommitLine.RunsStraight, hst, hcol] at hrun
      obtain ⟨rfl, -⟩ := hdra.of_runsStraight hrun
      obtain rfl | ⟨rfl, -⟩ := hcase
      · obtain ⟨found, hfnd, hpar⟩ := (h.mapped lane _).mp hmem
        rw [hold] at hfnd
        cases hfnd
        exact absurd hpar hne
      · exact absurd (hlane edge hold) hne

end

/-! ## Adding a commit -/

/-- The lane of a commit waits for it, or nothing holds it. -/
theorem GraphData.commitLane_spec {self : GraphData Oid}
    (h : Consistent self.commits self.laneStates self.parentToLanes self.lines []) (sha : Oid) :
    (self.commitLane sha).1 < (self.commitLane sha).2.length ∧
      (∀ edge, activeAt (self.commitLane sha).2 (self.commitLane sha).1 = some edge → edge.parent = sha) ∧
      (∀ lane, activeAt (self.commitLane sha).2 lane = activeAt self.laneStates lane) ∧
      activeKeys (self.commitLane sha).2 = activeKeys self.laneStates ∧
      (self.commitLane sha).2.length ≤ self.laneStates.length + 1 := by
  rw [commitLane]
  cases hmin : (self.parentToLanes sha).min? with
  | some lane =>
    obtain ⟨edge, hedge, hpar⟩ := (h.mapped lane sha).mp (List.min?_mem hmin)
    refine ⟨lt_of_activeAt hedge, fun found hfnd => ?_, fun _ => rfl, rfl, Nat.le_succ _⟩
    have hsame : some edge = some found := hedge.symm.trans hfnd
    cases hsame
    exact hpar
  | none =>
    obtain ⟨hlt, hemp, hact, hlane⟩ := firstEmptyLaneIdx_spec _
    refine ⟨hlt, fun edge hedge => ?_, hact, activeKeys_firstEmptyLaneIdx _, ?_⟩
    · exact absurd (hemp.symm.trans hedge) (by simp)
    · obtain heq | heq := hlane
      · rw [heq]
        exact Nat.le_succ _
      · rw [heq, length_append]
        exact le_rfl

/-- A bound of the number of lanes: one for each commit and each parent. -/
def room (commits : List (InitialGraphCommitData Oid)) : Nat := (commits.map fun commit => commit.parents.length + 1).sum

theorem room_append (commits more : List (InitialGraphCommitData Oid)) : room (commits ++ more) = room commits + room more := by
  rw [room, map_append, sum_append_nat]
  rfl

theorem length_le_room (commits : List (InitialGraphCommitData Oid)) : commits.length ≤ room commits := by
  induction commits with
  | nil => exact le_rfl
  | cons commit commits ih =>
    rw [room, map_cons, sum_cons, length_cons]
    rw [room] at ih
    omega

namespace GraphData

/-- The commits that were added. -/
def added (self : GraphData Oid) : List (InitialGraphCommitData Oid) := self.commits.map CommitEntry.data

/-- What holds of a graph after each commit. -/
structure Holds (graph : GraphData Oid) : Prop where
  consistent : Consistent graph.commits graph.laneStates graph.parentToLanes graph.lines []
  length : graph.laneStates.length ≤ room graph.added

theorem holds_new (accentColorsCount : Nat) : (new accentColorsCount : GraphData Oid).Holds where
  consistent := {
    mapped := fun _ _ => iff_of_false not_mem_nil fun ⟨_, h, _⟩ => by cases h
    nodup := fun _ => nodup_nil
    waiting := fun _ _ h => by cases h
    keys := .rfl
    completed := fun _ h => by cases h
    before := fun _ _ h => by cases h }
  length := le_rfl

/-- The lanes before a commit are those in which its lane was looked for. -/
theorem Holds.found {self : GraphData Oid} (h : self.Holds) (sha : Oid) :
    Consistent self.commits (self.commitLane sha).2 self.parentToLanes self.lines [] := by
  obtain ⟨-, -, hact, hkeys, -⟩ := commitLane_spec h.consistent sha
  exact h.consistent.congr hact hkeys

/-- The lanes and the lines after the edges to a commit have become lines. -/
def arrival (self : GraphData Oid) (commit : InitialGraphCommitData Oid) : List (LaneState Oid) × List (CommitLine Oid) :=
  (self.parentToLanes commit.sha).foldl
    (finishLane self.commits (self.commitLane commit.sha).1 (self.getLaneColor (self.commitLane commit.sha).1).1)
    ((self.commitLane commit.sha).2, self.lines)

/-- The commit with its lane and its color. -/
def entryOf (self : GraphData Oid) (commit : InitialGraphCommitData Oid) : CommitEntry Oid :=
  ⟨commit, (self.commitLane commit.sha).1, (self.getLaneColor (self.commitLane commit.sha).1).1.toNat⟩

theorem Holds.arrival {self : GraphData Oid} (h : self.Holds) (commit : InitialGraphCommitData Oid) :
    Finished self.commits (self.commitLane commit.sha).1 (self.getLaneColor (self.commitLane commit.sha).1).1
      (self.commitLane commit.sha).2 self.lines (self.parentToLanes commit.sha) (self.arrival commit) :=
  (h.found _).finished _ _ _

end GraphData

/-- Says that a commit may come after others: it is not one of them, and none of its parents has come. -/
structure Next (commits : List (InitialGraphCommitData Oid)) (commit : InitialGraphCommitData Oid) : Prop where
  missing : ∀ parent ∈ commit.parents, ∀ other ∈ commits ++ [commit], other.sha ≠ parent
  fits : room (commits ++ [commit]) ≤ usizeMax

section

variable [DecidableEq Oid]

namespace GraphData

theorem addCommit_lines (self : GraphData Oid) (commit : InitialGraphCommitData Oid) :
    (self.addCommit commit).lines = (self.arrival commit).2 := rfl

theorem addCommit_added (self : GraphData Oid) (commit : InitialGraphCommitData Oid) :
    (self.addCommit commit).added = self.added ++ [commit] := map_append ..

/-- Adding a commit keeps what holds. -/
theorem Holds.addCommit {self : GraphData Oid} (h : self.Holds) {commit : InitialGraphCommitData Oid}
    (hnext : Next self.added commit) : (self.addCommit commit).Holds := by
  obtain ⟨hlt, hlane, -, -, hlan⟩ := commitLane_spec h.consistent _
  have hfin := h.arrival commit
  have hroom : room (self.added ++ [commit]) = room self.added + (commit.parents.length + 1) := by
    rw [room_append]
    rfl
  have hfits := hnext.fits
  have hlen := h.length
  have harr := @Consistent.arrived _ _ _ _ _ _ (h.found _) (self.entryOf _) hlane (by omega) _ _ hfin
  have hemp : activeAt (self.arrival commit).1 (self.entryOf commit).lane = none := by
    refine Option.eq_none_iff_forall_ne_some.mpr fun edge hedge => ?_
    obtain ⟨hold, hne⟩ := ((h.found _).left_iff hfin _ edge).mp hedge
    exact hne (hlane edge hold)
  have hlast : LastCommit (self.commits ++ [self.entryOf commit]) commit.sha self.commits.length (self.entryOf commit).lane
      commit.parents := by
    refine ⟨length_append, ⟨self.entryOf _, ?_, rfl, rfl, List.Subset.refl _⟩, fun parent hpar other hoth => ?_⟩
    · rw [List.getElem?_append_right le_rfl, Nat.sub_self]
      rfl
    · refine hnext.missing _ hpar _ ?_
      rw [← addCommit_added]
      exact mem_map_of_mem hoth
  refine ⟨harr.addedEdges _ hlast (hfin.length ▸ hlt) hemp fun line hline => ?_, ?_⟩
  · have hend := (harr.completed line hline).endRow_lt
    rw [length_append] at hend
    exact Nat.le_of_lt_succ hend
  · rw [addCommit_added]
    refine Nat.le_trans (length_addEdges ..) ?_
    show (self.arrival _).1.length + commit.parents.length ≤ _
    rw [hfin.length]
    omega

end GraphData

end

/-! ## Adding commits -/

/-- Commits with distinct ids, each before its parents, that name no parent twice. -/
structure Ordered (commits : List (InitialGraphCommitData Oid)) : Prop where
  distinct : (commits.map InitialGraphCommitData.sha).Nodup
  parents : ∀ commit ∈ commits, commit.parents.Nodup
  before : ∀ (i j : Nat) (child parent : InitialGraphCommitData Oid), commits[i]? = some child → commits[j]? = some parent →
    parent.sha ∈ child.parents → i < j

theorem Ordered.next {commits rest : List (InitialGraphCommitData Oid)} {commit : InitialGraphCommitData Oid}
    (h : Ordered (commits ++ commit :: rest)) (hfits : room (commits ++ commit :: rest) ≤ usizeMax) : Next commits commit := by
  refine ⟨fun parent hpar other hoth heq => ?_, ?_⟩
  · obtain ⟨j, hj⟩ := mem_iff_getElem?.mp hoth
    have hlt := (List.getElem?_eq_some_iff.mp hj).1
    rw [length_append, length_singleton] at hlt
    have hcom : (commits ++ commit :: rest)[commits.length]? = some commit := by
      rw [List.getElem?_append_right le_rfl, Nat.sub_self]
      rfl
    have hoth' : (commits ++ commit :: rest)[j]? = some other := by
      rw [append_cons, List.getElem?_append_left (by rw [length_append]; exact hlt)]
      exact hj
    have hbef := h.before _ _ _ _ hcom hoth' (heq ▸ hpar)
    omega
  · rw [← singleton_append, ← append_assoc, room_append] at hfits
    omega

section

variable [DecidableEq Oid]

namespace GraphData

theorem addCommits_added (self : GraphData Oid) (commits : List (InitialGraphCommitData Oid)) :
    (self.addCommits commits).added = self.added ++ commits := by
  induction commits generalizing self with
  | nil => exact (append_nil _).symm
  | cons commit commits ih =>
    rw [addCommits, foldl_cons, ← addCommits, ih, addCommit_added, append_assoc]
    rfl

/-- Adding commits keeps what holds. -/
theorem Holds.addCommits {self : GraphData Oid} (h : self.Holds) {commits : List (InitialGraphCommitData Oid)}
    (hord : Ordered (self.added ++ commits)) (hfits : room (self.added ++ commits) ≤ usizeMax) :
    (self.addCommits commits).Holds := by
  induction commits generalizing self with
  | nil => exact h
  | cons commit commits ih =>
    have hspl : self.added ++ commit :: commits = (self.addCommit commit).added ++ commits := by
      rw [addCommit_added, append_assoc]
      rfl
    have hnext := hord.next hfits
    rw [hspl] at hord hfits
    exact ih (h.addCommit hnext) hord hfits

/-- Batches of commits are added as their commits. -/
theorem foldl_addCommits (self : GraphData Oid) (batches : List (List (InitialGraphCommitData Oid))) :
    batches.foldl GraphData.addCommits self = self.addCommits batches.flatten := by
  rw [addCommits, foldl_flatten]
  rfl

end GraphData

end

/-! ## Every edge once -/

theorem Ordered.nodup_keys {commits : List (CommitEntry Oid)} (h : Ordered (commits.map CommitEntry.data)) :
    (commits.flatMap CommitEntry.keys).Nodup := by
  refine nodup_flatMap.mpr ⟨fun entry hent => ?_, ?_⟩
  · exact (h.parents _ (mem_map_of_mem hent)).map fun _ _ heq => congrArg Prod.snd heq
  · have hdistinct := h.distinct
    rw [map_map, List.Nodup, pairwise_map] at hdistinct
    refine hdistinct.imp fun hne => disjoint_left.mpr fun key hkey hkey' => hne ?_
    obtain ⟨_, _, rfl⟩ := mem_map.mp hkey
    obtain ⟨_, _, heq⟩ := mem_map.mp hkey'
    exact (congrArg Prod.fst heq).symm

/-- Says that a line is drawn from a commit to its parent, and through no other commit. -/
structure Joins (commits : List (CommitEntry Oid)) (line : CommitLine Oid) : Prop where
  start : ∃ entry, commits[line.startRow]? = some entry ∧ entry.data.sha = line.child ∧ entry.lane = line.childColumn
  finish : ∃ entry, commits[line.endRow]? = some entry ∧ entry.data.sha = line.parent ∧
    entry.lane = endColumn line.childColumn line.segments ∧
    line.segments.getLast?.map CommitLineSegment.endRow = some line.endRow
  ascending : (line.segments.map CommitLineSegment.endRow).Pairwise (· ≤ ·)
  within : ∀ segment ∈ line.segments, line.startRow ≤ segment.endRow ∧ segment.endRow ≤ line.endRow ∧ segment.endRow ≠ usizeMax
  clear : ∀ (row column : Nat) (entry : CommitEntry Oid), line.RunsStraight row column → commits[row]? = some entry →
    entry.lane = column → row = line.startRow ∨ row = line.endRow
  visible : ∀ row, line.startRow ≤ row → row ≤ line.endRow →
    ∃ idx column, line.getFirstVisibleSegmentIdx row = some (idx, column) ∧ line.FirstReaching row idx column

/-- The segment that a view starts with is the first one that reaches its row. -/
theorem Drawn.visible {line : CommitLine Oid} {lastColumn column : Nat}
    (h : Drawn line.startRow line.childColumn line.endRow lastColumn column line.segments) {row : Nat}
    (hend : row ≤ line.endRow) :
    ∃ idx column, line.getFirstVisibleSegmentIdx row = some (idx, column) ∧ line.FirstReaching row idx column := by
  have hnotA : ¬ row > line.endRow := Nat.not_lt.mpr hend
  obtain ⟨last, hlast, hlastR⟩ := Option.map_eq_some_iff.mp h.getLast_endRow
  rw [CommitLine.getFirstVisibleSegmentIdx, if_neg hnotA]
  by_cases hfst : row ≤ line.startRow
  · rw [if_pos hfst]
    have hne : 0 < line.segments.length := length_pos_of_mem (List.mem_of_getLast? hlast)
    refine ⟨0, line.childColumn, rfl, ⟨line.segments[0], List.getElem?_eq_getElem hne, ?_⟩,
      fun j _ hj => absurd hj (Nat.not_lt_zero j), rfl⟩
    exact Nat.le_trans hfst (h.endRow_le _ (getElem_mem hne)).1
  · rw [if_neg hfst]
    obtain ⟨i, hvis, hrea, hbef⟩ := firstVisible_spec ⟨last, List.mem_of_getLast? hlast, hlastR ▸ hend⟩ 0 _
    rw [Nat.zero_add] at hvis
    exact ⟨i, _, hvis, hrea, hbef, rfl⟩

theorem Completed.joins {commits : List (CommitEntry Oid)} {line : CommitLine Oid} (h : Completed commits line)
    (hfits : commits.length ≤ usizeMax) : Joins commits line := by
  obtain ⟨child, hchd, hsha, hlane, -⟩ := h.start
  obtain ⟨parent, hpar, hsha', column, hdra, halo⟩ := h.finish
  have hend := h.endRow_lt
  refine ⟨⟨child, hchd, hsha, hlane⟩, ⟨parent, hpar, hsha', hdra.endColumn_eq.symm, hdra.getLast_endRow⟩,
    hdra.endRow_pairwise, fun segment hseg => ?_, fun row column entry hrun hent heq => ?_, fun row _ => hdra.visible⟩
  · obtain ⟨hlow, hhigh⟩ := hdra.endRow_le _ hseg
    exact ⟨hlow, hhigh, by omega⟩
  · obtain ⟨rfl, hlow, hhigh⟩ := hdra.of_runsStraight hrun
    by_contra hends
    have hins : line.Inside row := ⟨by omega, by omega⟩
    exact halo row _ hins hent heq

section

variable [DecidableEq Oid]

/-- Says that there is a line for each edge between commits, and no other. -/
structure DrawsEdges (commits : List (InitialGraphCommitData Oid)) (graph : GraphData Oid) : Prop where
  added : graph.added = commits
  once : ∀ child ∈ commits, ∀ parent ∈ commits, parent.sha ∈ child.parents →
    graph.lines.countP (fun line => decide (line.child = child.sha ∧ line.parent = parent.sha)) = 1
  only : ∀ line ∈ graph.lines, ∃ child ∈ commits, ∃ parent ∈ commits,
    line.child = child.sha ∧ line.parent = parent.sha ∧ parent.sha ∈ child.parents
  joins : ∀ line ∈ graph.lines, Joins graph.commits line

theorem GraphData.Holds.drawsEdges {graph : GraphData Oid} (h : graph.Holds) (hord : Ordered graph.added)
    (hfits : room graph.added ≤ usizeMax) : DrawsEdges graph.added graph := by
  refine ⟨rfl, fun child hchd parent hpar hmem => ?_, fun line hline => ?_, fun line hline => ?_⟩
  · obtain ⟨entry, hent, rfl⟩ := mem_map.mp hchd
    obtain ⟨parentEntry, hparE, rfl⟩ := mem_map.mp hpar
    have hkeys := h.consistent.keys
    rw [append_nil] at hkeys
    have hone : (graph.commits.flatMap CommitEntry.keys).count (entry.data.sha, parentEntry.data.sha) = 1 :=
      count_eq_one_of_mem hord.nodup_keys (mem_flatMap.mpr ⟨entry, hent, mem_map_of_mem hmem⟩)
    have hzero : (activeKeys graph.laneStates).count (entry.data.sha, parentEntry.data.sha) = 0 := by
      refine count_eq_zero.mpr fun hact => ?_
      obtain ⟨state, hsta, hkey⟩ := mem_filterMap.mp hact
      obtain ⟨edge, hedge, heq⟩ := Option.map_eq_some_iff.mp hkey
      obtain ⟨lane, hlane⟩ := mem_iff_getElem?.mp hsta
      have hwait := h.consistent.waiting lane edge (by rw [activeAt, hlane]; exact hedge)
      exact hwait.missing _ hparE (congrArg Prod.snd heq).symm
    rw [← hkeys.count_eq, count_append, hzero, List.count, countP_map] at hone
    rw [← hone]
    refine countP_congr fun line _ => ?_
    simp [CommitLine.key]
  · obtain ⟨entry, hent, hsha, -, hmem⟩ := (h.consistent.completed line hline).start
    obtain ⟨parentEntry, hparE, hsha', -⟩ := (h.consistent.completed line hline).finish
    exact ⟨entry.data, mem_map_of_mem (mem_of_getElem? hent), parentEntry.data,
      mem_map_of_mem (mem_of_getElem? hparE), hsha.symm, hsha'.symm, hsha' ▸ hmem⟩
  · refine (h.consistent.completed line hline).joins (Nat.le_trans ?_ hfits)
    have hlen : graph.added.length = graph.commits.length := length_map _
    exact hlen ▸ length_le_room _

/-- However commits are cut into batches, the graph draws each edge between them once, from the child to the parent. -/
theorem addCommits_drawsEdges (accentColorsCount : Nat) (batches : List (List (InitialGraphCommitData Oid)))
    (hordered : Ordered batches.flatten) (hfits : room batches.flatten ≤ usizeMax) :
    let graph := batches.foldl GraphData.addCommits (GraphData.new accentColorsCount)
    let atOnce := (GraphData.new accentColorsCount).addCommits batches.flatten
    (graph.commits = atOnce.commits ∧ graph.lines = atOnce.lines) ∧ DrawsEdges batches.flatten graph := by
  have hbatches := foldl_addCommits (GraphData.new accentColorsCount) batches
  dsimp only
  rw [hbatches]
  refine ⟨⟨rfl, rfl⟩, ?_⟩
  have hadded : ((GraphData.new accentColorsCount).addCommits batches.flatten).added = batches.flatten :=
    addCommits_added _ _
  have hholds : ((GraphData.new accentColorsCount).addCommits batches.flatten).Holds :=
    (holds_new accentColorsCount).addCommits hordered hfits
  have hdraws := hholds.drawsEdges (hadded.symm ▸ hordered) (hadded.symm ▸ hfits)
  rw [hadded] at hdraws
  exact hdraws

end

/-- A merge of a branch: three commits in two batches make three lines. -/
theorem addCommits_drawsEdges_merge :
    let batches : List (List (InitialGraphCommitData Nat)) := [[⟨0, [1, 2]⟩], [⟨1, [2]⟩, ⟨2, []⟩]]
    let graph := batches.foldl GraphData.addCommits (GraphData.new 8)
    graph.lines.length = 3 ∧ DrawsEdges batches.flatten graph := by
  have hbefore : ∀ i < 3, ∀ j < 3, ∀ child ∈ [(⟨0, [1, 2]⟩ : InitialGraphCommitData Nat), ⟨1, [2]⟩, ⟨2, []⟩][i]?,
      ∀ parent ∈ [(⟨0, [1, 2]⟩ : InitialGraphCommitData Nat), ⟨1, [2]⟩, ⟨2, []⟩][j]?, parent.sha ∈ child.parents → i < j := by
    decide
  refine ⟨by decide, (addCommits_drawsEdges 8 [[⟨0, [1, 2]⟩], [⟨1, [2]⟩, ⟨2, []⟩]] ⟨by decide, by decide, ?_⟩ (by decide)).2⟩
  intro i j child parent hchild hparent hmem
  exact hbefore i (List.getElem?_eq_some_iff.mp hchild).1 j (List.getElem?_eq_some_iff.mp hparent).1 child hchild parent hparent hmem

end Wu.GitUi
