import Wu.GitUi.GraphRuns

/-!
# Lines that run over each other

Two lines to different parents may run straight in one column: a merge edge leaves the lane that it held and is drawn in the lane of its
parent, in which only commits were looked for, but not the lines of edges that held the lane meanwhile.
-/

namespace Wu.GitUi

open List

variable {Oid : Type}

open CommitLineSegment (straight curve)

/-- Says that no two lines to different parents run straight in one column through a row strictly inside both. -/
def NoOverlap (lines : List (CommitLine Oid)) : Prop :=
  ∀ a ∈ lines, ∀ b ∈ lines, a.parent ≠ b.parent → ∀ row column : Nat, a.Inside row → b.Inside row →
    a.RunsStraight row column → ¬ b.RunsStraight row column

/-- Says that a lane holds a merge edge to a commit that leaves the lane for that of the commit. -/
structure GraphData.Leaves (graph : GraphData Oid) (sha : Oid) (lane : Nat) (edge : ActiveLane Oid) : Prop where
  waits : lane ∈ graph.parentToLanes sha
  holds : activeAt graph.laneStates lane = some edge
  merge : edge.segments = [curve usizeMax usizeMax .merge]
  leaves : lane ≠ (graph.commitLane sha).1
  noCommits : wouldOverlap graph.commits edge.startingRow lane (graph.commitLane sha).1 = false

/-- Says that no line runs straight in the lane of a commit in a row below the start of an edge that is drawn there. -/
def GraphData.Clear (graph : GraphData Oid) (sha : Oid) : Prop :=
  ∀ (lane : Nat) (edge : ActiveLane Oid), graph.Leaves sha lane edge → ∀ line ∈ graph.lines, ∀ row, line.Inside row →
    edge.startingRow < row → ¬ line.RunsStraight row (graph.commitLane sha).1

theorem noOverlap_nil : NoOverlap ([] : List (CommitLine Oid)) := fun _ h => absurd h not_mem_nil

/-- Lines to one parent are added: they may run over the earlier ones only. -/
theorem noOverlap_append_iff {lines more : List (CommitLine Oid)} {parent : Oid} (hmore : ∀ line ∈ more, line.parent = parent)
    (hline : ∀ line ∈ lines, line.parent ≠ parent) :
    NoOverlap (lines ++ more) ↔ NoOverlap lines ∧ ∀ a ∈ lines, ∀ b ∈ more, ∀ row column : Nat, a.Inside row → b.Inside row →
      a.RunsStraight row column → ¬ b.RunsStraight row column := by
  constructor
  · refine fun h => ⟨fun a ha b hb => h a (mem_append_left more ha) b (mem_append_left more hb), fun a ha b hb => ?_⟩
    have hne : a.parent ≠ b.parent := fun heq => hline a ha (heq.trans (hmore b hb))
    exact h a (mem_append_left more ha) b (mem_append_right _ hb) hne
  · rintro ⟨hold, hnew⟩ a ha b hb hne row column hins hins' hrun hrun'
    obtain ha | ha := mem_append.mp ha
    · obtain hb | hb := mem_append.mp hb
      · exact hold a ha b hb hne row _ hins hins' hrun hrun'
      · exact hnew a ha b hb row _ hins hins' hrun hrun'
    · obtain hb | hb := mem_append.mp hb
      · exact hnew b hb a ha row _ hins' hins hrun' hrun
      · exact hne ((hmore a ha).trans (hmore b hb).symm)

namespace GraphData

variable {graph : GraphData Oid}

/-- A line that comes with a commit runs over an earlier one only when its edge leaves its lane. -/
theorem Holds.leaves_of_overlap (h : graph.Holds) {sha : Oid} {lane : Nat} {edge : ActiveLane Oid} {color : UInt8}
    (hwait : lane ∈ graph.parentToLanes sha) (hedge : activeAt graph.laneStates lane = some edge) (hlane : lane < usizeMax)
    {line : CommitLine Oid} (hline : line ∈ graph.lines) {row column : Nat} (hins : line.Inside row)
    (hst : edge.startingRow < row) (hrun : line.RunsStraight row column)
    (hruns : (edge.finish graph.commits (graph.commitLane sha).1 color lane).RunsStraight row column) :
    graph.Leaves sha lane edge ∧ column = (graph.commitLane sha).1 := by
  obtain ⟨-, hsta, hcol, -⟩ := edge.finish_spec _ _ _ lane
  obtain ⟨drawnIn, hdra, -, hcase⟩ := (h.consistent.waiting lane edge hedge).drawn hlane _ _
  rw [CommitLine.RunsStraight, hsta, hcol] at hruns
  obtain ⟨rfl, -⟩ := hdra.of_runsStraight hruns
  obtain rfl | ⟨rfl, hmer, hne, hoverlap⟩ := hcase
  -- In its own lane no line runs below the start of the edge.
  · have hbef := h.consistent.before _ edge hedge line hline row hins hrun
    omega
  · exact ⟨⟨hwait, hedge, hmer, hne, hoverlap⟩, rfl⟩

/-- A merge edge that leaves its lane runs straight in the lane of the commit. -/
theorem Leaves.runsStraight {sha : Oid} {lane : Nat} {edge : ActiveLane Oid} (h : graph.Leaves sha lane edge)
    (hwait : Waiting graph.commits lane edge) (hlane : lane < usizeMax) (color : UInt8) {row : Nat}
    (hst : edge.startingRow < row) (hend : row < graph.commits.length) :
    (edge.finish graph.commits (graph.commitLane sha).1 color lane).RunsStraight row (graph.commitLane sha).1 := by
  obtain ⟨-, hsta, hcol, -⟩ := edge.finish_spec _ _ _ lane
  have hdra := ActiveLane.drawn_merge h.merge hwait.destination (Nat.lt_trans hst hend) hlane (graph.commitLane sha).1 color
  rw [h.noCommits] at hdra
  rw [CommitLine.RunsStraight, hsta, hcol]
  exact (hdra.runsStraight_iff hst hend _).mpr rfl

section

variable [DecidableEq Oid]

/-- A commit brings overlaps exactly when its lane is not clear for the merge edges that lead to it. -/
theorem Holds.noOverlap_addCommit_iff (h : graph.Holds) {commit : InitialGraphCommitData Oid} (hnext : Next graph.added commit)
    (hfre : ∀ other ∈ graph.added, other.sha ≠ commit.sha) :
    NoOverlap (graph.addCommit commit).lines ↔ NoOverlap graph.lines ∧ graph.Clear commit.sha := by
  obtain ⟨more, hmore, hadd⟩ := (h.arrival _).added
  have hact := (commitLane_spec h.consistent commit.sha).2.2.1
  have hfits : graph.laneStates.length < usizeMax := by
    have hroom := hnext.fits
    have hlen := h.length
    rw [room_append] at hroom
    have hone : 1 ≤ room [commit] := length_le_room [commit]
    omega
  have hlane : ∀ {lane : Nat} {edge : ActiveLane Oid}, activeAt graph.laneStates lane = some edge → lane < usizeMax :=
    fun hedge => Nat.lt_trans (lt_of_activeAt hedge) hfits
  have hpar : ∀ line ∈ more, line.parent = commit.sha := by
    intro line hline
    obtain ⟨lane, hmem, edge, hedge, rfl⟩ := (hadd line).mp hline
    obtain ⟨found, hfnd, hpar⟩ := (h.consistent.mapped lane _).mp hmem
    rw [hact, hfnd] at hedge
    cases hedge
    have hkey := (edge.finish_spec graph.commits (graph.commitLane commit.sha).1
      (graph.getLaneColor (graph.commitLane commit.sha).1).1 lane).1
    exact (Prod.mk.inj hkey).2.trans hpar
  have hoth : ∀ line ∈ graph.lines, line.parent ≠ commit.sha := by
    intro line hline heq
    obtain ⟨entry, hent, hsha, -⟩ := (h.consistent.completed line hline).finish
    exact hfre _ (mem_map_of_mem (mem_of_getElem? hent)) (hsha.trans heq)
  rw [addCommit_lines, hmore, noOverlap_append_iff hpar hoth]
  refine and_congr_right fun _ => ⟨fun hnew lane edge hleav line hline row hins hst hrun => ?_,
    fun hcle a ha b hb row column hins hins' hrun hrun' => ?_⟩
  · have hend := Nat.lt_trans hins.2 (h.consistent.completed line hline).endRow_lt
    obtain ⟨-, hsta, -, -⟩ := edge.finish_spec _ _ _ lane
    refine hnew line hline _ ((hadd _).mpr ⟨lane, hleav.waits, edge, (hact lane).trans hleav.holds, rfl⟩) row _ hins
      ⟨by rw [hsta]; exact hst, by exact hend⟩ hrun ?_
    exact hleav.runsStraight (h.consistent.waiting lane edge hleav.holds) (hlane hleav.holds) _ hst hend
  · obtain ⟨lane, hmem, edge, hedge, rfl⟩ := (hadd b).mp hb
    rw [hact] at hedge
    obtain ⟨-, hsta, -⟩ := edge.finish_spec _ _ _ lane
    have hst : edge.startingRow < row := hsta ▸ hins'.1
    obtain ⟨hleav, rfl⟩ := h.leaves_of_overlap hmem hedge (hlane hedge) ha hins hst hrun hrun'
    exact hcle lane edge hleav a ha row hins hst hrun

end

end GraphData

/-! ## Runs -/

/-- What holds of every way to cut a list at an item. -/
theorem forall_cut_cons_iff {α : Type} {P : List α → α → Prop} (x : α) (l : List α) :
    (∀ (before : List α) (y : α) (after : List α), x :: l = before ++ y :: after → P before y) ↔
      P [] x ∧ ∀ (before : List α) (y : α) (after : List α), l = before ++ y :: after → P (x :: before) y := by
  refine ⟨fun h => ⟨h [] x l rfl, fun before y after hl => h _ y _ (by rw [hl, cons_append])⟩, ?_⟩
  rintro ⟨hfst, hlat⟩ before y after hl
  cases before with
  | nil =>
    cases hl
    exact hfst
  | cons z before =>
    obtain ⟨rfl, hrest⟩ := List.cons.inj hl
    exact hlat _ y _ hrest

theorem Ordered.fresh {commits rest : List (InitialGraphCommitData Oid)} {commit : InitialGraphCommitData Oid}
    (h : Ordered (commits ++ commit :: rest)) : ∀ other ∈ commits, other.sha ≠ commit.sha := by
  intro other hoth heq
  have hdistinct := h.distinct
  rw [map_append] at hdistinct
  exact (nodup_append.mp hdistinct).2.2 _ (mem_map_of_mem hoth) _ mem_cons_self heq

section

variable [DecidableEq Oid]

theorem GraphData.Holds.noOverlap_addCommits_iff {graph : GraphData Oid} (h : graph.Holds)
    {commits : List (InitialGraphCommitData Oid)} (hord : Ordered (graph.added ++ commits))
    (hfits : room (graph.added ++ commits) ≤ usizeMax) :
    NoOverlap (graph.addCommits commits).lines ↔ NoOverlap graph.lines ∧
      ∀ (before : List (InitialGraphCommitData Oid)) (commit : InitialGraphCommitData Oid) (after : List (InitialGraphCommitData Oid)),
        commits = before ++ commit :: after → (graph.addCommits before).Clear commit.sha := by
  induction commits generalizing graph with
  | nil =>
    refine (and_iff_left fun before commit after hnil => ?_).symm
    exact absurd hnil (append_ne_nil_of_right_ne_nil _ (cons_ne_nil _ _)).symm
  | cons commit commits ih =>
    have hnext := hord.next hfits
    have hfre := hord.fresh
    have hspl : graph.added ++ commit :: commits = (graph.addCommit commit).added ++ commits := by
      rw [GraphData.addCommit_added, append_assoc]
      rfl
    rw [hspl] at hord hfits
    have hrest := ih (h.addCommit hnext) hord hfits
    rw [h.noOverlap_addCommit_iff hnext hfre, and_assoc] at hrest
    refine hrest.trans (and_congr_right fun _ => ?_)
    exact (forall_cut_cons_iff (P := fun before commit => (graph.addCommits before).Clear commit.sha) _ _).symm

/-- Lines to different parents do not run over each other exactly when every commit finds its lane clear. -/
theorem addCommits_noOverlap_iff (accentColorsCount : Nat) (commits : List (InitialGraphCommitData Oid)) (hordered : Ordered commits)
    (hfits : room commits ≤ usizeMax) :
    NoOverlap ((GraphData.new accentColorsCount).addCommits commits).lines ↔
      ∀ (before : List (InitialGraphCommitData Oid)) (commit : InitialGraphCommitData Oid) (after : List (InitialGraphCommitData Oid)),
        commits = before ++ commit :: after → ((GraphData.new accentColorsCount).addCommits before).Clear commit.sha :=
  ((GraphData.holds_new accentColorsCount).noOverlap_addCommits_iff hordered hfits).trans (and_iff_right noOverlap_nil)

end

/-- Two branches that are merged twice: the second line to 5 is drawn over the line from 0 to 4. -/
def crossing : List (InitialGraphCommitData Nat) :=
  [⟨0, [1, 4, 5]⟩, ⟨1, [2]⟩, ⟨2, [3]⟩, ⟨3, [4]⟩, ⟨4, [6, 5]⟩, ⟨5, []⟩, ⟨6, []⟩]

theorem ordered_crossing : Ordered crossing := by
  have hbef : ∀ i < 7, ∀ j < 7, ∀ child ∈ crossing[i]?, ∀ parent ∈ crossing[j]?, parent.sha ∈ child.parents → i < j := by decide
  refine ⟨by decide, by decide, fun i j child parent hchd hpar => ?_⟩
  exact hbef i (List.getElem?_eq_some_iff.mp hchd).1 j (List.getElem?_eq_some_iff.mp hpar).1 _ hchd _ hpar

theorem not_noOverlap_crossing : ¬ NoOverlap ((GraphData.new 8).addCommits crossing).lines := by
  intro h
  have hline : ∃ a ∈ ((GraphData.new 8).addCommits crossing).lines, ∃ b ∈ ((GraphData.new 8).addCommits crossing).lines,
      a.parent ≠ b.parent ∧ a.Inside 2 ∧ b.Inside 2 ∧ a.RunsStraight 2 1 ∧ b.RunsStraight 2 1 := by
    decide
  obtain ⟨a, ha, b, hb, hne, hins, hins', hrun, hrun'⟩ := hline
  exact h a ha b hb hne 2 1 hins hins' hrun hrun'

theorem crossing_overlaps :
    Ordered crossing ∧ room crossing ≤ usizeMax ∧ ¬ NoOverlap ((GraphData.new 8).addCommits crossing).lines :=
  ⟨ordered_crossing, by decide, not_noOverlap_crossing⟩

theorem addCommits_noOverlap_iff_crossing :
    ∃ (before : List (InitialGraphCommitData Nat)) (commit : InitialGraphCommitData Nat) (after : List (InitialGraphCommitData Nat)),
      crossing = before ++ commit :: after ∧ ¬ ((GraphData.new 8).addCommits before).Clear commit.sha := by
  by_contra hall
  refine not_noOverlap_crossing ((addCommits_noOverlap_iff 8 crossing ordered_crossing (by decide)).mpr ?_)
  intro before commit after hcut
  by_contra hclear
  exact hall ⟨before, commit, after, hcut, hclear⟩

end Wu.GitUi
