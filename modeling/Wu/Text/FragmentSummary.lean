import Wu.ClockLattice
import Wu.SumTree.Invariant
import Wu.Text.Snapshot

/-!
# Summaries of fragments

`FragmentSummary`, what the tree of the fragments keeps of a run of fragments, and `VersionedFullOffset`, the position among the
fragments that a version has observed. A version that has observed the largest insertion versions of a run has observed all of
it; one that has observed none of the smallest has observed nothing of it. So whole runs can be passed at once, however the tree
groups them.
-/

namespace Wu

open List Global

/-- `struct FragmentSummary`. -/
structure FragmentSummary where
  text : FragmentTextSummary
  maxId : Locator
  maxVersion : Global
  minInsertionVersion : Global
  maxInsertionVersion : Global
  deriving DecidableEq, Repr

namespace FragmentSummary

/-- `FragmentSummary::default`. -/
def zero : FragmentSummary := ⟨.zero, .min, .new, .new, .new⟩

/-- `FragmentSummary::add_summary`. -/
def addSummary (self other : FragmentSummary) : FragmentSummary where
  maxId := other.maxId
  text := ⟨self.text.visible + other.text.visible, self.text.deleted + other.text.deleted⟩
  maxVersion := self.maxVersion.join other.maxVersion
  minInsertionVersion := self.minInsertionVersion.meet other.minInsertionVersion
  maxInsertionVersion := self.maxInsertionVersion.join other.maxInsertionVersion

/-- The length of the text, visible or not. -/
def len (self : FragmentSummary) : Nat := self.text.visible + self.text.deleted

end FragmentSummary

/-- `Fragment::summary`. -/
def Fragment.summary (self : Fragment) : FragmentSummary where
  maxId := self.id
  text := FragmentTextSummary.ofFragment self
  maxVersion := (self.deletions.foldl Global.observe (Global.new.observe self.timestamp)).join self.maxUndos
  minInsertionVersion := Global.new.observe self.timestamp
  maxInsertionVersion := Global.new.observe self.timestamp

instance : Summary FragmentSummary := ⟨FragmentSummary.zero, FragmentSummary.addSummary⟩

instance : Item Fragment FragmentSummary := ⟨Fragment.summary⟩

namespace FragmentSummary

/-- `enum VersionedFullOffset`, for a version. -/
inductive VersionedFullOffset (version : Global) where
  | offset (fullOffset : Nat)
  | invalid
  deriving DecidableEq, Repr

/-- `VersionedFullOffset::add_summary`. -/
def VersionedFullOffset.add {version : Global} (self : VersionedFullOffset version) (summary : FragmentSummary) :
    VersionedFullOffset version :=
  match self with
  | offset fullOffset =>
    if version.observedAll summary.maxInsertionVersion then offset (fullOffset + summary.len)
    else if version.observedAny summary.minInsertionVersion then invalid
    else offset fullOffset
  | invalid => invalid

instance (version : Global) : Dimension (VersionedFullOffset version) FragmentSummary := ⟨.offset 0, .add⟩

/-- The summaries of a run of fragments: those of its parts added up, in any grouping. -/
inductive Grouped : List Fragment → FragmentSummary → Prop
  | zero : Grouped [] zero
  | item (fragment : Fragment) : Grouped [fragment] fragment.summary
  | add {left right : List Fragment} {a b : FragmentSummary} (hleft : Grouped left a) (hright : Grouped right b) :
      Grouped (left ++ right) (a.addSummary b)

variable {fragments : List Fragment} {summary : FragmentSummary} {version : Global}

/-! ## What a summary says of its run -/

/-- The length of a run. -/
def totalLen (fragments : List Fragment) : Nat := (fragments.map Fragment.len).sum

theorem totalLen_append (left right : List Fragment) : totalLen (left ++ right) = totalLen left + totalLen right := by
  simp [totalLen]

theorem len_summary (fragment : Fragment) : fragment.summary.len = fragment.len := by
  unfold len Fragment.summary FragmentTextSummary.ofFragment
  cases fragment.visible <;> simp

theorem Grouped.len (h : Grouped fragments summary) : summary.len = totalLen fragments := by
  induction h with
  | zero => rfl
  | item fragment => rw [len_summary]; simp [totalLen]
  | add hleft hrt ihleft ihright =>
    rw [totalLen_append, ← ihleft, ← ihright]
    simp only [FragmentSummary.len, addSummary]
    omega

theorem get_observe_new (timestamp : Lamport) (r : ReplicaId) :
    (Global.new.observe timestamp).get r = if r = timestamp.replicaId then timestamp.value else 0 := by
  rw [get_observe, get_new, Nat.zero_max]

theorem Grouped.trimmed (h : Grouped fragments summary) : summary.maxInsertionVersion.Trimmed := by
  induction h with
  | zero => exact trimmed_new
  | item fragment => exact trimmed_new.observe _
  | add hleft hrt ihleft ihright => exact ihleft.join ihright

/-- A version that has observed the largest insertion versions has observed the run. -/
theorem Grouped.observed_max_iff (h : Grouped fragments summary) : (∀ r, summary.maxInsertionVersion.get r ≤ version.get r) ↔
      ∀ fragment ∈ fragments, version.observed fragment.timestamp = true := by
  induction h with
  | zero => simp [FragmentSummary.zero]
  | item fragment =>
    simp only [Fragment.summary, get_observe_new, mem_singleton, forall_eq, observed_iff]
    constructor
    · intro hle
      simpa using hle fragment.timestamp.replicaId
    · intro hle r
      split
      · rename_i hr
        rwa [hr]
      · exact Nat.zero_le _
  | add hleft hrt ihleft ihright =>
    rw [forall_mem_append, ← ihleft, ← ihright, ← forall_and]
    simp only [addSummary, get_join, Nat.max_le]

/-- A version that has observed an entry of the smallest insertion versions has observed a fragment of the run. -/
theorem Grouped.observed_min_iff (h : Grouped fragments summary) :
    (∃ r, 0 < summary.minInsertionVersion.get r ∧ summary.minInsertionVersion.get r ≤ version.get r) ↔
      ∃ fragment ∈ fragments, 0 < fragment.timestamp.value ∧ version.observed fragment.timestamp = true := by
  induction h with
  | zero => simp [FragmentSummary.zero]
  | item fragment =>
    simp only [Fragment.summary, get_observe_new, mem_singleton, exists_eq_left, observed_iff]
    constructor
    · rintro ⟨r, hpos, hle⟩
      split at hpos
      · rename_i hr
        rw [if_pos hr, hr] at hle
        exact ⟨hpos, hle⟩
      · exact absurd hpos (lt_irrefl 0)
    · rintro ⟨hpos, hle⟩
      exact ⟨fragment.timestamp.replicaId, by rwa [if_pos rfl], by rwa [if_pos rfl]⟩
  | @add left right a b hleft hrt ihleft ihright =>
    have hent (r : ReplicaId) : (0 < (a.addSummary b).minInsertionVersion.get r ∧
        (a.addSummary b).minInsertionVersion.get r ≤ version.get r) ↔
        (0 < a.minInsertionVersion.get r ∧ a.minInsertionVersion.get r ≤ version.get r) ∨
          (0 < b.minInsertionVersion.get r ∧ b.minInsertionVersion.get r ≤ version.get r) := by
      rw [addSummary, get_meet]
      grind [Global.meetEntry]
    simp only [hent, exists_or, ihleft, ihright, mem_append, or_and_right]

/-! ## Passing runs -/

/-- Adding the summary of a run that has been observed whole. -/
theorem VersionedFullOffset.add_observed (h : Grouped fragments summary) (n : Nat)
    (hall : ∀ fragment ∈ fragments, version.observed fragment.timestamp = true) :
    (offset n : VersionedFullOffset version).add summary = offset (n + totalLen fragments) := by
  rw [add, if_pos (h.trimmed.observedAll_iff.mpr (h.observed_max_iff.mpr hall)), h.len]

/-- Adding the summary of a run of which nothing has been observed. -/
theorem VersionedFullOffset.add_unobserved (h : Grouped fragments summary) (n : Nat)
    (hnone : ∀ fragment ∈ fragments, version.observed fragment.timestamp = false) :
    (offset n : VersionedFullOffset version).add summary = offset n := by
  have hany : version.observedAny summary.minInsertionVersion = false := by
    rw [← Bool.not_eq_true, observedAny_iff, h.observed_min_iff]
    rintro ⟨fragment, hfrag, -, hobs⟩
    rw [hnone _ hfrag] at hobs
    nomatch hobs
  rw [add, hany]
  split
  · -- only the empty run is observed whole
    rename_i hall
    have hemp : fragments = [] := by
      refine eq_nil_iff_forall_not_mem.mpr fun fragment hfrag => ?_
      have := h.observed_max_iff.mp (h.trimmed.observedAll_iff.mp hall) _ hfrag
      rw [hnone _ hfrag] at this
      nomatch this
    rw [h.len, hemp]
    rfl
  · rfl

/-- A run that makes the position invalid has been observed in part. -/
theorem VersionedFullOffset.mixed_of_invalid (h : Grouped fragments summary) {n : Nat}
    (hinv : (offset n : VersionedFullOffset version).add summary = invalid) :
    (∃ fragment ∈ fragments, version.observed fragment.timestamp = true) ∧
      ∃ fragment ∈ fragments, version.observed fragment.timestamp = false := by
  rw [add] at hinv
  split at hinv
  · nomatch hinv
  · rename_i hall
    split at hinv
    · rename_i hany
      obtain ⟨fragment, hfrag, -, hobs⟩ := h.observed_min_iff.mp (observedAny_iff.mp hany)
      refine ⟨⟨fragment, hfrag, hobs⟩, ?_⟩
      by_contra hnone
      refine hall (h.trimmed.observedAll_iff.mpr (h.observed_max_iff.mpr fun other hoth => ?_))
      by_contra hoth'
      exact hnone ⟨other, hoth, by simpa using hoth'⟩
    · nomatch hinv

/-- What runs of fragments add up to is the sum of all of their fragments. -/
theorem grouped_sum {runs : List (List Fragment × FragmentSummary)} (h : ∀ run ∈ runs, Grouped run.1 run.2) :
    Grouped (runs.flatMap Prod.fst) (sum (runs.map Prod.snd)) := by
  induction runs using reverseRecOn with
  | nil => exact .zero
  | append_singleton runs run ih =>
    rw [flatMap_append, map_append, flatMap_singleton, map_singleton, sum_concat]
    exact .add (ih fun other hoth => h _ (by simp [hoth])) (h run (by simp))

/-- A tree groups its fragments in one of the possible ways. -/
theorem grouped_of_wf {height : Nat} {tree : SumTree Fragment FragmentSummary} (h : tree.WF height) :
    Grouped tree.toList tree.summary := by
  induction height generalizing tree with
  | zero =>
    cases tree with
    | leaf summary items itemSummaries =>
      obtain ⟨-, -, hitems, rfl⟩ := SumTree.wf_leaf.mp h
      have hruns := @grouped_sum (items.map fun fragment => ([fragment], fragment.summary)) (by
        intro run hrun
        obtain ⟨-, -, rfl⟩ := mem_map.mp hrun
        exact .item _)
      rw [flatMap_map, map_map, flatMap_singleton'] at hruns
      rw [hitems]
      exact hruns
    | internal => exact h.elim
  | succ height ih =>
    cases tree with
    | leaf => exact h.elim
    | internal height' summary childSummaries childTrees =>
      obtain ⟨-, -, -, hchn, hsum, rfl⟩ := h
      have hruns := @grouped_sum (childTrees.map fun tree => (tree.toList, tree.summary)) (by
        intro run hrun
        obtain ⟨tree, htree, rfl⟩ := mem_map.mp hrun
        exact ih (hchn tree htree).1)
      rw [flatMap_map, map_map] at hruns
      rw [SumTree.toList_internal, hsum]
      exact hruns

/-- The position behind runs of fragments: where all are observed it moves by their length, where none is it stays, and it is
invalid only when some are observed and some are not. -/
structure Passed (version : Global) (fragments : List Fragment) (start : Nat) (stop : VersionedFullOffset version) : Prop where
  all : (∀ fragment ∈ fragments, version.observed fragment.timestamp = true) → stop = .offset (start + totalLen fragments)
  none : (∀ fragment ∈ fragments, version.observed fragment.timestamp = false) → stop = .offset start
  mixed : stop = .invalid → (∃ fragment ∈ fragments, version.observed fragment.timestamp = true) ∧
    ∃ fragment ∈ fragments, version.observed fragment.timestamp = false

/-- Passing runs one after the other. -/
theorem passed_over {runs : List (List Fragment × FragmentSummary)} (h : ∀ run ∈ runs, Grouped run.1 run.2) (start : Nat) :
    Passed version (runs.flatMap Prod.fst) start
      (Dimension.over (VersionedFullOffset.offset start : VersionedFullOffset version) (runs.map Prod.snd)) := by
  induction runs generalizing start with
  | nil => exact ⟨fun _ => rfl, fun _ => rfl, nofun⟩
  | cons run runs ih =>
    have hrun := h run mem_cons_self
    have hruns : ∀ other ∈ runs, Grouped other.1 other.2 := fun other hoth => h _ (.tail _ hoth)
    rw [flatMap_cons, map_cons, Dimension.over_cons]
    cases hstep : (VersionedFullOffset.offset start : VersionedFullOffset version).add _ with
    | offset middle =>
      have hrest := ih hruns middle
      rw [show Dimension.addSummary _ run.2 = _ from hstep]
      refine ⟨fun hall => ?_, fun hnone => ?_, fun hinv => ?_⟩
      · rw [forall_mem_append] at hall
        have hmid := (VersionedFullOffset.add_observed hrun _ hall.1).symm.trans hstep
        rw [hrest.all hall.2, totalLen_append, ← VersionedFullOffset.offset.inj hmid, Nat.add_assoc]
      · rw [forall_mem_append] at hnone
        have hmid := (VersionedFullOffset.add_unobserved hrun _ hnone.1).symm.trans hstep
        rw [hrest.none hnone.2, ← VersionedFullOffset.offset.inj hmid]
      · obtain ⟨⟨fragment, hfrag, hobs⟩, other, hoth, huno⟩ := hrest.mixed hinv
        exact ⟨⟨fragment, mem_append_right _ hfrag, hobs⟩, other, mem_append_right _ hoth, huno⟩
    | invalid =>
      obtain ⟨⟨fragment, hfrag, hobs⟩, other, hoth, huno⟩ :=
        VersionedFullOffset.mixed_of_invalid hrun hstep
      have hmem := mem_append_left (runs.flatMap Prod.fst) hfrag
      have hmem' := mem_append_left (runs.flatMap Prod.fst) hoth
      refine ⟨fun hall => ?_, fun hnone => ?_, fun _ => ⟨⟨fragment, hmem, hobs⟩, other, hmem', huno⟩⟩
      · rw [hall _ hmem'] at huno
        nomatch huno
      · rw [hnone _ hmem] at hobs
        nomatch hobs

/-- The vectors that the operations build are trimmed, and for them the tests are the pointwise ones, a join is the least upper
bound and a meet the minimum without a constraint for a replica that one side has not observed. So a position among fragments that
is computed from the summaries of runs, as a tree groups them or in any other grouping, is right, or invalid for a run that has
been observed in part. -/
theorem version_vectors_form_lattice :
    (∀ a b c : Global, a.Reachable → b.Reachable → c.Reachable →
      a.Trimmed ∧ Global.Pointwise a b ∧ Global.LeastUpperBound a b c ∧ Global.UnconstrainedMinimum a b c) ∧
    (∀ height (tree : SumTree Fragment FragmentSummary), tree.WF height → Grouped tree.toList tree.summary) ∧
    ∀ (version : Global) (start : Nat) (runs : List (List Fragment × FragmentSummary)),
      (∀ run ∈ runs, Grouped run.1 run.2) →
        Passed version (runs.flatMap Prod.fst) start
          (Dimension.over (VersionedFullOffset.offset start : VersionedFullOffset version) (runs.map Prod.snd)) :=
  ⟨fun _ _ _ ha hb hc => ⟨ha.trimmed, ha.trimmed.pointwise hb.trimmed, ha.trimmed.leastUpperBound hb.trimmed hc.trimmed,
    ha.trimmed.unconstrainedMinimum hb.trimmed⟩, fun _ _ h => grouped_of_wf h, fun _ start _ h => passed_over h start⟩

end FragmentSummary

end Wu
