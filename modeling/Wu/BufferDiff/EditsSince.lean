import Wu.BufferDiff.Points

/-!
# The edits of a buffer since a version

`edits_since` walks over the fragments of a buffer and compares what was visible in a version with what is visible now. The range
is the whole buffer, so the bounds of the walk play no part.
-/

namespace Wu.BufferDiff

open RowColumn

open Positions (Range Gaps Built Apart)

/-- A fragment of a buffer, as seen from an earlier version. The walk stops at the fragments that the version has not observed
all of; the others are as visible as they were. -/
structure SinceFragment where
  text : Bytes
  wasVisible : Bool
  visible : Bool
  changed : Bool
  same : changed = false → wasVisible = visible

/-- The text that was visible in the version. -/
def oldText (fragments : List SinceFragment) : Bytes :=
  fragments.flatMap fun fragment => if fragment.wasVisible then fragment.text else []

/-- The text that is visible now. -/
def newText (fragments : List SinceFragment) : Bytes :=
  fragments.flatMap fun fragment => if fragment.visible then fragment.text else []

/-- The walk: where it is in both texts, the visible text between the cursor of the visible text and the fragment, and the edit
that may still grow. -/
structure Edits where
  oldEnd : Point
  newEnd : Point
  unseen : Bytes
  pendingEdit : Option (Positions.Edit Point)

namespace Edits

/-- The ends move over the visible text before the fragment. -/
def catchUp (self : Edits) : Edits :=
  if self.unseen = [] then self
  else { self with oldEnd := self.oldEnd + maxPoint self.unseen, newEnd := self.newEnd + maxPoint self.unseen, unseen := [] }

/-- A fragment at the ends. -/
def visit (self : Edits) (fragment : SinceFragment) : Edits :=
  if !fragment.wasVisible && fragment.visible then
    let newEnd := self.newEnd + maxPoint fragment.text
    let edit := match self.pendingEdit with
      | some edit => { edit with new := { edit.new with stop := newEnd } }
      | none => ⟨⟨self.oldEnd, self.oldEnd⟩, ⟨self.newEnd, newEnd⟩⟩
    { self with newEnd := newEnd, pendingEdit := some edit }
  else if fragment.wasVisible && !fragment.visible then
    let oldEnd := self.oldEnd + maxPoint fragment.text
    let edit := match self.pendingEdit with
      | some edit => { edit with old := { edit.old with stop := oldEnd } }
      | none => ⟨⟨self.oldEnd, oldEnd⟩, ⟨self.newEnd, self.newEnd⟩⟩
    { self with oldEnd := oldEnd, pendingEdit := some edit }
  else if fragment.visible then { self with unseen := self.unseen ++ fragment.text }
  else self

/-- The edits from a fragment on. The edit that may still grow is over when visible text lies behind it. -/
def collect (self : Edits) : List SinceFragment → List (Positions.Edit Point)
  | [] => self.pendingEdit.toList
  | fragment :: fragments =>
    if fragment.changed then
      let s := self.catchUp
      match s.pendingEdit with
      | some edit =>
        if edit.new.stop < s.newEnd then edit :: (visit { s with pendingEdit := none } fragment).collect fragments
        else (s.visit fragment).collect fragments
      | none => (s.visit fragment).collect fragments
    else
      { self with unseen := self.unseen ++ if fragment.visible then fragment.text else [] }.collect fragments

end Edits

/-- The edits since the version. -/
def editsSince (fragments : List SinceFragment) : List (Positions.Edit Point) :=
  Edits.collect ⟨RowColumn.zero, RowColumn.zero, [], none⟩ fragments

/-! ### The edits are a patch -/

namespace Edits

/-- The edit that may still grow ends where the walk is. -/
structure Ready (s : Edits) : Prop where
  old_le : ∀ edit ∈ s.pendingEdit, edit.old.start ≤ edit.old.stop
  new_le : ∀ edit ∈ s.pendingEdit, edit.new.start ≤ edit.new.stop
  old_stop : ∀ edit ∈ s.pendingEdit, edit.old.stop = s.oldEnd
  new_stop : ∀ edit ∈ s.pendingEdit, edit.new.stop = s.newEnd

/-- Where the edits that are still to come start in the old text. -/
def oldStart (self : Edits) : Point := match self.pendingEdit with
  | some edit => edit.old.start
  | none => self.oldEnd

/-- Where the edits that are still to come start in the new text. -/
def newStart (self : Edits) : Point := match self.pendingEdit with
  | some edit => edit.new.start
  | none => self.newEnd

variable {self : Edits} {fragment : SinceFragment} {fragments : List SinceFragment}

theorem oldText_cons (fragment : SinceFragment) (fragments : List SinceFragment) :
    oldText (fragment :: fragments) = (if fragment.wasVisible then fragment.text else []) ++ oldText fragments := rfl

theorem newText_cons (fragment : SinceFragment) (fragments : List SinceFragment) :
    newText (fragment :: fragments) = (if fragment.visible then fragment.text else []) ++ newText fragments := rfl

/-- The walk goes on in the new text. -/
theorem Ready.visit_added (h : self.Ready) (hwas : fragment.wasVisible = false) (hvis : fragment.visible = true) :
    (self.visit fragment).Ready ∧ (self.visit fragment).oldStart = self.oldStart ∧
      (self.visit fragment).newStart = self.newStart ∧ (self.visit fragment).unseen = self.unseen ∧
      (self.visit fragment).oldEnd = self.oldEnd ∧
      (self.visit fragment).newEnd = self.newEnd + maxPoint fragment.text := by
  have hvisi : self.visit fragment = _ := if_pos (by rw [hwas, hvis]; rfl)
  rw [hvisi]
  obtain ⟨hold, hnew, holdStop, hnewS⟩ := h
  rcases self with ⟨oldEnd, newEnd, unseen, _ | edit⟩
  · exact ⟨⟨by simp, by simp [le_add], by simp, by simp⟩, rfl, rfl, rfl, rfl, rfl⟩
  · have hle : edit.new.start ≤ newEnd + maxPoint fragment.text :=
      ((hnew edit rfl).trans (hnewS edit rfl).le).trans (le_add _ _)
    exact ⟨⟨by simpa using hold, by simpa using hle, by simpa using holdStop, by simp⟩, rfl, rfl, rfl, rfl, rfl⟩

/-- The walk goes on in the old text. -/
theorem Ready.visit_deleted (h : self.Ready) (hwas : fragment.wasVisible = true) (hvis : fragment.visible = false) :
    (self.visit fragment).Ready ∧ (self.visit fragment).oldStart = self.oldStart ∧
      (self.visit fragment).newStart = self.newStart ∧ (self.visit fragment).unseen = self.unseen ∧
      (self.visit fragment).oldEnd = self.oldEnd + maxPoint fragment.text ∧
      (self.visit fragment).newEnd = self.newEnd := by
  have hvisi : self.visit fragment = _ := (if_neg (by rw [hwas]; simp)).trans (if_pos (by rw [hwas, hvis]; rfl))
  rw [hvisi]
  obtain ⟨hold, hnew, holdStop, hnewS⟩ := h
  rcases self with ⟨oldEnd, newEnd, unseen, _ | edit⟩
  · exact ⟨⟨by simp [le_add], by simp, by simp, by simp⟩, rfl, rfl, rfl, rfl, rfl⟩
  · have hle : edit.old.start ≤ oldEnd + maxPoint fragment.text :=
      ((hold edit rfl).trans (holdStop edit rfl).le).trans (le_add _ _)
    exact ⟨⟨by simpa using hle, by simpa using hnew, by simp, by simpa using hnewS⟩, rfl, rfl, rfl, rfl, rfl⟩

/-- A fragment that is as visible as it was is left for the next fragments. -/
theorem visit_same (hsame : fragment.wasVisible = fragment.visible) :
    self.visit fragment = { self with unseen := self.unseen ++ if fragment.visible then fragment.text else [] } := by
  unfold visit
  rw [hsame]
  cases fragment.visible <;> simp

/-- From where the walk is to where the texts end. -/
def ends (self : Edits) (fragments : List SinceFragment) : Point × Point :=
  (self.oldEnd + maxPoint (self.unseen ++ oldText fragments), self.newEnd + maxPoint (self.unseen ++ newText fragments))

/-- Over a fragment the walk goes on in each text by what is visible of it there. -/
theorem Ready.visit (h : self.Ready) (huns : self.unseen = []) :
    (self.visit fragment).Ready ∧ (self.visit fragment).oldStart = self.oldStart ∧ (self.visit fragment).newStart = self.newStart ∧
      (self.visit fragment).ends fragments = self.ends (fragment :: fragments) := by
  unfold ends
  rw [oldText_cons, newText_cons]
  cases hwas : fragment.wasVisible <;> cases hvis : fragment.visible
  case false.true =>
    obtain ⟨hready, hold, hnew, hskip, holdEnd, hnewE⟩ := h.visit_added hwas hvis
    exact ⟨hready, hold, hnew, by simp [hskip, huns, holdEnd, hnewE, add_assoc]⟩
  case true.false =>
    obtain ⟨hready, hold, hnew, hskip, holdEnd, hnewE⟩ := h.visit_deleted hwas hvis
    exact ⟨hready, hold, hnew, by simp [hskip, huns, holdEnd, hnewE, add_assoc]⟩
  all_goals
    rw [visit_same (hwas.trans hvis.symm)]
    obtain ⟨hold, hnew, holdStop, hnewS⟩ := h
    exact ⟨⟨hold, hnew, holdStop, hnewS⟩, rfl, rfl, by simp [hvis]⟩

/-- Over the visible text the walk goes on as far in both texts. -/
theorem catchUp_spec (self : Edits) : self.catchUp.unseen = [] ∧ self.catchUp.pendingEdit = self.pendingEdit ∧
      self.catchUp.oldEnd = self.oldEnd + maxPoint self.unseen ∧ self.catchUp.newEnd = self.newEnd + maxPoint self.unseen := by
  unfold catchUp
  split
  · rename_i hnil
    rw [hnil]
    exact ⟨rfl, rfl, (add_zero _).symm, (add_zero _).symm⟩
  · exact ⟨rfl, rfl, rfl, rfl⟩

theorem ends_catchUp (self : Edits) (fragments : List SinceFragment) : self.catchUp.ends fragments = self.ends fragments := by
  obtain ⟨huns, -, hold, hnew⟩ := self.catchUp_spec
  simp [ends, huns, hold, hnew, add_assoc]

/-- A patch that starts further on in both texts. -/
theorem built_over {i j m n d : Point} {patch : Positions.Patch Point} (h : Built (i + d) (j + d) m n patch) : Built i j m n patch := by
  have hgap : Gaps (i + d) (j + d) i j [] :=
    ⟨le_add _ _, le_add _ _, by rw [add_sub_cancel, add_sub_cancel]⟩
  exact ⟨hgap.append h.gaps, h.apart⟩

/-- A walk without an edit that may still grow. -/
theorem ready_of_none (h : self.pendingEdit = none) : self.Ready := ⟨by simp [h], by simp [h], by simp [h], by simp [h]⟩

theorem oldStart_of_none (h : self.pendingEdit = none) : self.oldStart = self.oldEnd := by rw [oldStart, h]

theorem newStart_of_none (h : self.pendingEdit = none) : self.newStart = self.newEnd := by rw [newStart, h]

theorem oldStart_of_some {edit : Positions.Edit Point} (h : self.pendingEdit = some edit) : self.oldStart = edit.old.start := by
  rw [oldStart, h]

theorem newStart_of_some {edit : Positions.Edit Point} (h : self.pendingEdit = some edit) : self.newStart = edit.new.start := by
  rw [newStart, h]

/-- The edits of the walk are a patch, from where the edit that may still grow starts. -/
theorem Ready.built (h : self.Ready) (fragments : List SinceFragment) :
    Built self.oldStart self.newStart (self.ends fragments).1 (self.ends fragments).2 (self.collect fragments) := by
  induction fragments generalizing self with
  | nil =>
    obtain ⟨hold, hnew, holdStop, hnewS⟩ := h
    rcases self with ⟨oldEnd, newEnd, unseen, _ | edit⟩
    · refine built_over (d := maxPoint unseen) ⟨?_, .nil⟩
      simp [ends, oldText, newText, Gaps, collect, oldStart, newStart]
    · refine ⟨⟨le_rfl, le_rfl, by simp [oldStart, newStart], hold edit rfl, hnew edit rfl, ?_⟩, List.pairwise_singleton _ _⟩
      rw [holdStop edit rfl, hnewS edit rfl]
      simp [ends, oldText, newText, Gaps, le_add, add_sub_cancel]
  | cons fragment fragments ih =>
    by_cases hchd : fragment.changed = true
    · obtain ⟨huns, hpend, hold, hnew⟩ := self.catchUp_spec
      have hvis {s : Edits} (hs : s.Ready) (hs' : s.unseen = []) :
          Built s.oldStart s.newStart (s.ends (fragment :: fragments)).1 (s.ends (fragment :: fragments)).2
            ((s.visit fragment).collect fragments) := by
        obtain ⟨hready, hst, hst', hends⟩ := hs.visit hs'
        have := ih hready
        rwa [hst, hst', hends] at this
      rw [collect, if_pos hchd, ← ends_catchUp]
      cases hedit : self.pendingEdit with
      | none =>
        rw [hedit] at hpend
        have hrest := hvis (ready_of_none hpend) huns
        rw [oldStart_of_none hpend, newStart_of_none hpend, hold, hnew] at hrest
        simp only [hpend]
        rw [oldStart_of_none hedit, newStart_of_none hedit]
        exact built_over hrest
      | some edit =>
        rw [hedit] at hpend
        have hstop := h.old_stop edit hedit
        have hstop' := h.new_stop edit hedit
        simp only [hpend]
        rw [oldStart_of_some hedit, newStart_of_some hedit]
        split
        · -- visible text lies behind the edit
          rename_i hlt
          have hrest := hvis (s := { self.catchUp with pendingEdit := none }) (ready_of_none rfl) huns
          have hgap : RowColumn.zero < maxPoint self.unseen := by
            rw [hstop', hnew] at hlt
            rw [← add_lt_add_left, add_zero]
            exact hlt
          have hlat (other : Positions.Edit Point) (hoth : other ∈
              (Edits.visit { self.catchUp with pendingEdit := none } fragment).collect fragments) : edit.old.stop < other.old.start := by
            calc edit.old.stop = self.oldEnd + RowColumn.zero := by rw [hstop, add_zero]
              _ < self.catchUp.oldEnd := by rw [hold]; exact add_lt_add_left.2 hgap
              _ ≤ other.old.start := (hrest.gaps.mem hoth).1
          refine ⟨⟨le_rfl, le_rfl, by simp, h.old_le edit hedit, h.new_le edit hedit, ?_⟩, List.pairwise_cons.2 ⟨hlat, hrest.apart⟩⟩
          rw [hstop, hstop']
          exact (built_over (by rw [← hold, ← hnew]; exact hrest)).gaps
        · -- the edit goes on
          rename_i hge
          have hnone : maxPoint self.unseen = RowColumn.zero := by
            refine le_antisymm ?_ (zero_le _)
            rw [hstop', hnew, not_lt] at hge
            rwa [← add_le_add_left]
          rw [hnone] at hold hnew
          have hready : self.catchUp.Ready := by
            obtain ⟨hle, hle', -, -⟩ := h
            rw [hedit] at hle hle'
            exact ⟨by rwa [hpend], by rwa [hpend], by rw [hpend, hold]; simpa using hstop, by rw [hpend, hnew]; simpa using hstop'⟩
          have hrest := hvis hready huns
          rwa [oldStart_of_some hpend, newStart_of_some hpend] at hrest
    · have hsame := fragment.same (by simpa using hchd)
      obtain ⟨hold, hnew, holdStop, hnewS⟩ := h
      have hseen : Ready { self with unseen := self.unseen ++ if fragment.visible then fragment.text else [] } :=
        ⟨hold, hnew, holdStop, hnewS⟩
      have := ih hseen
      rw [collect, if_neg hchd]
      simp only [ends, oldText_cons, newText_cons, hsame, ← List.append_assoc]
      exact this

end Edits

/-- The edits since the version are a patch from what was visible to what is visible now. -/
theorem built_editsSince (fragments : List SinceFragment) :
    Built Position.zero Position.zero (maxPoint (oldText fragments)) (maxPoint (newText fragments)) (editsSince fragments) := by
  have hready : Edits.Ready ⟨RowColumn.zero, RowColumn.zero, [], none⟩ := Edits.ready_of_none rfl
  have h := hready.built fragments
  simp only [Edits.ends, List.nil_append, zero_add] at h
  exact h

end Wu.BufferDiff
