import Wu.Worktree.Scanner
import Wu.Worktree.Mirror

/-!
# The changes between two snapshots

`build_diff` walks the entries of both snapshots side by side, but only below some roots. It never goes back, so that a root that comes
after a greater one is too late.
-/

namespace Wu.Worktree

open List Option

inductive BackgroundScannerPhase where
  | initialScan
  | eventsReceivedDuringInitialScan
  | events
  deriving DecidableEq

variable {R : Type}

/-- The loop of `merge_event_roots`, by the changed paths: the roots that are smaller come before each. -/
def mergeEventRoots : List RelPath → List EventRoot → List EventRoot
  | [], eventRoots => eventRoots
  | path :: changedPaths, eventRoots =>
    eventRoots.takeWhile (fun root => root.path < path) ++
      match eventRoots.dropWhile fun root => root.path < path with
      | [] => ⟨path, false⟩ :: mergeEventRoots changedPaths []
      | root :: eventRoots =>
        if root.path = path then root :: mergeEventRoots changedPaths eventRoots
        else ⟨path, false⟩ :: mergeEventRoots changedPaths (root :: eventRoots)

/-- Two cursors, and what has been found. -/
structure Diff (R : Type) where
  old : List (LocalEntry R)
  new : List (LocalEntry R)
  lastNewlyLoadedDirPath : Option RelPath
  changes : List (RelPath × Nat × PathChange)

namespace Diff

variable (self : Diff R)

def seek (path : RelPath) : Diff R :=
  { self with
    old := self.old.dropWhile fun entry => entry.path < path
    new := self.new.dropWhile fun entry => entry.path < path }

/-- An entry that is only in the new snapshot. -/
def added (phase : BackgroundScannerPhase) (newEntry : LocalEntry R) : RelPath × Nat × PathChange :=
  (newEntry.path, newEntry.id,
    if phase = .initialScan ∨ self.lastNewlyLoadedDirPath.any fun dir => dir.isPrefixOf newEntry.path then .loaded else .added)

variable [DecidableEq R]

/-- Entries of both snapshots with one path. -/
def both (phase : BackgroundScannerPhase) (wasRescanned : Bool) (oldEntry newEntry : LocalEntry R) : List (RelPath × Nat × PathChange) :=
  if phase = .eventsReceivedDuringInitialScan then
    (if oldEntry.id ≠ newEntry.id then [(oldEntry.path, oldEntry.id, .removed)] else []) ++
      [(newEntry.path, newEntry.id, .addedOrUpdated)]
  else if oldEntry.id ≠ newEntry.id then
    [(oldEntry.path, oldEntry.id, .removed), (newEntry.path, newEntry.id, .added)]
  else if oldEntry ≠ newEntry then
    [(newEntry.path, newEntry.id, if oldEntry.details.kind.isUnloaded then .loaded else .updated)]
  else if wasRescanned then [(newEntry.path, newEntry.id, .updated)]
  else []

/-- The last directory that was loaded, after entries with one path. -/
def newlyLoaded (phase : BackgroundScannerPhase) (oldEntry newEntry : LocalEntry R) : Option RelPath :=
  if phase ≠ .eventsReceivedDuringInitialScan ∧ oldEntry.id = newEntry.id ∧ oldEntry ≠ newEntry ∧ oldEntry.details.kind.isUnloaded
    then some newEntry.path else self.lastNewlyLoadedDirPath

/-- One turn of the loop below a root, until both cursors are past what is below it. -/
def step (phase : BackgroundScannerPhase) (root : EventRoot) : Option (Diff R) :=
  match self.old, self.new with
  | oldEntry :: old, newEntry :: new =>
    if root.path < oldEntry.path ∧ root.path < newEntry.path ∧ ¬ root.path.isPrefixOf oldEntry.path ∧
      ¬ root.path.isPrefixOf newEntry.path then none
    else if oldEntry.path < newEntry.path then
      some { self with old, changes := self.changes ++ [(oldEntry.path, oldEntry.id, .removed)] }
    else if oldEntry.path = newEntry.path then
      some
        { old, new
          lastNewlyLoadedDirPath := self.newlyLoaded phase oldEntry newEntry
          changes := self.changes ++ both phase root.wasRescanned oldEntry newEntry }
    else some { self with new, changes := self.changes ++ [self.added phase newEntry] }
  | oldEntry :: old, [] => some { self with old, changes := self.changes ++ [(oldEntry.path, oldEntry.id, .removed)] }
  | [], newEntry :: new => some { self with new, changes := self.changes ++ [self.added phase newEntry] }
  | [], [] => none

/-- Each turn takes an entry of one of the snapshots, so that there are no more of them than entries. -/
def loop (phase : BackgroundScannerPhase) (root : EventRoot) : Nat → Diff R → Diff R
  | 0, self => self
  | fuel + 1, self =>
    match self.step phase root with
    | none => self
    | some self => loop phase root fuel self

def visit (phase : BackgroundScannerPhase) (root : EventRoot) : Diff R :=
  (self.seek root.path).loop phase root ((self.seek root.path).old.length + (self.seek root.path).new.length)

end Diff

/-- `build_diff`. -/
def buildDiff [DecidableEq R] (phase : BackgroundScannerPhase) (old new : List (LocalEntry R)) (eventRoots : List EventRoot) :
    List (RelPath × Nat × PathChange) :=
  (eventRoots.foldl (fun (diff : Diff R) root => diff.visit phase root) ⟨old, new, none, []⟩).changes

/-! ### What a walk tells -/

/-- The order of the changes: a path comes twice only when one of its entries has gone and another one has come. -/
def Before (a b : RelPath × Nat × PathChange) : Prop := a.1 < b.1 ∨ a.1 = b.1 ∧ a.2.2 = .removed ∧ b.2.2 ≠ .removed

/-- A change tells of a difference between the entries of its path, or the path may be told without one. -/
def Told (mayRepeat : Prop) (old new : Option (LocalEntry R)) (change : RelPath × Nat × PathChange) : Prop :=
  if change.2.2 = .removed then ∃ oldEntry, old = some oldEntry ∧ change.2.1 = oldEntry.id ∧
    ∀ newEntry, new = some newEntry → newEntry.id ≠ oldEntry.id
  else ∃ newEntry, new = some newEntry ∧ change.2.1 = newEntry.id ∧ (old ≠ some newEntry ∨ mayRepeat)

/-- The difference between the entries of a path is told. -/
structure Lists (old new : Option (LocalEntry R)) (path : RelPath) (changes : List (RelPath × Nat × PathChange)) : Prop where
  removed : ∀ oldEntry, old = some oldEntry → (∀ newEntry, new = some newEntry → newEntry.id ≠ oldEntry.id) →
    (path, oldEntry.id, PathChange.removed) ∈ changes
  present : ∀ newEntry, new = some newEntry → old ≠ some newEntry → ∃ change, change ≠ .removed ∧ (path, newEntry.id, change) ∈ changes

variable {old new : Option (LocalEntry R)} {path : RelPath}

theorem Told.mono {mayRepeat mayRepeat' : Prop} (h : mayRepeat → mayRepeat') {change : RelPath × Nat × PathChange}
    (htold : Told mayRepeat old new change) : Told mayRepeat' old new change := by
  unfold Told at htold ⊢
  split
  · rename_i hrem
    rwa [if_pos hrem] at htold
  · rename_i hrem
    rw [if_neg hrem] at htold
    obtain ⟨newEntry, hnew, hid, hdif⟩ := htold
    exact ⟨newEntry, hnew, hid, hdif.imp_right h⟩

/-- A change is of a path that one of the snapshots has. -/
theorem Told.some {mayRepeat : Prop} {change : RelPath × Nat × PathChange} (h : Told mayRepeat old new change) :
    old.isSome ∨ new.isSome := by
  unfold Told at h
  split at h
  · obtain ⟨oldEntry, hold, -⟩ := h
    exact .inl (isSome_iff_exists.mpr ⟨oldEntry, hold⟩)
  · obtain ⟨newEntry, hnew, -⟩ := h
    exact .inr (isSome_iff_exists.mpr ⟨newEntry, hnew⟩)

theorem Lists.mono {changes changes' : List (RelPath × Nat × PathChange)} (h : Lists old new path changes)
    (hsub : ∀ change ∈ changes, change ∈ changes') : Lists old new path changes' where
  removed := fun oldEntry hold hgone => hsub _ (h.removed oldEntry hold hgone)
  present := fun newEntry hnew hdif =>
    let ⟨change, hne, hmem⟩ := h.present newEntry hnew hdif
    ⟨change, hne, hsub _ hmem⟩

theorem Lists.of_none {changes : List (RelPath × Nat × PathChange)} (hold : old = none) (hnew : new = none) :
    Lists old new path changes where
  removed := fun _ h => nomatch hold ▸ h
  present := fun _ h => nomatch hnew ▸ h

namespace Diff

def find (path : RelPath) (entries : List (LocalEntry R)) : Option (LocalEntry R) := KeyedList.find? Entry.path path entries

/-- The entries of a path are still to come. -/
def Intact (before after : Diff R) (path : RelPath) : Prop :=
  find path after.old = find path before.old ∧ find path after.new = find path before.new

/-- Both cursors are past a path. -/
def Passed (after : Diff R) (path : RelPath) : Prop := (∀ entry ∈ after.old, path < entry.path) ∧ ∀ entry ∈ after.new, path < entry.path

/-- Both lists are sorted by the paths. -/
def Ordered (self : Diff R) : Prop := KeyedList.Sorted Entry.path self.old ∧ KeyedList.Sorted Entry.path self.new

/-- A walk tells changes in order, each of which can be seen in the two snapshots, and all changes of the paths that it reaches and has
left behind. -/
structure Walked (mayRepeat reach : RelPath → Prop) (before after : Diff R) (told : List (RelPath × Nat × PathChange)) : Prop where
  changes : after.changes = before.changes ++ told
  old : after.old <:+ before.old
  new : after.new <:+ before.new
  ordered : told.Pairwise Before
  passed : ∀ change ∈ told, after.Passed change.1
  behind : ∀ path, Intact before after path ∨ after.Passed path
  right : ∀ change ∈ told, Told (mayRepeat change.1) (find change.1 before.old) (find change.1 before.new) change
  listed : ∀ path, reach path → Lists (find path before.old) (find path before.new) path told ∨ Intact before after path

variable {before middle after : Diff R} {told told' : List (RelPath × Nat × PathChange)} {mayRepeat reach : RelPath → Prop}

theorem Passed.find_none (h : after.Passed path) : find path after.old = none ∧ find path after.new = none :=
  ⟨KeyedList.find?_eq_none.mpr fun entry hmem => (h.1 entry hmem).ne', KeyedList.find?_eq_none.mpr fun entry hmem => (h.2 entry hmem).ne'⟩

theorem Ordered.of_suffix (h : before.Ordered) (hold : after.old <:+ before.old) (hnew : after.new <:+ before.new) : after.Ordered :=
  ⟨h.1.sublist hold.sublist, h.2.sublist hnew.sublist⟩

theorem Walked.refl (mayRepeat reach : RelPath → Prop) (before : Diff R) : Walked mayRepeat reach before before [] where
  changes := (append_nil _).symm
  old := suffix_refl _
  new := suffix_refl _
  ordered := List.Pairwise.nil
  passed := fun _ h => nomatch h
  behind := fun _ => .inl ⟨rfl, rfl⟩
  right := fun _ h => nomatch h
  listed := fun _ _ => .inr ⟨rfl, rfl⟩

/-- What is told next is of entries that were still to come. -/
theorem Walked.intact (h : Walked mayRepeat reach before middle told) (h' : Walked mayRepeat reach middle after told')
    {change : RelPath × Nat × PathChange} (hchg : change ∈ told') : Intact before middle change.1 := by
  refine (h.behind _).resolve_right fun hpass => ?_
  have hfnd := (h'.right _ hchg).some
  rw [hpass.find_none.1, hpass.find_none.2] at hfnd
  rcases hfnd with hfnd | hfnd <;> exact absurd hfnd Bool.false_ne_true

theorem Walked.trans (h : Walked mayRepeat reach before middle told) (h' : Walked mayRepeat reach middle after told') :
    Walked mayRepeat reach before after (told ++ told') where
  changes := by rw [h'.changes, h.changes, append_assoc]
  old := h'.old.trans h.old
  new := h'.new.trans h.new
  ordered := by
    refine pairwise_append.mpr ⟨h.ordered, h'.ordered, fun a ha b hb => .inl ?_⟩
    rcases (h'.right b hb).some with hsome | hsome <;> obtain ⟨entry, hent⟩ := isSome_iff_exists.mp hsome
    · obtain ⟨hmem, hpath⟩ := KeyedList.of_find? hent
      exact hpath ▸ (h.passed a ha).1 _ hmem
    · obtain ⟨hmem, hpath⟩ := KeyedList.of_find? hent
      exact hpath ▸ (h.passed a ha).2 _ hmem
  passed := by
    intro change hmem
    rcases mem_append.mp hmem with hmem | hmem
    · exact ⟨fun entry hent => (h.passed _ hmem).1 _ (h'.old.subset hent),
        fun entry hent => (h.passed _ hmem).2 _ (h'.new.subset hent)⟩
    · exact h'.passed _ hmem
  behind := by
    intro path
    rcases h.behind path with hintact | hpass
    · rcases h'.behind path with hintact' | hpass
      · exact .inl ⟨hintact'.1.trans hintact.1, hintact'.2.trans hintact.2⟩
      · exact .inr hpass
    · exact .inr ⟨fun entry hent => hpass.1 _ (h'.old.subset hent), fun entry hent => hpass.2 _ (h'.new.subset hent)⟩
  right := by
    intro change hmem
    rcases mem_append.mp hmem with hmem | hmem
    · exact h.right _ hmem
    · have hintact := h.intact h' hmem
      rw [← hintact.1, ← hintact.2]
      exact h'.right _ hmem
  listed := by
    intro path hrch
    rcases h.listed path hrch with hlist | hintact
    · exact .inl (hlist.mono fun _ => mem_append_left _)
    · rcases h'.listed path hrch with hlist | hintact'
      · rw [hintact.1, hintact.2] at hlist
        exact .inl (hlist.mono fun _ => mem_append_right _)
      · exact .inr ⟨hintact'.1.trans hintact.1, hintact'.2.trans hintact.2⟩

theorem Walked.mono {mayRepeat' reach' : RelPath → Prop} (h : Walked mayRepeat reach before after told)
    (hrep : ∀ path, mayRepeat path → mayRepeat' path) (hrch : ∀ path, reach' path → reach path) :
    Walked mayRepeat' reach' before after told where
  changes := h.changes
  old := h.old
  new := h.new
  ordered := h.ordered
  passed := h.passed
  behind := h.behind
  right := fun change hmem => (h.right change hmem).mono (hrep _)
  listed := fun path hpath => h.listed path (hrch path hpath)

/-- A turn that takes the entries of one path, the first one of those that are left, and tells what it must of them. -/
theorem Walked.turn (path : RelPath) (hchs : after.changes = before.changes ++ told) (hold : after.old <:+ before.old)
    (hnew : after.new <:+ before.new) (hothe : ∀ other, other ≠ path → Intact before after other) (hpass : after.Passed path)
    (hpath : ∀ change ∈ told, change.1 = path) (hord : told.Pairwise Before)
    (hrt : ∀ change ∈ told, Told (mayRepeat path) (find path before.old) (find path before.new) change)
    (hlist : Lists (find path before.old) (find path before.new) path told) : Walked mayRepeat reach before after told where
  changes := hchs
  old := hold
  new := hnew
  ordered := hord
  passed := fun change hmem => (hpath _ hmem).symm ▸ hpass
  behind := by
    intro other
    by_cases hoth : other = path
    · exact .inr (hoth ▸ hpass)
    · exact .inl (hothe _ hoth)
  right := fun change hmem => by
    rw [hpath _ hmem]
    exact hrt _ hmem
  listed := by
    intro other _
    by_cases hoth : other = path
    · exact .inl (hoth ▸ hlist)
    · exact .inr (hothe _ hoth)

/-! ### Turns and loops -/

/-- A path may be told though nothing has changed there. -/
def MayRepeat (phase : BackgroundScannerPhase) (eventRoots : List EventRoot) (path : RelPath) : Prop :=
  phase = .eventsReceivedDuringInitialScan ∨ ∃ root ∈ eventRoots, root.wasRescanned = true ∧ root.path <+: path

theorem before_pair {a b : RelPath × Nat × PathChange} (hpath : a.1 = b.1) (ha : a.2.2 = .removed) (hb : b.2.2 ≠ .removed) :
    [a, b].Pairwise Before :=
  pairwise_pair.mpr (.inr ⟨hpath, ha, hb⟩)

theorem told_removed {mayRepeat : Prop} {oldEntry : LocalEntry R} {new : Option (LocalEntry R)}
    (h : ∀ newEntry, new = some newEntry → newEntry.id ≠ oldEntry.id) :
    Told mayRepeat (some oldEntry) new (oldEntry.path, oldEntry.id, .removed) := by
  exact ⟨oldEntry, rfl, rfl, h⟩

theorem told_present {mayRepeat : Prop} {old : Option (LocalEntry R)} {newEntry : LocalEntry R} {change : PathChange}
    (hchg : change ≠ .removed) (h : old ≠ some newEntry ∨ mayRepeat) :
    Told mayRepeat old (some newEntry) (newEntry.path, newEntry.id, change) := by
  unfold Told
  rw [if_neg hchg]
  exact ⟨newEntry, rfl, rfl, h⟩

/-- An entry that only the old snapshot has. -/
theorem walked_removed {oldEntry : LocalEntry R} {entries : List (LocalEntry R)} (hs : before.Ordered)
    (hold : before.old = oldEntry :: entries) (hsmlr : ∀ newEntry ∈ before.new, oldEntry.path < newEntry.path) :
    Walked mayRepeat reach before
      { before with old := entries, changes := before.changes ++ [(oldEntry.path, oldEntry.id, .removed)] }
      [(oldEntry.path, oldEntry.id, .removed)] := by
  have hfind : find oldEntry.path before.old = some oldEntry := by
    rw [hold]
    exact KeyedList.find?_cons_self _
  have hnone : find oldEntry.path before.new = none := KeyedList.find?_eq_none.mpr fun entry hmem => (hsmlr _ hmem).ne'
  have hrt : ∀ newEntry, find oldEntry.path before.new = some newEntry → newEntry.id ≠ oldEntry.id := by
    intro newEntry hnew
    rw [hnone] at hnew
    nomatch hnew
  have hsort := hs.1
  rw [hold] at hsort
  refine Walked.turn _ rfl (hold ▸ suffix_cons _ _) (suffix_refl _) ?_ ⟨?_, hsmlr⟩ ?_ (pairwise_singleton _ _) ?_ ?_
  · intro other hoth
    refine ⟨?_, rfl⟩
    rw [hold]
    exact (KeyedList.find?_cons_of_ne (Ne.symm hoth)).symm
  · exact fun entry hmem => rel_of_pairwise_cons hsort hmem
  · intro change hmem
    rw [mem_singleton.mp hmem]
  · intro change hmem
    rw [mem_singleton.mp hmem, hfind]
    exact told_removed hrt
  · refine ⟨fun found hfnd _ => ?_, fun newEntry hnew => ?_⟩
    · rw [hfind] at hfnd
      rw [some.inj hfnd]
      exact .head _
    · rw [hnone] at hnew
      nomatch hnew

theorem added_ne_removed (self : Diff R) (phase : BackgroundScannerPhase) (newEntry : LocalEntry R) :
    (self.added phase newEntry).2.2 ≠ .removed := by
  unfold added
  split <;> exact PathChange.noConfusion

/-- An entry that only the new snapshot has. -/
theorem walked_added {newEntry : LocalEntry R} {entries : List (LocalEntry R)} (phase : BackgroundScannerPhase) (hs : before.Ordered)
    (hnew : before.new = newEntry :: entries) (hsmlr : ∀ oldEntry ∈ before.old, newEntry.path < oldEntry.path) :
    Walked mayRepeat reach before { before with new := entries, changes := before.changes ++ [before.added phase newEntry] }
      [before.added phase newEntry] := by
  have hfind : find newEntry.path before.new = some newEntry := by
    rw [hnew]
    exact KeyedList.find?_cons_self _
  have hnone : find newEntry.path before.old = none := KeyedList.find?_eq_none.mpr fun entry hmem => (hsmlr _ hmem).ne'
  have hsort := hs.2
  rw [hnew] at hsort
  refine Walked.turn _ rfl (suffix_refl _) (hnew ▸ suffix_cons _ _) ?_ ⟨hsmlr, ?_⟩ ?_ (pairwise_singleton _ _) ?_ ?_
  · intro other hoth
    refine ⟨rfl, ?_⟩
    rw [hnew]
    exact (KeyedList.find?_cons_of_ne (Ne.symm hoth)).symm
  · exact fun entry hmem => rel_of_pairwise_cons hsort hmem
  · intro change hmem
    rw [mem_singleton.mp hmem]
    rfl
  · intro change hmem
    rw [mem_singleton.mp hmem, hfind, hnone]
    exact told_present (before.added_ne_removed _ _) (.inl (some_ne_none _).symm)
  · refine ⟨fun oldEntry hold => ?_, fun found hfnd _ => ?_⟩
    · rw [hnone] at hold
      nomatch hold
    · rw [hfind] at hfnd
      rw [← some.inj hfnd]
      exact ⟨_, before.added_ne_removed _ _, .head _⟩

variable [DecidableEq R]

/-- What is told of the entries that both snapshots have at one path. -/
theorem both_spec {phase : BackgroundScannerPhase} {wasRescanned : Bool} {oldEntry newEntry : LocalEntry R} {mayRepeat : Prop}
    (hpath : oldEntry.path = newEntry.path) (hrep : phase = .eventsReceivedDuringInitialScan ∨ wasRescanned = true → mayRepeat) :
    (∀ change ∈ both phase wasRescanned oldEntry newEntry, change.1 = newEntry.path) ∧
      (both phase wasRescanned oldEntry newEntry).Pairwise Before ∧
      (∀ change ∈ both phase wasRescanned oldEntry newEntry, Told mayRepeat (some oldEntry) (some newEntry) change) ∧
      Lists (some oldEntry) (some newEntry) newEntry.path (both phase wasRescanned oldEntry newEntry) := by
  have hgone : oldEntry.id ≠ newEntry.id → ∀ found, some newEntry = some found → found.id ≠ oldEntry.id :=
    fun hid found heq => some.inj heq ▸ Ne.symm hid
  have hdif : oldEntry.id ≠ newEntry.id → some oldEntry ≠ some newEntry :=
    fun hid heq => hid (congrArg _ (some.inj heq))
  -- both are told when the ids differ
  have hpair : ∀ change : PathChange, change ≠ .removed → oldEntry.id ≠ newEntry.id →
      (∀ told ∈ [(oldEntry.path, oldEntry.id, PathChange.removed), (newEntry.path, newEntry.id, change)], told.1 = newEntry.path) ∧
        [(oldEntry.path, oldEntry.id, PathChange.removed), (newEntry.path, newEntry.id, change)].Pairwise Before ∧
        (∀ told ∈ [(oldEntry.path, oldEntry.id, PathChange.removed), (newEntry.path, newEntry.id, change)],
          Told mayRepeat (some oldEntry) (some newEntry) told) ∧
        Lists (some oldEntry) (some newEntry) newEntry.path
          [(oldEntry.path, oldEntry.id, PathChange.removed), (newEntry.path, newEntry.id, change)] := by
    intro change hchg hid
    refine ⟨?_, before_pair hpath rfl hchg, ?_, ?_, ?_⟩
    · intro told hmem
      rcases List.mem_pair.mp hmem with rfl | rfl
      · exact hpath
      · rfl
    · intro told hmem
      rcases List.mem_pair.mp hmem with rfl | rfl
      · exact told_removed (hgone hid)
      · exact told_present hchg (.inl (hdif hid))
    · intro found hfnd _
      rw [← some.inj hfnd, ← hpath]
      exact mem_cons_self
    · intro found hfnd _
      rw [← some.inj hfnd]
      exact ⟨change, hchg, .tail _ (.head _)⟩
  -- only the new one is told when the id is the same
  have hone : ∀ change : PathChange, change ≠ .removed → oldEntry.id = newEntry.id → some oldEntry ≠ some newEntry ∨ mayRepeat →
      (∀ told ∈ [(newEntry.path, newEntry.id, change)], told.1 = newEntry.path) ∧
        [(newEntry.path, newEntry.id, change)].Pairwise Before ∧
        (∀ told ∈ [(newEntry.path, newEntry.id, change)], Told mayRepeat (some oldEntry) (some newEntry) told) ∧
        Lists (some oldEntry) (some newEntry) newEntry.path [(newEntry.path, newEntry.id, change)] := by
    intro change hchg hid hor
    refine ⟨?_, pairwise_singleton _ _, ?_, ?_, ?_⟩
    · intro told hmem
      rw [mem_singleton.mp hmem]
    · intro told hmem
      rw [mem_singleton.mp hmem]
      exact told_present hchg hor
    · intro found hfnd hnot
      rw [← some.inj hfnd] at hnot
      exact absurd hid.symm (hnot _ rfl)
    · intro found hfnd _
      rw [← some.inj hfnd]
      exact ⟨change, hchg, .head _⟩
  unfold both
  split
  · rename_i hphase
    split
    · rename_i hid
      exact hpair _ PathChange.noConfusion hid
    · rename_i hid
      exact hone _ PathChange.noConfusion (not_not.mp hid) (.inr (hrep (.inl hphase)))
  · split
    · rename_i hid
      exact hpair _ PathChange.noConfusion hid
    · rename_i hid
      split
      · rename_i hne
        refine hone _ ?_ (not_not.mp hid) (.inl fun heq => hne (some.inj heq))
        split <;> exact PathChange.noConfusion
      · rename_i hne
        have heq : oldEntry = newEntry := not_not.mp hne
        split
        · rename_i hres
          exact hone _ PathChange.noConfusion (not_not.mp hid) (.inr (hrep (.inr hres)))
        · refine ⟨nofun, List.Pairwise.nil, nofun, fun found hfnd hnot => ?_, fun found hfnd hnot => ?_⟩
          · rw [← some.inj hfnd] at hnot
            exact absurd (congrArg _ heq.symm) (hnot _ rfl)
          · rw [heq] at hnot
            exact absurd hfnd hnot

/-- Both lists have only entries that are not smaller than a path. -/
def From (self : Diff R) (path : RelPath) : Prop := (∀ entry ∈ self.old, path ≤ entry.path) ∧ ∀ entry ∈ self.new, path ≤ entry.path

omit [DecidableEq R] in
theorem From.of_suffix {path : RelPath} (h : before.From path) (hold : after.old <:+ before.old) (hnew : after.new <:+ before.new) :
    after.From path :=
  ⟨fun entry hmem => h.1 entry (hold.subset hmem), fun entry hmem => h.2 entry (hnew.subset hmem)⟩

/-- Entries with one path. -/
theorem walked_both {phase : BackgroundScannerPhase} {root : EventRoot} {oldEntry newEntry : LocalEntry R}
    {old new : List (LocalEntry R)} (hs : before.Ordered) (hold : before.old = oldEntry :: old) (hnew : before.new = newEntry :: new)
    (hpath : oldEntry.path = newEntry.path) (hbel : root.path <+: newEntry.path) :
    Walked (MayRepeat phase [root]) reach before
      { old, new
        lastNewlyLoadedDirPath := before.newlyLoaded phase oldEntry newEntry
        changes := before.changes ++ both phase root.wasRescanned oldEntry newEntry }
      (both phase root.wasRescanned oldEntry newEntry) := by
  have hfindO : find newEntry.path before.old = some oldEntry := by
    rw [hold, ← hpath]
    exact KeyedList.find?_cons_self _
  have hfindN : find newEntry.path before.new = some newEntry := by
    rw [hnew]
    exact KeyedList.find?_cons_self _
  have hrep : phase = .eventsReceivedDuringInitialScan ∨ root.wasRescanned = true → MayRepeat phase [root] newEntry.path :=
    Or.imp_right fun hres => ⟨root, .head _, hres, hbel⟩
  obtain ⟨hpat, hord, hrt, hlist⟩ := both_spec hpath hrep
  have hsortO := hs.1
  have hsortN := hs.2
  rw [hold] at hsortO
  rw [hnew] at hsortN
  refine Walked.turn _ rfl (hold ▸ suffix_cons _ _) (hnew ▸ suffix_cons _ _) ?_ ⟨?_, ?_⟩ hpat hord ?_ ?_
  · intro other hoth
    constructor
    · rw [hold]
      exact (KeyedList.find?_cons_of_ne fun heq => hoth (heq.symm.trans hpath)).symm
    · rw [hnew]
      exact (KeyedList.find?_cons_of_ne (Ne.symm hoth)).symm
  · exact fun entry hmem => hpath ▸ rel_of_pairwise_cons hsortO hmem
  · exact fun entry hmem => rel_of_pairwise_cons hsortN hmem
  · rw [hfindO, hfindN]
    exact hrt
  · rw [hfindO, hfindN]
    exact hlist

omit [DecidableEq R] in
/-- All entries of a sorted list are greater than what is smaller than the first one. -/
theorem smaller_all {path : RelPath} {first : LocalEntry R} {entries : List (LocalEntry R)}
    (hs : KeyedList.Sorted Entry.path (first :: entries)) (h : path < first.path) : ∀ entry ∈ first :: entries, path < entry.path := by
  intro entry hmem
  rcases mem_cons.mp hmem with rfl | hmem
  · exact h
  · exact h.trans (rel_of_pairwise_cons hs hmem)

/-- A turn tells of the first path that is left. -/
theorem walked_step (reach : RelPath → Prop) {phase : BackgroundScannerPhase} {root : EventRoot} (hs : before.Ordered) (hfrom : before.From root.path)
    (hstep : before.step phase root = some after) :
    after.old.length + after.new.length < before.old.length + before.new.length ∧
      ∃ told, Walked (MayRepeat phase [root]) reach before after told := by
  unfold step at hstep
  split at hstep
  · rename_i oldEntry old newEntry new hold hnew
    rw [hold, hnew]
    split at hstep
    · nomatch hstep
    · rename_i hgoes
      split at hstep
      · rename_i hlt
        obtain rfl := some.inj hstep
        refine ⟨by simp only [hnew, length_cons]; omega, _, walked_removed hs hold ?_⟩
        have hsort := hs.2
        rw [hnew] at hsort ⊢
        exact smaller_all hsort hlt
      · rename_i hnotL
        split at hstep
        · rename_i hpath
          obtain rfl := some.inj hstep
          refine ⟨by simp only [length_cons]; omega, _, walked_both hs hold hnew hpath ?_⟩
          have hge : root.path ≤ newEntry.path := hfrom.2 _ (hnew ▸ mem_cons_self)
          rcases hge.lt_or_eq with hlt | heq
          · by_contra hnot
            have hnotP : ¬ root.path.isPrefixOf newEntry.path = true := fun h => hnot (List.isPrefixOf_iff_prefix.mp h)
            exact hgoes ⟨hpath ▸ hlt, hlt, hpath ▸ hnotP, hnotP⟩
          · exact heq ▸ prefix_refl _
        · rename_i hne
          obtain rfl := some.inj hstep
          refine ⟨by simp only [hold, length_cons]; omega, _, walked_added _ hs hnew ?_⟩
          have hsort := hs.1
          rw [hold] at hsort ⊢
          exact smaller_all hsort (lt_of_le_of_ne (not_lt.mp hnotL) (Ne.symm hne))
  · rename_i oldEntry old hold hnew
    obtain rfl := some.inj hstep
    rw [hold]
    refine ⟨by simp only [hnew, length_cons]; omega, _, walked_removed hs hold ?_⟩
    rw [hnew]
    exact nofun
  · rename_i newEntry new hold hnew
    obtain rfl := some.inj hstep
    rw [hnew]
    refine ⟨by simp only [hold, length_cons]; omega, _, walked_added _ hs hnew ?_⟩
    rw [hold]
    exact nofun
  · nomatch hstep

/-- Nothing below a root is left. -/
def Finished (self : Diff R) (root : RelPath) : Prop := (∀ entry ∈ self.old, ¬ root <+: entry.path) ∧ ∀ entry ∈ self.new, ¬ root <+: entry.path

omit [DecidableEq R] in
/-- What comes after an entry that is not below a root is not below it either. -/
theorem not_below {root : RelPath} {first : LocalEntry R} {entries : List (LocalEntry R)}
    (hs : KeyedList.Sorted Entry.path (first :: entries)) (hge : root ≤ first.path) (hnot : ¬ root <+: first.path) :
    ∀ entry ∈ first :: entries, ¬ root <+: entry.path := by
  intro entry hmem hbel
  rcases mem_cons.mp hmem with rfl | hmem
  · exact hnot hbel
  · exact hnot (prefix_of_between hge (rel_of_pairwise_cons hs hmem).le hbel)

/-- The loop ends when both cursors are past what is below the root. -/
theorem finished_of_step {phase : BackgroundScannerPhase} {root : EventRoot} (hs : before.Ordered) (hfrom : before.From root.path)
    (hstep : before.step phase root = none) : before.Finished root.path := by
  unfold step at hstep
  split at hstep
  · rename_i oldEntry old newEntry new hold hnew
    split at hstep
    · rename_i hstop
      obtain ⟨-, -, hold', hnew'⟩ := hstop
      have hsortO := hs.1
      have hsortN := hs.2
      have hfromO := hfrom.1 _ (hold ▸ mem_cons_self)
      have hfromN := hfrom.2 _ (hnew ▸ mem_cons_self)
      unfold Finished
      rw [hold] at hsortO ⊢
      rw [hnew] at hsortN ⊢
      exact ⟨not_below hsortO hfromO fun h => hold' (List.isPrefixOf_iff_prefix.mpr h),
        not_below hsortN hfromN fun h => hnew' (List.isPrefixOf_iff_prefix.mpr h)⟩
    · split at hstep
      · nomatch hstep
      · split at hstep <;> nomatch hstep
  · nomatch hstep
  · nomatch hstep
  · rename_i hold hnew
    unfold Finished
    rw [hold, hnew]
    exact ⟨nofun, nofun⟩

theorem walked_loop (reach : RelPath → Prop) (phase : BackgroundScannerPhase) {root : EventRoot} {fuel : Nat} : ∀ {before : Diff R}, before.Ordered →
    before.From root.path → before.old.length + before.new.length ≤ fuel →
    (loop phase root fuel before).Finished root.path ∧
      ∃ told, Walked (MayRepeat phase [root]) reach before (loop phase root fuel before) told := by
  induction fuel with
  | zero =>
    intro before hs hfrom hfuel
    refine ⟨⟨fun entry hmem => ?_, fun entry hmem => ?_⟩, [], Walked.refl _ _ _⟩
    · have hpos := length_pos_of_mem hmem
      unfold loop at hpos
      omega
    · have hpos := length_pos_of_mem hmem
      unfold loop at hpos
      omega
  | succ fuel ih =>
    intro before hs hfrom hfuel
    unfold loop
    split
    · rename_i hstep
      exact ⟨finished_of_step hs hfrom hstep, [], Walked.refl _ _ _⟩
    · rename_i middle hstep
      obtain ⟨hlt, told, hwalk⟩ := walked_step _ hs hfrom hstep
      obtain ⟨hfin, told', hwalk'⟩ := ih (hs.of_suffix hwalk.old hwalk.new) (hfrom.of_suffix hwalk.old hwalk.new) (by omega)
      exact ⟨hfin, told ++ told', hwalk.trans hwalk'⟩

omit [DecidableEq R] in
/-- What is smaller than a root is passed over. -/
theorem walked_seek (mayRepeat : RelPath → Prop) (hs : before.Ordered) (path : RelPath) :
    (before.seek path).From path ∧ Walked mayRepeat (fun other => path ≤ other) before (before.seek path) [] := by
  have hdec : ∀ entry : LocalEntry R, decide (entry.path < path) = true ↔ entry.path < path := fun _ => decide_eq_true_iff
  obtain ⟨_, old, -, hold, -, -, hgeO, -⟩ := hs.1.split path hdec
  obtain ⟨_, new, -, hnew, -, -, hgeN, -⟩ := hs.2.split path hdec
  have hfrom : (before.seek path).From path := by
    unfold From seek
    dsimp only
    rw [hold, hnew]
    exact ⟨hgeO, hgeN⟩
  have hintact : ∀ other, path ≤ other → Intact before (before.seek path) other := by
    intro other hle
    exact ⟨KeyedList.find?_dropWhile hle hdec, KeyedList.find?_dropWhile hle hdec⟩
  refine ⟨hfrom, (append_nil _).symm, dropWhile_suffix _, dropWhile_suffix _, List.Pairwise.nil, nofun, ?_, nofun,
    fun other hle => .inr (hintact other hle)⟩
  intro other
  rcases le_or_gt path other with hle | hlt
  · exact .inl (hintact other hle)
  · exact .inr ⟨fun entry hmem => hlt.trans_le (hfrom.1 entry hmem), fun entry hmem => hlt.trans_le (hfrom.2 entry hmem)⟩

/-- A root is visited: nothing below it is left, and the changes below it, or behind it, are told. -/
theorem walked_visit (phase : BackgroundScannerPhase) (root : EventRoot) (hs : before.Ordered) :
    (before.visit phase root).Finished root.path ∧
      ∃ told, Walked (MayRepeat phase [root]) (fun path => root.path ≤ path) before (before.visit phase root) told := by
  obtain ⟨hfrom, hseek⟩ := walked_seek _ hs _
  obtain ⟨hfin, told, hwalk⟩ := walked_loop _ _ (hs.of_suffix hseek.old hseek.new) hfrom (le_refl _)
  exact ⟨hfin, [] ++ told, hseek.trans hwalk⟩

theorem MayRepeat.mono {phase : BackgroundScannerPhase} {roots roots' : List EventRoot} (h : roots ⊆ roots') {path : RelPath}
    (hrep : MayRepeat phase roots path) : MayRepeat phase roots' path :=
  hrep.imp_right fun ⟨root, hmem, hroot⟩ => ⟨root, h hmem, hroot⟩

/-- All roots are visited: the changes at a path that no root comes after are told. -/
theorem walked_roots (phase : BackgroundScannerPhase) (roots : List EventRoot) : ∀ {before : Diff R}, before.Ordered →
    ∃ told, Walked (MayRepeat phase roots) (fun path => ∀ root ∈ roots, root.path ≤ path) before
      (roots.foldl (fun (diff : Diff R) root => diff.visit phase root) before) told := by
  induction roots with
  | nil => exact fun {before} _ => ⟨[], Walked.refl _ _ _⟩
  | cons root roots ih =>
    intro before hs
    obtain ⟨-, told, hwalk⟩ := walked_visit _ root hs
    obtain ⟨told', hwalk'⟩ := ih (hs.of_suffix hwalk.old hwalk.new)
    refine ⟨told ++ told', Walked.trans ?_ (hwalk'.mono ?_ ?_)⟩
    · exact hwalk.mono (fun path => MayRepeat.mono (cons_subset_cons _ (nil_subset _))) fun path h => h root mem_cons_self
    · exact fun path => MayRepeat.mono (subset_cons_self _ _)
    · exact fun path h other hoth => h _ (.tail _ hoth)

end Diff

open Diff

/-! ### All roots -/

section

variable [DecidableEq R] {phase : BackgroundScannerPhase} {old new : List (LocalEntry R)} {roots : List EventRoot}

theorem walked_buildDiff (hold : KeyedList.Sorted Entry.path old) (hnew : KeyedList.Sorted Entry.path new) :
    Walked (MayRepeat phase roots) (fun path => ∀ root ∈ roots, root.path ≤ path) ⟨old, new, none, []⟩
      (roots.foldl (fun (diff : Diff R) root => diff.visit phase root) ⟨old, new, none, []⟩) (buildDiff phase old new roots) := by
  obtain ⟨told, hwalk⟩ := @walked_roots R _ _ _ ⟨old, new, none, []⟩ ⟨hold, hnew⟩
  have htold : buildDiff phase old new roots = told := hwalk.changes
  rw [htold]
  exact hwalk

/-- The changes are in order, and each can be seen in the snapshots. -/
theorem buildDiff_right (phase : BackgroundScannerPhase) (roots : List EventRoot) (hold : KeyedList.Sorted Entry.path old) (hnew : KeyedList.Sorted Entry.path new) :
    (buildDiff phase old new roots).Pairwise Before ∧ ∀ change ∈ buildDiff phase old new roots,
      Told (MayRepeat phase roots change.1) (find change.1 old) (find change.1 new) change :=
  ⟨(walked_buildDiff hold hnew).ordered, (walked_buildDiff hold hnew).right⟩

/-- Below a root that comes after no greater one, all changes are told. -/
theorem buildDiff_listed (hold : KeyedList.Sorted Entry.path old) (hnew : KeyedList.Sorted Entry.path new) {before after : List EventRoot}
    {root : EventRoot} (hbef : ∀ other ∈ before, other.path ≤ root.path) {path : RelPath} (hbel : root.path <+: path) :
    Lists (find path old) (find path new) path (buildDiff phase old new (before ++ root :: after)) := by
  have hle : root.path ≤ path := le_of_isAbove hbel
  have hst : (⟨old, new, none, []⟩ : Diff R).Ordered := ⟨hold, hnew⟩
  obtain ⟨told, hwalk⟩ := walked_roots _ _ hst
  obtain ⟨hfin, told', hwalk'⟩ := walked_visit _ root (hst.of_suffix hwalk.old hwalk.new)
  have hboth : Walked (fun _ => True) (fun other => path ≤ other) _ _ (told ++ told') :=
    (hwalk.mono (fun _ _ => trivial) fun other hoth entry hent => ((hbef _ hent).trans hle).trans hoth).trans
      (hwalk'.mono (fun _ _ => trivial) fun other hoth => hle.trans hoth)
  obtain ⟨told'', hrest⟩ := walked_roots _ _ (hst.of_suffix hboth.old hboth.new)
  have hchs : buildDiff phase old new (before ++ root :: after) = (told ++ told') ++ told'' := by
    unfold buildDiff
    rw [foldl_append, foldl_cons, hrest.changes, hboth.changes]
    rfl
  rw [hchs]
  refine Lists.mono ?_ fun change hmem => mem_append_left _ hmem
  rcases hboth.listed path (le_refl _) with hlist | hintact
  · exact hlist
  · refine Lists.of_none ?_ ?_
    · refine hintact.1.symm.trans (KeyedList.find?_eq_none.mpr ?_)
      rintro entry hmem rfl
      exact hfin.1 _ hmem hbel
    · refine hintact.2.symm.trans (KeyedList.find?_eq_none.mpr ?_)
      rintro entry hmem rfl
      exact hfin.2 _ hmem hbel

end

/-! ### Merged roots -/

/-- The changed paths are roots, in their order, with only smaller ones between them. -/
theorem mergeEventRoots_split {changedPaths : List RelPath} : ∀ (eventRoots : List EventRoot), SortedVec.Sorted changedPaths →
    ∀ path ∈ changedPaths, ∃ before root after, mergeEventRoots changedPaths eventRoots = before ++ root :: after ∧
      root.path = path ∧ ∀ other ∈ before, other.path ≤ path := by
  induction changedPaths with
  | nil => exact fun _ _ _ h => nomatch h
  | cons first changedPaths ih =>
    intro eventRoots hs path hpath
    obtain ⟨hfst, hs⟩ := pairwise_cons.mp hs
    have hsmlr : ∀ other ∈ eventRoots.takeWhile (fun root => decide (root.path < first)), other.path < first := by
      intro other hoth
      have h := mem_takeWhile_imp hoth
      exact of_decide_eq_true h
    -- what is merged is the smaller roots, one root of the first path, and what is merged of the others
    obtain ⟨root, eventRoots', hroot, hmer⟩ : ∃ root eventRoots', root.path = first ∧ mergeEventRoots (first :: changedPaths) eventRoots =
        eventRoots.takeWhile (fun root => decide (root.path < first)) ++ root :: mergeEventRoots changedPaths eventRoots' := by
      rw [mergeEventRoots]
      split
      · exact ⟨⟨first, false⟩, [], rfl, rfl⟩
      · rename_i root eventRoots' _
        split
        · rename_i heq
          exact ⟨root, eventRoots', heq, rfl⟩
        · exact ⟨⟨first, false⟩, root :: eventRoots', rfl, rfl⟩
    rw [hmer]
    rcases mem_cons.mp hpath with rfl | hpath
    · exact ⟨_, root, _, rfl, hroot, fun other hoth => (hsmlr _ hoth).le⟩
    · obtain ⟨before, found, after, hspl, hfnd, hbef⟩ := ih _ hs path hpath
      refine ⟨eventRoots.takeWhile (fun root => decide (root.path < first)) ++ root :: before, found, after, ?_, hfnd, ?_⟩
      · rw [hspl, append_assoc, cons_append]
      · intro other hoth
        rcases mem_append.mp hoth with hoth | hoth
        · exact ((hsmlr _ hoth).trans (hfst path hpath)).le
        · rcases mem_cons.mp hoth with rfl | hoth
          · exact hroot ▸ (hfst path hpath).le
          · exact hbef _ hoth

/-- A rescanned root is one of the roots of the events. -/
theorem mem_of_mergeEventRoots {root : EventRoot} (hres : root.wasRescanned = true) {changedPaths : List RelPath} :
    ∀ {eventRoots : List EventRoot}, root ∈ mergeEventRoots changedPaths eventRoots → root ∈ eventRoots := by
  induction changedPaths with
  | nil => exact fun h => h
  | cons first changedPaths ih =>
    intro eventRoots hmem
    have hnot : ∀ path, root ≠ ⟨path, false⟩ := by
      rintro path rfl
      exact Bool.false_ne_true hres
    rcases mem_append.mp hmem with hmem | hmem
    · exact (takeWhile_sublist _).subset hmem
    · split at hmem
      · rcases mem_cons.mp hmem with heq | hmem
        · exact absurd heq (hnot _)
        · nomatch ih hmem
      · rename_i found eventRoots' hdrop
        have hsub : found :: eventRoots' ⊆ eventRoots := hdrop ▸ (dropWhile_sublist _).subset
        split at hmem
        · rcases mem_cons.mp hmem with rfl | hmem
          · exact hsub mem_cons_self
          · exact hsub (.tail _ (ih hmem))
        · rcases mem_cons.mp hmem with heq | hmem
          · exact absurd heq (hnot _)
          · exact hsub (ih hmem)

end Wu.Worktree
