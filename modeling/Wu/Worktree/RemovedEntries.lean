import Wu.Worktree.Snapshot

/-!
# The entries that an update has removed

The scanner keeps the entries that it removes for two updates, by the path and by the inode, so that a path that is created again, or a
file that turns up somewhere else, can have its old id back.
-/

namespace Wu.Worktree

open List Option

inductive EntryKind where
  | unloadedDir
  | pendingDir
  | dir
  | file
  deriving DecidableEq

namespace EntryKind

def isDir : EntryKind → Bool
  | unloadedDir | pendingDir | dir => true
  | file => false

def isUnloaded : EntryKind → Bool
  | unloadedDir => true
  | pendingDir | dir | file => false

end EntryKind

/-- What an entry holds besides its id, its path and its flag. `rest` stands for the fields that the scanner only copies. -/
structure LocalDetails (R : Type) where
  kind : EntryKind
  inode : Nat
  mtime : Option Nat
  isExternal : Bool
  isAlwaysIncluded : Bool
  rest : R
  deriving DecidableEq

/-- An entry of a local worktree. -/
abbrev LocalEntry (R : Type) := Entry (LocalDetails R)

variable {R : Type}

/-- Two maps of entries: no two entries of the first have one inode, and no two of the second one path. -/
structure RemovedEntriesGeneration (R : Type) where
  byInode : List (LocalEntry R)
  byPath : List (LocalEntry R)

namespace RemovedEntriesGeneration

def new : RemovedEntriesGeneration R := ⟨[], []⟩

variable (self : RemovedEntriesGeneration R)

def getInode (inode : Nat) : Option (LocalEntry R) := self.byInode.find? fun entry => entry.details.inode = inode

def getPath (path : RelPath) : Option (LocalEntry R) := self.byPath.find? fun entry => entry.path = path

def eraseInode (inode : Nat) : List (LocalEntry R) := self.byInode.filter fun entry => entry.details.inode ≠ inode

def erasePath (path : RelPath) : List (LocalEntry R) := self.byPath.filter fun entry => entry.path ≠ path

/-- The entry with the greatest id is kept for its inode. -/
def insert (entry : LocalEntry R) : RemovedEntriesGeneration R where
  byPath := entry :: self.erasePath entry.path
  byInode := match self.getInode entry.details.inode with
    | some old => if entry.id > old.id then entry :: self.eraseInode entry.details.inode else self.byInode
    | none => entry :: self.byInode

def takeByPath (path : RelPath) (inode : Nat) : Option (LocalEntry R × RemovedEntriesGeneration R) :=
  match self.getPath path with
  | none => none
  | some removed =>
    if removed.details.inode ≠ inode then none
    else some (removed,
      { byPath := self.erasePath path
        byInode := if (self.getInode removed.details.inode).any fun old => old.id = removed.id
          then self.eraseInode removed.details.inode else self.byInode })

def takeByInode (inode : Nat) : Option (LocalEntry R × RemovedEntriesGeneration R) :=
  match self.getInode inode with
  | none => none
  | some removed => some (removed,
    { byInode := self.eraseInode inode
      byPath := if (self.getPath removed.path).any fun old => old.id = removed.id
        then self.erasePath removed.path else self.byPath })

/-- An entry is in one of the maps. -/
def Holds (entry : LocalEntry R) : Prop := entry ∈ self.byInode ∨ entry ∈ self.byPath

end RemovedEntriesGeneration

/-- The keys of both maps are different, and an id is of one entry. -/
structure RemovedEntriesGeneration.Keyed (generation : RemovedEntriesGeneration R) : Prop where
  inodes : (generation.byInode.map fun entry => entry.details.inode).Nodup
  paths : (generation.byPath.map Entry.path).Nodup
  ids : ∀ {a b}, generation.Holds a → generation.Holds b → a.id = b.id → a = b

structure RemovedEntries (R : Type) where
  current : RemovedEntriesGeneration R
  previous : RemovedEntriesGeneration R

namespace RemovedEntries

def new : RemovedEntries R := ⟨.new, .new⟩

variable (self : RemovedEntries R)

def insert (entry : LocalEntry R) : RemovedEntries R := { self with current := self.current.insert entry }

def takeByPath (path : RelPath) (inode : Nat) : Option (LocalEntry R × RemovedEntries R) :=
  match self.current.takeByPath path inode with
  | some (removed, current) => some (removed, { self with current })
  | none => (self.previous.takeByPath path inode).map fun (removed, previous) => (removed, { self with previous })

def takeByInode (inode : Nat) : Option (LocalEntry R × RemovedEntries R) :=
  match self.current.takeByInode inode with
  | some (removed, current) => some (removed, { self with current })
  | none => (self.previous.takeByInode inode).map fun (removed, previous) => (removed, { self with previous })

/-- The entries of the older update are dropped. -/
def rotate : List (LocalEntry R) × RemovedEntries R :=
  (self.previous.byInode ++ self.previous.byPath, { current := .new, previous := self.current })

/-- An entry has been removed with this path and inode, or with this inode. -/
def knows (path : RelPath) (inode : Nat) : Bool := (self.takeByPath path inode).isSome || (self.takeByInode inode).isSome

def Holds (entry : LocalEntry R) : Prop := self.current.Holds entry ∨ self.previous.Holds entry

end RemovedEntries

/-- An id is of one entry, in one of the updates. -/
structure RemovedEntries.Linked (entries : RemovedEntries R) : Prop where
  current : entries.current.Keyed
  previous : entries.previous.Keyed
  apart : ∀ {a b}, entries.current.Holds a → entries.previous.Holds b → a.id ≠ b.id

/-! ### Which entries are held -/

namespace RemovedEntriesGeneration

variable {self : RemovedEntriesGeneration R}

theorem keyed_new : (new : RemovedEntriesGeneration R).Keyed where
  inodes := nodup_nil
  paths := nodup_nil
  ids := fun ha => by rcases ha with ha | ha <;> nomatch ha

theorem not_holds_new {entry : LocalEntry R} : ¬ (new : RemovedEntriesGeneration R).Holds entry := by
  rintro (h | h) <;> nomatch h

variable {inode : Nat} {path : RelPath} {removed : LocalEntry R}

theorem of_getInode {entry : LocalEntry R} (h : self.getInode inode = some entry) :
    entry ∈ self.byInode ∧ entry.details.inode = inode :=
  ⟨List.mem_of_find?_eq_some h, of_decide_eq_true (@List.find?_some _ _ entry _ h)⟩

theorem of_getPath {entry : LocalEntry R} (h : self.getPath path = some entry) : entry ∈ self.byPath ∧ entry.path = path :=
  ⟨List.mem_of_find?_eq_some h, of_decide_eq_true (@List.find?_some _ _ entry _ h)⟩

theorem mem_eraseInode {entry : LocalEntry R} :
    entry ∈ self.eraseInode inode ↔ entry ∈ self.byInode ∧ entry.details.inode ≠ inode := by
  rw [eraseInode, mem_filter, decide_eq_true_iff]

theorem mem_erasePath {entry : LocalEntry R} : entry ∈ self.erasePath path ↔ entry ∈ self.byPath ∧ entry.path ≠ path := by
  rw [erasePath, mem_filter, decide_eq_true_iff]

/-- A generation with fewer entries. -/
theorem Keyed.sublist {smaller : RemovedEntriesGeneration R} (h : self.Keyed) (hino : smaller.byInode.Sublist self.byInode)
    (hpath : smaller.byPath.Sublist self.byPath) : smaller.Keyed where
  inodes := h.inodes.sublist (hino.map _)
  paths := h.paths.sublist (hpath.map _)
  ids := fun ha hb => h.ids (ha.imp (fun h => hino.subset h) fun h => hpath.subset h)
    (hb.imp (fun h => hino.subset h) fun h => hpath.subset h)

/-- A map without the key of an entry has no other entry with its id, and loses nothing else. -/
theorem mem_filter_key {κ : Type} [DecidableEq κ] {key : LocalEntry R → κ} {entries : List (LocalEntry R)} {entry : LocalEntry R}
    (hkeys : (entries.map key).Nodup) (hsame : ∀ entry ∈ entries, entry.id = removed.id → entry = removed)
    (hrem : removed ∈ entries) :
    (entry ∈ entries.filter fun entry => key entry ≠ key removed) ↔ entry ∈ entries ∧ entry.id ≠ removed.id := by
  rw [mem_filter, decide_eq_true_iff]
  refine and_congr_right fun hmem => not_congr ?_
  exact ⟨fun hkey => by rw [inj_on_of_nodup_map hkeys hmem hrem hkey], fun hid => by rw [hsame _ hmem hid]⟩

/-- The key is taken out only where it leads to an entry with the id. -/
theorem mem_without {κ : Type} [DecidableEq κ] {key : LocalEntry R → κ} {entries : List (LocalEntry R)} {entry : LocalEntry R}
    (hkeys : (entries.map key).Nodup) (hsame : ∀ entry ∈ entries, entry.id = removed.id → entry = removed) :
    (entry ∈ if (entries.find? fun entry => key entry = key removed).any fun old => old.id = removed.id
      then entries.filter fun entry => key entry ≠ key removed else entries) ↔ entry ∈ entries ∧ entry.id ≠ removed.id := by
  split
  · rename_i hany
    obtain ⟨old, hold, hid⟩ := (Option.any_eq_true _ _).mp hany
    have hmem := List.mem_of_find?_eq_some hold
    exact mem_filter_key hkeys hsame (hsame old hmem (of_decide_eq_true hid) ▸ hmem)
  · rename_i hany
    refine ⟨fun hmem => ⟨hmem, fun hid => hany ?_⟩, fun hmem => hmem.1⟩
    obtain rfl := hsame _ hmem hid
    cases hget : entries.find? _ with
    | none => exact absurd (List.find?_eq_none.mp hget _ hmem) (by simp)
    | some found =>
      have hkey : key found = key entry := of_decide_eq_true (@List.find?_some _ _ found _ hget)
      rw [inj_on_of_nodup_map hkeys (List.mem_of_find?_eq_some hget) hmem hkey]
      exact decide_eq_true rfl

/-- An entry is taken out of both maps. -/
theorem Keyed.take (h : self.Keyed) (hheld : self.Holds removed) {rest : RemovedEntriesGeneration R}
    (hino : ∀ entry, entry ∈ rest.byInode ↔ entry ∈ self.byInode ∧ entry.id ≠ removed.id)
    (hpath : ∀ entry, entry ∈ rest.byPath ↔ entry ∈ self.byPath ∧ entry.id ≠ removed.id)
    (hinod : rest.byInode.Sublist self.byInode) (hpat : rest.byPath.Sublist self.byPath) :
    self.Holds removed ∧ rest.Keyed ∧ ∀ entry, rest.Holds entry ↔ self.Holds entry ∧ entry.id ≠ removed.id :=
  ⟨hheld, h.sublist hinod hpat, fun entry => (or_congr (hino entry) (hpath _)).trans or_and_right.symm⟩

theorem Keyed.takeByPath (h : self.Keyed)
    {rest : RemovedEntriesGeneration R} (htake : self.takeByPath path inode = some (removed, rest)) :
    self.Holds removed ∧ rest.Keyed ∧ ∀ entry, rest.Holds entry ↔ self.Holds entry ∧ entry.id ≠ removed.id := by
  unfold RemovedEntriesGeneration.takeByPath at htake
  split at htake
  · nomatch htake
  · rename_i found hfnd
    obtain ⟨hmem, rfl⟩ := of_getPath hfnd
    split at htake
    · nomatch htake
    · obtain ⟨rfl, rfl⟩ := Prod.mk.inj (some.inj htake)
      refine h.take (.inr hmem) (fun entry => mem_without h.inodes fun entry hent => h.ids (.inl hent) (.inr hmem))
        (fun entry => mem_filter_key h.paths (fun entry hent => h.ids (.inr hent) (.inr hmem)) hmem) ?_ filter_sublist
      split
      · exact filter_sublist
      · exact List.Sublist.refl _

theorem Keyed.takeByInode (h : self.Keyed)
    {rest : RemovedEntriesGeneration R} (htake : self.takeByInode inode = some (removed, rest)) :
    self.Holds removed ∧ rest.Keyed ∧ ∀ entry, rest.Holds entry ↔ self.Holds entry ∧ entry.id ≠ removed.id := by
  unfold RemovedEntriesGeneration.takeByInode at htake
  split at htake
  · nomatch htake
  · rename_i found hfnd
    obtain ⟨hmem, rfl⟩ := of_getInode hfnd
    obtain ⟨rfl, rfl⟩ := Prod.mk.inj (some.inj htake)
    refine h.take (.inl hmem) (fun entry => mem_filter_key h.inodes (fun entry hent => h.ids (.inl hent) (.inl hmem)) hmem)
      (fun entry => mem_without h.paths fun entry hent => h.ids (.inr hent) (.inl hmem)) filter_sublist ?_
    split
    · exact filter_sublist
    · exact List.Sublist.refl _

/-- An entry with a new id is put in: others may be lost. -/
theorem holds_of_insert {entry x : LocalEntry R} (hx : (self.insert entry).Holds x) : self.Holds x ∨ x = entry := by
  unfold RemovedEntriesGeneration.insert at hx
  rcases hx with hx | hx
  · split at hx
    · split at hx
      · rcases mem_cons.mp hx with rfl | hx
        · exact .inr rfl
        · exact .inl (.inl (mem_eraseInode.mp hx).1)
      · exact .inl (.inl hx)
    · rcases mem_cons.mp hx with rfl | hx
      · exact .inr rfl
      · exact .inl (.inl hx)
  · rcases mem_cons.mp hx with rfl | hx
    · exact .inr rfl
    · exact .inl (.inr (mem_erasePath.mp hx).1)

theorem Keyed.insert (h : self.Keyed) {entry : LocalEntry R} (hnew : ∀ old, self.Holds old → old.id ≠ entry.id) :
    (self.insert entry).Keyed where
  inodes := by
    show (List.map _ (match self.getInode _ with
      | some old => if entry.id > old.id then entry :: self.eraseInode _ else self.byInode
      | none => entry :: self.byInode)).Nodup
    split
    · split
      · refine nodup_cons.mpr ⟨fun hmem => ?_, h.inodes.sublist (filter_sublist.map _)⟩
        obtain ⟨other, hoth, hino⟩ := mem_map.mp hmem
        exact (mem_eraseInode.mp hoth).2 hino
      · exact h.inodes
    · rename_i hnone
      refine nodup_cons.mpr ⟨fun hmem => ?_, h.inodes⟩
      obtain ⟨other, hoth, hino⟩ := mem_map.mp hmem
      exact List.find?_eq_none.mp hnone _ hoth (decide_eq_true hino)
  paths := by
    refine nodup_cons.mpr ⟨fun hmem => ?_, h.paths.sublist (filter_sublist.map _)⟩
    obtain ⟨other, hoth, hpath⟩ := mem_map.mp hmem
    exact (mem_erasePath.mp hoth).2 hpath
  ids := by
    intro a b ha hb hid
    rcases holds_of_insert ha with hold | rfl
    · rcases holds_of_insert hb with hold' | rfl
      · exact h.ids hold hold' hid
      · exact absurd hid (hnew a hold)
    · rcases holds_of_insert hb with hold' | heq
      · exact absurd hid.symm (hnew b hold')
      · exact heq.symm

end RemovedEntriesGeneration

namespace RemovedEntries

variable {self : RemovedEntries R}

theorem linked_new : (new : RemovedEntries R).Linked where
  current := RemovedEntriesGeneration.keyed_new
  previous := RemovedEntriesGeneration.keyed_new
  apart := fun ha => absurd ha RemovedEntriesGeneration.not_holds_new

theorem not_holds_new {entry : LocalEntry R} : ¬ (new : RemovedEntries R).Holds entry := by
  rintro (h | h) <;> exact RemovedEntriesGeneration.not_holds_new h

/-- An entry has been taken: no entry with its id is left, and all others are. -/
structure Took (before : RemovedEntries R) (removed : LocalEntry R) (after : RemovedEntries R) : Prop where
  held : before.Holds removed
  linked : after.Linked
  holds : ∀ entry, after.Holds entry ↔ before.Holds entry ∧ entry.id ≠ removed.id

variable {removed : LocalEntry R} {inode : Nat}

theorem Linked.tookCurrent (h : self.Linked) {rest : RemovedEntriesGeneration R} (htook : self.current.Holds removed ∧ rest.Keyed ∧
      ∀ entry, rest.Holds entry ↔ self.current.Holds entry ∧ entry.id ≠ removed.id) :
    self.Took removed { self with current := rest } := by
  obtain ⟨hheld, hkey, hrest⟩ := htook
  refine ⟨.inl hheld, ⟨hkey, h.previous, fun ha => h.apart ((hrest _).mp ha).1⟩, fun entry => ?_⟩
  show rest.Holds _ ∨ self.previous.Holds _ ↔ (self.current.Holds _ ∨ self.previous.Holds _) ∧ _
  rw [hrest, or_and_right]
  refine or_congr_right ⟨fun hprev => ⟨hprev, fun hid => h.apart hheld hprev hid.symm⟩, And.left⟩

theorem Linked.tookPrevious (h : self.Linked) {rest : RemovedEntriesGeneration R} (htook : self.previous.Holds removed ∧ rest.Keyed ∧
      ∀ entry, rest.Holds entry ↔ self.previous.Holds entry ∧ entry.id ≠ removed.id) :
    self.Took removed { self with previous := rest } := by
  obtain ⟨hheld, hkey, hrest⟩ := htook
  refine ⟨.inr hheld, ⟨h.current, hkey, fun ha hb => h.apart ha ((hrest _).mp hb).1⟩, fun entry => ?_⟩
  show self.current.Holds _ ∨ rest.Holds _ ↔ (self.current.Holds _ ∨ self.previous.Holds _) ∧ _
  rw [hrest, or_and_right]
  refine or_congr_left ⟨fun hcur => ⟨hcur, h.apart hcur hheld⟩, And.left⟩

theorem Linked.takeByPath (h : self.Linked) {path : RelPath} {rest : RemovedEntries R}
    (htake : self.takeByPath path inode = some (removed, rest)) : self.Took removed rest := by
  unfold RemovedEntries.takeByPath at htake
  split at htake
  · rename_i found current hfnd
    obtain ⟨rfl, rfl⟩ := Prod.mk.inj (some.inj htake)
    exact h.tookCurrent (h.current.takeByPath hfnd)
  · obtain ⟨⟨found, previous⟩, hfnd, heq⟩ := map_eq_some_iff.mp htake
    obtain ⟨rfl, rfl⟩ := Prod.mk.inj heq
    exact h.tookPrevious (h.previous.takeByPath hfnd)

theorem Linked.takeByInode (h : self.Linked) {rest : RemovedEntries R}
    (htake : self.takeByInode inode = some (removed, rest)) : self.Took removed rest := by
  unfold RemovedEntries.takeByInode at htake
  split at htake
  · rename_i found current hfnd
    obtain ⟨rfl, rfl⟩ := Prod.mk.inj (some.inj htake)
    exact h.tookCurrent (h.current.takeByInode hfnd)
  · obtain ⟨⟨found, previous⟩, hfnd, heq⟩ := map_eq_some_iff.mp htake
    obtain ⟨rfl, rfl⟩ := Prod.mk.inj heq
    exact h.tookPrevious (h.previous.takeByInode hfnd)

theorem holds_of_insert {entry x : LocalEntry R} (hx : (self.insert entry).Holds x) : self.Holds x ∨ x = entry := by
  rcases hx with hx | hx
  · exact (RemovedEntriesGeneration.holds_of_insert hx).imp .inl id
  · exact .inl (.inr hx)

theorem Linked.insert (h : self.Linked) {entry : LocalEntry R} (hnew : ∀ old, self.Holds old → old.id ≠ entry.id) :
    (self.insert entry).Linked where
  current := h.current.insert fun old hold => hnew old (.inl hold)
  previous := h.previous
  apart := by
    intro a b ha hb
    rcases RemovedEntriesGeneration.holds_of_insert ha with ha | rfl
    · exact h.apart ha hb
    · exact (hnew b (.inr hb)).symm

/-- The entries of a list with new ids, each its own, are put in. -/
theorem Linked.insertAll {entries : List (LocalEntry R)} : ∀ {self : RemovedEntries R}, self.Linked → (entries.map Entry.id).Nodup →
    (∀ entry ∈ entries, ∀ old, self.Holds old → old.id ≠ entry.id) →
    (entries.foldl RemovedEntries.insert self).Linked ∧
      ∀ x, (entries.foldl RemovedEntries.insert self).Holds x → self.Holds x ∨ x ∈ entries := by
  induction entries with
  | nil => exact fun h _ _ => ⟨h, fun x hx => .inl hx⟩
  | cons entry entries ih =>
    intro self h hnod hnew
    obtain ⟨hnot, hnod⟩ := nodup_cons.mp hnod
    have hnewR : ∀ other ∈ entries, ∀ old, (self.insert entry).Holds old → old.id ≠ other.id := by
      intro other hoth old hold
      rcases holds_of_insert hold with hold | rfl
      · exact hnew _ (.tail _ hoth) old hold
      · exact fun hid => hnot (mem_map.mpr ⟨other, hoth, hid.symm⟩)
    obtain ⟨hlink, hhold⟩ := ih (h.insert (hnew _ mem_cons_self)) hnod hnewR
    refine ⟨hlink, fun x hx => ?_⟩
    rcases hhold x hx with hx | hx
    · rcases holds_of_insert hx with hx | rfl
      · exact .inl hx
      · exact .inr mem_cons_self
    · exact .inr (.tail _ hx)

theorem Linked.rotate (h : self.Linked) : self.rotate.2.Linked ∧ ∀ x, self.rotate.2.Holds x → self.Holds x := by
  refine ⟨⟨RemovedEntriesGeneration.keyed_new, h.current, fun ha => absurd ha RemovedEntriesGeneration.not_holds_new⟩, ?_⟩
  rintro x (hx | hx)
  · exact absurd hx RemovedEntriesGeneration.not_holds_new
  · exact .inl hx

end RemovedEntries

end Wu.Worktree
