import Wu.KeyedList

/-!
# Edits of lists sorted by a key

`SumTree::edit` with edits that insert and edits that remove, `insert_or_replace` and `remove`, on the list of the items. An edit takes
away an old item with its key, and never an item that another edit of the batch inserts.
-/

namespace Wu

open List

universe u v

namespace KeyedList

/-- `enum Edit`. -/
inductive Edit (T : Type u) (K : Type v) where
  | insert (item : T)
  | remove (k : K)

variable {T : Type u} {K : Type v} [LinearOrder K] (key : T → K)

def editKey : Edit T K → K
  | .insert item => key item
  | .remove k => k

/-- The item that an edit inserts. -/
def inserted : Edit T K → List T
  | .insert item => [item]
  | .remove _ => []

/-- The loop of `SumTree::edit` over the sorted edits. -/
def batchLoop : List (Edit T K) → List T → List T
  | [], items => items
  | edit :: edits, items =>
    let newKey := editKey key edit
    items.takeWhile (fun item => key item < newKey) ++ inserted edit ++
      batchLoop edits (dropFound key newKey (items.dropWhile fun item => key item < newKey))

/-- `SumTree::edit`. -/
def editBatch (edits : List (Edit T K)) (items : List T) : List T := batchLoop key (sort (editKey key) edits) items

/-- `SumTree::insert_or_replace`. -/
def insertOrReplace (item : T) (items : List T) : List T :=
  items.takeWhile (fun other => key other < key item) ++
    item :: dropFound key (key item) (items.dropWhile fun other => key other < key item)

/-- `SumTree::remove`. -/
def remove (k : K) (items : List T) : List T :=
  items.takeWhile (fun item => key item < k) ++ dropFound key k (items.dropWhile fun item => key item < k)

variable {key}

omit [LinearOrder K] in
theorem mem_inserted {edit : Edit T K} {x : T} : x ∈ inserted edit ↔ edit = .insert x := by
  cases edit with
  | insert item =>
    rw [inserted, mem_singleton]
    exact ⟨fun h => h ▸ rfl, fun h => (Edit.insert.inj h).symm⟩
  | remove k => exact ⟨nofun, nofun⟩

/-- A sorted list is what comes before a key, and what does not. -/
theorem Sorted.split {items : List T} (h : Sorted key items) (k : K) {p : T → Bool} (hp : ∀ item, p item = true ↔ key item < k) :
    ∃ small rest, items.takeWhile p = small ∧ items.dropWhile p = rest ∧ items = small ++ rest ∧
      (∀ x ∈ small, key x < k) ∧ (∀ x ∈ rest, k ≤ key x) ∧ Sorted key small ∧ Sorted key rest := by
  have hdec : p = fun item => decide (key item < k) := by
    funext item
    rw [Bool.eq_iff_iff, hp, decide_eq_true_iff]
  refine ⟨_, _, rfl, rfl, takeWhile_append_dropWhile.symm, ?_, ?_, h.sublist (takeWhile_sublist _), h.sublist (dropWhile_sublist _)⟩
  · exact fun x hx => (hp x).mp (mem_takeWhile_imp hx)
  · rw [hdec]
    exact fun x hx => h.le_of_mem_dropWhile hx

/-- Sorted edits of which no two insert an item with one key. -/
theorem batchLoop_spec {edits : List (Edit T K)} : ∀ {items : List T}, edits.Pairwise (fun a b => editKey key a ≤ editKey key b) →
    (edits.flatMap inserted).Pairwise (fun a b => key a ≠ key b) → Sorted key items →
    Sorted key (batchLoop key edits items) ∧
      ∀ x, x ∈ batchLoop key edits items ↔ .insert x ∈ edits ∨ x ∈ items ∧ key x ∉ edits.map (editKey key) := by
  induction edits with
  | nil =>
    intro items _ _ hs
    exact ⟨hs, by simp [batchLoop]⟩
  | cons edit edits ih =>
    intro items hsort hdistinct hs
    obtain ⟨hle, hsort⟩ := pairwise_cons.mp hsort
    rw [flatMap_cons, pairwise_append] at hdistinct
    obtain ⟨-, hdistinct, hapa⟩ := hdistinct
    obtain ⟨small, rest, htake, hdrop, hitems, hsma, hrest, hsortS, hsortR⟩ :=
      hs.split (editKey key edit) fun item => decide_eq_true_iff
    have hdro : Sorted key (dropFound key (editKey key edit) rest) := hsortR.sublist (dropFound_sublist _ rest)
    obtain ⟨hnew, hmem⟩ := ih hsort hdistinct hdro
    have hloop : batchLoop key (edit :: edits) items =
        small ++ (inserted edit ++ batchLoop key edits (dropFound key (editKey key edit) rest)) := by
      rw [← htake, ← hdrop, ← append_assoc]
      rfl
    -- what follows an item that the edit inserts has greater keys
    have hgre : ∀ x ∈ batchLoop key edits (dropFound key (editKey key edit) rest),
        editKey key edit ≤ key x ∧ ∀ item, edit = .insert item → key item < key x := by
      intro x hx
      rcases (hmem x).mp hx with hins | ⟨hold, -⟩
      · refine ⟨hle _ hins, ?_⟩
        rintro item rfl
        refine lt_of_le_of_ne (hle _ hins) (hapa item (mem_inserted.mpr rfl) x ?_)
        exact mem_flatMap.mpr ⟨_, hins, mem_inserted.mpr rfl⟩
      · have hlt := ((mem_dropFound hsortR hrest).mp hold).2
        refine ⟨hlt.le, ?_⟩
        rintro item rfl
        exact hlt
    rw [hloop]
    constructor
    · refine pairwise_append.mpr ⟨hsortS, pairwise_append.mpr ⟨?_, hnew, ?_⟩, ?_⟩
      · cases edit with
        | insert item => exact pairwise_singleton _ _
        | remove k => exact List.Pairwise.nil
      · intro a ha b hb
        exact (hgre b hb).2 a (mem_inserted.mp ha)
      · intro a ha b hb
        rcases mem_append.mp hb with hb | hb
        · obtain rfl := mem_inserted.mp hb
          exact hsma a ha
        · exact (hsma a ha).trans_le (hgre b hb).1
    · intro x
      rw [mem_append, mem_append, mem_inserted, hmem, mem_dropFound hsortR hrest, hitems, mem_append,
        mem_cons, map_cons, mem_cons, not_or]
      constructor
      · rintro (hx | rfl | hx | ⟨⟨hx, hlt⟩, hnot⟩)
        · refine .inr ⟨.inl hx, (hsma x hx).ne, fun hm => ?_⟩
          obtain ⟨other, hoth, hkey⟩ := mem_map.mp hm
          have hlt := (hsma x hx).trans_le (hle _ hoth)
          rw [hkey] at hlt
          exact lt_irrefl _ hlt
        · exact .inl (.inl rfl)
        · exact .inl (.inr hx)
        · exact .inr ⟨.inr hx, hlt.ne', hnot⟩
      · rintro ((rfl | hx) | ⟨hx | hx, hne, hnot⟩)
        · exact .inr (.inl rfl)
        · exact .inr (.inr (.inl hx))
        · exact .inl hx
        · exact .inr (.inr (.inr ⟨⟨hx, lt_of_le_of_ne (hrest x hx) (Ne.symm hne)⟩, hnot⟩))

/-- A batch takes away the old items with its keys and adds what it inserts. -/
theorem editBatch_spec {edits : List (Edit T K)} {items : List T} (hs : Sorted key items)
    (hdistinct : (edits.flatMap inserted).Pairwise (fun a b => key a ≠ key b)) :
    Sorted key (editBatch key edits items) ∧
      ∀ x, x ∈ editBatch key edits items ↔ .insert x ∈ edits ∨ x ∈ items ∧ key x ∉ edits.map (editKey key) := by
  have hperm : (sort (editKey key) edits).Perm edits := perm_sort _
  have hsame : ((sort (editKey key) edits).flatMap inserted).Pairwise (fun a b => key a ≠ key b) :=
    (hperm.flatMap_right _).symm.pairwise hdistinct fun h => Ne.symm h
  obtain ⟨hsort, hmem⟩ := batchLoop_spec (pairwise_sort _) hsame hs
  refine ⟨hsort, fun x => ?_⟩
  rw [editBatch, hmem, hperm.mem_iff, (hperm.map _).mem_iff]

/-- A batch that only inserts, items with different keys. -/
theorem editBatch_inserts {new items : List T} (hs : Sorted key items) (hnew : (new.map key).Nodup) :
    Sorted key (editBatch key (new.map Edit.insert) items) ∧
      ∀ x, x ∈ editBatch key (new.map Edit.insert) items ↔ x ∈ new ∨ x ∈ items ∧ key x ∉ new.map key := by
  have hins : (new.map (Edit.insert : T → Edit T K)).flatMap inserted = new := by
    rw [flatMap_map]
    exact flatMap_singleton' new
  have hkeys : (new.map (Edit.insert : T → Edit T K)).map (editKey key) = new.map key := map_map
  obtain ⟨hsort, hmem⟩ := @editBatch_spec _ _ _ _ _ _ hs (by rw [hins]; exact pairwise_map.mp hnew)
  refine ⟨hsort, fun x => ?_⟩
  rw [hmem, hkeys]
  refine or_congr_left ⟨fun h => ?_, fun h => mem_map_of_mem h⟩
  obtain ⟨other, hoth, heq⟩ := mem_map.mp h
  exact Edit.insert.inj heq ▸ hoth

/-- A batch of removals. -/
theorem editBatch_removes {items : List T} (hs : Sorted key items) (keys : List K) :
    Sorted key (editBatch key (keys.map Edit.remove) items) ∧
      ∀ x, x ∈ editBatch key (keys.map Edit.remove) items ↔ x ∈ items ∧ key x ∉ keys := by
  have hins : (keys.map (Edit.remove : K → Edit T K)).flatMap inserted = [] := by
    rw [flatMap_map]
    exact flatMap_eq_nil_iff.mpr fun _ _ => rfl
  have hkeys : (keys.map (Edit.remove : K → Edit T K)).map (editKey key) = keys := by
    rw [map_map]
    exact map_id keys
  obtain ⟨hsort, hmem⟩ := editBatch_spec hs (hins ▸ List.Pairwise.nil)
  refine ⟨hsort, fun x => ?_⟩
  rw [hmem, hkeys]
  refine or_iff_right fun h => ?_
  obtain ⟨k, -, hk⟩ := mem_map.mp h
  nomatch hk

theorem insertOrReplace_spec {items : List T} (hs : Sorted key items) (item : T) : Sorted key (insertOrReplace key item items) ∧
      ∀ x, x ∈ insertOrReplace key item items ↔ x = item ∨ x ∈ items ∧ key x ≠ key item := by
  have hloop : insertOrReplace key item items = batchLoop key [.insert item] items := by
    exact (append_assoc _ [item] _).symm
  have hone : ([Edit.insert item] : List (Edit T K)).Pairwise fun a b => editKey key a ≤ editKey key b := pairwise_singleton _ _
  obtain ⟨hsort, hmem⟩ := batchLoop_spec hone (pairwise_singleton _ _) hs
  rw [hloop]
  refine ⟨hsort, fun x => ?_⟩
  rw [hmem, mem_singleton, Edit.insert.injEq, map_singleton, mem_singleton]
  rfl

theorem remove_spec {items : List T} (hs : Sorted key items) (k : K) :
    Sorted key (remove key k items) ∧ ∀ x, x ∈ remove key k items ↔ x ∈ items ∧ key x ≠ k := by
  have hloop : remove key k items = batchLoop key [.remove k] items := by
    change _ = items.takeWhile (fun item => key item < k) ++ [] ++ dropFound key k (items.dropWhile fun item => key item < k)
    rw [append_nil]
    rfl
  have hone : [Edit.remove k].Pairwise fun a b => editKey key a ≤ editKey key b := pairwise_singleton _ _
  obtain ⟨hsort, hmem⟩ := batchLoop_spec hone List.Pairwise.nil hs
  rw [hloop]
  refine ⟨hsort, fun x => ?_⟩
  rw [hmem, map_singleton, mem_singleton, mem_singleton]
  exact ⟨fun h => h.resolve_left nofun, .inr⟩

/-- Sorted lists with the same items are equal. -/
theorem Sorted.ext {items other : List T} (h : Sorted key items) (h' : Sorted key other) (hmem : ∀ x, x ∈ items ↔ x ∈ other) :
    items = other := by
  have hperm : items.Perm other := (perm_ext_iff_of_nodup h.nodup h'.nodup).mpr hmem
  exact hperm.eq_of_pairwise (fun a b _ _ hab hba => absurd (hab.trans hba) (lt_irrefl _)) h h'

end KeyedList

end Wu
