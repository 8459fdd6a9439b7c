import Mathlib.Data.List.Sort
import Mathlib.Data.List.TakeWhile

/-!
# Lists sorted by a key

The items of a tree of keyed items are a list sorted by their keys. `edit` is what `SumTree::edit` does to that list when
every edit inserts: the edits are sorted, and each one goes before the first item with a larger key and in place of an item
with its own. Where the edits have different keys, the result has the edits and the old items with other keys.
-/

namespace Wu

open List

universe u v

namespace KeyedList

variable {T : Type u} {K : Type v} [LinearOrder K] (key : T → K)

/-- Each key is larger than the ones before it. -/
def Sorted (items : List T) : Prop := items.Pairwise fun a b => key a < key b

/-- The items without a first item that has the key. -/
def dropFound (k : K) : List T → List T
  | item :: items => if key item = k then items else item :: items
  | [] => []

/-- The loop of `SumTree::edit` over the sorted edits. -/
def editLoop : List T → List T → List T
  | [], items => items
  | edit :: edits, items =>
    let newKey := key edit
    items.takeWhile (fun item => key item < newKey) ++
      edit :: editLoop edits (dropFound key newKey (items.dropWhile fun item => key item < newKey))

/-- Items sorted by their keys. -/
def sort (items : List T) : List T := items.insertionSort fun a b => key a ≤ key b

/-- `SumTree::edit` with edits that insert. -/
def edit (edits items : List T) : List T := editLoop key (sort key edits) items

/-- The items from the first one whose key is not smaller. -/
def iterFrom (k : K) (items : List T) : List T := items.dropWhile fun item => key item < k

/-- The first item of a sorted list that has a key. -/
def find? (k : K) (items : List T) : Option T := items.find? fun item => key item = k

variable {key}

theorem Sorted.nodup {items : List T} (h : Sorted key items) : items.Nodup :=
  h.imp fun hlt heq => absurd (heq ▸ hlt) (lt_irrefl _)

/-- Items of a sorted list with one key are equal. -/
theorem Sorted.eq_of_key_eq {items : List T} (h : Sorted key items) {a b : T} (ha : a ∈ items) (hb : b ∈ items)
    (hab : key a = key b) : a = b := by
  induction items with
  | nil => nomatch ha
  | cons x xs ih =>
    obtain ⟨hx, hxs⟩ := pairwise_cons.mp h
    rcases mem_cons.mp ha with hax | ha
    · rcases mem_cons.mp hb with hbx | hb
      · rw [hax, hbx]
      · exact absurd hab (hax ▸ hx b hb).ne
    · rcases mem_cons.mp hb with hbx | hb
      · exact absurd hab (hbx ▸ hx a ha).ne'
      · exact ih hxs ha hb

variable {k : K} {x : T} {edits : List T}

/-- In a sorted list, what `dropWhile` leaves has no smaller key. -/
theorem Sorted.le_of_mem_dropWhile {items : List T} (h : Sorted key items)
    (hx : x ∈ items.dropWhile fun item => key item < k) : k ≤ key x := by
  induction items with
  | nil => nomatch hx
  | cons y ys ih =>
    obtain ⟨hy, hys⟩ := pairwise_cons.mp h
    rw [dropWhile_cons] at hx
    split at hx
    · exact ih hys hx
    · rename_i hge
      have hky : k ≤ key y := by simpa using hge
      rcases mem_cons.mp hx with rfl | hx
      · exact hky
      · exact hky.trans (hy x hx).le

theorem of_find? {items : List T} (h : find? key k items = some x) : x ∈ items ∧ key x = k := by
  have hkey := @List.find?_some _ _ x _ h
  exact ⟨List.mem_of_find?_eq_some h, decide_eq_true_iff.mp hkey⟩

theorem find?_eq_none {items : List T} : find? key k items = none ↔ ∀ x ∈ items, key x ≠ k := by
  unfold find?
  rw [List.find?_eq_none]
  exact forall₂_congr fun x _ => not_congr decide_eq_true_iff

theorem find?_cons_self {items : List T} (x : T) : find? key (key x) (x :: items) = some x := by
  have hx : decide (key x = key x) = true := decide_eq_true rfl
  exact List.find?_cons_of_pos hx

theorem find?_cons_of_ne {items : List T} (h : key x ≠ k) : find? key k (x :: items) = find? key k items := by
  have hx : ¬ decide (key x = k) = true := fun heq => h (decide_eq_true_iff.mp heq)
  exact List.find?_cons_of_neg hx

/-- What comes before a key is not needed to find a key that is not smaller. -/
theorem find?_dropWhile {items : List T} {k' : K} (h : k ≤ k') {p : T → Bool} (hp : ∀ item, p item = true ↔ key item < k) :
    find? key k' (items.dropWhile p) = find? key k' items := by
  induction items with
  | nil => rfl
  | cons x xs ih =>
    rw [dropWhile_cons]
    split
    · rename_i hsma
      have hne : key x ≠ k' := (((hp x).mp hsma).trans_le h).ne
      rw [ih, find?_cons_of_ne hne]
    · rfl

theorem find?_eq_some {items : List T} (h : Sorted key items) : find? key k items = some x ↔ x ∈ items ∧ key x = k := by
  constructor
  · intro hx
    exact ⟨List.mem_of_find?_eq_some hx, by simpa using List.find?_some hx⟩
  · rintro ⟨hx, rfl⟩
    cases hf : find? key _ _ with
    | none => exact absurd (List.find?_eq_none.mp hf x hx) (by simp)
    | some y =>
      have hy : key y = key x := by simpa using List.find?_some hf
      rw [h.eq_of_key_eq (List.mem_of_find?_eq_some hf) hx hy]

theorem mem_dropFound {items : List T} (h : Sorted key items) (hge : ∀ x ∈ items, k ≤ key x) :
    x ∈ dropFound key k items ↔ x ∈ items ∧ k < key x := by
  cases items with
  | nil => simp [dropFound]
  | cons y ys =>
    obtain ⟨hy, -⟩ := pairwise_cons.mp h
    have hky := hge y (by simp)
    rw [dropFound]
    split
    · rename_i heq
      subst heq
      rw [mem_cons]
      refine ⟨fun hx => ⟨.inr hx, hy x hx⟩, ?_⟩
      rintro ⟨rfl | hx, hlt⟩
      · exact absurd hlt (lt_irrefl _)
      · exact hx
    · rename_i hne
      have hlt : k < key y := lt_of_le_of_ne hky (Ne.symm hne)
      refine ⟨fun hx => ⟨hx, ?_⟩, fun hx => hx.1⟩
      rcases mem_cons.mp hx with rfl | hx
      · exact hlt
      · exact hlt.trans (hy x hx)

theorem dropFound_sublist (k : K) (items : List T) : (dropFound key k items).Sublist items := by
  cases items with
  | nil => exact List.Sublist.refl _
  | cons y ys =>
    rw [dropFound]
    split
    · exact sublist_cons_self y ys
    · exact List.Sublist.refl _

/-- The loop over edits with increasing keys keeps the list sorted, replaces the items with the edits' keys and adds the
others. -/
theorem editLoop_spec : ∀ {items : List T}, Sorted key edits → Sorted key items → Sorted key (editLoop key edits items) ∧
      ∀ x, x ∈ editLoop key edits items ↔ x ∈ edits ∨ x ∈ items ∧ key x ∉ edits.map key := by
  induction edits with
  | nil => intro items _ hs; exact ⟨hs, by simp [editLoop]⟩
  | cons e es ih =>
    intro items hes hs
    obtain ⟨he, hes⟩ := pairwise_cons.mp hes
    simp only [editLoop]
    have hspl := takeWhile_append_dropWhile (p := fun item => decide (key item < key e)) (l := items)
    generalize htake : items.takeWhile (fun item => decide (key item < key e)) = small at hspl ⊢
    generalize hdrop : items.dropWhile (fun item => decide (key item < key e)) = rest at hspl ⊢
    have hsma : ∀ x ∈ small, key x < key e := by
      intro x hx
      rw [← htake] at hx
      have hlt := mem_takeWhile_imp hx
      exact of_decide_eq_true hlt
    have hrest : ∀ x ∈ rest, key e ≤ key x := by
      intro x hx
      rw [← hdrop] at hx
      exact hs.le_of_mem_dropWhile hx
    rw [← hspl] at hs
    obtain ⟨hss, hsr, -⟩ := pairwise_append.mp hs
    obtain ⟨hsort, hmem⟩ := ih hes (hsr.sublist (dropFound_sublist (key e) rest))
    have hlar : ∀ x ∈ editLoop key es (dropFound key (key e) rest), key e < key x := by
      intro x hx
      rcases (hmem x).mp hx with hx | ⟨hx, -⟩
      · exact he x hx
      · exact ((mem_dropFound hsr hrest).mp hx).2
    constructor
    · refine pairwise_append.mpr ⟨hss, pairwise_cons.mpr ⟨hlar, hsort⟩, ?_⟩
      intro a ha b hb
      rcases mem_cons.mp hb with rfl | hb
      · exact hsma a ha
      · exact (hsma a ha).trans (hlar b hb)
    · intro x
      rw [mem_append, mem_cons, hmem, mem_dropFound hsr hrest, ← hspl, mem_append, mem_cons, map_cons, mem_cons, not_or]
      constructor
      · rintro (hx | rfl | hx | ⟨⟨hx, hlt⟩, hnot⟩)
        · refine .inr ⟨.inl hx, (hsma x hx).ne, ?_⟩
          intro hm
          obtain ⟨y, hy, hxy⟩ := mem_map.mp hm
          exact absurd ((hsma x hx).trans (he y hy)) (by rw [hxy]; exact lt_irrefl _)
        · exact .inl (.inl rfl)
        · exact .inl (.inr hx)
        · exact .inr ⟨.inr hx, hlt.ne', hnot⟩
      · rintro ((rfl | hx) | ⟨hx | hx, hne, hnot⟩)
        · exact .inr (.inl rfl)
        · exact .inr (.inr (.inl hx))
        · exact .inl hx
        · exact .inr (.inr (.inr ⟨⟨hx, lt_of_le_of_ne (hrest x hx) (Ne.symm hne)⟩, hnot⟩))

theorem perm_sort (items : List T) : (sort key items).Perm items := perm_insertionSort _ _

theorem mem_sort {items : List T} : x ∈ sort key items ↔ x ∈ items := (perm_sort _).mem_iff

theorem pairwise_sort (items : List T) : (sort key items).Pairwise fun a b => key a ≤ key b := by
  exact pairwise_insertionSort _ _

/-- Sorting items with different keys. -/
theorem sorted_sort {items : List T} (hn : (items.map key).Nodup) : Sorted key (sort key items) := by
  have hne : (sort key items).Pairwise fun a b => key a ≠ key b := by
    rw [← pairwise_map]
    exact ((perm_sort _).map key).nodup_iff.mpr hn
  exact ((pairwise_sort _).and hne).imp fun h => lt_of_le_of_ne h.1 h.2

theorem sorted_edit {items : List T} (hn : (edits.map key).Nodup) (hs : Sorted key items) : Sorted key (edit key edits items) :=
  (editLoop_spec (sorted_sort hn) hs).1

/-- Edits with different keys replace the items with their keys and add the others. -/
theorem mem_edit {items : List T} (hn : (edits.map key).Nodup) (hs : Sorted key items) :
    x ∈ edit key edits items ↔ x ∈ edits ∨ x ∈ items ∧ key x ∉ edits.map key := by
  rw [edit, (editLoop_spec (sorted_sort hn) hs).2, mem_sort, ((perm_sort _).map key).mem_iff]

/-! ## Batches in which keys may repeat -/

variable (key) in
/-- The items of a sorted list without those that have the key of the one before. -/
def dedup : List T → List T
  | [] => []
  | item :: items =>
    match dedup items with
    | [] => [item]
    | next :: rest => if key item = key next then item :: rest else item :: next :: rest

variable (key) in
/-- Items are put into a sorted list: they are sorted, and of those with one key the first stays. -/
def insertAll (new items : List T) : List T := edit key (dedup key (sort key new)) items

/-- Sorted items without the ones that repeat a key, when items with one key are one. -/
theorem dedup_spec {items : List T} (hsort : items.Pairwise fun a b => key a ≤ key b)
    (hinj : ∀ a ∈ items, ∀ b ∈ items, key a = key b → a = b) :
    Sorted key (dedup key items) ∧ ∀ x, x ∈ dedup key items ↔ x ∈ items := by
  induction items with
  | nil => exact ⟨List.Pairwise.nil, fun _ => Iff.rfl⟩
  | cons item items ih =>
    obtain ⟨hle, hsort⟩ := pairwise_cons.mp hsort
    obtain ⟨hds, hmem⟩ := ih hsort fun a ha b hb => hinj a (by simp [ha]) b (by simp [hb])
    unfold dedup
    cases hd : dedup key _ with
    | nil =>
      rw [hd] at hmem
      refine ⟨pairwise_singleton _ _, fun x => ?_⟩
      rw [mem_singleton, mem_cons, ← hmem]
      simp
    | cons next rest =>
      rw [hd] at hds hmem
      have hnext : next ∈ items := (hmem next).mp (by simp)
      simp only
      split
      · rename_i heq
        obtain rfl := hinj item (by simp) next (by simp [hnext]) heq
        refine ⟨hds, fun x => ?_⟩
        rw [hmem, mem_cons]
        exact ⟨.inr, fun h => h.elim (fun h => h ▸ hnext) id⟩
      · rename_i hne
        have hlt := lt_of_le_of_ne (hle next hnext) hne
        obtain ⟨hrest, -⟩ := pairwise_cons.mp hds
        refine ⟨pairwise_cons.mpr ⟨fun x hx => ?_, hds⟩, fun x => ?_⟩
        · rcases mem_cons.mp hx with rfl | hx
          · exact hlt
          · exact hlt.trans (hrest x hx)
        · rw [mem_cons, hmem, mem_cons]

/-- When items with one key are one, all that were put in are there. -/
theorem insertAll_spec {new items : List T} (hs : Sorted key items)
    (hinj : ∀ a ∈ new ++ items, ∀ b ∈ new ++ items, key a = key b → a = b) :
    Sorted key (insertAll key new items) ∧ ∀ x, x ∈ insertAll key new items ↔ x ∈ new ∨ x ∈ items := by
  have hnew : ∀ x, x ∈ sort key new ↔ x ∈ new := fun _ => mem_sort
  obtain ⟨hd, hmem⟩ := dedup_spec (pairwise_sort new) fun a ha b hb h =>
    hinj a (mem_append_left _ ((hnew a).mp ha)) b (mem_append_left _ ((hnew b).mp hb)) h
  have hnod : ((dedup key (sort key new)).map key).Nodup := pairwise_map.mpr (hd.imp fun h => h.ne)
  refine ⟨sorted_edit hnod hs, fun x => ?_⟩
  rw [insertAll, mem_edit hnod hs, hmem, hnew]
  constructor
  · rintro (h | ⟨h, -⟩)
    · exact .inl h
    · exact .inr h
  · rintro (h | h)
    · exact .inl h
    · by_cases hin : key x ∈ (dedup key (sort key new)).map key
      · obtain ⟨other, ho, heq⟩ := mem_map.mp hin
        rw [hmem, hnew] at ho
        exact .inl (hinj _ (mem_append_left _ ho) x (mem_append_right _ h) heq ▸ ho)
      · exact .inr ⟨h, hin⟩

end KeyedList

end Wu
