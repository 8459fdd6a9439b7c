import Wu.SumTree.Tree

/-!
# What every operation keeps

`SumTree.WF h t`: the tree `t` has height `h`, every child of a node is one level lower and holds an item, no node has more
than `2 * TREE_BASE` children, the copies of the child summaries are the children's summaries, and every summary is their
sum. For each operation of `Tree.lean` that builds a tree: the result is well-formed, and its items are those of the same
operation on lists.
-/

namespace Wu

open List

universe u v

namespace SumTree

variable {T : Type u} {S : Type v} [Summary S] [Item T S]

/-- The in-order sum of the summaries of a list of items. -/
def itemSum (xs : List T) : S := sum (xs.map Item.summary)

/-- The structural invariant, at a height. -/
def WF : Nat → SumTree T S → Prop
  | 0, leaf summary items itemSummaries =>
    items.length ≤ 2 * treeBase ∧ itemSummaries = items.map Item.summary ∧ summary = sum itemSummaries
  | h + 1, internal height summary childSummaries childTrees =>
    height = h + 1 ∧ childTrees ≠ [] ∧ childTrees.length ≤ 2 * treeBase ∧ (∀ c ∈ childTrees, WF h c ∧ c.toList ≠ []) ∧
      childSummaries = childTrees.map SumTree.summary ∧ summary = sum childSummaries
  | _, _ => False

/-- The children of a node of height `h + 1`. -/
def Children (h : Nat) (cs : List (SumTree T S)) : Prop := ∀ c ∈ cs, WF h c ∧ c.toList ≠ []

variable {h n : Nat} {cs ds : List (SumTree T S)} {t : SumTree T S} {s : S} {xs : List T} {ss : List S}

theorem Children.append (hc : Children h cs) (hd : Children h ds) : Children h (cs ++ ds) := by
  intro c hm
  rcases mem_append.mp hm with hm | hm
  · exact hc c hm
  · exact hd c hm

theorem Children.sublist (hc : Children h cs) (hs : ds.Sublist cs) : Children h ds :=
  fun c hm => hc c (hs.subset hm)

theorem Children.singleton (ht : WF h t) (hne : t.toList ≠ []) : Children h [t] := by
  intro c hm
  rw [mem_singleton] at hm
  subst hm
  exact ⟨ht, hne⟩

/-- A nonempty list of children holds an item. -/
theorem Children.flatMap_ne_nil (hc : Children h cs) (hne : cs ≠ []) : cs.flatMap toList ≠ [] := by
  obtain ⟨c, cs, rfl⟩ := exists_cons_of_ne_nil hne
  intro h0
  exact (hc c (by simp)).2 (append_eq_nil_iff.mp h0).1

@[simp] theorem wf_leaf : WF h (leaf s xs ss) ↔ h = 0 ∧ xs.length ≤ 2 * treeBase ∧ ss = xs.map Item.summary ∧ s = sum ss := by
  cases h with
  | zero => exact ⟨fun hw => ⟨rfl, hw⟩, fun hw => hw.2⟩
  | succ h => exact ⟨False.elim, fun hw => Nat.succ_ne_zero h hw.1⟩

@[simp] theorem wf_internal {height : Nat} : WF h (internal height s ss cs) ↔
      ∃ k, h = k + 1 ∧ height = k + 1 ∧ cs ≠ [] ∧ cs.length ≤ 2 * treeBase ∧ Children k cs ∧
        ss = cs.map SumTree.summary ∧ s = sum ss := by
  cases h with
  | zero => exact ⟨False.elim, fun ⟨k, hk, _⟩ => Nat.succ_ne_zero k hk.symm⟩
  | succ h =>
    constructor
    · intro hw
      exact ⟨h, rfl, hw⟩
    · rintro ⟨k, hk, hw⟩
      obtain rfl : h = k := Nat.succ.inj hk
      exact hw

/-- A tree of height 0 is a leaf. -/
theorem WF.zero (ht : WF 0 t) : ∃ xs : List T, xs.length ≤ 2 * treeBase ∧
    t = leaf (sum (xs.map Item.summary)) xs (xs.map Item.summary) := by
  cases t with
  | leaf s xs ss =>
    obtain ⟨-, hlen, rfl, rfl⟩ := wf_leaf.mp ht
    exact ⟨xs, hlen, rfl⟩
  | internal height s ss cs =>
    obtain ⟨k, hk, -⟩ := wf_internal.mp ht
    exact absurd hk (by omega)

/-- A tree of a greater height is a node over trees that are one level lower. -/
theorem WF.succ (ht : WF (h + 1) t) : ∃ cs, cs ≠ [] ∧ cs.length ≤ 2 * treeBase ∧ Children h cs ∧
    t = internal (h + 1) (sum (cs.map SumTree.summary)) (cs.map SumTree.summary) cs := by
  cases t with
  | leaf s xs ss => exact absurd (wf_leaf.mp ht).1 (by omega)
  | internal height s ss cs =>
    obtain ⟨k, hk, rfl, hne, hlen, hc, rfl, rfl⟩ := wf_internal.mp ht
    obtain rfl : k = h := by omega
    exact ⟨cs, hne, hlen, hc, rfl⟩

theorem WF.height_eq (ht : WF h t) : t.height = h := by
  cases t with
  | leaf s xs ss => exact (wf_leaf.mp ht).1.symm
  | internal height s ss cs =>
    obtain ⟨k, rfl, rfl, -⟩ := wf_internal.mp ht
    rfl

theorem WF.eq_leaf_nil (ht : WF h t) (hne : t.toList = []) : ∃ s ss, t = leaf s [] ss := by
  cases t with
  | leaf s xs ss =>
    rw [toList_leaf] at hne
    exact ⟨s, ss, by rw [hne]⟩
  | internal height s ss cs =>
    obtain ⟨k, -, -, hcs, -, hc, -⟩ := wf_internal.mp ht
    rw [toList_internal] at hne
    exact absurd hne (hc.flatMap_ne_nil hcs)

/-- A well-formed tree is empty exactly when it holds no item. -/
theorem WF.isEmpty_iff (ht : WF h t) : t.isEmpty = true ↔ t.toList = [] := by
  cases t with
  | leaf s xs ss => simp [isEmpty]
  | internal height s ss cs =>
    obtain ⟨k, -, -, hne, -, hc, -⟩ := wf_internal.mp ht
    have := hc.flatMap_ne_nil hne
    simp [isEmpty, this]

theorem WF.not_isEmpty (ht : WF h t) (hne : t.toList ≠ []) : t.isEmpty = false := by
  rw [Bool.eq_false_iff]
  exact fun h0 => hne (ht.isEmpty_iff.mp h0)

section Lawful

variable [LawfulSummary S]

theorem itemSum_append (xs : List T) {ys : List T} (hy : ys ≠ []) :
    itemSum (xs ++ ys) = Summary.addSummary (itemSum xs : S) (itemSum ys) := by
  rw [itemSum, map_append, sum_append _ (by simpa using hy)]
  rfl

/-- Trees that each hold an item, and whose summaries are the sums over their items, sum to the sum over all items. -/
theorem sum_map_summary (cs : List (SumTree T S)) (h : ∀ c ∈ cs, c.summary = itemSum c.toList ∧ c.toList ≠ []) :
    sum (cs.map summary) = itemSum (cs.flatMap toList) := by
  have hmap : cs.map summary = (cs.map fun c => c.toList.map Item.summary).map sum := by
    rw [map_map]
    exact map_congr_left fun c hm => (h c hm).1
  have hflat : (cs.map fun c => c.toList.map Item.summary).flatten = (cs.flatMap toList).map Item.summary := by
    simp [flatMap, map_flatten, map_map, Function.comp_def]
  rw [itemSum, hmap, ← hflat]
  refine (sum_flatten _ ?_).symm
  intro l hl
  obtain ⟨c, hm, rfl⟩ := mem_map.mp hl
  simpa using (h c hm).2

/-- The summary of a well-formed node is the in-order sum of the summaries of its items. -/
theorem WF.summary_eq {h : Nat} : ∀ {t : SumTree T S}, WF h t → t.summary = itemSum t.toList := by
  induction h with
  | zero =>
    intro t ht
    obtain ⟨xs, -, rfl⟩ := ht.zero
    simp [itemSum, summary]
  | succ h ih =>
    intro t ht
    obtain ⟨cs, -, -, hc, rfl⟩ := ht.succ
    rw [toList_internal]
    exact sum_map_summary cs fun c hm => ⟨ih (hc c hm).1, (hc c hm).2⟩

/-- The summaries of the children sum to the sum over all their items. -/
theorem Children.sum_eq {h : Nat} {cs : List (SumTree T S)} (hc : Children h cs) :
    sum (cs.map summary) = itemSum (cs.flatMap toList) :=
  sum_map_summary cs fun c hm => ⟨(hc c hm).1.summary_eq, (hc c hm).2⟩

/-- A node over well-formed children, with the sum over all their items for its summary, is well-formed. -/
theorem Children.wf {h : Nat} {cs : List (SumTree T S)} {s : S} (hc : Children h cs) (hne : cs ≠ [])
    (hlen : cs.length ≤ 2 * treeBase) (hs : s = itemSum (cs.flatMap toList)) :
    WF (h + 1) (internal (h + 1) s (cs.map summary) cs) :=
  wf_internal.mpr ⟨h, rfl, rfl, hne, hlen, hc, rfl, hs.trans hc.sum_eq.symm⟩

end Lawful

/-! ## A node and what overflows from it -/

/-- What an operation on a node that may overflow to its right leaves: the node and the node split off it, of the same
height, with the items `xs` between them. -/
def SplitsRight (h : Nat) (xs : List T) : SumTree T S × Option (SumTree T S) → Prop
  | (t, none) => WF h t ∧ t.toList = xs
  | (t, some r) => WF h t ∧ t.toList ≠ [] ∧ WF h r ∧ r.toList ≠ [] ∧ t.toList ++ r.toList = xs

/-- What an operation on a node that may overflow to its left leaves. -/
def SplitsLeft (h : Nat) (xs : List T) : SumTree T S × Option (SumTree T S) → Prop
  | (t, none) => WF h t ∧ t.toList = xs
  | (t, some l) => WF h t ∧ t.toList ≠ [] ∧ WF h l ∧ l.toList ≠ [] ∧ l.toList ++ t.toList = xs

/-- A leaf over at most `2 * TREE_BASE` items is well-formed. -/
theorem wf_leaf_of_length (hlen : xs.length ≤ 2 * treeBase) (hs : s = itemSum xs) : WF 0 (leaf s xs (xs.map Item.summary)) :=
  wf_leaf.mpr ⟨rfl, hlen, rfl, hs⟩

/-- Both halves of a list cut strictly inside it are nonempty. -/
theorem take_drop_ne_nil {α : Type u} {l : List α} (h0 : 0 < n) (hn : n < l.length) : l.take n ≠ [] ∧ l.drop n ≠ [] := by
  constructor
  · intro h
    rw [take_eq_nil_iff] at h
    rcases h with h | h
    · omega
    · rw [h, length_nil] at hn
      omega
  · intro h
    rw [drop_eq_nil_iff] at h
    omega

theorem midpoint_bounds (h : 2 * treeBase < n) (h' : n ≤ 4 * treeBase) :
    0 < midpoint n ∧ midpoint n < n ∧ midpoint n ≤ 2 * treeBase ∧ n - midpoint n ≤ 2 * treeBase := by
  unfold midpoint
  omega

/-- Two leaves cut out of a list of items, with their sums for summaries. -/
theorem leaves_wf (xs : List T) (h0 : 0 < n) (hn : n < xs.length) (h1 : n ≤ 2 * treeBase) (h2 : xs.length - n ≤ 2 * treeBase) :
    let l : SumTree T S := leaf (sum ((xs.map Item.summary).take n)) (xs.take n) ((xs.map Item.summary).take n)
    let r : SumTree T S := leaf (sum ((xs.map Item.summary).drop n)) (xs.drop n) ((xs.map Item.summary).drop n)
    WF 0 l ∧ l.toList ≠ [] ∧ WF 0 r ∧ r.toList ≠ [] ∧ l.toList ++ r.toList = xs := by
  obtain ⟨ht, hd⟩ := take_drop_ne_nil h0 hn
  simp only [wf_leaf, toList_leaf, map_take, map_drop, length_take, length_drop, true_and, and_true, take_append_drop]
  exact ⟨by omega, ht, h2, hd⟩

omit [Item T S] in
/-- Pushing to the last child is pushing to the last of the children. -/
theorem pushTreeLast_concat (cs : List (SumTree T S)) (t other : SumTree T S) :
    pushTreeLast (cs ++ [t]) other = (cs ++ [(pushTreeRecursive t other).1], (pushTreeRecursive t other).2) := by
  induction cs with
  | nil => simp [pushTreeLast]
  | cons c cs ih =>
    cases hcs : cs ++ [t] with
    | nil => simp at hcs
    | cons d ds =>
      rw [cons_append, hcs, pushTreeLast, ← hcs, ih]
      simp

section Lawful

variable [LawfulSummary S]

variable {h : Nat} {cs : List (SumTree T S)} {s : S} {small self : SumTree T S}

/-- Two nodes cut out of a list of children, with their sums for summaries. -/
theorem nodes_wf (hc : Children h cs) {n : Nat} (h0 : 0 < n) (hn : n < cs.length)
    (h1 : n ≤ 2 * treeBase) (h2 : cs.length - n ≤ 2 * treeBase) :
    let l := internal (h + 1) (sum ((cs.map summary).take n)) ((cs.map summary).take n) (cs.take n)
    let r := internal (h + 1) (sum ((cs.map summary).drop n)) ((cs.map summary).drop n) (cs.drop n)
    WF (h + 1) l ∧ l.toList ≠ [] ∧ WF (h + 1) r ∧ r.toList ≠ [] ∧ l.toList ++ r.toList = cs.flatMap toList := by
  obtain ⟨ht, hd⟩ := take_drop_ne_nil h0 hn
  have hct : Children h (cs.take n) := hc.sublist (take_sublist n cs)
  have hcd : Children h (cs.drop n) := hc.sublist (drop_sublist n cs)
  simp only [← map_take, ← map_drop, toList_internal]
  refine ⟨hct.wf ht ?_ hct.sum_eq, hct.flatMap_ne_nil ht, hcd.wf hd ?_ hcd.sum_eq, hcd.flatMap_ne_nil hd, ?_⟩
  · rw [length_take]; omega
  · rw [length_drop]; omega
  · rw [← flatMap_append, take_append_drop]

/-! ## Appending a tree that is not higher -/

theorem pushChildren_splits {ds : List (SumTree T S)} (hc : Children h cs) (hd : Children h ds)
    (hne : cs ≠ []) (hcl : cs.length ≤ 2 * treeBase) (hdl : ds.length ≤ 2 * treeBase)
    (hs : s = itemSum ((cs ++ ds).flatMap toList)) :
    SplitsRight (h + 1) ((cs ++ ds).flatMap toList) (pushChildren (h + 1) s (cs.map summary) cs (ds.map summary) ds) := by
  have hcd := hc.append hd
  unfold pushChildren
  simp only [← map_append]
  split
  · rename_i hgt
    obtain ⟨b1, b2, b3, b4⟩ := midpoint_bounds hgt (by omega)
    rw [← length_append] at b2 b4
    exact nodes_wf hcd b1 (by rwa [length_append] at b2 ⊢) b3 (by rwa [length_append] at b4 ⊢)
  · exact ⟨hcd.wf (by simp [hne]) (by rw [length_append]; omega) hs, toList_internal ..⟩

theorem pushTreeRecursive_splits : ∀ {self other : SumTree T S} {k : Nat}, WF h self → self.toList ≠ [] →
    WF k other → other.toList ≠ [] → k ≤ h →
    SplitsRight h (self.toList ++ other.toList) (pushTreeRecursive self other) := by
  induction h with
  | zero =>
    intro self other k hw hne hw' hne' hk
    obtain rfl : k = 0 := by omega
    obtain ⟨xs, hl, rfl⟩ := hw.zero
    obtain ⟨ys, hl', rfl⟩ := hw'.zero
    simp only [pushTreeRecursive, items, childSummaries, ← map_append, toList_leaf]
    split
    · rename_i hgt
      obtain ⟨b1, b2, b3, b4⟩ := midpoint_bounds hgt (by omega)
      exact leaves_wf _ b1 (by rwa [length_append]) b3 (by rwa [length_append])
    · refine ⟨wf_leaf_of_length (by rw [length_append]; omega) ?_, toList_leaf ..⟩
      rw [itemSum_append _ (by simpa using hne')]
      rfl
  | succ h ih =>
    intro self other k hw hne hw' hne' hk
    have hsum := hw.summary_eq
    obtain ⟨cs, hcs, hcl, hc, rfl⟩ := hw.succ
    simp only [SumTree.summary, toList_internal] at hsum ⊢
    generalize sum (cs.map summary) = s at hsum ⊢
    have hadd : Summary.addSummary s other.summary = itemSum (cs.flatMap toList ++ other.toList) := by
      rw [itemSum_append _ hne', hsum, hw'.summary_eq]
    have hoh := hw'.height_eq
    simp only [pushTreeRecursive]
    split
    · -- the two are of one height: the children of `other` become children here
      obtain rfl : k = h + 1 := by omega
      obtain ⟨ds, -, hdl, hd, rfl⟩ := hw'.succ
      rw [toList_internal, ← flatMap_append] at hadd ⊢
      exact pushChildren_splits hc hd hcs hcl hdl hadd
    · split
      · -- `other` becomes a child
        obtain rfl : k = h := by omega
        have hd := Children.singleton hw' hne'
        have hflat : cs.flatMap toList ++ other.toList = (cs ++ [other]).flatMap toList := by simp
        rw [hflat] at hadd ⊢
        exact pushChildren_splits hc hd hcs hcl (by have := two_le_treeBase; simp; omega) hadd
      · -- `other` goes below the last child
        have hkh : k ≤ h := by omega
        obtain ⟨ds, t, rfl⟩ := (eq_nil_or_concat cs).resolve_left hcs
        rw [concat_eq_append] at *
        obtain ⟨htw, htne⟩ := hc t (by simp)
        have hds : Children h ds := hc.sublist (sublist_append_left _ _)
        have hsp := ih htw htne hw' hne' hkh
        rw [pushTreeLast_concat]
        obtain ⟨t', split, ht'⟩ : ∃ t' split, pushTreeRecursive t other = (t', split) := ⟨_, _, rfl⟩
        rw [ht'] at hsp ⊢
        have hflat : (ds ++ [t]).flatMap toList ++ other.toList
            = ds.flatMap toList ++ (t.toList ++ other.toList) := by simp
        rw [hflat] at hadd ⊢
        cases split with
        | none =>
          obtain ⟨htw', htl⟩ := hsp
          have hne2 : t'.toList ≠ [] := by rw [htl]; simp [htne]
          have hcs' := hds.append (Children.singleton htw' hne2)
          have := pushChildren_splits hcs' (show Children _ [] by simp [Children]) (by simp) (by simpa using hcl) (by simp)
            (s := Summary.addSummary s _) (by rw [hadd, ← htl]; simp)
          simpa [← htl] using this
        | some r =>
          obtain ⟨htw', htne', hrw, hrne, htl⟩ := hsp
          have hcs' := hds.append (Children.singleton htw' htne')
          have := pushChildren_splits hcs' (Children.singleton hrw hrne) (by simp) (by simpa using hcl)
            (by have := two_le_treeBase; simp; omega)
            (s := Summary.addSummary s _) (by rw [hadd, ← htl]; simp)
          simpa [← htl] using this

/-! ## Appending a tree that is higher -/

theorem mergeIntoRight_splits {large : SumTree T S} (hw : WF h small) (hw' : WF h large)
    (hne' : large.toList ≠ []) : SplitsLeft h (small.toList ++ large.toList) (mergeIntoRight small large) := by
  have hadd : Summary.addSummary small.summary large.summary = itemSum (small.toList ++ large.toList) := by
    rw [itemSum_append _ hne', hw.summary_eq, hw'.summary_eq]
  cases small with
  | leaf s xs ss =>
    obtain ⟨rfl, hl, rfl, -⟩ := wf_leaf.mp hw
    obtain ⟨ys, hl', rfl⟩ := hw'.zero
    simp only [mergeIntoRight, ← map_append, toList_leaf, SumTree.summary] at hadd ⊢
    split
    · exact ⟨wf_leaf_of_length (by rw [length_append]; omega) hadd, toList_leaf ..⟩
    · obtain ⟨h1, h2, h3, h4, h5⟩ := leaves_wf (xs ++ ys) (n := (xs.length + ys.length + 1) / 2)
        (by omega) (by rw [length_append]; omega) (by omega) (by rw [length_append]; omega)
      exact ⟨h3, h4, h1, h2, h5⟩
  | internal height s ss cs =>
    obtain ⟨k, rfl, -, hcs, hl, hc, rfl, -⟩ := wf_internal.mp hw
    obtain ⟨ds, -, hl', hd, rfl⟩ := hw'.succ
    have hcd := hc.append hd
    simp only [mergeIntoRight, ← map_append, toList_internal, ← flatMap_append, SumTree.summary] at hadd ⊢
    split
    · exact ⟨hcd.wf (by simp [hcs]) (by rw [length_append]; omega) hadd, toList_internal ..⟩
    · obtain ⟨h1, h2, h3, h4, h5⟩ := nodes_wf hcd (n := (ds.length + cs.length + 1) / 2)
        (by omega) (by rw [length_append]; omega) (by omega) (by rw [length_append]; omega)
      exact ⟨h3, h4, h1, h2, h5⟩

theorem insertFirst_splits {t first : SumTree T S} {ts : List (SumTree T S)} {res : Option (SumTree T S)}
    {xs : List T} (hsp : SplitsLeft h xs (first, res)) (hxs : xs ≠ []) (hts : Children h ts)
    (hlen : ts.length + 1 ≤ 2 * treeBase) (hs : s = itemSum (xs ++ ts.flatMap toList)) :
    SplitsLeft (h + 1) (xs ++ ts.flatMap toList) (insertFirst (h + 1) s ((t :: ts).map summary) first ts res) := by
  cases res with
  | none =>
    obtain ⟨hw, rfl⟩ := hsp
    have hc : Children h (first :: ts) := (Children.singleton hw hxs).append hts
    exact ⟨hc.wf (by simp) (by simpa using hlen) (by simpa using hs), by simp⟩
  | some tree =>
    obtain ⟨hw, hne, hw', hne', rfl⟩ := hsp
    have hc : Children h (first :: ts) := (Children.singleton hw hne).append hts
    simp only [insertFirst, map_cons, tail_cons, length_cons]
    split
    · have hc' : Children h (tree :: first :: ts) := (Children.singleton hw' hne').append hc
      exact ⟨hc'.wf (by simp) (by simp; omega) (by simpa using hs), by simp⟩
    · -- the node is full: it keeps all but the first `TREE_BASE` children
      have hct : Children h (tree :: (first :: ts).take treeBase) :=
        (Children.singleton hw' hne').append (hc.sublist (take_sublist treeBase (first :: ts)))
      have hcd : Children h ((first :: ts).drop treeBase) := hc.sublist (drop_sublist _ _)
      have hdne : (first :: ts).drop treeBase ≠ [] := by
        intro h0
        rw [drop_eq_nil_iff, length_cons] at h0
        omega
      have hsumd := hcd.sum_eq
      have hsumt := hct.sum_eq
      rw [map_drop, map_cons] at hsumd
      rw [map_cons, map_take, map_cons] at hsumt
      have hwd := hcd.wf hdne (by rw [length_drop, length_cons]; omega) hsumd
      have hwt := hct.wf (by simp) (by rw [length_cons, length_take]; omega) hsumt
      rw [map_drop, map_cons] at hwd
      rw [map_cons, map_take, map_cons] at hwt
      refine ⟨hwd, ?_, hwt, ?_, ?_⟩
      · rw [toList_internal]
        exact hcd.flatMap_ne_nil hdne
      · rw [toList_internal]
        exact hct.flatMap_ne_nil (by simp)
      · simp only [toList_internal, flatMap_cons, append_assoc]
        rw [← flatMap_append, take_append_drop, flatMap_cons]

theorem appendLarge_splits {k : Nat} (hw : WF k small) (hne : small.toList ≠ []) :
    ∀ {large : SumTree T S}, WF h large → large.toList ≠ [] → k ≤ h →
      SplitsLeft h (small.toList ++ large.toList) (appendLarge small large) := by
  induction h with
  | zero =>
    intro large hw' hne' hk
    obtain rfl : k = 0 := by omega
    obtain ⟨xs, -, rfl⟩ := hw'.zero
    simp only [appendLarge]
    split
    · exact ⟨hw', hne', hw, hne, rfl⟩
    · exact mergeIntoRight_splits hw hw' hne'
  | succ h ih =>
    intro large hw' hne' hk
    have hsum := hw'.summary_eq
    obtain ⟨cs, hcs, hcl, hc, rfl⟩ := hw'.succ
    simp only [appendLarge]
    split
    · rename_i heq
      obtain rfl : k = h + 1 := by rw [← hw.height_eq, heq]
      split
      · exact ⟨hw', hne', hw, hne, rfl⟩
      · exact mergeIntoRight_splits hw hw' hne'
    · rename_i hneq
      rw [hw.height_eq] at hneq
      obtain ⟨t, ts, rfl⟩ := exists_cons_of_ne_nil hcs
      obtain ⟨htw, htne⟩ := hc t (by simp)
      have hts : Children h ts := fun c hm => hc c (by simp [hm])
      have hsp := ih htw htne (by omega)
      have hadd : Summary.addSummary small.summary (sum ((t :: ts).map SumTree.summary)) = itemSum ((small.toList ++ t.toList) ++ ts.flatMap toList) := by
        rw [append_assoc, itemSum_append _ (by simp [htne]), hw.summary_eq]
        simp only [SumTree.summary, toList_internal, flatMap_cons] at hsum
        rw [hsum]
      have := insertFirst_splits (t := t) hsp (by simp [hne]) hts (by simpa using hcl) hadd
      simpa [appendLargeFirst] using this

/-! ## `append` -/

theorem fromChildTrees_wf {l r : SumTree T S} (hl : WF h l) (hln : l.toList ≠ []) (hr : WF h r) (hrn : r.toList ≠ []) :
    WF (h + 1) (fromChildTrees l r) ∧ (fromChildTrees l r).toList = l.toList ++ r.toList := by
  have hc : Children h [l, r] := (Children.singleton hl hln).append (Children.singleton hr hrn)
  refine ⟨?_, by simp [fromChildTrees]⟩
  rw [fromChildTrees, hl.height_eq]
  exact hc.wf (by simp) (by have := two_le_treeBase; simp; omega) hc.sum_eq

/-- A tree is well-formed at some height. -/
def WellFormed (t : SumTree T S) : Prop := ∃ h, WF h t

/-- `append` keeps trees well-formed and puts their items together. -/
theorem append_wf {other : SumTree T S} (hw : WellFormed self) (hw' : WellFormed other) :
    WellFormed (self.append other) ∧ (self.append other).toList = self.toList ++ other.toList := by
  obtain ⟨h, hw⟩ := hw
  obtain ⟨k, hw'⟩ := hw'
  unfold append
  split
  · rename_i he
    rw [hw.isEmpty_iff.mp he]
    exact ⟨⟨k, hw'⟩, rfl⟩
  · rename_i he
    have hne : self.toList ≠ [] := fun h0 => he (hw.isEmpty_iff.mpr h0)
    split
    · rename_i ho
      have hne' : other.toList ≠ [] := by
        cases other with
        | leaf s xs ss => simpa [isLeaf, items] using ho
        | internal height s ss cs =>
          obtain ⟨j, -, -, hcs, -, hc, -⟩ := wf_internal.mp hw'
          rw [toList_internal]
          exact hc.flatMap_ne_nil hcs
      split
      · rename_i hlt
        rw [hw.height_eq, hw'.height_eq] at hlt
        have hsp := appendLarge_splits hw hne hw' hne' (by omega)
        split
        · rename_i large tree heq
          rw [heq] at hsp
          obtain ⟨h1, h2, h3, h4, h5⟩ := hsp
          obtain ⟨h6, h7⟩ := fromChildTrees_wf h3 h4 h1 h2
          exact ⟨⟨_, h6⟩, h7.trans h5⟩
        · rename_i large heq
          rw [heq] at hsp
          exact ⟨⟨_, hsp.1⟩, hsp.2⟩
      · rename_i hlt
        rw [hw.height_eq, hw'.height_eq] at hlt
        have hsp := pushTreeRecursive_splits hw hne hw' hne' (by omega)
        split
        · rename_i t split heq
          rw [heq] at hsp
          obtain ⟨h1, h2, h3, h4, h5⟩ := hsp
          obtain ⟨h6, h7⟩ := fromChildTrees_wf h1 h2 h3 h4
          exact ⟨⟨_, h6⟩, h7.trans h5⟩
        · rename_i t heq
          rw [heq] at hsp
          exact ⟨⟨_, hsp.1⟩, hsp.2⟩
    · rename_i ho
      have hnil : other.toList = [] := by
        cases other with
        | leaf s xs ss => simpa [isLeaf, items] using ho
        | internal height s ss cs => simp [isLeaf] at ho
      exact ⟨⟨h, hw⟩, by rw [hnil, append_nil]⟩

theorem push_wf (hw : WellFormed self) (item : T) :
    WellFormed (self.push item) ∧ (self.push item).toList = self.toList ++ [item] := by
  have hleaf : WellFormed (leaf (Item.summary item) [item] [Item.summary item] : SumTree T S) :=
    ⟨0, wf_leaf_of_length (by have := two_le_treeBase; simp; omega) (by simp [itemSum])⟩
  have h := append_wf hw hleaf
  exact h

end Lawful

theorem new_wf : WellFormed (new : SumTree T S) := ⟨0, by simp [new]⟩

omit [Item T S] in
@[simp] theorem toList_new : (new : SumTree T S).toList = [] := by simp [new]

/-! ## Building from a list -/

/-- What the loop that cuts a list into pieces keeps: full pieces, then one that is not full. -/
theorem foldl_chunkStep {α : Type u} (l : List α) (acc : List (List α) × List α)
    (hfull : ∀ c ∈ acc.1, c.length = 2 * treeBase) (hlast : acc.2.length < 2 * treeBase) :
    (∀ c ∈ (l.foldl chunkStep acc).1, c.length = 2 * treeBase) ∧ (l.foldl chunkStep acc).2.length < 2 * treeBase ∧
      (l.foldl chunkStep acc).1.flatten ++ (l.foldl chunkStep acc).2 = acc.1.flatten ++ acc.2 ++ l := by
  induction l generalizing acc with
  | nil => exact ⟨hfull, hlast, by simp⟩
  | cons a l ih =>
    rw [foldl_cons]
    have hstep : (∀ c ∈ (chunkStep acc a).1, c.length = 2 * treeBase) ∧ (chunkStep acc a).2.length < 2 * treeBase ∧
        (chunkStep acc a).1.flatten ++ (chunkStep acc a).2 = acc.1.flatten ++ acc.2 ++ [a] := by
      unfold chunkStep
      split
      · rename_i heq
        refine ⟨?_, by simp; omega, by simp⟩
        intro c hc
        rcases mem_append.mp hc with hc | hc
        · exact hfull c hc
        · rw [mem_singleton.mp hc, length_append, length_singleton, heq]
      · exact ⟨hfull, by simp; omega, by simp⟩
    obtain ⟨h1, h2, h3⟩ := ih _ hstep.1 hstep.2.1
    exact ⟨h1, h2, by rw [h3, hstep.2.2]; simp⟩

/-- The pieces of a list: together they are the list, none is empty or too long, and there are fewer of them than members
of the list, unless it has at most one. -/
theorem chunks_spec {α : Type u} (l : List α) : (chunks l).flatten = l ∧ (∀ c ∈ chunks l, c ≠ [] ∧ c.length ≤ 2 * treeBase) ∧
      (1 < l.length → (chunks l).length < l.length) ∧ (l ≠ [] → chunks l ≠ []) := by
  obtain ⟨h1, h2, h3⟩ := foldl_chunkStep l ([], []) (by simp) (by have := two_le_treeBase; simp; omega)
  have hlen : (l.foldl chunkStep ([], [])).1.length * (2 * treeBase) + (l.foldl chunkStep ([], [])).2.length
      = l.length := by
    have hmap : (l.foldl chunkStep ([], [])).1.map List.length
        = replicate (l.foldl chunkStep ([], [])).1.length (2 * treeBase) := by
      rw [eq_replicate_iff]
      exact ⟨by simp, fun n hn => by obtain ⟨c, hc, rfl⟩ := mem_map.mp hn; exact h1 c hc⟩
    have := congrArg List.length h3
    rw [length_append, length_flatten, hmap, sum_replicate_nat] at this
    exact this
  have hfl : (chunks l).flatten = l := by
    simp only [chunks]
    split
    · rename_i he
      rw [List.isEmpty_iff.mp he, append_nil] at h3
      exact h3
    · rw [flatten_append, flatten_singleton]
      exact h3
  refine ⟨hfl, ?_, ?_, ?_⟩
  · intro c hc
    have hbase := two_le_treeBase
    have hmem : c ∈ (l.foldl chunkStep ([], [])).1 ∨ (c = (l.foldl chunkStep ([], [])).2 ∧ c ≠ []) := by
      simp only [chunks] at hc
      split at hc
      · exact Or.inl hc
      · rename_i he
        rcases mem_append.mp hc with hc | hc
        · exact Or.inl hc
        · rw [mem_singleton] at hc
          exact Or.inr ⟨hc, fun h0 => he (by rw [← hc, h0]; rfl)⟩
    rcases hmem with hc | ⟨rfl, hc⟩
    · have := h1 c hc
      exact ⟨fun h0 => by rw [h0, length_nil] at this; omega, by omega⟩
    · exact ⟨hc, by omega⟩
  · have hle : (chunks l).length ≤ (l.foldl chunkStep ([], [])).1.length + 1 := by
      simp only [chunks]
      split <;> simp
    unfold treeBase at hlen
    omega
  · intro hl h0
    rw [h0] at hfl
    exact hl hfl.symm

section Lawful

variable [LawfulSummary S]

theorem sumFromFirst_eq (l : List S) : sumFromFirst l = sum l := by
  cases l with
  | nil => rfl
  | cons s l => exact (sum_cons_eq_foldl s l).symm

omit [Item T S] in
/-- The levels `from_par_iter` builds are those `from_iter` builds. -/
theorem parParentLevels_eq (n height : Nat) (nodes : List (SumTree T S)) :
    parParentLevels n height nodes = parentLevels n height nodes := by
  induction n generalizing height nodes with
  | zero => rfl
  | succ n ih => simp only [parParentLevels, parentLevels, sumFromFirst_eq, ih]

/-- The loop over the levels ends with one node over all the items. -/
theorem parentLevels_spec (n : Nat) {h : Nat} {nodes : List (SumTree T S)} (hc : Children h nodes)
    (hlen : nodes.length ≤ n + 1) (hne : nodes ≠ []) :
    ∃ k t, parentLevels n h nodes = [t] ∧ WF k t ∧ t.toList = nodes.flatMap toList := by
  induction n generalizing h nodes with
  | zero =>
    obtain ⟨t, rfl⟩ := length_eq_one_iff.mp (by
      have := length_pos_iff.mpr hne
      omega : nodes.length = 1)
    exact ⟨h, t, rfl, (hc t (by simp)).1, by simp⟩
  | succ n ih =>
    rw [parentLevels]
    split
    · obtain ⟨t, rfl⟩ := length_eq_one_iff.mp (by
        have := length_pos_iff.mpr hne
        omega : nodes.length = 1)
      exact ⟨h, t, rfl, (hc t (by simp)).1, by simp⟩
    · obtain ⟨hfl, hch, hlt, hnn⟩ := chunks_spec nodes
      have hpar : Children (h + 1)
          ((chunks nodes).map fun cs => internal (h + 1) (sum (cs.map summary)) (cs.map summary) cs) := by
        intro c hm
        obtain ⟨cs, hcs, rfl⟩ := mem_map.mp hm
        have hsub : Children h cs := fun d hd => hc d (by rw [← hfl]; exact mem_flatten.mpr ⟨cs, hcs, hd⟩)
        refine ⟨hsub.wf (hch cs hcs).1 (hch cs hcs).2 hsub.sum_eq, ?_⟩
        rw [toList_internal]
        exact hsub.flatMap_ne_nil (hch cs hcs).1
      obtain ⟨k, t, ht, hw, hl⟩ := ih hpar (by rw [length_map]; have := hlt (by omega); omega) (by simpa using hnn hne)
      refine ⟨k, t, ht, hw, hl.trans ?_⟩
      conv_rhs => rw [← hfl]
      simp [flatMap, map_flatten, flatten_flatten, Function.comp_def]

theorem fromIter_wf (xs : List T) : WellFormed (fromIter xs : SumTree T S) ∧ (fromIter xs : SumTree T S).toList = xs := by
  obtain ⟨hfl, hch, -, hnn⟩ := chunks_spec xs
  unfold fromIter
  by_cases hxs : xs = []
  · subst hxs
    exact ⟨new_wf, toList_new⟩
  · have hleav : Children 0 ((chunks xs).map (leafOf (S := S))) := by
      intro c hm
      obtain ⟨cs, hcs, rfl⟩ := mem_map.mp hm
      rw [leafOf, sumFromFirst_eq]
      exact ⟨wf_leaf_of_length (hch cs hcs).2 rfl, (hch cs hcs).1⟩
    obtain ⟨k, t, ht, hw, hl⟩ := parentLevels_spec ((chunks xs).map (leafOf)).length hleav (by omega) (by simpa using hnn hxs)
    simp only [ht, getLast?_singleton, Option.getD_some]
    refine ⟨⟨k, hw⟩, hl.trans ?_⟩
    rw [flatMap_map]
    simp only [leafOf, toList_leaf]
    simpa [flatMap] using hfl

/-- `from_par_iter` and `from_iter` build the same tree. -/
theorem fromParIter_eq (xs : List T) : (fromParIter xs : SumTree T S) = fromIter xs := by
  simp only [fromParIter, fromIter, parParentLevels_eq]

/-! ## Changing the item at an end -/

/-- A list with its last member changed. -/
def modifyLast {α : Type u} (f : α → α) (l : List α) : List α := l.dropLast ++ (l.getLast?.map f).toList

theorem modifyLast_append {α : Type u} (f : α → α) (l : List α) {m : List α} (hm : m ≠ []) :
    modifyLast f (l ++ m) = l ++ modifyLast f m := by
  simp [modifyLast, dropLast_append_of_ne_nil hm, getLast?_append_of_ne_nil l hm]

theorem modifyLast_ne_nil {α : Type u} (f : α → α) {m : List α} (hm : m ≠ []) : modifyLast f m ≠ [] := by
  simp [modifyLast, getLast?_eq_some_getLast hm]

omit [LawfulSummary S] in
theorem updateLastOf_concat (f : T → T) (cs : List (SumTree T S)) (t : SumTree T S) :
    updateLastOf f (cs ++ [t]) = (cs ++ [(updateLastRecursive f t).1], (updateLastRecursive f t).2) := by
  induction cs with
  | nil => simp [updateLastOf]
  | cons c cs ih =>
    cases hcs : cs ++ [t] with
    | nil => simp at hcs
    | cons d ds =>
      rw [cons_append, hcs, updateLastOf, ← hcs, ih]
      simp

theorem updateLastRecursive_spec (f : T → T) {h : Nat} : ∀ {t : SumTree T S}, WF h t → t.toList ≠ [] →
    WF h (updateLastRecursive f t).1 ∧ (updateLastRecursive f t).1.toList = modifyLast f t.toList ∧
      (updateLastRecursive f t).2 = some (updateLastRecursive f t).1.summary := by
  induction h with
  | zero =>
    intro t hw hne
    obtain ⟨xs, hl, rfl⟩ := hw.zero
    obtain ⟨ys, y, rfl⟩ := (eq_nil_or_concat xs).resolve_left hne
    rw [concat_eq_append] at *
    simp only [updateLastRecursive, getLast?_concat, map_append, map_cons, map_nil, dropLast_concat, toList_leaf]
    refine ⟨wf_leaf.mpr ⟨rfl, by simpa using hl, by simp, rfl⟩, by simp [modifyLast], rfl⟩
  | succ h ih =>
    intro t hw hne
    obtain ⟨cs, hcs, hcl, hc, rfl⟩ := hw.succ
    obtain ⟨ds, t, rfl⟩ := (eq_nil_or_concat cs).resolve_left hcs
    rw [concat_eq_append] at *
    obtain ⟨htw, htne⟩ := hc t (by simp)
    obtain ⟨h1, h2, h3⟩ := ih htw htne
    have hds : Children h ds := hc.sublist (sublist_append_left _ _)
    have hne' : (updateLastRecursive f t).1.toList ≠ [] := by rw [h2]; exact modifyLast_ne_nil f htne
    have hc' := hds.append (Children.singleton h1 hne')
    simp only [updateLastRecursive, updateLastOf_concat, h3, map_append, map_cons, map_nil,
      dropLast_concat, Option.toList_some, toList_internal]
    refine ⟨?_, ?_, rfl⟩
    · have := hc'.wf (by simp) (by simpa using hcl) hc'.sum_eq
      simpa only [map_append, map_cons, map_nil] using this
    · simp only [flatMap_append, flatMap_singleton]
      rw [modifyLast_append f _ htne, h2]

theorem updateLast_wf (f : T → T) {t : SumTree T S} (hw : WellFormed t) :
    WellFormed (t.updateLast f) ∧ (t.updateLast f).toList = modifyLast f t.toList := by
  obtain ⟨h, hw⟩ := hw
  by_cases hne : t.toList = []
  · obtain ⟨s, ss, rfl⟩ := hw.eq_leaf_nil hne
    exact ⟨⟨h, hw⟩, by simp [updateLast, updateLastRecursive, modifyLast]⟩
  · obtain ⟨h1, h2, -⟩ := updateLastRecursive_spec f hw hne
    exact ⟨⟨h, h1⟩, h2⟩

/-- A list with its first member changed. -/
def modifyFirst {α : Type u} (f : α → α) (l : List α) : List α := (l.head?.map f).toList ++ l.tail

theorem updateFirstRecursive_spec (f : T → T) {h : Nat} : ∀ {t : SumTree T S}, WF h t → t.toList ≠ [] →
    WF h (updateFirstRecursive f t).1 ∧ (updateFirstRecursive f t).1.toList = modifyFirst f t.toList ∧
      (updateFirstRecursive f t).2 = some (updateFirstRecursive f t).1.summary := by
  induction h with
  | zero =>
    intro t hw hne
    obtain ⟨xs, hl, rfl⟩ := hw.zero
    obtain ⟨y, ys, rfl⟩ := exists_cons_of_ne_nil hne
    simp only [updateFirstRecursive, head?_cons, map_cons, tail_cons, toList_leaf]
    exact ⟨wf_leaf.mpr ⟨rfl, by simpa using hl, by simp, rfl⟩, by simp [modifyFirst], rfl⟩
  | succ h ih =>
    intro t hw hne
    obtain ⟨cs, hcs, hcl, hc, rfl⟩ := hw.succ
    obtain ⟨t, ds, rfl⟩ := exists_cons_of_ne_nil hcs
    obtain ⟨htw, htne⟩ := hc t (by simp)
    obtain ⟨h1, h2, h3⟩ := ih htw htne
    obtain ⟨y, ys, hy⟩ := exists_cons_of_ne_nil htne
    have hds : Children h ds := fun c hm => hc c (by simp [hm])
    have hne' : (updateFirstRecursive f t).1.toList ≠ [] := by rw [h2, hy]; simp [modifyFirst]
    have hc' : Children h ((updateFirstRecursive f t).1 :: ds) := (Children.singleton h1 hne').append hds
    simp only [updateFirstRecursive, updateFirstOf, h3, map_cons, tail_cons, Option.toList_some, toList_internal, singleton_append]
    refine ⟨?_, ?_, rfl⟩
    · have := hc'.wf (by simp) (by simpa using hcl) hc'.sum_eq
      simpa only [map_cons] using this
    · simp only [flatMap_cons, h2, hy, modifyFirst, cons_append]
      simp

theorem updateFirst_wf (f : T → T) {t : SumTree T S} (hw : WellFormed t) :
    WellFormed (t.updateFirst f) ∧ (t.updateFirst f).toList = modifyFirst f t.toList := by
  obtain ⟨h, hw⟩ := hw
  by_cases hne : t.toList = []
  · obtain ⟨s, ss, rfl⟩ := hw.eq_leaf_nil hne
    exact ⟨⟨h, hw⟩, by simp [updateFirst, updateFirstRecursive, modifyFirst]⟩
  · obtain ⟨h1, h2, -⟩ := updateFirstRecursive_spec f hw hne
    exact ⟨⟨h, h1⟩, h2⟩

end Lawful

end SumTree

end Wu
