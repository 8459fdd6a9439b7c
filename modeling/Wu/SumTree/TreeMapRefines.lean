import Mathlib.Data.List.Sort
import Wu.SumTree.CursorSplit
import Wu.SumTree.TreeMap

/-!
# The tree map refines a finite map

The abstract map is a function `f : K → Option V`; a list of entries represents it when the list is strictly sorted by key
and holds exactly the entries of `f` (`Represents`). Each operation walks the list of the tree with a cursor (`Split`), so
that its proof is about two lists: the entries with keys below the key at hand, and the rest (`Represents.insert`,
`Represents.erase`).

Two operations leave this abstraction: `extend` with two entries of one key, which `SumTree::edit` pushes one after the
other, and `remove_range` with a stored key that is before `start` but not before `end`, which is in both of the slices
that are put together.
-/

namespace Wu

open List Function SumTree.EditState SeekTarget Cursor

universe u v w x

open SumTree

/-! ## Finding -/

section Find

variable {T : Type u} {S : Type v} {D : Type w} [Summary S] [Item T S] [Dimension D S] {target : SeekTarget D} {bias : Bias}

/-- What `find_iterate` gives over the items `mid`: the first whose end the target does not pass. -/
def FindSpec (target : SeekTarget D) (bias : Bias) (bef mid : List T) (found : D × Option (T × D)) : Prop :=
  (∃ m x m', mid = m ++ x :: m' ∧ Cursor.Passes (Cursor.StopsAt target bias) bef m ∧ Cursor.StopsAt target bias (bef ++ m) x ∧
    found = (positionAfter D (bef ++ m), some (x, positionAfter D (bef ++ m ++ [x])))) ∨
  (Cursor.Passes (Cursor.StopsAt target bias) bef mid ∧ found.2 = none)

omit [Summary S] in
theorem FindSpec.append {bef a b : List T} {found : D × Option (T × D)}
    (ha : Cursor.Passes (Cursor.StopsAt target bias) bef a) (hb : FindSpec target bias (bef ++ a) b found) :
    FindSpec target bias bef (a ++ b) found := by
  rcases hb with ⟨m, x, m', rfl, hp, hx, hf⟩ | ⟨hp, hf⟩
  · exact .inl ⟨a ++ m, x, m', by simp, ha.append hp, by simpa using hx, by simpa using hf⟩
  · exact .inr ⟨ha.append hp, hf⟩

omit [Summary S] in
theorem findItems_spec (r : List T) : ∀ bef : List T,
    FindSpec target bias bef r (findItems target bias r (r.map Item.summary) (positionAfter D bef)) := by
  induction r with
  | nil => exact fun bef => .inr ⟨Cursor.Passes.nil _, rfl⟩
  | cons x r ih =>
    intro bef
    rw [map_cons, findItems, ← positionAfter_concat]
    by_cases hpass : target.passes bias (positionAfter D (bef ++ [x])) = true
    · simp only [hpass, Bool.not_true, Bool.false_eq_true, if_false]
      exact FindSpec.append (a := [x]) (Cursor.Passes.singleton fun hs => hs hpass) (ih _)
    · simp only [hpass, Bool.not_false, if_true]
      exact .inl ⟨[], x, r, rfl, Cursor.Passes.nil _, by simpa [Cursor.StopsAt] using hpass, by simp⟩

variable [LawfulSummary S] [LawfulDimension D S] {t : SumTree T S}

theorem findIterate_spec (hs : Cursor.SeekSound target bias t) {h : Nat} : ∀ (c : SumTree T S) (bef aft : List T),
    WF h c → t.toList = bef ++ c.toList ++ aft →
      FindSpec target bias bef c.toList (findIterate target bias c (positionAfter D bef)) := by
  induction h with
  | zero =>
    intro c bef aft hw hlist
    obtain ⟨xs, -, rfl⟩ := hw.zero
    simpa [findIterate] using findItems_spec xs bef
  | succ h ih =>
    intro c bef aft hw hlist
    obtain ⟨cs, -, -, hcs, rfl⟩ := hw.succ
    rw [findIterate]
    clear hw
    simp only [toList_internal] at hlist ⊢
    -- over the children: those the target passes are gone over, and it goes on in the first that it is in
    induction cs generalizing bef with
    | nil => exact .inr ⟨Cursor.Passes.nil _, by simp [findTrees]⟩
    | cons c cs ihc =>
      obtain ⟨hcw, hcne⟩ := hcs c (by simp)
      rw [flatMap_cons] at hlist ⊢
      rw [map_cons, findTrees, positionAfter_tree hcw hcne]
      by_cases hpass : target.passes bias (positionAfter D (bef ++ c.toList)) = true
      · simp only [hpass, Bool.not_true, Bool.false_eq_true, if_false]
        have hgo := (hs h c bef (cs.flatMap toList ++ aft) hcw hcne (by simp [hlist])
          (by rwa [positionAfter_tree hcw hcne])).2
        exact FindSpec.append hgo (ihc _ (fun c hc => hcs c (by simp [hc])) (by simp [hlist]))
      · simp only [hpass, Bool.not_false, if_true]
        have hspec := ih c bef (cs.flatMap toList ++ aft) hcw (by simp [hlist])
        rcases hspec with ⟨m, x, m', hm, hp, hx, hf⟩ | ⟨hp, hf⟩
        · exact .inl ⟨m, x, m' ++ cs.flatMap toList, by simp [hm], hp, hx, hf⟩
        · obtain ⟨ys, y, hy⟩ := (eq_nil_or_concat _).resolve_left hcne
          rw [concat_eq_append] at hy
          refine absurd ?_ (hp ys y [] hy)
          rw [hy, ← append_assoc] at hpass
          exact hpass

/-- `find` gives the first item whose end the target does not pass. -/
theorem find_item (ht : t.WellFormed) (hs : Cursor.SeekSound target bias t) {m r : List T} (hlist : t.toList = m ++ r)
    (hm : Cursor.Passes (Cursor.StopsAt target bias) [] m)
    (hr : ∀ x r', r = x :: r' → Cursor.StopsAt target bias m x) : (t.find target bias).2.2 = r.head? := by
  obtain ⟨h, hw⟩ := ht
  have hnone : Cursor.Passes (Cursor.StopsAt target bias) [] t.toList → r.head? = none := by
    intro hp
    cases r with
    | nil => rfl
    | cons x r' => exact absurd (hr x r' rfl) (by simpa using hp m x r' hlist)
  have hspec := findIterate_spec hs t [] [] hw (by simp)
  simp only [find]
  split
  · rename_i hpass
    by_cases hne : t.toList = []
    · rw [hnone (by rw [hne]; exact Cursor.Passes.nil _)]
    · rw [hnone (hs h t [] [] hw hne (by simp) hpass).2]
  · rw [positionAfter_nil] at hspec
    rcases hspec with ⟨l, x, l', hl, hp, hx, hf⟩ | ⟨hp, hf⟩
    · rw [hf]
      cases r with
      | nil =>
        rw [append_nil] at hlist
        exact absurd hx (hm l x l' (by rw [← hlist, hl]))
      | cons y r' =>
        obtain ⟨-, rfl, -⟩ := Cursor.Passes.unique (hl.symm.trans hlist) hp hx hm (hr y r' rfl)
        rfl
    · rw [hnone hp]
      generalize findIterate target bias t (Dimension.zero S) = found at hf
      obtain ⟨p, f⟩ := found
      subst hf
      rfl

end Find

/-! ## Lists that represent a map -/

section Represents

variable {K : Type u} {V : Type v} [LinearOrder K]

/-- The entries are strictly sorted by key. -/
def KeySorted (ys : List (MapEntry K V)) : Prop := ys.Pairwise fun a b => a.key < b.key

/-- The entries are those of the map, strictly sorted by key. -/
structure Represents (ys : List (MapEntry K V)) (f : K → Option V) : Prop where
  sorted : KeySorted ys
  mem : ∀ k v, ⟨k, v⟩ ∈ ys ↔ f k = some v

/-- The entries from a key on, without the one of the key itself. -/
def dropKey (k : K) : List (MapEntry K V) → List (MapEntry K V)
  | [] => []
  | e :: r => if e.key = k then r else e :: r

theorem dropKey_sublist (k : K) (r : List (MapEntry K V)) : (dropKey k r).Sublist r := by
  cases r with
  | nil => exact List.Sublist.refl _
  | cons e r =>
    rw [dropKey]
    split
    · exact sublist_cons_self e r
    · exact List.Sublist.refl _

variable {k : K} {r ys : List (MapEntry K V)} {e : MapEntry K V}

/-- Only the entry of the key goes. -/
theorem mem_dropKey (hs : KeySorted r) (hr : ∀ e ∈ r, k ≤ e.key) : e ∈ dropKey k r ↔ e ∈ r ∧ e.key ≠ k := by
  cases r with
  | nil => simp [dropKey]
  | cons d r =>
    have hlt : ∀ e ∈ r, k < e.key := fun e he =>
      lt_of_le_of_lt (hr d (by simp)) (rel_of_pairwise_cons hs he)
    rw [dropKey]
    split
    · rename_i hd
      constructor
      · exact fun he => ⟨by simp [he], (hlt e he).ne'⟩
      · rintro ⟨he, hne⟩
        rcases mem_cons.mp he with rfl | he
        · exact absurd hd hne
        · exact he
    · rename_i hd
      constructor
      · intro he
        refine ⟨he, ?_⟩
        rcases mem_cons.mp he with rfl | he
        · exact hd
        · exact (hlt e he).ne'
      · exact fun he => he.1

theorem lt_of_mem_dropKey (hs : KeySorted r) (hr : ∀ e ∈ r, k ≤ e.key) (he : e ∈ dropKey k r) : k < e.key :=
  let ⟨he, hne⟩ := (mem_dropKey hs hr).mp he
  lt_of_le_of_ne (hr e he) hne.symm

variable {l r : List (MapEntry K V)} {f : K → Option V} {k : K}

theorem Represents.right (h : Represents (l ++ r) f) : KeySorted r := (pairwise_append.mp h.sorted).2.1

section

variable (h : Represents (l ++ r) f) (hl : ∀ e ∈ l, e.key < k) (hr : ∀ e ∈ r, k ≤ e.key)
include h hl hr

/-- The entry of a key is the first that is not below it. -/
theorem Represents.lookup : f k = (r.head?.filter fun e => e.key = k).map MapEntry.value := by
  cases hk : f k with
  | some v =>
    rcases mem_append.mp ((h.mem k v).mpr hk) with hm | hm
    · exact absurd (hl _ hm) (lt_irrefl k)
    · cases r with
      | nil => simp at hm
      | cons e r =>
        rcases mem_cons.mp hm with rfl | hm
        · simp
        · exact absurd (rel_of_pairwise_cons h.right hm) (not_lt.mpr (hr e (by simp)))
  | none =>
    cases r with
    | nil => rfl
    | cons e r =>
      have hne : e.key ≠ k := by
        rintro rfl
        have := (h.mem e.key e.value).mp (by simp)
        rw [hk] at this
        exact absurd this (by simp)
      simp [hne]

/-- The entries without the one of a key represent the map without it. -/
theorem Represents.erase : Represents (l ++ dropKey k r) (Function.update f k none) := by
  refine ⟨h.sorted.sublist ((List.Sublist.refl l).append (dropKey_sublist k r)), fun k' v => ?_⟩
  rw [mem_append, mem_dropKey h.right hr]
  by_cases hk : k' = k
  · subst hk
    simp only [update_self, ne_eq, not_true_eq_false, and_false, or_false, reduceCtorEq, iff_false]
    exact fun hm => lt_irrefl _ (hl _ hm)
  · rw [update_of_ne hk, ← h.mem]
    simp [hk]

/-- The entries with one of a key in its place represent the map with it. -/
theorem Represents.insert (v : V) : Represents (l ++ ⟨k, v⟩ :: dropKey k r) (Function.update f k (some v)) := by
  have he := h.erase hl hr
  constructor
  · rw [KeySorted, pairwise_append, pairwise_cons]
    obtain ⟨h1, h2, h3⟩ := pairwise_append.mp he.sorted
    refine ⟨h1, ⟨fun e hm => lt_of_mem_dropKey h.right hr hm, h2⟩, ?_⟩
    intro a ha b hb
    rcases mem_cons.mp hb with rfl | hb
    · exact hl a ha
    · exact h3 a ha b hb
  · intro k' v'
    have hmem := he.mem k' v'
    rw [mem_append] at hmem
    rw [mem_append, mem_cons, or_left_comm]
    by_cases hk : k' = k
    · subst hk
      rw [hmem]
      simp [eq_comm]
    · rw [hmem]
      simp [hk]

end

theorem Represents.nodup (h : Represents ys f) : (ys.map MapEntry.key).Nodup :=
  pairwise_map.mpr (h.sorted.imp fun hab => hab.ne)

/-- The entries that satisfy a predicate represent the map cut down to it. -/
theorem Represents.filter (h : Represents ys f) (p : K → V → Bool) :
    Represents (ys.filter fun e => p e.key e.value) fun k => (f k).filter (p k) := by
  refine ⟨h.sorted.sublist filter_sublist, fun k v => ?_⟩
  rw [mem_filter, h.mem, Option.filter_eq_some_iff]

end Represents

/-! ## Targets among the keys -/

section Targets

variable {K : Type u} {V : Type v} [LinearOrder K]

instance : LawfulSummary (MapKey K) where
  add_assoc _ _ _ := rfl
  zero_add _ := rfl

/-- A target is monotone along the keys: what it passes it also passes at every smaller key. -/
def KeyMonotone (target : MapSeekTarget K) (bias : Bias) : Prop :=
  ∀ a b, a ≤ b → passes target bias b = true → passes target bias a = true

omit [LinearOrder K] in
theorem positionAfter_concat_key (l : List (MapEntry K V)) (e : MapEntry K V) :
    positionAfter (MapKey K) (l ++ [e]) = WithBot.some e.key := by
  rw [positionAfter_concat]
  rfl

omit [LinearOrder K] in
/-- A seek stops at an entry whose key its target does not pass. -/
theorem stopsAt_adaptor {target : MapSeekTarget K} {bias : Bias} {l : List (MapEntry K V)} {e : MapEntry K V} :
    Cursor.StopsAt (mapSeekTargetAdaptor target) bias l e ↔ ¬passes target bias e.key = true := by
  rw [Cursor.StopsAt, positionAfter_concat_key]
  rfl

theorem monotoneAlong_adaptor {target : MapSeekTarget K} {bias : Bias} (hm : KeyMonotone target bias)
    {ys : List (MapEntry K V)} (hs : KeySorted ys) : Cursor.MonotoneAlong (mapSeekTargetAdaptor target) bias ys := by
  intro bef mid aft heq hpass
  rcases eq_nil_or_concat bef with rfl | ⟨bef, e, rfl⟩
  · rfl
  · rcases eq_nil_or_concat mid with rfl | ⟨mid, d, rfl⟩
    · simpa using hpass
    · rw [concat_eq_append] at hpass heq ⊢
      rw [concat_eq_append, ← append_assoc, positionAfter_concat_key] at hpass
      rw [positionAfter_concat_key]
      have hlt : e.key < d.key := by
        rw [heq] at hs
        exact (pairwise_append.mp (pairwise_append.mp hs).1).2.2 e (by simp) d (by simp)
      exact hm _ _ hlt.le hpass

/-- The target of a key compares the keys. -/
theorem keyTarget_eq (k : K) : TreeMap.keyTarget k = mapSeekTargetAdaptor (compare k) := by
  funext p
  cases p with
  | none => exact compare_gt_iff_gt.mpr (WithBot.bot_lt_coe k)
  | some a =>
    change compare (k : WithBot K) (a : WithBot K) = compare k a
    rcases lt_trichotomy k a with h | rfl | h
    · rw [compare_lt_iff_lt.mpr h, compare_lt_iff_lt.mpr (WithBot.coe_lt_coe.mpr h)]
    · rw [compare_eq_iff_eq.mpr rfl, compare_eq_iff_eq.mpr rfl]
    · rw [compare_gt_iff_gt.mpr h, compare_gt_iff_gt.mpr (WithBot.coe_lt_coe.mpr h)]

theorem passes_left {k a : K} : passes (compare k) .left a = true ↔ a < k := by
  simp [passes, compare_gt_iff_gt]

theorem passes_right {k a : K} : passes (compare k) .right a = true ↔ a ≤ k := by
  rw [passes, le_iff_lt_or_eq, eq_comm (a := a)]
  simp [compare_gt_iff_gt]

theorem keyMonotone_compare (k : K) (bias : Bias) : KeyMonotone (compare k) bias := by
  intro a b hab hb
  cases bias with
  | left => exact passes_left.mpr (lt_of_le_of_lt hab (passes_left.mp hb))
  | right => exact passes_right.mpr (hab.trans (passes_right.mp hb))

end Targets

/-! ## Walking the map -/

section Walk

variable {K : Type u} {V : Type v} [LinearOrder K] {t : SumTree (MapEntry K V) (MapKey K)}
  {c : Cursor (MapEntry K V) (MapKey K) (MapKey K)} {l r : List (MapEntry K V)}

/-- The entries that a target passes, and those from the first on that it does not pass. -/
structure CutBy (target : MapSeekTarget K) (bias : Bias) (m r : List (MapEntry K V)) : Prop where
  passed : ∀ e ∈ m, passes target bias e.key = true
  rest : ∀ e ∈ r, ¬passes target bias e.key = true

/-- A seek by a target among the keys cuts what is left. -/
theorem seekInternal_key {α : Type*} {agg : SeekAggregate (MapEntry K V) (MapKey K) α} {R : α → List (MapEntry K V) → Prop}
    {P : α → List (MapEntry K V) → Nat → Prop} {target : MapSeekTarget K} {bias : Bias} (ht : t.WellFormed)
    (hag : Cursor.Collects agg R P) (hs : KeySorted t.toList) (hm : KeyMonotone target bias) {p : Place}
    (hsim : Cursor.Sim Cursor.Positioned t c p) (hp : p ≠ .before) (hl : t.toList = l ++ r)
    (hi : ListCursor.index ⟨t.toList, p⟩ = l.length) {a : α} (ha : R a []) :
    ∃ m r', r = m ++ r' ∧ CutBy target bias m r' ∧ Cursor.Split t (c.seekInternal (mapSeekTargetAdaptor target) bias agg a).1 (l ++ m) r' ∧
      R (c.seekInternal (mapSeekTargetAdaptor target) bias agg a).2 m := by
  obtain ⟨m, r', rfl, hpass, hstop, hspl, hr⟩ := Cursor.Split.seekInternal ht hag (monotoneAlong_adaptor hm hs) hsim hp hl hi ha
  refine ⟨m, r', rfl, ⟨?_, ?_⟩, hspl, hr⟩
  · intro e he
    obtain ⟨m₁, m₂, rfl⟩ := append_of_mem he
    exact Decidable.not_not.mp fun hn => hpass m₁ e m₂ rfl (stopsAt_adaptor.mpr hn)
  · cases r' with
    | nil => simp
    | cons d r' =>
      have hd := stopsAt_adaptor.mp (hstop d r' rfl)
      have hsr : KeySorted (d :: r') := by
        rw [hl] at hs
        exact (pairwise_append.mp (pairwise_append.mp hs).2.1).2.1
      intro e he hn
      rcases mem_cons.mp he with rfl | he
      · exact hd hn
      · exact hd (hm _ _ (rel_of_pairwise_cons hsr he).le hn)

section

variable (target : MapSeekTarget K) (bias : Bias) (ht : t.WellFormed) (hs : KeySorted t.toList) (hm : KeyMonotone target bias)
include target bias ht hs hm

/-- What a slice up to a target leaves: a cursor, and the tree of the entries it has passed. -/
structure Sliced (t : SumTree (MapEntry K V) (MapKey K)) (l m r : List (MapEntry K V))
    (res : Cursor (MapEntry K V) (MapKey K) (MapKey K) × SumTree (MapEntry K V) (MapKey K)) : Prop where
  split : Cursor.Split t res.1 (l ++ m) r
  wf : res.2.WellFormed
  toList_eq : res.2.toList = m

/-- A slice up to a target from the start of the map. -/
theorem new_slice : ∃ m r, t.toList = m ++ r ∧ CutBy target bias m r ∧
    Sliced t [] m r ((Cursor.new t).slice (mapSeekTargetAdaptor target) bias) := by
  obtain ⟨m, r, hl, hcut, hspl, hw, hlist, -⟩ := seekInternal_key (l := []) ht sliceAggregate_collects hs hm
    (p := .fresh) rfl Place.fresh_ne_before rfl rfl sliceCollected_new
  exact ⟨m, r, hl, hcut, hspl, hw, hlist⟩

/-- A slice up to a target from where the cursor is. -/
theorem Cursor.Split.slice (hc : Cursor.Split t c l r) :
    ∃ m r', r = m ++ r' ∧ CutBy target bias m r' ∧ Sliced t l m r' (c.slice (mapSeekTargetAdaptor target) bias) := by
  obtain ⟨m, r', hr, hcut, hspl, hw, hlist, -⟩ := seekInternal_key ht sliceAggregate_collects hs hm hc.sim
    (Place.at_ne_before _) hc.toList_eq rfl sliceCollected_new
  exact ⟨m, r', hr, hcut, hspl, hw, hlist⟩

/-- A seek to a target from the start of the map. -/
theorem new_seek (htree : c.tree = t) : ∃ m r, t.toList = m ++ r ∧ CutBy target bias m r ∧
    Cursor.Split t (c.seek (mapSeekTargetAdaptor target) bias) m r := by
  subst htree
  obtain ⟨m, r, hl, hcut, hspl, -⟩ := seekInternal_key (l := []) ht noAggregate_collects hs hm
    (p := .fresh) rfl Place.fresh_ne_before rfl rfl trivial
  exact ⟨m, r, hl, hcut, hspl⟩

end

end Walk

/-! ## The operations -/

namespace TreeMap

variable {K : Type u} {V : Type v} [LinearOrder K]

/-- The map refines `f`: its tree is well-formed, and the list of its entries represents `f`. -/
structure Refines (m : TreeMap K V) (f : K → Option V) : Prop where
  wf : m.tree.WellFormed
  rep : Represents m.tree.toList f

theorem empty_refines : Refines (empty : TreeMap K V) fun _ => none :=
  ⟨new_wf, ⟨by simp [empty, KeySorted], by simp [empty]⟩⟩

section Steps

variable {m : TreeMap K V} {f : K → Option V}

/-- The slice below a key and what is left, as the lists the operations on one key start from. -/
theorem slice_key (h : Refines m f) (k : K) :
    ∃ c t l r, (Cursor.new m.tree).slice (keyTarget k) .left = (c, t) ∧ Represents (l ++ r) f ∧ (∀ e ∈ l, e.key < k) ∧
      (∀ e ∈ r, k ≤ e.key) ∧ Cursor.Split m.tree c l r ∧ t.WellFormed ∧ t.toList = l := by
  rw [keyTarget_eq]
  obtain ⟨l, r, hlist, hcut, hslic⟩ := new_slice _ _ h.wf h.rep.sorted (keyMonotone_compare k _)
  exact ⟨_, _, l, r, rfl, hlist ▸ h.rep, fun e he => passes_left.mp (hcut.passed e he),
    fun e he => not_lt.mp fun hlt => hcut.rest e he (passes_left.mpr hlt), hslic.split, hslic.wf, hslic.toList_eq⟩

variable {c : Cursor (MapEntry K V) (MapKey K) (MapKey K)} {l r : List (MapEntry K V)} {k : K}
variable {s : SumTree.EditState (MapEntry K V) (MapKey K) (MapKey K)} {g : K → Option V}

/-- Whether the cursor is at the entry of a key. -/
theorem end_eq_iff (ht : m.tree.WellFormed) (hc : Cursor.Split m.tree c l r) (hl : ∀ e ∈ l, e.key < k) :
    keyTarget k c.end = .eq ↔ ∃ e r', r = e :: r' ∧ e.key = k := by
  rw [keyTarget, compare_eq_iff_eq]
  cases r with
  | nil =>
    rw [hc.end_nil ht]
    constructor
    · intro heq
      rcases eq_nil_or_concat l with rfl | ⟨l, e, rfl⟩
      · exact absurd heq WithBot.coe_ne_bot
      · rw [concat_eq_append, positionAfter_concat_key] at heq
        exact absurd (WithBot.coe_injective heq) (hl e (by simp)).ne'
    · rintro ⟨e, r', heq, -⟩
      exact absurd heq (by simp)
  | cons e r =>
    rw [hc.end_cons ht, positionAfter_concat_key]
    constructor
    · exact fun heq => ⟨e, r, rfl, (WithBot.coe_injective heq).symm⟩
    · rintro ⟨e', r', heq, rfl⟩
      obtain ⟨rfl, -⟩ := List.cons.inj heq
      rfl

omit [LinearOrder K] in
/-- What is left behind a cursor, put behind a tree. -/
theorem append_suffix (ht : m.tree.WellFormed) {t : SumTree (MapEntry K V) (MapKey K)} (hw : t.WellFormed)
    (hc : Cursor.Split m.tree c l r) :
    (t.append c.suffix.2).WellFormed ∧ (t.append c.suffix.2).toList = t.toList ++ r := by
  obtain ⟨hw', hl⟩ := hc.suffix ht
  simpa [hl] using append_wf hw hw'

theorem insertOrReplace_refines (h : Refines m f) (k : K) (v : V) :
    Refines (m.insertOrReplace k v).1 (Function.update f k (some v)) ∧ (m.insertOrReplace k v).2 = f k := by
  obtain ⟨c, t, l, r, hsli, hrep, hl, hr, hspl, hw, htl⟩ := slice_key h k
  have hkey : compare (KeyedItem.key (MapEntry.mk k v)) = (keyTarget k : SeekTarget (MapKey K)) := rfl
  simp only [TreeMap.insertOrReplace, SumTree.insertOrReplace, hkey, hsli]
  obtain ⟨hpw, hpl⟩ := push_wf hw _
  rw [hrep.lookup hl hr, hspl.item_eq h.wf]
  have hins := hrep.insert hl hr v
  -- the entry of the key, if there is one, is replaced
  rcases r with _ | ⟨e, r⟩
  · obtain ⟨hw', hl'⟩ := append_suffix h.wf hpw hspl
    refine ⟨⟨hw', ?_⟩, by simp⟩
    simpa [hl', hpl, htl, dropKey] using hins
  · by_cases he : e.key = k
    · obtain ⟨hw', hl'⟩ := append_suffix h.wf hpw (hspl.next h.wf)
      have hek : (KeyedItem.key e : MapKey K) = KeyedItem.key (MapEntry.mk k v) := congrArg WithBot.some he
      simp only [List.head?_cons, hek, if_true]
      refine ⟨⟨hw', ?_⟩, by simp [he]⟩
      simpa [hl', hpl, htl, dropKey, he] using hins
    · obtain ⟨hw', hl'⟩ := append_suffix h.wf hpw hspl
      have hek : (KeyedItem.key e : MapKey K) ≠ KeyedItem.key (MapEntry.mk k v) := fun heq => he (WithBot.coe_injective heq)
      simp only [List.head?_cons, hek, if_false]
      refine ⟨⟨hw', ?_⟩, by simp [he]⟩
      simpa [hl', hpl, htl, dropKey, he] using hins

theorem insert_refines (h : Refines m f) (k : K) (v : V) : Refines (m.insert k v) (Function.update f k (some v)) :=
  (insertOrReplace_refines h k v).1

theorem remove_refines (h : Refines m f) (k : K) : Refines (m.remove k).1 (Function.update f k none) ∧ (m.remove k).2 = f k := by
  obtain ⟨c, t, l, r, hsli, hrep, hl, hr, hspl, hw, htl⟩ := slice_key h k
  simp only [TreeMap.remove, hsli]
  have hend := end_eq_iff h.wf hspl hl
  rw [hrep.lookup hl hr, hspl.item_eq h.wf]
  have hera := hrep.erase hl hr
  by_cases heq : keyTarget k c.end = .eq
  · obtain ⟨e, r', rfl, he⟩ := hend.mp heq
    obtain ⟨hw', hl'⟩ := append_suffix h.wf hw (hspl.next h.wf)
    simp only [heq, if_true]
    refine ⟨⟨hw', ?_⟩, by simp [he]⟩
    simpa [hl', htl, dropKey, he] using hera
  · have hne : ∀ e r', r = e :: r' → e.key ≠ k := fun e r' hr' he => heq (hend.mpr ⟨e, r', hr', he⟩)
    obtain ⟨hw', hl'⟩ := append_suffix h.wf hw hspl
    simp only [heq, if_false]
    rcases r with _ | ⟨e, r⟩
    · exact ⟨⟨hw', by simpa [hl', htl, dropKey] using hera⟩, by simp⟩
    · have he := hne e r rfl
      exact ⟨⟨hw', by simpa [hl', htl, dropKey, he] using hera⟩, by simp [he]⟩

theorem update_refines {R : Type x} (h : Refines m f) (k : K) (g : V → V × R) :
    Refines (m.update k g).1 (Function.update f k ((f k).map fun v => (g v).1)) ∧ (m.update k g).2 = (f k).map fun v => (g v).2 := by
  obtain ⟨c, t, l, r, hsli, hrep, hl, hr, hspl, hw, htl⟩ := slice_key h k
  simp only [TreeMap.update, hsli]
  have hend := end_eq_iff h.wf hspl hl
  have hloo := hrep.lookup hl hr
  rw [hspl.item_eq h.wf]
  by_cases heq : keyTarget k c.end = .eq
  · obtain ⟨e, r', rfl, he⟩ := hend.mp heq
    have hfk : f k = some e.value := by rw [hloo]; simp [he]
    obtain ⟨hpw, hpl⟩ := push_wf hw _
    obtain ⟨hw', hl'⟩ := append_suffix h.wf hpw (hspl.next h.wf)
    have hins := hrep.insert hl hr (g e.value).1
    simp only [heq, if_true, List.head?_cons, hfk, Option.map_some]
    refine ⟨⟨hw', ?_⟩, trivial⟩
    subst he
    simpa [hl', hpl, htl, dropKey] using hins
  · have hne : ∀ e r', r = e :: r' → e.key ≠ k := fun e r' hr' he => heq (hend.mpr ⟨e, r', hr', he⟩)
    have hfk : f k = none := by
      rw [hloo]
      rcases r with _ | ⟨e, r⟩
      · rfl
      · simp [hne]
    obtain ⟨hw', hl'⟩ := append_suffix h.wf hw hspl
    simp only [heq, if_false, hfk, Option.map_none]
    refine ⟨⟨hw', ?_⟩, trivial⟩
    rw [hl', htl, update_eq_self_iff.mpr hfk.symm]
    exact hrep

/-- `remove_range` takes out the keys from `start` on and before `end`, when no stored key is before `start` and not before
`end`. -/
theorem removeRange_refines (h : Refines m f) {start «end» : MapSeekTarget K} (hms : KeyMonotone start .left)
    (hme : KeyMonotone «end» .left) (hse : ∀ k, (f k).isSome → start k = .gt → «end» k = .gt) :
    Refines (m.removeRange start «end») fun k => if start k ≠ .gt ∧ «end» k = .gt then none else f k := by
  obtain ⟨l, r, hlist, ⟨hl, hr⟩, hspl, hw, htl⟩ := new_slice _ _ h.wf h.rep.sorted hms
  obtain ⟨l', r', hlist', ⟨hl', hr'⟩, hspl'⟩ := new_seek _ _ h.wf h.rep.sorted hme hspl.sim.1
  obtain ⟨hw', htl'⟩ := append_suffix h.wf hw hspl'
  have hpass : ∀ (target : MapSeekTarget K) (a : K), passes target .left a = true ↔ target a = .gt := by
    simp [passes]
  simp only [hpass] at hl hr hl' hr'
  -- the two cuts lie in this order
  obtain ⟨m', rfl⟩ : ∃ m', l' = l ++ m' := by
    rcases append_eq_append_iff.mp (hlist.symm.trans hlist') with ⟨m', rfl, -⟩ | ⟨m', rfl, hm'⟩
    · exact ⟨m', rfl⟩
    · cases m' with
      | nil => exact ⟨[], by simp⟩
      | cons e m' =>
        have hmem : f e.key = some e.value := (h.rep.mem _ _).mp (by rw [hlist]; simp)
        exact absurd (hse _ (by simp [hmem]) (hl e (by simp))) (hr' e (by simp [hm']))
  have hrr : r = m' ++ r' := by
    rw [hlist', append_assoc] at hlist
    exact (append_cancel_left hlist).symm
  subst hrr
  refine ⟨hw', ?_⟩
  rw [show (m.removeRange start «end»).tree.toList = l ++ r' from htl ▸ htl']
  refine ⟨?_, fun k v => ?_⟩
  · refine h.rep.sorted.sublist ?_
    rw [hlist]
    exact (List.Sublist.refl l).append (sublist_append_right m' r')
  · have hmem := h.rep.mem k v
    rw [hlist, mem_append, mem_append] at hmem
    rw [mem_append]
    by_cases hk : start k ≠ .gt ∧ «end» k = .gt
    · rw [if_pos hk]
      constructor
      · rintro (hm | hm)
        · exact absurd (hl _ hm) hk.1
        · exact absurd hk.2 (hr' _ hm)
      · exact fun hn => absurd hn (by simp)
    · rw [if_neg hk, ← hmem]
      constructor
      · exact Or.imp_right .inr
      · rintro (hm | hm | hm)
        · exact .inl hm
        · exact absurd ⟨hr _ (mem_append_left _ hm), hl' _ (mem_append_right _ hm)⟩ hk
        · exact .inr hm

omit [LinearOrder K] in
/-- The loop of `retain` keeps what satisfies the predicate. -/
theorem retainLoop_spec (ht : m.tree.WellFormed) (p : K → V → Bool) (r : List (MapEntry K V)) :
    ∀ n l c (t : SumTree (MapEntry K V) (MapKey K)), r.length < n → Cursor.Split m.tree c l r → t.WellFormed →
        (retainLoop p n c t).WellFormed ∧ (retainLoop p n c t).toList = t.toList ++ r.filter fun e => p e.key e.value := by
  induction r with
  | nil =>
    rintro (_ | n) l c t hn hc hw
    · exact absurd hn (by simp)
    · simp [retainLoop, hc.item_eq ht, hw]
  | cons e r ih =>
    rintro (_ | n) l c t hn hc hw
    · exact absurd hn (by simp)
    · have hpush := push_wf hw e
      rw [retainLoop, hc.item_eq ht]
      simp only [List.head?_cons]
      by_cases hp : p e.key e.value = true
      · obtain ⟨hw', hl'⟩ := ih n (l ++ [e]) c.next (t.push e) (by simpa using hn) (hc.next ht) hpush.1
        simp only [hp, if_true]
        exact ⟨hw', by simp [hl', hpush.2, hp]⟩
      · obtain ⟨hw', hl'⟩ := ih n (l ++ [e]) c.next t (by simpa using hn) (hc.next ht) hw
        simp only [hp, Bool.false_eq_true, if_false]
        exact ⟨hw', by simp [hl', hp]⟩

theorem retain_refines (h : Refines m f) (p : K → V → Bool) : Refines (m.retain p) fun k => (f k).filter (p k) := by
  obtain ⟨hw, hl⟩ := retainLoop_spec h.wf p _ _ [] _ _ (Nat.lt_succ_self _) (split_new_next h.wf) new_wf
  refine ⟨hw, ?_⟩
  simp only [TreeMap.retain, hl, toList_new, nil_append]
  exact h.rep.filter p

/-! ## The bulk path -/

/-- What the loop of `edit` keeps: what it has put into the new tree and the buffer, and what is left of the old tree,
represent the map with the edits made so far. -/
structure EditInv (m : TreeMap K V) (s : SumTree.EditState (MapEntry K V) (MapKey K) (MapKey K)) (g : K → Option V)
    (l r : List (MapEntry K V)) : Prop where
  split : Cursor.Split m.tree s.cursor l r
  wf : s.newTree.WellFormed
  rep : Represents (s.newTree.toList ++ s.bufferedItems ++ r) g

/-- The keys put into the new tree and the buffer are below `k`. -/
def DoneBelow (s : SumTree.EditState (MapEntry K V) (MapKey K) (MapKey K)) (k : K) : Prop :=
  ∀ e ∈ s.newTree.toList ++ s.bufferedItems, e.key < k

theorem seekKey_spec (ht : m.tree.WellFormed) (hs : KeySorted m.tree.toList) (hi : EditInv m s g l r) (hb : DoneBelow s k) :
    ∃ l' r', EditInv m (s.seekKey (WithBot.some k)) g l' r' ∧ DoneBelow (s.seekKey (WithBot.some k)) k ∧ ∀ e ∈ r', k ≤ e.key := by
  rcases r with _ | ⟨e, r⟩
  · have hstep : s.seekKey (WithBot.some k) = s := by simp [seekKey, hi.split.item_eq ht]
    rw [hstep]
    exact ⟨l, [], hi, hb, by simp⟩
  · by_cases he : e.key < k
    · obtain ⟨mid, r', hr, ⟨hmid, hr'⟩, hspl, hw, htl⟩ := hi.split.slice _ _ ht hs (keyMonotone_compare k _)
      obtain ⟨hfw, hfl⟩ := fromIter_wf s.bufferedItems
      obtain ⟨hew, hel⟩ := append_wf hi.wf hfw
      obtain ⟨haw, hal⟩ := append_wf hew hw
      have hk : (KeyedItem.key e : MapKey K) < WithBot.some k := WithBot.coe_lt_coe.mpr he
      have hstep : s.seekKey (WithBot.some k) =
          { s with
            cursor := (s.cursor.slice (mapSeekTargetAdaptor (compare k)) .left).1
            newTree := (s.newTree.extend s.bufferedItems).append (s.cursor.slice (mapSeekTargetAdaptor (compare k)) .left).2
            bufferedItems := [] } := by
        rw [← keyTarget_eq]
        simp [seekKey, hi.split.item_eq ht, hk, keyTarget]
      have hlist : ((s.newTree.extend s.bufferedItems).append
          (s.cursor.slice (mapSeekTargetAdaptor (compare k)) .left).2).toList = s.newTree.toList ++ s.bufferedItems ++ mid := by
        rw [SumTree.extend, hal, hel, hfl, htl]
      rw [hstep]
      refine ⟨l ++ mid, r', ⟨hspl, haw, ?_⟩, ?_, fun e he => not_lt.mp fun hlt => hr' e he (passes_left.mpr hlt)⟩
      · have hrep := hi.rep
        rw [hr] at hrep
        simpa [hlist] using hrep
      · intro d hd
        simp only [hlist, append_nil] at hd
        rcases mem_append.mp hd with hd | hd
        · exact hb d hd
        · exact passes_left.mp (hmid d hd)
    · have hk : ¬(KeyedItem.key e : MapKey K) < WithBot.some k := fun hlt => he (WithBot.coe_lt_coe.mp hlt)
      have hstep : s.seekKey (WithBot.some k) = s := by simp [seekKey, hi.split.item_eq ht, hk]
      rw [hstep]
      refine ⟨l, e :: r, hi, hb, ?_⟩
      intro d hd
      rcases mem_cons.mp hd with rfl | hd
      · exact not_lt.mp he
      · exact (not_lt.mp he).trans (rel_of_pairwise_cons hi.rep.right hd).le

theorem skipKey_spec (ht : m.tree.WellFormed) (hc : Cursor.Split m.tree s.cursor l r) (k : K) :
    ∃ l', Cursor.Split m.tree (s.skipKey (WithBot.some k)).cursor l' (dropKey k r) ∧
      (s.skipKey (WithBot.some k)).newTree = s.newTree ∧
      (s.skipKey (WithBot.some k)).bufferedItems = s.bufferedItems := by
  rcases r with _ | ⟨e, r⟩
  · exact ⟨l, by simpa [skipKey, hc.item_eq ht, dropKey] using hc, by simp [skipKey, hc.item_eq ht], by simp [skipKey, hc.item_eq ht]⟩
  · by_cases he : e.key = k
    · have hk : (KeyedItem.key e : MapKey K) = WithBot.some k := congrArg _ he
      refine ⟨l ++ [e], ?_, ?_, ?_⟩
      · simpa [skipKey, hc.item_eq ht, dropKey, hk, he] using hc.next ht
      · simp [skipKey, hc.item_eq ht, hk]
      · simp [skipKey, hc.item_eq ht, hk]
    · have hk : (KeyedItem.key e : MapKey K) ≠ WithBot.some k := fun heq => he (WithBot.coe_injective heq)
      refine ⟨l, ?_, ?_, ?_⟩
      · simpa [skipKey, hc.item_eq ht, dropKey, hk, he] using hc
      · simp [skipKey, hc.item_eq ht, hk]
      · simp [skipKey, hc.item_eq ht, hk]

/-- A turn of the loop inserts its entry. -/
theorem editStep_spec (ht : m.tree.WellFormed) (hs : KeySorted m.tree.toList)
    (e : MapEntry K V) (hi : EditInv m s g l r) (hb : DoneBelow s e.key) :
    ∃ l' r', EditInv m (s.step (.insert e)) (Function.update g e.key (some e.value)) l' r' ∧
      ∀ k, e.key < k → DoneBelow (s.step (.insert e)) k := by
  obtain ⟨l', r', hi', hb', hr'⟩ := seekKey_spec ht hs hi hb
  obtain ⟨l'', hspl, htree, hbuf⟩ := skipKey_spec ht hi'.split _
  have hins := hi'.rep.insert hb' hr' e.value
  refine ⟨l'', dropKey _ r', ⟨hspl, ?_, ?_⟩, ?_⟩
  · change ((s.seekKey (WithBot.some e.key)).skipKey (WithBot.some e.key)).newTree.WellFormed
    rw [htree]
    exact hi'.wf
  · change Represents (((s.seekKey (WithBot.some e.key)).skipKey (WithBot.some e.key)).newTree.toList ++
      (((s.seekKey (WithBot.some e.key)).skipKey (WithBot.some e.key)).bufferedItems ++ [e]) ++ dropKey e.key r') _
    rw [htree, hbuf]
    simpa using hins
  · intro k hk d hd
    change d ∈ ((s.seekKey (WithBot.some e.key)).skipKey (WithBot.some e.key)).newTree.toList ++
      (((s.seekKey (WithBot.some e.key)).skipKey (WithBot.some e.key)).bufferedItems ++ [e]) at hd
    rw [htree, hbuf, ← append_assoc] at hd
    rcases mem_append.mp hd with hd | hd
    · exact (hb' d hd).trans hk
    · rw [mem_singleton.mp hd]
      exact hk

/-- The edit that inserts an entry. -/
def insertEdit (e : MapEntry K V) : Edit (MapEntry K V) (MapKey K) := .insert e

/-- The map with a list of entries inserted one after the other. -/
def insertAll (f : K → Option V) (entries : List (MapEntry K V)) : K → Option V :=
  entries.foldl (fun f e => Function.update f e.key (some e.value)) f

/-- The loop of `edit` over entries that are strictly sorted inserts them all. -/
theorem foldl_editStep (ht : m.tree.WellFormed) (hs : KeySorted m.tree.toList) (entries : List (MapEntry K V)) :
    ∀ {s g l r}, KeySorted entries → EditInv m s g l r → (∀ e ∈ entries, DoneBelow s e.key) →
        ∃ l' r', EditInv m ((entries.map insertEdit).foldl step s) (insertAll g entries) l' r' := by
  induction entries with
  | nil => exact fun {s g l r} _ hi _ => ⟨l, r, hi⟩
  | cons e entries ih =>
    intro s g l r hes hi hb
    obtain ⟨l', r', hi', hb'⟩ := editStep_spec ht hs e hi (hb e (by simp))
    exact ih (List.Pairwise.of_cons hes) hi' fun d hd => hb' _ (rel_of_pairwise_cons hes hd)

theorem insertAll_cons (f : K → Option V) (e : MapEntry K V) (entries : List (MapEntry K V)) :
    insertAll f (e :: entries) = insertAll (Function.update f e.key (some e.value)) entries := rfl

/-- A key without an entry is left alone. -/
theorem insertAll_of_forall_ne (entries : List (MapEntry K V)) :
    ∀ {f : K → Option V}, (∀ e ∈ entries, e.key ≠ k) → insertAll f entries k = f k := by
  induction entries with
  | nil => exact fun _ => rfl
  | cons e entries ih =>
    intro f hne
    rw [insertAll_cons, ih fun d hd => hne d (by simp [hd]), update_of_ne (hne e (by simp)).symm]

/-- A key with one entry has its value. -/
theorem insertAll_of_mem {e : MapEntry K V} (entries : List (MapEntry K V)) :
    ∀ {f : K → Option V}, (entries.map MapEntry.key).Nodup → e ∈ entries → insertAll f entries e.key = some e.value := by
  induction entries with
  | nil => simp
  | cons d entries ih =>
    intro f hnd hm
    rw [map_cons, nodup_cons] at hnd
    rw [insertAll_cons]
    rcases mem_cons.mp hm with rfl | hm
    · rw [insertAll_of_forall_ne _ fun d hd heq => hnd.1 (mem_map.mpr ⟨d, hd, heq⟩), update_self]
    · exact ih hnd.2 hm

/-- Entries of distinct keys may be inserted in any order. -/
theorem insertAll_perm {f : K → Option V} {es ds : List (MapEntry K V)} (hp : es.Perm ds)
    (hnd : (es.map MapEntry.key).Nodup) : insertAll f es = insertAll f ds := by
  funext k
  by_cases hk : ∃ e ∈ es, e.key = k
  · obtain ⟨e, he, rfl⟩ := hk
    rw [insertAll_of_mem es hnd he, insertAll_of_mem ds ((hp.map _).nodup hnd) (hp.subset he)]
  · rw [not_exists] at hk
    have hne : ∀ e ∈ es, e.key ≠ k := fun e he heq => hk e ⟨he, heq⟩
    rw [insertAll_of_forall_ne es hne, insertAll_of_forall_ne ds fun e he => hne e (hp.symm.subset he)]

omit [LinearOrder K] in
/-- The seek that `edit` starts with stands at the first item: no position lies below `None`. -/
theorem seek_zero [LinearOrder K] (ht : m.tree.WellFormed) :
    Cursor.Split m.tree ((Cursor.new m.tree).seek (compare (Dimension.zero (MapKey K) : MapKey K)) .left) []
      m.tree.toList := by
  have hnev : ∀ p : MapKey K, ¬passes (compare (Dimension.zero (MapKey K) : MapKey K)) .left p = true := by
    intro p
    have hbot : ¬p < (Dimension.zero (MapKey K) : MapKey K) := not_lt_bot
    simpa [passes, compare_gt_iff_gt] using hbot
  have hmono : Cursor.MonotoneAlong (compare (Dimension.zero (MapKey K) : MapKey K)) .left m.tree.toList :=
    fun _ _ _ _ hp => absurd hp (hnev _)
  obtain ⟨l, r, hl, hpass, -, hspl, -⟩ := Cursor.Split.seekInternal (l := []) (r := m.tree.toList) (p := .fresh)
    (c := (Cursor.new m.tree).reset) ht noAggregate_collects hmono rfl Place.fresh_ne_before rfl rfl (a := ()) trivial
  cases l with
  | nil =>
    rw [hl]
    exact hspl
  | cons e l => exact absurd (hnev _) (hpass [] e l rfl)

/-- The bulk path with entries of distinct keys inserts them all. -/
theorem edit_refines (h : Refines m f) (entries : List (MapEntry K V)) (hnd : (entries.map MapEntry.key).Nodup) :
    Refines ⟨(m.tree.edit (entries.map insertEdit)).1⟩ (insertAll f entries) := by
  rcases entries with _ | ⟨e, es⟩
  · simpa [SumTree.edit, insertAll] using h
  generalize hes : e :: es = entries at hnd ⊢
  -- the edits in the order of their keys
  have hsort : (entries.map insertEdit).mergeSort (fun a b => a.key ≤ b.key) =
      (entries.mergeSort fun a b => a.key ≤ b.key).map insertEdit := by
    refine (map_mergeSort fun a _ b _ => ?_).symm
    exact decide_eq_decide.mpr WithBot.coe_le_coe.symm
  have hperm : (entries.mergeSort fun a b => a.key ≤ b.key).Perm entries := mergeSort_perm _ _
  have hnd' : ((entries.mergeSort fun a b => a.key ≤ b.key).map MapEntry.key).Nodup := (hperm.map _).nodup_iff.mpr hnd
  have hsor : KeySorted (entries.mergeSort fun a b => a.key ≤ b.key) := by
    have hle : (entries.mergeSort fun a b => a.key ≤ b.key).Pairwise fun a b => decide (a.key ≤ b.key) = true :=
      pairwise_mergeSort (fun a b c hab hbc => by simpa using le_trans (by simpa using hab) (by simpa using hbc))
      (fun a b => by simpa using le_total _ _) _
    exact hle.imp₂ (fun a b hab hne => lt_of_le_of_ne (by simpa using hab) hne) (pairwise_map.mp hnd')
  have hfold := foldl_editStep h.wf h.rep.sorted _ (g := f) hsor (l := []) (r := m.tree.toList)
    (s := ⟨(Cursor.new m.tree).seek (compare (Dimension.zero (MapKey K) : MapKey K)) .left, SumTree.new, [], []⟩) ?_ ?_
  · obtain ⟨l', r', hi⟩ := hfold
    have hne : (entries.map insertEdit).isEmpty = false := by simp [← hes]
    simp only [SumTree.edit, hne, Bool.false_eq_true, if_false, hsort]
    obtain ⟨hfw, hfl⟩ := fromIter_wf (((entries.mergeSort _).map insertEdit).foldl step _).bufferedItems
    obtain ⟨hew, hel⟩ := append_wf hi.wf hfw
    obtain ⟨hw, hl⟩ := append_suffix h.wf hew hi.split
    refine ⟨hw, ?_⟩
    rw [← insertAll_perm hperm hnd']
    simpa [SumTree.extend, hl, hel, hfl] using hi.rep
  · exact ⟨seek_zero h.wf, new_wf, by simpa using h.rep⟩
  · intro e _ d hd
    simp at hd

theorem extend_refines (h : Refines m f) (iter : List (K × V)) (hnd : (iter.map Prod.fst).Nodup) :
    Refines (m.extend iter) (iter.foldl (fun f e => Function.update f e.1 (some e.2)) f) := by
  have hedit := edit_refines h (iter.map fun e => ⟨e.1, e.2⟩) (by simpa [comp_def] using hnd)
  rw [map_map] at hedit
  rw [insertAll, foldl_map] at hedit
  exact hedit

omit [LinearOrder K] in
/-- The iterator of a map gives the pairs of its entries. -/
theorem iter_eq (ht : m.tree.WellFormed) {n : Nat} (hn : n ≤ m.tree.toList.length) : m.iter n = (m.tree.toList.map pair)[n]? := by
  rw [TreeMap.iter, iter_nth ht hn, List.getElem?_map]

theorem filterMap_range_getElem? {α : Type u} (l : List α) : ((List.range l.length).filterMap fun n => l[n]?) = l := by
  induction l using reverseRecOn with
  | nil => rfl
  | append_singleton l a ih =>
    rw [length_append, length_singleton, range_succ, filterMap_append]
    have hcon : (List.range l.length).filterMap (fun n => (l ++ [a])[n]?) =
        (List.range l.length).filterMap fun n => l[n]? :=
      filterMap_congr fun n hn => List.getElem?_append_left (mem_range.mp hn)
    rw [hcon, ih]
    simp

theorem insertTree_refines (h : Refines m f) {o : TreeMap K V} (ho : Refines o g) :
    Refines (m.insertTree o) fun k => (g k).or (f k) := by
  have hiter : (List.range o.tree.toList.length).filterMap o.iter = o.tree.toList.map pair := by
    rw [filterMap_congr fun n hn => iter_eq ho.wf (mem_range.mp hn).le]
    have hlen : o.tree.toList.length = (o.tree.toList.map pair).length := by simp
    rw [hlen, filterMap_range_getElem?]
  have hmap : (o.tree.toList.map pair).map (fun e => Edit.insert (MapEntry.mk e.1 e.2)) =
      o.tree.toList.map insertEdit := by
    rw [map_map]
    rfl
  have hins : insertAll f o.tree.toList = fun k => (g k).or (f k) := by
    funext k
    cases hk : g k with
    | some v => simpa using insertAll_of_mem _ ho.rep.nodup ((ho.rep.mem k v).mpr hk)
    | none =>
      refine insertAll_of_forall_ne _ fun e he heq => ?_
      have := (ho.rep.mem _ _).mp he
      rw [heq, hk] at this
      exact absurd this (by simp)
  have hedit := edit_refines h _ ho.rep.nodup
  rw [hins] at hedit
  simp only [TreeMap.insertTree, hiter, hmap]
  exact hedit

end Steps

/-! ## The answers -/

/-- What the readers of a map answer, and what the operations that return a value return, in terms of the map it refines. -/
structure Answers (m : TreeMap K V) (f : K → Option V) : Prop where
  sorted : (m.tree.toList.map MapEntry.key).Pairwise (· < ·)
  iter : ∀ n ≤ m.tree.toList.length, m.iter n = (m.tree.toList.map pair)[n]?
  mem : ∀ k v, (k, v) ∈ m.tree.toList.map pair ↔ f k = some v
  isEmpty : m.isEmpty = true ↔ ∀ k, f k = none
  get : ∀ k, m.get k = f k
  containsKey : ∀ k, m.containsKey k = (f k).isSome
  closest : ∀ k k' v, m.closest k = some (k', v) ↔ f k' = some v ∧ k' ≤ k ∧ ∀ j ≤ k, (f j).isSome → j ≤ k'
  closest_none : ∀ k, m.closest k = none ↔ ∀ j ≤ k, f j = none
  first : ∀ k v, m.first = some (k, v) ↔ f k = some v ∧ ∀ j, (f j).isSome → k ≤ j
  last : ∀ k v, m.last = some (k, v) ↔ f k = some v ∧ ∀ j, (f j).isSome → j ≤ k
  iterFrom : ∀ k n, m.iterFrom k n = ((m.tree.toList.map pair).filter fun e => k ≤ e.1)[n]?
  insertOrReplace : ∀ k v, (m.insertOrReplace k v).2 = f k
  remove : ∀ k, (m.remove k).2 = f k
  update : ∀ {R : Type x} (k : K) (g : V → V × R), (m.update k g).2 = (f k).map fun v => (g v).2

section Readers

variable {m : TreeMap K V} {f : K → Option V}

theorem get_eq (h : Refines m f) (k : K) : m.get k = f k := by
  obtain ⟨_, _, l, r, -, hrep, hl, hr, hspl, -⟩ := slice_key h k
  have hfind : (m.tree.find (keyTarget k) .left).2.2 = r.head? := by
    rw [keyTarget_eq]
    refine find_item h.wf (seekSound_of_monotone (monotoneAlong_adaptor (keyMonotone_compare k _) h.rep.sorted)) hspl.toList_eq ?_ ?_
    · intro l₁ e l₂ he hstop
      exact stopsAt_adaptor.mp hstop (passes_left.mpr (hl e (by simp [he])))
    · rintro e r' rfl
      exact stopsAt_adaptor.mpr fun hpass => absurd (passes_left.mp hpass) (not_lt.mpr (hr e (by simp)))
  rw [TreeMap.get, hfind, hrep.lookup hl hr]
  rcases r with _ | ⟨e, r⟩
  · rfl
  · by_cases he : e.key = k
    · have hk : WithBot.some k = (KeyedItem.key e : MapKey K) := congrArg _ he.symm
      simp [he, hk]
    · have hk : WithBot.some k ≠ (KeyedItem.key e : MapKey K) := fun heq => he (WithBot.coe_injective heq).symm
      simp [he, hk]

variable {l : List (MapEntry K V)} {e : MapEntry K V}

/-- The last entry of a sorted list is the greatest. -/
theorem getLast?_eq_some_iff (hs : KeySorted l) : l.getLast? = some e ↔ e ∈ l ∧ ∀ d ∈ l, d.key ≤ e.key := by
  rcases eq_nil_or_concat l with rfl | ⟨l, b, rfl⟩
  · simp
  · rw [concat_eq_append] at hs ⊢
    have hlt : ∀ d ∈ l, d.key < b.key := fun d hd => (pairwise_append.mp hs).2.2 d hd b (by simp)
    rw [List.getLast?_concat, Option.some_inj]
    constructor
    · rintro rfl
      refine ⟨by simp, fun d hd => ?_⟩
      rcases mem_append.mp hd with hd | hd
      · exact (hlt d hd).le
      · rw [mem_singleton.mp hd]
    · rintro ⟨he, hmax⟩
      rcases mem_append.mp he with he | he
      · exact absurd (hmax b (by simp)) (not_le.mpr (hlt e he))
      · exact (mem_singleton.mp he).symm

/-- The first entry of a sorted list is the least. -/
theorem head?_eq_some_iff (hs : KeySorted l) : l.head? = some e ↔ e ∈ l ∧ ∀ d ∈ l, e.key ≤ d.key := by
  rcases l with _ | ⟨b, l⟩
  · simp
  · have hlt : ∀ d ∈ l, b.key < d.key := fun d hd => rel_of_pairwise_cons hs hd
    rw [List.head?_cons, Option.some_inj]
    constructor
    · rintro rfl
      refine ⟨by simp, fun d hd => ?_⟩
      rcases mem_cons.mp hd with rfl | hd
      · exact le_rfl
      · exact (hlt d hd).le
    · rintro ⟨he, hmin⟩
      rcases mem_cons.mp he with rfl | he
      · rfl
      · exact absurd (hmin b (by simp)) (not_le.mpr (hlt e he))

theorem mem_pair (h : Refines m f) (k : K) (v : V) : (k, v) ∈ m.tree.toList.map pair ↔ f k = some v := by
  rw [← h.rep.mem, mem_map]
  constructor
  · rintro ⟨⟨k', v'⟩, he, heq⟩
    obtain ⟨rfl, rfl⟩ := Prod.mk.inj heq
    exact he
  · exact fun he => ⟨⟨k, v⟩, he, rfl⟩

/-- Every entry of the tree is one of the map. -/
theorem isSome_of_mem (h : Refines m f) (he : e ∈ m.tree.toList) : (f e.key).isSome := by
  rw [(h.rep.mem _ _).mp he]
  rfl

/-- A reader that gives the entry which is extreme among those that satisfy `p`. -/
theorem map_pair_eq_some_iff (h : Refines m f) {o : Option (MapEntry K V)} (p : K → Prop)
    (le : K → K → Prop) (hmem : ∀ e : MapEntry K V, e ∈ l ↔ e ∈ m.tree.toList ∧ p e.key)
    (ho : ∀ e, o = some e ↔ e ∈ l ∧ ∀ d ∈ l, le d.key e.key) (k : K) (v : V) :
    o.map pair = some (k, v) ↔ f k = some v ∧ p k ∧ ∀ j, p j → (f j).isSome → le j k := by
  have hpair : o.map pair = some (k, v) ↔ o = some ⟨k, v⟩ := by
    cases o with
    | none => simp
    | some e => obtain ⟨k', v'⟩ := e; simp [pair]
  rw [hpair, ho, hmem, h.rep.mem, and_assoc]
  refine and_congr_right fun _ => and_congr_right fun _ => ?_
  constructor
  · intro hle j hp hj
    obtain ⟨v', hv'⟩ := Option.isSome_iff_exists.mp hj
    exact hle _ ((hmem _).mpr ⟨(h.rep.mem j v').mpr hv', hp⟩)
  · intro hle d hd
    obtain ⟨hd, hp⟩ := (hmem d).mp hd
    exact hle _ hp (isSome_of_mem h hd)

/-- `closest` gives the last of the entries up to the key. -/
theorem closest_eq (h : Refines m f) (k : K) :
    ∃ l r, m.tree.toList = l ++ r ∧ (∀ e ∈ l, e.key ≤ k) ∧ (∀ e ∈ r, k < e.key) ∧ m.closest k = l.getLast?.map pair := by
  obtain ⟨l, r, hlist, ⟨hl, hr⟩, hspl⟩ := new_seek (c := Cursor.new _) _ _ h.wf h.rep.sorted (keyMonotone_compare k _) rfl
  refine ⟨l, r, hlist, fun e he => passes_right.mp (hl e he), fun e he => not_le.mp fun hle => hr e he (passes_right.mpr hle), ?_⟩
  simp only [TreeMap.closest, keyTarget_eq]
  rw [hspl.prev_item h.wf]

omit [LinearOrder K] in
/-- The calls of `next` on a cursor as an iterator give what is left. -/
theorem iterNth_split (ht : m.tree.WellFormed) (r : List (MapEntry K V)) :
    ∀ n l (c : Cursor (MapEntry K V) (MapKey K) (MapKey K)), Cursor.Split m.tree c l r → c.iterNth n = r[n]? := by
  have hcons : ∀ {l r} {c : Cursor (MapEntry K V) (MapKey K) (MapKey K)} {e},
      Cursor.Split m.tree c l (e :: r) → c.iterNext = (some e, c.next) := by
    intro l r c e hc
    simp only [Cursor.iterNext, hc.sim.2.1, if_true]
    rw [hc.item_eq ht]
    rfl
  have hnil : ∀ {l} {c : Cursor (MapEntry K V) (MapKey K) (MapKey K)}, Cursor.Split m.tree c l [] → c.iterNext = (none, c) := by
    intro l c hc
    simp only [Cursor.iterNext, hc.sim.2.1, if_true]
    rw [hc.item_eq ht]
    rfl
  induction r with
  | nil =>
    intro n
    induction n with
    | zero => intro l c hc; simp [Cursor.iterNth, hnil hc]
    | succ n ih => intro l c hc; rw [Cursor.iterNth, hnil hc]; exact ih l c hc
  | cons e r ih =>
    rintro (_ | n) l c hc
    · simp [Cursor.iterNth, hcons hc]
    · rw [Cursor.iterNth, hcons hc]
      simpa using ih n (l ++ [e]) c.next (hc.next ht)

theorem iterFrom_eq (h : Refines m f) (k : K) (n : Nat) :
    m.iterFrom k n = ((m.tree.toList.map pair).filter fun e => k ≤ e.1)[n]? := by
  obtain ⟨l, r, hlist, ⟨hl, hr⟩, hspl⟩ := new_seek (c := Cursor.new _) _ _ h.wf h.rep.sorted (keyMonotone_compare k _) rfl
  simp only [TreeMap.iterFrom, keyTarget_eq]
  rw [iterNth_split h.wf r n l _ hspl, ← List.getElem?_map]
  have hlf : (l.map pair).filter (fun e => decide (k ≤ e.1)) = [] := by
    rw [filter_eq_nil_iff]
    intro e he
    obtain ⟨d, hd, rfl⟩ := mem_map.mp he
    exact fun hle => absurd (of_decide_eq_true hle) (not_le.mpr (passes_left.mp (hl d hd)))
  have hrf : (r.map pair).filter (fun e => decide (k ≤ e.1)) = r.map pair := by
    rw [filter_eq_self]
    intro e he
    obtain ⟨d, hd, rfl⟩ := mem_map.mp he
    exact decide_eq_true (not_lt.mp fun hlt => hr d hd (passes_left.mpr hlt))
  rw [hlist, map_append, filter_append, hlf, hrf, nil_append]

/-- A map that refines `f` answers as `f` does. -/
theorem Refines.answers (h : Refines m f) : Answers m f where
  sorted := pairwise_map.mpr h.rep.sorted
  iter _ hn := iter_eq h.wf hn
  mem := mem_pair h
  isEmpty := by
    obtain ⟨n, hw⟩ := h.wf
    rw [TreeMap.isEmpty, hw.isEmpty_iff]
    constructor
    · intro hnil k
      by_contra hk
      obtain ⟨v, hv⟩ := Option.ne_none_iff_exists'.mp hk
      have := (h.rep.mem k v).mpr hv
      simp [hnil] at this
    · intro hnone
      refine eq_nil_iff_forall_not_mem.mpr fun e he => ?_
      have := isSome_of_mem h he
      simp [hnone] at this
  get := get_eq h
  containsKey k := by rw [TreeMap.containsKey, get_eq h]
  closest k := by
    obtain ⟨l, r, hlist, hl, hr, hc⟩ := closest_eq h k
    intro k' v
    have hs : KeySorted l := by
      have := h.rep.sorted
      rw [hlist] at this
      exact (pairwise_append.mp this).1
    rw [hc, map_pair_eq_some_iff h _ _ ?_ (fun e => getLast?_eq_some_iff hs)]
    intro e
    rw [hlist, mem_append]
    constructor
    · exact fun he => ⟨.inl he, hl e he⟩
    · rintro ⟨he | he, hle⟩
      · exact he
      · exact absurd hle (not_le.mpr (hr e he))
  closest_none k := by
    obtain ⟨l, r, hlist, hl, hr, hc⟩ := closest_eq h k
    rw [hc, Option.map_eq_none_iff, List.getLast?_eq_none_iff]
    constructor
    · rintro rfl j hj
      by_contra hn
      obtain ⟨v, hv⟩ := Option.ne_none_iff_exists'.mp hn
      have := (h.rep.mem j v).mpr hv
      rw [hlist] at this
      exact absurd hj (not_le.mpr (hr _ this))
    · intro hnone
      refine eq_nil_iff_forall_not_mem.mpr fun e he => ?_
      have := isSome_of_mem h (e := e) (by rw [hlist]; simp [he])
      rw [hnone _ (hl e he)] at this
      exact absurd this (by simp)
  first k v := by
    rw [TreeMap.first, first_eq h.wf, map_pair_eq_some_iff h (fun _ => True) (fun a b => b ≤ a)
      (fun e => by simp) (fun e => head?_eq_some_iff h.rep.sorted)]
    simp
  last k v := by
    rw [TreeMap.last, last_eq h.wf, map_pair_eq_some_iff h (fun _ => True) _
      (fun e => by simp) (fun e => getLast?_eq_some_iff h.rep.sorted)]
    simp
  iterFrom := iterFrom_eq h
  insertOrReplace k v := (insertOrReplace_refines h k v).2
  remove k := (remove_refines h k).2
  update k g := (update_refines h k g).2

end Readers

/-! ## Runs -/

/-- The maps that a run of operations reaches from the empty map, each with the finite map of the same operations. Every
`extend` has entries of distinct keys, and no stored key is before the start of a `remove_range` and not before its end. -/
inductive Runs : TreeMap K V → (K → Option V) → Prop where
  | empty : Runs empty fun _ => none
  | insert {m : TreeMap K V} {f : K → Option V} (k : K) (v : V) : Runs m f →
      Runs (m.insert k v) (Function.update f k (some v))
  | insertOrReplace {m : TreeMap K V} {f : K → Option V} (k : K) (v : V) : Runs m f →
      Runs (m.insertOrReplace k v).1 (Function.update f k (some v))
  | extend {m : TreeMap K V} {f : K → Option V} (iter : List (K × V)) : Runs m f → (iter.map Prod.fst).Nodup →
      Runs (m.extend iter) (iter.foldl (fun f e => Function.update f e.1 (some e.2)) f)
  | insertTree {m o : TreeMap K V} {f g : K → Option V} : Runs m f → Runs o g →
      Runs (m.insertTree o) fun k => (g k).or (f k)
  | remove {m : TreeMap K V} {f : K → Option V} (k : K) : Runs m f → Runs (m.remove k).1 (Function.update f k none)
  | removeRange {m : TreeMap K V} {f : K → Option V} (start «end» : MapSeekTarget K) : Runs m f →
      KeyMonotone start .left → KeyMonotone «end» .left → (∀ k, (f k).isSome → start k = .gt → «end» k = .gt) →
      Runs (m.removeRange start «end») fun k => if start k ≠ .gt ∧ «end» k = .gt then none else f k
  | update {m : TreeMap K V} {f : K → Option V} {R : Type x} (k : K) (g : V → V × R) : Runs m f →
      Runs (m.update k g).1 (Function.update f k ((f k).map fun v => (g v).1))
  | retain {m : TreeMap K V} {f : K → Option V} (p : K → V → Bool) : Runs m f →
      Runs (m.retain p) fun k => (f k).filter (p k)
  | clear {m : TreeMap K V} {f : K → Option V} : Runs m f → Runs m.clear fun _ => none

theorem Runs.refines {m : TreeMap K V} {f : K → Option V} (h : Runs.{u, v, x} m f) : Refines m f := by
  induction h with
  | empty => exact empty_refines
  | insert k v _ ih => exact insert_refines ih k v
  | insertOrReplace k v _ ih => exact (insertOrReplace_refines ih k v).1
  | extend iter _ hnd ih => exact extend_refines ih iter hnd
  | insertTree _ _ ihm iho => exact insertTree_refines ihm iho
  | remove k _ ih => exact (remove_refines ih k).1
  | removeRange start «end» _ hms hme hse ih => exact removeRange_refines ih hms hme hse
  | update k g _ ih => exact (update_refines ih k g).1
  | retain p _ ih => exact retain_refines ih p
  | clear _ ih => exact empty_refines

/-- A map that such a run reaches answers as the finite map does, and its entries are strictly sorted by key. -/
theorem treeMap_refines_finite_map {m : TreeMap K V} {f : K → Option V} (h : Runs.{u, v, x} m f) : Answers.{u, v, x} m f :=
  h.refines.answers

/-- A batch that mentions a key twice leaves two entries of the key. -/
theorem extend_duplicate_diverges :
    ¬(((empty : TreeMap Nat Nat).extend [(1, 10), (1, 20)]).tree.toList.map MapEntry.key).Pairwise (· < ·) := by
  have hsort : [(Edit.insert (MapEntry.mk 1 10) : Edit (MapEntry Nat Nat) (MapKey Nat)), .insert (MapEntry.mk 1 20)].mergeSort
      (fun a b => decide (a.key ≤ b.key)) = [.insert (MapEntry.mk 1 10), .insert (MapEntry.mk 1 20)] :=
    mergeSort_of_pairwise (by decide)
  simp only [TreeMap.extend, SumTree.edit, map_cons, map_nil, isEmpty_cons, Bool.false_eq_true, if_false,
    hsort]
  decide

/-- A run that inserts a batch, replaces and removes. -/
theorem treeMap_refines_finite_map_batch :
    Answers.{0, 0, 0} ((((empty : TreeMap Nat Nat).extend [(3, 30), (1, 10)]).insert 2 20).remove 3).1
      (Function.update (Function.update (Function.update (Function.update (fun _ => none) 3 (some 30)) 1 (some 10)) 2
        (some 20)) 3 none) :=
  treeMap_refines_finite_map (.remove 3 (.insert 2 20 (.extend [(3, 30), (1, 10)] .empty (by decide))))

end TreeMap

end Wu
