import Mathlib.Data.List.Basic

/-!
# Merging neighbours with one key

When a list is sorted by a key, the items with one key stand together. Merging neighbours then leaves one item for each key, whose
value is made of the values of the key in their order.
-/

namespace Wu.SortedGroups

open List

variable {K V : Type} [DecidableEq K]

/-- The loop of `Vec::dedup_by`: what has the key of the item that was kept last is merged into it. -/
def dedupLoop (merge : V → V → V) (last : K × V) : List (K × V) → List (K × V)
  | [] => [last]
  | item :: items =>
    if item.1 = last.1 then dedupLoop merge (last.1, merge last.2 item.2) items
    else last :: dedupLoop merge item items

/-- `Vec::dedup_by` on items with keys. -/
def dedupBy (merge : V → V → V) : List (K × V) → List (K × V)
  | [] => []
  | item :: items => dedupLoop merge item items

/-- The values of a key. -/
def valuesOf (key : K) (items : List (K × V)) : List V := (items.filter fun item => item.1 = key).map Prod.snd

theorem valuesOf_cons_self (key : K) (value : V) (items : List (K × V)) :
    valuesOf key ((key, value) :: items) = value :: valuesOf key items := by
  simp [valuesOf]

theorem valuesOf_cons_ne {key : K} {item : K × V} (h : item.1 ≠ key) (items : List (K × V)) :
    valuesOf key (item :: items) = valuesOf key items := by
  simp [valuesOf, h]

theorem mem_valuesOf {key : K} {value : V} {items : List (K × V)} : value ∈ valuesOf key items ↔ (key, value) ∈ items := by
  simp [valuesOf]

theorem valuesOf_eq_nil {key : K} {items : List (K × V)} (h : ∀ item ∈ items, item.1 ≠ key) : valuesOf key items = [] :=
  eq_nil_iff_forall_not_mem.mpr fun _ hval => h _ (mem_valuesOf.mp hval) rfl

/-- Says that a list has one item for each key of another, whose value is merged from the values of the key. -/
structure Merges (cmp : K → K → Ordering) (merge : V → V → V) (items merged : List (K × V)) : Prop where
  sorted : merged.Pairwise fun a b => cmp a.1 b.1 = .lt
  mem_iff : ∀ (key : K) (value : V), (key, value) ∈ merged ↔
    ∃ first more, valuesOf key items = first :: more ∧ value = more.foldl merge first

section

variable {cmp : K → K → Ordering} [Std.TransCmp cmp]

/-- Says that items are sorted, and that only equal keys compare as equal. -/
structure SortedBy (cmp : K → K → Ordering) (items : List (K × V)) : Prop where
  sorted : items.Pairwise fun a b => (cmp a.1 b.1).isLE
  lawful : ∀ a ∈ items, ∀ b ∈ items, cmp a.1 b.1 = .eq → a.1 = b.1

omit [DecidableEq K] [Std.TransCmp cmp] in
theorem SortedBy.tail {item : K × V} {items : List (K × V)} (h : SortedBy cmp (item :: items)) : SortedBy cmp items :=
  ⟨(pairwise_cons.mp h.sorted).2, fun a ha b hb => h.lawful a (.tail item ha) b (.tail item hb)⟩

omit [DecidableEq K] in
/-- Behind an item with another key all keys are greater. -/
theorem SortedBy.lt_of_ne {last item : K × V} {items : List (K × V)} (h : SortedBy cmp (last :: item :: items))
    (hne : item.1 ≠ last.1) : ∀ other ∈ item :: items, cmp last.1 other.1 = .lt := by
  have hitem : cmp last.1 item.1 = .lt := by
    cases hcmp : cmp last.1 item.1 with
    | lt => rfl
    | eq => exact absurd (h.lawful last mem_cons_self item (.tail last mem_cons_self) hcmp).symm hne
    | gt =>
      have hle := (pairwise_cons.mp h.sorted).1 item mem_cons_self
      rw [hcmp] at hle
      cases hle
  intro other hoth
  obtain rfl | hoth := mem_cons.mp hoth
  · exact hitem
  · exact Std.TransCmp.lt_of_lt_of_isLE hitem ((pairwise_cons.mp h.tail.sorted).1 other hoth)

theorem dedupLoop_merges (merge : V → V → V) (last : K × V) (items : List (K × V)) (h : SortedBy cmp (last :: items)) :
    Merges cmp merge (last :: items) (dedupLoop merge last items) := by
  induction items generalizing last with
  | nil =>
    refine ⟨pairwise_singleton _ _, fun key value => ?_⟩
    rw [dedupLoop, mem_singleton]
    by_cases hkey : last.1 = key
    · obtain ⟨_, found⟩ := last
      cases hkey
      rw [valuesOf_cons_self]
      refine ⟨fun heq => ⟨found, [], rfl, congrArg Prod.snd heq⟩, fun ⟨first, more, hvals, hval⟩ => ?_⟩
      cases hvals
      rw [hval]
      rfl
    · rw [valuesOf_cons_ne hkey]
      exact iff_of_false (fun heq => hkey (congrArg _ heq).symm) fun ⟨_, _, hvals, _⟩ => by cases hvals
  | cons item items ih =>
    obtain ⟨lastKey, lastValue⟩ := last
    obtain ⟨key, value⟩ := item
    rw [dedupLoop]
    by_cases hsame : key = lastKey
    · rw [if_pos hsame]
      subst hsame
      have hsort : SortedBy cmp ((key, merge lastValue value) :: items) := by
        refine ⟨pairwise_cons.mpr (pairwise_cons.mp h.tail.sorted), fun a ha b hb => ?_⟩
        have hkeys : ∀ x ∈ (key, merge lastValue value) :: items, ∃ y ∈ (key, value) :: items, y.1 = x.1 := by
          intro x hx
          obtain rfl | hx := mem_cons.mp hx
          · exact ⟨(key, value), mem_cons_self, rfl⟩
          · exact ⟨x, .tail _ hx, rfl⟩
        obtain ⟨a', ha', haeq⟩ := hkeys a ha
        obtain ⟨b', hb', hbeq⟩ := hkeys b hb
        rw [← haeq, ← hbeq]
        exact h.tail.lawful a' ha' b' hb'
      have hrest := ih _ hsort
      refine ⟨hrest.sorted, fun other found => (hrest.mem_iff _ _).trans ?_⟩
      by_cases hoth : key = other
      · subst hoth
        rw [valuesOf_cons_self, valuesOf_cons_self, valuesOf_cons_self]
        constructor
        · rintro ⟨first, more, hvals, hfold⟩
          cases hvals
          exact ⟨lastValue, value :: valuesOf key _, rfl, hfold⟩
        · rintro ⟨first, more, hvals, hfold⟩
          cases hvals
          exact ⟨merge _ _, valuesOf key _, rfl, hfold⟩
      · rw [valuesOf_cons_ne hoth, valuesOf_cons_ne hoth, valuesOf_cons_ne hoth]
    · rw [if_neg hsame]
      have hgre := h.lt_of_ne hsame
      have hrest := ih _ h.tail
      have hmem : ∀ other ∈ dedupLoop merge (key, value) items, cmp lastKey other.1 = .lt := by
        rintro ⟨otherKey, found⟩ hoth
        obtain ⟨first, more, hvals, -⟩ := (hrest.mem_iff _ _).mp hoth
        have hfst : first ∈ valuesOf otherKey ((key, value) :: items) := hvals ▸ mem_cons_self
        exact hgre (otherKey, first) (mem_valuesOf.mp hfst)
      refine ⟨pairwise_cons.mpr ⟨hmem, hrest.sorted⟩, fun other found => ?_⟩
      rw [mem_cons]
      by_cases hoth : lastKey = other
      · subst hoth
        have hnone : valuesOf lastKey ((key, value) :: items) = [] := by
          refine valuesOf_eq_nil fun item hitem heq => ?_
          have hlt := hgre item hitem
          have hself : cmp lastKey lastKey = .eq := Std.ReflCmp.compare_self
          rw [heq, hself] at hlt
          cases hlt
        rw [valuesOf_cons_self, hrest.mem_iff, hnone]
        constructor
        · rintro (heq | ⟨_, _, hvals, _⟩)
          · exact ⟨lastValue, [], rfl, congrArg Prod.snd heq⟩
          · cases hvals
        · rintro ⟨first, more, hvals, hfold⟩
          cases hvals
          exact .inl (by rw [hfold]; rfl)
      · rw [valuesOf_cons_ne hoth, hrest.mem_iff]
        exact or_iff_right fun heq => hoth (congrArg Prod.fst heq).symm

theorem dedupBy_merges (merge : V → V → V) {items : List (K × V)} (h : SortedBy cmp items) :
    Merges cmp merge items (dedupBy merge items) := by
  cases items with
  | nil => exact ⟨List.Pairwise.nil, fun key value => iff_of_false not_mem_nil fun ⟨_, _, hvals, _⟩ => by cases hvals⟩
  | cons item items => exact dedupLoop_merges _ item _ h

end

end Wu.SortedGroups
