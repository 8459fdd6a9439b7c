import Wu.SumTree.Builds

/-!
# A cursor as a split of the list

Code that walks a tree with a cursor sees the list of its items as what lies before the cursor and what is left:
`Split t c l r`. Each operation such code uses is one lemma about the two lists.
-/

namespace Wu

open List

universe u v w

open SumTree

namespace Cursor

variable {T : Type u} {S : Type v} {D : Type w} [Summary S] [Item T S] [Dimension D S]

/-- The cursor stands after the items `l` of the tree, with `r` left. -/
structure Split (t : SumTree T S) (c : Cursor T S D) (l r : List T) : Prop where
  toList_eq : t.toList = l ++ r
  sim : Sim Positioned t c (.at l.length)

variable {t : SumTree T S} {c : Cursor T S D} {l r : List T}

theorem Split.item_eq (ht : t.WellFormed) (hs : Split t c l r) : c.item = r.head? := by
  rw [(hs.sim.agrees ht).item, ListCursor.item, hs.toList_eq]
  cases r <;> simp

theorem Split.end_cons (ht : t.WellFormed) {x : T} {r' : List T} (hs : Split t c l (x :: r')) :
    c.end = positionAfter D (l ++ [x]) := by
  have hitem : ListCursor.item ⟨t.toList, .at l.length⟩ = some x := by simp [ListCursor.item, hs.toList_eq]
  rw [(hs.sim.agrees ht).end, ListCursor.end, hitem, positionAfter_concat, ListCursor.start, ListCursor.index, hs.toList_eq,
    take_left]

theorem Split.end_nil (ht : t.WellFormed) (hs : Split t c l []) : c.end = positionAfter D l := by
  have hitem : ListCursor.item ⟨t.toList, .at l.length⟩ = none := by simp [ListCursor.item, hs.toList_eq]
  rw [(hs.sim.agrees ht).end, ListCursor.end, hitem, ListCursor.start, ListCursor.index, hs.toList_eq, take_left]

theorem findIdx_true {α : Type u} (l : List α) : (l.findIdx fun _ => true) = 0 := by
  cases l <;> simp [findIdx_cons]

section Lawful

variable [LawfulSummary S] [LawfulDimension D S]

theorem Split.next (ht : t.WellFormed) {x : T} {r' : List T} (hs : Split t c l (x :: r')) : Split t c.next (l ++ [x]) r' := by
  have hlist := hs.toList_eq
  refine ⟨by simp [hlist], ?_⟩
  have hsim := hs.sim.searchForward ht filterSound_true
  have hrest : ListCursor.rest ⟨t.toList, .at l.length⟩ = r' := by simp [ListCursor.rest, hlist]
  have hidx : t.toList.length - r'.length + r'.findIdx (fun _ => true) = (l ++ [x]).length := by
    rw [hlist, findIdx_true]
    simp
    omega
  simp only [ListCursor.searchForward, hrest, hidx] at hsim
  exact hsim

/-- The first `next` of a cursor stands at the first item. -/
theorem split_new_next (ht : t.WellFormed) : Split t (Cursor.new t : Cursor T S D).next [] t.toList := by
  refine ⟨rfl, ?_⟩
  have hsim := Sim.searchForward ht filterSound_true (show Sim Positioned t (Cursor.new t : Cursor T S D) .fresh from rfl)
  have hidx : t.toList.length - (ListCursor.rest ⟨t.toList, .fresh⟩).length +
      (ListCursor.rest ⟨t.toList, .fresh⟩).findIdx (fun _ => true) = ([] : List T).length := by
    rw [findIdx_true]
    simp [ListCursor.rest]
  simp only [ListCursor.searchForward, hidx] at hsim
  exact hsim

/-- A step back stands at the last item before the cursor. -/
theorem Split.prev_item (ht : t.WellFormed) (hs : Split t c l r) : c.prev.item = l.getLast? := by
  have hsim := hs.sim.searchBackward ht filterSound_true
  have hlead : ListCursor.lead ⟨t.toList, .at l.length⟩ = l := by simp [ListCursor.lead, hs.toList_eq]
  refine (hsim.agrees ht).item.trans ?_
  simp only [ListCursor.searchBackward, hlead]
  rcases eq_nil_or_concat l with rfl | ⟨l, x, rfl⟩
  · rfl
  · simp [findIdx?_cons, ListCursor.item, hs.toList_eq]

theorem Split.suffix (ht : t.WellFormed) (hs : Split t c l r) : c.suffix.2.WellFormed ∧ c.suffix.2.toList = r := by
  -- the target lies beyond every item, so that the seek stops at none
  have hlaw := seekRules_lawful (D := D) endTarget .right t
  have hrule : SeekRules (endTarget : SeekTarget D) .right t Positioned (fun _ _ => False) fun _ _ => False :=
    ⟨hlaw.item, fun x _ hn => hn rfl, hlaw.node⟩
  obtain ⟨j, -, ⟨hw, hl, -⟩, bef, m, r', hlist, hi, rfl, -, hstop⟩ := hs.sim.seekInternal ht sliceAggregate_collects hrule
    rfl (hs.sim.not_atFront (Place.at_ne_before _)) sliceCollected_new
  have hr' : r' = [] := by
    cases r' with
    | nil => rfl
    | cons x r' => exact (hstop x r' rfl).elim
  refine ⟨hw, hl.trans ?_⟩
  subst hr'
  rw [append_nil] at hlist
  rw [← hlist, take_length, hs.toList_eq, ListCursor.index, drop_left]

/-- A seek by a monotone target goes over the items whose end it passes. -/
theorem Split.seekInternal {α : Type*} {agg : SeekAggregate T S α} {R : α → List T → Prop} {P : α → List T → Nat → Prop}
    {target : SeekTarget D} {bias : Bias} (ht : t.WellFormed) (hag : Collects agg R P)
    (hm : MonotoneAlong target bias t.toList) {p : Place} (hsim : Sim Positioned t c p) (hp : p ≠ .before)
    (hl : t.toList = l ++ r) (hi : ListCursor.index ⟨t.toList, p⟩ = l.length) {a : α} (ha : R a []) :
    ∃ m r', r = m ++ r' ∧ Passes (StopsAt target bias) l m ∧ (∀ x r'', r' = x :: r'' → StopsAt target bias (l ++ m) x) ∧
      Split t (c.seekInternal target bias agg a).1 (l ++ m) r' ∧ R (c.seekInternal target bias agg a).2 m := by
  obtain ⟨j, hsim', hr, bef, m, r', hlist, hbef, rfl, hpass, hstop⟩ := hsim.seekInternal ht hag
    (seekRules_of_sound (seekSound_of_monotone hm)) rfl (hsim.not_atFront hp) ha
  obtain ⟨rfl, rfl⟩ : bef = l ∧ m ++ r' = r := by
    rw [hl] at hlist
    exact (append_inj hlist (by omega)).imp Eq.symm Eq.symm
  refine ⟨m, r', rfl, hpass, hstop, ⟨by simp [hl], hsim'⟩, ?_⟩
  rw [hi, hl, ← append_assoc, take_left, drop_left] at hr
  exact hr

end Lawful

end Cursor

end Wu
