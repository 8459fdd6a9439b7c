import Mathlib.Logic.Function.Iterate
import Wu.SumTree.Summary

/-!
# A cursor over a list

What a cursor is for: a place in a flat list of items. `before` is the place a cursor reaches when it moves back from the
first item, `at xs.length` the one after the last item, and `fresh` the place of a cursor that has not moved yet, from
which a forward move starts at the first item and a backward move at the last.
-/

namespace Wu

open List

universe u v w

/-- Where a cursor over a list is. -/
inductive Place where
  | fresh
  | before
  | «at» (index : Nat)
  deriving DecidableEq, Repr

theorem Place.fresh_ne_before : Place.fresh ≠ .before := Place.noConfusion

theorem Place.at_ne_before (index : Nat) : Place.at index ≠ .before := Place.noConfusion

/-- A cursor over a list. -/
structure ListCursor (T : Type u) where
  items : List T
  place : Place

namespace ListCursor

variable {T : Type u} {S : Type v} {D : Type w} [Item T S] [Dimension D S]

/-- How many items lie before the cursor. -/
def index (c : ListCursor T) : Nat :=
  match c.place with
  | .fresh => 0
  | .before => 0
  | .at i => i

/-- The item the cursor is at. -/
def item (c : ListCursor T) : Option T :=
  match c.place with
  | .fresh => none
  | .before => none
  | .at i => c.items[i]?

/-- The item after that. -/
def nextItem (c : ListCursor T) : Option T :=
  match c.place with
  | .fresh => c.items.head?
  | .before => c.items.head?
  | .at i => c.items[i + 1]?

/-- The item before the cursor. -/
def prevItem (c : ListCursor T) : Option T := (c.items.take c.index).getLast?

/-- The measure of the items before the cursor. -/
def start (D : Type w) [Dimension D S] (c : ListCursor T) : D := positionAfter D (c.items.take c.index)

/-- The measure of those and the item the cursor is at. -/
def «end» (D : Type w) [Dimension D S] (c : ListCursor T) : D :=
  match c.item with
  | some item => Dimension.addSummary (c.start D) (Item.summary item)
  | none => c.start D

/-- The first index from `i` on whose item ends where the target does not pass, the length of the list when there is
none. -/
def seekIndex (target : SeekTarget D) (bias : Bias) (xs : List T) (i : Nat) : Nat :=
  i + (List.range (xs.length - i)).findIdx fun k => !target.passes bias (positionAfter D (xs.take (i + k + 1)))

/-- The cursor moved to where a seek from its place ends. -/
def seek (target : SeekTarget D) (bias : Bias) (c : ListCursor T) : ListCursor T :=
  { c with place := .at (seekIndex target bias c.items c.index) }

/-- The items a cursor passes over on its way to `d`. -/
def passed (c d : ListCursor T) : List T := (c.items.take d.index).drop c.index

/-- The items a forward search looks at. -/
def rest (c : ListCursor T) : List T :=
  match c.place with
  | .fresh => c.items
  | .before => c.items
  | .at i => c.items.drop (i + 1)

/-- The cursor moved to the first of them that the filter holds of. -/
def searchForward (filterNode : S → Bool) (c : ListCursor T) : ListCursor T :=
  let i := c.items.length - c.rest.length
  { c with place := .at (i + c.rest.findIdx fun x => filterNode (Item.summary x)) }

/-- The items a backward search looks at. -/
def lead (c : ListCursor T) : List T :=
  match c.place with
  | .fresh => c.items
  | .before => []
  | .at i => c.items.take i

/-- The cursor moved to the last of them that the filter holds of. -/
def searchBackward (filterNode : S → Bool) (c : ListCursor T) : ListCursor T :=
  match c.lead.reverse.findIdx? fun x => filterNode (Item.summary x) with
  | some k => { c with place := .at (c.lead.length - 1 - k) }
  | none => { c with place := .before }

omit [Item T S] [Dimension D S] in
/-- A list at an index. -/
theorem exists_split {xs : List T} {j : Nat} (hj : j < xs.length) : ∃ l y r, xs = l ++ y :: r ∧ l.length = j :=
  ⟨xs.take j, xs[j], xs.drop (j + 1), by simp, by simp; omega⟩

omit [Item T S] [Dimension D S] in
theorem take_split (bef l r : List T) (y : T) : (bef ++ (l ++ y :: r)).take (bef.length + l.length + 1) = bef ++ l ++ [y] := by
  rw [show bef.length + l.length + 1 = (bef ++ l ++ [y]).length by simp [Nat.add_assoc],
    show bef ++ (l ++ y :: r) = (bef ++ l ++ [y]) ++ r by simp, take_left]

omit [Item T S] [Dimension D S] in
/-- The first member that satisfies a predicate, as a split of the list. -/
theorem findIdx?_eq_some_iff_split {p : T → Bool} (xs : List T) : ∀ k, xs.findIdx? p = some k ↔
    ∃ l x r, xs = l ++ x :: r ∧ l.length = k ∧ (∀ y ∈ l, ¬p y = true) ∧ p x = true := by
  induction xs with
  | nil => simp
  | cons y xs ih =>
    intro k
    rw [List.findIdx?_cons]
    by_cases hy : p y = true
    · rw [if_pos hy, Option.some_inj]
      constructor
      · rintro rfl
        exact ⟨[], y, xs, rfl, rfl, by simp, hy⟩
      · rintro ⟨l, x, r, heq, rfl, hl, hx⟩
        cases l with
        | nil => rfl
        | cons z l => exact absurd ((List.cons.inj heq).1 ▸ hy) (hl z (by simp))
    · rw [if_neg hy, Option.map_eq_some_iff]
      constructor
      · rintro ⟨j, hj, rfl⟩
        obtain ⟨l, x, r, rfl, rfl, hl, hx⟩ := (ih j).mp hj
        exact ⟨y :: l, x, r, rfl, rfl, by simpa [hy] using hl, hx⟩
      · rintro ⟨l, x, r, heq, rfl, hl, hx⟩
        cases l with
        | nil => exact absurd ((List.cons.inj heq).1 ▸ hx) hy
        | cons z l =>
          obtain ⟨rfl, rfl⟩ := List.cons.inj heq
          exact ⟨l.length, (ih _).mpr ⟨l, x, r, rfl, rfl, fun w hw => hl w (by simp [hw]), hx⟩, rfl⟩

/-- A seek that passes over `m` and stops at `x` ends at the index of `x`. -/
theorem seekIndex_of_stop {target : SeekTarget D} {bias : Bias} {bef m m' : List T} {x : T}
    (hp : ∀ l y r, m = l ++ y :: r → target.passes bias (positionAfter D (bef ++ l ++ [y])) = true)
    (hx : ¬target.passes bias (positionAfter D (bef ++ m ++ [x])) = true) :
    seekIndex target bias (bef ++ (m ++ x :: m')) bef.length = bef.length + m.length := by
  unfold seekIndex
  rw [Nat.add_left_cancel_iff, findIdx_eq (by simp)]
  constructor
  · rw [getElem_range, take_split]
    simpa using hx
  · intro j hj
    obtain ⟨l, y, r, rfl, rfl⟩ := exists_split hj
    rw [getElem_range, append_assoc, cons_append, take_split, hp l y r rfl]
    rfl

/-- A seek that passes over all the items ends after the last. -/
theorem seekIndex_of_pass {target : SeekTarget D} {bias : Bias} {bef m : List T}
    (hp : ∀ l y r, m = l ++ y :: r → target.passes bias (positionAfter D (bef ++ l ++ [y])) = true) :
    seekIndex target bias (bef ++ m) bef.length = (bef ++ m).length := by
  unfold seekIndex
  rw [length_append, Nat.add_sub_cancel_left, Nat.add_left_cancel_iff]
  refine (findIdx_eq_length.mpr ?_).trans length_range
  intro j hj
  obtain ⟨l, y, r, rfl, rfl⟩ := exists_split (mem_range.mp hj)
  rw [take_split, hp l y r rfl]
  rfl

/-! ## Searching again and again -/

section Iterate

omit [Dimension D S]

/-- A forward search finds the first item left that the filter holds of. -/
theorem searchForward_rest (f : S → Bool) (c : ListCursor T) :
    ((c.rest.filter fun x => f (Item.summary x)) = [] ∧ (c.searchForward f).item = none ∧ (c.searchForward f).rest = []) ∨
      ∃ x, (c.searchForward f).item = some x ∧
        (c.rest.filter fun x => f (Item.summary x)) = x :: (c.searchForward f).rest.filter fun x => f (Item.summary x) := by
  obtain ⟨i, hi, hrest⟩ : ∃ i, c.items.length - c.rest.length = i ∧ c.rest = c.items.drop i := by
    refine ⟨_, rfl, ?_⟩
    obtain ⟨xs, p⟩ := c
    cases p with
    | fresh => simp [rest]
    | before => simp [rest]
    | «at» i =>
      rcases Nat.le_total (i + 1) xs.length with h | h
      · simp only [rest, length_drop]
        congr 1
        omega
      · simp [rest, drop_eq_nil_of_le h]
  obtain ⟨xs, p⟩ := c
  simp only [searchForward, hi]
  generalize hys : rest ⟨xs, p⟩ = ys at hrest ⊢
  simp only at hrest
  cases hfind : ys.find? _ with
  | none =>
    rw [List.find?_eq_none] at hfind
    have hidx : ys.findIdx (fun x => f (Item.summary x)) = ys.length :=
      findIdx_eq_length.mpr fun y hy => by simpa using hfind y hy
    have hend : xs.length ≤ i + ys.length := by rw [hrest, length_drop]; omega
    refine .inl ⟨filter_eq_nil_iff.mpr hfind, ?_, ?_⟩
    · simpa [item, hidx] using hend
    · simp only [ListCursor.rest, hidx]
      exact drop_eq_nil_of_le (by omega)
  | some x =>
    obtain ⟨hx, m, m', rfl, hm⟩ := List.find?_eq_some_iff_append.mp hfind
    have hidx : (m ++ x :: m').findIdx (fun x => f (Item.summary x)) = m.length := by
      rw [findIdx_eq (by simp)]
      refine ⟨by simpa using hx, fun j hj => ?_⟩
      rw [getElem_append_left]
      simpa using hm _ (getElem_mem hj)
    have hmf : m.filter (fun x => f (Item.summary x)) = [] :=
      filter_eq_nil_iff.mpr fun y hy => by simpa using hm y hy
    refine .inr ⟨x, ?_, ?_⟩
    · simp only [item, hidx]
      rw [← List.getElem?_drop, ← hrest]
      simp
    · have hdrop : xs.drop (i + m.length + 1) = m' := by
        rw [Nat.add_assoc, ← drop_drop, ← hrest]
        simp
      simp only [ListCursor.rest, hidx, hdrop, filter_append, hmf, nil_append]
      exact filter_cons_of_pos hx

/-- A backward search finds the last item left that the filter holds of. -/
theorem searchBackward_lead (f : S → Bool) (c : ListCursor T) :
    ((c.lead.filter fun x => f (Item.summary x)) = [] ∧ (c.searchBackward f).item = none ∧ (c.searchBackward f).lead = []) ∨
      ∃ x, (c.searchBackward f).item = some x ∧ (c.lead.filter fun x => f (Item.summary x)) =
        ((c.searchBackward f).lead.filter fun x => f (Item.summary x)) ++ [x] := by
  obtain ⟨zs, hzs⟩ : ∃ zs, c.items = c.lead ++ zs := by
    obtain ⟨xs, p⟩ := c
    cases p with
    | fresh => exact ⟨[], by simp [lead]⟩
    | before => exact ⟨xs, by simp [lead]⟩
    | «at» i => exact ⟨xs.drop i, by simp [lead]⟩
  obtain ⟨xs, p⟩ := c
  simp only [searchBackward]
  generalize hys : lead ⟨xs, p⟩ = ys at hzs ⊢
  simp only at hzs
  cases hfind : ys.reverse.findIdx? _ with
  | none =>
    rw [List.findIdx?_eq_none_iff] at hfind
    refine .inl ⟨filter_eq_nil_iff.mpr fun y hy => ?_, rfl, rfl⟩
    simpa using hfind y (mem_reverse.mpr hy)
  | some k =>
    -- the items after the one that is found are those the search has looked at before
    obtain ⟨m', x, m, hrev, rfl, hm', hx⟩ := (findIdx?_eq_some_iff_split _ k).mp hfind
    have hys : ys = m.reverse ++ x :: m'.reverse := by
      rw [← reverse_reverse ys, hrev]
      simp
    subst hys
    have hlen : (m.reverse ++ x :: m'.reverse).length - 1 - m'.length = m.reverse.length := by simp
    have hnil : m'.reverse.filter (fun x => f (Item.summary x)) = [] :=
      filter_eq_nil_iff.mpr fun y hy => hm' y (mem_reverse.mp hy)
    simp only [hlen]
    refine .inr ⟨x, by simp [item, hzs], ?_⟩
    have htake : xs.take m.reverse.length = m.reverse := by simp [hzs]
    simp only [lead, htake, filter_append]
    rw [filter_cons_of_pos (by simpa using hx), hnil]

/-- The searches of a forward filter visit the items that satisfy the filter, in order. -/
theorem iterate_searchForward (f : S → Bool) (n : Nat) : ∀ c : ListCursor T,
    ((searchForward f)^[n + 1] c).item = (c.rest.filter fun x => f (Item.summary x))[n]? := by
  induction n with
  | zero =>
    intro c
    rcases c.searchForward_rest f with ⟨hnil, hitem, -⟩ | ⟨x, hitem, hcons⟩
    · simp [hnil, hitem]
    · simp [hcons, hitem]
  | succ n ih =>
    intro c
    rw [Function.iterate_succ_apply, ih]
    rcases c.searchForward_rest f with ⟨hnil, -, hrest⟩ | ⟨x, -, hcons⟩
    · simp [hnil, hrest]
    · rw [hcons, List.getElem?_cons_succ]

/-- The searches of a backward filter visit the items that satisfy the filter, the last first. -/
theorem iterate_searchBackward (f : S → Bool) (n : Nat) : ∀ c : ListCursor T,
    ((searchBackward f)^[n + 1] c).item = (c.lead.filter fun x => f (Item.summary x)).reverse[n]? := by
  induction n with
  | zero =>
    intro c
    rcases c.searchBackward_lead f with ⟨hnil, hitem, -⟩ | ⟨x, hitem, hcons⟩
    · simp [hnil, hitem]
    · simp [hcons, hitem]
  | succ n ih =>
    intro c
    rw [Function.iterate_succ_apply, ih]
    rcases c.searchBackward_lead f with ⟨hnil, -, hlead⟩ | ⟨x, -, hcons⟩
    · simp [hnil, hlead]
    · rw [hcons, reverse_append, reverse_singleton, singleton_append, List.getElem?_cons_succ]

end Iterate

end ListCursor

end Wu
