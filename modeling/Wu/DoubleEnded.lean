import Mathlib.Data.List.Basic

/-!
# Iteration from both ends

An iterator gives items from the front and from the back until both meet. Whatever the order in which it is asked, it yields a list
when the items from the front, those that are left and those from the back make up the list.
-/

namespace Wu.DoubleEnded

open List

/-- Where an iterator is asked for an item. -/
inductive Side where
  | front
  | back
  deriving DecidableEq, Repr

/-- An iterator over a state: `next` and `next_back`, which leave the state as it is when there is nothing more. -/
structure DoubleEndedIterator (σ α : Type) where
  next : σ → Option (α × σ)
  nextBack : σ → Option (α × σ)

variable {σ α : Type}

namespace DoubleEndedIterator

/-- An item from a side. -/
def ask (iterator : DoubleEndedIterator σ α) : Side → σ → Option (α × σ)
  | .front => iterator.next
  | .back => iterator.nextBack

/-- What comes of asking several times. -/
def run (iterator : DoubleEndedIterator σ α) : List Side → σ → List (Side × Option α)
  | [], _ => []
  | side :: sides, state =>
    match iterator.ask side state with
    | some (item, state) => (side, some item) :: iterator.run sides state
    | none => (side, none) :: iterator.run sides state

end DoubleEndedIterator

/-- The items that came from a side. -/
def fromSide (side : Side) (answers : List (Side × Option α)) : List α :=
  answers.filterMap fun answer => if answer.1 = side then answer.2 else none

/-- Whatever the order in which it is asked, an iterator gives each item of a list once, those from the front in order and those from
the back in reverse, and it goes on until all have been given. -/
def Yields (iterator : DoubleEndedIterator σ α) (state : σ) (items : List α) : Prop :=
  ∀ sides : List Side, ∃ left : List α,
    items = fromSide .front (iterator.run sides state) ++ left ++ (fromSide .back (iterator.run sides state)).reverse ∧
      left.length = items.length - sides.length

/-- A state of an iterator stands for the items that are left: it gives the first of them and the last one. -/
structure Simulates (iterator : DoubleEndedIterator σ α) (holds : σ → List α → Prop) : Prop where
  done : ∀ state, holds state [] → iterator.next state = none ∧ iterator.nextBack state = none
  front : ∀ state item items, holds state (item :: items) → ∃ state', iterator.next state = some (item, state') ∧ holds state' items
  back : ∀ state items item, holds state (items ++ [item]) →
    ∃ state', iterator.nextBack state = some (item, state') ∧ holds state' items

/-- An iterator that always gives the first of the items that are left, or the last one, yields them. -/
theorem Simulates.yields {iterator : DoubleEndedIterator σ α} {holds : σ → List α → Prop} (h : Simulates iterator holds)
    {state : σ} {items : List α} (hsta : holds state items) : Yields iterator state items := by
  intro sides
  induction sides generalizing state items with
  | nil =>
    refine ⟨items, ?_, rfl⟩
    show items = [] ++ items ++ []
    rw [nil_append, append_nil]
  | cons side sides ih =>
    cases side with
    | front =>
      cases items with
      | nil =>
        obtain ⟨left, heq, hlen⟩ := ih hsta
        have hleft : left = [] := eq_nil_of_length_eq_zero (by rw [hlen]; exact Nat.zero_sub _)
        rw [DoubleEndedIterator.run, DoubleEndedIterator.ask, (h.done _ hsta).1]
        exact ⟨[], by rw [hleft] at heq; exact heq, (Nat.zero_sub _).symm⟩
      | cons item items =>
        obtain ⟨state', hnext, hsta'⟩ := h.front _ item _ hsta
        obtain ⟨left, heq, hlen⟩ := ih hsta'
        rw [DoubleEndedIterator.run, DoubleEndedIterator.ask, hnext]
        refine ⟨left, congrArg _ heq, ?_⟩
        rw [hlen, length_cons, length_cons, Nat.add_sub_add_right]
    | back =>
      rcases eq_nil_or_concat' items with rfl | ⟨items, item, rfl⟩
      · obtain ⟨left, heq, hlen⟩ := ih hsta
        have hleft : left = [] := eq_nil_of_length_eq_zero (by rw [hlen]; exact Nat.zero_sub _)
        rw [DoubleEndedIterator.run, DoubleEndedIterator.ask, (h.done _ hsta).2]
        exact ⟨[], by rw [hleft] at heq; exact heq, (Nat.zero_sub _).symm⟩
      · obtain ⟨state', hnext, hsta'⟩ := h.back _ _ item hsta
        obtain ⟨left, heq, hlen⟩ := ih hsta'
        rw [DoubleEndedIterator.run, DoubleEndedIterator.ask, hnext]
        refine ⟨left, ?_, ?_⟩
        · show items ++ [item] = fromSide _ (iterator.run _ _) ++ left ++ (item :: fromSide _ _).reverse
          rw [reverse_cons, ← append_assoc, ← heq]
        · have hone : (items ++ [item]).length = items.length + 1 := length_append
          rw [hlen, hone, length_cons, Nat.add_sub_add_right]

end Wu.DoubleEnded
