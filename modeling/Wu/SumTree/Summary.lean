import Mathlib.Data.List.Basic
import Mathlib.Data.List.Induction

/-!
# Summaries and dimensions

`trait Summary`, `trait Item`, `trait KeyedItem` and `trait Dimension` of the `sum_tree` crate. The context the source
threads through (`cx`) is fixed for one tree, so it is part of the instance here.

The laws are stated apart from the operations, as the source states them nowhere: a summary is an associative sum that
starts from `zero` (a left identity only: the summary of a keyed item is its key, and adding the zero key on the right
forgets it), and a dimension measures a sum as it measures its two halves one after the other.
-/

namespace Wu

open List

universe u v w

/-- `trait Summary`: the sum of the items of a subtree. `addSummary a b` is `a` after `a.add_summary(&b)`. -/
class Summary (S : Type v) where
  zero : S
  addSummary : S → S → S

/-- `trait Item`: what a tree holds, with its summary. -/
class Item (T : Type u) (S : outParam (Type v)) where
  summary : T → S

/-- `trait Dimension`: a measure of a summary, along which a cursor seeks. -/
class Dimension (D : Type w) (S : Type v) where
  zero : D
  addSummary : D → S → D

/-- Every summary measures itself. -/
instance (S : Type v) [Summary S] : Dimension S S where
  zero := Summary.zero
  addSummary := Summary.addSummary

/-- `enum Bias`. -/
inductive Bias where
  | left
  | right
  deriving DecidableEq, Repr

/-- `trait SeekTarget`: how a target compares to a location of the cursor. -/
abbrev SeekTarget (D : Type w) := D → Ordering

/-- The loops of the source ask this of the end of a node or an item: the cursor moves past it when the target lies
beyond it, or at it with the bias to the right. -/
def SeekTarget.passes {D : Type w} (target : SeekTarget D) (bias : Bias) (d : D) : Bool :=
  target d == .gt || (target d == .eq && bias == .right)

/-- What the source relies on in a summary: an associative sum that starts from `zero`. -/
class LawfulSummary (S : Type v) [Summary S] : Prop where
  add_assoc : ∀ a b c : S, Summary.addSummary (Summary.addSummary a b) c = Summary.addSummary a (Summary.addSummary b c)
  zero_add : ∀ a : S, Summary.addSummary Summary.zero a = a

/-- What the source relies on in a dimension: a sum is measured as its halves, one after the other. -/
class LawfulDimension (D : Type w) (S : Type v) [Summary S] [Dimension D S] : Prop where
  add_add : ∀ (d : D) (a b : S), Dimension.addSummary d (Summary.addSummary a b) = Dimension.addSummary (Dimension.addSummary d a) b

instance (S : Type v) [Summary S] [LawfulSummary S] : LawfulDimension S S where
  add_add d a b := (LawfulSummary.add_assoc d a b).symm

/-! ## Sums of lists -/

section Sum

variable {S : Type v} [Summary S]

/-- `fn sum`: the sum of a list of summaries, from `zero`. -/
def sum (l : List S) : S := l.foldl Summary.addSummary Summary.zero

@[simp] theorem sum_nil : sum ([] : List S) = Summary.zero := rfl

theorem sum_concat (l : List S) (s : S) : sum (l ++ [s]) = Summary.addSummary (sum l) s := by
  simp [sum]

variable [LawfulSummary S]

/-- A summary added in front of a fold is added to where the fold starts. -/
theorem addSummary_foldl (l : List S) (a b : S) :
    Summary.addSummary a (l.foldl Summary.addSummary b) = l.foldl Summary.addSummary (Summary.addSummary a b) := by
  induction l generalizing b with
  | nil => rfl
  | cons s l ih => rw [foldl_cons, foldl_cons, ih, LawfulSummary.add_assoc]

/-- The sum of a nonempty list may start from its head: `zero` is a left identity. -/
theorem sum_cons_eq_foldl (s : S) (l : List S) : sum (s :: l) = l.foldl Summary.addSummary s := by
  simp [sum, LawfulSummary.zero_add]

@[simp] theorem sum_singleton (s : S) : sum [s] = s := by
  simp [sum, LawfulSummary.zero_add]

/-- The sum of two lists put together, when the second is not empty. -/
theorem sum_append (l : List S) {m : List S} (hm : m ≠ []) : sum (l ++ m) = Summary.addSummary (sum l) (sum m) := by
  cases m with
  | nil => exact absurd rfl hm
  | cons s m =>
    rw [sum_cons_eq_foldl, addSummary_foldl]
    simp [sum]

/-- Summing the sums of nonempty lists sums all of them. -/
theorem sum_flatten (ls : List (List S)) (h : ∀ l ∈ ls, l ≠ []) : sum ls.flatten = sum (ls.map sum) := by
  induction ls using reverseRecOn with
  | nil => rfl
  | append_singleton ls l ih =>
    have hl : l ≠ [] := h l (by simp)
    have ih' := ih (fun m hm => h m (by simp [hm]))
    rw [flatten_append, map_append, flatten_singleton, sum_append _ hl, ih', map_singleton, sum_concat]

end Sum

/-! ## Measures of lists -/

section Measure

variable {S : Type v} {D : Type w} [Dimension D S]

/-- A dimension after a list of summaries, one at a time. -/
def Dimension.over (d : D) (l : List S) : D := l.foldl Dimension.addSummary d

@[simp] theorem Dimension.over_nil (d : D) : Dimension.over (S := S) d [] = d := rfl

@[simp] theorem Dimension.over_cons (d : D) (s : S) (l : List S) :
    Dimension.over d (s :: l) = Dimension.over (Dimension.addSummary d s) l := rfl

@[simp] theorem Dimension.over_append (d : D) (l m : List S) : Dimension.over d (l ++ m) = Dimension.over (Dimension.over d l) m := by
  simp [Dimension.over]

variable [Summary S] [LawfulDimension D S]

theorem Dimension.addSummary_foldl (l : List S) (d : D) (s : S) :
    Dimension.addSummary d (l.foldl Summary.addSummary s) = Dimension.over (Dimension.addSummary d s) l := by
  induction l generalizing d s with
  | nil => rfl
  | cons t l ih => rw [foldl_cons, ih, LawfulDimension.add_add, Dimension.over_cons]

/-- Measuring the sum of a nonempty list is measuring its members in turn. -/
theorem Dimension.addSummary_sum [LawfulSummary S] (d : D) {l : List S} (hl : l ≠ []) :
    Dimension.addSummary d (sum l) = Dimension.over d l := by
  cases l with
  | nil => exact absurd rfl hl
  | cons s l => rw [sum_cons_eq_foldl, Dimension.addSummary_foldl, Dimension.over_cons]

end Measure

section Position

variable {T : Type u} {S : Type v} {D : Type w} [Item T S] [Dimension D S]

/-- The position after a list of items. -/
def positionAfter (D : Type w) [Dimension D S] (xs : List T) : D :=
  Dimension.over (Dimension.zero S) (xs.map Item.summary)

@[simp] theorem positionAfter_nil : positionAfter D ([] : List T) = Dimension.zero S := rfl

theorem positionAfter_concat (xs : List T) (x : T) :
    positionAfter D (xs ++ [x]) = Dimension.addSummary (positionAfter D xs) (Item.summary x) := by
  simp [positionAfter]

end Position

/-! ## A tree of integers -/

/-- `struct IntegersSummary`: the summary of the integers that the crate is tested with. -/
structure IntegersSummary where
  count : Nat
  sum : Nat
  containsEven : Bool
  max : Nat
  deriving DecidableEq, Repr

instance : Summary IntegersSummary where
  zero := ⟨0, 0, false, 0⟩
  addSummary a b := ⟨a.count + b.count, a.sum + b.sum, a.containsEven || b.containsEven, Nat.max a.max b.max⟩

instance : Item UInt8 IntegersSummary where
  summary n := ⟨1, n.toNat, n &&& 1 == 0, n.toNat⟩

instance : LawfulSummary IntegersSummary where
  add_assoc a b c := by simp [Summary.addSummary, Nat.add_assoc, Bool.or_assoc, Nat.max_assoc]
  zero_add a := by simp [Summary.addSummary, Summary.zero]

/-- `struct Count`: how many integers lie before a location. -/
abbrev Count := Nat

instance : Dimension Count IntegersSummary where
  zero := 0
  addSummary n s := n + s.count

instance : LawfulDimension Count IntegersSummary where
  add_add n a b := (Nat.add_assoc n a.count b.count).symm

end Wu
