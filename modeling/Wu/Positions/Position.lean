import Mathlib.Order.Lattice
import Mathlib.Order.Nat

/-!
# Positions

What offsets and points have in common: a position counts from another one, and counting on from a position keeps the order.
Adding need not commute, since a column that counts from a row further on does not depend on where it counts from.
-/

namespace Wu

universe u

/-- A linear order with a first position, where each position counts from the ones before it. -/
class Position (T : Type u) [LinearOrder T] [Add T] [Sub T] where
  zero : T
  zero_le (a : T) : zero ≤ a
  zero_add (a : T) : zero + a = a
  add_zero (a : T) : a + zero = a
  add_assoc (a b c : T) : a + b + c = a + (b + c)
  add_le_add_left {a b c : T} : a + b ≤ a + c ↔ b ≤ c
  add_sub_of_le {a b : T} : a ≤ b → a + (b - a) = b
  add_sub_cancel (a b : T) : a + b - a = b

namespace Position

variable {T : Type u} [LinearOrder T] [Add T] [Sub T] [Position T] {a b c d x y : T}

theorem le_add (a b : T) : a ≤ a + b := by
  have h := (add_le_add_left (a := a)).2 (zero_le b)
  rwa [add_zero] at h

theorem add_lt_add_left : a + b < a + c ↔ b < c := by
  rw [← not_le, ← not_le, add_le_add_left]

theorem add_left_cancel (h : a + b = a + c) : b = c := by
  rw [← add_sub_cancel a b, h, add_sub_cancel]

@[simp] theorem sub_self (a : T) : a - a = zero :=
  add_left_cancel ((add_sub_of_le le_rfl).trans (add_zero a).symm)

@[simp] theorem sub_zero (a : T) : a - zero = a := by
  have h := add_sub_of_le (zero_le a)
  rwa [zero_add] at h

/-- What counts as much from the same position is the same. -/
theorem eq_of_sub_eq (hb : a ≤ b) (hc : a ≤ c) (h : b - a = c - a) : b = c := by
  rw [← add_sub_of_le hb, h, add_sub_of_le hc]

theorem sub_le_sub (hx : a ≤ x) (hxy : x ≤ y) : x - a ≤ y - a := by
  rw [← add_le_add_left, add_sub_of_le hx, add_sub_of_le (hx.trans hxy)]
  exact hxy

theorem sub_lt_sub (hx : a ≤ x) (hxy : x < y) : x - a < y - a := by
  rw [← add_lt_add_left, add_sub_of_le hx, add_sub_of_le (hx.trans hxy.le)]
  exact hxy

/-- Counting in two steps. -/
theorem sub_add_sub (hab : a ≤ b) (hbc : b ≤ c) : b - a + (c - b) = c - a := by
  apply add_left_cancel
  rw [← add_assoc, add_sub_of_le hab, add_sub_of_le hbc, add_sub_of_le (hab.trans hbc)]

theorem add_sub_add_sub (hab : a ≤ b) (hbc : b ≤ c) : x + (b - a) + (c - b) = x + (c - a) := by
  rw [add_assoc, sub_add_sub hab hbc]

/-- The position that counts as much from `y` as another one counts from `a`, counted in two steps. -/
theorem sub_eq_sub_trans (hab : a ≤ b) (hbc : b ≤ c) (hxy : x ≤ y) (hyd : y ≤ d) (h : b - a = y - x) (h' : c - b = d - y) :
    c - a = d - x := by
  rw [← sub_add_sub hab hbc, ← sub_add_sub hxy hyd, h, h']

/-- And the other way round: when both the whole and the first step count as much, the rest does. -/
theorem sub_eq_sub_rest (hab : a ≤ b) (hbc : b ≤ c) (hxy : x ≤ y) (hyd : y ≤ d) (h : b - a = y - x) (h' : c - a = d - x) :
    c - b = d - y := by
  apply add_left_cancel
  rw [sub_add_sub hab hbc, h', h, sub_add_sub hxy hyd]

/-- As much counts from a position exactly when it is before the other one. -/
theorem lt_iff_of_sub_eq (hab : a ≤ b) (hxy : x ≤ y) (h : b - a = y - x) : a < b ↔ x < y := by
  constructor
  · intro hlt
    refine lt_of_le_of_ne hxy fun heq => hlt.ne ?_
    rw [heq, sub_self] at h
    exact eq_of_sub_eq le_rfl hab (by rw [h, sub_self])
  · intro hlt
    refine lt_of_le_of_ne hab fun heq => hlt.ne ?_
    rw [heq, sub_self] at h
    exact eq_of_sub_eq le_rfl hxy (by rw [← h, sub_self])

end Position

end Wu
