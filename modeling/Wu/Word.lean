import Mathlib.Algebra.Ring.Nat

/-!
# Words

Numbers of 64 bits, `usize` and `u64`: an operation is `none` where it does not fit a word.
-/

namespace Wu.Word

/-- The number of words. -/
def size : Nat := 2 ^ 64

/-- `+`. -/
def add (a b : Nat) : Option Nat := if a + b < size then some (a + b) else none

/-- `-`. -/
def sub (a b : Nat) : Option Nat := if b ≤ a then some (a - b) else none

/-- `>>`. -/
def shiftRight (a n : Nat) : Option Nat := if n < 64 then some (a >>> n) else none

/-- `wrapping_sub`. -/
def wrappingSub (a b : Nat) : Nat := (a + size - b) % size

variable {a b n : Nat}

theorem add_of_lt (h : a + b < size) : add a b = some (a + b) := if_pos h

theorem add_of_le (h : size ≤ a + b) : add a b = none := if_neg (by omega)

theorem sub_of_le (h : b ≤ a) : sub a b = some (a - b) := if_pos h

theorem shiftRight_of_lt (h : n < 64) : shiftRight a n = some (a / 2 ^ n) := by
  rw [shiftRight, if_pos h, Nat.shiftRight_eq_div_pow]

end Wu.Word
