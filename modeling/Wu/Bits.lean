import Mathlib.Data.List.GetD
import Mathlib.Algebra.Ring.Nat

/-!
# Words as lists of bits

A word over `w` bits is the list of its bits, the lowest first: `ofList w l` is the word whose low bits are `l`. Shifts,
masks and the counts a processor has for a word (`countOnes`, `trailingZeros`, `leadingZeros`) become operations on the
list: `take`, `drop`, `++`, `count` and `idxOf`.
-/

namespace Wu.Bits

open List

variable {w : Nat}

/-- The word whose low bits are `l`, the lowest first. -/
def ofList (w : Nat) (l : List Bool) : BitVec w := (BitVec.ofBoolListLE l).setWidth w

/-- The bits of a word, the lowest first. -/
def toList (x : BitVec w) : List Bool := (List.range w).map x.getLsbD

/-- `count_ones`. -/
def countOnes (x : BitVec w) : Nat := (toList x).count true

/-- `trailing_zeros`: all of them when no bit is set. -/
def trailingZeros (x : BitVec w) : Nat := (toList x).idxOf true

/-- `leading_zeros`: all of them when no bit is set. -/
def leadingZeros (x : BitVec w) : Nat := (toList x).reverse.idxOf true

/-- The `n` lowest bits, or all of them: `1.unbounded_shl(n).wrapping_sub(1)`. -/
def shlMask (w n : Nat) : BitVec w := 1#w <<< n - 1#w

/-- The `n` highest bits, or all of them: `!MAX.unbounded_shr(n)`. -/
def shrMask (w n : Nat) : BitVec w := ~~~(BitVec.allOnes w >>> n)

/-! ## The bits of a list -/

@[simp] theorem getLsbD_ofList (l : List Bool) (i : Nat) : (ofList w l).getLsbD i = (decide (i < w) && l.getD i false) := by
  simp [ofList]

variable {x : BitVec w} {l : List Bool}

/-- Words are equal when their bits below the width are. -/
theorem eq_of_getLsbD {y : BitVec w} (h : ∀ i < w, x.getLsbD i = y.getLsbD i) : x = y :=
  BitVec.eq_of_getLsbD_eq h

@[simp] theorem ofList_nil : ofList w [] = 0#w := by
  refine eq_of_getLsbD ?_
  simp

theorem toList_ofList (h : l.length ≤ w) : toList (ofList w l) = l ++ replicate (w - l.length) false := by
  refine ext_getElem (by simp [toList]; omega) ?_
  intro i hi hi'
  have hiw : i < w := by simpa [toList] using hi
  have hbit : (toList (ofList w l))[i] = l.getD i false := by
    simp only [toList, getElem_map, getElem_range, getLsbD_ofList, hiw, decide_true, Bool.true_and]
  rw [hbit]
  by_cases hil : i < l.length
  · rw [getElem_append_left hil, getD_eq_getElem]
  · rw [getElem_append_right (by omega), getElem_replicate, getD_eq_default _ _ (by omega)]

theorem countOnes_ofList (h : l.length ≤ w) : countOnes (ofList w l) = l.count true := by
  rw [countOnes, toList_ofList h, count_append, count_replicate]
  simp

theorem trailingZeros_ofList (h : l.length ≤ w) : trailingZeros (ofList w l) = if true ∈ l then l.idxOf true else w := by
  rw [trailingZeros, toList_ofList h, idxOf_append]
  split
  · rfl
  · rw [idxOf_eq_length (by simp), length_replicate]
    omega

/-- The highest bit that is set is the last of the list. -/
theorem leadingZeros_ofList (h : l.length ≤ w) : leadingZeros (ofList w l) = w - l.length + l.reverse.idxOf true := by
  rw [leadingZeros, toList_ofList h, reverse_append, reverse_replicate, idxOf_append, if_neg (by simp), length_replicate]
  omega

theorem ofList_eq_zero (h : l.length ≤ w) : ofList w l = 0#w ↔ true ∉ l := by
  constructor
  · intro h0 hmem
    obtain ⟨i, hi, hget⟩ := mem_iff_getElem.mp hmem
    have hbit : (ofList w l).getLsbD i = true := by
      rw [getLsbD_ofList, decide_eq_true (by omega), getD_eq_getElem _ _ hi, hget]
      rfl
    rw [h0] at hbit
    simp at hbit
  · intro hmem
    refine eq_of_getLsbD ?_
    intro i hi
    rw [getLsbD_ofList, BitVec.getLsbD_zero]
    by_cases hil : i < l.length
    · rw [getD_eq_getElem, Bool.and_eq_false_iff]
      right
      by_contra hget
      exact hmem (mem_iff_getElem.mpr ⟨i, hil, by simpa using hget⟩)
    · rw [getD_eq_default _ _ (by omega), Bool.and_false]

@[simp] theorem trailingZeros_zero : trailingZeros 0#w = w := by
  simpa using trailingZeros_ofList (l := []) (Nat.zero_le w)

@[simp] theorem leadingZeros_zero : leadingZeros 0#w = w := by
  simpa using leadingZeros_ofList (l := []) (Nat.zero_le w)

theorem countOnes_eq_zero : countOnes x = 0 ↔ x = 0#w := by
  constructor
  · intro h
    have hmem : true ∉ toList x := count_eq_zero.mp h
    simp only [toList, mem_map, mem_range, not_exists, not_and] at hmem
    refine eq_of_getLsbD ?_
    intro i hi
    simpa using hmem i hi
  · rintro rfl
    simpa using countOnes_ofList (l := []) (Nat.zero_le w)

/-! ## Shifts and masks -/

/-- Two words side by side. -/
theorem ofList_or_shiftLeft (l m : List Bool) : ofList w l ||| ofList w m <<< l.length = ofList w (l ++ m) := by
  refine eq_of_getLsbD ?_
  intro i hi
  simp only [BitVec.getLsbD_or, BitVec.getLsbD_shiftLeft, getLsbD_ofList, decide_eq_true hi, Bool.true_and]
  by_cases hil : i < l.length
  · rw [getD_append _ _ _ _ hil]
    simp [hil]
  · rw [getD_append_right _ _ _ _ (by omega)]
    simp [hil, show i - l.length < w by omega]

theorem ofList_shiftRight (h : l.length ≤ w) (n : Nat) : ofList w l >>> n = ofList w (l.drop n) := by
  refine eq_of_getLsbD ?_
  intro i hi
  simp only [BitVec.getLsbD_ushiftRight, getLsbD_ofList, decide_eq_true hi, Bool.true_and, getD_eq_getElem?_getD, List.getElem?_drop]
  by_cases hin : n + i < w
  · rw [decide_eq_true hin, Bool.true_and]
  · rw [List.getElem?_eq_none (by omega)]
    simp

theorem getLsbD_shlMask (n i : Nat) : (shlMask w n).getLsbD i = (decide (i < w) && decide (i < n)) := by
  have hval : (shlMask w n).toNat = 2 ^ min n w - 1 := by
    rw [shlMask, BitVec.toNat_sub, BitVec.toNat_shiftLeft]
    rcases Nat.eq_zero_or_pos w with rfl | hw
    · simp [Nat.mod_one]
    have h1 : 1 < 2 ^ w := Nat.one_lt_two_pow (by omega)
    rw [BitVec.toNat_ofNat, Nat.mod_eq_of_lt h1, Nat.one_shiftLeft]
    rcases Nat.lt_or_ge n w with hn | hn
    · have hlt : 2 ^ n < 2 ^ w := Nat.pow_lt_pow_right (by decide) hn
      have hpos' := Nat.two_pow_pos n
      rw [Nat.mod_eq_of_lt hlt, Nat.min_eq_left (by omega), show 2 ^ w - 1 + 2 ^ n = 2 ^ n - 1 + 2 ^ w by omega,
        Nat.add_mod_right, Nat.mod_eq_of_lt (by omega)]
    · rw [Nat.mod_eq_zero_of_dvd (Nat.pow_dvd_pow 2 hn), Nat.add_zero, Nat.mod_eq_of_lt (by omega), Nat.min_eq_right hn]
  rw [← BitVec.testBit_toNat, hval, Nat.testBit_two_pow_sub_one, Bool.eq_iff_iff]
  simp
  omega

theorem ofList_and_shlMask (l : List Bool) (n : Nat) : ofList w l &&& shlMask w n = ofList w (l.take n) := by
  refine eq_of_getLsbD ?_
  intro i hi
  simp only [BitVec.getLsbD_and, getLsbD_ofList, getLsbD_shlMask, decide_eq_true hi, Bool.true_and,
    getD_eq_getElem?_getD, List.getElem?_take]
  by_cases hin : i < n <;> simp [hin]

theorem getLsbD_shrMask (n i : Nat) : (shrMask w n).getLsbD i = (decide (i < w) && decide (w ≤ n + i)) := by
  rw [shrMask, Bool.eq_iff_iff]
  simp

@[simp] theorem and_shlMask_width (x : BitVec w) : x &&& shlMask w w = x := by
  refine eq_of_getLsbD ?_
  intro i hi
  simp [getLsbD_shlMask, hi]

@[simp] theorem and_shrMask_width (x : BitVec w) : x &&& shrMask w w = x := by
  refine eq_of_getLsbD ?_
  intro i hi
  simp [getLsbD_shrMask, hi]

/-- Masking off all but the `n` highest bits leaves the bits from `w - n` on. -/
theorem countOnes_and_shrMask (h : l.length ≤ w) (n : Nat) :
    countOnes (ofList w l &&& shrMask w n) = (l.drop (w - n)).count true := by
  have heq : ofList w l &&& shrMask w n = ofList w (replicate (w - n) false ++ l.drop (w - n)) := by
    refine eq_of_getLsbD ?_
    intro i hi
    simp only [BitVec.getLsbD_and, getLsbD_ofList, getLsbD_shrMask, decide_eq_true hi, Bool.true_and]
    by_cases hin : i < w - n
    · rw [getD_append _ _ _ _ (by simpa using hin)]
      simp [show ¬w ≤ n + i by omega]
    · rw [getD_append_right _ _ _ _ (by simpa using hin), length_replicate, getD_eq_getElem?_getD,
        getD_eq_getElem?_getD, List.getElem?_drop, show w - n + (i - (w - n)) = i by omega]
      simp [show w ≤ n + i by omega]
  rw [heq, countOnes_ofList (by simp; omega), count_append, count_replicate]
  simp

end Wu.Bits
