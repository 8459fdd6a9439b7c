import Mathlib.Data.Nat.Bitwise
import Wu.PackedFields
import Wu.Rope.SliceSummary
import Wu.Word

/-!
# Selecting a bit

`chunk.rs`: `nth_set_bit` and the two lookups of a chunk that rest on it. The bits of a word are turned around, counted in fields of
2, 4, 8 and 16 bits, and the word is halved six times: `t` is the count of the half that holds the lower bits, and the bit that is
looked for lies in it unless more than `t` bits are still to be passed.
-/

namespace Wu

open List BitVec

open Bits Word

/-- `s -= (t.wrapping_sub(n) & 256) >> shift`. -/
def selectShift (shift t n s : Nat) : Option Nat := sub s ((wrappingSub t n &&& 256) >>> shift)

/-- `n -= t & (t.wrapping_sub(n) >> 8)`. -/
def selectRest (t n : Nat) : Option Nat := sub n (t &&& wrappingSub t n >>> 8)

/-- The selection in a half of so many bits, by the word that counts them. -/
def selectHalf (word mask width shift n s : Nat) : Option (Nat × Nat) := do
  let t := (← shiftRight word (← sub s width)) &&& mask
  let s ← selectShift shift t n s
  let n ← selectRest t n
  return (s, n)

/-- `nth_set_bit_u64`. -/
def nthSetBitU64 (v : BitVec 64) (n : Nat) : Option Nat := do
  let v := v.reverse.toNat
  let a ← sub v ((v >>> 1) &&& ((size - 1) / 3))
  let b ← add (a &&& ((size - 1) / 5)) ((a >>> 2) &&& ((size - 1) / 5))
  let c := (← add b (b >>> 4)) &&& ((size - 1) / 0x11)
  let d := (← add c (c >>> 8)) &&& ((size - 1) / 0x101)
  let t ← add (d >>> 32) (d >>> 48)
  let s ← selectShift 3 t n 64
  let n ← selectRest t n
  let (s, n) ← selectHalf d 0xff 16 4 n s
  let (s, n) ← selectHalf c 0xf 8 5 n s
  let (s, n) ← selectHalf b 0x7 4 6 n s
  let (s, n) ← selectHalf a 0x3 2 7 n s
  let t := (← shiftRight v (← sub s 1)) &&& 0x1
  let s ← selectShift 8 t n s
  sub (← sub 65 s) 1

/-- `nth_set_bit`. -/
def nthSetBit (v : BitVec 128) (n : Nat) : Option Nat := do
  let low := v.setWidth 64
  let high := (v >>> 64).setWidth 64
  let lowCount := countOnes low
  if n > lowCount then
    return 64 + (← nthSetBitU64 high (n - lowCount))
  else nthSetBitU64 low n

/-- `ChunkSlice::offset_utf16_to_offset`. -/
def ChunkSlice.offsetUtf16ToOffset (self : ChunkSlice) (target : Nat) : Option Nat :=
  if target = 0 then some 0
  else do
    let ix := (← nthSetBit self.charsUtf16 target) + 1
    if ix = maxBase then return maxBase
    else
      let utf8AdditionalLen := min (trailingZeros (self.charsUtf16 >>> ix)) (← sub self.text.len ix)
      return ix + utf8AdditionalLen

/-- `ChunkSlice::offset_range_for_row`. -/
def ChunkSlice.offsetRangeForRow (self : ChunkSlice) (row : Nat) : Option (Nat × Nat) := do
  let rowStart ← (if row > 0 then (nthSetBit self.newlines row).map (· + 1) else some 0)
  let rowLen ←
    (if rowStart = maxBase then some 0
    else (sub self.text.len rowStart).map (min (trailingZeros (self.newlines >>> rowStart))))
  return (rowStart, rowStart + rowLen)

/-! ## One step of the selection -/

section Select

variable {t n s g shift : Nat}

/-- What the count has above its lowest 8 bits does not matter: only whether the bit is in the half. -/
theorem wrappingSub_and (ht : t ≤ 64) (hn : n ≤ 64) (hg : g < 256) :
    wrappingSub (t + 2 ^ 16 * g) n &&& 256 = if t < n then 256 else 0 := by
  rw [show 256 = 2 ^ 8 by rfl, Nat.and_two_pow, Nat.testBit_eq_decide_div_mod_eq]
  unfold wrappingSub size
  split
  · rw [decide_eq_true (by omega)]
    rfl
  · rw [decide_eq_false (by omega)]
    rfl

theorem and_wrappingSub (ht : t ≤ 64) (hn : n ≤ 64) (hg : g < 256) :
    (t + 2 ^ 16 * g) &&& wrappingSub (t + 2 ^ 16 * g) n >>> 8 = if t < n then t else 0 := by
  have hlow : (t + 2 ^ 16 * g) % 2 ^ 8 = t := by omega
  have hhigh : (t + 2 ^ 16 * g) / 2 ^ 8 = 2 ^ 8 * g := by omega
  -- the byte above is zero in the count, and only that byte is left of the difference
  have hdisjoint (h : Nat) (hh : h < 256 ∨ g = 0) : 2 ^ 8 * g &&& h = 0 := by
    rcases hh with hh | rfl
    · rw [and_split, Nat.mul_mod_right, Nat.div_eq_of_lt (by omega : h < 2 ^ 8), Nat.zero_and, Nat.and_zero, Nat.mul_zero]
    · rw [Nat.mul_zero, Nat.zero_and]
  rw [and_split, hhigh, Nat.shiftRight_eq_div_pow, hdisjoint _ (by unfold wrappingSub size; omega), Nat.mul_zero]
  split
  · have hones : wrappingSub (t + 2 ^ 16 * g) n / 2 ^ 8 % 2 ^ 8 = 2 ^ 8 - 1 := by
      unfold wrappingSub size
      omega
    rw [hones, Nat.and_two_pow_sub_one_eq_mod]
    omega
  · have hzero : wrappingSub (t + 2 ^ 16 * g) n / 2 ^ 8 % 2 ^ 8 = 0 := by
      unfold wrappingSub size
      omega
    rw [hzero, Nat.and_zero]

theorem selectShift_eq {half : Nat} (hshi : 256 >>> shift = half) (ht : t ≤ 64) (hn : n ≤ 64) (hg : g < 256) (hs : half ≤ s) :
    selectShift shift (t + 2 ^ 16 * g) n s = some (if t < n then s - half else s) := by
  subst hshi
  rw [selectShift, wrappingSub_and ht hn hg]
  split
  · exact sub_of_le hs
  · rw [Nat.zero_shiftRight]
    exact sub_of_le (Nat.zero_le s)

theorem selectRest_eq (ht : t ≤ 64) (hn : n ≤ 64) (hg : g < 256) :
    selectRest (t + 2 ^ 16 * g) n = some (if t < n then n - t else n) := by
  rw [selectRest, and_wrappingSub ht hn hg]
  split
  · exact sub_of_le (by omega)
  · exact sub_of_le (Nat.zero_le n)

end Select

/-! ## Counting in fields -/

/-- How many of the first bits are set. -/
def passed {w : Nat} (v : BitVec w) (i : Nat) : Nat := ((toList v).take i).count true

/-- How many bits are set in a field of the word turned around. -/
def field (v : BitVec 64) (width q : Nat) : Nat := passed v (64 - width * q) - passed v (64 - width * (q + 1))

section Count

variable {w i j : Nat} {v : BitVec w}

theorem passed_succ (h : i < w) : passed v (i + 1) = passed v i + (v.getLsbD i).toNat := by
  have hget : (toList v)[i]? = some (v.getLsbD i) := by simp [toList, h]
  rw [passed, take_add_one, hget, count_append]
  cases v.getLsbD i <;> rfl

theorem passed_add (i j : Nat) : passed v i ≤ passed v (i + j) ∧ passed v (i + j) ≤ passed v i + j := by
  rw [passed, passed, take_add, count_append]
  have hle := (count_le_length (a := true) (l := ((toList v).drop i).take j)).trans (length_take_le _ _)
  omega

theorem passed_mono (h : i ≤ j) : passed v i ≤ passed v j := by
  obtain ⟨d, rfl⟩ := Nat.exists_eq_add_of_le h
  exact (passed_add i d).1

end Count

section Fields

variable {v : BitVec 64} {width q : Nat}

theorem field_le (v : BitVec 64) (width q : Nat) : field v width q ≤ width := by
  have := (passed_add (v := v) (64 - width * (q + 1)) width).2
  have := passed_mono (v := v) (show 64 - width * q ≤ 64 - width * (q + 1) + width by rw [Nat.mul_succ]; omega)
  unfold field
  omega

theorem field_eq_zero (h : 64 ≤ width * q) : field v width q = 0 := by
  rw [field, Nat.sub_eq_zero_of_le h]
  exact Nat.sub_eq_zero_of_le (passed_mono (Nat.zero_le _))

theorem field_two_mul : field v width (2 * q) + field v width (2 * q + 1) = field v (2 * width) q := by
  have h1 := passed_mono (v := v) (show 64 - width * (2 * q + 1) ≤ 64 - width * (2 * q) by rw [Nat.mul_succ]; omega)
  have h2 := passed_mono (v := v) (show 64 - width * (2 * q + 1 + 1) ≤ 64 - width * (2 * q + 1) by rw [Nat.mul_succ]; omega)
  rw [field, field, field, show 2 * width * q = width * (2 * q) by ring, show 2 * width * (q + 1) = width * (2 * q + 1 + 1) by ring]
  omega

theorem reverse_toNat (v : BitVec 64) : v.reverse.toNat = packed 1 64 (field v 1) := by
  rw [← packed_testBit v.reverse.isLt]
  refine packed_congr ?_
  intro q hq
  have hpass := passed_succ (v := v) (i := 63 - q) (by omega)
  rw [testBit_toNat, getLsbD_reverse, getMsbD_eq_getLsbD, decide_eq_true hq, Bool.true_and, field,
    show 64 - 1 * q = 63 - q + 1 by omega, show 64 - 1 * (q + 1) = 63 - q by omega, show 64 - 1 - q = 63 - q by omega]
  omega

/-- The count of a half, at the place of the half. -/
theorem field_eq {i : Nat} (h : i + width * (q + 1) = 64) : field v width q = passed v (i + width) - passed v i := by
  rw [Nat.mul_succ] at h
  rw [field, Nat.mul_succ, show 64 - width * q = i + width by omega, show 64 - (width * q + width) = i by omega]

/-- The word with its fields moved down by one. -/
theorem packed_field_next {m : Nat} (h : 64 = width * m) (hlt : width < 2 ^ width) :
    packed width m (field v width) / 2 ^ width = packed width m fun q => field v width (q + 1) :=
  packed_next ((field_le v _ 0).trans_lt hlt) (field_eq_zero (by omega))

/-- The even fields of a word of counts, and the odd ones from the word moved down by one. -/
theorem packed_field_evens {m : Nat} (hlt : width < 2 ^ width) :
    packed width (2 * m) (field v width) &&& packed (2 * width) m (fun _ => 2 ^ width - 1) =
      packed (2 * width) m fun q => field v width (2 * q) :=
  packed_and_evens fun q => (field_le v _ q).trans_lt hlt

theorem packed_field_odds (width m : Nat) (h : 64 = width * (2 * m)) (hlt : width < 2 ^ width) :
    packed width (2 * m) (field v width) / 2 ^ width &&& packed (2 * width) m (fun _ => 2 ^ width - 1) =
      packed (2 * width) m fun q => field v width (2 * q + 1) := by
  rw [packed_field_next h hlt, packed_and_evens fun q => (field_le v _ _).trans_lt hlt]

theorem counts_two :
    sub (packed 1 64 (field v 1)) (packed 1 64 (field v 1) >>> 1 &&& (size - 1) / 3) = some (packed 2 32 (field v 2)) := by
  have hmask : (size - 1) / 3 = packed (2 * 1) 32 fun _ => 2 ^ 1 - 1 := by decide +kernel
  have hodds := packed_field_odds (v := v) 1 32 rfl (by decide)
  have hall : packed 1 (2 * 32) (field v 1) =
      packed 2 32 (field v 2) + packed (2 * 1) 32 fun q => field v 1 (2 * q + 1) := by
    rw [packed_two_mul, packed_add]
    refine packed_congr ?_
    intro q hq
    have hpair : field v 1 (2 * q) + field v 1 (2 * q + 1) = field v 2 q := field_two_mul
    omega
  rw [Nat.shiftRight_eq_div_pow, hmask, hodds, hall, sub_of_le (by omega), Nat.add_sub_cancel]

theorem counts_four : add (packed 2 32 (field v 2) &&& (size - 1) / 5) (packed 2 32 (field v 2) >>> 2 &&& (size - 1) / 5) =
    some (packed 4 16 (field v 4)) := by
  have hmask : (size - 1) / 5 = packed (2 * 2) 16 fun _ => 2 ^ 2 - 1 := by decide +kernel
  have hlt : packed 4 16 (field v 4) < size := packed_lt fun q _ => (field_le v 4 q).trans_lt (by decide)
  have hsum : (packed (2 * 2) 16 fun q => field v 2 (2 * q)) + (packed (2 * 2) 16 fun q => field v 2 (2 * q + 1)) =
      packed 4 16 (field v 4) := by
    rw [packed_add]
    exact packed_congr fun q _ => field_two_mul
  rw [Nat.shiftRight_eq_div_pow, hmask, packed_field_odds 2 16 rfl (by decide), packed_field_evens (m := 16) (by decide),
    add_of_lt (by rw [hsum]; exact hlt), hsum]

/-- Wide fields have room for the sum of two neighbours, and are masked after the sum. -/
theorem counts_masked (width wide m k mask : Nat) (hk : k = 2 * m) (hwide : wide = 2 * width) (h : 64 = width * k) (hlt : wide < 2 ^ width)
    (hmask : mask = packed wide m fun _ => 2 ^ width - 1) :
    ∃ sum, add (packed width k (field v width)) (packed width k (field v width) >>> width) = some sum ∧
      sum &&& mask = packed wide m (field v wide) := by
  subst hk hwide hmask
  have hbou (q : Nat) : field v width q + field v width (q + 1) < 2 ^ width := by
    have := field_le v width q
    have := field_le v width (q + 1)
    omega
  have hsize : packed width (2 * m) (fun q => field v width q + field v width (q + 1)) < size := by
    rw [show size = 2 ^ (width * (2 * m)) by rw [← h]; rfl]
    exact packed_lt fun q _ => hbou q
  refine ⟨packed width (2 * m) fun q => field v width q + field v width (q + 1), ?_, ?_⟩
  · rw [Nat.shiftRight_eq_div_pow, packed_field_next h (by omega), add_of_lt (by rwa [packed_add]), packed_add]
  · rw [packed_and_evens hbou]
    exact packed_congr fun q _ => field_two_mul

end Fields

/-! ## Halving the word -/

/-- The bit that is looked for lies in so many bits from here on. -/
structure Within (v : BitVec 64) (n width i : Nat) : Prop where
  after : passed v i < n
  before : n ≤ passed v (i + width)

section Halving

variable {v : BitVec 64} {n width i q : Nat}

/-- The half that is left, by the count of the first half. -/
theorem Within.half (width : Nat) (h : Within v n (2 * width) i) (hpla : i + 2 * width * (q + 1) = 64) {t : Nat}
    (ht : t = passed v (i + width) - passed v i) :
    ∃ j p, j + width * (p + 1) = 64 ∧ Within v n width j ∧ (if t < n - passed v i then 64 - i - width else 64 - i) = 64 - j ∧
      (if t < n - passed v i then n - passed v i - t else n - passed v i) = n - passed v j := by
  obtain ⟨haft, hbef⟩ := h
  have hle := (passed_add (v := v) i width).1
  by_cases hlt : t < n - passed v i
  · refine ⟨i + width, 2 * q, ?_, ⟨by omega, by rwa [Nat.add_assoc, ← Nat.two_mul]⟩, by rw [if_pos hlt]; omega, by rw [if_pos hlt]; omega⟩
    rw [← hpla]
    ring
  · refine ⟨i, 2 * q + 1, ?_, ⟨haft, by omega⟩, by rw [if_neg hlt], by rw [if_neg hlt]⟩
    rw [← hpla]
    ring

/-- The place of a half in the word turned around, and its count. -/
theorem shiftRight_field (width m r : Nat) (hm : 64 = width * m) (hr : r ≤ width) (hlt : width < 2 ^ r)
    (hpla : i + width * (q + 1) = 64) :
    ∃ place, sub (64 - i) width = some place ∧ ∃ word, shiftRight (packed width m (field v width)) place = some word ∧
      word &&& (2 ^ r - 1) = passed v (i + width) - passed v i := by
  have hpos : 0 < width := by
    rcases Nat.eq_zero_or_pos width with rfl | hpos
    · omega
    · exact hpos
  have hwid : width < 2 ^ width := hlt.trans_le (Nat.pow_le_pow_right (by decide) hr)
  have hq : q < m := by
    by_contra hqm
    have := Nat.mul_le_mul_left width (show m + 1 ≤ q + 1 by omega)
    rw [Nat.mul_succ] at this
    omega
  rw [Nat.mul_succ] at hpla
  refine ⟨width * q, by rw [sub_of_le (by omega)]; congr 1; omega, _, shiftRight_of_lt (by omega), ?_⟩
  rw [packed_field hr (fun q => (field_le v _ q).trans_lt hwid) hq ((field_le v _ q).trans_lt hlt)]
  exact field_eq (by exact hpla)

theorem selectHalf_eq (width m r mask shift : Nat) (hmask : mask = 2 ^ r - 1) (hm : 64 = width * m) (hr : r ≤ width) (hlt : width < 2 ^ r)
    (hshi : 256 >>> shift = width) (h : Within v n (2 * width) i) (hpla : i + 2 * width * (q + 1) = 64) :
    ∃ j p, selectHalf (packed width m (field v width)) mask width shift (n - passed v i) (64 - i) = some (64 - j, n - passed v j) ∧
      j + width * (p + 1) = 64 ∧ Within v n width j := by
  subst hmask
  obtain ⟨place, hsub, word, hword, ht⟩ := shiftRight_field (i := i) (q := 2 * q + 1) _ m r hm hr hlt (by rw [← hpla]; ring)
  obtain ⟨j, p, hj, hwit, hs, hn⟩ := h.half _ hpla rfl
  have hle := (passed_add (v := v) i width).2
  have hle' := (passed_add (v := v) i (2 * width)).2
  have hwid : 2 * width ≤ 64 - i := by
    rw [Nat.mul_succ] at hpla
    omega
  have hbef := h.before
  obtain ⟨ht64, hn64, hs64⟩ : passed v (i + width) - passed v i ≤ 64 ∧ n - passed v i ≤ 64 ∧ width ≤ 64 - i := by
    omega
  have hsel := selectShift_eq (g := 0) hshi ht64 hn64 (by decide) hs64
  have hrest := selectRest_eq (g := 0) ht64 hn64 (by decide)
  rw [Nat.mul_zero, Nat.add_zero, hs] at hsel
  rw [Nat.mul_zero, Nat.add_zero, hn] at hrest
  refine ⟨j, p, ?_, hj, hwit⟩
  rw [selectHalf, hsub, Option.bind_eq_bind, Option.bind_some, hword, Option.bind_some]
  dsimp only
  rw [ht, hsel, hrest]
  rfl

/-- The first half: the words above the count add to it what does not matter. -/
theorem first_half (h : Within v n 64 0) : ∃ t, add (packed 16 4 (field v 16) >>> 32) (packed 16 4 (field v 16) >>> 48) = some t ∧
      ∃ j p, selectShift 3 t n 64 = some (64 - j) ∧ selectRest t n = some (n - passed v j) ∧ j + 32 * (p + 1) = 64 ∧
        Within v n 32 j := by
  have h2 := field_le v 16 2
  have h3 := field_le v 16 3
  have hlt (q : Nat) : field v 16 q < 2 ^ 16 := (field_le v 16 q).trans_lt (by decide)
  have hhigh : packed 16 4 (field v 16) / 2 ^ (16 * 2) = field v 16 2 + 2 ^ 16 * field v 16 3 := by
    rw [packed_div (m := 2) fun q _ => hlt q]
    simp [packed]
  have htop : packed 16 4 (field v 16) / 2 ^ (16 * 3) = field v 16 3 := by
    rw [packed_div (m := 1) fun q _ => hlt q]
    simp [packed]
  have hcnt : field v 16 2 + field v 16 3 = passed v (0 + 32) - passed v 0 := by
    rw [show field v 16 2 + field v 16 3 = field v (2 * 16) 1 by exact field_two_mul (q := 1)]
    exact field_eq rfl
  obtain ⟨j, p, hj, hwit, hs, hn⟩ := Within.half (q := 0) 32 h rfl hcnt
  have hzero : passed v 0 = 0 := rfl
  have hn64 := h.before.trans (passed_add 0 64).2
  rw [hzero, Nat.sub_zero] at hs hn
  refine ⟨field v 16 2 + field v 16 3 + 2 ^ 16 * field v 16 3, ?_, j, p, ?_, ?_, hj, hwit⟩
  · rw [add_of_lt (by unfold size; omega)]
    congr 1
    omega
  · rw [selectShift_eq (show 256 >>> 3 = 32 by rfl) (by omega) (by omega) (by omega) (by omega), hs]
  · rw [selectRest_eq (by omega) (by omega) (by omega), hn]

/-- The last half is the bit. -/
theorem last_half (h : Within v n 2 i) (hpla : i + 2 * (q + 1) = 64) :
    ∃ place, sub (64 - i) 1 = some place ∧ ∃ word, shiftRight (packed 1 64 (field v 1)) place = some word ∧
      ∃ j, selectShift 8 (word &&& 1) (n - passed v i) (64 - i) = some (64 - j) ∧ j < 64 ∧ Within v n 1 j := by
  obtain ⟨place, hsub, word, hword, ht⟩ := shiftRight_field (i := i) (q := 2 * q + 1) 1 64 1 rfl (by decide) (by decide) (by omega)
  obtain ⟨j, p, hj, hwit, hs, -⟩ := Within.half 1 h (by omega) rfl
  have hle := (passed_add (v := v) i 1).2
  have hle' := (passed_add (v := v) i 2).2
  have hbef := h.before
  have hsel := selectShift_eq (t := passed v (i + 1) - passed v i) (n := n - passed v i) (s := 64 - i) (g := 0)
    (show 256 >>> 8 = 1 by rfl) (by omega) (by omega) (by decide) (by omega)
  rw [hs] at hsel
  exact ⟨place, hsub, word, hword, j, by rw [← hsel, ← ht]; rfl, by omega, hwit⟩

theorem nthSetBitU64_eq (h : Within v n 64 0) : ∃ i, nthSetBitU64 v n = some i ∧ i < 64 ∧ Within v n 1 i := by
  obtain ⟨sumC, hsumC, hC⟩ := counts_masked 4 8 8 16 ((size - 1) / 0x11) rfl rfl rfl (by decide) (by decide +kernel)
  obtain ⟨sumD, hsumD, hD⟩ := counts_masked 8 16 4 8 ((size - 1) / 0x101) rfl rfl rfl (by decide) (by decide +kernel)
  obtain ⟨t, ht, i1, q1, hs1, hn1, hpla1, h1⟩ := first_half h
  obtain ⟨i2, q2, h16, hpla2, h2⟩ := selectHalf_eq 16 4 8 0xff 4 rfl rfl (by decide) (by decide) rfl h1 hpla1
  obtain ⟨i3, q3, h8, hpla3, h3⟩ := selectHalf_eq 8 8 4 0xf 5 rfl rfl (by decide) (by decide) rfl h2 hpla2
  obtain ⟨i4, q4, h4, hpla4, h4'⟩ := selectHalf_eq 4 16 3 0x7 6 rfl rfl (by decide) (by decide) rfl h3 hpla3
  obtain ⟨i5, q5, h2, hpla5, h5⟩ := selectHalf_eq 2 32 2 0x3 7 rfl rfl (by decide) (by decide) rfl h4' hpla4
  obtain ⟨place, hsub, word, hword, i, hs, hi, hlast⟩ := last_half h5 hpla5
  refine ⟨i, ?_, hi, hlast⟩
  rw [nthSetBitU64]
  simp only [Option.bind_eq_bind]
  rw [reverse_toNat, counts_two, Option.bind_some, counts_four, Option.bind_some, hsumC, Option.bind_some, hC, hsumD, Option.bind_some, hD,
    ht, Option.bind_some, hs1, Option.bind_some, hn1, Option.bind_some, h16, Option.bind_some, h8, Option.bind_some, h4, Option.bind_some,
    h2, Option.bind_some, hsub, Option.bind_some, hword, Option.bind_some, hs, Option.bind_some, sub_of_le (by omega), Option.bind_some,
    sub_of_le (by omega)]
  congr 1
  omega

/-- The bit with this number among the bits that are set, from the lowest on. -/
def IsNth {w : Nat} (v : BitVec w) (n i : Nat) : Prop := v.getLsbD i = true ∧ passed v i + 1 = n

theorem nthSetBitU64_isNth (hpos : 0 < n) (hle : n ≤ countOnes v) : ∃ i, nthSetBitU64 v n = some i ∧ IsNth v n i := by
  obtain ⟨i, heq, hi, haft, hbef⟩ := nthSetBitU64_eq ⟨hpos, by rwa [Nat.zero_add]⟩
  refine ⟨i, heq, ?_⟩
  rw [passed_succ hi] at hbef
  unfold IsNth
  cases hbit : v.getLsbD i <;> simp [hbit] at hbef ⊢ <;> omega

end Halving

/-! ## Both halves of a bitmap -/

section Bitmaps

variable {v : BitVec 128} {n i : Nat}

theorem toList_halves (v : BitVec 128) : toList v = toList (v.setWidth 64) ++ toList ((v >>> 64).setWidth 64) := by
  have hran : List.range 128 = List.range 64 ++ (List.range 64).map (64 + ·) := range_add (m := 64)
  rw [toList, hran, map_append, map_map]
  congr 1 <;> refine map_congr_left ?_ <;> intro i hi <;> rw [mem_range] at hi <;> simp [hi]

theorem nthSetBit_isNth (hpos : 0 < n) (hle : n ≤ countOnes v) : ∃ i, nthSetBit v n = some i ∧ IsNth v n i := by
  have hlow : (toList (v.setWidth 64)).length = 64 := by simp [toList]
  have hcnt : countOnes v = countOnes (v.setWidth 64) + countOnes ((v >>> 64).setWidth 64) := by
    rw [countOnes, toList_halves, count_append]
    rfl
  unfold nthSetBit
  dsimp only
  split
  · obtain ⟨i, heq, hbit, hpass⟩ := nthSetBitU64_isNth (v := (v >>> 64).setWidth 64)
      (n := n - countOnes (v.setWidth 64)) (by omega) (by omega)
    have hi : i < 64 := by simpa using lt_of_getLsbD hbit
    refine ⟨64 + i, by rw [heq]; rfl, by simpa [hi] using hbit, ?_⟩
    have hspl : passed v (64 + i) = countOnes (v.setWidth 64) + passed ((v >>> 64).setWidth 64) i := by
      rw [passed, toList_halves, take_append, hlow, Nat.add_sub_cancel_left, take_of_length_le (by omega), count_append]
      rfl
    omega
  · obtain ⟨i, heq, hbit, hpass⟩ := nthSetBitU64_isNth (v := v.setWidth 64) hpos (by omega)
    have hi : i < 64 := lt_of_getLsbD hbit
    refine ⟨i, heq, by simpa [hi] using hbit, ?_⟩
    rw [passed, toList_halves, take_append_of_le_length (by omega)]
    exact hpass

/-- A bit that is set in the bitmap of a text belongs to a byte of it. -/
theorem Marking.lt_len {mark : Char → List Bool} (h : Marking mark) {text : Str} (hbit : (marks mark text).getLsbD i = true) :
    i < text.len := by
  rw [marks, getLsbD_ofList, Bool.and_eq_true] at hbit
  by_contra hi
  rw [getD_eq_default _ _ (by rw [h.length]; omega)] at hbit
  exact absurd hbit.2 (by decide)

end Bitmaps

section Lookups

variable {text : Str}

/-- A UTF-16 offset of the chunk is found at a place in the chunk. -/
theorem offsetUtf16ToOffset_le {target : OffsetUtf16} (h : target.val ≤ (ChunkSlice.of text).lenUtf16.val) :
    ∃ offset, (ChunkSlice.of text).offsetUtf16ToOffset target.val = some offset ∧ offset ≤ text.len := by
  unfold ChunkSlice.offsetUtf16ToOffset
  split
  · exact ⟨0, rfl, Nat.zero_le _⟩
  · obtain ⟨i, heq, hbit, -⟩ := nthSetBit_isNth (by omega) h
    have hi : i < text.len := marking_utf16Marks.lt_len hbit
    have htext : (ChunkSlice.of text).text = text := rfl
    rw [heq, htext]
    simp only [Option.bind_eq_bind, Option.bind_some, Option.pure_def]
    split
    · exact ⟨_, rfl, by omega⟩
    · rw [sub_of_le hi]
      exact ⟨_, rfl, by omega⟩

/-- The row of a chunk is a range of the chunk. -/
theorem offsetRangeForRow_le {row : Nat} (h : row ≤ (ChunkSlice.of text).lines.row) :
    ∃ start «end», (ChunkSlice.of text).offsetRangeForRow row = some (start, «end») ∧ start ≤ «end» ∧ «end» ≤ text.len := by
  obtain ⟨start, hst, hle⟩ : ∃ start, (if row > 0 then (nthSetBit (ChunkSlice.of text).newlines row).map (· + 1) else some 0) =
      some start ∧ start ≤ text.len := by
    split
    · obtain ⟨i, heq, hbit, -⟩ := nthSetBit_isNth (by omega) h
      exact ⟨i + 1, by rw [heq]; rfl, (marking_byteMarks '\n').lt_len hbit⟩
    · exact ⟨0, rfl, Nat.zero_le _⟩
  have htext : (ChunkSlice.of text).text = text := rfl
  rw [ChunkSlice.offsetRangeForRow, hst, htext, Option.bind_eq_bind, Option.bind_some, sub_of_le hle]
  split
  · exact ⟨_, _, rfl, le_rfl, hle⟩
  · exact ⟨_, _, rfl, by omega, by omega⟩

end Lookups

/-- The bit that is selected is the one with this number, and what rests on it stays in the chunk. -/
theorem nthSetBit_select :
    (∀ (v : BitVec 128) (n : Nat), 0 < n → n ≤ countOnes v → ∃ i, nthSetBit v n = some i ∧ IsNth v n i) ∧
    ∀ text : Str,
      (∀ target : OffsetUtf16, target.val ≤ (ChunkSlice.of text).lenUtf16.val →
        ∃ offset, (ChunkSlice.of text).offsetUtf16ToOffset target.val = some offset ∧ offset ≤ text.len) ∧
      ∀ row ≤ (ChunkSlice.of text).lines.row,
        ∃ start «end», (ChunkSlice.of text).offsetRangeForRow row = some (start, «end») ∧ start ≤ «end» ∧ «end» ≤ text.len :=
  ⟨fun _ _ => nthSetBit_isNth, fun _ => ⟨fun _ => offsetUtf16ToOffset_le, fun _ => offsetRangeForRow_le⟩⟩

/-- The third bit of a bitmap with bits in both halves, an offset of a chunk and its last row. -/
theorem nthSetBit_third :
    let v : BitVec 128 := ofList 128 (true :: true :: replicate 98 false ++ [true])
    let text : Str := ['a', '\n', 'b']
    (∃ i, nthSetBit v 3 = some i ∧ IsNth v 3 i) ∧
      (∃ offset, (ChunkSlice.of text).offsetUtf16ToOffset (OffsetUtf16.mk 2).val = some offset ∧ offset ≤ text.len) ∧
      ∃ start «end», (ChunkSlice.of text).offsetRangeForRow 1 = some (start, «end») ∧ start ≤ «end» ∧ «end» ≤ text.len := by
  intro v text
  obtain ⟨hselect, hchunk⟩ := nthSetBit_select
  refine ⟨hselect v 3 (by decide) ?_, (hchunk text).1 ⟨2⟩ ?_, (hchunk text).2 1 ?_⟩
  · rw [countOnes_ofList (by decide)]
    decide
  · rw [ChunkSlice.lenUtf16_of (by decide)]
    decide
  · rw [ChunkSlice.lines_of (by decide)]
    decide

end Wu
