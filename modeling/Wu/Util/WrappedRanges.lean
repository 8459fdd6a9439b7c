import Wu.Word
import Mathlib.Algebra.Order.Ring.Int
import Mathlib.Data.List.Nodup

/-!
# Wrapped index windows

`util.rs`: a window around a range of indices, or around one index, on a circle of `wrapLength` indices. A sum of the source is
checked: `none` where it does not fit a word.

An index of the circle is covered when it is congruent to an integer of the window. The first function covers each index once
unless the window meets itself behind the range that it was made from; the second one goes through the offsets of the window in
the order of their distance, and stops after the first `wrapLength` of them.
-/

namespace Wu.WrappedRanges

open List Int Word

/-- `expanded_and_wrapped_usize_range`: what its iterator yields. -/
def expandedAndWrappedUsizeRange (start «end» additionalBefore additionalAfter wrapLength : Nat) : Option (List Nat) := do
  let expandedEnd ← Word.add «end» additionalAfter
  let startWraps := decide (start < additionalBefore)
  let endWraps := decide (wrapLength < expandedEnd)
  if startWraps && endWraps then
    return List.range wrapLength
  else if startWraps then
    let wrappedStart := (← Word.add start wrapLength) - additionalBefore
    if wrappedStart ≤ «end» then
      return List.range wrapLength
    else
      return List.range expandedEnd ++ range' wrappedStart (wrapLength - wrappedStart)
  else if endWraps then
    let wrappedEnd := expandedEnd - wrapLength
    if start ≤ wrappedEnd then
      return List.range wrapLength
    else
      let expandedStart ← Word.sub start additionalBefore
      return List.range wrappedEnd ++ range' expandedStart (wrapLength - expandedStart)
  else
    let expandedStart ← Word.sub start additionalBefore
    return range' expandedStart (expandedEnd - expandedStart)

/-- What the closure of `wrapped_usize_outward_from` captures; each counter goes up by at most one a call. -/
structure Outward where
  count : Nat
  afterOffset : Nat
  beforeOffset : Nat
deriving DecidableEq

section Closure

variable (start additionalBefore additionalAfter wrapLength : Nat)

/-- The branches that go `after_offset` indices on. -/
def Outward.nextAfter (self : Outward) : Option (Option Nat × Outward) := do
  let value := (← Word.add start self.afterOffset) % wrapLength
  return (some value, { self with afterOffset := self.afterOffset + 1 })

/-- The branch that goes `before_offset` indices back. -/
def Outward.nextBefore (self : Outward) : Option (Option Nat × Outward) := do
  let value := (← Word.sub (← Word.add start wrapLength) self.beforeOffset) % wrapLength
  return (some value, { self with beforeOffset := self.beforeOffset + 1 })

/-- The closure: the outer `none` is an overflow, the inner one the end of the iterator. -/
def Outward.next (self : Outward) : Option (Option Nat × Outward) :=
  let self := { self with count := self.count + 1 }
  if self.count > wrapLength then some (none, self)
  else if self.count = 1 then some (some (start % wrapLength), self)
  else if self.afterOffset ≤ additionalAfter ∧ self.afterOffset ≤ self.beforeOffset then self.nextAfter start wrapLength
  else if self.beforeOffset ≤ additionalBefore then self.nextBefore start wrapLength
  else if self.afterOffset ≤ additionalAfter then self.nextAfter start wrapLength
  else some (none, self)

/-- The values before the first `None`, in at most so many calls. -/
def Outward.collect : Nat → Outward → Option (List Nat)
  | 0, _ => none
  | calls + 1, self => do
    match ← self.next start additionalBefore additionalAfter wrapLength with
    | (none, _) => return []
    | (some value, self) => return value :: (← self.collect calls)

/-- `wrapped_usize_outward_from`: what its iterator yields; the call after the last value is the last one. -/
def wrappedUsizeOutwardFrom : Option (List Nat) :=
  Outward.collect start additionalBefore additionalAfter wrapLength (wrapLength + 1) ⟨0, 1, 1⟩

end Closure

/-! ## Covering a window -/

/-- The index is congruent to an integer of the window. -/
def Covered (lo hi : Int) (n i : Nat) : Prop := i < n ∧ ∃ z : Int, lo ≤ z ∧ z < hi ∧ z % n = i

/-- The indices that are congruent to an integer of the window, each of them once. -/
def CoversOnce (lo hi : Int) (n : Nat) (indices : List Nat) : Prop :=
  indices.Nodup ∧ ∀ i, i ∈ indices ↔ Covered lo hi n i

variable {lo hi : Int} {n i : Nat}

/-- A window that goes around the circle covers all of it. -/
theorem covered_of_le (h : (n : Int) ≤ hi - lo) (hn : i < n) : Covered lo hi n i := by
  have hnn := emod_nonneg (i - lo) (show (n : Int) ≠ 0 by omega)
  have hlt := emod_lt_of_pos (i - lo) (show (0 : Int) < n by omega)
  refine ⟨hn, lo + (i - lo) % n, by omega, by omega, ?_⟩
  rw [add_emod_emod, show lo + (i - lo) = i by omega]
  exact emod_eq_of_lt (by omega) (by omega)

/-- Turning the window once around the circle changes nothing. -/
theorem covered_sub : Covered (lo - n) (hi - n) n i ↔ Covered lo hi n i := by
  constructor
  · rintro ⟨hn, z, hlo, hhi, hz⟩
    exact ⟨hn, z + n, by omega, by omega, by rw [add_emod_right, hz]⟩
  · rintro ⟨hn, z, hlo, hhi, hz⟩
    exact ⟨hn, z - n, by omega, by omega, by rw [sub_emod_right, hz]⟩

theorem coversOnce_sub {indices : List Nat} : CoversOnce (lo - n) (hi - n) n indices ↔ CoversOnce lo hi n indices := by
  simp only [CoversOnce, covered_sub]

/-- A window that begins before the first index, less than once around the circle, and ends on the circle. -/
theorem covered_iff (hlo : -(n : Int) ≤ lo) (hpos : 0 ≤ hi) (hhi : hi ≤ n) :
    Covered lo hi n i ↔ i < n ∧ (lo ≤ i ∧ i < hi ∨ lo + n ≤ i) := by
  constructor
  · rintro ⟨hn, z, hzlo, hzhi, hz⟩
    refine ⟨hn, ?_⟩
    rcases lt_or_ge z 0 with hneg | hpos
    · rw [← add_emod_right, emod_eq_of_lt (by omega) (by omega)] at hz
      exact .inr (by omega)
    · rw [emod_eq_of_lt hpos (by omega)] at hz
      exact .inl (by omega)
  · rintro ⟨hn, hin | hbef⟩
    · exact ⟨hn, i, hin.1, hin.2, emod_eq_of_lt (by omega) (by omega)⟩
    · refine ⟨hn, i - n, by omega, by omega, ?_⟩
      rw [sub_emod_right]
      exact emod_eq_of_lt (by omega) (by omega)

theorem coversOnce_range (h : (n : Int) ≤ hi - lo) : CoversOnce lo hi n (List.range n) := by
  refine ⟨nodup_range, ?_⟩
  intro i
  rw [mem_range]
  exact ⟨covered_of_le h, And.left⟩

/-- Two parts of the circle, from its first index and up to its last one, cover the window that goes from the one to the other; an index
is covered twice where they meet. -/
theorem coversOnce_append_iff {a b : Nat} (ha : a ≤ n) (hb : b ≤ n) (hlo : lo = b - n) (hhi : hi = a) :
    CoversOnce lo hi n (List.range a ++ range' b (n - b)) ↔ a ≤ b := by
  constructor
  · rintro ⟨hnod, -⟩
    by_contra hba
    rw [nodup_append] at hnod
    exact hnod.2.2 b (by simp; omega) b (by simp [mem_range']; omega) rfl
  · intro hab
    refine ⟨?_, ?_⟩
    · rw [nodup_append]
      refine ⟨nodup_range, nodup_range', ?_⟩
      intro x hx y hy
      simp only [mem_range, mem_range'_1] at hx hy
      omega
    · intro i
      rw [mem_append, mem_range, mem_range'_1, covered_iff (by omega) (by omega) (by omega)]
      omega

/-- No sum overflows; and the window does not meet itself, or meets the range that it was made from. -/
def ExpandsOnce (start «end» additionalBefore additionalAfter wrapLength : Nat) : Prop :=
  «end» + additionalAfter < Word.size ∧
    (start < additionalBefore → «end» + additionalAfter ≤ wrapLength → start + wrapLength < Word.size ∧
      (start + wrapLength ≤ «end» + additionalBefore ∨ «end» + additionalAfter + additionalBefore ≤ start + wrapLength)) ∧
    (additionalBefore ≤ start → wrapLength < «end» + additionalAfter →
      start + wrapLength ≤ «end» + additionalAfter ∨ «end» + additionalAfter + additionalBefore ≤ start + wrapLength)

theorem expandedAndWrappedUsizeRange_coversOnce_iff {start «end» before after n : Nat} (hran : start ≤ «end») (hend : «end» ≤ n) :
    (∃ indices, expandedAndWrappedUsizeRange start «end» before after n = some indices ∧
      CoversOnce (start - before) («end» + after) n indices) ↔ ExpandsOnce start «end» before after n := by
  unfold ExpandsOnce expandedAndWrappedUsizeRange
  rcases Nat.lt_or_ge _ _ with hsum | hsum
  swap
  · rw [add_of_le hsum]
    exact iff_of_false (by simp) (by omega)
  rw [add_of_lt hsum]
  simp only [Option.bind_eq_bind, Option.bind_some, Option.pure_def, Bool.and_eq_true, decide_eq_true_eq]
  by_cases hst : start < before <;> by_cases hwrap : n < «end» + after
  · rw [if_pos ⟨hst, hwrap⟩]
    exact iff_of_true ⟨_, rfl, coversOnce_range (by omega)⟩ ⟨hsum, by omega, by omega⟩
  · rw [if_neg (by omega), if_pos hst]
    rcases Nat.lt_or_ge _ _ with hfits | hfits
    swap
    · rw [add_of_le hfits]
      exact iff_of_false (by simp) (by omega)
    rw [add_of_lt hfits, Option.bind_some]
    split
    · exact iff_of_true ⟨_, rfl, coversOnce_range (by omega)⟩ ⟨hsum, by omega, by omega⟩
    · simp only [Option.some.injEq, exists_eq_left']
      rw [coversOnce_append_iff (by omega) (by omega) (by omega) (by omega)]
      omega
  · rw [if_neg (by omega), if_neg hst, if_pos hwrap]
    split
    · exact iff_of_true ⟨_, rfl, coversOnce_range (by omega)⟩ ⟨hsum, by omega, by omega⟩
    · rw [sub_of_le (by omega), Option.bind_some]
      simp only [Option.some.injEq, exists_eq_left']
      rw [← coversOnce_sub, coversOnce_append_iff (by omega) (by omega) (by omega) (by omega)]
      omega
  · rw [if_neg (by omega), if_neg hst, if_neg hwrap, sub_of_le (by omega)]
    refine iff_of_true ⟨_, rfl, nodup_range', ?_⟩ ⟨hsum, by omega, by omega⟩
    intro i
    rw [mem_range'_1, covered_iff (by omega) (by omega) (by omega)]
    omega

/-! ## Going outward -/

/-- Nearer to the first index; of two indices at one distance the later one comes first. -/
def Nearer (d e : Int) : Prop := d.natAbs < e.natAbs ∨ d.natAbs = e.natAbs ∧ e < d

/-- The index at an offset from the first one. -/
def indexAt (start n : Nat) (offset : Int) : Nat := ((start + offset) % n).toNat

/-- The indices are at offsets of the window, in order; every other offset of the window comes behind them. -/
def InOrder (start before after n : Nat) (indices : List Nat) : Prop :=
  ∃ offsets : List Int, indices = offsets.map (indexAt start n) ∧ offsets.Pairwise Nearer ∧
    (∀ d ∈ offsets, -(before : Int) ≤ d ∧ d ≤ after) ∧
    ∀ d, -(before : Int) ≤ d → d ≤ after → d ∉ offsets → ∀ e ∈ offsets, Nearer e d

/-- The offsets from `-b` to `a` are taken, on and back in turn as long as there is room on both sides. -/
structure Taken (before after a b : Nat) : Prop where
  after_le : a ≤ after
  before_le : b ≤ before
  on : a ≤ b + 1 ∨ b = before
  back : b ≤ a ∨ a = after

/-- How far on from the first index the iterator goes. -/
def stepsAfter (before after n : Nat) : Nat := min after (max (n / 2) (n - 1 - before))

/-- How far back from the first index the iterator goes. -/
def stepsBefore (before after n : Nat) : Nat := min before (max ((n - 1) / 2) (n - 1 - after))

section Outward

variable {start before after n a b A B : Nat}

theorem taken_steps (h : n ≤ before + after + 1) : Taken before after (stepsAfter before after n) (stepsBefore before after n) := by
  unfold stepsAfter stepsBefore
  constructor <;> omega

theorem steps_add (h : n ≤ before + after + 1) (hn : 0 < n) : stepsAfter before after n + stepsBefore before after n + 1 = n := by
  unfold stepsAfter stepsBefore
  rcases Nat.lt_or_ge ((n - 1) / 2) before with hb | hb
  · rcases Nat.lt_or_ge (n / 2) after with ha | ha <;> omega
  · omega

/-- A step on. -/
theorem Outward.collect_after {calls : Nat} (hn : a + b + 1 < n) (hle : a + 1 ≤ after) (hturn : b + 1 ≤ before → a ≤ b) :
    collect start before after n (calls + 1) ⟨a + b + 1, a + 1, b + 1⟩ = if start + (a + 1) < Word.size then
        (collect start before after n calls ⟨a + 1 + b + 1, a + 1 + 1, b + 1⟩).map (indexAt start n (a + 1) :: ·)
      else none := by
  have hnext : next start before after n ⟨a + b + 1, a + 1, b + 1⟩ = nextAfter start n ⟨a + 1 + b + 1, a + 1, b + 1⟩ := by
    unfold next
    simp only [show a + b + 1 + 1 = a + 1 + b + 1 by omega]
    split_ifs <;> first | rfl | omega
  rw [collect, hnext, nextAfter, Word.add]
  split
  · rw [Option.map_eq_bind]
    rfl
  · rfl

/-- A step back. -/
theorem Outward.collect_before {calls : Nat} (hn : a + b + 1 < n) (hle : b + 1 ≤ before) (hturn : a + 1 ≤ after → b < a) :
    collect start before after n (calls + 1) ⟨a + b + 1, a + 1, b + 1⟩ = if start + n < Word.size then
        (collect start before after n calls ⟨a + (b + 1) + 1, a + 1, b + 1 + 1⟩).map (indexAt start n (-(b + 1)) :: ·)
      else none := by
  have hnext : next start before after n ⟨a + b + 1, a + 1, b + 1⟩ = nextBefore start n ⟨a + (b + 1) + 1, a + 1, b + 1⟩ := by
    unfold next
    simp only [show a + b + 1 + 1 = a + (b + 1) + 1 by omega]
    split_ifs <;> first | rfl | omega
  have hidx : (start + n - (b + 1)) % n = indexAt start n (-(b + 1)) := by
    have hsum : ((start : Int) + -(b + 1)) % n = ((start + n - (b + 1) : Nat) : Int) % n := by
      rw [← add_emod_right]
      congr 1
      omega
    rw [indexAt, hsum]
    rfl
  rw [collect, hnext, nextBefore, Word.add]
  split
  · simp only [Option.bind_eq_bind, Option.bind_some]
    rw [sub_of_le (by omega), Option.map_eq_bind, ← hidx]
    rfl
  · rfl

/-- The iterator ends: every index of the circle was given, or every offset of the window. -/
theorem Outward.collect_done {calls : Nat} (hend : n ≤ a + b + 1 ∨ a = after ∧ b = before) :
    collect start before after n (calls + 1) ⟨a + b + 1, a + 1, b + 1⟩ = some [] := by
  have hnext : next start before after n ⟨a + b + 1, a + 1, b + 1⟩ = some (none, ⟨a + b + 1 + 1, a + 1, b + 1⟩) := by
    unfold next
    simp only
    split_ifs <;> first | rfl | omega
  rw [collect, hnext]
  rfl

/-- No sum overflows on the way from the offsets taken so far to the last ones. -/
def Fits (start n A B a b : Nat) : Prop := (A = a ∨ start + A < Word.size) ∧ (B = b ∨ start + n < Word.size)

/-- The indices at the offsets that are not taken yet, in order, if no sum overflows. -/
def Rest (start n A B a b : Nat) (indices : Option (List Nat)) : Prop :=
  (Fits start n A B a b → ∃ offsets : List Int, indices = some (offsets.map (indexAt start n)) ∧ offsets.Pairwise Nearer ∧
    ∀ d, d ∈ offsets ↔ a < d ∧ d ≤ A ∨ -(B : Int) ≤ d ∧ d < -b) ∧
  (¬ Fits start n A B a b → indices = none)

/-- One more offset in front. -/
theorem Rest.cons {a' b' : Nat} {indices : Option (List Nat)} (hrest : Rest start n A B a' b' indices) {d : Int} {fits : Prop}
    [Decidable fits] (hfits : Fits start n A B a b ↔ fits ∧ Fits start n A B a' b')
    (hmem : ∀ e : Int, (a < e ∧ e ≤ A ∨ -(B : Int) ≤ e ∧ e < -b) ↔ e = d ∨ (a' < e ∧ e ≤ A ∨ -(B : Int) ≤ e ∧ e < -b'))
    (hnear : ∀ e : Int, (a' < e ∧ e ≤ A ∨ -(B : Int) ≤ e ∧ e < -b') → Nearer d e) :
    Rest start n A B a b (if fits then indices.map (indexAt start n d :: ·) else none) := by
  obtain ⟨hsome, hnone⟩ := hrest
  constructor
  · intro h
    obtain ⟨hd, h'⟩ := hfits.mp h
    obtain ⟨offsets, rfl, hsort, hoff⟩ := hsome h'
    refine ⟨d :: offsets, by rw [if_pos hd]; rfl, pairwise_cons.mpr ⟨?_, hsort⟩, ?_⟩
    · intro e he
      exact hnear e ((hoff e).mp he)
    · intro e
      rw [mem_cons, hoff, hmem]
  · intro h
    split
    · rw [hnone fun h' => h (hfits.mpr ⟨‹_›, h'⟩)]
      rfl
    · rfl

/-- From the offsets taken so far to the last ones, by the number of calls that are left. -/
theorem Outward.collect_rest (start : Nat) (hlast : Taken before after A B) (hmin : A + B + 1 = min n (before + after + 1)) (calls : Nat) :
    ∀ a b, calls = n - (a + b) → a ≤ A → b ≤ B → Taken before after a b →
      Rest start n A B a b (collect start before after n calls ⟨a + b + 1, a + 1, b + 1⟩) := by
  obtain ⟨hA, hB, hAon, hBback⟩ := hlast
  induction calls with
  | zero => omega
  | succ calls ih =>
    intro a b hcall ha hb htak
    obtain ⟨-, -, hon, hback⟩ := htak
    by_cases hdone : a = A ∧ b = B
    · rw [collect_done (by omega)]
      refine ⟨fun _ => ⟨[], rfl, .nil, fun d => ?_⟩, fun hfits => ?_⟩
      · simp only [not_mem_nil, false_iff]
        omega
      · unfold Fits at hfits
        omega
    by_cases hturn : a + 1 ≤ after ∧ (b + 1 ≤ before → a ≤ b)
    · rw [collect_after (by omega) hturn.1 hturn.2]
      refine (ih _ b (by omega) (by omega) hb (by constructor <;> omega)).cons ?_ ?_ ?_
      · unfold Fits
        omega
      · omega
      · unfold Nearer
        omega
    · rw [collect_before (by omega) (by omega) (by omega)]
      refine (ih a _ (by omega) ha (by omega) (by constructor <;> omega)).cons ?_ ?_ ?_
      · unfold Fits
        omega
      · omega
      · unfold Nearer
        omega

theorem indexAt_eq (start : Nat) (hn : 0 < n) (d : Int) : (indexAt start n d : Int) = (start + d) % n :=
  toNat_of_nonneg (emod_nonneg _ (by omega))

/-- Two offsets less than once around the circle apart have different indices. -/
theorem indexAt_inj (hn : 0 < n) {d e : Int} (h : indexAt start n d = indexAt start n e) (hnear : (d - e).natAbs < n) : d = e := by
  have heq : ((start : Int) + d) % n = (start + e) % n := by
    rw [← indexAt_eq _ hn, ← indexAt_eq _ hn, h]
  rw [emod_eq_emod_iff_emod_sub_eq_zero] at heq
  have hzero := eq_zero_of_dvd_of_natAbs_lt_natAbs (dvd_of_emod_eq_zero heq) (by simpa using hnear)
  omega

variable {offsets : List Int}

/-- The offsets that the iterator goes through cover the window, each index once. -/
theorem coversOnce_map (hn : 0 < n) (hmin : A + B + 1 = min n (before + after + 1)) (hlast : Taken before after A B)
    (hsort : offsets.Pairwise Nearer) (hmem : ∀ d, d ∈ offsets ↔ -(B : Int) ≤ d ∧ d ≤ A) :
    CoversOnce (start - before) (start + after + 1) n (offsets.map (indexAt start n)) := by
  obtain ⟨hA, hB, -, -⟩ := hlast
  constructor
  · refine List.Nodup.map_on ?_ (hsort.imp (by unfold Nearer; omega))
    intro d hd e he heq
    rw [hmem] at hd he
    exact indexAt_inj hn heq (by omega)
  intro i
  rw [mem_map]
  constructor
  · rintro ⟨d, hd, rfl⟩
    rw [hmem] at hd
    have hlt := emod_lt_of_pos (start + d) (show (0 : Int) < n by omega)
    have heq := indexAt_eq start hn d
    exact ⟨by omega, start + d, by omega, by omega, heq.symm⟩
  · rintro ⟨hi, z, hlo, hhi, hz⟩
    by_cases hall : A = after ∧ B = before
    · refine ⟨z - start, (hmem _).mpr (by omega), ?_⟩
      rw [indexAt, show (start : Int) + (z - start) = z by omega, hz, toNat_natCast]
    · have hnn := emod_nonneg (z - start + B) (show (n : Int) ≠ 0 by omega)
      have hlt := emod_lt_of_pos (z - start + B) (show (0 : Int) < n by omega)
      refine ⟨(z - start + B) % n - B, (hmem _).mpr (by omega), ?_⟩
      rw [indexAt, show (start : Int) + ((z - start + B) % n - B) = start - B + (z - start + B) % n by omega, add_emod_emod,
        show (start : Int) - B + (z - start + B) = z by omega, hz, toNat_natCast]

/-- Every offset that is left out is farther than the ones that the iterator goes through. -/
theorem inOrder_map (hlast : Taken before after A B) (hsort : offsets.Pairwise Nearer)
    (hmem : ∀ d, d ∈ offsets ↔ -(B : Int) ≤ d ∧ d ≤ A) : InOrder start before after n (offsets.map (indexAt start n)) := by
  obtain ⟨hA, hB, hon, hback⟩ := hlast
  refine ⟨offsets, rfl, hsort, ?_, ?_⟩
  · intro d hd
    rw [hmem] at hd
    omega
  · intro d hlo hhi hd e he
    rw [hmem] at hd he
    unfold Nearer
    omega

end Outward

/-- No sum overflows on the way to the last index. -/
def OutwardFits (start before after n : Nat) : Prop :=
  Fits start n (stepsAfter before after (min n (before + after + 1))) (stepsBefore before after (min n (before + after + 1))) 0 0

/-- The first index, before the steps. -/
theorem wrappedUsizeOutwardFrom_eq {start before after n : Nat} (hn : 0 < n) : wrappedUsizeOutwardFrom start before after n =
      (Outward.collect start before after n n ⟨0 + 0 + 1, 0 + 1, 0 + 1⟩).map (indexAt start n 0 :: ·) := by
  have hnext : Outward.next start before after n ⟨0, 1, 1⟩ = some (some (indexAt start n 0), ⟨1, 1, 1⟩) := by
    unfold Outward.next
    simp only
    rw [if_neg (by omega)]
    rfl
  rw [wrappedUsizeOutwardFrom, Outward.collect, hnext, Option.map_eq_bind]
  rfl

theorem wrappedUsizeOutwardFrom_coversOnce_iff (start before after n : Nat) :
    (∃ indices, wrappedUsizeOutwardFrom start before after n = some indices ∧
      CoversOnce (start - before) (start + after + 1) n indices ∧ InOrder start before after n indices ∧ (n = 0 → indices = [])) ↔
      OutwardFits start before after n := by
  rcases Nat.eq_zero_or_pos n with rfl | hn
  · refine iff_of_true ⟨[], rfl, ⟨.nil, ?_⟩, ⟨[], rfl, .nil, by simp, by simp⟩, fun _ => rfl⟩ ?_
    · simp [Covered]
    · simp [OutwardFits, Fits, stepsAfter, stepsBefore]
  have hlast : Taken before after _ _ := taken_steps (Nat.min_le_right n _)
  have hmin := steps_add (Nat.min_le_right n (before + after + 1)) (by omega)
  obtain ⟨hsome, hnone⟩ := Outward.collect_rest _ hlast hmin n 0 0 (by omega) (by omega) (by omega) (by constructor <;> omega)
  rw [wrappedUsizeOutwardFrom_eq hn]
  constructor
  · rintro ⟨indices, heq, -⟩
    by_contra hfits
    rw [hnone hfits] at heq
    cases heq
  · intro hfits
    obtain ⟨offsets, heq, hsort, hmem⟩ := hsome hfits
    have hfst : (0 :: offsets).Pairwise Nearer := by
      refine pairwise_cons.mpr ⟨?_, hsort⟩
      intro d hd
      have := (hmem d).mp hd
      unfold Nearer
      omega
    have hall : ∀ d, d ∈ 0 :: offsets ↔ -(stepsBefore before after (min n (before + after + 1)) : Int) ≤ d ∧
        d ≤ stepsAfter before after (min n (before + after + 1)) := by
      intro d
      rw [mem_cons, hmem]
      omega
    refine ⟨(0 :: offsets).map _, by rw [heq]; rfl, ?_, inOrder_map hlast hfst hall, by omega⟩
    exact coversOnce_map hn hmin hlast hfst hall

/-- Each function covers the indices of its window once, exactly when no sum overflows and the first one's window does not meet itself
behind the range. -/
theorem wrapped_windows_coverOnce_iff {start «end» before after n : Nat} (hrange : start ≤ «end») (hend : «end» ≤ n)
    (first back on m : Nat) :
    ((∃ indices, expandedAndWrappedUsizeRange start «end» before after n = some indices ∧
      CoversOnce (start - before) («end» + after) n indices) ↔ ExpandsOnce start «end» before after n) ∧
    ((∃ indices, wrappedUsizeOutwardFrom first back on m = some indices ∧ CoversOnce (first - back) (first + on + 1) m indices ∧
      InOrder first back on m indices ∧ (m = 0 → indices = [])) ↔ OutwardFits first back on m) :=
  ⟨expandedAndWrappedUsizeRange_coversOnce_iff hrange hend, wrappedUsizeOutwardFrom_coversOnce_iff first back on m⟩

/-- Windows that go over the start of the circle. -/
theorem wrapped_windows_over_start :
    (∃ indices, expandedAndWrappedUsizeRange 2 4 3 1 8 = some indices ∧ CoversOnce (2 - 3) (4 + 1) 8 indices) ∧
      ∃ indices, wrappedUsizeOutwardFrom 1 3 2 10 = some indices ∧ CoversOnce (1 - 3) (1 + 2 + 1) 10 indices ∧
        InOrder 1 3 2 10 indices ∧ (10 = 0 → indices = []) := by
  obtain ⟨hexpanded, houtward⟩ := @wrapped_windows_coverOnce_iff 2 4 3 1 8 (by decide) (by decide) 1 3 2 10
  exact ⟨hexpanded.mpr (by unfold ExpandsOnce; decide), houtward.mpr (by unfold OutwardFits Fits; decide)⟩

/-- A window that meets itself behind its range: the index 7 comes twice. -/
theorem expandedAndWrappedUsizeRange_meets :
    expandedAndWrappedUsizeRange 3 5 4 3 8 = some [0, 1, 2, 3, 4, 5, 6, 7, 7] ∧
      ¬ ∃ indices, expandedAndWrappedUsizeRange 3 5 4 3 8 = some indices ∧ CoversOnce (3 - 4) (5 + 3) 8 indices := by
  have heq : expandedAndWrappedUsizeRange 3 5 4 3 8 = some [0, 1, 2, 3, 4, 5, 6, 7, 7] := by decide
  refine ⟨heq, ?_⟩
  rintro ⟨indices, hsome, hnodup, -⟩
  rw [heq, Option.some.injEq] at hsome
  rw [← hsome] at hnodup
  exact absurd hnodup (by decide)

end Wu.WrappedRanges
