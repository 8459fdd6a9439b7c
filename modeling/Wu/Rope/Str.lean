import Mathlib.Data.List.DropRight
import Mathlib.Algebra.Ring.Nat

/-!
# Strings by their characters

A `str` is the list of its characters, and an offset into it counts the bytes of their UTF-8 encoding. An offset is a
boundary when it is the length of a part the string begins with (`isCharBoundary_iff`), so that what the code does at a
boundary is stated on the two parts: `splitAt (a ++ b) (len a) = some (a, b)`. A function of `str` that panics off a boundary
is `none` there.
-/

namespace Wu

open List Option

/-- `str`: its characters. -/
abbrev Str := List Char

/-- `char::len_utf16`. -/
def utf16Size (c : Char) : Nat := if c.toNat ≤ 0xFFFF then 1 else 2

namespace Str

/-- `str::len`: the length in bytes. -/
def len (s : Str) : Nat := (s.map Char.utf8Size).sum

/-- The length in UTF-16 code units. -/
def lenUtf16 (s : Str) : Nat := (s.map utf16Size).sum

/-- `str::as_bytes`. -/
def asBytes (s : Str) : List UInt8 := s.flatMap String.utf8EncodeChar

/-- `str::is_char_boundary`. -/
def isCharBoundary : Str → Nat → Bool
  | _, 0 => true
  | [], _ + 1 => false
  | c :: s, index + 1 => c.utf8Size ≤ index + 1 && isCharBoundary s (index + 1 - c.utf8Size)

/-- `str::split_at`. -/
def splitAt : Str → Nat → Option (Str × Str)
  | s, 0 => some ([], s)
  | [], _ + 1 => none
  | c :: s, mid + 1 =>
    if c.utf8Size ≤ mid + 1 then (splitAt s (mid + 1 - c.utf8Size)).map fun (left, right) => (c :: left, right) else none

/-- `&s[start..end]`. -/
def index (s : Str) (start «end» : Nat) : Option Str := do
  let (left, _) ← splitAt s «end»
  let (_, right) ← splitAt left start
  return right

/-- `while !is_boundary(ix) { ix += 1 }`, or `none` when there is none in the next `fuel` places. -/
def seekUp (isBoundary : Nat → Bool) : Nat → Nat → Option Nat
  | 0, ix => if isBoundary ix then some ix else none
  | fuel + 1, ix => if isBoundary ix then some ix else seekUp isBoundary fuel (ix + 1)

/-- `while !is_boundary(ix) { ix -= 1 }`, or `none` when there is none down to zero. -/
def seekDown (isBoundary : Nat → Bool) : Nat → Option Nat
  | 0 => if isBoundary 0 then some 0 else none
  | ix + 1 => if isBoundary (ix + 1) then some (ix + 1) else seekDown isBoundary ix

/-- The first line, without its line feed. -/
def firstLine (s : Str) : Str := s.takeWhile (· ≠ '\n')

/-- The last line: what follows the last line feed. -/
def lastLine (s : Str) : Str := s.rtakeWhile (· ≠ '\n')

/-! ## Lengths -/

@[simp] theorem len_nil : len [] = 0 := rfl

@[simp] theorem len_cons (c : Char) (s : Str) : len (c :: s) = c.utf8Size + len s := by
  simp [len]

@[simp] theorem len_append (s t : Str) : len (s ++ t) = len s + len t := by
  simp [len]

@[simp] theorem lenUtf16_nil : lenUtf16 [] = 0 := rfl

@[simp] theorem lenUtf16_cons (c : Char) (s : Str) : lenUtf16 (c :: s) = utf16Size c + lenUtf16 s := by
  simp [lenUtf16]

@[simp] theorem lenUtf16_append (s t : Str) : lenUtf16 (s ++ t) = lenUtf16 s + lenUtf16 t := by
  simp [lenUtf16]

variable {s a b : Str} {c : Char} {n i j : Nat} {p : Nat → Bool}

theorem len_eq_zero : len s = 0 ↔ s = [] := by
  cases s with
  | nil => simp
  | cons c s =>
    have := c.utf8Size_pos
    simp
    omega

theorem len_pos : 0 < len s ↔ s ≠ [] := by
  rw [Nat.pos_iff_ne_zero, ne_eq, len_eq_zero]

theorem utf16Size_pos (c : Char) : 0 < utf16Size c := by
  unfold utf16Size
  split <;> decide

theorem utf16Size_le_two (c : Char) : utf16Size c ≤ 2 := by
  unfold utf16Size
  split <;> decide

theorem utf16Size_le_utf8Size (c : Char) : utf16Size c ≤ c.utf8Size := by
  unfold utf16Size Char.utf8Size
  simp only [UInt32.le_iff_toNat_le, Char.toNat_val]
  split_ifs with h h1 <;> simp_all
  omega

/-! ## Boundaries -/

@[simp] theorem isCharBoundary_zero (s : Str) : isCharBoundary s 0 = true := by
  cases s <;> rfl

theorem isCharBoundary_cons (hn : 0 < n) :
    isCharBoundary (c :: s) n = (decide (c.utf8Size ≤ n) && isCharBoundary s (n - c.utf8Size)) := by
  cases n with
  | zero => exact absurd hn (by decide)
  | succ n => rfl

/-- The boundaries are the lengths of the parts a string begins with. -/
theorem isCharBoundary_iff : isCharBoundary s n = true ↔ ∃ a b, s = a ++ b ∧ n = len a := by
  induction s generalizing n with
  | nil =>
    cases n with
    | zero => simp
    | succ n =>
      have hfal : isCharBoundary [] (n + 1) = false := rfl
      simp only [hfal, Bool.false_eq_true, false_iff]
      rintro ⟨a, b, hab, hn⟩
      rw [(append_eq_nil_iff.mp hab.symm).1] at hn
      simp at hn
  | cons c s ih =>
    rcases Nat.eq_zero_or_pos n with rfl | hn
    · simp only [isCharBoundary_zero, true_iff]
      exact ⟨[], c :: s, rfl, rfl⟩
    rw [isCharBoundary_cons hn, Bool.and_eq_true, decide_eq_true_eq, ih]
    constructor
    · rintro ⟨hle, a, b, rfl, ha⟩
      exact ⟨c :: a, b, rfl, by rw [len_cons]; omega⟩
    · rintro ⟨a, b, hab, rfl⟩
      cases a with
      | nil => exact absurd hn (by simp)
      | cons d a =>
        obtain ⟨rfl, rfl⟩ : c = d ∧ s = a ++ b := by simpa using hab
        refine ⟨by rw [len_cons]; omega, a, b, rfl, by rw [len_cons]; omega⟩

theorem isCharBoundary_append (a b : Str) : isCharBoundary (a ++ b) (len a) = true :=
  isCharBoundary_iff.mpr ⟨a, b, rfl, rfl⟩

@[simp] theorem isCharBoundary_len (s : Str) : isCharBoundary s (len s) = true :=
  isCharBoundary_iff.mpr ⟨s, [], by simp, rfl⟩

theorem isCharBoundary_le (h : isCharBoundary s n = true) : n ≤ len s := by
  obtain ⟨a, b, rfl, rfl⟩ := isCharBoundary_iff.mp h
  simp

/-- Inside a character there is no boundary. -/
theorem isCharBoundary_inside (h : len a < n) (h' : n < len a + c.utf8Size) : isCharBoundary (a ++ c :: b) n = false := by
  rw [← Bool.not_eq_true, isCharBoundary_iff]
  rintro ⟨d, e, heq, rfl⟩
  rcases append_eq_append_iff.mp heq with ⟨m, rfl, hm⟩ | ⟨m, rfl, -⟩
  · cases m with
    | nil => simp at h
    | cons x m =>
      obtain ⟨rfl, -⟩ : c = x ∧ b = m ++ e := by simpa using hm
      rw [len_append, len_cons] at h'
      omega
  · rw [len_append] at h
    omega

/-- An offset into a string is a boundary or lies inside a character. -/
theorem boundary_or_inside (h : n ≤ len s) :
    (∃ a b, s = a ++ b ∧ n = len a) ∨ ∃ a c b, s = a ++ c :: b ∧ len a < n ∧ n < len a + c.utf8Size := by
  induction s generalizing n with
  | nil => exact .inl ⟨[], [], rfl, by simpa using h⟩
  | cons c s ih =>
    rcases Nat.eq_zero_or_pos n with rfl | hn
    · exact .inl ⟨[], c :: s, rfl, rfl⟩
    rcases Nat.lt_or_ge n _ with hc | hc
    · exact .inr ⟨[], c, s, rfl, by simpa using hn, by simpa using hc⟩
    rw [len_cons] at h
    rcases ih (n := n - c.utf8Size) (by omega) with ⟨a, b, rfl, ha⟩ | ⟨a, d, b, rfl, ha, ha'⟩
    · exact .inl ⟨c :: a, b, rfl, by rw [len_cons]; omega⟩
    · exact .inr ⟨c :: a, d, b, rfl, by rw [len_cons]; omega, by rw [len_cons]; omega⟩

/-- Of two splits of a string, the one at the smaller offset splits the first part of the other. -/
theorem append_of_len_le {a' b' : Str} (h : a ++ b = a' ++ b') (hlen : len a ≤ len a') : ∃ m, a' = a ++ m ∧ b = m ++ b' := by
  rcases append_eq_append_iff.mp h with ⟨m, rfl, rfl⟩ | ⟨m, rfl, rfl⟩
  · exact ⟨m, rfl, rfl⟩
  · have hm : m = [] := len_eq_zero.mp (by rw [len_append] at hlen; omega)
    exact ⟨[], by simp [hm], by simp [hm]⟩

/-! ## Splitting -/

@[simp] theorem splitAt_append (a b : Str) : splitAt (a ++ b) (len a) = some (a, b) := by
  induction a with
  | nil => cases b <;> rfl
  | cons c a ih =>
    obtain ⟨n, hn⟩ : ∃ n, len (c :: a) = n + 1 := Nat.exists_eq_add_one.mpr (len_pos.mpr (by simp))
    have hc : c.utf8Size ≤ n + 1 := by rw [← hn, len_cons]; omega
    have ha : n + 1 - c.utf8Size = len a := by rw [← hn, len_cons]; omega
    rw [hn, cons_append, splitAt, if_pos hc, ha, ih]
    rfl

theorem splitAt_eq_some {mid : Nat} (h : splitAt s mid = some (a, b)) : s = a ++ b ∧ mid = len a := by
  induction s generalizing mid a with
  | nil =>
    cases mid with
    | zero =>
      obtain ⟨rfl, rfl⟩ := Prod.mk.inj (some.inj h)
      exact ⟨rfl, rfl⟩
    | succ mid => cases h
  | cons c s ih =>
    cases mid with
    | zero =>
      obtain ⟨rfl, rfl⟩ := Prod.mk.inj (some.inj h)
      exact ⟨rfl, rfl⟩
    | succ mid =>
      rw [splitAt] at h
      split at h
      · obtain ⟨⟨left, right⟩, hspl, heq⟩ := map_eq_some_iff.mp h
        obtain ⟨rfl, rfl⟩ := Prod.mk.inj heq
        obtain ⟨rfl, hlen⟩ := ih hspl
        exact ⟨rfl, by rw [len_cons]; omega⟩
      · cases h

theorem index_append (a b d : Str) : index (a ++ b ++ d) (len a) (len (a ++ b)) = some b := by
  simp only [index, splitAt_append, bind_eq_bind, bind_some, Option.pure_def]

/-! ## Searching for a boundary -/

theorem seekUp_eq {fuel : Nat} (hj : p j = true) (hle : i ≤ j) (hfuel : j ≤ i + fuel)
    (hno : ∀ k, i ≤ k → k < j → p k = false) : seekUp p fuel i = some j := by
  induction fuel generalizing i with
  | zero =>
    obtain rfl : i = j := by omega
    rw [seekUp, if_pos hj]
  | succ fuel ih =>
    rw [seekUp]
    rcases Nat.eq_or_lt_of_le hle with rfl | hlt
    · rw [if_pos hj]
    · rw [if_neg (by simp [hno i _ hlt])]
      exact ih hlt (by omega) fun k hk => hno k (by omega)

theorem seekDown_eq (hj : p j = true) (hle : j ≤ i) (hno : ∀ k, j < k → k ≤ i → p k = false) : seekDown p i = some j := by
  induction i with
  | zero =>
    obtain rfl : j = 0 := by omega
    rw [seekDown, if_pos hj]
  | succ i ih =>
    rw [seekDown]
    rcases Nat.eq_or_lt_of_le hle with rfl | hlt
    · rw [if_pos hj]
    · rw [if_neg (by simp [hno _ hlt])]
      exact ih (by omega) fun k hk hk' => hno k hk (by omega)

/-- The search stops at the first place that it can. -/
theorem seekDown_max {k : Nat} (h : seekDown p i = some j) (hlt : j < k) (hle : k ≤ i) : p k = false := by
  induction i with
  | zero => omega
  | succ i ih =>
    rw [seekDown] at h
    split at h
    · obtain rfl := some.inj h
      omega
    · rename_i hno
      rcases Nat.eq_or_lt_of_le hle with rfl | hlt'
      · simpa using hno
      · exact ih h (by omega)

/-- The boundary at an offset or the next one after it is at most three bytes on. -/
theorem seekUp_boundary (h : n ≤ len s) :
    ∃ a b, s = a ++ b ∧ n ≤ len a ∧ len a < n + 4 ∧ seekUp (isCharBoundary s) (len s - n) n = some (len a) := by
  rcases boundary_or_inside h with ⟨a, b, rfl, rfl⟩ | ⟨a, c, b, rfl, hlt, hlt'⟩
  · refine ⟨a, b, rfl, le_rfl, by omega, ?_⟩
    exact seekUp_eq (isCharBoundary_append a b) le_rfl (by omega) fun k hk hk' => absurd hk (by omega)
  · have hc := c.utf8Size_le_four
    have hspl : a ++ c :: b = (a ++ [c]) ++ b := by simp
    have hlen : len (a ++ [c]) = len a + c.utf8Size := by simp
    refine ⟨a ++ [c], b, hspl, by omega, by omega, ?_⟩
    have hle : len (a ++ [c]) ≤ len (a ++ c :: b) := by rw [hspl, len_append (a ++ [c])]; omega
    refine seekUp_eq (by rw [hspl]; exact isCharBoundary_append _ b) (by omega) (by omega) fun k hk hk' => ?_
    exact isCharBoundary_inside (by omega) (by omega)

/-- The boundary at an offset or the last one before it is at most three bytes back. -/
theorem seekDown_boundary (h : n ≤ len s) :
    ∃ a b, s = a ++ b ∧ len a ≤ n ∧ n < len a + 4 ∧ seekDown (isCharBoundary s) n = some (len a) := by
  rcases boundary_or_inside h with ⟨a, b, rfl, rfl⟩ | ⟨a, c, b, rfl, hlt, hlt'⟩
  · refine ⟨a, b, rfl, le_rfl, by omega, ?_⟩
    exact seekDown_eq (isCharBoundary_append a b) le_rfl fun k hk hk' => absurd hk (by omega)
  · have hc := c.utf8Size_le_four
    refine ⟨a, c :: b, rfl, by omega, by omega, ?_⟩
    refine seekDown_eq (isCharBoundary_append a _) (by omega) fun k hk hk' => ?_
    exact isCharBoundary_inside (by omega) (by omega)

/-! ## Lines -/

@[simp] theorem lastLine_nil : lastLine [] = [] := rfl

theorem lastLine_concat (s : Str) (c : Char) : lastLine (s ++ [c]) = if c = '\n' then [] else lastLine s ++ [c] := by
  unfold lastLine
  split_ifs <;> simp_all

@[simp] theorem firstLine_nil : firstLine [] = [] := rfl

theorem firstLine_concat (s : Str) (c : Char) : firstLine (s ++ [c]) = if '\n' ∈ s ∨ c = '\n' then firstLine s else s ++ [c] := by
  induction s with
  | nil => by_cases hc : c = '\n' <;> simp [firstLine, hc]
  | cons d s ih =>
    by_cases hd : d = '\n'
    · simp [firstLine, hd]
    · have hd' : '\n' ≠ d := fun h => hd h.symm
      simp only [firstLine, cons_append, takeWhile_cons, ne_eq, hd, not_false_eq_true, decide_true,
        if_true, mem_cons, hd', false_or] at ih ⊢
      rw [ih]
      split <;> rfl

/-- Without a line feed the first line is the string. -/
theorem firstLine_eq (h : '\n' ∉ s) : firstLine s = s := by
  refine takeWhile_eq_self_iff.mpr ?_
  intro c hc
  have hne : c ≠ '\n' := fun he => h (he ▸ hc)
  simpa using hne

theorem firstLine_append {line : Str} (h : '\n' ∉ line) (rest : Str) : firstLine (line ++ '\n' :: rest) = line := by
  have hall : ∀ c ∈ line, decide (c ≠ '\n') = true := by
    intro c hc
    exact decide_eq_true fun he => h (he ▸ hc)
  rw [firstLine, takeWhile_append_of_pos hall, takeWhile_cons_of_neg (by simp), append_nil]

/-- Without a line feed the last line is the string. -/
theorem lastLine_eq (h : '\n' ∉ s) : lastLine s = s := by
  refine rtakeWhile_eq_self_iff.mpr ?_
  intro c hc
  have hne : c ≠ '\n' := fun he => h (he ▸ hc)
  simpa using hne

end Str

end Wu
