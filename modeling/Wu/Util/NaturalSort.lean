import Wu.Circles
import Wu.CharLists
import Mathlib.Data.List.TakeWhile

/-!
# Natural order of names

Names are compared character by character without regard to the case of letters, but runs of digits are compared as numbers, as long
as both fit in 128 bits. So a name is compared as the list of its tokens.
-/

namespace Wu.Util

open List Ordering

open Strings (toAsciiLower)
open Circles (IsTournament IsCircle Alike First)

/-! ## Comparing names -/

/-- `str::parse` to a `u128`. -/
def parseU128 (text : List Char) : Option Nat := CharLists.parseUnsigned (2 ^ 128) text

/-- How `compare_numeric_segments` compares runs of different lengths: by their values, where the longer one is greater when these are
equal, or as text when a value does not fit. -/
def compareUnequal (ordering : Ordering) (aNumStr bNumStr : List Char) : Ordering :=
  match parseU128 aNumStr, parseU128 bNumStr with
  | some aVal, some bVal =>
    match compare aVal bVal with
    | .eq => ordering
    | ord => ord
  | _, _ => compare aNumStr bNumStr

/-- How `compare_numeric_segments` compares the runs of digits that it has collected. -/
def compareRuns (aNumStr bNumStr : List Char) : Ordering :=
  match compare aNumStr.length bNumStr.length with
  | .eq => compare aNumStr bNumStr
  | ordering => compareUnequal ordering aNumStr bNumStr

variable {c d x y : Char} {a b : List Char}

theorem length_dropWhile_lt (hc : c.isDigit = true) (text : List Char) :
    ((c :: text).dropWhile Char.isDigit).length < (c :: text).length := by
  rw [dropWhile_cons_of_pos hc]
  exact Nat.lt_succ_of_le (List.dropWhile_suffix _).length_le

/-- The loop of `natural_sort` over what is left of two names. -/
def naturalSortLoop (a b : List Char) : List Char → List Char → Ordering
  | [], [] => compare b a
  | [], _ :: _ => .lt
  | _ :: _, [] => .gt
  | aChar :: aIter, bChar :: bIter =>
    if _h : aChar.isDigit = true ∧ bChar.isDigit = true then
      match compareRuns ((aChar :: aIter).takeWhile Char.isDigit) ((bChar :: bIter).takeWhile Char.isDigit) with
      | .eq => naturalSortLoop a b ((aChar :: aIter).dropWhile Char.isDigit) ((bChar :: bIter).dropWhile Char.isDigit)
      | ordering => ordering
    else
      match compare (toAsciiLower aChar) (toAsciiLower bChar) with
      | .eq => naturalSortLoop a b aIter bIter
      | ordering => ordering
termination_by aIter => aIter.length
decreasing_by
  · exact length_dropWhile_lt _h.1 aIter
  · exact Nat.lt_succ_self _

/-- `natural_sort`. -/
def naturalSort (a b : List Char) : Ordering := naturalSortLoop a b a b

/-- `str::eq_ignore_ascii_case`. -/
def eqIgnoreAsciiCase (a b : List Char) : Bool := a.map toAsciiLower == b.map toAsciiLower

/-- `natural_sort_no_tiebreak`. -/
def naturalSortNoTiebreak (a b : List Char) : Ordering := if eqIgnoreAsciiCase a b then .eq else naturalSort a b

example : naturalSort "file2".toList "File10".toList = .lt := by decide +kernel

/-! ## Runs of digits -/

/-- A run of digits. -/
structure Digits where
  chars : List Char
  ne_nil : chars ≠ []
  isDigit : ∀ c ∈ chars, c.isDigit = true

/-- The number that digits stand for. -/
def valueFrom (n : Nat) (chars : List Char) : Nat := chars.foldl (fun n c => n * 10 + (c.toNat - '0'.toNat)) n

def Digits.value (digits : Digits) : Nat := valueFrom 0 digits.chars

theorem Digits.ext {a b : Digits} (h : a.chars = b.chars) : a = b := by
  cases a
  cases h
  rfl

theorem parseU128_digits (digits : Digits) : parseU128 digits.chars = if digits.value < 2 ^ 128 then some digits.value else none := by
  have hplus : '+' ∉ digits.chars := fun h => absurd (digits.isDigit '+' h) (by decide)
  have hall : digits.chars.all Char.isDigit = true := all_eq_true.mpr digits.isDigit
  have hemp : digits.chars.isEmpty = false := isEmpty_eq_false_iff.mpr digits.ne_nil
  rw [parseU128, CharLists.parseUnsigned, CharLists.withoutPlus_of_notMem hplus, Strings.parseDigits, hall, hemp]
  by_cases h : digits.value < 2 ^ 128
  · rw [if_pos h]
    exact Option.filter_some_pos (decide_eq_true h)
  · rw [if_neg h]
    exact Option.filter_some_neg (decide_eq_false h)

/-- Numbers compare like others when they are less or greater at the same time. -/
theorem compare_nat_congr {a b c d : Nat} (hlt : a < b ↔ c < d) (hgt : b < a ↔ d < c) : compare a b = compare c d := by
  rcases Nat.lt_trichotomy a b with h | h | h
  · rw [Nat.compare_eq_lt.mpr h, Nat.compare_eq_lt.mpr (hlt.mp h)]
  · rw [Nat.compare_eq_eq.mpr h, Nat.compare_eq_eq.mpr (by omega)]
  · rw [Nat.compare_eq_gt.mpr h, Nat.compare_eq_gt.mpr (hgt.mp h)]

/-- Characters are compared by their code points. -/
theorem compare_char (a b : Char) : compare a b = compare a.toNat b.toNat := by
  rcases Nat.lt_trichotomy _ _ with h | h | h
  · rw [Nat.compare_eq_lt.mpr h]
    exact if_pos h
  · rw [Char.toNat_inj.mp h]
    exact Std.ReflOrd.compare_self.trans Std.ReflOrd.compare_self.symm
  · rw [Nat.compare_eq_gt.mpr h]
    exact Std.OrientedCmp.gt_iff_lt.mpr (if_pos h)

theorem compare_digit_values {n m x y : Nat} (hx : x < 10) (hy : y < 10) :
    compare (n * 10 + x) (m * 10 + y) = (compare n m).then (compare x y) := by
  rcases Nat.lt_trichotomy n m with h | h | h
  · rw [Nat.compare_eq_lt.mpr h]
    exact Nat.compare_eq_lt.mpr (by omega)
  · subst h
    rw [Nat.compare_eq_eq.mpr rfl]
    exact compare_nat_congr (by omega) (by omega)
  · rw [Nat.compare_eq_gt.mpr h]
    exact Nat.compare_eq_gt.mpr (by omega)

/-- Runs of one length are compared by their values. -/
theorem compare_valueFrom (hlen : a.length = b.length) (ha : ∀ c ∈ a, c.isDigit = true) (hb : ∀ c ∈ b, c.isDigit = true) (n m : Nat) :
    compare (valueFrom n a) (valueFrom m b) = (compare n m).then (compare a b) := by
  induction a generalizing b n m with
  | nil =>
    cases b with
    | nil => exact (then_eq ..).symm
    | cons d b => cases hlen
  | cons c a ih =>
    cases b with
    | nil => cases hlen
    | cons d b =>
      have hc := Char.isDigit_iff_toNat.mp (ha c mem_cons_self)
      have hd := Char.isDigit_iff_toNat.mp (hb d mem_cons_self)
      have hc1 : 48 ≤ c.toNat := hc.1
      have hc2 : c.toNat ≤ 57 := hc.2
      have hd1 : 48 ≤ d.toNat := hd.1
      have hd2 : d.toNat ≤ 57 := hd.2
      have hrest := ih (Nat.succ.inj hlen) (fun x hx => ha x (mem_cons_of_mem c hx))
        (fun x hx => hb x (mem_cons_of_mem d hx)) (n * 10 + (c.toNat - 48)) (m * 10 + (d.toNat - 48))
      have hchar : compare (c.toNat - 48) (d.toNat - 48) = compare c d := by
        rw [compare_char]
        exact compare_nat_congr (by omega) (by omega)
      rw [compare_digit_values (by omega) (by omega), hchar] at hrest
      rw [List.compare_cons_cons, ← then_assoc, ← hrest]
      rfl

/-- Whether the number fits in 128 bits. -/
def Digits.Fits (digits : Digits) : Prop := digits.value < 2 ^ 128

/-- Runs that fit are compared as numbers, and the longer one is greater when the numbers are equal. -/
def compareNumbers (a b : Digits) : Ordering := (compare a.value b.value).then (compare a.chars.length b.chars.length)

/-- Runs that do not fit are compared as text. -/
def compareTexts (a b : Digits) : Ordering := compare a.chars b.chars

instance : Std.TransCmp compareNumbers :=
  inferInstanceAs (Std.TransCmp (compareLex (compareOn Digits.value) (compareOn fun digits : Digits => digits.chars.length)))

instance : Std.TransCmp compareTexts := inferInstanceAs (Std.TransCmp (compareOn Digits.chars))

theorem compareRuns_of_length (h : compare a.length b.length ≠ .eq) :
    compareRuns a b = compareUnequal (compare a.length b.length) a b := by
  rw [compareRuns]
  cases hlen : compare a.length _ with
  | eq => exact absurd hlen h
  | lt => rfl
  | gt => rfl

theorem compareRuns_of_fits {a b : Digits} (ha : a.Fits) (hb : b.Fits) : compareRuns a.chars b.chars = compareNumbers a b := by
  by_cases hlen : compare a.chars.length b.chars.length = .eq
  · have hvals := compare_valueFrom (Nat.compare_eq_eq.mp hlen) a.isDigit b.isDigit 0 0
    rw [compareRuns, compareNumbers, hlen, Digits.value, Digits.value, hvals]
    exact (then_eq ..).symm
  · rw [compareRuns_of_length hlen, compareUnequal, parseU128_digits, if_pos (show a.value < 2 ^ 128 from ha), parseU128_digits,
      if_pos (show b.value < 2 ^ 128 from hb), compareNumbers]
    dsimp only
    cases compare a.value _ <;> rfl

theorem compareRuns_of_not_fits {a b : Digits} (h : ¬(a.Fits ∧ b.Fits)) : compareRuns a.chars b.chars = compareTexts a b := by
  by_cases hlen : compare a.chars.length b.chars.length = .eq
  · rw [compareRuns, hlen, compareTexts]
  · rw [compareRuns_of_length hlen, compareUnequal, parseU128_digits, parseU128_digits, compareTexts]
    by_cases ha : a.value < 2 ^ 128
    · have hb : ¬b.value < 2 ^ 128 := fun hb => h ⟨ha, hb⟩
      rw [if_pos ha, if_neg hb]
    · rw [if_neg ha]

/-- Only equal runs compare equal. -/
theorem compareRuns_eq (h : compareRuns a b = .eq) : a = b := by
  by_cases hlen : compare a.length b.length = .eq
  · rw [compareRuns, hlen] at h
    exact Std.LawfulEqOrd.eq_of_compare h
  · rw [compareRuns_of_length hlen, compareUnequal] at h
    split at h
    · split at h
      · exact absurd h hlen
      · rename_i hne
        exact absurd h hne
    · exact Std.LawfulEqOrd.eq_of_compare h

theorem compareRuns_swap (a b : List Char) : compareRuns a b = (compareRuns b a).swap := by
  have hswap : compare a.length b.length = (compare b.length a.length).swap := Std.OrientedCmp.eq_swap
  by_cases hlen : compare b.length a.length = .eq
  · have hlen' : compare a.length b.length = .eq := by
      rw [hswap, hlen]
      rfl
    rw [compareRuns, compareRuns, hlen, hlen']
    exact Std.OrientedCmp.eq_swap
  · have hlen' : compare a.length b.length ≠ .eq := by
      rw [hswap, Ne, swap_eq_eq]
      exact hlen
    rw [compareRuns_of_length hlen, compareRuns_of_length hlen', compareUnequal, compareUnequal, hswap]
    cases parseU128 a with
    | none => cases parseU128 b <;> exact Std.OrientedCmp.eq_swap
    | some aVal =>
      cases parseU128 b with
      | none => exact Std.OrientedCmp.eq_swap
      | some bVal =>
        dsimp only
        rw [Std.OrientedOrd.eq_swap]
        cases compare bVal aVal <;> rfl

theorem compareRuns_isTournament : IsTournament compareRuns :=
  ⟨compareRuns_swap, fun _ _ _ heq => by rw [compareRuns_eq heq]⟩

/-- Two runs that fit, and a third one that does not. As text the third one comes behind the greater one and before the smaller one. -/
structure Pinched (less greater big : Digits) : Prop where
  lessFits : less.Fits
  greaterFits : greater.Fits
  bigDoesNot : ¬big.Fits
  numbers : compareNumbers less greater = .lt
  behind : compareTexts greater big = .lt
  before : compareTexts big less = .lt

/-- Three runs are in a circle only when one of them does not fit and the others do. -/
theorem circle_runs_iff (a b c : Digits) :
    IsCircle compareRuns a.chars b.chars c.chars ↔ Pinched a b c ∨ Pinched b c a ∨ Pinched c a b := by
  have htext : ∀ {x y : Digits}, ¬(x.Fits ∧ y.Fits) → compareRuns x.chars y.chars = compareTexts x y := compareRuns_of_not_fits
  have hpin : ∀ {x y z : Digits}, x.Fits → y.Fits → ¬z.Fits →
      (IsCircle compareRuns x.chars y.chars z.chars ↔ Pinched x y z) := by
    intro x y z hx hy hz
    rw [IsCircle, compareRuns_of_fits hx hy, htext fun h => hz h.2, htext fun h => hz h.1]
    exact ⟨fun h => ⟨hx, hy, hz, h.1, h.2.1, h.2.2⟩, fun h => ⟨h.numbers, h.behind, h.before⟩⟩
  have hrot : ∀ {x y z : List Char}, IsCircle compareRuns x y z ↔ IsCircle compareRuns y z x := fun {x y z} =>
    ⟨fun h => ⟨h.2.1, h.2.2, h.1⟩, fun h => ⟨h.2.2, h.1, h.2.1⟩⟩
  have hnone : ∀ {x y z : Digits}, ¬(x.Fits ∧ y.Fits) → ¬(y.Fits ∧ z.Fits) → ¬(z.Fits ∧ x.Fits) →
      (IsCircle compareRuns x.chars y.chars z.chars ↔ Pinched x y z ∨ Pinched y z x ∨ Pinched z x y) := by
    intro x y z hxy hyz hzx
    rw [IsCircle, htext hxy, htext hyz, htext hzx]
    refine ⟨fun h => absurd h (IsTournament.not_circle x y z), ?_⟩
    rintro (h | h | h)
    · exact absurd ⟨h.lessFits, h.greaterFits⟩ hxy
    · exact absurd ⟨h.lessFits, h.greaterFits⟩ hyz
    · exact absurd ⟨h.lessFits, h.greaterFits⟩ hzx
  by_cases ha : a.Fits
  · by_cases hb : b.Fits
    · by_cases hc : c.Fits
      · rw [IsCircle, compareRuns_of_fits ha hb, compareRuns_of_fits hb hc, compareRuns_of_fits hc ha]
        refine ⟨fun h => absurd h (IsTournament.not_circle a b c), ?_⟩
        rintro (h | h | h)
        · exact absurd hc h.bigDoesNot
        · exact absurd ha h.bigDoesNot
        · exact absurd hb h.bigDoesNot
      · rw [hpin ha hb hc]
        refine ⟨.inl, ?_⟩
        rintro (h | h | h)
        · exact h
        · exact absurd h.greaterFits hc
        · exact absurd h.lessFits hc
    · by_cases hc : c.Fits
      · rw [hrot, hrot, hpin hc ha hb]
        refine ⟨fun h => .inr (.inr h), ?_⟩
        rintro (h | h | h)
        · exact absurd h.greaterFits hb
        · exact absurd h.lessFits hb
        · exact h
      · exact hnone (fun h => hb h.2) (fun h => hb h.1) fun h => hc h.1
  · by_cases hb : b.Fits
    · by_cases hc : c.Fits
      · rw [hrot, hpin hb hc ha]
        refine ⟨fun h => .inr (.inl h), ?_⟩
        rintro (h | h | h)
        · exact absurd h.lessFits ha
        · exact h
        · exact absurd h.greaterFits ha
      · exact hnone (fun h => ha h.1) (fun h => hc h.2) fun h => hc h.1
    · exact hnone (fun h => ha h.1) (fun h => hb h.1) fun h => ha h.2

/-! ## Names as lists of tokens -/

/-- A run of digits, or a character without regard to case. -/
inductive Token where
  | number (digits : Digits)
  | char (c : Char)

theorem takeWhile_isDigit (hc : c.isDigit = true) (text : List Char) :
    (c :: text).takeWhile Char.isDigit = c :: text.takeWhile Char.isDigit := takeWhile_cons_of_pos hc

/-- The run of digits that a text starts with. -/
def digitsOf (c : Char) (hc : c.isDigit = true) (text : List Char) : Digits where
  chars := (c :: text).takeWhile Char.isDigit
  ne_nil := by
    rw [takeWhile_isDigit hc]
    exact cons_ne_nil _ _
  isDigit _ hx := mem_takeWhile_imp hx

def tokens : List Char → List Token
  | [] => []
  | c :: text =>
    if hc : c.isDigit = true then .number (digitsOf c hc text) :: tokens ((c :: text).dropWhile Char.isDigit)
    else .char (toAsciiLower c) :: tokens text
termination_by text => text.length
decreasing_by
  · exact length_dropWhile_lt hc text
  · exact Nat.lt_succ_self _

namespace Token

/-- Where a token stands among the others: numbers come before the character of the first digit. -/
def rank : Token → Nat
  | number _ => 2 * '0'.toNat - 1
  | char c => 2 * c.toNat

/-- The digits of a token. -/
def chars : Token → List Char
  | number digits => digits.chars
  | char _ => []

/-- Tokens are compared by their ranks, and numbers as runs of digits. -/
def cmp (a b : Token) : Ordering := (compare a.rank b.rank).then (compareRuns a.chars b.chars)

instance : Std.TransCmp fun a b : Token => compare a.rank b.rank := inferInstanceAs (Std.TransCmp (compareOn rank))

theorem isTournament : IsTournament cmp :=
  have hrank : IsTournament fun a b : Token => compare a.rank b.rank := .of_transCmp
  hrank.thenCmp (compareRuns_isTournament.comap _)

theorem eq_of_cmp {a b : Token} (h : cmp a b = .eq) : a = b := by
  obtain ⟨hrank, hruns⟩ := Ordering.then_eq_eq.mp h
  have hrank : a.rank = b.rank := Nat.compare_eq_eq.mp hrank
  have hzero : '0'.toNat = 48 := rfl
  cases a with
  | number digits =>
    cases b with
    | number digits' => exact congrArg _ (Digits.ext (compareRuns_eq hruns))
    | char c =>
      simp only [rank] at hrank
      omega
  | char c =>
    cases b with
    | number digits' =>
      simp only [rank] at hrank
      omega
    | char d =>
      have heq : c = d := by
        simp only [rank] at hrank
        exact Char.toNat_inj.mp (by omega)
      exact congrArg char heq

theorem alike_iff (a b c : Token) : Alike cmp a b c ↔ a = b ∧ b = c := by
  refine ⟨fun h => ⟨eq_of_cmp h.1, eq_of_cmp h.2.1⟩, ?_⟩
  rintro ⟨rfl, rfl⟩
  exact ⟨isTournament.self a, isTournament.self a, isTournament.self a⟩

end Token

/-! ## Names are compared as their tokens -/

theorem isDigit_iff : c.isDigit = true ↔ 48 ≤ c.toNat ∧ c.toNat ≤ 57 := Char.isDigit_iff_toNat

theorem toAsciiLower_of_digit (hc : c.isDigit = true) : toAsciiLower c = c := by
  refine if_neg fun h => ?_
  have hle : 65 ≤ c.toNat := UInt32.le_iff_toNat_le.mp h.1
  have hdigit := isDigit_iff.mp hc
  omega

/-- Letters are moved by 32. -/
theorem toNat_toAsciiLower (h : 'A' ≤ c ∧ c ≤ 'Z') : (toAsciiLower c).toNat = c.toNat + 32 := by
  have hle : c.toNat ≤ 90 := UInt32.le_iff_toNat_le.mp h.2
  have hval : (c.toNat + 32).isValidChar := .inl (by omega)
  rw [toAsciiLower, if_pos h, Char.ofNat, dif_pos hval]
  rfl

theorem toAsciiLower_notDigit (hc : c.isDigit = false) : (toAsciiLower c).isDigit = false := by
  by_cases h : 'A' ≤ c ∧ c ≤ 'Z'
  · have hlow := toNat_toAsciiLower h
    have hge : 65 ≤ c.toNat := UInt32.le_iff_toNat_le.mp h.1
    refine Bool.eq_false_iff.mpr fun hdigit => ?_
    have hdigit := isDigit_iff.mp hdigit
    omega
  · have hsame : toAsciiLower c = c := if_neg h
    rw [hsame, hc]

theorem tokens_nil : tokens [] = [] := by rw [tokens]

theorem tokens_digit (hc : c.isDigit = true) (text : List Char) :
    tokens (c :: text) = .number (digitsOf c hc text) :: tokens ((c :: text).dropWhile Char.isDigit) := by
  rw [tokens, dif_pos]

theorem tokens_char (hc : c.isDigit = false) (text : List Char) : tokens (c :: text) = .char (toAsciiLower c) :: tokens text := by
  rw [tokens, dif_neg (Bool.eq_false_iff.mp hc)]

theorem exists_token (c : Char) (text : List Char) : ∃ token rest, tokens (c :: text) = token :: rest := by
  cases hc : c.isDigit with
  | false => exact ⟨_, _, tokens_char hc text⟩
  | true => exact ⟨_, _, tokens_digit hc text⟩

/-- A number and a character compare like the digits of the number and the character. -/
theorem compare_digit_char (hd : d.isDigit = true) (hc : c.isDigit = false) : compare d c = compare (2 * 48 - 1) (2 * c.toNat) := by
  have hd := isDigit_iff.mp hd
  have hc : ¬(48 ≤ c.toNat ∧ c.toNat ≤ 57) := fun h => by
    rw [isDigit_iff.mpr h] at hc
    cases hc
  rw [compare_char]
  exact compare_nat_congr (by omega) (by omega)

/-- The order of the tokens that two texts begin with. -/
theorem cmp_chars (c d : Char) : Token.cmp (.char c) (.char d) = compare c d := by
  have hruns : compareRuns [] [] = .eq := rfl
  rw [Token.cmp, Token.chars, Token.chars, hruns, then_eq, compare_char]
  exact compare_nat_congr (by simp only [Token.rank]; omega) (by simp only [Token.rank]; omega)

theorem then_of_ne {x : Ordering} (h : x ≠ .eq) (y : Ordering) : x.then y = x := by
  cases x with
  | eq => exact absurd rfl h
  | lt => rfl
  | gt => rfl

theorem cmp_number_char (hd : d.isDigit = true) (hc : c.isDigit = false) (text : List Char) :
    Token.cmp (.number (digitsOf d hd text)) (.char c) = compare d c ∧ compare d c ≠ .eq := by
  have hne : compare d c ≠ .eq := fun h => by
    rw [Std.LawfulEqOrd.eq_of_compare h] at hd
    rw [hd] at hc
    cases hc
  refine ⟨?_, hne⟩
  rw [compare_digit_char hd hc] at hne ⊢
  exact then_of_ne hne _

/-- Runs of digits decide the order of the texts that they begin, unless they are equal. -/
theorem compareLex_digits (h : x.isDigit = true ∧ y.isDigit = true) (xs ys : List Char) :
    List.compareLex Token.cmp (tokens (x :: xs)) (tokens (y :: ys)) =
      (compareRuns ((x :: xs).takeWhile Char.isDigit) ((y :: ys).takeWhile Char.isDigit)).then
        (List.compareLex Token.cmp (tokens ((x :: xs).dropWhile Char.isDigit)) (tokens ((y :: ys).dropWhile Char.isDigit))) := by
  rw [tokens_digit h.1, tokens_digit h.2, List.compareLex_cons_cons]
  rfl

/-- Characters that are not both digits decide the order of the texts that they begin, or are not looked at again. -/
theorem compareLex_chars (h : ¬(x.isDigit = true ∧ y.isDigit = true)) (xs ys : List Char) :
    List.compareLex Token.cmp (tokens (x :: xs)) (tokens (y :: ys)) =
      (compare (toAsciiLower x) (toAsciiLower y)).then (List.compareLex Token.cmp (tokens xs) (tokens ys)) := by
  cases hx : x.isDigit with
  | false =>
    have hlow := toAsciiLower_notDigit hx
    rw [tokens_char hx]
    cases hy : y.isDigit with
    | false => rw [tokens_char hy, List.compareLex_cons_cons, cmp_chars]
    | true =>
      obtain ⟨hcmp, hne⟩ := cmp_number_char hy hlow ys
      have hne' : compare (toAsciiLower x) y ≠ .eq := by
        rw [Std.OrientedOrd.eq_swap, Ne, swap_eq_eq]
        exact hne
      rw [tokens_digit hy, List.compareLex_cons_cons, Token.isTournament.swap, hcmp, toAsciiLower_of_digit hy,
        ← Std.OrientedCmp.eq_swap, then_of_ne hne', then_of_ne hne']
  | true =>
    cases hy : y.isDigit with
    | false =>
      obtain ⟨hcmp, hne⟩ := cmp_number_char hx (toAsciiLower_notDigit hy) xs
      rw [tokens_digit hx, tokens_char hy, List.compareLex_cons_cons, hcmp, toAsciiLower_of_digit hx, then_of_ne hne, then_of_ne hne]
    | true => exact absurd ⟨hx, hy⟩ h

/-- Names are compared token by token, and those with equal tokens as text, where the greater one comes first. -/
theorem naturalSortLoop_eq (a b x y : List Char) :
    naturalSortLoop a b x y = (List.compareLex Token.cmp (tokens x) (tokens y)).then (compare b a) := by
  fun_induction naturalSortLoop a b x y with
  | case1 =>
    rw [tokens_nil]
    rfl
  | case2 y ys =>
    obtain ⟨token, rest, hy⟩ := exists_token y ys
    rw [tokens_nil, hy]
    rfl
  | case3 x xs =>
    obtain ⟨token, rest, hx⟩ := exists_token x xs
    rw [tokens_nil, hx]
    rfl
  | case4 x xs y ys hdig heq ih =>
    rw [compareLex_digits hdig, heq, ih]
    rfl
  | case5 x xs y ys hdig hne => rw [compareLex_digits hdig, then_of_ne hne, then_of_ne hne]
  | case6 x xs y ys hchar heq ih =>
    rw [compareLex_chars hchar, heq, ih]
    rfl
  | case7 x xs y ys hchar hne => rw [compareLex_chars hchar, then_of_ne hne, then_of_ne hne]

theorem naturalSort_eq (a b : List Char) :
    naturalSort a b = (List.compareLex Token.cmp (tokens a) (tokens b)).then (compare b a) := naturalSortLoop_eq a b a b

/-! ## Case -/

theorem isDigit_lower (c : Char) : (toAsciiLower c).isDigit = c.isDigit := by
  cases hc : c.isDigit with
  | true => rw [toAsciiLower_of_digit hc, hc]
  | false => exact toAsciiLower_notDigit hc

theorem lower_digits {text : List Char} (h : ∀ c ∈ text, c.isDigit = true) : text.map toAsciiLower = text := by
  rw [map_congr_left fun c hc => toAsciiLower_of_digit (h c hc), map_id']

theorem takeWhile_lower (text : List Char) : (text.map toAsciiLower).takeWhile Char.isDigit = text.takeWhile Char.isDigit := by
  have hdig : Char.isDigit ∘ toAsciiLower = Char.isDigit := funext isDigit_lower
  rw [takeWhile_map, hdig, lower_digits fun c hc => mem_takeWhile_imp hc]

theorem dropWhile_lower (text : List Char) :
    (text.map toAsciiLower).dropWhile Char.isDigit = (text.dropWhile Char.isDigit).map toAsciiLower := by
  have hdig : Char.isDigit ∘ toAsciiLower = Char.isDigit := funext isDigit_lower
  rw [dropWhile_map, hdig]

theorem toAsciiLower_toAsciiLower (c : Char) : toAsciiLower (toAsciiLower c) = toAsciiLower c := by
  by_cases h : 'A' ≤ c ∧ c ≤ 'Z'
  · have hlow := toNat_toAsciiLower h
    have hge : 65 ≤ c.toNat := UInt32.le_iff_toNat_le.mp h.1
    refine if_neg fun h' => ?_
    have hle : (toAsciiLower c).toNat ≤ 90 := UInt32.le_iff_toNat_le.mp h'.2
    omega
  · have hc : toAsciiLower c = c := if_neg h
    rw [hc, hc]

theorem tokens_lower (text : List Char) : tokens (text.map toAsciiLower) = tokens text := by
  fun_induction tokens text with
  | case1 => exact tokens_nil
  | case2 c text hc ih =>
    have hlow : (toAsciiLower c).isDigit = true := (isDigit_lower c).trans hc
    have hdig : digitsOf (toAsciiLower c) hlow (text.map toAsciiLower) = digitsOf c hc text :=
      Digits.ext (takeWhile_lower (c :: text))
    rw [map_cons, tokens_digit hlow, hdig, ← map_cons, dropWhile_lower, ih]
  | case3 c text hc ih =>
    have hlow : (toAsciiLower c).isDigit = false := (isDigit_lower c).trans (Bool.eq_false_iff.mpr hc)
    rw [map_cons, tokens_char hlow, toAsciiLower_toAsciiLower, ih]

/-- The text of a token, in lower case. -/
def Token.text : Token → List Char
  | .number digits => digits.chars
  | .char c => [c]

theorem text_tokens (text : List Char) : (tokens text).flatMap Token.text = text.map toAsciiLower := by
  fun_induction tokens text with
  | case1 => rfl
  | case2 c text hc ih =>
    have hrun := (takeWhile_lower (c :: text)).symm
    rw [flatMap_cons, ih, ← dropWhile_lower]
    show (c :: text).takeWhile _ ++ _ = _
    rw [hrun, takeWhile_append_dropWhile]
  | case3 c text hc ih =>
    rw [flatMap_cons, ih]
    rfl

/-- Names have the same tokens when they are equal in lower case. -/
theorem tokens_eq_iff : tokens a = tokens b ↔ eqIgnoreAsciiCase a b = true := by
  rw [eqIgnoreAsciiCase, beq_iff_eq]
  refine ⟨fun h => ?_, fun h => ?_⟩
  · rw [← text_tokens, h, text_tokens]
  · rw [← tokens_lower, h, tokens_lower]

/-! ## Names in a circle -/

/-- Three numbers, one of which does not fit and comes between the two others as text. -/
inductive Snagged : Token → Token → Token → Prop
  | numbers {a b c : Digits} : Pinched a b c ∨ Pinched b c a ∨ Pinched c a b → Snagged (.number a) (.number b) (.number c)

theorem numbers_of_lt {a b : Token} (hrank : a.rank = b.rank) (hruns : compareRuns a.chars b.chars = .lt) :
    ∃ n m, a = .number n ∧ b = .number m := by
  have hzero : '0'.toNat = 48 := rfl
  cases a with
  | number n =>
    cases b with
    | number m => exact ⟨n, m, rfl, rfl⟩
    | char c =>
      simp only [Token.rank] at hrank
      omega
  | char c =>
    cases b with
    | number m =>
      simp only [Token.rank] at hrank
      omega
    | char d => cases hruns

theorem circle_token_iff (a b c : Token) : IsCircle Token.cmp a b c ↔ Snagged a b c := by
  have hthen : IsCircle Token.cmp a b c ↔
      Alike (fun a b : Token => compare a.rank b.rank) a b c ∧ IsCircle (fun a b => compareRuns a.chars b.chars) a b c :=
    IsTournament.circle_order_then_iff a b c
  refine hthen.trans ⟨fun h => ?_, ?_⟩
  · obtain ⟨⟨hab, hbc, -⟩, hcir⟩ := h
    obtain ⟨n, m, rfl, rfl⟩ := numbers_of_lt (Nat.compare_eq_eq.mp hab) hcir.1
    obtain ⟨-, k, -, rfl⟩ := numbers_of_lt (Nat.compare_eq_eq.mp hbc) hcir.2.1
    exact .numbers ((circle_runs_iff n m k).mp hcir)
  · rintro ⟨h⟩
    exact ⟨⟨Nat.compare_eq_eq.mpr rfl, Nat.compare_eq_eq.mpr rfl, Nat.compare_eq_eq.mpr rfl⟩, (circle_runs_iff _ _ _).mpr h⟩

/-- Names whose first tokens that are not all equal are numbers in a circle. -/
def Tangled (a b c : List Char) : Prop := First (fun a b c => a = b ∧ b = c) Snagged (tokens a) (tokens b) (tokens c)

theorem circle_tokens_iff (a b c : List Char) :
    IsCircle (fun a b => List.compareLex Token.cmp (tokens a) (tokens b)) a b c ↔ Tangled a b c :=
  (Token.isTournament.circle_list_iff _ _ _).trans (First.iff Token.alike_iff circle_token_iff _ _ _)

instance : Std.LawfulEqCmp Token.cmp where
  compare_self := Token.isTournament.self _
  eq_of_compare := Token.eq_of_cmp

theorem naturalSortNoTiebreak_eq (a b : List Char) : naturalSortNoTiebreak a b = List.compareLex Token.cmp (tokens a) (tokens b) := by
  rw [naturalSortNoTiebreak]
  by_cases h : eqIgnoreAsciiCase a b = true
  · rw [if_pos h, tokens_eq_iff.mpr h]
    exact (Token.isTournament.list.self _).symm
  · rw [if_neg h, naturalSort_eq, then_of_ne fun heq => h (tokens_eq_iff.mp (Std.LawfulEqCmp.eq_of_compare heq))]

theorem naturalSortNoTiebreak_isTournament : IsTournament naturalSortNoTiebreak := by
  rw [funext₂ naturalSortNoTiebreak_eq]
  exact Token.isTournament.list.comap _

theorem naturalSort_isTournament : IsTournament naturalSort := by
  rw [funext₂ naturalSort_eq]
  exact (Token.isTournament.list.comap _).thenCmp .of_transCmp

theorem naturalSort_eq_iff : naturalSort a b = .eq ↔ a = b := by
  refine ⟨fun h => ?_, fun h => h ▸ naturalSort_isTournament.self a⟩
  rw [naturalSort_eq] at h
  exact (Std.LawfulEqOrd.eq_of_compare (Ordering.then_eq_eq.mp h).2).symm

theorem naturalSortNoTiebreak_eq_iff : naturalSortNoTiebreak a b = .eq ↔ a.map toAsciiLower = b.map toAsciiLower := by
  rw [naturalSortNoTiebreak_eq, Std.LawfulEqCmp.compare_eq_iff_eq, tokens_eq_iff, eqIgnoreAsciiCase, beq_iff_eq]

theorem circle_naturalSort_iff (a b c : List Char) : IsCircle naturalSort a b c ↔ Tangled a b c := by
  rw [funext₂ naturalSort_eq, (Token.isTournament.list.comap _).circle_then_order_iff, circle_tokens_iff]

theorem circle_naturalSortNoTiebreak_iff (a b c : List Char) : IsCircle naturalSortNoTiebreak a b c ↔ Tangled a b c := by
  rw [funext₂ naturalSortNoTiebreak_eq, circle_tokens_iff]

end Wu.Util
