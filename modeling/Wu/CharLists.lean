import Wu.Strings

/-!
# Text as a list of characters

The operations of the standard library on text that is looked at character by character: white space around it, splitting at a
pattern or at a character from the end, and numbers.
-/

namespace Wu.CharLists

open List Option

open Strings (isWhitespace)

/-! ## White space -/

/-- `str::trim_start`. -/
def trimStart (text : List Char) : List Char := text.dropWhile isWhitespace

/-- `str::trim_end`. -/
def trimEnd (text : List Char) : List Char := (text.reverse.dropWhile isWhitespace).reverse

/-- `str::trim`. -/
def trim (text : List Char) : List Char := trimEnd (trimStart text)

variable {c delimiter : Char} {n bound : Nat} {pattern : List Char}

/-- White space in front of anything else is all that is cut off. -/
theorem trimStart_append_cons (hc : isWhitespace c = false) (front rest : List Char) :
    trimStart (front ++ c :: rest) = trimStart front ++ c :: rest := by
  induction front with
  | nil => exact dropWhile_cons_of_neg (by rw [hc]; exact Bool.false_ne_true)
  | cons x front ih =>
    by_cases hx : isWhitespace x
    · rw [trimStart, trimStart, cons_append, dropWhile_cons_of_pos hx, dropWhile_cons_of_pos hx]
      exact ih
    · rw [trimStart, trimStart, cons_append, dropWhile_cons_of_neg hx, dropWhile_cons_of_neg hx, cons_append]

theorem trimStart_append {text : List Char} (h : ∃ c ∈ text, isWhitespace c = false) (rest : List Char) :
    trimStart (text ++ rest) = trimStart text ++ rest := by
  obtain ⟨c, hmem, hc⟩ := h
  obtain ⟨-, -, rfl⟩ := append_of_mem hmem
  rw [append_assoc, cons_append, trimStart_append_cons hc, trimStart_append_cons hc, append_assoc, cons_append]

theorem trimStart_of_head {text : List Char} (h : ∀ c ∈ text.head?, isWhitespace c = false) : trimStart text = text := by
  cases text with
  | nil => rfl
  | cons c text => exact dropWhile_cons_of_neg (by rw [h c rfl]; exact Bool.false_ne_true)

theorem head?_trimStart {text : List Char} : ∀ c ∈ (trimStart text).head?, isWhitespace c = false := by
  intro c hc
  have hnot := List.head?_dropWhile_not isWhitespace text
  rw [show (text.dropWhile isWhitespace).head? = some c from hc] at hnot
  exact hnot

theorem trimStart_suffix (text : List Char) : trimStart text <:+ text := dropWhile_suffix _

theorem trimEnd_of_getLast {text : List Char} (h : ∀ c ∈ text.getLast?, isWhitespace c = false) : trimEnd text = text := by
  have hrev : trimStart text.reverse = text.reverse := trimStart_of_head (by rwa [List.head?_reverse])
  exact (congrArg _ hrev).trans text.reverse_reverse

/-! ## Splitting -/

/-- `str::split_once`: what is before and behind the first place where the pattern stands. -/
def splitOnce (pattern : List Char) : List Char → Option (List Char × List Char)
  | [] => if pattern = [] then some ([], []) else none
  | c :: text =>
    if pattern <+: c :: text then some ([], (c :: text).drop pattern.length)
    else (splitOnce pattern text).map fun (before, after) => (c :: before, after)

/-- `str::rsplit_once` at a character: what is before and behind the last place where it stands. -/
def rsplitOnce (delimiter : Char) : List Char → Option (List Char × List Char)
  | [] => none
  | c :: text =>
    match rsplitOnce delimiter text with
    | some (before, after) => some (c :: before, after)
    | none => if c = delimiter then some ([], text) else none

/-- `str::rsplitn`: at most `n` pieces, from the end; the last of them holds what is left. -/
def rsplitn : Nat → Char → List Char → List (List Char)
  | 0, _, _ => []
  | 1, _, text => [text]
  | n + 2, delimiter, text =>
    match rsplitOnce delimiter text with
    | some (before, after) => after :: rsplitn (n + 1) delimiter before
    | none => [text]

theorem rsplitn_none {text : List Char} (h : rsplitOnce delimiter text = none) : rsplitn (n + 2) delimiter text = [text] := by
  rw [rsplitn, h]

theorem rsplitn_some {text before after : List Char} (h : rsplitOnce delimiter text = some (before, after)) :
    rsplitn (n + 2) delimiter text = after :: rsplitn (n + 1) delimiter before := by
  rw [rsplitn, h]

theorem splitOnce_spec {text before after : List Char} (h : splitOnce pattern text = some (before, after)) :
    text = before ++ (pattern ++ after) := by
  induction text generalizing before with
  | nil =>
    by_cases hpat : pattern = []
    · rw [splitOnce, if_pos hpat] at h
      cases h
      rw [hpat]
      rfl
    · rw [splitOnce, if_neg hpat] at h
      cases h
  | cons c text ih =>
    by_cases hpat : pattern <+: c :: text
    · rw [splitOnce, if_pos hpat] at h
      cases h
      exact (prefix_iff_eq_append.mp hpat).symm
    · rw [splitOnce, if_neg hpat, map_eq_some_iff] at h
      obtain ⟨⟨before', after'⟩, hrest, heq⟩ := h
      cases heq
      rw [ih hrest, cons_append]

/-- Text behind does not move the first place where the pattern stands. -/
theorem splitOnce_append {text before after : List Char} (h : splitOnce pattern text = some (before, after))
    (rest : List Char) : splitOnce pattern (text ++ rest) = some (before, after ++ rest) := by
  induction text generalizing before with
  | nil =>
    by_cases hpat : pattern = []
    · rw [splitOnce, if_pos hpat] at h
      cases h
      subst hpat
      cases rest with
      | nil => rfl
      | cons c rest => rfl
    · rw [splitOnce, if_neg hpat] at h
      cases h
  | cons c text ih =>
    rw [cons_append, splitOnce]
    by_cases hpat : pattern <+: c :: text
    · rw [splitOnce, if_pos hpat] at h
      cases h
      rw [if_pos (show pattern <+: c :: (text ++ rest) from hpat.trans (prefix_append _ rest)),
        ← cons_append, drop_append_of_le_length hpat.length_le]
    · rw [splitOnce, if_neg hpat, map_eq_some_iff] at h
      obtain ⟨⟨before', after'⟩, hrest, heq⟩ := h
      cases heq
      have hlen : pattern.length ≤ text.length := by
        have hlen := congrArg List.length (splitOnce_spec hrest)
        rw [length_append, length_append] at hlen
        omega
      have hnot : ¬pattern <+: c :: (text ++ rest) := by
        exact fun hpre => hpat (prefix_of_prefix_length_le hpre (prefix_append _ rest) (Nat.le_succ_of_le hlen))
      rw [if_neg hnot, ih hrest]
      rfl

theorem splitOnce_char {separator : Char} {head : List Char} (h : separator ∉ head) (tail : List Char) :
    splitOnce [separator] (head ++ separator :: tail) = some (head, tail) := by
  induction head with
  | nil => exact if_pos (prefix_append _ tail)
  | cons c head ih =>
    rw [mem_cons, not_or] at h
    have hnot : ¬[separator] <+: c :: (head ++ separator :: tail) := fun hpre => h.1 (cons_prefix_cons.mp hpre).1
    rw [cons_append, splitOnce, if_neg hnot, ih h.2]
    rfl

/-- A pattern stands somewhere in a text that it ends. -/
theorem exists_splitOnce (pattern before : List Char) : ∃ found, splitOnce pattern (before ++ pattern) = some found := by
  induction before with
  | nil =>
    cases pattern with
    | nil => exact ⟨_, rfl⟩
    | cons c pattern => exact ⟨_, if_pos prefix_rfl⟩
  | cons c before ih =>
    obtain ⟨found, hfnd⟩ := ih
    rw [cons_append, splitOnce]
    by_cases hpat : pattern <+: c :: (before ++ pattern)
    · exact ⟨_, if_pos hpat⟩
    · exact ⟨_, by rw [if_neg hpat, hfnd]; rfl⟩

theorem rsplitOnce_eq_none {text : List Char} : rsplitOnce delimiter text = none ↔ delimiter ∉ text := by
  induction text with
  | nil => exact ⟨fun _ => not_mem_nil, fun _ => rfl⟩
  | cons c text ih =>
    rw [rsplitOnce, mem_cons, not_or, ← ih]
    cases hrest : rsplitOnce _ text with
    | some found => exact ⟨fun h => (some_ne_none _ h).elim, fun h => (some_ne_none _ h.2).elim⟩
    | none =>
      by_cases hc : c = delimiter
      · exact ⟨fun h => absurd ((if_pos hc).symm.trans h) (some_ne_none _), fun h => absurd hc.symm h.1⟩
      · exact ⟨fun _ => ⟨Ne.symm hc, rfl⟩, fun _ => if_neg hc⟩

theorem rsplitOnce_append {after : List Char} (h : delimiter ∉ after) (before : List Char) :
    rsplitOnce delimiter (before ++ delimiter :: after) = some (before, after) := by
  induction before with
  | nil =>
    rw [nil_append, rsplitOnce, rsplitOnce_eq_none.mpr h]
    exact if_pos rfl
  | cons c before ih => rw [cons_append, rsplitOnce, ih]

theorem rsplitOnce_spec {text before after : List Char}
    (h : rsplitOnce delimiter text = some (before, after)) : text = before ++ delimiter :: after ∧ delimiter ∉ after := by
  induction text generalizing before with
  | nil => cases h
  | cons c text ih =>
    rw [rsplitOnce] at h
    cases hrest : rsplitOnce _ text with
    | some found =>
      rw [hrest] at h
      cases h
      obtain ⟨htext, haft⟩ := ih hrest
      exact ⟨congrArg _ htext, haft⟩
    | none =>
      rw [hrest] at h
      by_cases hc : c = delimiter
      · rw [if_pos hc] at h
        cases h
        exact ⟨congrArg (· :: _) hc, rsplitOnce_eq_none.mp hrest⟩
      · rw [if_neg hc] at h
        cases h

/-! ## Numbers -/

/-- A text without a plus sign in front. -/
def withoutPlus : List Char → List Char
  | '+' :: rest => rest
  | text => text

/-- `str::parse` to an unsigned integer below a bound. -/
def parseUnsigned (bound : Nat) (text : List Char) : Option Nat :=
  (Strings.parseDigits (withoutPlus text)).filter (· < bound)

theorem mem_withoutPlus {text : List Char} (hc : c ∈ text) (hsign : c ≠ '+') : c ∈ withoutPlus text := by
  unfold withoutPlus
  split
  · exact (mem_cons.mp hc).resolve_left hsign
  · exact hc

theorem withoutPlus_of_notMem {text : List Char} (h : '+' ∉ text) : withoutPlus text = text := by
  unfold withoutPlus
  split
  · exact absurd mem_cons_self h
  · rfl

/-- `str::parse` to a `u32`. -/
def parseU32 (text : List Char) : Option Nat := parseUnsigned (2 ^ 32) text

/-- What is no sign in front and no digit is in no number. -/
theorem parseUnsigned_eq_none {text : List Char} (hc : c ∈ text) (hsign : c ≠ '+')
    (hdigit : c.isDigit = false) : parseUnsigned bound text = none := by
  have hall : (withoutPlus text).all Char.isDigit = false :=
    all_eq_false.mpr ⟨c, mem_withoutPlus hc hsign, by rw [hdigit]; exact Bool.false_ne_true⟩
  rw [parseUnsigned, Strings.parseDigits, hall, Bool.not_false, Bool.or_true]
  rfl

/-- A number that is printed is read, when it is below the bound. -/
theorem parseUnsigned_toDigits_eq (bound n : Nat) : parseUnsigned bound (Nat.toDigits 10 n) = if n < bound then some n else none := by
  have hall : (Nat.toDigits 10 n).all Char.isDigit = true :=
    all_eq_true.mpr fun c hc => Nat.isDigit_of_mem_toDigits (by decide) (by decide) hc
  have hpar : Strings.parseDigits (Nat.toDigits 10 n) = some n := by
    have hval : (Nat.toDigits 10 n).foldl (fun m c => m * 10 + (c.toNat - '0'.toNat)) 0 = n := by
      have hfold := Nat.ofDigitChars_ten_toDigits (n := n)
      rw [Nat.ofDigitChars_eq_foldl] at hfold
      simpa only [Nat.mul_comm] using hfold
    rw [Strings.parseDigits, hall, isEmpty_eq_false_iff.mpr Nat.toDigits_ne_nil]
    exact congrArg some hval
  have hplus : '+' ∉ Nat.toDigits 10 n := fun hmem => absurd (all_eq_true.mp hall '+' hmem) (by decide)
  rw [parseUnsigned, withoutPlus_of_notMem hplus, hpar, filter_some]
  simp

/-- A number that is printed is read back. -/
theorem parseUnsigned_toDigits (h : n < bound) : parseUnsigned bound (Nat.toDigits 10 n) = some n := by
  rw [parseUnsigned_toDigits_eq, if_pos h]

end Wu.CharLists
