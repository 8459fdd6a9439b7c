import Mathlib.Data.List.Basic
import Mathlib.Order.Lattice

/-!
# Text as bytes

A string is the list of its bytes, since every offset of the text crate counts bytes. `Str.Valid` is what the chunking of
long insertions needs of UTF-8: at most three continuation bytes in a row. `normalize` is `LineEnding::normalize`.
-/

namespace Wu

/-- The bytes of a string. -/
abbrev Text := List UInt8

namespace Text

/-- The byte of a carriage return. -/
def carriageReturn : UInt8 := 13

/-- The byte of a line feed. -/
def lineFeed : UInt8 := 10

/-- `\r\n` and `\r` become `\n`. -/
def normalize : Text → Text
  | [] => []
  | [byte] => if byte = carriageReturn then [lineFeed] else [byte]
  | byte :: next :: rest =>
    if byte = carriageReturn then
      if next = lineFeed then lineFeed :: normalize rest else lineFeed :: normalize (next :: rest)
    else byte :: normalize (next :: rest)

/-- A byte inside the encoding of a character. -/
def isContinuation (byte : UInt8) : Bool := byte &&& 0xC0 == 0x80

/-- Whether a character starts at an offset, or the text ends there. -/
def isCharBoundary (text : Text) (index : Nat) : Bool :=
  index == 0 || match text[index]? with
    | some byte => !isContinuation byte
    | none => index == text.length

/-- The largest boundary that is not past an offset inside the text. -/
def floorBoundary (text : Text) : Nat → Nat
  | 0 => 0
  | index + 1 => if isCharBoundary text (index + 1) then index + 1 else floorBoundary text index

/-- The largest boundary that is not past an offset. -/
def floorCharBoundary (text : Text) (index : Nat) : Nat :=
  if index ≥ text.length then text.length else floorBoundary text index

/-- At most three continuation bytes in a row, after `run` of them. -/
def validFrom : Nat → Text → Bool
  | _, [] => true
  | run, byte :: text =>
    if isContinuation byte then run < 3 && validFrom (run + 1) text else validFrom 0 text

/-- At most three continuation bytes in a row, as in every UTF-8 string. -/
def Valid (text : Text) : Prop := validFrom 0 text = true

instance (text : Text) : Decidable (Valid text) := inferInstanceAs (Decidable (_ = true))

theorem validFrom_cons {run : Nat} {byte : UInt8} {text : Text} : validFrom run (byte :: text) = true ↔
      if isContinuation byte then run < 3 ∧ validFrom (run + 1) text = true else validFrom 0 text = true := by
  rw [validFrom]
  split
  · rw [Bool.and_eq_true, decide_eq_true_eq]
  · exact Iff.rfl

/-- In a valid text, one of any four bytes in a row is not a continuation byte. -/
theorem validFrom_window {run index : Nat} {text : Text} (h : validFrom run text = true) (hi : index < text.length) :
    (∃ j byte, j ≤ index ∧ index < j + 4 ∧ text[j]? = some byte ∧ isContinuation byte = false) ∨ run + index < 3 := by
  induction text generalizing run index with
  | nil => nomatch hi
  | cons byte text ih =>
    rw [validFrom_cons] at h
    have hhere : isContinuation byte = false → index < 4 →
        ∃ j byte', j ≤ index ∧ index < j + 4 ∧ (byte :: text)[j]? = some byte' ∧ isContinuation byte' = false :=
      fun hb hlt => ⟨0, byte, by omega, by omega, rfl, hb⟩
    cases index with
    | zero =>
      cases hb : isContinuation byte with
      | false => exact .inl (hhere hb (by omega))
      | true =>
        rw [if_pos hb] at h
        exact .inr (by omega)
    | succ index =>
      have hi' : index < text.length := by simpa using hi
      cases hb : isContinuation byte with
      | false =>
        rw [if_neg (by simp [hb])] at h
        rcases ih h hi' with ⟨j, byte', hj, hj', hget, hcont⟩ | hlt
        · exact .inl ⟨j + 1, byte', by omega, by omega, by simpa using hget, hcont⟩
        · exact .inl (hhere hb (by omega))
      | true =>
        rw [if_pos hb] at h
        rcases ih h.2 hi' with ⟨j, byte', hj, hj', hget, hcont⟩ | hlt
        · exact .inl ⟨j + 1, byte', by omega, by omega, by simpa using hget, hcont⟩
        · exact .inr (by omega)

theorem floorBoundary_le (text : Text) (index : Nat) : floorBoundary text index ≤ index := by
  induction index with
  | zero => exact le_rfl
  | succ index ih =>
    unfold floorBoundary
    split
    · exact le_rfl
    · omega

/-- The floor is at least every boundary that is not past the offset. -/
theorem le_floorBoundary {text : Text} {index j : Nat} (hj : j ≤ index) (hb : isCharBoundary text j = true) :
    j ≤ floorBoundary text index := by
  induction index with
  | zero => exact hj
  | succ index ih =>
    unfold floorBoundary
    split
    · exact hj
    · rename_i hne
      refine ih (Nat.le_of_lt_succ (lt_of_le_of_ne hj ?_))
      rintro rfl
      exact hne hb

theorem floorCharBoundary_le_length (text : Text) (index : Nat) : floorCharBoundary text index ≤ text.length := by
  unfold floorCharBoundary
  split
  · exact le_rfl
  · exact (floorBoundary_le text _).trans (by omega)

/-- A boundary is its own floor. -/
theorem floorCharBoundary_eq {text : Text} {index : Nat} (hi : index ≤ text.length)
    (hb : isCharBoundary text index = true) : floorCharBoundary text index = index := by
  unfold floorCharBoundary
  split
  · omega
  · exact Nat.le_antisymm (floorBoundary_le text _) (le_floorBoundary le_rfl hb)

/-- In a valid text, the floor goes back at most three bytes. -/
theorem Valid.lt_floorCharBoundary {text : Text} (h : Valid text) {index : Nat} (hi : index < text.length)
    (h4 : 4 ≤ index) : index < floorCharBoundary text index + 4 := by
  unfold floorCharBoundary
  rw [if_neg (by omega)]
  rcases validFrom_window h hi with ⟨j, byte, hj, hj', hget, hcont⟩ | hlt
  · have hb : isCharBoundary text j = true := by simp [isCharBoundary, hget, hcont]
    have := le_floorBoundary hj hb
    omega
  · omega

end Text

end Wu
