import Wu.Rope.Str

/-!
# Decoding UTF-8

Bytes are decoded character by character. What is left when there are no more characters tells whether the bytes are wrong there or
only end too early.
-/

namespace Wu.Utf8

open List

open String (utf8EncodeChar)

/-! ## One character -/

/-- The character that bytes begin with. -/
def firstChar (bytes : List UInt8) : Option Char := bytes.toByteArray.utf8DecodeChar? 0

theorem firstChar_append (c : Char) (rest : List UInt8) : firstChar (utf8EncodeChar c ++ rest) = some c := by
  rw [firstChar, toByteArray_append, ByteArray.utf8DecodeChar?_utf8EncodeChar_append]

variable {bytes : List UInt8} {c : Char}

theorem firstChar_spec (h : firstChar bytes = some c) : bytes = utf8EncodeChar c ++ bytes.drop c.utf8Size := by
  obtain ⟨rest, hrest⟩ := ByteArray.exists_of_utf8DecodeChar?_eq_some h
  have hbyte : bytes = utf8EncodeChar c ++ rest.data.toList := by
    have hlist := congrArg (fun array => array.data.toList) hrest
    simpa using hlist
  have hdrop : bytes.drop c.utf8Size = rest.data.toList := by
    rw [hbyte, ← String.length_utf8EncodeChar, drop_left]
  rw [hdrop]
  exact hbyte

theorem firstChar_nil : firstChar [] = none := by decide +kernel

theorem length_drop_lt (h : firstChar bytes = some c) : (bytes.drop c.utf8Size).length < bytes.length := by
  have hlen := congrArg List.length (firstChar_spec h)
  have hpos := c.utf8Size_pos
  rw [length_append, String.length_utf8EncodeChar] at hlen
  omega

/-! ## What is wrong with bytes -/

/-- `utf8_char_width`: how many bytes a character takes whose encoding begins with a byte. -/
def charWidth (byte : UInt8) : Nat :=
  if byte < 0x80 then 1
  else if 0xC2 ≤ byte ∧ byte ≤ 0xDF then 2
  else if 0xE0 ≤ byte ∧ byte ≤ 0xEF then 3
  else if 0xF0 ≤ byte ∧ byte ≤ 0xF4 then 4
  else 0

def isContinuation (byte : UInt8) : Bool := 0x80 ≤ byte && byte ≤ 0xBF

/-- Whether a byte may come second behind a first one. -/
def isSecond (first second : UInt8) : Bool :=
  if first = 0xE0 then 0xA0 ≤ second && second ≤ 0xBF
  else if first = 0xED then 0x80 ≤ second && second ≤ 0x9F
  else if first = 0xF0 then 0x90 ≤ second && second ≤ 0xBF
  else if first = 0xF4 then 0x80 ≤ second && second ≤ 0x8F
  else isContinuation second

/-- `Utf8Error::error_len` where bytes begin with no character: how many of them are wrong, or `none` when the bytes end within a
character. -/
def errorLen : List UInt8 → Option Nat
  | [] => none
  | [first] => if charWidth first < 2 then some 1 else none
  | [first, second] => if charWidth first < 2 ∨ isSecond first second = false then some 1 else none
  | [first, second, third] =>
    if charWidth first < 2 ∨ isSecond first second = false then some 1
    else if isContinuation third = false then some 2
    else none
  | first :: second :: third :: _ :: _ =>
    if charWidth first < 2 ∨ isSecond first second = false then some 1
    else if isContinuation third = false then some 2
    else some 3

/-- Only few bytes are a part of a character. -/
theorem length_of_errorLen (h : errorLen bytes = none) : bytes.length ≤ 3 := by
  match bytes with
  | [] => exact Nat.zero_le _
  | [_] => exact Nat.le_add_left _ _
  | [_, _] => exact Nat.le_add_left _ _
  | [_, _, _] => exact le_rfl
  | first :: second :: third :: fourth :: rest =>
    rw [errorLen] at h
    split at h
    · cases h
    · split at h <;> cases h

theorem errorLen_pos {n : Nat} (h : errorLen bytes = some n) : 0 < n ∧ bytes ≠ [] := by
  match bytes with
  | [] => cases h
  | [_] | [_, _] | [_, _, _] | _ :: _ :: _ :: _ :: _ =>
    rw [errorLen] at h
    refine ⟨?_, cons_ne_nil _ _⟩
    split_ifs at h <;> cases h <;> decide

/-! ## Texts -/

/-- The characters that bytes begin with, and the bytes behind them. -/
def scan (bytes : List UInt8) : List Char × List UInt8 :=
  match _h : firstChar bytes with
  | some c => (c :: (scan (bytes.drop c.utf8Size)).1, (scan (bytes.drop c.utf8Size)).2)
  | none => ([], bytes)
termination_by bytes.length
decreasing_by all_goals exact length_drop_lt _h

structure Utf8Error where
  validUpTo : Nat
  errorLen : Option Nat
  deriving DecidableEq, Repr

/-- `str::from_utf8`. -/
def fromUtf8 (bytes : List UInt8) : Except Utf8Error (List Char) :=
  if (scan bytes).2 = [] then .ok (scan bytes).1
  else .error ⟨bytes.length - (scan bytes).2.length, errorLen (scan bytes).2⟩

/-- The text of bytes, where a replacement character stands for what is wrong. -/
def lossy (bytes : List UInt8) : List Char :=
  match _h : firstChar bytes with
  | some c => c :: lossy (bytes.drop c.utf8Size)
  | none =>
    if bytes = [] then []
    else
      match _herror : errorLen bytes with
      | some n => '\uFFFD' :: lossy (bytes.drop n)
      | none => ['\uFFFD']
termination_by bytes.length
decreasing_by
  · exact length_drop_lt _h
  · obtain ⟨hpos, hne⟩ := errorLen_pos _herror
    have hlen := length_pos_of_ne_nil hne
    rw [length_drop]
    omega

example : lossy [0x61, 0xE2, 0x82, 0x62, 0xF0, 0x9F] = ['a', '\uFFFD', 'b', '\uFFFD'] := by decide +kernel

theorem scan_some (h : firstChar bytes = some c) :
    scan bytes = (c :: (scan (bytes.drop c.utf8Size)).1, (scan (bytes.drop c.utf8Size)).2) := by
  rw [scan]
  split
  · rename_i heq
    rw [h] at heq
    cases heq
    rfl
  · rename_i heq
    rw [h] at heq
    cases heq

theorem scan_none (h : firstChar bytes = none) : scan bytes = ([], bytes) := by
  rw [scan]
  split
  · rename_i heq
    rw [h] at heq
    cases heq
  · rfl

/-- The bytes are those of the characters, and what is left. -/
theorem scan_spec (bytes : List UInt8) : bytes = Str.asBytes (scan bytes).1 ++ (scan bytes).2 := by
  fun_induction scan bytes with
  | case1 bytes c hc ih =>
    rw [Str.asBytes, flatMap_cons, append_assoc]
    have hfst := firstChar_spec hc
    rw [ih] at hfst
    exact hfst
  | case2 bytes hnone => rfl

theorem drop_utf8Size (c : Char) (rest : List UInt8) : (utf8EncodeChar c ++ rest).drop c.utf8Size = rest := by
  rw [← String.length_utf8EncodeChar, drop_left]

theorem scan_append (text : List Char) (rest : List UInt8) :
    scan (Str.asBytes text ++ rest) = (text ++ (scan rest).1, (scan rest).2) := by
  induction text with
  | nil => rfl
  | cons c text ih =>
    rw [Str.asBytes, flatMap_cons, append_assoc, scan_some (firstChar_append c _), drop_utf8Size]
    show (c :: (scan (Str.asBytes text ++ rest)).1, (scan (Str.asBytes text ++ rest)).2) = _
    rw [ih]
    rfl

theorem scan_nil : scan [] = ([], []) := scan_none firstChar_nil

/-- Bytes are the text that they encode. -/
theorem fromUtf8_asBytes (text : List Char) : fromUtf8 (Str.asBytes text) = .ok text := by
  have hscan := scan_append text []
  rw [append_nil, scan_nil, append_nil] at hscan
  rw [fromUtf8, hscan]
  rfl

theorem fromUtf8_ok {text : List Char} (h : fromUtf8 bytes = .ok text) : bytes = Str.asBytes text := by
  rw [fromUtf8] at h
  split at h
  · rename_i hnil
    cases h
    have hspec := scan_spec bytes
    rwa [hnil, append_nil] at hspec
  · cases h

theorem lossy_asBytes (text : List Char) : lossy (Str.asBytes text) = text := by
  induction text with
  | nil => decide +kernel
  | cons c text ih =>
    have hfst : firstChar (Str.asBytes (c :: text)) = some c := firstChar_append c _
    rw [lossy]
    split
    · rename_i heq
      rw [hfst] at heq
      cases heq
      have hdrop : (Str.asBytes (c :: text)).drop c.utf8Size = Str.asBytes text := drop_utf8Size c _
      rw [hdrop, ih]
    · rename_i heq
      rw [hfst] at heq
      cases heq

end Wu.Utf8
