import Wu.Bits
import Wu.Rope.TextSummary

/-!
# Chunks

`chunk.rs` of the `rope` crate: a chunk holds at most 128 bytes of text, with one bitmap of 128 bits for its characters, one
for its UTF-16 code units, one for its line feeds and one for its tabs. `ChunkSlice.of text` is the slice with the bitmaps of
a text; every operation of the source is shown to give it again.

An operation is `none` where the source panics: where a string is cut inside a character, or where a text does not fit.
-/

namespace Wu

open List BitVec

open Bits

/-- `type Bitmap`. -/
abbrev Bitmap := BitVec 128

/-- `const MAX_BASE`. -/
def maxBase : Nat := 128

/-- `const MIN_BASE`. -/
def minBase : Nat := maxBase / 2

/-- `heapless::String<MAX_BASE>`: a string of at most that many bytes. -/
structure ArrayString where
  str : Str
  fits : str.len ≤ maxBase

namespace ArrayString

/-- `String::new`. -/
def new : ArrayString := ⟨[], Nat.zero_le _⟩

/-- `String::push_str`: `none` where it does not fit. -/
def pushStr (s : ArrayString) (text : Str) : Option ArrayString :=
  if h : (s.str ++ text).len ≤ maxBase then some ⟨s.str ++ text, h⟩ else none

/-- `str::len`. -/
def len (s : ArrayString) : Nat := s.str.len

end ArrayString

/-- `struct Chunk`. -/
structure Chunk where
  chars : Bitmap
  charsUtf16 : Bitmap
  newlines : Bitmap
  tabs : Bitmap
  text : ArrayString

/-- `struct ChunkSlice`. -/
structure ChunkSlice where
  chars : Bitmap
  charsUtf16 : Bitmap
  newlines : Bitmap
  tabs : Bitmap
  text : Str

/-! ## Building and joining chunks -/

/-- `util::is_utf8_char_boundary`. -/
def isUtf8CharBoundary (b : UInt8) : Bool := b.toInt8 ≥ -0x40

/-- The bytes of a text by eights, as the loop of `Chunk::new` splits them off. -/
def pieces : List UInt8 → List (List UInt8)
  | [] => []
  | b :: bytes => (b :: bytes).take 8 :: pieces ((b :: bytes).drop 8)
termination_by bytes => bytes.length

/-- The flags of the bytes of a piece: `bits |= (flag(b) as u8) << ix`. -/
def pieceBits (flag : UInt8 → Bool) (piece : List UInt8) : BitVec 8 :=
  piece.zipIdx.foldl (fun bits (b, ix) => bits ||| (BitVec.ofBool (flag b)).setWidth 8 <<< ix) 0

/-- `Bitmap::from_le_bytes`, of an array that is zero from the end of the list on. -/
def fromLeBytes : List (BitVec 8) → Bitmap
  | [] => 0
  | byte :: bytes => byte.setWidth 128 ||| fromLeBytes bytes <<< 8

namespace Chunk

/-- `Chunk::new`. -/
def new (text : Str) : Option Chunk := do
  let text ← ArrayString.new.pushStr text
  let bitmap (flag : UInt8 → Bool) := fromLeBytes ((pieces text.str.asBytes).map (pieceBits flag))
  let chars := bitmap isUtf8CharBoundary
  return {
    text
    chars
    charsUtf16 := bitmap (fun b => b ≥ 240) <<< 1 ||| chars
    newlines := bitmap fun b => b == 10
    tabs := bitmap fun b => b == 9 }

/-- `Chunk::as_slice`. -/
def asSlice (chunk : Chunk) : ChunkSlice :=
  ⟨chunk.chars, chunk.charsUtf16, chunk.newlines, chunk.tabs, chunk.text.str⟩

/-- `Chunk::append`. -/
def append (chunk : Chunk) (slice : ChunkSlice) : Option Chunk :=
  if slice.text.isEmpty then some chunk
  else do
    let baseIx := chunk.text.len
    let text ← chunk.text.pushStr slice.text
    return {
      chars := chunk.chars ||| slice.chars <<< baseIx
      charsUtf16 := chunk.charsUtf16 ||| slice.charsUtf16 <<< baseIx
      newlines := chunk.newlines ||| slice.newlines <<< baseIx
      tabs := chunk.tabs ||| slice.tabs <<< baseIx
      text }

/-- `Chunk::push_str`. -/
def pushStr (chunk : Chunk) (text : Str) : Option Chunk := do
  chunk.append (← Chunk.new text).asSlice

end Chunk

namespace ChunkSlice

/-- `ChunkSlice::len`. -/
def len (slice : ChunkSlice) : Nat := slice.text.len

end ChunkSlice

/-! ## The bitmaps of a text -/

/-- The bits of a character: its first byte. -/
def charMarks (c : Char) : List Bool := true :: replicate (c.utf8Size - 1) false

/-- The bits of a character: one for each of its UTF-16 code units. -/
def utf16Marks (c : Char) : List Bool :=
  replicate (utf16Size c) true ++ replicate (c.utf8Size - utf16Size c) false

/-- The bits of a character that is looked for, or of another. -/
def byteMarks (target c : Char) : List Bool := (c == target) :: replicate (c.utf8Size - 1) false

/-- The bitmap of a text, from the bits of its characters. -/
def marks (mark : Char → List Bool) (text : Str) : Bitmap := ofList 128 (text.flatMap mark)

/-- The slice with the bitmaps of a text. -/
def ChunkSlice.of (text : Str) : ChunkSlice where
  chars := marks charMarks text
  charsUtf16 := marks utf16Marks text
  newlines := marks (byteMarks '\n') text
  tabs := marks (byteMarks '\t') text
  text := text

/-- The chunk with the bitmaps of a text. -/
def Chunk.of (text : ArrayString) : Chunk where
  chars := marks charMarks text.str
  charsUtf16 := marks utf16Marks text.str
  newlines := marks (byteMarks '\n') text.str
  tabs := marks (byteMarks '\t') text.str
  text := text

/-- A bit for each byte of a character. -/
def Marking (mark : Char → List Bool) : Prop := ∀ c, (mark c).length = c.utf8Size

theorem marking_charMarks : Marking charMarks := by
  intro c
  have := c.utf8Size_pos
  simp [charMarks]
  omega

theorem marking_utf16Marks : Marking utf16Marks := by
  intro c
  have := Str.utf16Size_le_utf8Size c
  simp [utf16Marks]
  omega

theorem marking_byteMarks (target : Char) : Marking (byteMarks target) := by
  intro c
  have := c.utf8Size_pos
  simp [byteMarks]
  omega

section Marks

variable {mark : Char → List Bool}

theorem Marking.length (h : Marking mark) (text : Str) : (text.flatMap mark).length = text.len := by
  induction text with
  | nil => rfl
  | cons c text ih => simp [h c, ih]

/-- The bitmap of two texts, one after the other. -/
theorem Marking.or_shiftLeft (h : Marking mark) (a b : Str) : marks mark a ||| marks mark b <<< a.len = marks mark (a ++ b) := by
  rw [marks, marks, ← h.length, ofList_or_shiftLeft, marks, flatMap_append]

theorem Marking.and_shlMask (h : Marking mark) (a b : Str) : marks mark (a ++ b) &&& shlMask 128 a.len = marks mark a := by
  rw [marks, ofList_and_shlMask, flatMap_append, ← h.length, take_left, marks]

theorem Marking.shiftRight (h : Marking mark) {a b : Str} (hlen : (a ++ b).len ≤ maxBase) :
    marks mark (a ++ b) >>> a.len = marks mark b := by
  rw [marks, ofList_shiftRight (by rw [h.length]; exact hlen), flatMap_append, ← h.length, drop_left, marks]

end Marks

/-! ## What `Chunk::new` builds -/

/-- A character is encoded as a byte that starts it and bytes that continue it. -/
theorem utf8EncodeChar_eq (c : Char) : ∃ b bs, String.utf8EncodeChar c = b :: bs ∧ bs.length = c.utf8Size - 1 ∧
    (∀ d ∈ bs, 128 ≤ d.toNat ∧ d.toNat < 192) ∧
      (c.utf8Size = 1 ∧ b.toNat = c.toNat ∧ c.toNat < 128 ∨ c.utf8Size ≠ 1 ∧ 192 ≤ b.toNat ∧ 128 ≤ c.toNat) ∧
      (240 ≤ b.toNat ↔ utf16Size c = 2) := by
  have hsize := String.length_utf8EncodeChar c
  have hv : c.val.toNat = c.toNat := rfl
  unfold utf16Size
  unfold String.utf8EncodeChar at hsize ⊢
  simp only [hv] at hsize ⊢
  by_cases h1 : c.toNat ≤ 0x7F
  · rw [if_pos h1] at hsize ⊢
    exact ⟨_, _, rfl, by simp at hsize ⊢; omega, by simp, .inl (by simp at hsize ⊢; omega), by simp; omega⟩
  rw [if_neg h1] at hsize ⊢
  by_cases h2 : c.toNat ≤ 0x7FF
  · rw [if_pos h2] at hsize ⊢
    exact ⟨_, _, rfl, by simp at hsize ⊢; omega, by simp; omega, .inr (by simp at hsize ⊢; omega), by simp; omega⟩
  rw [if_neg h2] at hsize ⊢
  by_cases h3 : c.toNat ≤ 0xFFFF
  · rw [if_pos h3] at hsize ⊢
    exact ⟨_, _, rfl, by simp at hsize ⊢; omega, by simp; omega, .inr (by simp at hsize ⊢; omega), by simp; omega⟩
  · rw [if_neg h3] at hsize ⊢
    exact ⟨_, _, rfl, by simp at hsize ⊢; omega, by simp; omega, .inr (by simp at hsize ⊢; omega), by simp; omega⟩

theorem pieceBits_eq (flag : UInt8 → Bool) (piece : List UInt8) : pieceBits flag piece = ofList 8 (piece.map flag) := by
  induction piece using reverseRecOn with
  | nil => simp [pieceBits]
  | append_singleton piece b ih =>
    have hbit : (BitVec.ofBool (flag b)).setWidth 8 = ofList 8 [flag b] := by
      cases flag b <;> decide
    rw [map_append, ← ofList_or_shiftLeft, ← ih]
    simp [pieceBits, zipIdx_append, hbit]

/-- The bytes of a text by eights give one bit for each byte. -/
theorem fromLeBytes_pieces (flag : UInt8 → Bool) (bytes : List UInt8) :
    fromLeBytes ((pieces bytes).map (pieceBits flag)) = ofList 128 (bytes.map flag) := by
  induction bytes using pieces.induct with
  | case1 => simp [pieces, fromLeBytes]
  | case2 b bytes ih =>
    have hwid (l : List Bool) (h : l.length ≤ 8) : (ofList 8 l).setWidth 128 = ofList 128 l := by
      refine eq_of_getLsbD ?_
      intro i hi
      simp only [getLsbD_setWidth, getLsbD_ofList, decide_eq_true hi, Bool.true_and]
      by_cases hi8 : i < 8
      · simp [hi8]
      · simp [hi8, List.getElem?_eq_none (show l.length ≤ i by omega)]
    rw [pieces, map_cons, fromLeBytes, ih, pieceBits_eq, hwid _ (by simp)]
    rcases Nat.lt_or_ge (b :: bytes).length 8 with hlen | hlen
    · rw [drop_eq_nil_of_le (by omega), take_of_length_le (by omega)]
      simp
    · have hfst : (((b :: bytes).take 8).map flag).length = 8 := by simpa using hlen
      have hjoin := ofList_or_shiftLeft (w := 128) (((b :: bytes).take 8).map flag) (((b :: bytes).drop 8).map flag)
      rwa [hfst, ← map_append, take_append_drop] at hjoin

theorem isUtf8CharBoundary_iff (b : UInt8) : isUtf8CharBoundary b = true ↔ b.toNat < 128 ∨ 192 ≤ b.toNat := by
  have hint : b.toInt8.toInt = if 2 * b.toNat < 256 then (b.toNat : Int) else (b.toNat : Int) - 256 :=
    toInt_eq_toNat_cond _
  rw [isUtf8CharBoundary, decide_eq_true_eq, ge_iff_le, Int8.le_iff_toInt_le, hint]
  have hneg : (-0x40 : Int8).toInt = -64 := by decide
  split <;> omega

/-- A flag that only the first byte of a character can raise. -/
theorem map_encode {flag : UInt8 → Bool} {c : Char} {first : Bool} {b : UInt8} {bs : List UInt8}
    (hc : String.utf8EncodeChar c = b :: bs) (hlen : bs.length = c.utf8Size - 1) (hb : flag b = first)
    (hbs : ∀ d ∈ bs, flag d = false) :
    (String.utf8EncodeChar c).map flag = first :: replicate (c.utf8Size - 1) false := by
  rw [hc, map_cons, hb, List.cons.injEq]
  exact ⟨rfl, eq_replicate_iff.mpr ⟨by simpa using hlen, by simpa using hbs⟩⟩

theorem map_isUtf8CharBoundary (c : Char) : (String.utf8EncodeChar c).map isUtf8CharBoundary = charMarks c := by
  obtain ⟨b, bs, hc, hlen, hbs, hb, -⟩ := utf8EncodeChar_eq c
  refine map_encode hc hlen ?_ ?_
  · rw [isUtf8CharBoundary_iff]
    omega
  · intro d hd
    have := hbs d hd
    rw [← Bool.not_eq_true, isUtf8CharBoundary_iff]
    omega

/-- A byte below 128 is looked for: it is a character of its own. -/
theorem map_beq (target : Char) (byte : UInt8) (hbyte : byte.toNat = target.toNat) (hlt : target.toNat < 128) (c : Char) :
    (String.utf8EncodeChar c).map (· == byte) = byteMarks target c := by
  obtain ⟨b, bs, hc, hlen, hbs, hb, -⟩ := utf8EncodeChar_eq c
  refine map_encode hc hlen ?_ ?_
  · have hchar : c = target ↔ c.toNat = target.toNat := ⟨congrArg _, fun h => Char.toNat_inj.mp h⟩
    rw [Bool.eq_iff_iff, beq_iff_eq, beq_iff_eq, hchar, ← UInt8.toNat_inj]
    omega
  · intro d hd
    have := hbs d hd
    rw [beq_eq_false_iff_ne, ne_eq, ← UInt8.toNat_inj]
    omega

/-- The bits of a character that a second UTF-16 code unit follows. -/
def pairMarks (c : Char) : List Bool := (utf16Size c == 2) :: replicate (c.utf8Size - 1) false

theorem map_ge (c : Char) : (String.utf8EncodeChar c).map (fun b => decide (b ≥ 240)) = pairMarks c := by
  obtain ⟨b, bs, hc, hlen, hbs, -, hb⟩ := utf8EncodeChar_eq c
  refine map_encode hc hlen ?_ ?_
  · rw [Bool.eq_iff_iff, beq_iff_eq, decide_eq_true_eq, ← hb]
    exact UInt8.le_iff_toNat_le
  · intro d hd
    have := hbs d hd
    rw [decide_eq_false_iff_not]
    intro hge
    have := UInt8.le_iff_toNat_le.mp hge
    simp at this
    omega

theorem marking_pairMarks : Marking pairMarks := by
  intro c
  have := c.utf8Size_pos
  simp [pairMarks]
  omega

theorem utf8Size_of_utf16Size {c : Char} (h : utf16Size c = 2) : c.utf8Size = 4 := by
  unfold utf16Size at h
  unfold Char.utf8Size
  simp only [UInt32.le_iff_toNat_le, Char.toNat_val]
  split_ifs at h ⊢ <;> simp_all <;> omega

/-- The first bits of the characters and the second ones of the pairs are the UTF-16 code units. -/
theorem marks_pairMarks (text : Str) : marks pairMarks text <<< 1 ||| marks charMarks text = marks utf16Marks text := by
  induction text with
  | nil => simp [marks]
  | cons c text ih =>
    have hchar : marks pairMarks [c] <<< 1 ||| marks charMarks [c] = marks utf16Marks [c] := by
      simp only [marks, flatMap_singleton, pairMarks, charMarks, utf16Marks]
      by_cases h : utf16Size c = 2
      · rw [utf8Size_of_utf16Size h, h]
        decide
      · have hpos := Str.utf16Size_pos c
        have hle := Str.utf16Size_le_two c
        rw [show utf16Size c = 1 by omega]
        have hzero : ofList 128 ((1 == 2) :: replicate (c.utf8Size - 1) false) = 0#128 :=
          (ofList_eq_zero (by have := c.utf8Size_le_four; simp; omega)).mpr (by simp)
        rw [hzero]
        simp
    rw [← singleton_append, ← marking_pairMarks.or_shiftLeft, ← marking_charMarks.or_shiftLeft,
      ← marking_utf16Marks.or_shiftLeft, ← hchar, ← ih]
    have hswap (x y z u : Bitmap) : x ||| y ||| (z ||| u) = x ||| z ||| (y ||| u) := by ac_rfl
    rw [shiftLeft_or_distrib, shiftLeft_or_distrib, ← shiftLeft_add, ← shiftLeft_add, hswap, Nat.add_comm]

/-- `Chunk::new` builds the bitmaps of its text. -/
theorem Chunk.new_eq (text : Str) (h : text.len ≤ maxBase) : Chunk.new text = some (Chunk.of ⟨text, h⟩) := by
  have hpush : ArrayString.new.pushStr text = some ⟨text, h⟩ := dif_pos h
  have hbits (flag : UInt8 → Bool) (mark : Char → List Bool)
      (hmark : ∀ c, (String.utf8EncodeChar c).map flag = mark c) :
      fromLeBytes ((pieces text.asBytes).map (pieceBits flag)) = marks mark text := by
    rw [fromLeBytes_pieces, Str.asBytes, map_flatMap, marks]
    simp only [hmark]
  simp only [Chunk.new, hpush, Option.bind_eq_bind, Option.bind_some, Option.pure_def]
  rw [hbits _ _ map_isUtf8CharBoundary, hbits _ _ map_ge, hbits _ _ (map_beq '\n' 10 rfl (by decide)),
    hbits _ _ (map_beq '\t' 9 rfl (by decide)), marks_pairMarks]
  rfl

end Wu
