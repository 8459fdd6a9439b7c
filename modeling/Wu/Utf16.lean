import Mathlib.Data.List.Basic

/-!
# Encoding and decoding UTF-16

A character is one code unit or a pair of surrogates, and a code unit is two bytes in one of two orders. What cannot be decoded is
replaced: a surrogate that is not part of a pair, and what is left at the end.
-/

namespace Wu.Utf16

open Bool

/-- The order of the two bytes of a code unit. -/
inductive ByteOrder where
  | little
  | big
  deriving DecidableEq, Repr

/-! ## Code units -/

/-- `u16::to_le_bytes` and `u16::to_be_bytes`. -/
def toBytes (order : ByteOrder) (unit : Nat) : List UInt8 :=
  match order with
  | .little => [UInt8.ofNat (unit % 256), UInt8.ofNat (unit / 256)]
  | .big => [UInt8.ofNat (unit / 256), UInt8.ofNat (unit % 256)]

/-- `u16::from_le_bytes` and `u16::from_be_bytes`. -/
def ofBytes (order : ByteOrder) (a b : UInt8) : Nat :=
  match order with
  | .little => b.toNat * 256 + a.toNat
  | .big => a.toNat * 256 + b.toNat

def isHigh (unit : Nat) : Bool := 0xD800 ≤ unit && unit ≤ 0xDBFF

def isLow (unit : Nat) : Bool := 0xDC00 ≤ unit && unit ≤ 0xDFFF

/-- `char::encode_utf16`. -/
def units (c : Char) : List Nat :=
  if c.toNat < 0x10000 then [c.toNat] else [0xD800 + (c.toNat - 0x10000) / 0x400, 0xDC00 + (c.toNat - 0x10000) % 0x400]

/-- The bytes of `str::encode_utf16`. -/
def encode (order : ByteOrder) (text : List Char) : List UInt8 := (text.flatMap units).flatMap (toBytes order)

/-- The text of bytes, where a replacement character stands for what is wrong. -/
def decode (order : ByteOrder) : List UInt8 → List Char
  | a :: b :: c :: d :: rest =>
    if isHigh (ofBytes order a b) then
      if isLow (ofBytes order c d) then
        Char.ofNat (0x10000 + (ofBytes order a b - 0xD800) * 0x400 + (ofBytes order c d - 0xDC00)) :: decode order rest
      else '\uFFFD' :: decode order (c :: d :: rest)
    else if isLow (ofBytes order a b) then '\uFFFD' :: decode order (c :: d :: rest)
    else Char.ofNat (ofBytes order a b) :: decode order (c :: d :: rest)
  | [a, b, c] =>
    if isHigh (ofBytes order a b) then ['\uFFFD']
    else if isLow (ofBytes order a b) then '\uFFFD' :: decode order [c]
    else Char.ofNat (ofBytes order a b) :: decode order [c]
  | [a, b] => if isHigh (ofBytes order a b) ∨ isLow (ofBytes order a b) then ['\uFFFD'] else [Char.ofNat (ofBytes order a b)]
  | [_] => ['\uFFFD']
  | [] => []

example : decode .little [0x41, 0x00, 0x3D, 0xD8, 0x00, 0xDE, 0x3D, 0xD8, 0x42] = ['A', '😀', '\uFFFD'] := by decide

/-! ## Bytes of a text -/

theorem ofBytes_toBytes {unit : Nat} (h : unit < 0x10000) (order : ByteOrder) :
    ∃ a b, toBytes order unit = [a, b] ∧ ofBytes order a b = unit := by
  have hlow : (UInt8.ofNat (unit % 256)).toNat = unit % 256 := UInt8.toNat_ofNat_of_lt' (Nat.mod_lt _ (by decide))
  have hhigh : (UInt8.ofNat (unit / 256)).toNat = unit / 256 := UInt8.toNat_ofNat_of_lt' (Nat.div_lt_of_lt_mul h)
  have hunit : unit / 256 * 256 + unit % 256 = unit := by omega
  cases order with
  | little => exact ⟨_, _, rfl, by rw [ofBytes, hlow, hhigh, hunit]⟩
  | big => exact ⟨_, _, rfl, by rw [ofBytes, hlow, hhigh, hunit]⟩

theorem toNat_lt (c : Char) : c.toNat < 0xD800 ∨ 0xDFFF < c.toNat ∧ c.toNat < 0x110000 := c.valid

/-- A character that is one code unit is decoded whatever is behind it. -/
theorem decode_unit {order : ByteOrder} {c : Char} (h : c.toNat < 0x10000) {a b : UInt8} (hunit : ofBytes order a b = c.toNat)
    (rest : List UInt8) : decode order (a :: b :: rest) = c :: decode order rest := by
  have hval := toNat_lt c
  have hhigh : isHigh c.toNat = false := by
    rw [isHigh, and_eq_false_iff, decide_eq_false_iff_not, decide_eq_false_iff_not]
    omega
  have hlow : isLow c.toNat = false := by
    rw [isLow, and_eq_false_iff, decide_eq_false_iff_not, decide_eq_false_iff_not]
    omega
  have hnot : ∀ {x : Bool}, x = false → ¬x = true := fun hx => by rw [hx]; exact false_ne_true
  match rest with
  | [] => rw [decode, hunit, if_neg (not_or.mpr ⟨hnot hhigh, hnot hlow⟩), Char.ofNat_toNat, decode]
  | [_] | _ :: _ :: _ => rw [decode, hunit, if_neg (hnot hhigh), if_neg (hnot hlow), Char.ofNat_toNat]

theorem decode_pair {order : ByteOrder} {x : Char} (h : ¬x.toNat < 0x10000) {a b c d : UInt8}
    (hhigh : ofBytes order a b = 0xD800 + (x.toNat - 0x10000) / 0x400)
    (hlow : ofBytes order c d = 0xDC00 + (x.toNat - 0x10000) % 0x400) (rest : List UInt8) :
    decode order (a :: b :: c :: d :: rest) = x :: decode order rest := by
  have hval := toNat_lt x
  have hish : isHigh (ofBytes order a b) = true := by
    rw [isHigh, and_eq_true, decide_eq_true_eq, decide_eq_true_eq]
    omega
  have hisl : isLow (ofBytes order c d) = true := by
    rw [isLow, and_eq_true, decide_eq_true_eq, decide_eq_true_eq]
    omega
  have hcode : 0x10000 + (ofBytes order a b - 0xD800) * 0x400 + (ofBytes order c d - 0xDC00) = x.toNat := by omega
  rw [decode, if_pos hish, if_pos hisl, hcode, Char.ofNat_toNat]

/-- The bytes of a text are decoded to the text. -/
theorem decode_encode (order : ByteOrder) (text : List Char) : decode order (encode order text) = text := by
  induction text with
  | nil => rfl
  | cons c text ih =>
    have henc : encode order (c :: text) = (units c).flatMap (toBytes order) ++ encode order text := by
      rw [encode, List.flatMap_cons, List.flatMap_append, encode]
    rw [henc, units]
    by_cases h : c.toNat < 0x10000
    · obtain ⟨a, b, hbyte, hunit⟩ := ofBytes_toBytes h _
      rw [if_pos h, List.flatMap_singleton, hbyte]
      show decode _ (a :: b :: encode _ text) = _
      rw [decode_unit h hunit, ih]
    · have hval := toNat_lt c
      have hhig : 0xD800 + (c.toNat - 0x10000) / 0x400 < 0x10000 := by omega
      have hlowl : 0xDC00 + (c.toNat - 0x10000) % 0x400 < 0x10000 := by omega
      obtain ⟨a, b, hhigh, hunit⟩ := ofBytes_toBytes hhig _
      obtain ⟨a', b', hlow, hunit'⟩ := ofBytes_toBytes hlowl _
      rw [if_neg h, List.flatMap_cons, List.flatMap_singleton, hhigh, hlow]
      show decode _ (a :: b :: a' :: b' :: encode _ text) = _
      rw [decode_pair h hunit hunit', ih]

end Wu.Utf16
