import Mathlib.Data.List.Basic

/-!
# Readers

A reader hands out its bytes in pieces, of which each is at most as long as the buffer that is to be filled. How long the pieces are is
up to the reader; a piece is empty only when there are no more bytes.
-/

namespace Wu

open List

/-- The bytes that are left, and the length of each of the next pieces. -/
structure Reader where
  rest : List UInt8
  sizes : Nat → Nat

namespace Reader

/-- How many bytes the next piece holds. -/
def size (self : Reader) (bufLen : Nat) : Nat :=
  if self.rest = [] then 0 else max 1 (min (self.sizes 0) (min bufLen self.rest.length))

/-- `Read::read` into a buffer of a length. -/
def read (self : Reader) (bufLen : Nat) : List UInt8 × Reader :=
  (self.rest.take (self.size bufLen), ⟨self.rest.drop (self.size bufLen), fun i => self.sizes (i + 1)⟩)

theorem read_append (self : Reader) (bufLen : Nat) : (self.read bufLen).1 ++ (self.read bufLen).2.rest = self.rest :=
  take_append_drop _ _

theorem read_eq_nil_iff {self : Reader} {bufLen : Nat} : (self.read bufLen).1 = [] ↔ self.rest = [] := by
  refine ⟨fun h => ?_, fun h => ?_⟩
  · by_contra hne
    have hlen := congrArg List.length h
    have hpos := length_pos_of_ne_nil hne
    rw [read, length_take, size, if_neg hne, length_nil] at hlen
    omega
  · have happ := self.read_append bufLen
    rw [h] at happ
    exact (append_eq_nil_iff.mp happ).1

theorem length_read_lt {self : Reader} {bufLen : Nat} (h : (self.read bufLen).1 ≠ []) :
    (self.read bufLen).2.rest.length < self.rest.length := by
  have hlen := congrArg List.length (self.read_append bufLen)
  have hpos := length_pos_of_ne_nil h
  rw [length_append] at hlen
  omega

/-! ## Reading many pieces -/

/-- Pieces are read until there are as many bytes as wanted, or no more; with the bytes it says whether these were the last ones. -/
def readUpTo (goal : Nat) (bufLen : Nat → Nat) (self : Reader) (bytes : List UInt8) : List UInt8 × Bool × Reader :=
  if bytes.length < goal then
    if (self.read (bufLen bytes.length)).1 = [] then (bytes, true, (self.read (bufLen bytes.length)).2)
    else
      readUpTo goal bufLen (self.read (bufLen bytes.length)).2 (bytes ++ (self.read (bufLen bytes.length)).1)
  else (bytes, false, self)
termination_by self.rest.length
decreasing_by exact length_read_lt ‹_›

/-- What has been read is what was there and a part of the rest. -/
structure HasRead (goal : Nat) (reader : Reader) (bytes : List UInt8) (result : List UInt8 × Bool × Reader) : Prop where
  append : result.1 ++ result.2.2.rest = bytes ++ reader.rest
  isPrefix : bytes <+: result.1
  ended : result.2.1 = true → result.2.2.rest = []
  enough : result.2.1 = false → goal ≤ result.1.length

theorem hasRead (goal : Nat) (bufLen : Nat → Nat) (self : Reader) (bytes : List UInt8) :
    HasRead goal self bytes (readUpTo goal bufLen self bytes) := by
  fun_induction readUpTo goal _ self bytes with
  | case1 self bytes hlt hnil =>
    have hrest : self.rest = [] := read_eq_nil_iff.mp hnil
    have happ := self.read_append (bufLen bytes.length)
    rw [hnil] at happ
    exact ⟨congrArg _ happ, prefix_rfl, fun _ => happ.trans hrest, nofun⟩
  | case2 self bytes hlt hne ih =>
    refine ⟨?_, (prefix_append _ _).trans ih.isPrefix, ih.ended, ih.enough⟩
    rw [ih.append, append_assoc, read_append]
  | case3 self bytes hge => exact ⟨rfl, prefix_rfl, nofun, fun _ => Nat.le_of_not_lt hge⟩

theorem HasRead.length_lt {goal : Nat} {reader : Reader} {result : List UInt8 × Bool × Reader} (h : HasRead goal reader [] result)
    (hne : result.1 ≠ []) : result.2.2.rest.length < reader.rest.length := by
  have hlen := congrArg List.length h.append
  have hpos := length_pos_of_ne_nil hne
  rw [length_append, nil_append] at hlen
  omega

end Reader

end Wu
