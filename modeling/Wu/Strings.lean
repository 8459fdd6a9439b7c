import Mathlib.Data.List.Basic
import Mathlib.Algebra.Ring.Nat

/-!
# Strings

The operations on strings that the agent's code uses: white space as Unicode has it, trimming, comparison up to the case of
ASCII letters, prefixes, and the numbers that `i64` parses.
-/

namespace Wu.Strings

/-- Whether a character is white space. -/
def isWhitespace (c : Char) : Bool :=
  let n := c.toNat
  (9 ≤ n && n ≤ 13) || n == 0x20 || n == 0x85 || n == 0xA0 || n == 0x1680 || (0x2000 ≤ n && n ≤ 0x200A) ||
    n == 0x2028 || n == 0x2029 || n == 0x202F || n == 0x205F || n == 0x3000

/-- A string without the white space at its start. -/
def trimStart (s : String) : String := String.ofList (s.toList.dropWhile isWhitespace)

/-- A string without the white space at its end. -/
def trimEnd (s : String) : String := String.ofList (s.toList.reverse.dropWhile isWhitespace).reverse

/-- A string without the white space at both ends. -/
def trim (s : String) : String := trimEnd (trimStart s)

/-- A letter of ASCII in lower case. -/
def toAsciiLower (c : Char) : Char := if 'A' ≤ c ∧ c ≤ 'Z' then Char.ofNat (c.toNat + 32) else c

/-- Whether strings are equal up to the case of ASCII letters. -/
def eqIgnoreAsciiCase (a b : String) : Bool := a.toList.map toAsciiLower == b.toList.map toAsciiLower

/-- What is left of a string after a prefix. -/
def stripPrefix (pre s : String) : Option String :=
  if pre.toList.isPrefixOf s.toList then some (String.ofList (s.toList.drop pre.toList.length)) else none

/-- The largest `i64`. -/
def maxI64 : Int := 9223372036854775807

/-- The smallest `i64`. -/
def minI64 : Int := -9223372036854775808

/-- The number that digits stand for; there is one digit at least. -/
def parseDigits (digits : List Char) : Option Nat :=
  if digits.isEmpty || !digits.all Char.isDigit then none
  else some (digits.foldl (fun n c => n * 10 + (c.toNat - '0'.toNat)) 0)

/-- The `i64` that a string stands for. -/
def parseI64 (s : String) : Option Int :=
  let value :=
    match s.toList with
    | '-' :: digits => (parseDigits digits).map fun n => -(n : Int)
    | '+' :: digits => (parseDigits digits).map fun n => (n : Int)
    | digits => (parseDigits digits).map fun n => (n : Int)
  value.filter fun n => minI64 ≤ n && n ≤ maxI64

example : parseI64 "-12" = some (-12) := by decide

end Wu.Strings
