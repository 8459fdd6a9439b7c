import Mathlib.Data.Rat.Defs
import Wu.Strings

/-!
# JSON values

The values that lines of an agent's output are parsed to. The entries of an object are in the order in which their keys were
inserted, each key once.
-/

namespace Wu

/-- A JSON value. Numbers are integers between the smallest `i64` and the largest `u64`, or floats. -/
inductive Value where
  | null
  | bool (value : Bool)
  | int (value : Int)
  | float (value : Rat)
  | string (value : String)
  | array (items : List Value)
  | object (entries : List (String × Value))
  deriving Inhabited

namespace Value

/-- Insert an entry into an object's entries: the value of a key that is there is replaced. -/
def insertEntry (key : String) (value : Value) : List (String × Value) → List (String × Value)
  | [] => [(key, value)]
  | entry :: entries => if entry.1 = key then (key, value) :: entries else entry :: insertEntry key value entries

/-- The value of a key. -/
def lookupEntry (key : String) (entries : List (String × Value)) : Option Value :=
  (entries.find? fun entry => entry.1 = key).map (·.2)

/-- The value of a key, when the value is an object. -/
def get (self : Value) (key : String) : Option Value :=
  match self with
  | object entries => lookupEntry key entries
  | _ => none

/-- The value at a path of keys. -/
def pointer (self : Value) : List String → Option Value
  | [] => some self
  | key :: keys => (self.get key).bind fun value => value.pointer keys

def asStr : Value → Option String
  | string value => some value
  | _ => none

def asBool : Value → Option Bool
  | bool value => some value
  | _ => none

def asArray : Value → Option (List Value)
  | array items => some items
  | _ => none

def asObject : Value → Option (List (String × Value))
  | object entries => some entries
  | _ => none

/-- The value as an `i64`: floats are none. -/
def asI64 : Value → Option Int
  | int value => if value ≤ Strings.maxI64 then some value else none
  | _ => none

/-- Whether the value is `null`. -/
def isNull : Value → Bool
  | null => true
  | _ => false

/-- Whether the value is an object. -/
def isObject : Value → Bool
  | object _ => true
  | _ => false

/-- Whether the value is a string. -/
def isString (self : Value) (s : String) : Bool := self.asStr == some s

theorem lookupEntry_insertEntry (key other : String) (value : Value) (entries : List (String × Value)) :
    lookupEntry other (insertEntry key value entries) = if other = key then some value else lookupEntry other entries := by
  induction entries with
  | nil =>
    unfold insertEntry lookupEntry
    by_cases h : other = key
    · simp [h]
    · simp [h, Ne.symm]
  | cons entry entries ih =>
    unfold insertEntry
    by_cases hkey : entry.1 = key
    · rw [if_pos hkey]
      unfold lookupEntry
      by_cases h : other = key
      · simp [h]
      · have hne : ¬entry.1 = other := fun heq => h (heq.symm.trans hkey)
        simp [h, Ne.symm, hne]
    · rw [if_neg hkey]
      unfold lookupEntry at ih ⊢
      by_cases h : entry.1 = other
      · have hne : ¬other = key := fun heq => hkey (h.trans heq)
        simp [h, hne]
      · rw [List.find?_cons_of_neg (by simpa using h), List.find?_cons_of_neg (by simpa using h)]
        exact ih

end Value

end Wu
