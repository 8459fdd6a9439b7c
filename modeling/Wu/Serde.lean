import Wu.AgentHarness.Value

/-!
# Fields of objects

How the fields of a record are written to an object, and read from one: a field can be left out, and be defaulted where it is.
-/

namespace Wu.Serde

open List

universe u v

variable {T : Type u} {S : Type v}

/-- A field that has to be there. -/
def field (decode : Value → Option T) (key : String) (entries : List (String × Value)) : Option T :=
  (Value.lookupEntry key entries).bind decode

/-- A field with a default. -/
def fieldOr (default : T) (decode : Value → Option T) (key : String) (entries : List (String × Value)) : Option T :=
  match Value.lookupEntry key entries with
  | some value => decode value
  | none => some default

def optional (decode : Value → Option T) : Value → Option (Option T)
  | .null => some none
  | value => (decode value).map some

def list (decode : Value → Option T) (value : Value) : Option (List T) := value.asArray.bind fun items => items.mapM decode

/-- `skip_serializing_if = "Option::is_none"`. -/
def skipNone (key : String) (value : Option Value) : List (String × Value) := (value.map fun value => (key, value)).toList

/-- `skip_serializing_if = "Vec::is_empty"`. -/
def skipEmpty (key : String) : List Value → List (String × Value)
  | [] => []
  | items => [(key, .array items)]

/-- `skip_serializing_if = "std::ops::Not::not"`. -/
def skipFalse (key : String) (value : Bool) : List (String × Value) := if value then [(key, .bool true)] else []

/-- `None` is written as null. -/
def orNull (value : Option Value) : Value := value.getD .null

/-! ### What is found again -/

@[simp]
theorem lookupEntry_nil (key : String) : Value.lookupEntry key [] = none := rfl

@[simp]
theorem lookupEntry_cons (key other : String) (value : Value) (entries : List (String × Value)) :
    Value.lookupEntry key ((other, value) :: entries) = if other = key then some value else Value.lookupEntry key entries := by
  unfold Value.lookupEntry
  by_cases h : other = key
  · simp [h]
  · simp [h]

@[simp]
theorem lookupEntry_append (key : String) (entries more : List (String × Value)) :
    Value.lookupEntry key (entries ++ more) = (Value.lookupEntry key entries).or (Value.lookupEntry key more) := by
  unfold Value.lookupEntry
  rw [List.find?_append, Option.map_or]

@[simp]
theorem lookupEntry_skipNone (key other : String) (value : Option Value) :
    Value.lookupEntry key (skipNone other value) = if other = key then value else none := by
  cases value with
  | none => simp [skipNone]
  | some value => simp [skipNone]

@[simp]
theorem lookupEntry_skipEmpty (key other : String) (items : List Value) :
    Value.lookupEntry key (skipEmpty other items) = if other = key ∧ items ≠ [] then some (.array items) else none := by
  cases items with
  | nil => simp [skipEmpty]
  | cons item items => simp [skipEmpty]

@[simp]
theorem lookupEntry_skipFalse (key other : String) (value : Bool) :
    Value.lookupEntry key (skipFalse other value) = if other = key ∧ value = true then some (.bool true) else none := by
  cases value with
  | false => simp [skipFalse]
  | true => simp [skipFalse]

/-- What is written for each item is read for each. -/
theorem mapM_mapM {encode : T → Option S} {decode : S → Option T} {items : List T}
    (h : ∀ item ∈ items, ∀ value, encode item = some value → decode value = some item) :
    ∀ {values : List S}, items.mapM encode = some values → values.mapM decode = some items := by
  induction items with
  | nil =>
    intro values hvals
    rw [← Option.some.inj hvals]
    rfl
  | cons item items ih =>
    intro values hvals
    rw [mapM_cons] at hvals
    obtain ⟨value, hval, hrest⟩ := Option.bind_eq_some_iff.mp hvals
    obtain ⟨rest, hrest, heq⟩ := Option.bind_eq_some_iff.mp hrest
    have htail := ih (fun other hoth => h _ (.tail _ hoth)) hrest
    rw [← Option.some.inj heq, mapM_cons, h item mem_cons_self _ hval, htail]
    rfl

theorem mapM_map {encode : T → S} {decode : S → Option T} {items : List T} (h : ∀ item ∈ items, decode (encode item) = some item) :
    (items.map encode).mapM decode = some items := by
  induction items with
  | nil => rfl
  | cons item items ih =>
    rw [map_cons, mapM_cons, h item mem_cons_self, ih fun other hoth => h _ (.tail _ hoth)]
    rfl

/-- What can be written item by item can be written. -/
theorem mapM_isSome {encode : T → Option S} {items : List T} (h : ∀ item ∈ items, ∃ value, encode item = some value) :
    ∃ values, items.mapM encode = some values := by
  induction items with
  | nil => exact ⟨[], rfl⟩
  | cons item items ih =>
    obtain ⟨value, hval⟩ := h item mem_cons_self
    obtain ⟨values, hvals⟩ := ih fun other hoth => h _ (.tail _ hoth)
    rw [mapM_cons, hval, hvals]
    exact ⟨_, rfl⟩

/-- A list that may be left out when it is empty. -/
theorem fieldOr_list {decode : Value → Option T} {key : String} {entries : List (String × Value)} {values : List Value} {items : List T}
    (hloo : Value.lookupEntry key entries = if values ≠ [] then some (.array values) else none)
    (hvals : values.mapM decode = some items) : fieldOr [] (list decode) key entries = some items := by
  unfold fieldOr
  rw [hloo]
  cases values with
  | nil => exact hvals
  | cons value values => exact hvals

end Wu.Serde
