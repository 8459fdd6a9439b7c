import Mathlib.Order.WithBot
import Wu.SumTree.Cursor

/-!
# The tree map

The keyed operations of `SumTree` (`find`, `insert_or_replace`, `edit`), from `sum_tree.rs`, and `struct TreeMap`, from
`tree_map.rs`. A `MapKeyRef` is the `MapKey` it refers to: both derive their order from `Option`, so that `None` lies below
every key. A closure that takes a mutable reference to a value returns the changed value beside its result.
-/

namespace Wu

universe u v w x

/-- `trait KeyedItem`. -/
class KeyedItem (T : Type u) (Key : outParam (Type w)) where
  key : T → Key

/-- `enum Edit`. -/
inductive Edit (T : Type u) (Key : Type w) where
  | insert (item : T)
  | remove (key : Key)

/-- `Edit::key`. -/
def Edit.key {T : Type u} {Key : Type w} [KeyedItem T Key] : Edit T Key → Key
  | insert item => KeyedItem.key item
  | remove key => key

namespace SumTree

/-! ## Finding an item -/

section Find

variable {T : Type u} {S : Type v} {D : Type w} [Dimension D S] (target : SeekTarget D) (bias : Bias)

/-- The loop of `find_iterate` over the items of a leaf: the position, and the item found with its end. -/
def findItems : List T → List S → D → D × Option (T × D)
  | item :: items, itemSummary :: itemSummaries, position =>
    let childEnd := Dimension.addSummary position itemSummary
    if !target.passes bias childEnd then (position, some (item, childEnd))
    else findItems items itemSummaries childEnd
  | _, _, position => (position, none)

mutual

/-- `SumTree::find_iterate`, with `EXACT` off. -/
def findIterate : SumTree T S → D → D × Option (T × D)
  | internal _ _ childSummaries childTrees, position => findTrees childTrees childSummaries position
  | leaf _ items itemSummaries, position => findItems target bias items itemSummaries position

/-- The loop of `find_iterate` over the children of an internal node; it goes on in the first child that the target is
in. -/
def findTrees : List (SumTree T S) → List S → D → D × Option (T × D)
  | childTree :: childTrees, childSummary :: childSummaries, position =>
    let childEnd := Dimension.addSummary position childSummary
    if !target.passes bias childEnd then findIterate childTree position
    else findTrees childTrees childSummaries childEnd
  | _, _, position => (position, none)

end

/-- `SumTree::find`. -/
def find (self : SumTree T S) : D × D × Option T :=
  let treeEnd := Dimension.addSummary (Dimension.zero S) self.summary
  if target.passes bias treeEnd then (treeEnd, treeEnd, none)
  else
    match findIterate target bias self (Dimension.zero S) with
    | (position, some (item, «end»)) => (position, «end», some item)
    | (position, none) => (position, position, none)

end Find

/-! ## Keyed items -/

section Keyed

variable {T : Type u} {S : Type v} {Key : Type w} [Summary S] [Item T S] [KeyedItem T Key] [Dimension Key S] [LinearOrder Key]

/-- `SumTree::insert_or_replace`: the new tree, and the item that was replaced. -/
def insertOrReplace (self : SumTree T S) (item : T) : SumTree T S × Option T :=
  let cursor : Cursor T S Key := Cursor.new self
  let (cursor, newTree) := cursor.slice (compare (KeyedItem.key item)) .left
  let (replaced, cursor) := match cursor.item with
    | some cursorItem =>
      if KeyedItem.key cursorItem = KeyedItem.key item then (some cursorItem, cursor.next) else (none, cursor)
    | none => (none, cursor)
  ((newTree.push item).append cursor.suffix.2, replaced)

/-- What the loop of `edit` goes over with. -/
structure EditState (T : Type u) (S : Type v) (Key : Type w) where
  cursor : Cursor T S Key
  newTree : SumTree T S
  bufferedItems : List T
  removed : List T

/-- The first step of a turn of the loop of `edit`: move over the items before the key. -/
def EditState.seekKey (s : EditState T S Key) (newKey : Key) : EditState T S Key :=
  match s.cursor.item with
  | some oldItem =>
    if KeyedItem.key oldItem < newKey then
      let (cursor, slice) := s.cursor.slice (compare newKey) .left
      { s with cursor, newTree := (s.newTree.extend s.bufferedItems).append slice, bufferedItems := [] }
    else s
  | none => s

/-- The second: move over the item with the key, if there is one. -/
def EditState.skipKey (s : EditState T S Key) (newKey : Key) : EditState T S Key :=
  match s.cursor.item with
  | some oldItem =>
    if KeyedItem.key oldItem = newKey then { s with cursor := s.cursor.next, removed := s.removed ++ [oldItem] } else s
  | none => s

/-- A turn of the loop of `edit`. -/
def EditState.step (s : EditState T S Key) (edit : Edit T Key) : EditState T S Key :=
  let s := (s.seekKey edit.key).skipKey edit.key
  match edit with
  | .insert item => { s with bufferedItems := s.bufferedItems ++ [item] }
  | .remove _ => s

/-- `SumTree::edit`: the new tree, and the items that were removed. The sort of the source is unstable: where two edits have
one key it may put either first, and this one keeps the order they are given in. -/
def edit (self : SumTree T S) (edits : List (Edit T Key)) : SumTree T S × List T :=
  if edits.isEmpty then (self, [])
  else
    let edits := edits.mergeSort fun a b => a.key ≤ b.key
    let cursor := (Cursor.new self).seek (compare (Dimension.zero S : Key)) .left
    let s := edits.foldl EditState.step { cursor, newTree := SumTree.new, bufferedItems := [], removed := [] }
    ((s.newTree.extend s.bufferedItems).append s.cursor.suffix.2, s.removed)

end Keyed

end SumTree

/-- `Iterator::next` for a cursor: the item, if there is one, and the cursor after it. -/
def Cursor.iterNext {T : Type u} {S : Type v} {D : Type w} [Dimension D S] (c : Cursor T S D) : Option T × Cursor T S D :=
  let c := if c.didSeek then c else c.next
  match c.item with
  | some item => (some item, c.next)
  | none => (none, c)

/-- What call number `n` of `Iterator::next` on a cursor returns, the first call being number 0. -/
def Cursor.iterNth {T : Type u} {S : Type v} {D : Type w} [Dimension D S] : Nat → Cursor T S D → Option T
  | 0, c => c.iterNext.1
  | n + 1, c => iterNth n c.iterNext.2

/-! ## The map -/

/-- `struct MapEntry`. -/
structure MapEntry (K : Type u) (V : Type v) where
  key : K
  value : V
  deriving DecidableEq, Repr

/-- `struct MapKey`: a key, or `None` below all keys. -/
abbrev MapKey (K : Type u) := WithBot K

/-- The summary of a subtree is its last key. -/
instance (K : Type u) : Summary (MapKey K) where
  zero := ⊥
  addSummary _ s := s

instance (K : Type u) (V : Type v) : KeyedItem (MapEntry K V) (MapKey K) where
  key e := WithBot.some e.key

instance (K : Type u) (V : Type v) : Item (MapEntry K V) (MapKey K) where
  summary e := KeyedItem.key e

/-- `trait MapSeekTarget`: `cmp_cursor`. -/
abbrev MapSeekTarget (K : Type u) := K → Ordering

/-- `struct MapSeekTargetAdaptor`. -/
def mapSeekTargetAdaptor {K : Type u} (target : MapSeekTarget K) : SeekTarget (MapKey K)
  | ⊥ => .gt
  | WithBot.some key => target key

/-- `struct TreeMap`. -/
structure TreeMap (K : Type u) (V : Type v) where
  tree : SumTree (MapEntry K V) (MapKey K)

namespace TreeMap

variable {K : Type u} {V : Type v} [LinearOrder K]

/-- The target of a key. -/
def keyTarget (key : K) : SeekTarget (MapKey K) := compare (WithBot.some key : MapKey K)

/-- The entry as the pair of references that the readers return. -/
def pair (e : MapEntry K V) : K × V := (e.key, e.value)

/-- `TreeMap::default`. -/
def empty : TreeMap K V := ⟨SumTree.new⟩

/-- `TreeMap::is_empty`. -/
def isEmpty (self : TreeMap K V) : Bool := self.tree.isEmpty

/-- `TreeMap::get`. -/
def get (self : TreeMap K V) (key : K) : Option V :=
  match (self.tree.find (keyTarget key) .left).2.2 with
  | some item => if WithBot.some key = (KeyedItem.key item : MapKey K) then some item.value else none
  | none => none

/-- `TreeMap::contains_key`. -/
def containsKey (self : TreeMap K V) (key : K) : Bool := (self.get key).isSome

/-- `TreeMap::insert_or_replace`. -/
def insertOrReplace (self : TreeMap K V) (key : K) (value : V) : TreeMap K V × Option V :=
  let (tree, replaced) := self.tree.insertOrReplace (MapEntry.mk key value)
  (⟨tree⟩, replaced.map MapEntry.value)

/-- `TreeMap::insert`. -/
def insert (self : TreeMap K V) (key : K) (value : V) : TreeMap K V :=
  ⟨(self.tree.insertOrReplace (MapEntry.mk key value)).1⟩

/-- `TreeMap::extend`. -/
def extend (self : TreeMap K V) (iter : List (K × V)) : TreeMap K V :=
  ⟨(self.tree.edit (iter.map fun (key, value) => Edit.insert (MapEntry.mk key value))).1⟩

/-- `TreeMap::clear`. -/
def clear (_ : TreeMap K V) : TreeMap K V := empty

/-- `TreeMap::remove`. -/
def remove (self : TreeMap K V) (key : K) : TreeMap K V × Option V :=
  let cursor : Cursor (MapEntry K V) (MapKey K) (MapKey K) := Cursor.new self.tree
  let (cursor, newTree) := cursor.slice (keyTarget key) .left
  let (removed, cursor) :=
    if keyTarget key cursor.end = .eq then (cursor.item.map MapEntry.value, cursor.next) else (none, cursor)
  (⟨newTree.append cursor.suffix.2⟩, removed)

/-- `TreeMap::remove_range`. -/
def removeRange (self : TreeMap K V) (start «end» : MapSeekTarget K) : TreeMap K V :=
  let cursor : Cursor (MapEntry K V) (MapKey K) (MapKey K) := Cursor.new self.tree
  let (cursor, newTree) := cursor.slice (mapSeekTargetAdaptor start) .left
  let cursor := cursor.seek (mapSeekTargetAdaptor «end») .left
  ⟨newTree.append cursor.suffix.2⟩

/-- `TreeMap::closest`. -/
def closest (self : TreeMap K V) (key : K) : Option (K × V) :=
  let cursor : Cursor (MapEntry K V) (MapKey K) (MapKey K) := Cursor.new self.tree
  ((cursor.seek (keyTarget key) .right).prev.item).map pair

/-- `TreeMap::iter_from`: what call number `n` of `next` on the iterator returns. -/
def iterFrom (self : TreeMap K V) («from» : K) (n : Nat) : Option (K × V) :=
  let cursor : Cursor (MapEntry K V) (MapKey K) (MapKey K) := Cursor.new self.tree
  ((cursor.seek (keyTarget «from») .left).iterNth n).map pair

/-- `TreeMap::update`. -/
def update {R : Type x} (self : TreeMap K V) (key : K) (f : V → V × R) : TreeMap K V × Option R :=
  let cursor : Cursor (MapEntry K V) (MapKey K) (MapKey K) := Cursor.new self.tree
  let (cursor, newTree) := cursor.slice (keyTarget key) .left
  let (newTree, result, cursor) :=
    if keyTarget key cursor.end = .eq then
      match cursor.item with
      | some item =>
        let (value, result) := f item.value
        (newTree.push { item with value }, some result, cursor.next)
      | none => (newTree, none, cursor)  -- `unwrap` of an item that is there
    else (newTree, none, cursor)
  (⟨newTree.append cursor.suffix.2⟩, result)

/-- The loop of `retain`; `n` bounds its turns, of which there is one for each item. -/
def retainLoop (predicate : K → V → Bool) : Nat → Cursor (MapEntry K V) (MapKey K) (MapKey K) → SumTree (MapEntry K V) (MapKey K) →
      SumTree (MapEntry K V) (MapKey K)
  | 0, _, newMap => newMap
  | n + 1, cursor, newMap =>
    match cursor.item with
    | some item => retainLoop predicate n cursor.next (if predicate item.key item.value then newMap.push item else newMap)
    | none => newMap

/-- `TreeMap::retain`. -/
def retain (self : TreeMap K V) (predicate : K → V → Bool) : TreeMap K V :=
  let cursor : Cursor (MapEntry K V) (MapKey K) (MapKey K) := Cursor.new self.tree
  ⟨retainLoop predicate (self.tree.toList.length + 1) cursor.next SumTree.new⟩

/-- `TreeMap::iter`: what call number `n` of `next` on the iterator returns. -/
def iter (self : TreeMap K V) (n : Nat) : Option (K × V) := (self.tree.iter.nth n).map pair

/-- `TreeMap::first`. -/
def first (self : TreeMap K V) : Option (K × V) := self.tree.first.map pair

/-- `TreeMap::last`. -/
def last (self : TreeMap K V) : Option (K × V) := self.tree.last.map pair

/-- `TreeMap::insert_tree`: the entries of `other`, as its iterator gives them. -/
def insertTree (self other : TreeMap K V) : TreeMap K V :=
  ⟨(self.tree.edit (((List.range other.tree.toList.length).filterMap other.iter).map
    fun (key, value) => Edit.insert (MapEntry.mk key value))).1⟩

end TreeMap

end Wu
