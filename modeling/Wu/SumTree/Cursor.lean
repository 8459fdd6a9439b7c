import Wu.SumTree.Tree

/-!
# The cursor

`struct Cursor`, `struct FilterCursor` and `struct Iter`, from `cursor.rs` and `sum_tree.rs`. The stack is a list with its
top first. A `while` loop of the source that pushes and pops entries is a recursion here: `...Node` is what the loop does
from the moment a tree is pushed until it returns or pops it again, `...Trees` and `...Items` are the loops over the
children of one node, and `...Up` is the loop over the entries already on the stack. The stack never holds more entries
than the tree has levels (`Cursor.Sim.stack_length`), which is what its fixed capacity relies on.

`assert_did_seek` and the assertion of `seek_internal` that the target does not lie behind the cursor are preconditions.
-/

namespace Wu

open Dimension

universe u v w

/-- `struct StackEntry`. -/
structure StackEntry (T : Type u) (S : Type v) (D : Type w) where
  tree : SumTree T S
  index : Nat
  position : D

/-- `struct Cursor`. -/
structure Cursor (T : Type u) (S : Type v) (D : Type w) where
  tree : SumTree T S
  stack : List (StackEntry T S D)
  position : D
  didSeek : Bool
  atEnd : Bool

namespace Cursor

variable {T : Type u} {S : Type v} {D : Type w}

/-! ## Reading the cursor -/

section Read

variable [Dimension D S]

/-- `Cursor::new`. -/
def new (tree : SumTree T S) : Cursor T S D :=
  { tree, stack := [], position := zero S, didSeek := false, atEnd := tree.isEmpty }

/-- `Cursor::reset`. -/
def reset (c : Cursor T S D) : Cursor T S D := new c.tree

/-- `Cursor::start`. -/
def start (c : Cursor T S D) : D := c.position

/-- `Cursor::item`. -/
def item (c : Cursor T S D) : Option T :=
  match c.stack with
  | entry :: _ => entry.tree.items[entry.index]?
  | [] => none

/-- `Cursor::item_summary`. -/
def itemSummary (c : Cursor T S D) : Option S :=
  match c.stack with
  | entry :: _ => entry.tree.childSummaries[entry.index]?
  | [] => none

/-- `Cursor::end`. -/
def «end» (c : Cursor T S D) : D :=
  match c.itemSummary with
  | some itemSummary => addSummary c.start itemSummary
  | none => c.start

/-- `Cursor::next_leaf`, on the entries below the top one. -/
def nextLeaf (stack : List (StackEntry T S D)) : Option (SumTree T S) :=
  stack.findSome? fun entry =>
    if entry.index < entry.tree.childTrees.length - 1 then
      (entry.tree.childTrees[entry.index + 1]?).map SumTree.leftmostLeaf
    else none

/-- `Cursor::next_item`. -/
def nextItem (c : Cursor T S D) : Option T :=
  match c.stack with
  | entry :: stack =>
    if entry.index = entry.tree.items.length - 1 then (nextLeaf stack).bind fun leaf => leaf.items.head?
    else entry.tree.items[entry.index + 1]?
  | [] => if c.atEnd then none else c.tree.first

/-- `Cursor::prev_leaf`, on the entries below the top one. -/
def prevLeaf (stack : List (StackEntry T S D)) : Option (SumTree T S) :=
  stack.findSome? fun entry =>
    if entry.index ≠ 0 then (entry.tree.childTrees[entry.index - 1]?).map SumTree.rightmostLeaf else none

/-- `Cursor::prev_item`. -/
def prevItem (c : Cursor T S D) : Option T :=
  match c.stack with
  | entry :: stack =>
    if entry.index = 0 then (prevLeaf stack).bind fun leaf => leaf.items.getLast?
    else entry.tree.items[entry.index - 1]?
  | [] => if c.atEnd then c.tree.last else none

end Read

/-! ## Moving forward -/

/-- How a loop over a part of the tree ends: at an item, with the stack that leads to it, or past the part. -/
inductive Walk (T : Type u) (S : Type v) (D : Type w) where
  | stop (stack : List (StackEntry T S D)) (position : D)
  | pass (position : D)

section Move

variable [Dimension D S]

/-- The loop of `search_forward` over the items of a leaf, from `index` on. -/
def forwardItems (filterNode : S → Bool) (tree : SumTree T S) (stack : List (StackEntry T S D)) : Nat → List S → D → D → Walk T S D
  | index, itemSummary :: itemSummaries, entryPosition, position =>
    if filterNode itemSummary then .stop (⟨tree, index, entryPosition⟩ :: stack) position
    else forwardItems filterNode tree stack (index + 1) itemSummaries
      (addSummary entryPosition itemSummary) (addSummary position itemSummary)
  | _, [], _, position => .pass position

mutual

/-- `search_forward` from the moment `tree` is pushed, with the entry position it is pushed with. -/
def forwardNode (filterNode : S → Bool) : SumTree T S → List (StackEntry T S D) → D → D → Walk T S D
  | .internal height summary childSummaries childTrees, stack, entryPosition, position =>
    forwardTrees filterNode (.internal height summary childSummaries childTrees) stack 0 childTrees childSummaries
      entryPosition position
  | .leaf summary items itemSummaries, stack, entryPosition, position =>
    forwardItems filterNode (.leaf summary items itemSummaries) stack 0 itemSummaries entryPosition position

/-- The loop of `search_forward` over the children of an internal node, from `index` on. -/
def forwardTrees (filterNode : S → Bool) (tree : SumTree T S) (stack : List (StackEntry T S D)) :
    Nat → List (SumTree T S) → List S → D → D → Walk T S D
  | index, childTree :: childTrees, nextSummary :: childSummaries, entryPosition, position =>
    if filterNode nextSummary then
      match forwardNode filterNode childTree (⟨tree, index, entryPosition⟩ :: stack) position position with
      | .stop stack position => .stop stack position
      | .pass position => forwardTrees filterNode tree stack (index + 1) childTrees childSummaries position position
    else forwardTrees filterNode tree stack (index + 1) childTrees childSummaries
      (addSummary entryPosition nextSummary) (addSummary position nextSummary)
  | _, _, _, _, position => .pass position

end

/-- The loop of `search_forward` over the entries on the stack, each of which is moved on by one child first. -/
def forwardUp (filterNode : S → Bool) : List (StackEntry T S D) → D → Walk T S D
  | [], position => .pass position
  | entry :: stack, position =>
    let walk := match entry.tree with
      | .internal _ _ childSummaries childTrees =>
        forwardTrees filterNode entry.tree stack (entry.index + 1) (childTrees.drop (entry.index + 1))
          (childSummaries.drop (entry.index + 1)) position position
      | .leaf _ _ itemSummaries =>
        match itemSummaries[entry.index]? with
        | some itemSummary =>
          forwardItems filterNode entry.tree stack (entry.index + 1) (itemSummaries.drop (entry.index + 1))
            (addSummary entry.position itemSummary) (addSummary position itemSummary)
        | none => .pass position
    match walk with
    | .stop stack position => .stop stack position
    | .pass position => forwardUp filterNode stack position

/-- `Cursor::search_forward`. -/
def searchForward (filterNode : S → Bool) (c : Cursor T S D) : Cursor T S D :=
  let walk :=
    if c.stack.isEmpty then
      if c.atEnd then .pass c.position else forwardNode filterNode c.tree [] (zero S) c.position
    else forwardUp filterNode c.stack c.position
  let didSeek := c.stack.isEmpty || c.didSeek
  match walk with
  | .stop stack position => { c with stack, position, didSeek }
  | .pass position => { c with stack := [], position, didSeek, atEnd := true }

/-- `Cursor::next`. -/
def next (c : Cursor T S D) : Cursor T S D := c.searchForward fun _ => true

/-! ## Moving backward -/

/-- The loop of `search_backward` over the items of a leaf, the last one first; `position` is the start of the first. -/
def backwardItems (filterNode : S → Bool) (tree : SumTree T S) (stack : List (StackEntry T S D)) :
    Nat → List S → D → Option (List (StackEntry T S D) × D)
  | index, itemSummary :: itemSummaries, position =>
    match backwardItems filterNode tree stack (index + 1) itemSummaries (addSummary position itemSummary) with
    | some found => some found
    | none => if filterNode itemSummary then some (⟨tree, index, position⟩ :: stack, position) else none
  | _, [], _ => none

mutual

/-- `search_backward` from the moment `tree` is pushed; `position` is its start. -/
def backwardNode (filterNode : S → Bool) : SumTree T S → List (StackEntry T S D) → D → Option (List (StackEntry T S D) × D)
  | .internal height summary childSummaries childTrees, stack, position =>
    backwardTrees filterNode (.internal height summary childSummaries childTrees) stack 0 childTrees childSummaries position
  | .leaf summary items itemSummaries, stack, position =>
    backwardItems filterNode (.leaf summary items itemSummaries) stack 0 itemSummaries position

/-- The loop of `search_backward` over the children of an internal node, the last one first; `position` is the start of the
first. -/
def backwardTrees (filterNode : S → Bool) (tree : SumTree T S) (stack : List (StackEntry T S D)) :
    Nat → List (SumTree T S) → List S → D → Option (List (StackEntry T S D) × D)
  | index, childTree :: childTrees, childSummary :: childSummaries, position =>
    match backwardTrees filterNode tree stack (index + 1) childTrees childSummaries
      (addSummary position childSummary) with
    | some found => some found
    | none =>
      if filterNode childSummary then backwardNode filterNode childTree (⟨tree, index, position⟩ :: stack) position
      else none
  | _, _, _, _ => none

end

/-- The loop of `search_backward` over the entries on the stack: the children before each entry's index. The start of an
entry's tree is the position of the entry below it, `zero` for the root. -/
def backwardUp (filterNode : S → Bool) : List (StackEntry T S D) → Option (List (StackEntry T S D) × D)
  | [] => none
  | entry :: stack =>
    let position := (stack.head?.map StackEntry.position).getD (zero S)
    let found := match entry.tree with
      | .internal _ _ childSummaries childTrees =>
        backwardTrees filterNode entry.tree stack 0 (childTrees.take entry.index) (childSummaries.take entry.index) position
      | .leaf _ _ itemSummaries =>
        backwardItems filterNode entry.tree stack 0 (itemSummaries.take entry.index) position
    match found with
    | some found => some found
    | none => backwardUp filterNode stack

/-- `Cursor::search_backward`. -/
def searchBackward (filterNode : S → Bool) (c : Cursor T S D) : Cursor T S D :=
  let c := if c.didSeek then c else { c with didSeek := true, atEnd := true }
  let c :=
    if c.atEnd then
      { c with
        position := zero S
        atEnd := c.tree.isEmpty
        stack := if c.tree.isEmpty then c.stack
          else ⟨c.tree, c.tree.childSummaries.length, addSummary (zero S) c.tree.summary⟩ :: c.stack }
    else c
  match backwardUp filterNode c.stack with
  | some (stack, position) => { c with stack, position }
  | none => { c with stack := [], position := if c.stack.isEmpty then c.position else zero S }

/-- `Cursor::prev`. -/
def prev (c : Cursor T S D) : Cursor T S D := c.searchBackward fun _ => true

end Move

/-! ## Seeking -/

end Cursor

/-- `trait SeekAggregate`: what a seek collects on its way. -/
structure SeekAggregate (T : Type u) (S : Type v) (α : Type w) where
  beginLeaf : α → α
  endLeaf : α → α
  pushItem : α → T → S → α
  pushTree : α → SumTree T S → S → α

/-- `impl SeekAggregate for ()`. -/
def noAggregate {T : Type u} {S : Type v} : SeekAggregate T S Unit where
  beginLeaf := id
  endLeaf := id
  pushItem a _ _ := a
  pushTree a _ _ := a

/-- `struct SliceSeekAggregate`. -/
structure SliceSeekAggregate (T : Type u) (S : Type v) where
  tree : SumTree T S
  leafItems : List T
  leafItemSummaries : List S
  leafSummary : S

/-- `impl SeekAggregate for SliceSeekAggregate`. -/
def sliceAggregate {T : Type u} {S : Type v} [Summary S] [Item T S] : SeekAggregate T S (SliceSeekAggregate T S) where
  beginLeaf := id
  endLeaf a :=
    { tree := a.tree.append (.leaf a.leafSummary a.leafItems a.leafItemSummaries)
      leafItems := []
      leafItemSummaries := []
      leafSummary := Summary.zero }
  pushItem a item summary :=
    { a with
      leafItems := a.leafItems ++ [item]
      leafItemSummaries := a.leafItemSummaries ++ [summary]
      leafSummary := Summary.addSummary a.leafSummary summary }
  pushTree a tree _ := { a with tree := a.tree.append tree }

/-- `impl SeekAggregate for SummarySeekAggregate`. -/
def summaryAggregate {T : Type u} {S : Type v} {E : Type w} [Dimension E S] : SeekAggregate T S E where
  beginLeaf := id
  endLeaf := id
  pushItem a _ summary := addSummary a summary
  pushTree a _ summary := addSummary a summary

namespace Cursor

universe x

variable {T : Type u} {S : Type v} {D : Type w} {α : Type x}

/-- How a seek over a part of the tree ends, with what it has collected. -/
inductive SeekWalk (T : Type u) (S : Type v) (D : Type w) (α : Type x) where
  | stop (stack : List (StackEntry T S D)) (position : D) (aggregate : α)
  | pass (position : D) (aggregate : α)

section Seek

variable [Dimension D S] (target : SeekTarget D) (bias : Bias) (agg : SeekAggregate T S α)

/-- The loop of `seek_internal` over the items of a leaf, from `index` on. -/
def seekItems (tree : SumTree T S) (stack : List (StackEntry T S D)) (entryPosition : D) :
    Nat → List T → List S → D → α → SeekWalk T S D α
  | index, item :: items, itemSummary :: itemSummaries, position, aggregate =>
    let childEnd := addSummary position itemSummary
    if target.passes bias childEnd then
      seekItems tree stack entryPosition (index + 1) items itemSummaries childEnd (agg.pushItem aggregate item itemSummary)
    else .stop (⟨tree, index, entryPosition⟩ :: stack) position (agg.endLeaf aggregate)
  | _, _, _, position, aggregate => .pass position (agg.endLeaf aggregate)

mutual

/-- `seek_internal` from the moment `tree` is pushed, with the entry position it is pushed with. -/
def seekNode : SumTree T S → List (StackEntry T S D) → D → D → α → SeekWalk T S D α
  | .internal height summary childSummaries childTrees, stack, entryPosition, position, aggregate =>
    seekTrees (.internal height summary childSummaries childTrees) stack 0 childTrees childSummaries entryPosition position aggregate
  | .leaf summary items itemSummaries, stack, entryPosition, position, aggregate =>
    seekItems target bias agg (.leaf summary items itemSummaries) stack entryPosition 0 items itemSummaries position
      (agg.beginLeaf aggregate)

/-- The loop of `seek_internal` over the children of an internal node, from `index` on. -/
def seekTrees (tree : SumTree T S) (stack : List (StackEntry T S D)) :
    Nat → List (SumTree T S) → List S → D → D → α → SeekWalk T S D α
  | index, childTree :: childTrees, childSummary :: childSummaries, entryPosition, position, aggregate =>
    let childEnd := addSummary position childSummary
    if target.passes bias childEnd then
      seekTrees tree stack (index + 1) childTrees childSummaries childEnd childEnd (agg.pushTree aggregate childTree childSummary)
    else
      match seekNode childTree (⟨tree, index, entryPosition⟩ :: stack) position position aggregate with
      | .stop stack position aggregate => .stop stack position aggregate
      | .pass position aggregate =>
        seekTrees tree stack (index + 1) childTrees childSummaries position position aggregate
  | _, _, _, _, position, aggregate => .pass position aggregate

end

/-- The loop of `seek_internal` over the entries on the stack; `ascending` moves an internal entry on by one child. -/
def seekUp : List (StackEntry T S D) → Bool → D → α → SeekWalk T S D α
  | [], _, position, aggregate => .pass position aggregate
  | entry :: stack, ascending, position, aggregate =>
    let walk := match entry.tree with
      | .internal _ _ childSummaries childTrees =>
        let index := if ascending then entry.index + 1 else entry.index
        let entryPosition := if ascending then position else entry.position
        seekTrees target bias agg entry.tree stack index (childTrees.drop index) (childSummaries.drop index)
          entryPosition position aggregate
      | .leaf _ items itemSummaries =>
        seekItems target bias agg entry.tree stack entry.position entry.index (items.drop entry.index)
          (itemSummaries.drop entry.index) position (agg.beginLeaf aggregate)
    match walk with
    | .stop stack position aggregate => .stop stack position aggregate
    | .pass position aggregate => seekUp stack true position aggregate

/-- The movement of `Cursor::seek_internal`: the cursor and what it has collected. -/
def seekInternal (c : Cursor T S D) (aggregate : α) : Cursor T S D × α :=
  let stack := if c.didSeek then c.stack else ⟨c.tree, 0, zero S⟩ :: c.stack
  match seekUp target bias agg stack false c.position aggregate with
  | .stop stack position aggregate => ({ c with stack, position, didSeek := true, atEnd := false }, aggregate)
  | .pass position aggregate => ({ c with stack := [], position, didSeek := true, atEnd := true }, aggregate)

/-- What `Cursor::seek_internal` returns: whether the cursor, or its item with the bias to the left, ends at the target. -/
def foundTarget (c : Cursor T S D) : Bool :=
  let «end» := match bias, c.itemSummary with
    | .left, some summary => addSummary c.position summary
    | _, _ => c.position
  target «end» == .eq

end Seek

section SeekMethods

variable [Dimension D S]

/-- `Cursor::seek`. -/
def seek (c : Cursor T S D) (target : SeekTarget D) (bias : Bias) : Cursor T S D :=
  (c.reset.seekInternal target bias noAggregate ()).1

/-- `Cursor::seek_forward`. -/
def seekForward (c : Cursor T S D) (target : SeekTarget D) (bias : Bias) : Cursor T S D :=
  (c.seekInternal target bias noAggregate ()).1

/-- `Cursor::slice`: the cursor moved on, and the items it has traversed as a tree. -/
def slice [Summary S] [Item T S] (c : Cursor T S D) (target : SeekTarget D) (bias : Bias) : Cursor T S D × SumTree T S :=
  let r := c.seekInternal target bias sliceAggregate
    { tree := SumTree.new, leafItems := [], leafItemSummaries := [], leafSummary := Summary.zero }
  (r.1, r.2.tree)

/-- `struct End`: a target beyond everything. -/
def endTarget : SeekTarget D := fun _ => .gt

/-- `Cursor::suffix`. -/
def suffix [Summary S] [Item T S] (c : Cursor T S D) : Cursor T S D × SumTree T S := c.slice endTarget .right

/-- `Cursor::summary`. -/
def summary {E : Type x} [Dimension E S] (c : Cursor T S D) (target : SeekTarget D) (bias : Bias) : Cursor T S D × E :=
  c.seekInternal target bias summaryAggregate (zero S)

end SeekMethods

end Cursor

/-- `struct FilterCursor`. -/
structure FilterCursor (T : Type u) (S : Type v) (D : Type w) where
  cursor : Cursor T S D
  filterNode : S → Bool

namespace FilterCursor

variable {T : Type u} {S : Type v} {D : Type w} [Dimension D S]

/-- `FilterCursor::new`. -/
def new (tree : SumTree T S) (filterNode : S → Bool) : FilterCursor T S D := ⟨Cursor.new tree, filterNode⟩

/-- `FilterCursor::next`. -/
def next (c : FilterCursor T S D) : FilterCursor T S D := { c with cursor := c.cursor.searchForward c.filterNode }

/-- `FilterCursor::prev`. -/
def prev (c : FilterCursor T S D) : FilterCursor T S D := { c with cursor := c.cursor.searchBackward c.filterNode }

/-- `FilterCursor::item`. -/
def item (c : FilterCursor T S D) : Option T := c.cursor.item

end FilterCursor

/-- `struct Iter`: the stack holds trees and indices, its top first. -/
structure Iter (T : Type u) (S : Type v) where
  tree : SumTree T S
  stack : List (SumTree T S × Nat)

namespace Iter

variable {T : Type u} {S : Type v}

/-- `Iter::new`. -/
def new (tree : SumTree T S) : Iter T S := ⟨tree, []⟩

mutual

/-- `Iter::next` from the moment `tree` is pushed: the item it returns with the stack it leaves, if it returns one before
`tree` is popped. -/
def nextNode : SumTree T S → List (SumTree T S × Nat) → Option (T × List (SumTree T S × Nat))
  | .internal height summary childSummaries childTrees, stack =>
    nextTrees (.internal height summary childSummaries childTrees) stack 0 childTrees
  | .leaf summary items itemSummaries, stack =>
    items.head?.map fun item => (item, (.leaf summary items itemSummaries, 0) :: stack)

/-- `Iter::next` at the children of an internal node, from `index` on. -/
def nextTrees (tree : SumTree T S) (stack : List (SumTree T S × Nat)) :
    Nat → List (SumTree T S) → Option (T × List (SumTree T S × Nat))
  | index, childTree :: childTrees =>
    match nextNode childTree ((tree, index) :: stack) with
    | some found => some found
    | none => nextTrees tree stack (index + 1) childTrees
  | _, [] => none

end

/-- `Iter::next` over the entries on the stack, each of which is moved on by one child first. -/
def nextUp : List (SumTree T S × Nat) → Option (T × List (SumTree T S × Nat))
  | [] => none
  | (tree, index) :: stack =>
    let found := match tree with
      | .internal _ _ _ childTrees => nextTrees tree stack (index + 1) (childTrees.drop (index + 1))
      | .leaf _ items _ => (items[index + 1]?).map fun item => (item, (tree, index + 1) :: stack)
    match found with
    | some found => some found
    | none => nextUp stack

/-- `Iter::next`: the item, if there is one left, and the iterator. -/
def next (it : Iter T S) : Option T × Iter T S :=
  match if it.stack.isEmpty then nextNode it.tree [] else nextUp it.stack with
  | some (item, stack) => (some item, { it with stack })
  | none => (none, { it with stack := [] })

/-- What call number `n` of `next` on the iterator of a tree returns, the first call being number 0. -/
def nth : Nat → Iter T S → Option T
  | 0, it => it.next.1
  | n + 1, it => nth n it.next.2

end Iter

namespace SumTree

variable {T : Type u} {S : Type v}

/-- `SumTree::iter`. -/
def iter (t : SumTree T S) : Iter T S := Iter.new t

end SumTree

end Wu
