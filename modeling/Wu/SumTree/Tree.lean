import Wu.SumTree.Summary

/-!
# The sum tree

`struct SumTree` with its constructors and `append`, from `sum_tree.rs`. The `Arc` around a node is left out: a tree is
the node it points to, and a method that takes `&mut self` returns the new tree. The fixed capacity of a node's arrays
(`2 * TREE_BASE`) is kept by every operation (`SumTree.WF`); the arrays themselves are lists here.
-/

namespace Wu

universe u v

/-- `const TREE_BASE`. -/
def treeBase : Nat := 6

theorem two_le_treeBase : 2 ≤ treeBase := by decide

/-- `enum Node`: a B+ tree whose leaves hold the items, every node with the summary of the items below it and a copy of
the summaries of its children. -/
inductive SumTree (T : Type u) (S : Type v) where
  | internal (height : Nat) (summary : S) (childSummaries : List S) (childTrees : List (SumTree T S))
  | leaf (summary : S) (items : List T) (itemSummaries : List S)

namespace SumTree

variable {T : Type u} {S : Type v}

/-! ## Reading a node -/

/-- `Node::is_leaf`. -/
def isLeaf : SumTree T S → Bool
  | internal .. => false
  | leaf .. => true

/-- `Node::height`. -/
def height : SumTree T S → Nat
  | internal height .. => height
  | leaf .. => 0

/-- `Node::summary`. -/
def summary : SumTree T S → S
  | internal _ summary _ _ => summary
  | leaf summary _ _ => summary

/-- `Node::child_summaries`. -/
def childSummaries : SumTree T S → List S
  | internal _ _ childSummaries _ => childSummaries
  | leaf _ _ itemSummaries => itemSummaries

/-- `Node::child_trees`, which a leaf does not have. -/
def childTrees : SumTree T S → List (SumTree T S)
  | internal _ _ _ childTrees => childTrees
  | leaf .. => []

/-- `Node::items`, which an internal node does not have. -/
def items : SumTree T S → List T
  | internal .. => []
  | leaf _ items _ => items

/-- `Node::is_underflowing`. -/
def isUnderflowing : SumTree T S → Bool
  | internal _ _ _ childTrees => childTrees.length < treeBase
  | leaf _ items _ => items.length < treeBase

/-- `SumTree::is_empty`. -/
def isEmpty : SumTree T S → Bool
  | internal .. => false
  | leaf _ items _ => items.isEmpty

mutual

/-- The items of the tree in order: what an iterator visits (`iter_nth`). -/
def toList : SumTree T S → List T
  | internal _ _ _ childTrees => toLists childTrees
  | leaf _ items _ => items

/-- The items of the trees of a list in order. -/
def toLists : List (SumTree T S) → List T
  | [] => []
  | t :: ts => toList t ++ toLists ts

end

theorem toLists_eq (cs : List (SumTree T S)) : toLists cs = cs.flatMap toList := by
  induction cs with
  | nil => rfl
  | cons c cs ih => rw [toLists, ih, List.flatMap_cons]

@[simp] theorem toList_internal (h : Nat) (s : S) (ss : List S) (cs : List (SumTree T S)) :
    (internal h s ss cs).toList = cs.flatMap toList := by
  rw [toList, toLists_eq]

@[simp] theorem toList_leaf (s : S) (xs : List T) (ss : List S) : (leaf s xs ss).toList = xs := rfl

mutual

/-- `SumTree::leftmost_leaf`. -/
def leftmostLeaf : SumTree T S → SumTree T S
  | internal h s ss cs => leftmostLeaves cs (internal h s ss cs)
  | leaf s xs ss => leaf s xs ss

/-- The leftmost leaf of the first tree of a list, `d` when there is none (`child_trees.first().unwrap()`). -/
def leftmostLeaves : List (SumTree T S) → SumTree T S → SumTree T S
  | [], d => d
  | t :: _, _ => leftmostLeaf t

end

mutual

/-- `SumTree::rightmost_leaf`. -/
def rightmostLeaf : SumTree T S → SumTree T S
  | internal h s ss cs => rightmostLeaves cs (internal h s ss cs)
  | leaf s xs ss => leaf s xs ss

/-- The rightmost leaf of the last tree of a list, `d` when there is none (`child_trees.last().unwrap()`). -/
def rightmostLeaves : List (SumTree T S) → SumTree T S → SumTree T S
  | [], d => d
  | [t], _ => rightmostLeaf t
  | _ :: t :: ts, d => rightmostLeaves (t :: ts) d

end

/-- `SumTree::first`. -/
def first (t : SumTree T S) : Option T := t.leftmostLeaf.items.head?

/-- `SumTree::last`. -/
def last (t : SumTree T S) : Option T := t.rightmostLeaf.items.getLast?

/-! ## Building -/

section Build

variable [Summary S] [Item T S]

/-- `SumTree::new`. -/
def new : SumTree T S := leaf Summary.zero [] []

/-- One turn of the loop of `from_iter` that fills nodes of `2 * TREE_BASE` children: the nodes filled so far, and the one
being filled. -/
def chunkStep {α : Type u} (acc : List (List α) × List α) (a : α) : List (List α) × List α :=
  if acc.2.length + 1 = 2 * treeBase then (acc.1 ++ [acc.2 ++ [a]], []) else (acc.1, acc.2 ++ [a])

/-- A list cut into pieces of `2 * TREE_BASE`, the last one possibly shorter. -/
def chunks {α : Type u} (l : List α) : List (List α) :=
  let acc := l.foldl chunkStep ([], [])
  if acc.2.isEmpty then acc.1 else acc.1 ++ [acc.2]

/-- The sum of summaries that starts from the first of them. -/
def sumFromFirst : List S → S
  | [] => Summary.zero
  | s :: l => l.foldl Summary.addSummary s

/-- The leaf `from_iter` and `from_par_iter` make of a piece of the items. -/
def leafOf (items : List T) : SumTree T S :=
  leaf (sumFromFirst (items.map Item.summary)) items (items.map Item.summary)

/-- The loop of `from_iter` that puts parents over the nodes until one is left; the parent's summary starts from `zero`.
`n` bounds the rounds: every round leaves fewer nodes. -/
def parentLevels : Nat → Nat → List (SumTree T S) → List (SumTree T S)
  | 0, _, nodes => nodes
  | n + 1, height, nodes =>
    if nodes.length ≤ 1 then nodes
    else parentLevels n (height + 1)
      ((chunks nodes).map fun cs => internal (height + 1) (sum (cs.map summary)) (cs.map summary) cs)

/-- `SumTree::from_iter`. -/
def fromIter (iter : List T) : SumTree T S :=
  let nodes := (chunks iter).map leafOf
  (parentLevels nodes.length 0 nodes).getLast?.getD new

/-- The loop of `from_par_iter` over the levels: as in `from_iter`, but the parent's summary starts from the first
child's. -/
def parParentLevels : Nat → Nat → List (SumTree T S) → List (SumTree T S)
  | 0, _, nodes => nodes
  | n + 1, height, nodes =>
    if nodes.length ≤ 1 then nodes
    else parParentLevels n (height + 1)
      ((chunks nodes).map fun cs => internal (height + 1) (sumFromFirst (cs.map summary)) (cs.map summary) cs)

/-- `SumTree::from_par_iter`: rayon's `chunks` cut the items as the loop of `from_iter` does. -/
def fromParIter (iter : List T) : SumTree T S :=
  let nodes := (chunks iter).map leafOf
  (parParentLevels nodes.length 0 nodes).getLast?.getD new

/-- `SumTree::from_child_trees`. -/
def fromChildTrees (left right : SumTree T S) : SumTree T S :=
  internal (left.height + 1) (sum [left.summary, right.summary]) [left.summary, right.summary] [left, right]

/-- What both branches of `push_tree_recursive` do when the children overflow: the first half, rounded up, stays, and the
rest becomes a node of its own. -/
def midpoint (childCount : Nat) : Nat := (childCount + childCount % 2) / 2

/-- The end of the internal branch of `push_tree_recursive`: put the new children behind the old ones, and split the node
when they do not fit. -/
def pushChildren (height : Nat) (summary : S) (childSummaries : List S) (childTrees : List (SumTree T S))
    (summariesToAppend : List S) (treesToAppend : List (SumTree T S)) : SumTree T S × Option (SumTree T S) :=
  let childCount := childTrees.length + treesToAppend.length
  let allSummaries := childSummaries ++ summariesToAppend
  let allTrees := childTrees ++ treesToAppend
  if childCount > 2 * treeBase then
    let leftSummaries := allSummaries.take (midpoint childCount)
    let rightSummaries := allSummaries.drop (midpoint childCount)
    (internal height (sum leftSummaries) leftSummaries (allTrees.take (midpoint childCount)),
      some (internal height (sum rightSummaries) rightSummaries (allTrees.drop (midpoint childCount))))
  else (internal height summary allSummaries allTrees, none)

mutual

/-- `SumTree::push_tree_recursive`: put `other`, which is not higher, behind the tree; returns the tree and the node split
off it, if it overflows. -/
def pushTreeRecursive : SumTree T S → SumTree T S → SumTree T S × Option (SumTree T S)
  | internal height summary childSummaries childTrees, other =>
    let summary := Summary.addSummary summary other.summary
    let heightDelta := height - other.height
    if heightDelta = 0 then
      pushChildren height summary childSummaries childTrees other.childSummaries other.childTrees
    else if heightDelta = 1 ∧ !other.isUnderflowing then
      pushChildren height summary childSummaries childTrees [other.summary] [other]
    else
      let (childTrees, treeToAppend) := pushTreeLast childTrees other
      let childSummaries := childSummaries.dropLast ++ (childTrees.getLast?.map SumTree.summary).toList
      match treeToAppend with
      | none => pushChildren height summary childSummaries childTrees [] []
      | some splitTree => pushChildren height summary childSummaries childTrees [splitTree.summary] [splitTree]
  | leaf summary items itemSummaries, other =>
    let childCount := items.length + other.items.length
    let allItems := items ++ other.items
    let allSummaries := itemSummaries ++ other.childSummaries
    if childCount > 2 * treeBase then
      let leftSummaries := allSummaries.take (midpoint childCount)
      let rightSummaries := allSummaries.drop (midpoint childCount)
      (leaf (sum leftSummaries) (allItems.take (midpoint childCount)) leftSummaries,
        some (leaf (sum rightSummaries) (allItems.drop (midpoint childCount)) rightSummaries))
    else (leaf (Summary.addSummary summary other.summary) allItems allSummaries, none)

/-- `child_trees.last_mut().unwrap().push_tree_recursive(other, cx)`: the children with the last one pushed to, and what it
split off. -/
def pushTreeLast : List (SumTree T S) → SumTree T S → List (SumTree T S) × Option (SumTree T S)
  | [], _ => ([], none)
  | [t], other =>
    let (t, split) := pushTreeRecursive t other
    ([t], split)
  | t :: t' :: ts, other =>
    let (ts, split) := pushTreeLast (t' :: ts) other
    (t :: ts, split)

end

/-- `SumTree::merge_into_right`: put the children of `small` before those of `large`, a tree of the same height; when they
overflow, returns the node with the first half, rounded up. The result is the new `large` and that node. -/
def mergeIntoRight (small large : SumTree T S) : SumTree T S × Option (SumTree T S) :=
  match small, large with
  | internal _ smallSummary smallChildSummaries smallChildTrees, internal height summary childSummaries childTrees =>
    let totalChildCount := childTrees.length + smallChildTrees.length
    let allTrees := smallChildTrees ++ childTrees
    let allSummaries := smallChildSummaries ++ childSummaries
    if totalChildCount ≤ 2 * treeBase then
      (internal height (Summary.addSummary smallSummary summary) allSummaries allTrees, none)
    else
      let midpoint := (totalChildCount + 1) / 2
      (internal height (sum (allSummaries.drop midpoint)) (allSummaries.drop midpoint) (allTrees.drop midpoint),
        some (internal height (sum (allSummaries.take midpoint)) (allSummaries.take midpoint) (allTrees.take midpoint)))
  | leaf smallSummary smallItems smallItemSummaries, leaf summary items itemSummaries =>
    let totalChildCount := smallItems.length + items.length
    let allItems := smallItems ++ items
    let allSummaries := smallItemSummaries ++ itemSummaries
    if totalChildCount ≤ 2 * treeBase then
      (leaf (Summary.addSummary smallSummary summary) allItems allSummaries, none)
    else
      let midpoint := (totalChildCount + 1) / 2
      (leaf (sum (allSummaries.drop midpoint)) (allItems.drop midpoint) (allSummaries.drop midpoint),
        some (leaf (sum (allSummaries.take midpoint)) (allItems.take midpoint) (allSummaries.take midpoint)))
  -- `unreachable!()`: the two are of one height
  | small, large => (large, some small)

/-- The end of the recursive branch of `append_large`: `first` is the first child after the append, `res` what it split off
to its left; when that does not fit, the node splits at `TREE_BASE` of its children. -/
def insertFirst (height : Nat) (summary : S) (childSummaries : List S) (first : SumTree T S)
    (childTrees : List (SumTree T S)) (res : Option (SumTree T S)) : SumTree T S × Option (SumTree T S) :=
  let childSummaries := first.summary :: childSummaries.tail
  let childTrees := first :: childTrees
  match res with
  | none => (internal height summary childSummaries childTrees, none)
  | some tree =>
    if childTrees.length < 2 * treeBase then
      (internal height summary (tree.summary :: childSummaries) (tree :: childTrees), none)
    else
      let newChildSummaries := tree.summary :: childSummaries.take treeBase
      (internal height (sum (childSummaries.drop treeBase)) (childSummaries.drop treeBase) (childTrees.drop treeBase),
        some (internal height (sum newChildSummaries) newChildSummaries (tree :: childTrees.take treeBase)))

mutual

/-- `SumTree::append_large`: put `small` before `large`, a tree at least as high; returns the new `large` and the node that
goes to its left, if there is one. -/
def appendLarge (small : SumTree T S) : SumTree T S → SumTree T S × Option (SumTree T S)
  | internal height summary childSummaries childTrees =>
    let large := internal height summary childSummaries childTrees
    if small.height = height then
      if !small.isUnderflowing then (large, some small) else mergeIntoRight small large
    else
      appendLargeFirst small height (Summary.addSummary small.summary summary) childSummaries childTrees
  | leaf summary items itemSummaries =>
    let large := leaf summary items itemSummaries
    if !small.isUnderflowing then (large, some small) else mergeIntoRight small large

/-- The recursive branch of `append_large`, which appends to the first child (`child_trees.first_mut().unwrap()`). -/
def appendLargeFirst (small : SumTree T S) (height : Nat) (summary : S) (childSummaries : List S) :
    List (SumTree T S) → SumTree T S × Option (SumTree T S)
  | [] => (internal height summary childSummaries [], some small)
  | t :: ts =>
    let (first, res) := appendLarge small t
    insertFirst height summary childSummaries first ts res

end

/-- `SumTree::append`. -/
def append (self other : SumTree T S) : SumTree T S :=
  if self.isEmpty then other
  else if !other.isLeaf || !other.items.isEmpty then
    if self.height < other.height then
      match appendLarge self other with
      | (other, some tree) => fromChildTrees tree other
      | (other, none) => other
    else
      match pushTreeRecursive self other with
      | (self, some splitTree) => fromChildTrees self splitTree
      | (self, none) => self
  else self

/-- `SumTree::push`. -/
def push (self : SumTree T S) (item : T) : SumTree T S :=
  self.append (leaf (Item.summary item) [item] [Item.summary item])

/-- `SumTree::extend`. -/
def extend (self : SumTree T S) (iter : List T) : SumTree T S := self.append (fromIter iter)

/-- `SumTree::par_extend`. -/
def parExtend (self : SumTree T S) (iter : List T) : SumTree T S := self.append (fromParIter iter)

mutual

/-- `SumTree::update_last_recursive`: the tree with its last item changed by `f`, and its new summary. -/
def updateLastRecursive (f : T → T) : SumTree T S → SumTree T S × Option S
  | internal height _ childSummaries childTrees =>
    let (childTrees, lastSummary) := updateLastOf f childTrees
    let childSummaries := childSummaries.dropLast ++ lastSummary.toList
    (internal height (sum childSummaries) childSummaries childTrees, some (sum childSummaries))
  | leaf summary items itemSummaries =>
    match items.getLast? with
    | some item =>
      let itemSummaries := itemSummaries.dropLast ++ [Item.summary (f item)]
      (leaf (sum itemSummaries) (items.dropLast ++ [f item]) itemSummaries, some (sum itemSummaries))
    | none => (leaf summary items itemSummaries, none)

/-- `child_trees.last_mut().unwrap()` updated. -/
def updateLastOf (f : T → T) : List (SumTree T S) → List (SumTree T S) × Option S
  | [] => ([], none)
  | [t] =>
    let (t, lastSummary) := updateLastRecursive f t
    ([t], lastSummary)
  | t :: t' :: ts =>
    let (ts, lastSummary) := updateLastOf f (t' :: ts)
    (t :: ts, lastSummary)

end

/-- `SumTree::update_last`. -/
def updateLast (self : SumTree T S) (f : T → T) : SumTree T S := (updateLastRecursive f self).1

mutual

/-- `SumTree::update_first_recursive`: the tree with its first item changed by `f`, and its new summary. -/
def updateFirstRecursive (f : T → T) : SumTree T S → SumTree T S × Option S
  | internal height _ childSummaries childTrees =>
    let (childTrees, firstSummary) := updateFirstOf f childTrees
    let childSummaries := firstSummary.toList ++ childSummaries.tail
    (internal height (sum childSummaries) childSummaries childTrees, some (sum childSummaries))
  | leaf summary items itemSummaries =>
    match items.head? with
    | some item =>
      let itemSummaries := Item.summary (f item) :: itemSummaries.tail
      (leaf (sum itemSummaries) (f item :: items.tail) itemSummaries, some (sum itemSummaries))
    | none => (leaf summary items itemSummaries, none)

/-- `child_trees.first_mut().unwrap()` updated. -/
def updateFirstOf (f : T → T) : List (SumTree T S) → List (SumTree T S) × Option S
  | [] => ([], none)
  | t :: ts =>
    let (t, firstSummary) := updateFirstRecursive f t
    (t :: ts, firstSummary)

end

/-- `SumTree::update_first`. -/
def updateFirst (self : SumTree T S) (f : T → T) : SumTree T S := (updateFirstRecursive f self).1

end Build

end SumTree

end Wu
