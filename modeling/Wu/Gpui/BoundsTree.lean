import Mathlib.Algebra.Group.Basic
import Mathlib.Order.Lattice
import Mathlib.Data.List.Nodup
import Mathlib.Algebra.Ring.Nat

/-!
# The tree of painted bounds

New bounds get an order above those of all earlier bounds that they intersect. The earlier ones are kept in a tree with many branches,
whose nodes hold the bounds and the greatest order of what is below them.
-/

namespace Wu.Gpui.PaintOrder

/-! ## Geometry -/

structure Point (U : Type) where
  x : U
  y : U

structure Size (U : Type) where
  width : U
  height : U

structure Bounds (U : Type) where
  origin : Point U
  size : Size U

variable {U : Type} [AddCommGroup U] [LinearOrder U]

namespace Point

def max (self other : Point U) : Point U := ⟨if self.x > other.x then self.x else other.x, if self.y > other.y then self.y else other.y⟩

def min (self other : Point U) : Point U := ⟨if self.x ≤ other.x then self.x else other.x, if self.y ≤ other.y then self.y else other.y⟩

end Point

namespace Bounds

def bottomRight (self : Bounds U) : Point U := ⟨self.origin.x + self.size.width, self.origin.y + self.size.height⟩

def fromCorners (topLeft bottomRight : Point U) : Bounds U := ⟨topLeft, ⟨bottomRight.x - topLeft.x, bottomRight.y - topLeft.y⟩⟩

def intersects (self other : Bounds U) : Bool :=
  self.origin.x < other.bottomRight.x && self.bottomRight.x > other.origin.x &&
    self.origin.y < other.bottomRight.y && self.bottomRight.y > other.origin.y

def union (self other : Bounds U) : Bounds U :=
  fromCorners (self.origin.min other.origin) (self.bottomRight.max other.bottomRight)

def halfPerimeter (self : Bounds U) : U := self.size.width + self.size.height

/-- Says that bounds contain others. -/
structure Contains (outer inner : Bounds U) : Prop where
  left : outer.origin.x ≤ inner.origin.x
  top : outer.origin.y ≤ inner.origin.y
  right : inner.bottomRight.x ≤ outer.bottomRight.x
  bottom : inner.bottomRight.y ≤ outer.bottomRight.y

theorem Contains.refl (self : Bounds U) : self.Contains self := ⟨le_rfl, le_rfl, le_rfl, le_rfl⟩

theorem Contains.trans {a b c : Bounds U} (h : a.Contains b) (h' : b.Contains c) : a.Contains c :=
  ⟨h.left.trans h'.left, h.top.trans h'.top, h'.right.trans h.right, h'.bottom.trans h.bottom⟩

theorem Contains.intersects {a b query : Bounds U} (h : a.Contains b) (hq : query.intersects b = true) : query.intersects a = true := by
  simp only [Bounds.intersects, Bool.and_eq_true, decide_eq_true_eq, gt_iff_lt] at hq ⊢
  obtain ⟨⟨⟨hleft, hrt⟩, htop⟩, hbot⟩ := hq
  exact ⟨⟨⟨hleft.trans_le h.right, h.left.trans_lt hrt⟩, htop.trans_le h.bottom⟩, h.top.trans_lt hbot⟩

theorem bottomRight_union (a b : Bounds U) : (a.union b).bottomRight = a.bottomRight.max b.bottomRight := by
  simp [union, fromCorners, bottomRight]

theorem union_contains (a b : Bounds U) : (a.union b).Contains a ∧ (a.union b).Contains b := by
  have hmin : ∀ x y : U, (if x ≤ y then x else y) = Min.min x y := fun x y => (min_def x y).symm
  have hmax : ∀ x y : U, (if x > y then x else y) = Max.max x y := by
    intro x y
    rcases lt_or_ge y x with h | h
    · rw [if_pos h, max_eq_left h.le]
    · rw [if_neg h.not_gt, max_eq_right h]
  have hori : (a.union b).origin = ⟨Min.min a.origin.x b.origin.x, Min.min a.origin.y b.origin.y⟩ := by
    rw [← hmin, ← hmin]
    rfl
  have hcorn : (a.union b).bottomRight =
      ⟨Max.max a.bottomRight.x b.bottomRight.x, Max.max a.bottomRight.y b.bottomRight.y⟩ := by
    rw [bottomRight_union, ← hmax, ← hmax]
    rfl
  refine ⟨⟨?_, ?_, ?_, ?_⟩, ⟨?_, ?_, ?_, ?_⟩⟩ <;> simp [hori, hcorn]

/-- What contains two bounds contains their union. -/
theorem Contains.union {outer a b : Bounds U} (ha : outer.Contains a) (hb : outer.Contains b) : outer.Contains (a.union b) := by
  refine ⟨?_, ?_, ?_, ?_⟩
  · show outer.origin.x ≤ if _ then _ else _
    split
    exacts [ha.left, hb.left]
  · show outer.origin.y ≤ if _ then _ else _
    split
    exacts [ha.top, hb.top]
  · rw [bottomRight_union]
    show (if _ then _ else _) ≤ outer.bottomRight.x
    split
    exacts [ha.right, hb.right]
  · rw [bottomRight_union]
    show (if _ then _ else _) ≤ outer.bottomRight.y
    split
    exacts [ha.bottom, hb.bottom]

end Bounds

/-! ## The tree -/

def maxChildren : Nat := 12

inductive NodeKind where
  | leaf (order : Nat)
  | internal (children : List Nat)

structure Node (U : Type) where
  bounds : Bounds U
  maxOrder : Nat
  kind : NodeKind

/-- The nodes are given by their indices, of which the first ones are in use. -/
structure BoundsTree (U : Type) where
  nodes : Nat → Node U
  len : Nat
  root : Option Nat
  maxLeaf : Option Nat

def NodeKind.isLeaf : NodeKind → Bool
  | leaf _ => true
  | internal _ => false

def NodeKind.children : NodeKind → List Nat
  | leaf _ => []
  | internal children => children

/-- `slice::swap` -/
def swap (l : List Nat) (i j : Nat) : List Nat := if h : i < l.length ∧ j < l.length then (l.set i l[j]).set j l[i] else l

/-- A child and a new leaf, the one with the greater order last. -/
def orderedPair (child childOrder newLeaf order : Nat) : List Nat := if order > childOrder then [child, newLeaf] else [newLeaf, child]

/-- The child whose bounds grow to the smallest ones, and its position. -/
def bestChild (nodes : Nat → Node U) (bounds : Bounds U) : Nat → Nat × Nat × U → List Nat → Nat × Nat
  | _, best, [] => (best.1, best.2.1)
  | pos, best, child :: children =>
    let cost := (bounds.union (nodes child).bounds).halfPerimeter
    if cost < best.2.2 then bestChild nodes bounds (pos + 1) (child, pos, cost) children
    else bestChild nodes bounds (pos + 1) best children

/-- The descent to the node whose best child is a leaf: the path to it, deepest first, and the child with its position. -/
def descend (nodes : Nat → Node U) (bounds : Bounds U) : Nat → Nat → List Nat → Option (List Nat × Nat × Nat)
  | 0, _, _ => none
  | fuel + 1, current, insertPath =>
    match (nodes current).kind.children with
    | [] => none
    | first :: children =>
      let cost := (bounds.union (nodes first).bounds).halfPerimeter
      let (child, pos) := bestChild nodes bounds 1 (first, 0, cost) children
      if (nodes child).kind.isLeaf then some (current :: insertPath, child, pos)
      else descend nodes bounds fuel child (current :: insertPath)

/-- What becomes of a node above the new leaf; a child with the greatest order goes to the end. -/
def propagateStep (bounds : Bounds U) (order : Nat) (updatedChild : Option Nat) (node : Node U) : Node U :=
  { bounds := node.bounds.union bounds
    maxOrder := if node.maxOrder < order then order else node.maxOrder
    kind :=
      match updatedChild, node.kind with
      | some child, .internal children =>
        if node.maxOrder < order ∧ child ∈ children then .internal (swap children (children.idxOf child) (children.length - 1))
        else .internal children
      | _, kind => kind }

/-- The loop up the path. -/
def propagate (bounds : Bounds U) (order : Nat) : Option Nat → List Nat → (Nat → Node U) → Nat → Node U
  | _, [], nodes => nodes
  | updatedChild, i :: path, nodes =>
    propagate bounds order (some i) path (Function.update nodes i (propagateStep bounds order updatedChild (nodes i)))

/-- The new leaf becomes a child of a node that has room. -/
def addChild (bounds : Bounds U) (order newLeaf : Nat) (node : Node U) : Node U :=
  { bounds := node.bounds.union bounds
    maxOrder := max node.maxOrder order
    kind :=
      match node.kind with
      | .internal children =>
        let children := children ++ [newLeaf]
        .internal (if order ≤ node.maxOrder then swap children (children.length - 1 - 1) (children.length - 1) else children)
      | kind => kind }

/-- A leaf is replaced by a node with it and the new leaf. -/
def replaceChild (pos newInternal newMax : Nat) (node : Node U) : Node U :=
  { node with
    kind :=
      match node.kind with
      | .internal children =>
        let replaced := children.set pos newInternal
        .internal (if newMax > node.maxOrder then swap replaced pos (children.length - 1) else replaced)
      | kind => kind }

namespace BoundsTree

def empty (node : Node U) : BoundsTree U := ⟨fun _ => node, 0, none, none⟩

def push (self : BoundsTree U) (node : Node U) : BoundsTree U :=
  { self with nodes := Function.update self.nodes self.len node, len := self.len + 1 }

/-- The loop over the search stack, whose top is in front. -/
def searchLoop (nodes : Nat → Node U) (query : Bounds U) : Nat → List Nat → Nat → Option Nat
  | _, [], maxFound => some maxFound
  | 0, _ :: _, _ => none
  | fuel + 1, i :: stack, maxFound =>
    if (nodes i).maxOrder ≤ maxFound then searchLoop nodes query fuel stack maxFound
    else if ¬query.intersects (nodes i).bounds then searchLoop nodes query fuel stack maxFound
    else
      match (nodes i).kind with
      | .leaf order => searchLoop nodes query fuel stack (max maxFound order)
      | .internal children =>
        searchLoop nodes query fuel ((children.filter fun child => decide ((nodes child).maxOrder > maxFound)).reverse ++ stack) maxFound

/-- The fuel is more than the loop can need. -/
def findMaxOrdering (self : BoundsTree U) (query : Bounds U) : Option Nat :=
  match self.root with
  | none => some 0
  | some root =>
    match self.maxLeaf with
    | some leaf =>
      if query.intersects (self.nodes leaf).bounds then some (self.nodes leaf).maxOrder
      else searchLoop self.nodes query ((maxChildren + 1) ^ self.len) [root] 0
    | none => searchLoop self.nodes query ((maxChildren + 1) ^ self.len) [root] 0

def insertLeaf (self : BoundsTree U) (bounds : Bounds U) (order : Nat) : Option (Nat × BoundsTree U) :=
  let newLeaf := self.len
  let tree := self.push ⟨bounds, order, .leaf order⟩
  match self.root with
  | none => some (newLeaf, { tree with root := some newLeaf })
  | some root =>
    let rootNode := tree.nodes root
    if rootNode.kind.isLeaf then
      let newRoot := tree.len
      let tree := tree.push
        ⟨rootNode.bounds.union bounds, max rootNode.maxOrder order, .internal (orderedPair root rootNode.maxOrder newLeaf order)⟩
      some (newLeaf, { tree with root := some newRoot })
    else
      match descend tree.nodes bounds tree.len root [] with
      | some (current :: path, child, pos) =>
        if (tree.nodes current).kind.children.length < maxChildren then
          let nodes := Function.update tree.nodes current (addChild bounds order newLeaf (tree.nodes current))
          some (newLeaf, { tree with nodes := propagate bounds order none (current :: path) nodes })
        else
          let childNode := tree.nodes child
          let newInternal := tree.len
          let newMax := max childNode.maxOrder order
          let tree := tree.push
            ⟨childNode.bounds.union bounds, newMax, .internal (orderedPair child childNode.maxOrder newLeaf order)⟩
          let nodes := Function.update tree.nodes current (replaceChild pos newInternal newMax (tree.nodes current))
          some (newLeaf, { tree with nodes := propagate bounds order none (current :: path) nodes })
      | _ => none

def insert (self : BoundsTree U) (newBounds : Bounds U) : Option (Nat × BoundsTree U) := do
  let maxIntersecting ← self.findMaxOrdering newBounds
  let ordering := maxIntersecting + 1
  let (newLeaf, tree) ← self.insertLeaf newBounds ordering
  let maxLeaf :=
    match tree.maxLeaf with
    | none => some newLeaf
    | some old => if (tree.nodes old).maxOrder < ordering then some newLeaf else some old
  return (ordering, { tree with maxLeaf })

end BoundsTree

end Wu.Gpui.PaintOrder
