import Mathlib.Algebra.Ring.Nat
import Wu.SumTree.CursorRefines

/-!
# Trees built by the operations

A tree is built by `new`, the pushes and extensions, `append`, the slices of a cursor over a built tree, and updates of the
first and the last item. `Builds t xs` pairs the tree with the list the same operations give. Every built tree is balanced
and summarised at every node (`NodeOk`), and an iterator over it yields the list.
-/

namespace Wu

universe u v w x

open SumTree Place

/-! ## Iterating -/

namespace Iter

variable {T : Type u} {S : Type v} [Summary S] [Item T S]

/-- The stack of an iterator, as that of a cursor without a position. -/
def ofCursor (stack : List (StackEntry T S Unit)) : List (SumTree T S × Nat) := stack.map fun e => (e.tree, e.index)

/-- What an iterator finds from before the items `mid`: the first of them, if there is one. -/
def NextSpec (t : SumTree T S) (bef mid aft : List T) (found : Option (T × List (SumTree T S × Nat))) : Prop :=
  (mid = [] ∧ found = none) ∨ ∃ x r stack, mid = x :: r ∧ found = some (x, ofCursor stack) ∧
      Cursor.AtItem (fun _ _ => True) t stack bef x (r ++ aft)

variable {t : SumTree T S}

variable {h : Nat} {stack : List (StackEntry T S Unit)} {bef aft : List T}

theorem nextTrees_spec (ih : ∀ {c : SumTree T S} {stack : List (StackEntry T S Unit)} {bef aft : List T},
      Cursor.Context (fun _ _ => True) t stack h c bef aft → NextSpec t bef c.toList aft (nextNode c (ofCursor stack)))
    {s : S} {ss : List S} {cs : List (SumTree T S)}
    (hc : Cursor.Context (fun _ _ => True) t stack (h + 1) (.internal (h + 1) s ss cs) bef aft)
    (r l : List (SumTree T S)) (hcs : cs = l ++ r) :
    NextSpec t (bef ++ l.flatMap toList) (r.flatMap toList) aft
      (nextTrees (.internal (h + 1) s ss cs) (ofCursor stack) l.length r) := by
  obtain ⟨-, hch, -⟩ := hc.children
  cases r with
  | nil => exact .inl ⟨rfl, rfl⟩
  | cons c r =>
    subst hcs
    obtain ⟨-, hcne⟩ := hch c (by simp)
    rcases ih (hc.child (p := ()) trivial) with ⟨hnil, -⟩ | ⟨x, ys, stack', hmid, hfnd, hat⟩
    · exact absurd hnil hcne
    · refine .inr ⟨x, ys ++ r.flatMap toList, stack', by simp [hmid], ?_, by simpa using hat⟩
      rw [nextTrees]
      simp only [ofCursor, List.map_cons] at hfnd ⊢
      rw [hfnd]

theorem nextNode_spec (h : Nat) : ∀ {c : SumTree T S} {stack : List (StackEntry T S Unit)} {bef aft : List T},
    Cursor.Context (fun _ _ => True) t stack h c bef aft → NextSpec t bef c.toList aft (nextNode c (ofCursor stack)) := by
  induction h with
  | zero =>
    intro c stack bef aft hc
    obtain ⟨xs, -, rfl⟩ := hc.wf.zero
    cases xs with
    | nil => exact .inl ⟨by simp, by simp [nextNode]⟩
    | cons x xs =>
      refine .inr ⟨x, xs, ⟨.leaf _ _ _, 0, ()⟩ :: stack, by simp, by rfl, ?_⟩
      simpa using Cursor.AtItem.of_leaf (l := []) hc rfl
  | succ h ih =>
    intro c stack bef aft hc
    obtain ⟨cs, -, -, -, rfl⟩ := hc.wf.succ
    simpa [nextNode] using nextTrees_spec ih hc cs [] rfl

theorem nextUp_spec {c : SumTree T S} (hc : Cursor.Context (fun _ _ => True) t stack h c bef aft) :
    NextSpec t (bef ++ c.toList) aft [] (nextUp (ofCursor stack)) := by
  induction hc with
  | root hw => exact .inl ⟨rfl, rfl⟩
  | @child stack h s ss l r c bef aft p hc _ ih =>
    have hrest := nextTrees_spec (nextNode_spec h) hc r (l ++ [c]) (by simp)
    have hdrop : (l ++ c :: r).drop (l.length + 1) = r := by simp
    simp only [List.length_append, List.length_singleton] at hrest
    rw [ofCursor, List.map_cons, nextUp]
    simp only [hdrop]
    rw [← ofCursor]
    rcases hrest with ⟨hnil, hfnd⟩ | ⟨x, ys, stack', hmid, hfnd, hat⟩
    · rw [hfnd]
      simpa [hnil] using ih
    · rw [hfnd]
      exact .inr ⟨x, ys ++ aft, stack', by simp [hmid], rfl, by simpa using hat⟩

/-- From an item, the iterator finds the one after it. -/
theorem nextUp_atItem {x : T} (ha : Cursor.AtItem (fun _ _ => True) t stack bef x aft) :
    NextSpec t (bef ++ [x]) aft [] (nextUp (ofCursor stack)) := by
  cases ha with
  | @mk stack s ss l r x bef aft p hc =>
    rw [ofCursor, List.map_cons, nextUp]
    cases r with
    | nil => simpa [ofCursor] using nextUp_spec hc
    | cons y r =>
      refine .inr ⟨y, r ++ aft, ⟨.leaf s (l ++ x :: y :: r) ss, (l ++ [x]).length, ()⟩ :: stack, rfl, by simp [ofCursor], ?_⟩
      simpa using Cursor.AtItem.of_leaf (l := l ++ [x]) hc (by simp)

/-- From before the item of index `bef.length`, the calls of `next` give the items left, and then none. -/
theorem nth_spec (aft : List T) : ∀ (bef : List T) (it : Iter T S) (found : Option (T × List (SumTree T S × Nat))),
    it.tree = t → (if it.stack.isEmpty then nextNode it.tree [] else nextUp it.stack) = found →
      NextSpec t bef aft [] found → ∀ n ≤ aft.length, it.nth n = aft[n]? := by
  induction aft with
  | nil =>
    rintro - it - - hfnd (⟨-, rfl⟩ | ⟨x, r, -, hmid, -⟩) n hn
    · obtain rfl : n = 0 := by simpa using hn
      simp only [nth, next, hfnd, List.getElem?_nil]
    · exact absurd hmid (by simp)
  | cons x aft ih =>
    rintro bef it - rfl hfnd (⟨hmid, -⟩ | ⟨y, r, stack, hmid, rfl, hat⟩) n hn
    · exact absurd hmid (by simp)
    · obtain ⟨rfl, rfl⟩ := List.cons.inj hmid
      have hnext : it.next = (some x, { it with stack := ofCursor stack }) := by simp only [next, hfnd]
      cases n with
      | zero => simp [nth, hnext]
      | succ n =>
        rw [nth, hnext]
        have hne : (ofCursor stack).isEmpty = false := by
          simpa [ofCursor] using hat.stack_ne_nil
        refine ih (bef ++ [x]) { it with stack := ofCursor _ } _ rfl (by simp [hne]; rfl) ?_ n (by simpa using hn)
        simpa using nextUp_atItem hat

end Iter

variable {T : Type u} {S : Type v} [Summary S] [Item T S]

/-- The calls of `next` on the iterator of a tree give its items in order, and then none. -/
theorem SumTree.iter_nth {t : SumTree T S} (ht : t.WellFormed) {n : Nat} (hn : n ≤ t.toList.length) :
    t.iter.nth n = t.toList[n]? := by
  obtain ⟨h, hw⟩ := ht
  refine Iter.nth_spec _ [] _ _ rfl rfl ?_ n hn
  simpa [iter, Iter.new, Iter.ofCursor] using Iter.nextNode_spec h (Cursor.Context.root hw)

/-! ## Every node -/

namespace SumTree

/-- `s` is a node of `t`. -/
inductive Node (s : SumTree T S) : SumTree T S → Prop where
  | root : Node s s
  | child {t c : SumTree T S} : c ∈ t.childTrees → Node s c → Node s t

/-- What holds of a node of a balanced and summarised tree. -/
structure NodeOk (s : SumTree T S) : Prop where
  height : ∀ c ∈ s.childTrees, c.height + 1 = s.height
  children_le : s.childTrees.length ≤ 2 * treeBase ∧ s.items.length ≤ 2 * treeBase
  nonempty : s.isLeaf = false → s.childTrees ≠ [] ∧ s.toList ≠ []
  summary : s.summary = sum (s.toList.map Item.summary)
  childSummaries : s.childSummaries = if s.isLeaf then s.items.map Item.summary else s.childTrees.map SumTree.summary

/-- Every node of a well-formed tree is well-formed. -/
theorem Node.wf {s t : SumTree T S} (hn : Node s t) : t.WellFormed → s.WellFormed := by
  induction hn with
  | root => exact id
  | @child t c hc _ ih =>
    rintro ⟨h, hw⟩
    cases t with
    | leaf s xs ss => simp [childTrees] at hc
    | internal height s ss cs =>
      obtain ⟨k, -, -, -, -, hcs, -⟩ := wf_internal.mp hw
      exact ih ⟨k, (hcs c hc).1⟩

theorem WellFormed.nodeOk [LawfulSummary S] {t : SumTree T S} (ht : t.WellFormed) : NodeOk t := by
  obtain ⟨h, hw⟩ := ht
  have hsum := hw.summary_eq
  cases t with
  | leaf s xs ss =>
    obtain ⟨-, hlen, rfl, -⟩ := wf_leaf.mp hw
    exact ⟨by simp [childTrees], by simpa [childTrees, items] using hlen, by simp [isLeaf], hsum,
      by simp [SumTree.childSummaries, isLeaf, items]⟩
  | internal height s ss cs =>
    obtain ⟨k, -, rfl, hne, hlen, hcs, rfl, -⟩ := wf_internal.mp hw
    refine ⟨?_, by simpa [childTrees, items] using hlen, ?_, hsum, by simp [SumTree.childSummaries, isLeaf, childTrees]⟩
    · intro c hc
      rw [(hcs c hc).1.height_eq]
      rfl
    · intro _
      exact ⟨hne, by simpa using hcs.flatMap_ne_nil hne⟩

end SumTree

/-! ## Slices -/

namespace Cursor

variable {D : Type w} [Dimension D S]

/-- How many items lie before the child or the item an entry of the stack is at, within the entry's tree. -/
def entryItems (entry : StackEntry T S D) : Nat :=
  match entry.tree with
  | .internal _ _ _ childTrees => ((childTrees.take entry.index).flatMap toList).length
  | .leaf .. => entry.index

/-- How many items of the tree lie before the cursor. -/
def itemIndex (c : Cursor T S D) : Nat :=
  if c.stack.isEmpty then if c.atEnd then c.tree.toList.length else 0 else (c.stack.map entryItems).sum

omit [Dimension D S] in
theorem Context.sum_entryItems {Q : D → List T → Prop} {t c : SumTree T S} {stack : List (StackEntry T S D)} {h : Nat}
    {bef aft : List T} (hc : Context Q t stack h c bef aft) : (stack.map entryItems).sum = bef.length := by
  induction hc with
  | root hw => rfl
  | child _ _ ih =>
    simp only [List.map_cons, List.sum_cons, ih, entryItems, List.take_left, List.length_append]
    omega

/-- A cursor at a place has as many items before it as the list cursor. -/
theorem Sim.itemIndex {Q : D → List T → Prop} {t : SumTree T S} (ht : t.WellFormed) {c : Cursor T S D} {p : Place}
    (hs : Sim Q t c p) : c.itemIndex = ListCursor.index ⟨t.toList, p⟩ := by
  have hemp : t.isEmpty = true ↔ t.toList = [] := ht.elim fun _ hw => hw.isEmpty_iff
  cases p with
  | fresh =>
    subst hs
    by_cases he : t.isEmpty = true <;> simp [Cursor.itemIndex, new, ListCursor.index, he, hemp.mp]
  | before =>
    obtain ⟨rfl, -, hst, -, hend⟩ := hs
    by_cases he : c.tree.isEmpty = true <;> simp [Cursor.itemIndex, hst, ListCursor.index, hend, he, hemp.mp]
  | «at» i =>
    obtain ⟨rfl, -, hat⟩ := hs
    cases hat with
    | @item bef aft x ha hpos hend =>
      have hne := ha.stack_ne_nil
      simp only [Cursor.itemIndex, List.isEmpty_iff, hne, if_false, ListCursor.index]
      generalize c.stack = stack at ha
      cases ha with
      | mk hc =>
        simp only [List.map_cons, List.sum_cons, hc.sum_entryItems, entryItems, List.length_append]
        omega
    | «end» hst hpos hend => simp [Cursor.itemIndex, hst, hend, ListCursor.index]

/-- The cursors over `t` that seeking and slicing lead to. -/
inductive Slicing (t : SumTree T S) : Cursor T S D → Prop where
  | new : Slicing t (Cursor.new t)
  | seek {c : Cursor T S D} (target : SeekTarget D) (bias : Bias) : Slicing t c → Slicing t (c.seek target bias)
  | seekForward {c : Cursor T S D} (target : SeekTarget D) (bias : Bias) :
      Slicing t c → Slicing t (c.seekForward target bias)
  | slice {c : Cursor T S D} (target : SeekTarget D) (bias : Bias) : Slicing t c → Slicing t (c.slice target bias).1

section Slicing

variable {Q : D → List T → Prop} {t : SumTree T S}

variable {c : Cursor T S D} {p : Place}

/-- Only a cursor that is before the first item is at the front. -/
theorem Sim.not_atFront (hs : Sim Q t c p) (hp : p ≠ .before) : ¬c.AtFront := by
  rintro ⟨hseek, hst, hend⟩
  cases p with
  | fresh => subst hs; simp [new] at hseek
  | before => exact hp rfl
  | «at» i =>
    obtain ⟨-, -, hat⟩ := hs
    cases hat with
    | item ha _ _ => exact ha.stack_ne_nil hst
    | «end» _ _ hend' => simp [hend] at hend'

/-- A seek from a place other than `before`, which collects what it moves over. -/
theorem Sim.seekInternal_index {α : Type x} {agg : SeekAggregate T S α} {R : α → List T → Prop}
    {P : α → List T → Nat → Prop} {target : SeekTarget D} {bias : Bias} {avoid stop : List T → T → Prop}
    (ht : t.WellFormed) (hag : Collects agg R P) (hs : SeekRules target bias t Q avoid stop)
    (hzero : Q (Dimension.zero S) []) {a : α} (hsim : Sim Q t c p) (hp : p ≠ .before)
    (hr : R a []) :
    Sim Q t (c.seekInternal target bias agg a).1 (.at (c.seekInternal target bias agg a).1.itemIndex) ∧
      R (c.seekInternal target bias agg a).2 ((t.toList.take (c.seekInternal target bias agg a).1.itemIndex).drop c.itemIndex) ∧
      Moves avoid stop t.toList c.itemIndex (c.seekInternal target bias agg a).1.itemIndex := by
  obtain ⟨j, hj, hrj, hm⟩ := hsim.seekInternal ht hag hs hzero (hsim.not_atFront hp) hr
  rw [← hsim.itemIndex ht] at hrj hm
  obtain rfl : (c.seekInternal target bias agg a).1.itemIndex = j := hj.itemIndex ht
  exact ⟨hj, hrj, hm⟩

/-- A cursor that only seeks and slices is at a place other than `before`. -/
theorem Slicing.sim [LawfulSummary S] (ht : t.WellFormed) (hzero : Q (Dimension.zero S) [])
    (hs : ∀ target bias, SeekRules target bias t Q (fun _ _ => False) fun _ _ => True)
    (hc : Slicing t c) : ∃ p, p ≠ .before ∧ Sim Q t c p := by
  induction hc with
  | new => exact ⟨.fresh, fresh_ne_before, rfl⟩
  | @seek c target bias _ ih =>
    obtain ⟨p, hp, hsim⟩ := ih
    have htree : c.tree = t := by
      cases p with
      | fresh => subst hsim; rfl
      | before => exact hsim.1
      | «at» i => exact hsim.1
    have hfre : Sim Q t c.reset .fresh := by simp [Sim, reset, htree]
    exact ⟨.at _, at_ne_before _, (hfre.seekInternal_index ht noAggregate_collects (hs _ bias) hzero fresh_ne_before trivial).1⟩
  | seekForward target bias _ ih =>
    obtain ⟨p, hp, hsim⟩ := ih
    exact ⟨.at _, at_ne_before _, (hsim.seekInternal_index ht noAggregate_collects (hs _ bias) hzero hp trivial).1⟩
  | slice target bias _ ih =>
    obtain ⟨p, hp, hsim⟩ := ih
    exact ⟨.at _, at_ne_before _, (hsim.seekInternal_index ht sliceAggregate_collects (hs _ bias) hzero hp sliceCollected_new).1⟩

variable [LawfulSummary S] (ht : t.WellFormed) {c : Cursor T S D} (hc : Slicing t c) (target : SeekTarget D) (bias : Bias)

include ht hc

/-- A slice is the items between the places of the cursor. -/
theorem Slicing.slice_wf : (c.slice target bias).2.WellFormed ∧
    (c.slice target bias).2.toList = (t.toList.take (c.slice target bias).1.itemIndex).drop c.itemIndex := by
  obtain ⟨p, hp, hsim⟩ := hc.sim ht trivial (fun target bias => seekRules_any _ bias t)
  obtain ⟨-, ⟨hw, hl, -⟩, -⟩ := hsim.seekInternal_index ht sliceAggregate_collects (seekRules_any _ bias t) trivial hp
    sliceCollected_new
  exact ⟨hw, hl⟩

/-- With a monotone target along a lawful dimension, the cursor moves to the first item whose end is not passed. -/
theorem Slicing.slice_index [LawfulDimension D S] (hm : MonotoneAlong target bias t.toList) :
    (c.slice target bias).1.itemIndex = ListCursor.seekIndex target bias t.toList c.itemIndex := by
  obtain ⟨p, hp, hsim⟩ := hc.sim ht rfl fun target bias => seekRules_lawful _ bias t
  have hrule := seekRules_of_sound (seekSound_of_monotone hm)
  obtain ⟨-, -, hmove⟩ := hsim.seekInternal_index ht sliceAggregate_collects hrule rfl hp sliceCollected_new
  exact hmove.seekIndex_eq.symm

end Slicing

end Cursor

/-! ## Building -/

/-- The trees built by the operations, each with the list that the same operations give. -/
inductive Builds : SumTree T S → List T → Prop where
  | new : Builds SumTree.new []
  | fromIter (ys : List T) : Builds (SumTree.fromIter ys) ys
  | fromParIter (ys : List T) : Builds (SumTree.fromParIter ys) ys
  | push {t : SumTree T S} {xs : List T} (x : T) : Builds t xs → Builds (t.push x) (xs ++ [x])
  | extend {t : SumTree T S} {xs : List T} (ys : List T) : Builds t xs → Builds (t.extend ys) (xs ++ ys)
  | parExtend {t : SumTree T S} {xs : List T} (ys : List T) : Builds t xs → Builds (t.parExtend ys) (xs ++ ys)
  | append {t t' : SumTree T S} {xs ys : List T} : Builds t xs → Builds t' ys → Builds (t.append t') (xs ++ ys)
  | updateFirst {t : SumTree T S} {xs : List T} (f : T → T) : Builds t xs → Builds (t.updateFirst f) (modifyFirst f xs)
  | updateLast {t : SumTree T S} {xs : List T} (f : T → T) : Builds t xs → Builds (t.updateLast f) (modifyLast f xs)
  | slice {t : SumTree T S} {xs : List T} {D : Type w} [Dimension D S] {c : Cursor T S D} (target : SeekTarget D)
      (bias : Bias) : Builds t xs → Cursor.Slicing t c →
      Builds (c.slice target bias).2 ((xs.take (c.slice target bias).1.itemIndex).drop c.itemIndex)

/-- A built tree is well-formed and holds the list. -/
theorem Builds.wf [LawfulSummary S] {t : SumTree T S} {xs : List T} (hb : Builds.{u, v, w} t xs) : t.WellFormed ∧ t.toList = xs := by
  induction hb with
  | new => exact ⟨new_wf, toList_new⟩
  | fromIter ys => exact fromIter_wf ys
  | fromParIter ys => rw [fromParIter_eq]; exact fromIter_wf ys
  | push x _ ih =>
    obtain ⟨hw, rfl⟩ := ih
    exact push_wf hw x
  | extend ys _ ih =>
    obtain ⟨hw, rfl⟩ := ih
    obtain ⟨hw', hl⟩ := fromIter_wf ys
    simpa [SumTree.extend, hl] using append_wf hw hw'
  | parExtend ys _ ih =>
    obtain ⟨hw, rfl⟩ := ih
    obtain ⟨hw', hl⟩ := fromIter_wf ys
    simpa [SumTree.parExtend, fromParIter_eq, hl] using append_wf hw hw'
  | append _ _ ih ih' =>
    obtain ⟨hw, rfl⟩ := ih
    obtain ⟨hw', rfl⟩ := ih'
    exact append_wf hw hw'
  | updateFirst f _ ih =>
    obtain ⟨hw, rfl⟩ := ih
    exact updateFirst_wf f hw
  | updateLast f _ ih =>
    obtain ⟨hw, rfl⟩ := ih
    exact updateLast_wf f hw
  | slice target bias _ hc ih =>
    obtain ⟨hw, rfl⟩ := ih
    exact hc.slice_wf hw _ bias

/-- A built tree is iterated as the list, balanced, and summarised at every node. Its slices are the items its cursors move
over, to the first whose end the target does not pass. `from_par_iter` builds the tree that `from_iter` does. -/
theorem built_tree_balanced [LawfulSummary S] {t : SumTree T S} {xs : List T} (hb : Builds.{u, v, w} t xs) :
    (∀ n ≤ xs.length, t.iter.nth n = xs[n]?) ∧ (∀ s, SumTree.Node s t → NodeOk s) ∧
      (∀ {D : Type w} [Dimension D S] [LawfulDimension D S] {c : Cursor T S D} (target : SeekTarget D) (bias : Bias),
        Cursor.Slicing t c → Cursor.MonotoneAlong target bias xs →
          (c.slice target bias).1.itemIndex = ListCursor.seekIndex target bias xs c.itemIndex) ∧
      ∀ ys : List T, (fromParIter ys : SumTree T S) = fromIter ys := by
  obtain ⟨hw, rfl⟩ := hb.wf
  refine ⟨fun n hn => iter_nth hw hn, fun s hs => (hs.wf hw).nodeOk, ?_, fromParIter_eq⟩
  intro D _ _ c target bias hc hm
  exact hc.slice_index hw target bias hm

/-- Five integers, built by pushing, extending and appending, and the slice of the first two of them. -/
theorem built_tree_balanced_integers :
    let t : SumTree UInt8 IntegersSummary := ((SumTree.new.push 1).extend [2, 3]).append (fromParIter [4, 5])
    (∀ n ≤ 2, ((Cursor.new (D := Count) t).slice (compare 2) .right).2.iter.nth n = ([1, 2] : List UInt8)[n]?) ∧
      ∀ s, SumTree.Node s ((Cursor.new (D := Count) t).slice (compare 2) .right).2 → NodeOk s := by
  intro t
  have hb : Builds t [1, 2, 3, 4, 5] := .append (.extend [2, 3] (.push 1 .new)) (.fromParIter [4, 5])
  have hs : Builds ((Cursor.new (D := Count) t).slice (compare 2) .right).2 [1, 2] := .slice (compare 2) .right hb .new
  exact ⟨(built_tree_balanced hs).1, (built_tree_balanced hs).2.1⟩

end Wu
