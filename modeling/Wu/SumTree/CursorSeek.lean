import Wu.SumTree.CursorWalk

/-!
# What the loops of a seek do

`seek_internal` and the three things it collects on its way. A seek stops at the first item whose end its target does not
pass; what it has collected is the items before that one (`Collects`). What the loops need to know of the target is stated
as the rules they are proved from (`SeekRules`), and there are two sets of them. Any target along any dimension has the
rules that say nothing (`seekRules_any`): a seek then collects the items it moves over, wherever it stops. A target that is
sound for the tree has those that say where (`seekRules_of_sound`): when it passes the end of a node, the node measures as
its items do and it passes all of them (`SeekSound`). A monotone target along a lawful dimension is sound.
-/

namespace Wu

open List

universe u v w x

open SumTree

namespace Cursor

variable {T : Type u} {S : Type v} {D : Type w} {α : Type x} [Item T S] [Dimension D S]

/-- The seek stops at the item `x` after the items `p`: the target does not pass its end. -/
def StopsAt (target : SeekTarget D) (bias : Bias) (p : List T) (x : T) : Prop :=
  ¬target.passes bias (positionAfter D (p ++ [x])) = true

/-- The target is monotone along `xs`: what it passes it also passes at every earlier position. -/
def MonotoneAlong (target : SeekTarget D) (bias : Bias) (xs : List T) : Prop :=
  ∀ bef mid aft, xs = bef ++ mid ++ aft → target.passes bias (positionAfter D (bef ++ mid)) = true →
    target.passes bias (positionAfter D bef) = true

variable [Summary S]

/-- When the target passes the end of a node of `t`, the node measures as its items do and the target passes each. -/
def SeekSound (target : SeekTarget D) (bias : Bias) (t : SumTree T S) : Prop :=
  ∀ (h : Nat) (c : SumTree T S) (bef aft : List T), WF h c → c.toList ≠ [] → t.toList = bef ++ c.toList ++ aft →
    target.passes bias (Dimension.addSummary (positionAfter D bef) c.summary) = true →
      Dimension.addSummary (positionAfter D bef) c.summary = positionAfter D (bef ++ c.toList) ∧
        Passes (StopsAt target bias) bef c.toList

theorem seekSound_of_monotone [LawfulSummary S] [LawfulDimension D S] {target : SeekTarget D} {bias : Bias}
    {t : SumTree T S} (hm : MonotoneAlong target bias t.toList) : SeekSound target bias t := by
  intro h c bef aft hw hne heq hpass
  have hpos := positionAfter_tree (D := D) hw hne bef
  refine ⟨hpos, ?_⟩
  rw [hpos] at hpass
  intro m x m' hcl hstop
  refine hstop (hm _ m' aft ?_ ?_)
  · rw [heq, hcl]; simp
  · rw [hcl] at hpass; simpa using hpass

/-- What the loops of a seek keep: `Q` of the position and the items before it, `avoid` of no item they pass, and `stop` of
the item they stop at. -/
structure SeekRules (target : SeekTarget D) (bias : Bias) (t : SumTree T S) (Q : D → List T → Prop)
    (avoid stop : List T → T → Prop) : Prop where
  item : ∀ {p bef} (x : T), Q p bef → target.passes bias (Dimension.addSummary p (Item.summary x)) = true →
    Q (Dimension.addSummary p (Item.summary x)) (bef ++ [x]) ∧ ¬avoid bef x
  halt : ∀ {p bef} (x : T), Q p bef → ¬target.passes bias (Dimension.addSummary p (Item.summary x)) = true → stop bef x
  node : ∀ {p bef} (h : Nat) (c : SumTree T S) (aft : List T), Q p bef → WF h c → c.toList ≠ [] →
    t.toList = bef ++ c.toList ++ aft → target.passes bias (Dimension.addSummary p c.summary) = true →
      Q (Dimension.addSummary p c.summary) (bef ++ c.toList) ∧ Passes avoid bef c.toList

/-- The rules that say nothing. -/
theorem seekRules_any (target : SeekTarget D) (bias : Bias) (t : SumTree T S) :
    SeekRules target bias t (fun _ _ => True) (fun _ _ => False) (fun _ _ => True) where
  item _ _ _ := ⟨trivial, id⟩
  halt _ _ _ := trivial
  node _ _ _ _ _ _ _ _ := ⟨trivial, fun _ _ _ _ => id⟩

/-- The rules of any target along a lawful dimension: the position measures the items before it. -/
theorem seekRules_lawful [LawfulSummary S] [LawfulDimension D S] (target : SeekTarget D) (bias : Bias) (t : SumTree T S) :
    SeekRules target bias t Positioned (fun _ _ => False) (fun _ _ => True) where
  item := by
    rintro p - x rfl -
    exact ⟨(positionAfter_concat _ _).symm, id⟩
  halt _ _ _ := trivial
  node := by
    rintro p bef h c - rfl hw hne - -
    exact ⟨positionAfter_tree hw hne bef, fun _ _ _ _ => id⟩

theorem seekRules_of_sound {target : SeekTarget D} {bias : Bias} {t : SumTree T S} (hs : SeekSound target bias t) :
    SeekRules target bias t Positioned (StopsAt target bias) (StopsAt target bias) where
  item := by
    rintro p bef x rfl hpass
    rw [← positionAfter_concat] at hpass
    exact ⟨(positionAfter_concat _ _).symm, fun hstop => hstop hpass⟩
  halt := by
    rintro p bef x rfl hpass
    rwa [← positionAfter_concat] at hpass
  node := by
    rintro p bef h c aft rfl hw hne heq hpass
    exact hs h c bef aft hw hne heq hpass

/-! ## What a seek collects -/

/-- The aggregate collects the items the seek passes over: `R a xs` says that `a` has collected `xs`, and `P a xs n` that
it has, with the last `n` of them in the leaf it is in. -/
structure Collects (agg : SeekAggregate T S α) (R : α → List T → Prop) (P : α → List T → Nat → Prop) : Prop where
  beginLeaf : ∀ {a xs}, R a xs → P (agg.beginLeaf a) xs 0
  pushItem : ∀ {a xs n} (x : T), P a xs n → n < 2 * treeBase → P (agg.pushItem a x (Item.summary x)) (xs ++ [x]) (n + 1)
  endLeaf : ∀ {a xs n}, P a xs n → n ≤ 2 * treeBase → R (agg.endLeaf a) xs
  pushTree : ∀ {a xs} (h : Nat) (c : SumTree T S), R a xs → WF h c → c.toList ≠ [] → R (agg.pushTree a c c.summary) (xs ++ c.toList)

theorem noAggregate_collects :
    Collects (noAggregate : SeekAggregate T S Unit) (fun _ _ => True) (fun _ _ _ => True) where
  beginLeaf _ := trivial
  pushItem _ _ _ := trivial
  endLeaf _ _ := trivial
  pushTree _ _ _ _ _ := trivial

/-- A slice that has collected `xs`, outside of a leaf. -/
def SliceCollected (a : SliceSeekAggregate T S) (xs : List T) : Prop :=
  a.tree.WellFormed ∧ a.tree.toList = xs ∧ a.leafItems = [] ∧ a.leafItemSummaries = [] ∧ a.leafSummary = Summary.zero

/-- A slice that has collected `xs`, the last `n` of them in a leaf. -/
def SlicePending (a : SliceSeekAggregate T S) (xs : List T) (n : Nat) : Prop :=
  a.tree.WellFormed ∧ a.tree.toList ++ a.leafItems = xs ∧ a.leafItems.length = n ∧
    a.leafItemSummaries = a.leafItems.map Item.summary ∧ a.leafSummary = itemSum a.leafItems

/-- A slice starts with nothing collected. -/
theorem sliceCollected_new :
    SliceCollected ({ tree := SumTree.new, leafItems := [], leafItemSummaries := [], leafSummary := Summary.zero } :
      SliceSeekAggregate T S) [] :=
  ⟨new_wf, toList_new, rfl, rfl, rfl⟩

theorem sliceAggregate_collects [LawfulSummary S] :
    Collects (sliceAggregate : SeekAggregate T S (SliceSeekAggregate T S)) SliceCollected SlicePending where
  beginLeaf := by
    rintro a xs ⟨hw, hxs, hi, hs, hz⟩
    exact ⟨hw, by simp [sliceAggregate, hi, hxs], by simp [sliceAggregate, hi], by simp [sliceAggregate, hi, hs],
      by simp [sliceAggregate, hi, hz, itemSum]⟩
  pushItem := by
    rintro a xs n x ⟨hw, rfl, rfl, hs, hz⟩ _
    exact ⟨hw, by simp [sliceAggregate], by simp [sliceAggregate], by simp [sliceAggregate, hs],
      by simp [sliceAggregate, hz, itemSum, sum_concat]⟩
  endLeaf := by
    rintro a xs n ⟨hw, rfl, rfl, hs, hz⟩ hn
    have hleaf : (SumTree.leaf a.leafSummary a.leafItems a.leafItemSummaries).WellFormed :=
      ⟨0, wf_leaf.mpr ⟨rfl, hn, hs, hs ▸ hz⟩⟩
    obtain ⟨hw', hl⟩ := append_wf hw hleaf
    exact ⟨hw', by exact hl, rfl, rfl, rfl⟩
  pushTree := by
    rintro a xs h c ⟨hw, rfl, hi, hs, hz⟩ hc _
    obtain ⟨hw', hl⟩ := append_wf hw ⟨h, hc⟩
    exact ⟨hw', hl, hi, hs, hz⟩

theorem summaryAggregate_collects [LawfulSummary S] {E : Type x} [Dimension E S] [LawfulDimension E S] :
    Collects (summaryAggregate : SeekAggregate T S E) (fun a xs => a = positionAfter E xs)
      (fun a xs _ => a = positionAfter E xs) where
  beginLeaf h := h
  pushItem := by
    rintro a xs n x rfl _
    rw [positionAfter_concat]
    rfl
  endLeaf h _ := h
  pushTree := by
    rintro a xs h c rfl hw hne
    exact positionAfter_tree hw hne xs

/-! ## The loops -/

/-- What a loop of a seek over the items `mid` gives, when it has collected `xs` before: it stops at one of them, or passes
all of them. -/
def SeekSpec (t : SumTree T S) (Q : D → List T → Prop) (avoid stop : List T → T → Prop) (R : α → List T → Prop)
    (bef mid aft xs : List T) : SeekWalk T S D α → Prop
  | .stop stack position a =>
    ∃ m x m', mid = m ++ x :: m' ∧ Passes avoid bef m ∧ stop (bef ++ m) x ∧ AtItem Q t stack (bef ++ m) x (m' ++ aft) ∧
      Q position (bef ++ m) ∧ R a (xs ++ m)
  | .pass position a => Passes avoid bef mid ∧ Q position (bef ++ mid) ∧ R a (xs ++ mid)

section Loops

variable {t : SumTree T S} {target : SeekTarget D} {bias : Bias} {agg : SeekAggregate T S α} {Q : D → List T → Prop}
  {avoid stop : List T → T → Prop} {R : α → List T → Prop} {P : α → List T → Nat → Prop}

variable {bef a b aft xs : List T} {stack : List (StackEntry T S D)} {s : S} {ss : List S} {h : Nat} {p : D}

omit [Dimension D S] in
/-- A seek that passes `a` and goes on over `b` seeks in `a ++ b`. -/
theorem SeekSpec.append {w : SeekWalk T S D α} (ha : Passes avoid bef a)
    (hb : SeekSpec t Q avoid stop R (bef ++ a) b aft (xs ++ a) w) : SeekSpec t Q avoid stop R bef (a ++ b) aft xs w := by
  cases w with
  | stop stack position r =>
    obtain ⟨m, x, m', rfl, hp, hx, hat, hpos, hr⟩ := hb
    exact ⟨a ++ m, x, m', by simp, ha.append hp, by simpa using hx, by simpa using hat, by simpa using hpos, by simpa using hr⟩
  | pass position r => exact ⟨ha.append hb.1, by simpa using hb.2.1, by simpa using hb.2.2⟩

omit [Dimension D S] in
/-- A seek that stops within `a` stops within `a ++ b`. -/
theorem SeekSpec.stop_append {position : D} {r : α} (ha : SeekSpec t Q avoid stop R bef a (b ++ aft) xs (.stop stack position r)) :
    SeekSpec t Q avoid stop R bef (a ++ b) aft xs (.stop stack position r) := by
  obtain ⟨m, x, m', rfl, hp, hx, hat, hpos, hr⟩ := ha
  exact ⟨m, x, m' ++ b, by simp, hp, hx, by simpa using hat, hpos, hr⟩

section

variable (hag : Collects agg R P) (hs : SeekRules target bias t Q avoid stop)
include hag hs

theorem seekItems_spec {ys : List T} (hc : Context Q t stack 0 (.leaf s ys ss) bef aft) (e : D) (r : List T) :
    ∀ (l xs : List T) (p : D) (a : α) (n : Nat), ys = l ++ r → n + r.length ≤ 2 * treeBase → Q p (bef ++ l) → P a xs n →
      SeekSpec t Q avoid stop R (bef ++ l) r aft xs
        (seekItems target bias agg (.leaf s ys ss) stack e l.length r (r.map Item.summary) p a) := by
  induction r with
  | nil =>
    intro l xs p a n _ hn hp ha
    exact ⟨Passes.nil _, by simpa using hp, by simpa using hag.endLeaf ha hn⟩
  | cons x r ih =>
    intro l xs p a n hys hn hp ha
    rw [length_cons] at hn
    rw [map_cons, seekItems]
    by_cases hpass : target.passes bias (Dimension.addSummary p (Item.summary x)) = true
    · obtain ⟨hp', hgo⟩ := hs.item x hp hpass
      rw [if_pos hpass]
      have hrest := ih (l ++ [x]) _ _ _ _ (by simp [hys]) (by omega)
        (by simpa using hp') (hag.pushItem x ha (by omega))
      rw [length_append, ← append_assoc] at hrest
      exact SeekSpec.append (Passes.singleton hgo) hrest
    · rw [if_neg hpass]
      have hat := AtItem.of_leaf (p := e) hc hys
      exact ⟨[], x, r, rfl, Passes.nil _, by simpa using hs.halt x hp hpass, by simpa using hat, by simpa using hp,
        by simpa using hag.endLeaf ha (by omega)⟩

/-- The loop over the children, given what it does in each of them. -/
theorem seekTrees_spec (ih : ∀ {c : SumTree T S} {stack : List (StackEntry T S D)} {bef aft : List T} {xs : List T} {p : D} {a : α},
      Context Q t stack h c bef aft → Q p bef → R a xs →
        SeekSpec t Q avoid stop R bef c.toList aft xs (seekNode target bias agg c stack p p a))
    {cs : List (SumTree T S)}
    (hc : Context Q t stack (h + 1) (.internal (h + 1) s ss cs) bef aft) (r : List (SumTree T S)) :
    ∀ (l : List (SumTree T S)) (xs : List T) (e p : D) (a : α), cs = l ++ r → Q e (bef ++ l.flatMap toList) →
      Q p (bef ++ l.flatMap toList) → R a xs → SeekSpec t Q avoid stop R (bef ++ l.flatMap toList) (r.flatMap toList) aft xs
          (seekTrees target bias agg (.internal (h + 1) s ss cs) stack l.length r (r.map SumTree.summary) e p a) := by
  obtain ⟨-, hcs, -⟩ := hc.children
  induction r with
  | nil =>
    intro l xs e p a _ _ hp ha
    exact ⟨Passes.nil _, by simpa using hp, by simpa using ha⟩
  | cons c r ihr =>
    intro l xs e p a heq he hp ha
    subst heq
    obtain ⟨hcw, hcne⟩ := hcs c (by simp)
    have hrest : ∀ (p' : D) (b : α), Q p' (bef ++ l.flatMap toList ++ c.toList) → R b (xs ++ c.toList) → _ :=
      fun p' b hp' hb => ihr (l ++ [c]) _ p' p' b (by simp) (by simpa using hp') (by simpa using hp') hb
    simp only [length_append, length_singleton, flatMap_append, flatMap_singleton, ← append_assoc] at hrest
    rw [map_cons, seekTrees]
    by_cases hpass : target.passes bias (Dimension.addSummary p c.summary) = true
    · rw [if_pos hpass]
      have heq : t.toList = (bef ++ l.flatMap toList) ++ c.toList ++ (r.flatMap toList ++ aft) := by
        rw [hc.toList_eq]; simp
      obtain ⟨hp', hgo⟩ := hs.node h c _ hp hcw hcne heq hpass
      exact SeekSpec.append hgo (hrest _ _ hp' (hag.pushTree h c ha hcw hcne))
    · rw [if_neg hpass]
      have hnode := ih (hc.child he) hp ha
      cases hwalk : seekNode _ bias agg c _ p p a with
      | stop stack position b =>
        rw [hwalk] at hnode
        exact SeekSpec.stop_append hnode
      | pass position b =>
        rw [hwalk] at hnode
        obtain ⟨hgo, hp', hb⟩ := hnode
        exact SeekSpec.append hgo (hrest _ _ hp' hb)

theorem seekNode_spec (h : Nat) : ∀ {c : SumTree T S} {stack : List (StackEntry T S D)} {bef aft xs : List T} {p : D} {a : α},
      Context Q t stack h c bef aft → Q p bef → R a xs →
        SeekSpec t Q avoid stop R bef c.toList aft xs (seekNode target bias agg c stack p p a) := by
  induction h with
  | zero =>
    intro c stack bef aft xs p a hc hp ha
    obtain ⟨ys, hlen, rfl⟩ := hc.wf.zero
    have := seekItems_spec hag hs hc p ys [] xs p _ 0 rfl (by omega) (by simpa using hp) (hag.beginLeaf ha)
    simpa [seekNode] using this
  | succ h ih =>
    intro c stack bef aft xs p a hc hp ha
    obtain ⟨cs, -, -, -, rfl⟩ := hc.wf.succ
    have := seekTrees_spec hag hs ih hc cs [] xs p p a rfl (by simpa using hp) (by simpa using hp) ha
    simpa [seekNode] using this

/-- The loop over the stack, after a subtree has been passed. -/
theorem seekUp_spec {c : SumTree T S}
    (hc : Context Q t stack h c bef aft) : ∀ {xs : List T} {p : D} {a : α}, Q p (bef ++ c.toList) → R a xs →
      SeekSpec t Q avoid stop R (bef ++ c.toList) aft [] xs (seekUp target bias agg stack true p a) := by
  induction hc with
  | root hw =>
    intro xs p a hp ha
    exact ⟨Passes.nil _, by simpa using hp, by simpa using ha⟩
  | @child stack h s ss l r c bef aft e hc he ih =>
    intro xs p a hp ha
    obtain ⟨-, -, rfl⟩ := hc.children
    have hp' : Q p (bef ++ (l ++ [c]).flatMap toList) := by simpa using hp
    have hrest := seekTrees_spec hag hs (seekNode_spec hag hs h) hc r _ xs p p a (by simp) hp' hp' ha
    rw [length_append, length_singleton, flatMap_append, flatMap_singleton, ← append_assoc] at hrest
    have hdrop : (l ++ c :: r).drop (l.length + 1) = r := by simp
    simp only [seekUp, if_true, ← map_drop, hdrop]
    split
    · rename_i hwalk
      rw [hwalk] at hrest
      exact SeekSpec.stop_append (by simpa using hrest)
    · rename_i hwalk
      rw [hwalk] at hrest
      obtain ⟨hgo, hp', hb⟩ := hrest
      refine SeekSpec.append hgo ?_
      simpa using ih (by simpa using hp') hb

/-- The loop over the stack, from an item: the item itself is looked at first. -/
theorem seekUp_atItem {x : T} {a : α} (ha : AtItem Q t stack bef x aft) (hp : Q p bef) (hr : R a xs) :
    SeekSpec t Q avoid stop R bef (x :: aft) [] xs (seekUp target bias agg stack false p a) := by
  cases ha with
  | @mk stack s ss l r x bef aft e hc =>
    obtain ⟨-, hlen, rfl, -⟩ := wf_leaf.mp hc.wf
    have hleaf := seekItems_spec hag hs hc e _ l xs p _ 0 rfl
      (by simp only [length_append] at hlen; omega) hp (hag.beginLeaf hr)
    have hdrop : (l ++ x :: r).drop l.length = x :: r := by simp
    simp only [seekUp, ← map_drop, hdrop]
    split
    · rename_i hwalk
      rw [hwalk] at hleaf
      exact SeekSpec.stop_append (a := x :: r) (by simpa using hleaf)
    · rename_i hwalk
      rw [hwalk] at hleaf
      obtain ⟨hgo, hp', hb⟩ := hleaf
      have hup := seekUp_spec hag hs hc (by simpa using hp') hb
      rw [toList_leaf, ← append_assoc] at hup
      exact SeekSpec.append hgo hup

/-- The loop over the stack, from the root pushed on the empty stack. -/
theorem seekUp_root (hw : WF h t) {a : α} (hp : Q p []) (hr : R a xs) :
    SeekSpec t Q avoid stop R [] t.toList [] xs (seekUp target bias agg [⟨t, 0, p⟩] false p a) := by
  have hnode := seekNode_spec hag hs h (Context.root hw) hp hr
  cases t with
  | leaf s ys ss =>
    simp only [seekUp, drop_zero]
    split
    · rename_i hwalk; rw [← hwalk]; exact hnode
    · rename_i hwalk; rw [← hwalk]; exact hnode
  | internal height s ss cs =>
    simp only [seekUp, drop_zero, Bool.false_eq_true, if_false]
    split
    · rename_i hwalk; rw [← hwalk]; exact hnode
    · rename_i hwalk; rw [← hwalk]; exact hnode

end

end Loops

end Cursor

end Wu
