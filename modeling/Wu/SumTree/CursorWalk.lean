import Wu.SumTree.Cursor
import Wu.SumTree.Invariant

/-!
# What the loops of the cursor do

The stack of a cursor, read as a path: `Context Q t stack h c bef aft` says that the entries of `stack` lead from the root
of `t` to the subtree `c` of height `h`, with the items `bef` before it and `aft` after it, and `AtItem Q t stack bef x aft`
that they lead to the item `x`; `Q` is what is known of the position of an entry. Each loop of `Cursor.lean` is one lemma about the items it scans: the first (or last) of them
where it stops, or that it passes all of them. The induction is on the height of the subtree, then on the children; the
loops over the stack go by induction on the path.
-/

namespace Wu

open List

universe u v w x

open SumTree

namespace Cursor

variable {T : Type u} {S : Type v} {D : Type w} [Item T S] [Summary S]

/-- The entries of `stack`, the top first, lead from the root of `t` to the subtree `c` of height `h`, which has the items
`bef` before it and `aft` after it; `Q` holds of the position of every entry and the items before the child it leads to. -/
inductive Context (Q : D → List T → Prop) (t : SumTree T S) :
    List (StackEntry T S D) → Nat → SumTree T S → List T → List T → Prop where
  | root {h : Nat} : WF h t → Context Q t [] h t [] []
  | child {stack : List (StackEntry T S D)} {h : Nat} {s : S} {ss : List S} {l r : List (SumTree T S)} {c : SumTree T S}
      {bef aft : List T} {p : D} :
      Context Q t stack (h + 1) (.internal (h + 1) s ss (l ++ c :: r)) bef aft → Q p (bef ++ l.flatMap toList) →
      Context Q t (⟨.internal (h + 1) s ss (l ++ c :: r), l.length, p⟩ :: stack) h c (bef ++ l.flatMap toList)
        (r.flatMap toList ++ aft)

/-- The entries of `stack` lead to the item `x`, with the items `bef` before it and `aft` after it. -/
inductive AtItem (Q : D → List T → Prop) (t : SumTree T S) :
    List (StackEntry T S D) → List T → T → List T → Prop where
  | mk {stack : List (StackEntry T S D)} {s : S} {ss : List S} {l r : List T} {x : T} {bef aft : List T} {p : D} :
      Context Q t stack 0 (.leaf s (l ++ x :: r) ss) bef aft →
      AtItem Q t (⟨.leaf s (l ++ x :: r) ss, l.length, p⟩ :: stack) (bef ++ l) x (r ++ aft)

namespace Context

variable {Q : D → List T → Prop} {t c : SumTree T S} {stack : List (StackEntry T S D)} {h : Nat} {bef aft : List T}

/-- The subtree at the end of a path is well-formed, and holds an item unless it is the root. -/
theorem wf (hc : Context Q t stack h c bef aft) : WF h c := by
  induction hc with
  | root hw => exact hw
  | @child stack h s ss l r c bef aft p _ _ ih =>
    obtain ⟨k, hk, -, -, -, hcs, -⟩ := wf_internal.mp ih
    obtain rfl : k = h := by omega
    exact (hcs c (by simp)).1

/-- A node on the path has the heights, the child summaries and the children the invariant gives it. -/
theorem children {s : S} {ss : List S} {cs : List (SumTree T S)} {height : Nat}
    (hc : Context Q t stack (h + 1) (.internal height s ss cs) bef aft) :
    height = h + 1 ∧ Children h cs ∧ ss = cs.map SumTree.summary := by
  obtain ⟨k, hk, rfl, -, -, hcs, rfl, -⟩ := wf_internal.mp hc.wf
  obtain rfl : k = h := by omega
  exact ⟨rfl, hcs, rfl⟩

/-- The items of the tree are those before the subtree, its own, and those after it. -/
theorem toList_eq (hc : Context Q t stack h c bef aft) : t.toList = bef ++ c.toList ++ aft := by
  induction hc with
  | root hw => simp
  | child _ _ ih =>
    rw [ih]
    simp

end Context

namespace AtItem

variable {Q : D → List T → Prop} {t : SumTree T S} {stack : List (StackEntry T S D)} {bef aft : List T} {x : T}

theorem toList_eq (ha : AtItem Q t stack bef x aft) : t.toList = bef ++ x :: aft := by
  cases ha with
  | mk hc => rw [hc.toList_eq]; simp

theorem stack_ne_nil (ha : AtItem Q t stack bef x aft) : stack ≠ [] := by
  cases ha with
  | mk hc => simp

theorem of_leaf {s : S} {ss : List S} {xs l r : List T} {p : D} (hc : Context Q t stack 0 (.leaf s xs ss) bef aft)
    (hxs : xs = l ++ x :: r) : AtItem Q t (⟨.leaf s xs ss, l.length, p⟩ :: stack) (bef ++ l) x (r ++ aft) := by
  subst hxs
  exact .mk hc

end AtItem

variable [Dimension D S]

/-- What is known of a position along a lawful dimension: it measures the items before it. -/
def Positioned (p : D) (xs : List T) : Prop := p = positionAfter D xs

omit [Summary S] in
theorem Positioned.eq {p : D} {xs : List T} (h : Positioned p xs) : p = positionAfter D xs := h

/-- The start of the subtree is the position of the top entry, `zero` for the root. -/
theorem Context.base {t c : SumTree T S} {stack : List (StackEntry T S D)} {h : Nat} {bef aft : List T}
    (hc : Context Positioned t stack h c bef aft) :
    (stack.head?.map StackEntry.position).getD (Dimension.zero S) = positionAfter D bef := by
  cases hc with
  | root hw => rfl
  | child _ hp => exact hp

/-! ## Scanning forward -/

/-- Every item of `mid` is passed, where `stops p x` says that the scan stops at `x` when it comes after the items `p`. -/
def Passes (stops : List T → T → Prop) (bef mid : List T) : Prop :=
  ∀ m x m', mid = m ++ x :: m' → ¬stops (bef ++ m) x

section Passes

variable {stops : List T → T → Prop}

theorem Passes.nil (bef : List T) : Passes stops bef [] := by
  intro m x m' h
  simp at h

theorem Passes.singleton {bef : List T} {x : T} (h : ¬stops bef x) : Passes stops bef [x] := by
  intro m y m' he
  cases m with
  | nil =>
    injection he with h1 _
    subst h1
    simpa using h
  | cons a m => simp at he

theorem Passes.append {bef a b : List T} (ha : Passes stops bef a) (hb : Passes stops (bef ++ a) b) : Passes stops bef (a ++ b) := by
  intro m x m' he
  rcases append_eq_append_iff.mp he with ⟨c, rfl, hc⟩ | ⟨c, hc, hd⟩
  · have := hb c x m' hc
    rwa [append_assoc] at this
  · cases c with
    | nil =>
      rw [append_nil] at hc
      subst hc
      have := hb [] x m' hd.symm
      rwa [append_nil] at this
    | cons y c =>
      injection hd with h1 h2
      subst h1
      exact ha m x c hc

/-- The items before the one a scan stops at are determined: the scan stops at the first. -/
theorem Passes.unique {bef m₁ m₂ r₁ r₂ : List T} {x₁ x₂ : T} (h : m₁ ++ x₁ :: r₁ = m₂ ++ x₂ :: r₂)
    (h₁ : Passes stops bef m₁) (s₁ : stops (bef ++ m₁) x₁) (h₂ : Passes stops bef m₂) (s₂ : stops (bef ++ m₂) x₂) :
    m₁ = m₂ ∧ x₁ = x₂ ∧ r₁ = r₂ := by
  rcases append_eq_append_iff.mp h with ⟨c, rfl, hc⟩ | ⟨c, rfl, hc⟩
  · cases c with
    | nil => simpa using hc
    | cons y c =>
      injection hc with h1 _
      subst h1
      exact absurd s₁ (h₂ m₁ x₁ c rfl)
  · cases c with
    | nil => simp only [nil_append, List.cons.injEq] at hc; simp [hc.1, hc.2]
    | cons y c =>
      injection hc with h1 _
      subst h1
      exact absurd s₂ (h₁ m₂ x₂ c rfl)

end Passes

/-- What a loop of `search_forward` over the items `mid` gives: it stops at the first of them that the filter holds of, or
passes all of them. -/
def ForwardSpec (t : SumTree T S) (filterNode : S → Bool) (bef mid aft : List T) : Walk T S D → Prop
  | .stop stack position =>
    ∃ m x m', mid = m ++ x :: m' ∧ Passes (fun _ y => filterNode (Item.summary y) = true) bef m ∧
      filterNode (Item.summary x) = true ∧ AtItem Positioned t stack (bef ++ m) x (m' ++ aft) ∧
      position = positionAfter D (bef ++ m)
  | .pass position =>
    Passes (fun _ y => filterNode (Item.summary y) = true) bef mid ∧ position = positionAfter D (bef ++ mid)

/-- A filter is sound when it holds of a node's summary whenever it holds of an item below the node. -/
def FilterSound (T : Type u) [Item T S] (filterNode : S → Bool) : Prop :=
  ∀ (h : Nat) (c : SumTree T S), WF h c → ∀ x ∈ c.toList, filterNode (Item.summary x) = true → filterNode c.summary = true

/-- The filter that holds of everything is sound. -/
theorem filterSound_true : FilterSound T (fun _ : S => true) := fun _ _ _ _ _ _ => rfl

/-- A sound filter that does not hold of a node's summary holds of no item below it. -/
theorem FilterSound.passes {filterNode : S → Bool} (hf : FilterSound T filterNode) {h : Nat} {c : SumTree T S} (hw : WF h c)
    (hn : ¬filterNode c.summary = true) (bef : List T) :
    Passes (fun _ y => filterNode (Item.summary y) = true) bef c.toList := by
  intro m x m' he hx
  exact hn (hf h c hw x (by rw [he]; simp) hx)

section Forward

variable {t : SumTree T S} {filterNode : S → Bool}

variable {bef a b aft : List T} {stack : List (StackEntry T S D)}

/-- A scan that passes `a` and goes on over `b` scans `a ++ b`. -/
theorem ForwardSpec.append {w : Walk T S D} (ha : Passes (fun _ y => filterNode (Item.summary y) = true) bef a)
    (hb : ForwardSpec t filterNode (bef ++ a) b aft w) : ForwardSpec t filterNode bef (a ++ b) aft w := by
  cases w with
  | stop stack position =>
    obtain ⟨m, x, m', rfl, hp, hx, hat, hpos⟩ := hb
    exact ⟨a ++ m, x, m', by simp, ha.append hp, hx, by simpa using hat, by simpa using hpos⟩
  | pass position => exact ⟨ha.append hb.1, by simpa using hb.2⟩

/-- A scan that stops within `a` stops within `a ++ b`. -/
theorem ForwardSpec.stop_append {position : D} (ha : ForwardSpec t filterNode bef a (b ++ aft) (.stop stack position)) :
    ForwardSpec t filterNode bef (a ++ b) aft (.stop stack position) := by
  obtain ⟨m, x, m', rfl, hp, hx, hat, hpos⟩ := ha
  exact ⟨m, x, m' ++ b, by simp, hp, hx, by simpa using hat, hpos⟩

theorem forwardItems_spec (filterNode : S → Bool) {s : S} (r : List T) :
    ∀ (l : List T) (p : D), Context Positioned t stack 0 (.leaf s (l ++ r) ((l ++ r).map Item.summary)) bef aft →
      ForwardSpec t filterNode (bef ++ l) r aft
        (forwardItems filterNode (.leaf s (l ++ r) ((l ++ r).map Item.summary)) stack l.length (r.map Item.summary) p
          (positionAfter D (bef ++ l))) := by
  induction r with
  | nil =>
    intro l p _
    exact ⟨Passes.nil _, by simp⟩
  | cons x r ih =>
    intro l p hc
    rw [map_cons, forwardItems]
    split
    · rename_i hx
      exact ⟨[], x, r, rfl, Passes.nil _, hx, by simpa using AtItem.mk hc, by simp⟩
    · rename_i hx
      have heq : l ++ x :: r = (l ++ [x]) ++ r := by simp
      rw [heq] at hc ⊢
      have := ih _ (Dimension.addSummary p (Item.summary x)) hc
      rw [length_append, ← append_assoc, positionAfter_concat] at this
      exact ForwardSpec.append (Passes.singleton hx) this

section Lawful

variable [LawfulSummary S] [LawfulDimension D S]

variable {h : Nat} {c : SumTree T S} {stack : List (StackEntry T S D)} {bef aft : List T}

/-- The position after a subtree is the position before it and the summary of the subtree. -/
theorem positionAfter_tree (hw : WF h c) (hne : c.toList ≠ []) (bef : List T) :
    Dimension.addSummary (positionAfter D bef) c.summary = positionAfter D (bef ++ c.toList) := by
  rw [hw.summary_eq, itemSum, Dimension.addSummary_sum _ (by simpa using hne)]
  simp [positionAfter]

section

variable (hf : FilterSound T filterNode)
include hf

/-- The loop over the children, given what it does in each of them. -/
theorem forwardTrees_spec
    (ih : ∀ {c : SumTree T S} {stack : List (StackEntry T S D)} {bef aft : List T}, Context Positioned t stack h c bef aft →
      ForwardSpec t filterNode bef c.toList aft (forwardNode filterNode c stack (positionAfter D bef) (positionAfter D bef)))
    {s : S} (r : List (SumTree T S)) :
    ∀ (l : List (SumTree T S)),
      Context Positioned t stack (h + 1) (.internal (h + 1) s ((l ++ r).map SumTree.summary) (l ++ r)) bef aft →
      ForwardSpec t filterNode (bef ++ l.flatMap toList) (r.flatMap toList) aft
        (forwardTrees filterNode (.internal (h + 1) s ((l ++ r).map SumTree.summary) (l ++ r)) stack l.length r
          (r.map SumTree.summary) (positionAfter D (bef ++ l.flatMap toList))
          (positionAfter D (bef ++ l.flatMap toList))) := by
  induction r with
  | nil =>
    intro l _
    exact ⟨Passes.nil _, by simp⟩
  | cons c r ihr =>
    intro l hc
    obtain ⟨-, hcs, -⟩ := hc.children
    obtain ⟨hcw, hcne⟩ := hcs c (by simp)
    have heq : l ++ c :: r = (l ++ [c]) ++ r := by simp
    have hrest := ihr _ (by rwa [← heq])
    rw [← heq, length_append, flatMap_append, flatMap_singleton, ← append_assoc] at hrest
    rw [map_cons, forwardTrees]
    split
    · have hnode := ih (hc.child rfl)
      split
      · rename_i heq'
        rw [heq'] at hnode
        exact ForwardSpec.stop_append hnode
      · rename_i heq'
        rw [heq'] at hnode
        obtain ⟨hp, rfl⟩ := hnode
        exact ForwardSpec.append hp hrest
    · rename_i hn
      rw [positionAfter_tree hcw hcne]
      exact ForwardSpec.append (hf.passes hcw hn _) hrest

theorem forwardNode_spec (h : Nat) : ∀ {c : SumTree T S}
    {stack : List (StackEntry T S D)} {bef aft : List T}, Context Positioned t stack h c bef aft →
      ForwardSpec t filterNode bef c.toList aft (forwardNode filterNode c stack (positionAfter D bef) (positionAfter D bef)) := by
  induction h with
  | zero =>
    intro c stack bef aft hc
    obtain ⟨xs, -, rfl⟩ := hc.wf.zero
    have := forwardItems_spec filterNode xs [] (positionAfter D bef) hc
    simpa [forwardNode] using this
  | succ h ih =>
    intro c stack bef aft hc
    obtain ⟨cs, -, -, -, rfl⟩ := hc.wf.succ
    have := forwardTrees_spec hf ih cs [] hc
    simpa [forwardNode] using this

/-- The loop over the stack, after a subtree has been passed. -/
theorem forwardUp_spec (hc : Context Positioned t stack h c bef aft) : ForwardSpec t filterNode (bef ++ c.toList) aft []
      (forwardUp filterNode stack (positionAfter D (bef ++ c.toList))) := by
  induction hc with
  | root hw => exact ⟨Passes.nil _, by simp⟩
  | @child stack h s ss l r c bef aft p hc _ ih =>
    obtain ⟨-, -, rfl⟩ := hc.children
    have heq : l ++ c :: r = (l ++ [c]) ++ r := by simp
    have hrest := forwardTrees_spec hf (forwardNode_spec hf h) r _ (by rwa [← heq])
    rw [← heq, length_append, length_singleton, flatMap_append, flatMap_singleton, ← append_assoc] at hrest
    have hdrop : (l ++ c :: r).drop (l.length + 1) = r := by simp
    simp only [forwardUp, ← map_drop, hdrop]
    split
    · rename_i heq'
      rw [heq'] at hrest
      exact ForwardSpec.stop_append (by simpa using hrest)
    · rename_i heq'
      rw [heq'] at hrest
      obtain ⟨hp, rfl⟩ := hrest
      refine ForwardSpec.append hp ?_
      simpa using ih

/-- The loop over the stack, from an item: it goes on after the item. -/
theorem forwardUp_atItem {x : T} (ha : AtItem Positioned t stack bef x aft) :
    ForwardSpec t filterNode (bef ++ [x]) aft [] (forwardUp filterNode stack (positionAfter D bef)) := by
  cases ha with
  | @mk stack s ss l r x bef aft p hc =>
    obtain ⟨-, -, rfl, -⟩ := wf_leaf.mp hc.wf
    have hget : ((l ++ x :: r).map (Item.summary : T → S))[l.length]? = some (Item.summary x) := by simp
    have hdrop : (l ++ x :: r).drop (l.length + 1) = r := by simp
    have heq : l ++ x :: r = (l ++ [x]) ++ r := by simp
    have hleaf := forwardItems_spec filterNode r _
      (Dimension.addSummary p (Item.summary x)) (by rwa [← heq])
    rw [← heq, length_append, length_singleton, ← append_assoc, positionAfter_concat] at hleaf
    simp only [forwardUp, hget, ← map_drop, hdrop]
    split
    · rename_i heq'
      rw [heq'] at hleaf
      exact ForwardSpec.stop_append (by simpa using hleaf)
    · rename_i heq'
      rw [heq'] at hleaf
      obtain ⟨hp, rfl⟩ := hleaf
      have hup := forwardUp_spec hf hc
      rw [toList_leaf, heq, ← append_assoc, ← append_assoc] at hup
      exact ForwardSpec.append hp hup

end

end Lawful

end Forward

/-! ## Scanning backward -/

/-- What a loop of `search_backward` over the items `mid` gives: the last of them that the filter holds of. -/
def BackwardSpec (t : SumTree T S) (filterNode : S → Bool) (bef mid aft : List T) : Option (List (StackEntry T S D) × D) → Prop
  | some (stack, position) =>
    ∃ m x m', mid = m ++ x :: m' ∧ (∀ y ∈ m', ¬filterNode (Item.summary y) = true) ∧
      filterNode (Item.summary x) = true ∧ AtItem Positioned t stack (bef ++ m) x (m' ++ aft) ∧
      position = positionAfter D (bef ++ m)
  | none => ∀ y ∈ mid, ¬filterNode (Item.summary y) = true

section Backward

variable {t : SumTree T S} {filterNode : S → Bool}

/-- A scan that finds an item within `b` finds it within `a ++ b`. -/
theorem BackwardSpec.some_append {bef a b aft : List T} {found : List (StackEntry T S D) × D}
    (hb : BackwardSpec t filterNode (bef ++ a) b aft (some found)) :
    BackwardSpec t filterNode bef (a ++ b) aft (some found) := by
  obtain ⟨m, x, m', rfl, hm', hx, hat, hpos⟩ := hb
  exact ⟨a ++ m, x, m', by simp, hm', hx, by simpa using hat, by simpa using hpos⟩

/-- A scan that finds nothing in `b` and goes on over `a` scans `a ++ b`. -/
theorem BackwardSpec.append {bef a b aft : List T} {w : Option (List (StackEntry T S D) × D)}
    (hb : ∀ y ∈ b, ¬filterNode (Item.summary y) = true) (ha : BackwardSpec t filterNode bef a (b ++ aft) w) :
    BackwardSpec t filterNode bef (a ++ b) aft w := by
  cases w with
  | some found =>
    obtain ⟨m, x, m', rfl, hm', hx, hat, hpos⟩ := ha
    refine ⟨m, x, m' ++ b, by simp, ?_, hx, by simpa using hat, hpos⟩
    intro y hy
    exact (mem_append.mp hy).elim (hm' y) (hb y)
  | none =>
    intro y hy
    exact (mem_append.mp hy).elim (ha y) (hb y)

theorem backwardItems_spec (filterNode : S → Bool) {stack : List (StackEntry T S D)} {s : S} {ss : List S} {xs bef aft : List T}
    (hc : Context Positioned t stack 0 (.leaf s xs ss) bef aft) (r : List T) : ∀ l z : List T, xs = l ++ r ++ z →
      BackwardSpec t filterNode (bef ++ l) r (z ++ aft)
        (backwardItems filterNode (.leaf s xs ss) stack l.length (r.map Item.summary) (positionAfter D (bef ++ l))) := by
  induction r with
  | nil =>
    intro l z _ y hy
    simp at hy
  | cons x r ih =>
    intro l z hxs
    have hrest := ih (l ++ [x]) z (by simp [hxs])
    rw [length_append, length_singleton, ← append_assoc, positionAfter_concat] at hrest
    rw [map_cons, backwardItems]
    cases hfnd : backwardItems _ _ stack _ _
      _ with
    | some found =>
      rw [hfnd] at hrest
      exact BackwardSpec.some_append hrest
    | none =>
      rw [hfnd] at hrest
      refine BackwardSpec.append (a := [x]) hrest ?_
      by_cases hx : filterNode (Item.summary x) = true
      · rw [if_pos hx]
        have hat := AtItem.of_leaf (p := positionAfter D (bef ++ l)) hc (l := l) (x := x) (r := r ++ z) (by simp [hxs])
        exact ⟨[], x, [], rfl, by simp, hx, by simpa using hat, by simp⟩
      · rw [if_neg hx]
        simpa [BackwardSpec] using hx

section Lawful

variable [LawfulSummary S] [LawfulDimension D S]

variable {h : Nat} {stack : List (StackEntry T S D)} {bef aft : List T}

section

variable (hf : FilterSound T filterNode)
include hf

/-- The loop over the children, given what it does in each of them. -/
theorem backwardTrees_spec
    (ih : ∀ {c : SumTree T S} {stack : List (StackEntry T S D)} {bef aft : List T}, Context Positioned t stack h c bef aft →
      BackwardSpec t filterNode bef c.toList aft (backwardNode filterNode c stack (positionAfter D bef)))
    {s : S} {ss : List S} {cs : List (SumTree T S)}
    (hc : Context Positioned t stack (h + 1) (.internal (h + 1) s ss cs) bef aft) (r : List (SumTree T S)) :
    ∀ l z : List (SumTree T S), cs = l ++ r ++ z →
      BackwardSpec t filterNode (bef ++ l.flatMap toList) (r.flatMap toList) (z.flatMap toList ++ aft)
        (backwardTrees filterNode (.internal (h + 1) s ss cs) stack l.length r (r.map SumTree.summary)
          (positionAfter D (bef ++ l.flatMap toList))) := by
  obtain ⟨-, hcs, -⟩ := hc.children
  induction r with
  | nil =>
    intro l z _ y hy
    simp at hy
  | cons c r ihr =>
    intro l z heq
    obtain ⟨hcw, hcne⟩ := hcs c (by simp [heq])
    have hrest := ihr (l ++ [c]) z (by simp [heq])
    rw [length_append, length_singleton, flatMap_append, flatMap_singleton, ← append_assoc, ← positionAfter_tree hcw hcne] at hrest
    rw [map_cons, backwardTrees, flatMap_cons]
    cases hfnd : backwardTrees _ _ stack _ r _
      _ with
    | some found =>
      rw [hfnd] at hrest
      exact hrest.some_append
    | none =>
      rw [hfnd] at hrest
      refine BackwardSpec.append hrest ?_
      by_cases hn : filterNode c.summary = true
      · rw [if_pos hn]
        obtain rfl : cs = l ++ c :: (r ++ z) := by simp [heq]
        simpa using ih (hc.child rfl)
      · rw [if_neg hn]
        intro y hy hx
        exact hn (hf h c hcw y hy hx)

theorem backwardNode_spec (h : Nat) : ∀ {c : SumTree T S}
    {stack : List (StackEntry T S D)} {bef aft : List T}, Context Positioned t stack h c bef aft →
      BackwardSpec t filterNode bef c.toList aft (backwardNode filterNode c stack (positionAfter D bef)) := by
  induction h with
  | zero =>
    intro c stack bef aft hc
    obtain ⟨xs, -, rfl⟩ := hc.wf.zero
    have := backwardItems_spec filterNode hc xs [] [] (by simp)
    simpa [backwardNode] using this
  | succ h ih =>
    intro c stack bef aft hc
    obtain ⟨cs, -, -, -, rfl⟩ := hc.wf.succ
    have := backwardTrees_spec hf ih hc cs [] [] (by simp)
    simpa [backwardNode] using this

/-- The loop over the stack, from a subtree: the items before it. -/
theorem backwardUp_spec {c : SumTree T S} (hc : Context Positioned t stack h c bef aft) :
    BackwardSpec t filterNode [] bef (c.toList ++ aft) (backwardUp filterNode stack) := by
  induction hc with
  | root hw =>
    intro y hy
    simp at hy
  | @child stack h s ss l r c bef aft p hc _ ih =>
    obtain ⟨-, -, rfl⟩ := hc.children
    have hnode := backwardTrees_spec hf (backwardNode_spec hf h) hc l [] (c :: r) (by simp)
    have htake : (l ++ c :: r).take l.length = l := by simp
    simp only [backwardUp, hc.base, ← map_take, htake]
    rw [flatMap_nil, append_nil, length_nil] at hnode
    cases hfnd : backwardTrees _ _ stack 0 l
      _ _ with
    | some found =>
      rw [hfnd] at hnode
      exact BackwardSpec.some_append (show BackwardSpec t filterNode ([] ++ bef) _ _ (some found) by simpa using hnode)
    | none =>
      rw [hfnd] at hnode
      exact BackwardSpec.append hnode (by simpa using ih)

/-- The loop over the stack, from an item: the items before it. -/
theorem backwardUp_atItem {x : T} (ha : AtItem Positioned t stack bef x aft) :
    BackwardSpec t filterNode [] bef (x :: aft) (backwardUp filterNode stack) := by
  cases ha with
  | @mk stack s ss l r x bef aft p hc =>
    obtain ⟨-, -, rfl, -⟩ := wf_leaf.mp hc.wf
    have hleaf := backwardItems_spec filterNode hc l [] (x :: r) (by simp)
    have htake : (l ++ x :: r).take l.length = l := by simp
    simp only [backwardUp, hc.base, ← map_take, htake]
    rw [append_nil, length_nil] at hleaf
    cases hfnd : backwardItems _ _ stack 0
      _ _ with
    | some found =>
      rw [hfnd] at hleaf
      exact BackwardSpec.some_append (show BackwardSpec t filterNode ([] ++ bef) _ _ (some found) by simpa using hleaf)
    | none =>
      rw [hfnd] at hleaf
      exact BackwardSpec.append hleaf (by simpa using backwardUp_spec hf hc)

/-- The loop over the stack, from the end of the tree, where the root is pushed with the index after its last child. -/
theorem backwardUp_end (hw : WF h t) (p : D) :
    BackwardSpec t filterNode [] t.toList [] (backwardUp filterNode [⟨t, t.childSummaries.length, p⟩]) := by
  have hnode := backwardNode_spec (D := D) hf h (Context.root hw)
  cases t with
  | leaf s xs ss =>
    obtain ⟨-, -, rfl, -⟩ := wf_leaf.mp hw
    simp only [backwardUp, SumTree.childSummaries, length_map, ← map_take, take_length]
    split
    · rename_i heq; rw [← heq]; exact hnode
    · rename_i heq; rw [← heq]; exact hnode
  | internal height s ss cs =>
    obtain ⟨k, -, -, -, -, -, rfl, -⟩ := wf_internal.mp hw
    simp only [backwardUp, SumTree.childSummaries, length_map, ← map_take, take_length]
    split
    · rename_i heq; rw [← heq]; exact hnode
    · rename_i heq; rw [← heq]; exact hnode

end

end Lawful

end Backward

end Cursor

end Wu
