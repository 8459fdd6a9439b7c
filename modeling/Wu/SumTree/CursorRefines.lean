import Wu.SumTree.CursorSeek
import Wu.SumTree.ListCursor

/-!
# The cursor refines a cursor over a list

`Sim Q t c p` relates a cursor over the tree `t` to a place in the list of its items. Every reading of the cursor is that of
the list cursor (`Sim.agrees`), and every move keeps the relation. The seeks do so from every place but one: a cursor that
has moved back past the first item has an empty stack with `did_seek` set, where `search_forward` pushes the root again and
`seek_internal` does not, so that it ends at once, at the position `zero` and with `at_end` set (`AtFront`).
-/

namespace Wu

open List ListCursor

universe u v w x

open SumTree

/-! ## The neighbours of a leaf -/

section Neighbours

variable {T : Type u} {S : Type v} [Summary S] [Item T S]

theorem leftmostLeaf_head? {h : Nat} : ∀ {t : SumTree T S}, WF h t → t.leftmostLeaf.items.head? = t.toList.head? := by
  induction h with
  | zero =>
    intro t hw
    obtain ⟨xs, -, rfl⟩ := hw.zero
    simp [leftmostLeaf, SumTree.items]
  | succ h ih =>
    intro t hw
    obtain ⟨cs, hne, -, hcs, rfl⟩ := hw.succ
    obtain ⟨c, cs, rfl⟩ := exists_cons_of_ne_nil hne
    obtain ⟨hcw, hcne⟩ := hcs c (by simp)
    rw [leftmostLeaf, leftmostLeaves, ih hcw, toList_internal, flatMap_cons, head?_append_of_ne_nil _ hcne]

omit [Summary S] [Item T S] in
theorem rightmostLeaves_concat (cs : List (SumTree T S)) (c d : SumTree T S) : rightmostLeaves (cs ++ [c]) d = rightmostLeaf c := by
  induction cs with
  | nil => simp [rightmostLeaves]
  | cons c' cs ih => cases cs <;> simp_all [rightmostLeaves]

theorem rightmostLeaf_getLast? {h : Nat} : ∀ {t : SumTree T S}, WF h t → t.rightmostLeaf.items.getLast? = t.toList.getLast? := by
  induction h with
  | zero =>
    intro t hw
    obtain ⟨xs, -, rfl⟩ := hw.zero
    simp [rightmostLeaf, SumTree.items]
  | succ h ih =>
    intro t hw
    obtain ⟨cs, hne, -, hcs, rfl⟩ := hw.succ
    obtain ⟨cs, c, rfl⟩ := (eq_nil_or_concat cs).resolve_left hne
    rw [concat_eq_append] at hcs ⊢
    obtain ⟨hcw, hcne⟩ := hcs c (by simp)
    rw [rightmostLeaf, rightmostLeaves_concat, ih hcw, toList_internal, flatMap_append, flatMap_singleton,
      getLast?_append_of_ne_nil _ hcne]

theorem SumTree.first_eq {t : SumTree T S} (ht : t.WellFormed) : t.first = t.toList.head? :=
  let ⟨_, hw⟩ := ht
  leftmostLeaf_head? hw

theorem SumTree.last_eq {t : SumTree T S} (ht : t.WellFormed) : t.last = t.toList.getLast? :=
  let ⟨_, hw⟩ := ht
  rightmostLeaf_getLast? hw

end Neighbours

namespace Cursor

variable {T : Type u} {S : Type v} {D : Type w} [Summary S] [Item T S]

variable {Q : D → List T → Prop} {t c : SumTree T S} {stack : List (StackEntry T S D)} {h : Nat} {bef aft : List T}

/-- The leaf after a subtree starts with the item after it. -/
theorem nextLeaf_head? (hc : Context Q t stack h c bef aft) : ((nextLeaf stack).bind fun leaf => leaf.items.head?) = aft.head? := by
  induction hc with
  | root hw => rfl
  | @child stack h s ss l r c bef aft p hc _ ih =>
    obtain ⟨-, hcs, -⟩ := hc.children
    cases r with
    | nil =>
      simpa [nextLeaf, SumTree.childTrees] using ih
    | cons c' r =>
      obtain ⟨hcw, hcne⟩ := hcs c' (by simp)
      simp [nextLeaf, SumTree.childTrees, leftmostLeaf_head? hcw, head?_append_of_ne_nil _ hcne]

/-- The leaf before a subtree ends with the item before it. -/
theorem prevLeaf_getLast? (hc : Context Q t stack h c bef aft) :
    ((prevLeaf stack).bind fun leaf => leaf.items.getLast?) = bef.getLast? := by
  induction hc with
  | root hw => rfl
  | @child stack h s ss l r c bef aft p hc _ ih =>
    obtain ⟨-, hcs, -⟩ := hc.children
    rcases eq_nil_or_concat l with rfl | ⟨l, c', rfl⟩
    · simpa [prevLeaf] using ih
    · obtain ⟨hcw, hcne⟩ := hcs c' (by simp)
      obtain ⟨ys, y, hy⟩ := (eq_nil_or_concat _).resolve_left hcne
      simp [prevLeaf, SumTree.childTrees, rightmostLeaf_getLast? hcw, hy]

/-! ## The simulation -/

variable [Dimension D S]

/-- The cursor is over `t`, at the item of an index, or after the last item; `Q` holds of its position and the items before
it. -/
inductive AtIndex (Q : D → List T → Prop) (t : SumTree T S) (c : Cursor T S D) : Nat → Prop where
  | item {bef aft : List T} {x : T} : AtItem Q t c.stack bef x aft → Q c.position bef → c.atEnd = false →
      AtIndex Q t c bef.length
  | «end» : c.stack = [] → Q c.position t.toList → c.atEnd = true → AtIndex Q t c t.toList.length

/-- The cursor is over `t`, at a place of the list of its items. -/
def Sim (Q : D → List T → Prop) (t : SumTree T S) (c : Cursor T S D) : Place → Prop
  | .fresh => c = new t
  | .before => c.tree = t ∧ c.didSeek = true ∧ c.stack = [] ∧ c.position = Dimension.zero S ∧ c.atEnd = t.isEmpty
  | .at i => c.tree = t ∧ c.didSeek = true ∧ AtIndex Q t c i

/-- The readings of a cursor are those of a cursor over a list. -/
structure Agrees (c : Cursor T S D) (r : ListCursor T) : Prop where
  item : c.item = r.item
  prevItem : c.prevItem = r.prevItem
  nextItem : c.nextItem = r.nextItem
  start : c.start = r.start D
  «end» : c.end = r.end D

/-- At an item, the readings are those of its leaf and its neighbours. -/
theorem agrees_of_atItem {c : Cursor T S D} {x : T} (ha : AtItem Positioned t c.stack bef x aft) (hpos : Positioned c.position bef) :
    Agrees c ⟨t.toList, .at bef.length⟩ := by
  have hlist := ha.toList_eq
  have hitem : c.item = some x ∧ c.itemSummary = some (Item.summary x) ∧ c.prevItem = bef.getLast? ∧
      c.nextItem = aft.head? := by
    generalize hsta : c.stack = stack at ha
    cases ha with
    | @mk stack s ss l r x bef aft p hc =>
      obtain ⟨-, -, rfl, -⟩ := wf_leaf.mp hc.wf
      have hnext := nextLeaf_head? hc
      have hprev := prevLeaf_getLast? hc
      refine ⟨by simp [Cursor.item, hsta, SumTree.items], by simp [Cursor.itemSummary, hsta, SumTree.childSummaries], ?_, ?_⟩
      · rcases eq_nil_or_concat l with rfl | ⟨l, y, rfl⟩
        · simpa [Cursor.prevItem, hsta] using hprev
        · simp [Cursor.prevItem, hsta, SumTree.items]
      · cases r with
        | nil => simpa [Cursor.nextItem, hsta, SumTree.items] using hnext
        | cons y r => simp [Cursor.nextItem, hsta, SumTree.items]
  obtain ⟨hx, hs, hp, hn⟩ := hitem
  have hst : c.start = ListCursor.start D ⟨t.toList, .at bef.length⟩ := by
    simp [Cursor.start, hpos.eq, ListCursor.start, index, hlist]
  have hitem : ListCursor.item ⟨t.toList, .at bef.length⟩ = some x := by simp [ListCursor.item, hlist]
  refine ⟨hx.trans hitem.symm, ?_, ?_, hst, ?_⟩
  · simp [hp, ListCursor.prevItem, index, hlist]
  · cases aft <;> simp [hn, ListCursor.nextItem, hlist]
  · simp [Cursor.end, hs, ListCursor.end, hitem, hst]

/-- At a place, the readings are those of the list cursor. -/
theorem Sim.agrees (ht : t.WellFormed) {c : Cursor T S D} {p : Place} (hsim : Sim Positioned t c p) : Agrees c ⟨t.toList, p⟩ := by
  have hemp : t.isEmpty = true ↔ t.toList = [] := ht.elim fun _ hw => hw.isEmpty_iff
  cases p with
  | fresh =>
    subst hsim
    refine ⟨rfl, ?_, ?_, rfl, rfl⟩
    · by_cases he : t.isEmpty = true
      · simp [Cursor.prevItem, new, he, last_eq ht, hemp.mp, ListCursor.prevItem]
      · simp [Cursor.prevItem, new, he, ListCursor.prevItem, index]
    · by_cases he : t.isEmpty = true
      · simp [Cursor.nextItem, new, he, hemp.mp, ListCursor.nextItem]
      · simp [Cursor.nextItem, new, he, first_eq ht, ListCursor.nextItem]
  | before =>
    obtain ⟨rfl, -, hst, hpos, hend⟩ := hsim
    have hsta : c.start = ListCursor.start D ⟨c.tree.toList, .before⟩ := by
      simp [Cursor.start, hpos, ListCursor.start, index]
    refine ⟨by simp [Cursor.item, hst, ListCursor.item], ?_, ?_, hsta,
      by simp [Cursor.end, Cursor.itemSummary, hst, hsta, ListCursor.end, ListCursor.item]⟩
    · by_cases he : c.tree.isEmpty = true
      · simp [Cursor.prevItem, hst, hend, he, last_eq ht, hemp.mp, ListCursor.prevItem]
      · simp [Cursor.prevItem, hst, hend, he, ListCursor.prevItem, index]
    · by_cases he : c.tree.isEmpty = true
      · simp [Cursor.nextItem, hst, hend, he, hemp.mp, ListCursor.nextItem]
      · simp [Cursor.nextItem, hst, hend, he, first_eq ht, ListCursor.nextItem]
  | «at» i =>
    obtain ⟨rfl, -, hat⟩ := hsim
    cases hat with
    | item ha hpos hend => exact agrees_of_atItem ha hpos
    | «end» hst hpos hend =>
      have hitem : ListCursor.item ⟨c.tree.toList, .at c.tree.toList.length⟩ = none := by simp [ListCursor.item]
      have hsta : c.start = ListCursor.start D ⟨c.tree.toList, .at c.tree.toList.length⟩ := by
        simp [Cursor.start, hpos.eq, ListCursor.start, index]
      refine ⟨by simp [Cursor.item, hst, hitem], ?_, ?_, hsta, ?_⟩
      · simp [Cursor.prevItem, hst, hend, last_eq ht, ListCursor.prevItem, index]
      · simp [Cursor.nextItem, hst, hend, ListCursor.nextItem]
      · simp [Cursor.end, Cursor.itemSummary, hst, hsta, ListCursor.end, hitem]

/-! ## Searching -/

section Search

variable {t : SumTree T S} {filterNode : S → Bool} {bef mid aft : List T}

variable {c : Cursor T S D} {p : Place}

/-- A forward scan ends at the first item the filter holds of. -/
theorem ForwardSpec.atIndex {w : Walk T S D} (hlist : t.toList = bef ++ mid) (hw : ForwardSpec t filterNode bef mid [] w)
    (hstop : ∀ stack position, w = .stop stack position → c.stack = stack ∧ c.position = position ∧
      c.atEnd = false) (hpass : ∀ position, w = .pass position → c.stack = [] ∧ c.position = position ∧ c.atEnd = true) :
    AtIndex Positioned t c (bef.length + mid.findIdx fun x => filterNode (Item.summary x)) := by
  cases w with
  | stop stack position =>
    obtain ⟨m, x, m', rfl, hp, hx, hat, hpos⟩ := hw
    obtain ⟨rfl, rfl, hend⟩ := hstop _ _ rfl
    have hidx : (m ++ x :: m').findIdx (fun x => filterNode (Item.summary x)) = m.length := by
      rw [findIdx_eq (by simp)]
      refine ⟨by simpa using hx, ?_⟩
      intro j hj
      obtain ⟨l, y, r, rfl, rfl⟩ := exists_split hj
      simpa using hp l y r rfl
    rw [hidx, ← length_append]
    exact .item hat hpos hend
  | pass position =>
    obtain ⟨hp, rfl⟩ := hw
    obtain ⟨hst, hpos, hend⟩ := hpass _ rfl
    have hidx : mid.findIdx (fun x => filterNode (Item.summary x)) = mid.length := by
      rw [findIdx_eq_length]
      intro y hy
      obtain ⟨l, r, rfl⟩ := append_of_mem hy
      simpa using hp l y r rfl
    rw [hidx, ← length_append, ← hlist]
    exact .end hst (by rw [hpos, hlist]; rfl) hend

/-- A backward scan ends at the last item the filter holds of. -/
theorem BackwardSpec.findIdx? {found : Option (List (StackEntry T S D) × D)} (hf : BackwardSpec t filterNode [] mid aft found) :
    (found = none ∧ mid.reverse.findIdx? (fun x => filterNode (Item.summary x)) = none) ∨
      ∃ m x m' stack, found = some (stack, positionAfter D m) ∧ AtItem Positioned t stack m x m' ∧
        ∃ k, mid.reverse.findIdx? (fun x => filterNode (Item.summary x)) = some k ∧ m.length = mid.length - 1 - k := by
  cases found with
  | none =>
    refine .inl ⟨rfl, ?_⟩
    rw [findIdx?_eq_none_iff]
    intro y hy
    simpa using hf y (mem_reverse.mp hy)
  | some found =>
    obtain ⟨stack, position⟩ := found
    obtain ⟨m, x, m', rfl, hm', hx, hat, rfl⟩ := hf
    refine .inr ⟨m, x, m' ++ aft, stack, rfl, hat, m'.length, ?_, by simp⟩
    rw [findIdx?_eq_some_iff_split]
    exact ⟨m'.reverse, x, m.reverse, by simp, by simp, fun y hy => hm' y (mem_reverse.mp hy), hx⟩

variable [LawfulSummary S] [LawfulDimension D S]

theorem Sim.searchForward (ht : t.WellFormed) (hf : FilterSound T filterNode) (hsim : Sim Positioned t c p) :
    Sim Positioned t (c.searchForward filterNode) (ListCursor.searchForward filterNode ⟨t.toList, p⟩).place := by
  obtain ⟨h, hw⟩ := ht
  -- from an empty stack, at the position `zero`: `fresh` and `before`
  have hzero : ∀ d : Cursor T S D, d.tree = t → d.stack = [] → d.position = Dimension.zero S → d.atEnd = t.isEmpty →
      Sim Positioned t (d.searchForward filterNode) (.at (0 + t.toList.findIdx fun x => filterNode (Item.summary x))) := by
    rintro d rfl hst hpos hend
    by_cases he : d.tree.isEmpty = true
    · have hnil := hw.isEmpty_iff.mp he
      simp only [Cursor.searchForward, hst, hend, he, hpos, isEmpty_nil, if_true, hnil]
      refine ⟨rfl, by simp, ?_⟩
      have hat := AtIndex.end (Q := Positioned) (t := d.tree) (c := (⟨d.tree, [], Dimension.zero S, true, true⟩ : Cursor T S D)) rfl
        (by simp [hnil, Positioned]) rfl
      simpa [hnil] using hat
    · have hspec := forwardNode_spec (D := D) hf h (Context.root hw)
      simp only [Cursor.searchForward, hst, hend, he, hpos, isEmpty_nil, if_true]
      cases hwalk : forwardNode _ d.tree [] (Dimension.zero S : D) _ with
      | stop stack position | pass position =>
        rw [positionAfter_nil] at hspec
        refine ⟨rfl, by simp, ForwardSpec.atIndex (show d.tree.toList = [] ++ d.tree.toList from rfl) hspec ?_ ?_⟩
        all_goals grind
  cases p with
  | fresh =>
    subst hsim
    simpa [ListCursor.searchForward, rest] using hzero _ rfl rfl rfl rfl
  | before =>
    obtain ⟨htree, -, hst, hpos, hend⟩ := hsim
    simpa [ListCursor.searchForward, rest] using hzero c htree hst hpos hend
  | «at» i =>
    obtain ⟨rfl, hseek, hat⟩ := hsim
    cases hat with
    | @item bef aft x ha hpos hend =>
      have hspec := forwardUp_atItem hf ha
      have hlist := ha.toList_eq
      have hne := ha.stack_ne_nil
      have hrest : rest ⟨c.tree.toList, .at bef.length⟩ = aft := by simp [rest, hlist]
      have hlen : c.tree.toList.length - aft.length = (bef ++ [x]).length := by
        rw [hlist, show bef ++ x :: aft = (bef ++ [x]) ++ aft by simp, length_append, Nat.add_sub_cancel]
      simp only [ListCursor.searchForward, hrest, hlen]
      simp only [Cursor.searchForward, List.isEmpty_iff, hne, if_false, hpos.eq]
      cases hwalk : forwardUp _ c.stack _ with
      | stop stack position | pass position =>
        refine ⟨rfl, by simp [hseek], ForwardSpec.atIndex (by simp [hlist]) hspec ?_ ?_⟩
        all_goals grind
    | «end» hst hpos hend =>
      have hrest : rest ⟨c.tree.toList, .at c.tree.toList.length⟩ = [] := by simp [rest]
      simp only [Cursor.searchForward, hst, hend, isEmpty_nil, if_true, ListCursor.searchForward, hrest,
        length_nil, Nat.sub_zero, findIdx_nil, Nat.add_zero]
      exact ⟨rfl, by simp, .end rfl hpos rfl⟩

theorem Sim.searchBackward (ht : t.WellFormed) (hf : FilterSound T filterNode) (hsim : Sim Positioned t c p) :
    Sim Positioned t (c.searchBackward filterNode) (ListCursor.searchBackward filterNode ⟨t.toList, p⟩).place := by
  obtain ⟨h, hw⟩ := ht
  -- from the end, where `fresh` starts from as well
  have hend : ∀ d : Cursor T S D, d.tree = t → d.stack = [] → d.didSeek = true → d.atEnd = true →
      Sim Positioned t (d.searchBackward filterNode) (ListCursor.searchBackward filterNode ⟨t.toList, .at t.toList.length⟩).place := by
    rintro d rfl hst hseek hend
    by_cases he : d.tree.isEmpty = true
    · have hnil := hw.isEmpty_iff.mp he
      simp [Cursor.searchBackward, hseek, hend, he, hst, backwardUp, ListCursor.searchBackward, lead, hnil, Sim]
    · have hspec := backwardUp_end hf hw (Dimension.addSummary (Dimension.zero S) d.tree.summary : D)
      simp only [Cursor.searchBackward, hseek, hend, he, hst, if_true, if_false, Bool.false_eq_true,
        ListCursor.searchBackward, lead, take_length]
      rcases hspec.findIdx? with ⟨hfnd, hidx⟩ | ⟨m, x, m', stack, hfnd, hat, k, hidx, hlen⟩
      · simp [hfnd, hidx, Sim, he]
      · simp only [hfnd, hidx, ← hlen]
        exact ⟨rfl, rfl, .item hat rfl rfl⟩
  cases p with
  | fresh =>
    subst hsim
    have := hend { new t with didSeek := true, atEnd := true } rfl rfl rfl rfl
    simpa [Cursor.searchBackward, new, ListCursor.searchBackward, lead] using this
  | before =>
    obtain ⟨rfl, hseek, hst, hpos, hend⟩ := hsim
    by_cases he : c.tree.isEmpty = true
    · simp [Cursor.searchBackward, hseek, hend, he, hst, backwardUp, ListCursor.searchBackward, lead, Sim]
    · simp [Cursor.searchBackward, hseek, hend, he, hst, backwardUp, ListCursor.searchBackward, lead, Sim, hpos]
  | «at» i =>
    obtain ⟨rfl, hseek, hat⟩ := hsim
    cases hat with
    | @item bef aft x ha hpos hend =>
      have hspec := backwardUp_atItem hf ha
      have hne := ha.stack_ne_nil
      have hlist := ha.toList_eq
      have he : c.tree.isEmpty = false := hw.not_isEmpty (by simp [hlist])
      simp only [Cursor.searchBackward, hseek, hend, if_true, Bool.false_eq_true, if_false, ListCursor.searchBackward,
        lead, hlist, take_left]
      rcases hspec.findIdx? with ⟨hfnd, hidx⟩ | ⟨m, x, m', stack, hfnd, hat, k, hidx, hlen⟩
      · simp [hfnd, hidx, Sim, he, hne]
      · simp only [hfnd, hidx, ← hlen]
        exact ⟨rfl, rfl, .item hat rfl rfl⟩
    | «end» hst hpos hatE => exact hend c rfl hst hseek hatE

end Search

/-! ## Seeking -/

/-- The cursor has moved back past the first item of a tree that has one. -/
def AtFront (c : Cursor T S D) : Prop := c.didSeek = true ∧ c.stack = [] ∧ c.atEnd = false

instance (c : Cursor T S D) : Decidable c.AtFront :=
  decidable_of_iff (c.didSeek = true ∧ c.stack.isEmpty = true ∧ c.atEnd = false) (by simp [AtFront])

section Seeking

variable {α : Type x} {t : SumTree T S} {target : SeekTarget D} {bias : Bias} {agg : SeekAggregate T S α}
  {Q : D → List T → Prop} {avoid stop : List T → T → Prop} {R : α → List T → Prop} {P : α → List T → Nat → Prop}

/-- A walk over `xs` from index `i` that ends at index `j`: it avoids what it passes, and stops there unless at the end. -/
def Moves (avoid stop : List T → T → Prop) (xs : List T) (i j : Nat) : Prop :=
  ∃ bef m r, xs = bef ++ (m ++ r) ∧ i = bef.length ∧ j = (bef ++ m).length ∧ Passes avoid bef m ∧
    ∀ x m', r = x :: m' → stop (bef ++ m) x

omit [Summary S] in
/-- Where a seek by a sound target ends. -/
theorem Moves.seekIndex_eq {xs : List T} {i j : Nat} (hm : Moves (StopsAt target bias) (StopsAt target bias) xs i j) :
    seekIndex target bias xs i = j := by
  obtain ⟨bef, m, r, rfl, rfl, rfl, hp, hstop⟩ := hm
  have hp' : ∀ l y r, m = l ++ y :: r → target.passes bias (positionAfter D (bef ++ l ++ [y])) = true :=
    fun l y r hm => Decidable.not_not.mp (hp l y r hm)
  cases r with
  | nil => rw [append_nil, seekIndex_of_pass hp']
  | cons x m' => rw [seekIndex_of_stop hp' (hstop x m' rfl), length_append]

variable {c : Cursor T S D} {a : α} {p : Place}

omit [Dimension D S] in
/-- A seek ends at an index, and has collected the items up to it. -/
theorem SeekSpec.atIndex {bef mid : List T} {w : SeekWalk T S D α} (hlist : t.toList = bef ++ mid)
    (hw : SeekSpec t Q avoid stop R bef mid [] [] w)
    (hstop : ∀ stack position b, w = .stop stack position b → c.stack = stack ∧ c.position = position ∧ c.atEnd = false ∧ a = b)
    (hpass : ∀ position b, w = .pass position b → c.stack = [] ∧ c.position = position ∧ c.atEnd = true ∧ a = b) :
    ∃ j, AtIndex Q t c j ∧ R a ((t.toList.take j).drop bef.length) ∧ Moves avoid stop t.toList bef.length j := by
  cases w with
  | stop stack position b =>
    obtain ⟨m, x, m', rfl, hp, hx, hat, hpos, hr⟩ := hw
    obtain ⟨rfl, rfl, hend, rfl⟩ := hstop _ _ _ rfl
    refine ⟨(bef ++ m).length, .item hat hpos hend, ?_, bef, m, x :: m', hlist, rfl, rfl, hp, ?_⟩
    · rw [hlist, ← append_assoc, take_left, drop_left]
      exact hr
    · rintro y r' heq
      injection heq with h1 _
      exact h1 ▸ hx
  | pass position b =>
    obtain ⟨hp, hpos, hr⟩ := hw
    obtain ⟨hst, rfl, hend, rfl⟩ := hpass _ _ rfl
    refine ⟨t.toList.length, .end hst (by rwa [hlist]) hend, ?_, bef, mid, [], by simp [hlist], rfl, by rw [hlist], hp, ?_⟩
    · rw [take_length, hlist, drop_left]
      exact hr
    · rintro y r' heq
      exact absurd heq (by simp)

/-- A seek that starts anywhere but at the front ends at an index, and collects the items it passes over. -/
theorem Sim.seekInternal (ht : t.WellFormed) (hag : Collects agg R P) (hs : SeekRules target bias t Q avoid stop)
    (hzero : Q (Dimension.zero S) []) (hsim : Sim Q t c p) (hfro : ¬c.AtFront)
    (hr : R a []) :
    ∃ j, Sim Q t (c.seekInternal target bias agg a).1 (.at j) ∧
      R (c.seekInternal target bias agg a).2 ((t.toList.take j).drop (index ⟨t.toList, p⟩)) ∧
      Moves avoid stop t.toList (index ⟨t.toList, p⟩) j := by
  obtain ⟨h, hw⟩ := ht
  -- the part of the proof that is the same from every place: what the loop over the stack does
  have hwalk : ∀ (stack : List (StackEntry T S D)) (bef mid : List T), t.toList = bef ++ mid → c.tree = t →
      (if c.didSeek then c.stack else ⟨c.tree, 0, Dimension.zero S⟩ :: c.stack) = stack →
      index ⟨t.toList, p⟩ = bef.length →
      SeekSpec t Q avoid stop R bef mid [] [] (seekUp target bias agg stack false c.position a) →
      ∃ j, Sim Q t (c.seekInternal target bias agg a).1 (.at j) ∧
        R (c.seekInternal target bias agg a).2 ((t.toList.take j).drop (index ⟨t.toList, p⟩)) ∧
        Moves avoid stop t.toList (index ⟨t.toList, p⟩) j := by
    intro stack bef mid hlist htree hsta hidx hspec
    simp only [Cursor.seekInternal, hsta, hidx, Sim]
    cases hres : seekUp target bias agg _ _ _ a with
    | stop stack position b =>
      obtain ⟨j, hat, hrj, hm⟩ := hspec.atIndex hlist
        (c := { c with stack, position, didSeek := true, atEnd := false }) (a := b) (by grind) (by grind)
      exact ⟨j, ⟨htree, rfl, hat⟩, hrj, hm⟩
    | pass position b =>
      obtain ⟨j, hat, hrj, hm⟩ := hspec.atIndex hlist
        (c := { c with stack := [], position, didSeek := true, atEnd := true }) (a := b) (by grind) (by grind)
      exact ⟨j, ⟨htree, rfl, hat⟩, hrj, hm⟩
  cases p with
  | fresh =>
    subst hsim
    exact hwalk _ [] _ rfl rfl rfl rfl (seekUp_root hag hs hw hzero hr)
  | before =>
    obtain ⟨rfl, hseek, hst, hpos, hend⟩ := hsim
    have he : c.tree.isEmpty = true := by
      by_contra he
      exact hfro ⟨hseek, hst, by simpa [he] using hend⟩
    refine hwalk [] [] [] (hw.isEmpty_iff.mp he) rfl (by simp [hseek, hst]) rfl ?_
    exact ⟨Passes.nil _, by rwa [hpos], hr⟩
  | «at» i =>
    obtain ⟨rfl, hseek, hat⟩ := hsim
    cases hat with
    | @item bef aft x ha hpos hend =>
      exact hwalk _ bef _ ha.toList_eq rfl (by simp [hseek]) rfl (seekUp_atItem hag hs ha hpos hr)
    | «end» hst hpos hend =>
      refine hwalk [] _ [] (by simp) rfl (by simp [hseek, hst]) rfl ?_
      exact ⟨Passes.nil _, by simpa using hpos, hr⟩

/-- A seek by a sound target ends where the list cursor does. -/
theorem Sim.seekInternal_sound (ht : t.WellFormed) (hag : Collects agg R P) (hs : SeekSound target bias t)
    (hsim : Sim Positioned t c p) (hfro : ¬c.AtFront) (hr : R a []) :
    Sim Positioned t (c.seekInternal target bias agg a).1 (ListCursor.seek target bias ⟨t.toList, p⟩).place ∧
      R (c.seekInternal target bias agg a).2 (ListCursor.passed ⟨t.toList, p⟩ (ListCursor.seek target bias ⟨t.toList, p⟩)) := by
  obtain ⟨j, hat, hrj, hm⟩ := hsim.seekInternal ht hag (seekRules_of_sound hs) rfl hfro hr
  obtain rfl := hm.seekIndex_eq
  exact ⟨hat, hrj⟩

end Seeking

end Cursor

end Wu
