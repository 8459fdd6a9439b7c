import Mathlib.Order.Lattice
import Wu.SumTree.CursorRefines

/-!
# Runs of a cursor

Any sequence of operations on a cursor, next to the same operations on a cursor over the list of the items. The two agree
in everything they show and answer as long as no seek that goes on from the cursor's place (`seek_forward`, `slice`,
`suffix`, `summary`) is made after the cursor has moved back past the first item (`Cursor.AtFront`).
-/

namespace Wu

open List Cursor

universe u v w x y

open SumTree

/-- An operation on a cursor, with its target or filter. -/
inductive CursorOp (S : Type v) (D : Type w) where
  | seek (target : SeekTarget D) (bias : Bias)
  | seekForward (target : SeekTarget D) (bias : Bias)
  | slice (target : SeekTarget D) (bias : Bias)
  | summary (target : SeekTarget D) (bias : Bias)
  | suffix
  | next
  | prev
  | searchForward (filterNode : S → Bool)
  | searchBackward (filterNode : S → Bool)

/-- What an operation returns: whether a seek found its target, a slice of a tree or of a list, or a measure. -/
inductive CursorAnswer (σ : Type u) (E : Type w) where
  | unit
  | found (b : Bool)
  | slice (slice : σ)
  | summary (summary : E)

namespace CursorOp

variable {T : Type u} {S : Type v} {D : Type w} {E : Type x} [Summary S] [Item T S] [Dimension D S] [Dimension E S]

/-- The operation on a cursor. -/
def run (E : Type x) [Dimension E S] (c : Cursor T S D) : CursorOp S D → Cursor T S D × CursorAnswer (SumTree T S) E
  | seek target bias => (c.seek target bias, .found ((c.seek target bias).foundTarget target bias))
  | seekForward target bias => (c.seekForward target bias, .found ((c.seekForward target bias).foundTarget target bias))
  | slice target bias => ((c.slice target bias).1, .slice (c.slice target bias).2)
  | summary target bias => ((c.summary (E := E) target bias).1, .summary (c.summary (E := E) target bias).2)
  | suffix => (c.suffix.1, .slice c.suffix.2)
  | next => (c.next, .unit)
  | prev => (c.prev, .unit)
  | searchForward filterNode => (c.searchForward filterNode, .unit)
  | searchBackward filterNode => (c.searchBackward filterNode, .unit)

/-- Whether a list cursor after a seek has found the target: its start is there, or the end of its item with the bias to
the left. -/
def listFound (c : ListCursor T) (target : SeekTarget D) (bias : Bias) : Bool :=
  target (if bias = .left then c.end D else c.start D) == .eq

/-- The operation on a cursor over a list. -/
def listRun (E : Type x) [Dimension E S] (c : ListCursor T) : CursorOp S D → ListCursor T × CursorAnswer (List T) E
  | seek target bias =>
    let c := { c with place := .fresh }.seek target bias
    (c, .found (listFound c target bias))
  | seekForward target bias => (c.seek target bias, .found (listFound (c.seek target bias) target bias))
  | slice target bias => (c.seek target bias, .slice (c.passed (c.seek target bias)))
  | summary target bias => (c.seek target bias, .summary (positionAfter E (c.passed (c.seek target bias))))
  | suffix =>
    let d := c.seek (Cursor.endTarget : SeekTarget D) .right
    (d, .slice (c.passed d))
  | next => (c.searchForward fun _ : S => true, .unit)
  | prev => (c.searchBackward fun _ : S => true, .unit)
  | searchForward filterNode => (c.searchForward filterNode, .unit)
  | searchBackward filterNode => (c.searchBackward filterNode, .unit)

/-- Targets are monotone along the items, and filters are sound. -/
def Valid (xs : List T) : CursorOp S D → Prop
  | seek target bias | seekForward target bias | slice target bias | summary target bias =>
    Cursor.MonotoneAlong target bias xs
  | searchForward filterNode | searchBackward filterNode => Cursor.FilterSound T filterNode
  | suffix | next | prev => True

/-- The operation does not seek on from the front. -/
def AwayFromFront (c : Cursor T S D) : CursorOp S D → Prop
  | seekForward .. | slice .. | summary .. | suffix => ¬c.AtFront
  | seek .. | next | prev | searchForward _ | searchBackward _ => True

instance (c : Cursor T S D) : (op : CursorOp S D) → Decidable (op.AwayFromFront c)
  | seekForward .. | slice .. | summary .. | suffix => inferInstanceAs (Decidable ¬c.AtFront)
  | seek .. | next | prev | searchForward _ | searchBackward _ => inferInstanceAs (Decidable True)

/-- A sequence of operations, with their answers. -/
def runAll (E : Type x) [Dimension E S] : List (CursorOp S D) → Cursor T S D → Cursor T S D × List (CursorAnswer (SumTree T S) E)
  | [], c => (c, [])
  | op :: ops, c =>
    let (c, answer) := op.run E c
    let (c, answers) := runAll E ops c
    (c, answer :: answers)

/-- A sequence of operations on a cursor over a list, with their answers. -/
def listRunAll (E : Type x) [Dimension E S] : List (CursorOp S D) → ListCursor T → ListCursor T × List (CursorAnswer (List T) E)
  | [], c => (c, [])
  | op :: ops, c =>
    let (c, answer) := op.listRun E c
    let (c, answers) := listRunAll E ops c
    (c, answer :: answers)

/-- No operation of a sequence seeks on from the front. -/
def AllAwayFromFront (E : Type x) [Dimension E S] : List (CursorOp S D) → Cursor T S D → Prop
  | [], _ => True
  | op :: ops, c => op.AwayFromFront c ∧ AllAwayFromFront E ops (op.run E c).1

instance (E : Type x) [Dimension E S] : (ops : List (CursorOp S D)) → (c : Cursor T S D) →
    Decidable (AllAwayFromFront E ops c)
  | [], _ => inferInstanceAs (Decidable True)
  | op :: ops, c =>
    have := instDecidableAllAwayFromFront E ops (op.run E c).1
    inferInstanceAs (Decidable (_ ∧ _))

/-- An answer about a tree matches one about its list. -/
def Matches : CursorAnswer (SumTree T S) E → CursorAnswer (List T) E → Prop
  | .unit, .unit => True
  | .found b, .found b' => b = b'
  | .slice t, .slice xs => t.WellFormed ∧ t.toList = xs
  | .summary e, .summary e' => e = e'
  | _, _ => False

/-! ## One operation -/

/-- A cursor over a tree is where a cursor over the list of its items is. -/
def Refines (t : SumTree T S) (c : Cursor T S D) (r : ListCursor T) : Prop :=
  r.items = t.toList ∧ Cursor.Sim Cursor.Positioned t c r.place

theorem Refines.agrees {t : SumTree T S} (ht : t.WellFormed) {c : Cursor T S D} {r : ListCursor T} (hr : Refines t c r) :
    Cursor.Agrees c r := by
  obtain ⟨xs, p⟩ := r
  obtain ⟨rfl, hsim⟩ := hr
  exact hsim.agrees ht

omit [Summary S] in
/-- What a seek returns is read off where it ends. -/
theorem foundTarget_eq {c : Cursor T S D} {r : ListCursor T} (ha : Cursor.Agrees c r) (target : SeekTarget D) (bias : Bias) :
    c.foundTarget target bias = listFound r target bias := by
  unfold Cursor.foundTarget listFound
  rw [← ha.start, ← ha.end]
  cases bias <;> cases hs : c.itemSummary <;> simp [Cursor.end, Cursor.start, hs]

section Lawful

variable [LawfulSummary S] [LawfulDimension D S] {t : SumTree T S}

variable {c : Cursor T S D} {r : ListCursor T}

/-- A seek with an aggregate from where both cursors are. -/
theorem Refines.seekInternal {α : Type y} {agg : SeekAggregate T S α} {R : α → List T → Prop} {P : α → List T → Nat → Prop}
    {target : SeekTarget D} {bias : Bias} (ht : t.WellFormed) (hag : Cursor.Collects agg R P)
    (hm : Cursor.MonotoneAlong target bias t.toList) {a : α} (hr : Refines t c r)
    (hfro : ¬c.AtFront) (ha : R a []) :
    Refines t (c.seekInternal target bias agg a).1 (r.seek target bias) ∧
      R (c.seekInternal target bias agg a).2 (r.passed (r.seek target bias)) := by
  obtain ⟨xs, p⟩ := r
  obtain ⟨rfl, hsim⟩ := hr
  obtain ⟨hsim', hr'⟩ := hsim.seekInternal_sound ht hag (seekSound_of_monotone hm) hfro ha
  exact ⟨⟨rfl, hsim'⟩, hr'⟩

omit [LawfulSummary S] [LawfulDimension D S] in
theorem Refines.reset (hr : Refines t c r) : Refines t c.reset { r with place := .fresh } := by
  refine ⟨hr.1, ?_⟩
  have htree : c.tree = t := by
    obtain ⟨xs, p⟩ := r
    obtain ⟨-, hsim⟩ := hr
    cases p with
    | fresh => rw [show c = Cursor.new t from hsim]; rfl
    | before => exact hsim.1
    | «at» i => exact hsim.1
  simp [Cursor.Sim, Cursor.reset, htree]

omit [Summary S] [Item T S] [LawfulSummary S] [LawfulDimension D S] in
/-- A fresh cursor is not at the front. -/
theorem not_atFront_reset (c : Cursor T S D) : ¬c.reset.AtFront := by
  rintro ⟨hseek, -⟩
  simp [Cursor.reset, Cursor.new] at hseek

/-- One operation keeps the cursors together, and they answer the same. -/
theorem run_refines [LawfulDimension E S] (ht : t.WellFormed) (hr : Refines t c r)
    (op : CursorOp S D) (hv : op.Valid t.toList) (ha : op.AwayFromFront c) :
    Refines t (op.run E c).1 (op.listRun E r).1 ∧ Matches (op.run E c).2 (op.listRun E r).2 := by
  have hsea : ∀ f : S → Bool, Cursor.FilterSound T f →
      Refines t (c.searchForward f) (r.searchForward f) ∧ Refines t (c.searchBackward f) (r.searchBackward f) := by
    intro f hf
    obtain ⟨xs, p⟩ := r
    obtain ⟨rfl, hsim⟩ := hr
    refine ⟨⟨rfl, hsim.searchForward ht hf⟩, ⟨?_, hsim.searchBackward ht hf⟩⟩
    simp only [ListCursor.searchBackward]
    split <;> rfl
  cases op with
  | seek target bias =>
    obtain ⟨hr', -⟩ := hr.reset.seekInternal ht noAggregate_collects hv (not_atFront_reset c) trivial
    exact ⟨hr', foundTarget_eq (hr'.agrees ht) _ bias⟩
  | seekForward target bias =>
    obtain ⟨hr', -⟩ := hr.seekInternal ht noAggregate_collects hv ha trivial
    exact ⟨hr', foundTarget_eq (hr'.agrees ht) _ bias⟩
  | slice target bias =>
    obtain ⟨hr', hw, hl, -⟩ := hr.seekInternal ht sliceAggregate_collects hv ha sliceCollected_new
    exact ⟨hr', hw, hl⟩
  | summary target bias =>
    exact hr.seekInternal ht (summaryAggregate_collects) hv ha rfl
  | suffix =>
    have hm : Cursor.MonotoneAlong (Cursor.endTarget : SeekTarget D) .right t.toList := fun _ _ _ _ _ => rfl
    obtain ⟨hr', hw, hl, -⟩ := hr.seekInternal ht sliceAggregate_collects hm ha sliceCollected_new
    exact ⟨hr', hw, hl⟩
  | next => exact ⟨(hsea _ filterSound_true).1, trivial⟩
  | prev => exact ⟨(hsea _ filterSound_true).2, trivial⟩
  | searchForward filterNode => exact ⟨(hsea _ hv).1, trivial⟩
  | searchBackward filterNode => exact ⟨(hsea _ hv).2, trivial⟩

/-- A sequence of operations keeps the cursors together, and they answer the same. -/
theorem runAll_refines [LawfulDimension E S] (ht : t.WellFormed) (ops : List (CursorOp S D)) :
    ∀ {c : Cursor T S D} {r : ListCursor T}, Refines t c r → (∀ op ∈ ops, op.Valid t.toList) → AllAwayFromFront E ops c →
        Refines t (runAll E ops c).1 (listRunAll E ops r).1 ∧ List.Forall₂ Matches (runAll E ops c).2 (listRunAll E ops r).2 := by
  induction ops with
  | nil => exact fun hr _ _ => ⟨hr, .nil⟩
  | cons op ops ih =>
    intro c r hr hv ha
    obtain ⟨hr', hmat⟩ := run_refines (E := E) ht hr op (hv op (by simp)) ha.1
    obtain ⟨hrest, hmats⟩ := ih hr' (fun op hop => hv op (by simp [hop])) ha.2
    exact ⟨hrest, .cons hmat hmats⟩

end Lawful

end CursorOp

/-! ## Filter cursors -/

namespace FilterCursor

variable {T : Type u} {S : Type v} {D : Type w} [Summary S] [Item T S] [Dimension D S] [LawfulSummary S]
  [LawfulDimension D S] {t : SumTree T S} {f : S → Bool}

/-- The calls of `next` on a filter cursor visit the items that satisfy the filter, in order. -/
theorem iterate_next (ht : t.WellFormed) (hf : Cursor.FilterSound T f) (n : Nat) :
    (FilterCursor.next^[n + 1] (FilterCursor.new t f : FilterCursor T S D)).item =
      (t.toList.filter fun x => f (Item.summary x))[n]? := by
  have hsim : ∀ (k : Nat) (c : FilterCursor T S D) (r : ListCursor T), c.filterNode = f → CursorOp.Refines t c.cursor r →
      CursorOp.Refines t (FilterCursor.next^[k] c).cursor ((ListCursor.searchForward f)^[k] r) := by
    intro k
    induction k with
    | zero => exact fun _ _ _ hr => hr
    | succ k ih =>
      rintro c r rfl hr
      exact ih _ _ rfl (CursorOp.run_refines (E := D) ht hr (.searchForward _) hf trivial).1
  have hr := hsim (n + 1) (FilterCursor.new t f) ⟨t.toList, .fresh⟩ rfl ⟨rfl, rfl⟩
  rw [FilterCursor.item, (hr.agrees ht).item, ListCursor.iterate_searchForward]
  rfl

/-- The calls of `prev` on a filter cursor visit the items that satisfy the filter, the last first. -/
theorem iterate_prev (ht : t.WellFormed) (hf : Cursor.FilterSound T f) (n : Nat) :
    (FilterCursor.prev^[n + 1] (FilterCursor.new t f : FilterCursor T S D)).item =
      (t.toList.filter fun x => f (Item.summary x)).reverse[n]? := by
  have hsim : ∀ (k : Nat) (c : FilterCursor T S D) (r : ListCursor T), c.filterNode = f → CursorOp.Refines t c.cursor r →
      CursorOp.Refines t (FilterCursor.prev^[k] c).cursor ((ListCursor.searchBackward f)^[k] r) := by
    intro k
    induction k with
    | zero => exact fun _ _ _ hr => hr
    | succ k ih =>
      rintro c r rfl hr
      exact ih _ _ rfl (CursorOp.run_refines (E := D) ht hr (.searchBackward _) hf trivial).1
  have hr := hsim (n + 1) (FilterCursor.new t f) ⟨t.toList, .fresh⟩ rfl ⟨rfl, rfl⟩
  rw [FilterCursor.item, (hr.agrees ht).item, ListCursor.iterate_searchBackward]
  rfl

end FilterCursor

/-! ## Runs -/

section Runs

variable {T : Type u} {S : Type v} {D : Type w} [Summary S] [Item T S] [Dimension D S]

omit [Summary S] in
/-- A target that is a value of a dimension is monotone along items that the dimension grows with. -/
theorem Cursor.monotoneAlong_compare [LinearOrder D] {xs : List T}
    (hgrow : ∀ bef mid aft, xs = bef ++ mid ++ aft → positionAfter D bef ≤ positionAfter D (bef ++ mid)) (d : D)
    (bias : Bias) : Cursor.MonotoneAlong (compare d) bias xs := by
  intro bef mid aft heq hpass
  have hle := hgrow bef mid aft heq
  simp only [SeekTarget.passes, Bool.or_eq_true, Bool.and_eq_true, beq_iff_eq] at hpass ⊢
  rcases hpass with hgt | ⟨heq', hb⟩
  · exact .inl (compare_gt_iff_gt.mpr (lt_of_le_of_lt hle (compare_gt_iff_gt.mp hgt)))
  · rcases lt_or_eq_of_le hle with hlt | heq''
    · exact .inl (compare_gt_iff_gt.mpr (by rwa [compare_eq_iff_eq.mp heq']))
    · exact .inr ⟨by rw [heq'', heq'], hb⟩

/-- In every run that does not seek on from the front, the cursor shows and answers what the cursor over the list does. A
filter cursor visits exactly the items that satisfy its filter, forward and backward. -/
theorem cursor_refines_list {E : Type x} [Dimension E S] [LawfulSummary S] [LawfulDimension D S] [LawfulDimension E S]
    {t : SumTree T S} (ht : t.WellFormed) (ops : List (CursorOp S D)) (hv : ∀ op ∈ ops, op.Valid t.toList)
    (ha : CursorOp.AllAwayFromFront E ops (Cursor.new t)) :
    Cursor.Agrees (CursorOp.runAll E ops (Cursor.new t)).1 (CursorOp.listRunAll E ops ⟨t.toList, .fresh⟩).1 ∧
      List.Forall₂ CursorOp.Matches (CursorOp.runAll E ops (Cursor.new t)).2
        (CursorOp.listRunAll E ops ⟨t.toList, .fresh⟩).2 ∧
      ∀ f : S → Bool, Cursor.FilterSound T f → ∀ n,
        (FilterCursor.next^[n + 1] (FilterCursor.new t f : FilterCursor T S D)).item =
            (t.toList.filter fun x => f (Item.summary x))[n]? ∧
          (FilterCursor.prev^[n + 1] (FilterCursor.new t f : FilterCursor T S D)).item =
            (t.toList.filter fun x => f (Item.summary x)).reverse[n]? := by
  obtain ⟨hr, hm⟩ := CursorOp.runAll_refines (E := E) ht ops (r := ⟨t.toList, .fresh⟩) ⟨rfl, rfl⟩ hv ha
  exact ⟨hr.agrees ht, hm, fun f hf n => ⟨FilterCursor.iterate_next ht hf n, FilterCursor.iterate_prev ht hf n⟩⟩

end Runs

/-! ## Runs over integers -/

section Integers

theorem positionAfter_count (xs : List UInt8) : positionAfter Count xs = xs.length := by
  induction xs using reverseRecOn with
  | nil => rfl
  | append_singleton ys y ih => rw [positionAfter_concat, ih]; simp [Dimension.addSummary, Item.summary]

/-- A count is a monotone target. -/
theorem count_monotone (xs : List UInt8) (n : Count) (bias : Bias) : Cursor.MonotoneAlong (compare n) bias xs := by
  refine monotoneAlong_compare ?_ n bias
  intro bef mid aft _
  rw [positionAfter_count, positionAfter_count, length_append]
  exact Nat.le_add_right _ _

/-- A filter that looks for an even integer is sound: a node contains an even one when an item below it does. -/
theorem filterSound_containsEven : Cursor.FilterSound UInt8 IntegersSummary.containsEven := by
  intro h c hw x hx heven
  rw [hw.summary_eq]
  have hgen : ∀ (ys : List UInt8) (s : IntegersSummary), s.containsEven = true ∨ x ∈ ys →
      ((ys.map Item.summary).foldl Summary.addSummary s).containsEven = true := by
    intro ys
    induction ys with
    | nil => simp
    | cons y ys ih =>
      intro s hs
      refine ih _ ?_
      rcases hs with hs | hs
      · exact .inl (by simp [Summary.addSummary, hs])
      · rcases mem_cons.mp hs with rfl | hs
        · exact .inl (by simp [Summary.addSummary, heven])
        · exact .inr hs
  exact hgen _ _ (.inr hx)

/-- The integers 1, 2 and 3. -/
def integers : SumTree UInt8 IntegersSummary := fromIter [1, 2, 3]

/-- A seek after the cursor has moved back past the first item: it does not find the item after the first. -/
theorem seekForward_front_diverges :
    integers.WellFormed ∧
      (∀ op ∈ ([.next, .prev, .seekForward (compare 1) .right] : List (CursorOp IntegersSummary Count)),
        op.Valid integers.toList) ∧
      ¬Cursor.Agrees
        (CursorOp.runAll Count [.next, .prev, .seekForward (compare 1) .right] (Cursor.new (D := Count) integers)).1
        (CursorOp.listRunAll (S := IntegersSummary) (D := Count) Count [.next, .prev, .seekForward (compare 1) .right]
          ⟨integers.toList, .fresh⟩).1 := by
  refine ⟨(fromIter_wf _).1, ?_, ?_⟩
  · intro op hop
    simp only [mem_cons, not_mem_nil, or_false] at hop
    rcases hop with rfl | rfl | rfl
    · trivial
    · trivial
    · exact count_monotone _ 1 .right
  · intro h
    exact absurd h.item (by decide)

/-- A run over the integers that slices, searches and seeks. -/
theorem cursor_refines_list_integers :
    Cursor.Agrees
      (CursorOp.runAll Count [.next, .slice (compare 2) .right, .searchBackward IntegersSummary.containsEven, .suffix]
        (Cursor.new (D := Count) integers)).1 ⟨[1, 2, 3], .at 3⟩ := by
  refine (cursor_refines_list (E := Count) (t := integers) (fromIter_wf _).1
    [.next, .slice (compare 2) .right, .searchBackward IntegersSummary.containsEven, .suffix] ?_ ?_).1
  · intro op hop
    simp only [mem_cons, not_mem_nil, or_false] at hop
    rcases hop with rfl | rfl | rfl | rfl
    · trivial
    · exact count_monotone _ 2 .right
    · exact filterSound_containsEven
    · trivial
  · decide

end Integers

end Wu
