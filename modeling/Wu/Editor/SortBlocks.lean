import Mathlib.Data.List.Pairwise
import Mathlib.Data.List.Sort
import Mathlib.Order.Compare

/-!
# Sorting blocks

`block_map.rs` of the `editor` crate: the comparator of `sort_blocks`, and the step after it that drops what a replaced range hides.
A sort may give any permutation in which no block is greater than one behind it; that there is just one needs a comparator that is
consistent. It is, unless two headers or two spacers have one placement.
-/

namespace Wu.BlockMap

open List Option

/-- `enum BlockPlacement`, over wrap rows; a range is never reversed. -/
inductive BlockPlacement where
  | above (row : Nat)
  | below (row : Nat)
  | near (row : Nat)
  | replace (start «end» : Nat) (valid : start ≤ «end»)
deriving DecidableEq

namespace BlockPlacement

/-- `BlockPlacement::start`. -/
def start : BlockPlacement → Nat
  | above row | below row | near row => row
  | replace start _ _ => start

/-- `BlockPlacement::end`. -/
def «end» : BlockPlacement → Nat
  | above row | below row | near row => row
  | replace _ «end» _ => «end»

/-- `BlockPlacement::tie_break`. -/
def tieBreak : BlockPlacement → Nat
  | replace _ _ _ => 0
  | above _ => 1
  | near _ => 2
  | below _ => 3

/-- A placement that replaces rows. -/
def isReplace : BlockPlacement → Bool
  | replace _ _ _ => true
  | _ => false

/-- A placement next to a row. -/
def isNear : BlockPlacement → Bool
  | near _ => true
  | _ => false

end BlockPlacement

/-- `enum Block`: what the comparator reads; an excerpt is the opaque id of its start anchor, as a number. -/
inductive Block where
  | custom (priority id : Nat)
  | foldedBuffer
  | excerptBoundary (excerpt : Nat)
  | bufferHeader (excerpt : Nat)
  | spacer
deriving DecidableEq

/-- `Block::is_header`. -/
def Block.isHeader : Block → Bool
  | custom _ _ | spacer => false
  | foldedBuffer | excerptBoundary _ | bufferHeader _ => true

/-- The last closure of the comparator: `none` is the `unreachable!`. -/
def cmpKinds : Block → Block → Option Ordering
  | .excerptBoundary a, .excerptBoundary b | .excerptBoundary a, .bufferHeader b | .bufferHeader a, .excerptBoundary b
  | .bufferHeader a, .bufferHeader b => some (compare a b)
  | .excerptBoundary _, .spacer | .excerptBoundary _, .custom _ _ | .bufferHeader _, .spacer | .bufferHeader _, .custom _ _ => some .lt
  | .spacer, .excerptBoundary _ | .custom _ _, .excerptBoundary _ | .spacer, .bufferHeader _ | .custom _ _, .bufferHeader _ => some .gt
  | .spacer, .custom _ _ => some .lt
  | .custom _ _, .spacer => some .gt
  | .custom priorityA idA, .custom priorityB idB => some ((compare priorityA priorityB).then (compare idA idB))
  | _, _ => none

/-- A block and where it goes. -/
abbrev Placed := BlockPlacement × Block

/-- The comparator of `sort_blocks`. -/
def cmp (a b : Placed) : Option Ordering :=
  match ((compare a.1.start b.1.start).then (compare b.1.end a.1.end)).then (compare a.1.tieBreak b.1.tieBreak) with
  | .eq => if a.2.isHeader then some .lt else if b.2.isHeader then some .gt else cmpKinds a.2 b.2
  | order => some order

/-- The closure of `dedup_by`: the block on the left as it is afterwards, where it takes in the one on the right. -/
def merge (left right : Placed) : Option Placed :=
  match left.1, right.1 with
  | .replace start «end» _, .above row | .replace start «end» _, .below row =>
    if start ≤ row ∧ row ≤ «end» then some left else none
  | .replace startA endA h, .replace startB endB _ =>
    if startB ≤ endA ∧ startA ≤ endB then some (.replace startA (max endA endB) (h.trans (Nat.le_max_left _ _)), left.2) else none
  | _, _ => none

/-- `Vec::dedup_by`, from the last block that was kept on. -/
def dedupFrom (left : Placed) : List Placed → List Placed
  | [] => [left]
  | right :: rest =>
    match merge left right with
    | some left => dedupFrom left rest
    | none => left :: dedupFrom right rest

/-- `Vec::dedup_by`. -/
def dedup : List Placed → List Placed
  | [] => []
  | left :: rest => dedupFrom left rest

/-! ## What the comparator and the dedup step should do -/

/-- The blocks in an order that the sort may give: no block is greater than one behind it. -/
def SortedOf (blocks sorted : List Placed) : Prop :=
  sorted.Perm blocks ∧ sorted.Pairwise fun a b => ∃ o, cmp a b = some o ∧ o.isLE

/-- The block on the left replaces rows of the one on the right. -/
def Covers (a b : Placed) : Prop := a.1.isReplace ∧ a.1.start ≤ b.1.end ∧ b.1.start ≤ a.1.end

instance (a b : Placed) : Decidable (Covers a b) := inferInstanceAs (Decidable (_ ∧ _))

/-- The comparator is a weak order of the blocks: it never aborts, gives the two orders of a pair one for the other, and is
transitive. -/
structure Consistent (blocks : List Placed) : Prop where
  antisymm : blocks.Pairwise fun a b => ∃ o, cmp a b = some o ∧ cmp b a = some o.swap
  trans : ∀ a b c, [a, b, c].Subperm blocks → ∀ o o', cmp a b = some o → o.isLE → cmp b c = some o' → o'.isLE →
    ∃ o'', cmp a c = some o'' ∧ o''.isLE

/-- Neither block lies in a range that the other one replaces. -/
def Apart (a b : Placed) : Prop := ¬ Covers a b ∧ ¬ Covers b a

/-- No block that is left lies in a range that another one replaces, and only blocks in replaced ranges are gone. -/
structure Clean (blocks left : List Placed) : Prop where
  apart : left.Pairwise Apart
  kept : ∀ b ∈ blocks, b ∈ left ∨ ∃ a ∈ blocks, Covers a b

/-- Every order that the sort may give is the same one, whatever order the blocks come in, and the dedup step leaves it clean. -/
structure Sorts (blocks : List Placed) : Prop where
  consistent : Consistent blocks
  sorted : ∃ sorted, SortedOf blocks sorted
  independent : ∀ blocks' sorted sorted', blocks'.Perm blocks → SortedOf blocks sorted → SortedOf blocks' sorted' →
    dedup sorted = dedup sorted'
  clean : ∀ sorted, SortedOf blocks sorted → Clean blocks (dedup sorted)

/-- Not two headers and not two spacers with one placement. -/
def Distinct (a b : Placed) : Prop := a.1 = b.1 → ¬ (a.2.isHeader ∧ b.2.isHeader) ∧ ¬ (a.2 = .spacer ∧ b.2 = .spacer)

instance (a b : Placed) : Decidable (Distinct a b) := inferInstanceAs (Decidable (_ → _))

/-- No two headers and no two spacers have one placement, and no block is placed near a row that is replaced. -/
structure Separate (blocks : List Placed) : Prop where
  kinds : blocks.Pairwise Distinct
  near : ∀ b ∈ blocks, b.1.isNear → ∀ a ∈ blocks, ¬ Covers a b

/-! ## The comparator as an order of keys -/

/-- Headers come first, then spacers, then custom blocks. -/
def Block.rank : Block → Nat
  | custom _ _ => 2
  | spacer => 1
  | _ => 0

/-- The priority of a custom block. -/
def Block.priority : Block → Nat
  | custom priority _ => priority
  | _ => 0

/-- The id of a custom block. -/
def Block.id : Block → Nat
  | custom _ id => id
  | _ => 0

/-- The order of the placements. -/
def placementOrder : Placed → Placed → Ordering :=
  compareLex (compareLex (compareOn fun a => a.1.start) fun a b => compareOn (fun a : Placed => a.1.end) b a)
    (compareOn fun a => a.1.tieBreak)

/-- The order of the blocks at one placement. -/
def blockOrder : Placed → Placed → Ordering :=
  compareLex (compareOn fun a => a.2.rank) (compareLex (compareOn fun a => a.2.priority) (compareOn fun a => a.2.id))

/-- The order of the blocks, by keys. -/
def order : Placed → Placed → Ordering := compareLex placementOrder blockOrder

instance : Std.TransCmp placementOrder := inferInstanceAs (Std.TransCmp (compareLex (compareLex _ fun a b => compareOn _ b a) _))

instance : Std.TransCmp blockOrder := inferInstanceAs (Std.TransCmp (compareLex _ (compareLex _ _)))

instance : Std.TransCmp order := inferInstanceAs (Std.TransCmp (compareLex _ _))

variable {a b : Placed} {blocks sorted : List Placed}

theorem placementOrder_eq : placementOrder a b = .eq ↔ a.1 = b.1 := by
  constructor
  · obtain ⟨pa, ka⟩ := a
    obtain ⟨pb, kb⟩ := b
    intro h
    simp only [placementOrder, compareLex, compareOn, Ordering.then_eq_eq, Nat.compare_eq_eq] at h
    cases pa <;> cases pb <;> simp [BlockPlacement.start, BlockPlacement.end, BlockPlacement.tieBreak] at h ⊢ <;> omega
  · intro h
    have hself : placementOrder a (a.1, b.2) = .eq := (Std.ReflCmp.compare_self : placementOrder a a = .eq)
    rwa [h] at hself

theorem Distinct.symm (h : Distinct a b) : Distinct b a := by
  intro heq
  obtain ⟨hhea, hspa⟩ := h heq.symm
  exact ⟨fun h => hhea h.symm, fun h => hspa h.symm⟩

instance : Std.Symm Distinct := ⟨fun _ _ h => h.symm⟩

theorem cmp_eq (a b : Placed) : cmp a b =
    match placementOrder a b with
    | .eq => if a.2.isHeader then some .lt else if b.2.isHeader then some .gt else cmpKinds a.2 b.2
    | order => some order := rfl

/-- The comparator is the order of the keys, for blocks that can be told apart. -/
theorem cmp_eq_order (h : Distinct a b) : cmp a b = some (order a b) := by
  rw [cmp_eq, show order a b = (placementOrder a b).then (blockOrder a b) by rfl]
  cases hp : placementOrder a b with
  | lt => rfl
  | gt => rfl
  | eq =>
    obtain ⟨hhea, hspa⟩ := h (placementOrder_eq.mp hp)
    obtain ⟨pa, ka⟩ := a
    obtain ⟨pb, kb⟩ := b
    cases ka <;> cases kb <;> first | rfl | exact absurd ⟨rfl, rfl⟩ hhea | exact absurd ⟨rfl, rfl⟩ hspa

/-- Of two headers at one placement each is less than the other; two spacers abort. -/
theorem distinct_of_antisymm (h : ∃ o, cmp a b = some o ∧ cmp b a = some o.swap) : Distinct a b := by
  obtain ⟨o, hab, hba⟩ := h
  intro hpla
  rw [cmp_eq, placementOrder_eq.mpr hpla] at hab
  rw [cmp_eq, placementOrder_eq.mpr hpla.symm] at hba
  refine ⟨fun ⟨ha, hb⟩ => ?_, fun ⟨ha, hb⟩ => ?_⟩
  · simp only [ha, hb, if_true, some.injEq] at hab hba
    rw [← hab] at hba
    cases hba
  · rw [ha, hb] at hab
    cases hab

/-- Blocks of one key that can be told apart are one block. -/
theorem eq_of_order_eq (h : Distinct a b) (heq : order a b = .eq) : a = b := by
  obtain ⟨hpla, hblo⟩ := Ordering.then_eq_eq.mp heq
  rw [placementOrder_eq] at hpla
  obtain ⟨hhea, -⟩ := h hpla
  simp only [blockOrder, compareLex, compareOn, Ordering.then_eq_eq, Nat.compare_eq_eq] at hblo
  refine Prod.ext hpla ?_
  obtain ⟨pa, ka⟩ := a
  obtain ⟨pb, kb⟩ := b
  cases ka <;> cases kb <;> simp_all [Block.isHeader, Block.rank, Block.priority, Block.id]

section Sorting

variable (h : blocks.Pairwise Distinct)
include h

theorem distinct_perm (hperm : sorted.Perm blocks) : sorted.Pairwise Distinct :=
  h.perm hperm.symm fun h => h.symm

theorem consistent_of_distinct : Consistent blocks := by
  refine ⟨h.imp ?_, ?_⟩
  · intro a b hdistinct
    refine ⟨_, cmp_eq_order hdistinct, ?_⟩
    rw [cmp_eq_order hdistinct.symm, show order b a = (order a b).swap from Std.OrientedCmp.eq_swap]
  · rintro a b c ⟨l, hperm, hsub⟩ o o' hab ho hbc ho'
    have htri := (h.sublist hsub).perm hperm fun h => h.symm
    simp only [pairwise_cons, mem_cons, not_mem_nil, or_false, forall_eq_or_imp, forall_eq] at htri
    obtain ⟨⟨hab', hac⟩, hbc', -⟩ := htri
    rw [cmp_eq_order hab', some.injEq] at hab
    rw [cmp_eq_order hbc', some.injEq] at hbc
    subst hab hbc
    exact ⟨_, cmp_eq_order hac, Std.TransCmp.isLE_trans ho ho'⟩

theorem sortedOf_iff : SortedOf blocks sorted ↔ sorted.Perm blocks ∧ sorted.Pairwise fun a b => (order a b).isLE := by
  refine and_congr_right fun hperm => ?_
  have hpair := distinct_perm h hperm
  constructor
  · intro hsort
    refine (hpair.and hsort).imp ?_
    rintro a b ⟨hdistinct, o, heq, ho⟩
    rw [cmp_eq_order hdistinct, some.injEq] at heq
    rwa [heq]
  · intro hsort
    exact (hpair.and hsort).imp fun ⟨hdistinct, ho⟩ => ⟨_, cmp_eq_order hdistinct, ho⟩

theorem exists_sortedOf : ∃ sorted, SortedOf blocks sorted := by
  refine ⟨blocks.mergeSort fun a b => (order a b).isLE, (sortedOf_iff h).mpr ⟨mergeSort_perm _ _, ?_⟩⟩
  refine pairwise_mergeSort (fun _ _ _ => Std.TransCmp.isLE_trans) ?_ _
  intro a b
  rw [show order b a = (order a b).swap from Std.OrientedCmp.eq_swap]
  cases order a b <;> rfl

/-- Blocks of one key are one block, so that there is one sorted list. -/
theorem sortedOf_unique {sorted' : List Placed} (hs : SortedOf blocks sorted) (hs' : SortedOf blocks sorted') : sorted = sorted' := by
  obtain ⟨hperm, hsort⟩ := (sortedOf_iff h).mp hs
  obtain ⟨hperm', hsort'⟩ := (sortedOf_iff h).mp hs'
  refine List.Perm.eq_of_pairwise ?_ hsort hsort' (hperm.trans hperm'.symm)
  intro a b ha hb hab hba
  have heq : order a b = .eq := Std.OrientedCmp.isLE_antisymm hab hba
  by_contra hne
  exact hne (eq_of_order_eq (h.forall (hperm.subset ha) (hperm'.subset hb) hne) heq)

end Sorting

/-! ## Dropping what is replaced -/

/-- In sorted order: by the first row, and of two blocks that begin in one row a replacement comes first. -/
def Before (a b : Placed) : Prop := a.1.start < b.1.start ∨ a.1.start = b.1.start ∧ (b.1.isReplace → a.1.isReplace)

theorem start_le_end (p : BlockPlacement) : p.start ≤ p.end := by
  cases p with
  | replace start «end» valid => exact valid
  | _ => exact le_rfl

theorem end_eq_start {p : BlockPlacement} (h : p.isReplace = false) : p.end = p.start := by
  cases p <;> first | rfl | cases h

theorem isReplace_of_isNear {p : BlockPlacement} (h : p.isNear) : p.isReplace = false := by
  cases p <;> first | rfl | cases h

theorem before_of_isLE (h : (order a b).isLE) : Before a b := by
  rcases Nat.lt_trichotomy a.1.start b.1.start with hlt | heq | hgt
  · exact .inl hlt
  · refine .inr ⟨heq, fun hb => ?_⟩
    by_contra ha
    rw [Bool.not_eq_true] at ha
    -- the one on the left has no more than its row, and comes first only if the one on the right is no replacement
    have hle := start_le_end b.1
    have hend := end_eq_start ha
    have htie : b.1.tieBreak < a.1.tieBreak := by
      revert ha hb
      cases a.1 <;> cases b.1 <;> simp [BlockPlacement.isReplace, BlockPlacement.tieBreak]
    have hgt : placementOrder a b = .gt := by
      simp only [placementOrder, compareLex, compareOn, Nat.compare_eq_eq.mpr heq, Nat.compare_eq_gt.mpr htie, Ordering.eq_then]
      rcases Nat.lt_or_eq_of_le hle with hlt | hsame
      · rw [Nat.compare_eq_gt.mpr (by omega)]
        rfl
      · rw [Nat.compare_eq_eq.mpr (by omega)]
        rfl
    rw [order, compareLex, hgt] at h
    cases h
  · rw [order, compareLex, placementOrder, compareLex, compareLex, compareOn, Nat.compare_eq_gt.mpr hgt] at h
    cases h

variable {left right : Placed} {rest : List Placed}

/-- A block in the replaced range is taken in; the range then goes on to the block's last row. -/
theorem merge_some (h : Covers left right) (hnear : right.1.isNear = false) :
    ∃ left', merge left right = some left' ∧ left'.1.isReplace ∧ left'.1.start = left.1.start ∧
      left'.1.end = max left.1.end right.1.end := by
  obtain ⟨pl, kl⟩ := left
  obtain ⟨pr, kr⟩ := right
  obtain ⟨hrep, hst, hend⟩ := h
  cases pl <;> cases hrep
  cases pr <;> cases hnear
  · exact ⟨_, if_pos ⟨hst, hend⟩, rfl, rfl, (Nat.max_eq_left hend).symm⟩
  · exact ⟨_, if_pos ⟨hst, hend⟩, rfl, rfl, (Nat.max_eq_left hend).symm⟩
  · exact ⟨_, if_pos ⟨hend, hst⟩, rfl, rfl, rfl⟩

theorem merge_none (h : ¬ Covers left right ∨ right.1.isNear) : merge left right = none := by
  obtain ⟨pl, kl⟩ := left
  obtain ⟨pr, kr⟩ := right
  cases pl with
  | replace start «end» valid =>
    cases pr with
    | near row => rfl
    | above row | below row => exact if_neg fun hin => h.elim (fun h => h ⟨rfl, hin⟩) nofun
    | replace start' end' valid' => exact if_neg fun hin => h.elim (fun h => h ⟨rfl, hin.2, hin.1⟩) nofun
  | above row | below row | near row => cases pr <;> rfl

/-- The first block is kept or grows, and the others are taken in, or kept from the next one on. -/
theorem dedupFrom_cons (left right : Placed) (rest : List Placed) :
    (Covers left right ∧ right.1.isNear = false ∧ ∃ left', dedupFrom left (right :: rest) = dedupFrom left' rest ∧ left'.1.isReplace ∧
      left'.1.start = left.1.start ∧ left'.1.end = max left.1.end right.1.end) ∨
    (¬ Covers left right ∨ right.1.isNear) ∧ dedupFrom left (right :: rest) = left :: dedupFrom right rest := by
  by_cases h : Covers left right ∧ right.1.isNear = false
  · obtain ⟨left', hmer, hleft⟩ := merge_some h.1 h.2
    exact .inl ⟨h.1, h.2, left', by rw [dedupFrom, hmer], hleft⟩
  · rw [not_and_or, Bool.not_eq_false] at h
    exact .inr ⟨h, by rw [dedupFrom, merge_none h]⟩

/-- What is left begins where a block begins, and replaces rows if that one does. -/
theorem mem_dedupFrom (rest : List Placed) :
    ∀ left, ∀ y ∈ dedupFrom left rest, ∃ x ∈ left :: rest, y.1.start = x.1.start ∧ y.1.isReplace = x.1.isReplace := by
  induction rest with
  | nil => intro left y hy; exact ⟨left, by simp, by simp_all [dedupFrom]⟩
  | cons right rest ih =>
    intro left y hy
    obtain ⟨hcov, -, left', heq, hrep, hst, -⟩ | ⟨-, heq⟩ := dedupFrom_cons left _ rest
    · rw [heq] at hy
      obtain ⟨x, hx, hxy⟩ := ih _ y hy
      rcases mem_cons.mp hx with rfl | hx
      · exact ⟨left, by simp, by rw [hxy.1, hst], by rw [hxy.2, hrep, hcov.1]⟩
      · exact ⟨x, by simp [hx], hxy⟩
    · rw [heq] at hy
      rcases mem_cons.mp hy with rfl | hy
      · exact ⟨_, by simp, rfl, rfl⟩
      · obtain ⟨x, hx, hxy⟩ := ih _ y hy
        exact ⟨x, by simp [mem_cons.mp hx], hxy⟩

/-- A replacement that grows stays in front. -/
theorem before_grown {left' : Placed} (hsort : (left :: right :: rest).Pairwise Before) (hleft : left.1.isReplace)
    (hrep : left'.1.isReplace) (hst : left'.1.start = left.1.start) : (left' :: rest).Pairwise Before := by
  obtain ⟨hfst, hrest⟩ := pairwise_cons.mp hsort
  refine pairwise_cons.mpr ⟨?_, hrest.of_cons⟩
  intro b hb
  have hbef := hfst b (by simp [hb])
  unfold Before at hbef ⊢
  rw [hst, hrep]
  simpa [hleft] using hbef

/-- What is left lies in no range that is replaced, unless a block near one of its rows does. -/
theorem apart_dedupFrom (rest : List Placed) : ∀ left, (left :: rest).Pairwise Before →
    (∀ b ∈ left :: rest, b.1.isNear → ∀ a ∈ left :: rest, ¬ Covers a b) → (dedupFrom left rest).Pairwise Apart := by
  induction rest with
  | nil => intro left hsort hnear; simp [dedupFrom]
  | cons right rest ih =>
    intro left hsort hnear
    obtain ⟨hfst, hrest⟩ := pairwise_cons.mp hsort
    have hrt := hfst right (by simp)
    obtain ⟨hcov, -, left', heq, hrep, hst, hend⟩ | ⟨hno, heq⟩ := dedupFrom_cons left _ rest
    · rw [heq]
      refine ih _ (before_grown hsort hcov.1 hrep hst) ?_
      · intro b hb hbn a ha
        have hbre : b ∈ rest := by
          rcases mem_cons.mp hb with rfl | hb
          · rw [isReplace_of_isNear hbn] at hrep
            cases hrep
          · exact hb
        rcases mem_cons.mp ha with rfl | ha
        · -- the range grew over the one on the right, which covers no such block either
          rintro ⟨-, hlo, hhi⟩
          have hleft := hnear b (by simp [hbre]) hbn left (by simp)
          have hcove := hnear b (by simp [hbre]) hbn right (by simp)
          have hb' := start_le_end b.1
          obtain ⟨hleftR, -, hrtS⟩ := hcov
          rw [Covers, not_and, not_and] at hleft hcove
          rw [hst] at hlo
          rw [hend] at hhi
          have hbeh := hleft hleftR hlo
          cases hkind : right.1.isReplace with
          | true => exact hcove hkind (by omega) (by omega)
          | false =>
            have := end_eq_start hkind
            omega
        · exact hnear b (by simp [hbre]) hbn a (by simp [ha])
    · rw [heq]
      refine pairwise_cons.mpr ⟨?_, ih _ hrest ?_⟩
      · intro y hy
        obtain ⟨x, hx, hst, hkind⟩ := mem_dedupFrom rest _ y hy
        have hleft := hfst x hx
        have hle : right.1.start ≤ x.1.start := by
          rcases mem_cons.mp hx with rfl | hx
          · exact le_rfl
          · rcases (pairwise_cons.mp hrest).1 x hx with hlt | heq <;> omega
        have hy' := start_le_end y.1
        have hrt' := start_le_end right.1
        have hover : ¬ Covers left y := by
          rintro ⟨hrep, -, hhi⟩
          have hcov : Covers left right := ⟨hrep, by rcases hrt with h | h <;> omega, by omega⟩
          exact hnear _ (by simp) (hno.resolve_left (fun h => h hcov)) left (by simp) hcov
        refine ⟨hover, ?_⟩
        rintro ⟨hrep, hlo, -⟩
        rcases hleft with hlt | ⟨hsame, himp⟩
        · cases hk : left.1.isReplace with
          | true => exact hover ⟨hk, by omega, by omega⟩
          | false =>
            have := end_eq_start hk
            omega
        · exact hover ⟨himp (by rw [← hkind, hrep]), by omega, by omega⟩
      · intro b hb hbn a ha
        exact hnear b (.tail _ hb) hbn a (.tail _ ha)

/-- A block that is taken in has a row that one of the blocks replaces. -/
theorem kept_dedupFrom (replaced : Nat → Prop) (rest : List Placed) :
    ∀ left, (∀ a ∈ left :: rest, a.1.isReplace → ∀ row, a.1.start ≤ row → row ≤ a.1.end → replaced row) →
      ∀ x ∈ left :: rest, x ∈ dedupFrom left rest ∨ ∃ row, x.1.start ≤ row ∧ row ≤ x.1.end ∧ replaced row := by
  induction rest with
  | nil => intro left hrows x hx; exact .inl hx
  | cons right rest ih =>
    intro left hrows x hx
    obtain ⟨hcov, -, left', heq, -, hst, hend⟩ | ⟨-, heq⟩ := dedupFrom_cons left right rest
    · have hleft := hrows left (by simp) hcov.1
      obtain ⟨-, hlo, hhi⟩ := hcov
      have hrows' : ∀ a ∈ left' :: rest, a.1.isReplace → ∀ row, a.1.start ≤ row → row ≤ a.1.end → replaced row := by
        intro a ha hk row hrow hrow'
        rcases mem_cons.mp ha with rfl | ha
        · by_cases hin : row ≤ left.1.end
          · exact hleft row (by omega) hin
          · cases hkind : right.1.isReplace with
            | true => exact hrows _ (by simp) hkind row (by omega) (by omega)
            | false =>
              have := end_eq_start hkind
              omega
        · exact hrows a (by simp [ha]) hk row hrow hrow'
      rw [heq]
      rcases mem_cons.mp hx with rfl | hx
      · exact .inr ⟨x.1.start, le_rfl, start_le_end _, hleft _ le_rfl (start_le_end _)⟩
      rcases mem_cons.mp hx with rfl | hx
      · have := start_le_end x.1
        have := start_le_end left.1
        exact .inr ⟨max left.1.start x.1.start, by omega, by omega, hleft _ (by omega) (by omega)⟩
      · exact ih _ hrows' x (by simp [hx])
    · rw [heq]
      rcases mem_cons.mp hx with rfl | hx
      · exact .inl (by simp)
      · rcases ih _ (fun a ha => hrows a (.tail _ ha)) x hx with hmem | hrow
        · exact .inl (by simp [hmem])
        · exact .inr hrow

/-- A block near a row is never taken in. -/
theorem near_dedupFrom (rest : List Placed) : ∀ left, ∀ x ∈ left :: rest, x.1.isNear → x ∈ dedupFrom left rest := by
  induction rest with
  | nil => intro left x hx _; exact hx
  | cons right rest ih =>
    intro left x hx hnear
    obtain ⟨hcov, hrt, left', heq, -⟩ | ⟨-, heq⟩ := dedupFrom_cons left _ rest
    · rw [heq]
      refine ih _ x ?_ hnear
      rcases mem_cons.mp hx with rfl | hx
      · exact absurd hcov.1 (by simp [isReplace_of_isNear hnear])
      rcases mem_cons.mp hx with rfl | hx
      · rw [hrt] at hnear
        cases hnear
      · simp [hx]
    · rw [heq]
      rcases mem_cons.mp hx with rfl | hx
      · simp
      · exact .tail _ (ih _ x hx hnear)

/-- What a block replaces is replaced by one that is left. -/
theorem covers_dedupFrom (rest : List Placed) : ∀ left, (left :: rest).Pairwise Before → ∀ a ∈ left :: rest, a.1.isReplace →
    ∃ y ∈ dedupFrom left rest, y.1.isReplace ∧ y.1.start ≤ a.1.start ∧ a.1.end ≤ y.1.end := by
  induction rest with
  | nil => intro left _ a ha hk; exact ⟨a, ha, hk, le_rfl, le_rfl⟩
  | cons right rest ih =>
    intro left hsort a ha hk
    obtain ⟨hfst, hrest⟩ := pairwise_cons.mp hsort
    have hrt := hfst right (by simp)
    obtain ⟨hcov, -, left', heq, hrep, hst, hend⟩ | ⟨-, heq⟩ := dedupFrom_cons left _ rest
    · rw [heq]
      have hsort' := before_grown hsort hcov.1 hrep hst
      have hgro : ∀ b : Placed, b.1.end ≤ left'.1.end → left.1.start ≤ b.1.start →
          ∃ y ∈ dedupFrom left' rest, y.1.isReplace ∧ y.1.start ≤ b.1.start ∧ b.1.end ≤ y.1.end := by
        intro b hb hb'
        obtain ⟨y, hy, hyk, hlo, hhi⟩ := ih _ hsort' _ (by simp) hrep
        exact ⟨y, hy, hyk, by omega, by omega⟩
      rcases mem_cons.mp ha with rfl | ha
      · exact hgro a (by omega) le_rfl
      rcases mem_cons.mp ha with rfl | ha
      · exact hgro a (by omega) (by rcases hrt with h | h <;> omega)
      · exact ih _ hsort' a (by simp [ha]) hk
    · rw [heq]
      rcases mem_cons.mp ha with rfl | ha
      · exact ⟨_, by simp, hk, le_rfl, le_rfl⟩
      · obtain ⟨y, hy, hran⟩ := ih _ hrest a ha hk
        exact ⟨y, .tail _ hy, hran⟩

instance : Std.Symm Apart := ⟨fun _ _ h => ⟨h.2, h.1⟩⟩

/-- After the dedup step the blocks are clean exactly when none is near a replaced row. -/
theorem clean_dedup_iff (h : blocks.Pairwise Distinct) (hsort : SortedOf blocks sorted) :
    Clean blocks (dedup sorted) ↔ ∀ b ∈ blocks, b.1.isNear → ∀ a ∈ blocks, ¬ Covers a b := by
  obtain ⟨hperm, hord⟩ := (sortedOf_iff h).mp hsort
  have hbef : sorted.Pairwise Before := hord.imp before_of_isLE
  have hmem : ∀ b, b ∈ blocks ↔ b ∈ sorted := fun b => hperm.mem_iff.symm
  simp only [hmem]
  cases sorted with
  | nil => exact iff_of_true ⟨.nil, by simp [hmem]⟩ (by simp)
  | cons left rest =>
    constructor
    · rintro ⟨hapa, -⟩ b hb hnear a ha ⟨hk, hlo, hhi⟩
      obtain ⟨y, hy, hyk, hylo, hyhi⟩ := covers_dedupFrom rest left hbef a ha hk
      have hmem' := near_dedupFrom rest left b hb hnear
      have hne : y ≠ b := by
        rintro rfl
        rw [isReplace_of_isNear hnear] at hyk
        cases hyk
      exact (hapa.forall hy hmem' hne).1 ⟨hyk, by omega, by omega⟩
    · intro hnear
      refine ⟨apart_dedupFrom rest left hbef hnear, ?_⟩
      intro b hb
      rw [hmem] at hb
      obtain hkept | ⟨row, hlo, hhi, a, ha, hk, hrow⟩ := kept_dedupFrom (fun row => ∃ a ∈ left :: rest, a.1.isReplace ∧
        a.1.start ≤ row ∧ row ≤ a.1.end) rest left (fun a ha hk row hlo hhi => ⟨a, ha, hk, hlo, hhi⟩) b hb
      · exact .inl hkept
      · exact .inr ⟨a, (hmem a).mpr ha, hk, by omega, by omega⟩

theorem Sorts.separate (h : Sorts blocks) : Separate blocks := by
  have hdistinct : blocks.Pairwise Distinct := h.consistent.antisymm.imp distinct_of_antisymm
  obtain ⟨sorted, hsort⟩ := h.sorted
  exact ⟨hdistinct, (clean_dedup_iff hdistinct hsort).mp (h.clean _ hsort)⟩

theorem sorts_iff_separate (blocks : List Placed) : Sorts blocks ↔ Separate blocks := by
  refine ⟨Sorts.separate, fun h => ?_⟩
  refine ⟨consistent_of_distinct h.kinds, exists_sortedOf h.kinds, ?_, fun sorted hsorted => (clean_dedup_iff h.kinds hsorted).mpr h.near⟩
  intro blocks' sorted sorted' hperm hsorted hsorted'
  rw [sortedOf_unique h.kinds hsorted ⟨hsorted'.1.trans hperm, hsorted'.2⟩]

/-- A block near a replaced row stays; two headers at one row are each less than the other; two spacers at one row abort. -/
theorem not_sorts_same_row :
    ¬ Sorts [(.near 3, .custom 0 0), (.replace 0 5 (by decide), .custom 0 1)] ∧
      ¬ Sorts [(.above 2, .excerptBoundary 0), (.above 2, .excerptBoundary 1)] ∧
      ¬ Sorts [(.above 2, .spacer), (.above 2, .spacer)] := by
  refine ⟨fun h => absurd h.separate.near (by decide), fun h => absurd h.separate.kinds (by decide), ?_⟩
  exact fun h => absurd h.separate.kinds (by decide)

end Wu.BlockMap
