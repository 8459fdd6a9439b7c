import Wu.Gpui.BoundsTree
import Mathlib.Algebra.Order.BigOperators.Group.List
import Mathlib.Algebra.Order.Group.Nat
import Mathlib.Data.List.Pairwise

/-!
# What the tree of bounds keeps

Each node holds the bounds and the greatest order of what is below it, and one child with this order is last. So a search may leave out
what does not intersect or is not greater, and finds what a scan of all bounds finds.
-/

namespace Wu.Gpui.PaintOrder

open List

variable {U : Type}

/-! ## The shape of the tree -/

abbrev childrenOf (nodes : Nat → Node U) (i : Nat) : List Nat := (nodes i).kind.children

/-- Says that a node is another one or below it. -/
inductive Below (nodes : Nat → Node U) : Nat → Nat → Prop where
  | refl (i : Nat) : Below nodes i i
  | step {i c j : Nat} : c ∈ childrenOf nodes i → Below nodes c j → Below nodes i j

variable {nodes : Nat → Node U} {i c pos : Nat} {node : Node U} {l : List Nat}

theorem Below.snoc {j : Nat} (h : Below nodes i j) (hc : c ∈ childrenOf nodes j) : Below nodes i c := by
  induction h with
  | refl i => exact .step hc (.refl c)
  | step hchd _ ih => exact .step hchd (ih hc)

theorem isLeaf_of_mem (h : c ∈ node.kind.children) : node.kind.isLeaf = false := by
  cases hkind : node.kind with
  | leaf order =>
    rw [hkind] at h
    cases h
  | internal children => rfl

variable [AddCommGroup U] [LinearOrder U]

/-- What holds of a node and its children. -/
structure Family (nodes : Nat → Node U) (node : Node U) (children : List Nat) : Prop where
  two : 2 ≤ children.length
  few : children.length ≤ maxChildren
  nodup : children.Nodup
  below : ∀ c ∈ children, node.bounds.Contains (nodes c).bounds ∧ (nodes c).maxOrder ≤ node.maxOrder
  last : ∃ c, children.getLast? = some c ∧ (nodes c).maxOrder = node.maxOrder

def Sound (nodes : Nat → Node U) (node : Node U) : Prop :=
  match node.kind with
  | .leaf order => node.maxOrder = order
  | .internal children => Family nodes node children

/-- A tree whose nodes have depths. -/
structure Shaped (nodes : Nat → Node U) (len root : Nat) (depth : Nat → Nat) : Prop where
  rooted : root < len ∧ depth root = 0
  sound : ∀ i < len, Sound nodes (nodes i)
  child : ∀ i < len, ∀ c ∈ childrenOf nodes i, c < len ∧ depth c = depth i + 1
  deep : ∀ i < len, depth i < len
  parent : ∀ c < len, c ≠ root → ∃ i < len, c ∈ childrenOf nodes i
  unique : ∀ i < len, ∀ j < len, ∀ c, c ∈ childrenOf nodes i → c ∈ childrenOf nodes j → i = j

theorem Sound.family (h : Sound nodes node) (hleaf : node.kind.isLeaf = false) : Family nodes node node.kind.children := by
  rw [Sound] at h
  cases hkind : node.kind with
  | leaf order =>
    rw [hkind] at hleaf
    cases hleaf
  | internal children =>
    rw [hkind] at h
    exact h

namespace Shaped

variable {nodes : Nat → Node U} {len root : Nat} {depth : Nat → Nat}

theorem below (h : Shaped nodes len root depth) {i j : Nat} (hbel : Below nodes i j) (hi : i < len) :
    j < len ∧ (nodes i).bounds.Contains (nodes j).bounds ∧ (nodes j).maxOrder ≤ (nodes i).maxOrder := by
  induction hbel with
  | refl i => exact ⟨hi, .refl _, le_rfl⟩
  | step hchd _ ih =>
    obtain ⟨hcon, hle⟩ := ((h.sound _ hi).family (isLeaf_of_mem hchd)).below _ hchd
    obtain ⟨hj, hcon', hle'⟩ := ih (h.child _ hi _ hchd).1
    exact ⟨hj, hcon.trans hcon', hle'.trans hle⟩

/-- The greatest order below a node is that of a leaf. -/
theorem exists_leaf (h : Shaped nodes len root depth) {i : Nat} (hi : i < len) :
    ∃ j, Below nodes i j ∧ (nodes j).kind = .leaf (nodes i).maxOrder := by
  have hdep := h.deep i hi
  induction hn : len - depth i using Nat.strong_induction_on generalizing i with
  | h n ih =>
    cases hkind : (nodes i).kind with
    | leaf order =>
      have hsou := h.sound i hi
      rw [Sound, hkind] at hsou
      exact ⟨i, .refl i, by rw [hkind, hsou]⟩
    | internal children =>
      have hfam := (h.sound i hi).family (by rw [hkind]; rfl)
      obtain ⟨c, hlast, hmax⟩ := hfam.last
      have hc := List.mem_of_getLast? hlast
      obtain ⟨hlt, hdeep⟩ := h.child i hi c hc
      obtain ⟨j, hbel, hleaf⟩ := ih _ (by omega) hlt (h.deep c hlt) rfl
      exact ⟨j, .step hc hbel, hmax ▸ hleaf⟩

theorem below_root (h : Shaped nodes len root depth) {j : Nat} (hj : j < len) : Below nodes root j := by
  induction hn : depth j generalizing j with
  | zero =>
    by_cases hroot : j = root
    · exact hroot ▸ .refl j
    · obtain ⟨i, hi, hchd⟩ := h.parent j hj hroot
      have hdeep := (h.child i hi j hchd).2
      omega
  | succ n ih =>
    have hroot : j ≠ root := by
      intro heq
      rw [heq, h.rooted.2] at hn
      cases hn
    obtain ⟨i, hi, hchd⟩ := h.parent j hj hroot
    have hdeep := (h.child i hi j hchd).2
    exact (ih hi (by omega)).snoc hchd

/-! ## The search -/

/-- A bound of the rounds that a stack may take. -/
def weight (len : Nat) (depth : Nat → Nat) (stack : List Nat) : Nat := (stack.map fun i => (maxChildren + 1) ^ (len - depth i)).sum

omit [AddCommGroup U] [LinearOrder U] in
/-- Children weigh less than their parent. -/
theorem weight_children {i : Nat} {children : List Nat} (stack : List Nat) (p : Nat → Bool) (hdep : depth i < len)
    (hfew : children.length ≤ maxChildren) (hchd : ∀ c ∈ children, depth c = depth i + 1) :
    weight len depth ((children.filter p).reverse ++ stack) < weight len depth (i :: stack) := by
  have hkept : ((children.filter p).reverse.map fun c => (maxChildren + 1) ^ (len - depth c)).sum ≤
      maxChildren * (maxChildren + 1) ^ (len - depth i - 1) := by
    refine (sum_le_card_nsmul _ ((maxChildren + 1) ^ (len - depth i - 1)) fun w hw => ?_).trans ?_
    · obtain ⟨c, hc, rfl⟩ := mem_map.mp hw
      rw [hchd c (mem_of_mem_filter (mem_reverse.mp hc)), Nat.sub_sub]
    · rw [Nat.nsmul_eq_mul, length_map, length_reverse]
      exact Nat.mul_le_mul_right _ ((length_filter_le _ _).trans hfew)
  have hpow : (maxChildren + 1) ^ (len - depth i) =
      maxChildren * (maxChildren + 1) ^ (len - depth i - 1) + (maxChildren + 1) ^ (len - depth i - 1) := by
    obtain ⟨k, hk⟩ : ∃ k, len - depth i = k + 1 := ⟨len - depth i - 1, by omega⟩
    rw [hk, Nat.add_sub_cancel, Nat.pow_succ, Nat.mul_comm, Nat.succ_mul]
  have hpos : 0 < (maxChildren + 1) ^ (len - depth i - 1) := Nat.pow_pos (Nat.succ_pos _)
  rw [weight, map_append, List.sum_append, weight, map_cons, sum_cons]
  omega

/-- What the search for the greatest order of intersecting leaves finds. -/
structure Found (nodes : Nat → Node U) (len : Nat) (query : Bounds U) (starts : List Nat) (before result : Nat) : Prop where
  le : before ≤ result
  leaves : ∀ i ∈ starts, ∀ j order, Below nodes i j → (nodes j).kind = .leaf order → query.intersects (nodes j).bounds = true →
    order ≤ result
  found : result = before ∨ ∃ j < len, (nodes j).kind = .leaf result ∧ query.intersects (nodes j).bounds = true

theorem searchLoop_found (h : Shaped nodes len root depth) (query : Bounds U) (fuel : Nat) :
    ∀ (stack : List Nat) (maxFound : Nat), (∀ i ∈ stack, i < len) → weight len depth stack ≤ fuel →
      ∃ result, BoundsTree.searchLoop nodes query fuel stack maxFound = some result ∧ Found nodes len query stack maxFound result := by
  induction fuel with
  | zero =>
    intro stack maxFound hsta hwei
    cases stack with
    | nil => exact ⟨maxFound, rfl, le_rfl, nofun, .inl rfl⟩
    | cons i stack =>
      have hpos : 0 < (maxChildren + 1) ^ (len - depth i) := Nat.pow_pos (Nat.succ_pos _)
      rw [weight, map_cons, sum_cons] at hwei
      omega
  | succ fuel ih =>
    intro stack maxFound hsta hwei
    cases stack with
    | nil => exact ⟨maxFound, rfl, le_rfl, nofun, .inl rfl⟩
    | cons i stack =>
      obtain ⟨hi, hsta⟩ := forall_mem_cons.mp hsta
      have hpos : 0 < (maxChildren + 1) ^ (len - depth i) := Nat.pow_pos (Nat.succ_pos _)
      have hsum : weight len depth (i :: stack) = (maxChildren + 1) ^ (len - depth i) + weight len depth stack := by
        rw [weight, map_cons, sum_cons, weight]
      rw [BoundsTree.searchLoop]
      -- A node that is passed over has no better leaf below it.
      have hskip : (∀ j order, Below nodes i j → (nodes j).kind = .leaf order → query.intersects (nodes j).bounds = true →
          order ≤ maxFound) → ∃ result, BoundsTree.searchLoop nodes query fuel stack maxFound = some result ∧
            Found nodes len query (i :: stack) maxFound result := by
        intro hnone
        obtain ⟨result, hres, hfnd⟩ := ih _ _ hsta (by omega)
        refine ⟨result, hres, hfnd.le, forall_mem_cons.mpr ⟨fun j order hbel hkind hintersects => ?_, hfnd.leaves⟩, hfnd.found⟩
        exact (hnone j _ hbel hkind hintersects).trans hfnd.le
      have hleafO : ∀ {j order : Nat}, j < len → (nodes j).kind = .leaf order → (nodes j).maxOrder = order := by
        intro j order hj hkind
        have hsou := h.sound j hj
        rw [Sound, hkind] at hsou
        exact hsou
      by_cases hsma : (nodes i).maxOrder ≤ maxFound
      · rw [if_pos hsma]
        refine hskip fun j order hbel hkind _ => ?_
        obtain ⟨hj, -, hle⟩ := h.below hbel hi
        exact (hleafO hj hkind ▸ hle).trans hsma
      · rw [if_neg hsma]
        by_cases hmiss : query.intersects (nodes i).bounds = true
        · rw [if_neg (not_not.mpr hmiss)]
          cases hkind : (nodes i).kind with
          | leaf order =>
            obtain ⟨result, hres, hfnd⟩ := ih _ _ hsta (by omega)
            refine ⟨result, hres, (Nat.le_max_left _ _).trans hfnd.le,
              forall_mem_cons.mpr ⟨fun j found hbel hleaf _ => ?_, hfnd.leaves⟩, ?_⟩
            · cases hbel with
              | refl =>
                rw [hkind] at hleaf
                cases hleaf
                exact (Nat.le_max_right _ _).trans hfnd.le
              | step hchd _ =>
                rw [childrenOf, hkind] at hchd
                cases hchd
            · rcases hfnd.found with heq | hex
              · rcases Nat.le_total _ _ with hle | hle
                · exact .inl (heq.trans (Nat.max_eq_left hle))
                · rw [Nat.max_eq_right hle] at heq
                  exact .inr ⟨i, hi, heq ▸ hkind, hmiss⟩
              · exact .inr hex
          | internal children =>
            have hchn : childrenOf nodes i = children := by rw [childrenOf, hkind]; rfl
            have hfam := (h.sound i hi).family (by rw [hkind]; rfl)
            rw [hkind] at hfam
            have hchd : ∀ c ∈ children, c < len ∧ depth c = depth i + 1 := fun c hc => h.child i hi c (hchn ▸ hc)
            have hdep := h.deep i hi
            have hlig := weight_children stack (fun c => decide ((nodes c).maxOrder > maxFound)) hdep hfam.few
              fun c hc => (hchd c hc).2
            rw [NodeKind.children] at hlig
            obtain ⟨result, hres, hfnd⟩ := ih
              ((children.filter fun c => decide ((nodes c).maxOrder > maxFound)).reverse ++ stack) _ (by
                intro c hc
                rcases mem_append.mp hc with hc | hc
                · exact (hchd c (mem_of_mem_filter (mem_reverse.mp hc))).1
                · exact hsta c hc) (by omega)
            refine ⟨result, hres, hfnd.le, forall_mem_cons.mpr ⟨fun j order hbel hleaf hintersects => ?_,
              fun c hc => hfnd.leaves c (mem_append_right _ hc)⟩, hfnd.found⟩
            cases hbel with
            | refl =>
              rw [hkind] at hleaf
              cases hleaf
            | @step _ c _ hc hbel =>
              rw [hchn] at hc
              by_cases hgre : (nodes c).maxOrder > maxFound
              · refine hfnd.leaves c (mem_append_left _ (mem_reverse.mpr (mem_filter.mpr ⟨hc, ?_⟩))) j _ hbel hleaf hintersects
                exact decide_eq_true hgre
              · obtain ⟨hj, -, hle⟩ := h.below hbel (hchd c hc).1
                rw [hleafO hj hleaf] at hle
                exact hle.trans ((Nat.not_lt.mp hgre).trans hfnd.le)
        · rw [if_pos hmiss]
          refine hskip fun j order hbel _ hintersects => absurd ?_ hmiss
          exact (h.below hbel hi).2.1.intersects hintersects

end Shaped

/-! ## Swapping children -/

theorem swap_perm (l : List Nat) (i j : Nat) : (swap l i j).Perm l := by
  unfold swap
  split
  · rename_i h
    exact set_set_perm h.1 h.2
  · exact .refl l

theorem getLast?_swap (h : i < l.length) : (swap l i (l.length - 1)).getLast? = l[i]? := by
  have hlast : l.length - 1 < l.length := by omega
  rw [swap, dif_pos ⟨h, hlast⟩, List.getLast?_eq_getElem?, length_set, length_set, List.getElem?_set_self, List.getElem?_eq_getElem]
  rw [length_set]
  exact hlast

/-- A new item that is put before the last one. -/
theorem getLast?_swap_snoc (h : l ≠ []) (x : Nat) :
    (swap (l ++ [x]) ((l ++ [x]).length - 1 - 1) ((l ++ [x]).length - 1)).getLast? = l.getLast? := by
  have hpos := length_pos_iff.mpr h
  have hlen : (l ++ [x]).length = l.length + 1 := length_append
  rw [getLast?_swap (by omega), hlen, Nat.add_sub_cancel, List.getElem?_append_left (by omega), List.getLast?_eq_getElem?]

theorem orderedPair_perm (child childOrder newLeaf order : Nat) : (orderedPair child childOrder newLeaf order).Perm [child, newLeaf] := by
  unfold orderedPair
  split
  · exact .refl _
  · exact .swap _ _ _

/-- What is in a list of different items when one is replaced. -/
theorem mem_set_iff {old new x : Nat} (hnod : l.Nodup) (hold : l[pos]? = some old) :
    x ∈ l.set pos new ↔ x = new ∨ x ∈ l ∧ x ≠ old := by
  obtain ⟨hpos, hget⟩ := List.getElem?_eq_some_iff.mp hold
  rw [mem_iff_getElem?]
  constructor
  · rintro ⟨k, hk⟩
    by_cases hkpos : k = pos
    · rw [hkpos, List.getElem?_set_self hpos] at hk
      exact .inl (Option.some.inj hk).symm
    · rw [List.getElem?_set_ne (Ne.symm hkpos)] at hk
      obtain ⟨hlt, hx⟩ := List.getElem?_eq_some_iff.mp hk
      exact .inr ⟨mem_of_getElem? hk, fun heq => hkpos (hnod.getElem_inj_iff.mp (hx.trans (heq.trans hget.symm)))⟩
  · rintro (rfl | ⟨hx, hne⟩)
    · exact ⟨pos, List.getElem?_set_self hpos⟩
    · obtain ⟨k, hk⟩ := mem_iff_getElem?.mp hx
      refine ⟨k, (List.getElem?_set_ne fun heq => hne ?_).trans hk⟩
      rw [← heq, hold] at hk
      exact (Option.some.inj hk).symm

/-! ## The way down -/

/-- A way from the root down, deepest node first. -/
inductive Trail (nodes : Nat → Node U) (root : Nat) : List Nat → Prop where
  | root : Trail nodes root [root]
  | step {i c : Nat} {path : List Nat} : Trail nodes root (i :: path) → c ∈ childrenOf nodes i → Trail nodes root (c :: i :: path)

namespace Trail

variable {nodes : Nat → Node U} {len root : Nat} {depth : Nat → Nat} {path : List Nat}

omit [AddCommGroup U] [LinearOrder U] in
theorem child {front back : List Nat} {c i : Nat} (h : Trail nodes root (front ++ c :: i :: back)) : c ∈ childrenOf nodes i := by
  induction front with
  | nil =>
    cases h with
    | step _ hchd => exact hchd
  | cons j front ih =>
    cases front with
    | nil =>
      cases h with
      | step h' _ => exact ih h'
    | cons k front =>
      cases h with
      | step h' _ => exact ih h'

section

variable (h : Trail nodes root path) (hshaped : Shaped nodes len root depth)
include h hshaped

/-- The nodes of a way are in the tree, each deeper than those behind it. -/
theorem spec : (∀ i ∈ path, i < len) ∧ path.Pairwise fun i j => depth j < depth i := by
  induction h with
  | root => exact ⟨fun i hi => mem_singleton.mp hi ▸ hshaped.rooted.1, pairwise_singleton _ _⟩
  | step _ hchd ih =>
    obtain ⟨hi, -⟩ := forall_mem_cons.mp ih.1
    obtain ⟨hlt, hdeep⟩ := hshaped.child _ hi _ hchd
    refine ⟨forall_mem_cons.mpr ⟨hlt, ih.1⟩, pairwise_cons.mpr ⟨forall_mem_cons.mpr ⟨by omega, fun j hj => ?_⟩, ih.2⟩⟩
    have hj' := (pairwise_cons.mp ih.2).1 j hj
    omega

theorem nodup : path.Nodup :=
  (h.spec hshaped).2.imp fun hlt heq => absurd (heq ▸ hlt) (Nat.lt_irrefl _)

/-- Two nodes of a way with one depth are the same. -/
theorem eq_of_depth {i j : Nat} (hi : i ∈ path) (hj : j ∈ path) (heq : depth i = depth j) : i = j := by
  by_contra hne
  have hsymm : Std.Symm fun i j => depth i ≠ depth j := ⟨fun _ _ hne => Ne.symm hne⟩
  have hpai : path.Pairwise fun i j => depth i ≠ depth j := (h.spec hshaped).2.imp fun hlt => Nat.ne_of_gt hlt
  exact hpai.forall hi hj hne heq

end

end Trail

theorem bestChild_mem (nodes : Nat → Node U) (bounds : Bounds U) (all : List Nat) {rest : List Nat} (best : Nat × Nat × U)
    (hbest : all[best.2.1]? = some best.1) (hrest : all.drop pos = rest) :
    all[(bestChild nodes bounds pos best rest).2]? = some (bestChild nodes bounds pos best rest).1 := by
  induction rest generalizing pos best with
  | nil => exact hbest
  | cons child rest ih =>
    have hdrop : all.drop (pos + 1) = rest := by rw [← tail_drop, hrest, tail_cons]
    have hchd : all[pos]? = some child := by rw [← head?_drop, hrest, head?_cons]
    rw [bestChild]
    split
    · exact ih _ hchd hdrop
    · exact ih _ hbest hdrop

/-- The descent ends at a node of a way with a leaf among its children. -/
theorem descend_spec {len root : Nat} {depth : Nat → Nat} (h : Shaped nodes len root depth) (bounds : Bounds U)
    (fuel : Nat) : ∀ {current : Nat} {path : List Nat}, Trail nodes root (current :: path) → (nodes current).kind.isLeaf = false →
      len - depth current ≤ fuel → ∃ last path' child pos, descend nodes bounds fuel current path = some (last :: path', child, pos) ∧
        Trail nodes root (last :: path') ∧ (childrenOf nodes last)[pos]? = some child ∧ (nodes child).kind.isLeaf = true := by
  induction fuel with
  | zero =>
    intro current path htrail _ hfuel
    have hdep := h.deep _ ((htrail.spec h).1 _ mem_cons_self)
    omega
  | succ fuel ih =>
    intro current path htrail hinternal hfuel
    have hcur := (htrail.spec h).1 _ mem_cons_self
    have hfam := (h.sound _ hcur).family hinternal
    rw [descend]
    cases hchn : (nodes _).kind.children with
    | nil =>
      have htwo := hfam.two
      rw [hchn] at htwo
      cases htwo
    | cons first children =>
      dsimp only
      have hbest := bestChild_mem nodes bounds (first :: children) (first, 0, (bounds.union (nodes first).bounds).halfPerimeter) rfl
        (drop_one.trans tail_cons)
      rw [← hchn] at hbest
      have hmem := mem_of_getElem? hbest
      cases hleaf : (nodes _).kind.isLeaf with
      | true =>
        exact ⟨current, path, _, _, rfl, htrail, hbest, hleaf⟩
      | false =>
        have hdeep := (h.child _ hcur _ hmem).2
        exact ih (htrail.step hmem) hleaf (by omega)

/-! ## The way up -/

/-- Says that a node has grown by new bounds with an order. -/
structure Raised (bounds : Bounds U) (order : Nat) (old new : Node U) : Prop where
  maxOrder : new.maxOrder = max old.maxOrder order
  contains : ∀ outer : Bounds U, outer.Contains old.bounds → outer.Contains bounds → outer.Contains new.bounds

theorem propagateStep_raised (bounds : Bounds U) (order : Nat) (updatedChild : Option Nat) (node : Node U) :
    Raised bounds order node (propagateStep bounds order updatedChild node) := by
  refine ⟨?_, fun outer hold hnew => hold.union hnew⟩
  show (if node.maxOrder < order then order else node.maxOrder) = _
  split <;> omega

theorem propagate_notMem (bounds : Bounds U) (order : Nat) {path : List Nat} (h : i ∉ path) (updatedChild : Option Nat)
    (nodes : Nat → Node U) : propagate bounds order updatedChild path nodes i = nodes i := by
  induction path generalizing updatedChild nodes with
  | nil => rfl
  | cons j path ih =>
    rw [mem_cons, not_or] at h
    rw [propagate, ih h.2, Function.update_of_ne h.1]

theorem propagate_mem (bounds : Bounds U) (order : Nat) {front back : List Nat} (h : (front ++ i :: back).Nodup)
    (updatedChild : Option Nat) (nodes : Nat → Node U) :
    propagate bounds order updatedChild (front ++ i :: back) nodes i =
      propagateStep bounds order (front.getLast?.or updatedChild) (nodes i) := by
  induction front generalizing updatedChild nodes with
  | nil =>
    rw [nil_append, propagate, propagate_notMem _ _ (nodup_cons.mp h).1, Function.update_self]
    rfl
  | cons j front ih =>
    obtain ⟨hj, hrest⟩ := nodup_cons.mp h
    have hne : i ≠ j := fun heq => hj (heq ▸ mem_append_right _ mem_cons_self)
    rw [cons_append, propagate, ih hrest, Function.update_of_ne hne, List.getLast?_cons]
    cases front.getLast? <;> rfl

end Wu.Gpui.PaintOrder
