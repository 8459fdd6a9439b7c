import Wu.Gpui.BoundsTreeInserts

/-!
# Orders from the tree and from a scan

The tree holds a leaf for each of the inserted bounds. So each insert returns what a scan of all earlier bounds gives.
-/

namespace Wu.Gpui.PaintOrder

open List Function

variable {U : Type} [AddCommGroup U] [LinearOrder U]

/-! ## The four ways to insert a leaf -/

/-- What an insert adds to the nodes. -/
structure Added (bounds : Bounds U) (order : Nat) (nodes nodes' : Nat → Node U) (len len' : Nat) : Prop where
  longer : len < len'
  leaf : nodes' len = ⟨bounds, order, .leaf order⟩
  old : ∀ i < len, (nodes i).kind.isLeaf = true → nodes' i = nodes i
  internal : ∀ i < len', i ≠ len → (i < len → (nodes i).kind.isLeaf = false) → (nodes' i).kind.isLeaf = false

omit [AddCommGroup U] [LinearOrder U] in
theorem Added.of_eq {bounds : Bounds U} {order len len' : Nat} {nodes pushed nodes' : Nat → Node U} (hsame : ∀ i < len, pushed i = nodes i)
    (h : Added bounds order pushed nodes' len len') : Added bounds order nodes nodes' len len' where
  longer := h.longer
  leaf := h.leaf
  old i hi hleaf := by
    rw [← hsame i hi] at hleaf ⊢
    exact h.old i hi hleaf
  internal i hi hne hinternal := h.internal i hi hne fun hold => by
    rw [hsame i hold]
    exact hinternal hold

omit [AddCommGroup U] [LinearOrder U] in
theorem isLeaf_of_children {node : Node U} {l : List Nat} (h : node.kind.children.Perm l) (hl : l ≠ []) : node.kind.isLeaf = false := by
  cases hkind : node.kind with
  | leaf o =>
    rw [hkind] at h
    exact absurd (nil_perm.mp h) hl
  | internal children => rfl

namespace Shaped

variable {bounds : Bounds U} {order len root current : Nat} {nodes nodes' : Nat → Node U} {depth : Nat → Nat} {path : List Nat}

/-- The first leaf. -/
theorem single (hnode : nodes 0 = ⟨bounds, order, .leaf order⟩) : Shaped nodes 1 0 fun _ => 0 := by
  have hzero : ∀ i < 1, i = 0 := fun i hi => Nat.lt_one_iff.mp hi
  have hnone : ∀ i < 1, childrenOf nodes i = [] := by
    intro i hi
    rw [hzero i hi, childrenOf, hnode]
    rfl
  refine ⟨⟨Nat.one_pos, rfl⟩, fun i hi => ?_, fun i hi c hc => ?_, fun i hi => Nat.one_pos, fun c hc hne => absurd (hzero c hc) hne,
    fun i hi j hj c _ _ => (hzero i hi).trans (hzero j hj).symm⟩
  · rw [hzero i hi, hnode]
    exact rfl
  · rw [hnone i hi] at hc
    cases hc

/-- A root that is a leaf is alone. -/
theorem alone (h : Shaped nodes len root depth) (hleaf : (nodes root).kind.isLeaf = true) : len = 1 ∧ root = 0 := by
  have honly : ∀ j < len, j = root := by
    intro j hj
    have hbel := h.below_root hj
    cases hbel with
    | refl => rfl
    | step hchd _ =>
      rw [isLeaf_of_mem hchd] at hleaf
      cases hleaf
  have hroot := h.rooted.1
  have hzero := honly 0 (by omega)
  have hlast := honly (len - 1) (by omega)
  omega

/-- A new root over the first two leaves. -/
theorem pair (hroot : (nodes 0).kind.isLeaf = true) (hsou : Sound nodes (nodes 0)) (hold : nodes' 0 = nodes 0)
    (hleaf : nodes' 1 = ⟨bounds, order, .leaf order⟩)
    (htop : nodes' 2 = ⟨(nodes 0).bounds.union bounds, max (nodes 0).maxOrder order,
      .internal (orderedPair 0 (nodes 0).maxOrder 1 order)⟩) : Shaped nodes' 3 2 fun i => if i = 2 then 0 else 1 := by
  have hchn : ∀ i < 3, ∀ c, c ∈ childrenOf nodes' i ↔ i = 2 ∧ c < 2 := by
    intro i hi c
    rw [childrenOf]
    obtain rfl | rfl | rfl : i = 0 ∨ i = 1 ∨ i = 2 := by omega
    · rw [hold]
      refine ⟨fun hc => ?_, fun hc => absurd hc.1 (by decide)⟩
      rw [isLeaf_of_mem hc] at hroot
      cases hroot
    · rw [hleaf]
      exact ⟨fun hc => absurd hc not_mem_nil, fun hc => absurd hc.1 (by decide)⟩
    · rw [htop]
      refine (orderedPair_perm 0 _ 1 _).mem_iff.trans ?_
      rw [List.mem_pair]
      omega
  refine ⟨⟨by omega, rfl⟩, fun i hi => ?_, fun i hi c hc => ?_, fun i _ => ?_, fun c hc hne => ⟨2, by omega, ?_⟩, fun i hi j hj c hci hcj => ?_⟩
  · obtain rfl | rfl | rfl : i = 0 ∨ i = 1 ∨ i = 2 := by omega
    · rw [hold]
      cases hkind : (nodes 0).kind with
      | leaf o =>
        rw [Sound, hkind] at hsou ⊢
        exact hsou
      | internal children =>
        rw [hkind] at hroot
        cases hroot
    · rw [hleaf]
      exact rfl
    · rw [htop]
      exact sound_pair (by omega) hold hleaf
  · obtain ⟨rfl, hc⟩ := (hchn i hi c).mp hc
    rw [if_neg (by omega)]
    exact ⟨by omega, rfl⟩
  · split <;> omega
  · exact (hchn 2 (by omega) c).mpr ⟨rfl, by omega⟩
  · exact ((hchn i hi c).mp hci).1.trans ((hchn j hj c).mp hcj).1.symm

/-- A new leaf for a node that has room. -/
theorem attach (h : Shaped nodes len root depth) (htrail : Trail nodes root (current :: path))
    (hinternal : (nodes current).kind.isLeaf = false) (hroom : (childrenOf nodes current).length < maxChildren)
    (hgra : Grafted bounds order nodes nodes' len current path)
    (hcur : nodes' current = propagateStep bounds order none (addChild bounds order len (nodes current)))
    (hleaf : nodes' len = ⟨bounds, order, .leaf order⟩) :
    Shaped nodes' (len + 1) root (Function.update depth len (depth current + 1)) ∧ Added bounds order nodes nodes' len (len + 1) := by
  have hlt : current < len := (htrail.spec h).1 _ mem_cons_self
  have hgot := ((h.sound _ hlt).family hinternal).addChild hroom (fun hmem => absurd (h.child _ hlt len hmem).1 (Nat.lt_irrefl _))
    hleaf fun x hx => hgra.child_away htrail h hlt hx (.inl rfl)
  rw [← hcur] at hgot
  have hmem : ∀ i < len, ∀ c, c ∈ childrenOf nodes' i ↔ c ∈ childrenOf nodes i ∨ i = current ∧ c = len := by
    intro i hi c
    by_cases hne : i = current
    · rw [hne, hgot.2.mem_iff]
      simp
    · rw [(hgra.sound htrail h hi hne).2.mem_iff]
      simp [hne]
  have hnone : childrenOf nodes' len = [] := by
    rw [childrenOf, hleaf]
    rfl
  have hdep : ∀ i < len, Function.update depth len (depth current + 1) i = depth i := fun i hi =>
    update_of_ne (Nat.ne_of_lt hi) _ _
  have hdeep := h.deep _ hlt
  have hcase : ∀ i < len + 1, i < len ∨ i = len := fun i hi => Nat.lt_succ_iff_lt_or_eq.mp hi
  refine ⟨⟨⟨Nat.lt_succ_of_lt h.rooted.1, ?_⟩, fun i hi => ?_, fun i hi c hc => ?_, fun i hi => ?_, fun c hc hne => ?_,
    fun i hi j hj c hci hcj => ?_⟩, Nat.lt_succ_self _, hleaf, fun i hi hold => ?_, fun i hi hne hold => ?_⟩
  · rw [hdep root h.rooted.1]
    exact h.rooted.2
  · rcases hcase i hi with hi | rfl
    · by_cases hne : i = current
      · exact hne ▸ hgot.1
      · exact (hgra.sound htrail h hi hne).1
    · rw [hleaf]
      exact rfl
  · rcases hcase i hi with hi | rfl
    · rw [hdep i hi]
      rcases (hmem i hi c).mp hc with hc | ⟨rfl, rfl⟩
      · obtain ⟨hc, hdee⟩ := h.child i hi c hc
        rw [hdep c hc]
        exact ⟨Nat.lt_succ_of_lt hc, hdee⟩
      · rw [update_self]
        exact ⟨Nat.lt_succ_self _, rfl⟩
    · rw [hnone] at hc
      cases hc
  · rcases hcase i hi with hi | rfl
    · rw [hdep i hi]
      exact Nat.lt_succ_of_lt (h.deep i hi)
    · rw [update_self]
      omega
  · rcases hcase c hc with hc | rfl
    · obtain ⟨i, hi, hchd⟩ := h.parent c hc hne
      exact ⟨i, Nat.lt_succ_of_lt hi, (hmem i hi c).mpr (.inl hchd)⟩
    · exact ⟨current, Nat.lt_succ_of_lt hlt, (hmem _ hlt c).mpr (.inr ⟨rfl, rfl⟩)⟩
  · have hpar : ∀ i < len + 1, c ∈ childrenOf nodes' i → i < len ∧ (c ∈ childrenOf nodes i ∨ i = current ∧ c = len) := by
      intro i hi hc
      rcases hcase i hi with hi | rfl
      · exact ⟨hi, (hmem i hi c).mp hc⟩
      · rw [hnone] at hc
        cases hc
    obtain ⟨hi, hci⟩ := hpar i hi hci
    obtain ⟨hj, hcj⟩ := hpar j hj hcj
    rcases hci with hci | ⟨rfl, rfl⟩
    · rcases hcj with hcj | ⟨-, rfl⟩
      · exact h.unique i hi j hj c hci hcj
      · exact absurd (h.child i hi _ hci).1 (Nat.lt_irrefl _)
    · rcases hcj with hcj | ⟨rfl, -⟩
      · exact absurd (h.child j hj _ hcj).1 (Nat.lt_irrefl _)
      · rfl
  · exact hgra.old htrail hinternal hi hold
  · rcases hcase i hi with hi | rfl
    · exact hgra.internal htrail h hi (hold hi) (fun _ => isLeaf_of_children hgot.2 (by simp))
    · exact absurd rfl hne

/-- A new node for a leaf of a full node and the new one. -/
theorem split (h : Shaped nodes len root depth) (htrail : Trail nodes root (current :: path)) {pos child : Nat}
    (hchd : (childrenOf nodes current)[pos]? = some child) (hchdL : (nodes child).kind.isLeaf = true)
    (hgra : Grafted bounds order nodes nodes' len current path)
    (hcur : nodes' current = propagateStep bounds order none
      (replaceChild pos (len + 1) (max (nodes child).maxOrder order) (nodes current)))
    (hleaf : nodes' len = ⟨bounds, order, .leaf order⟩)
    (htop : nodes' (len + 1) = ⟨(nodes child).bounds.union bounds, max (nodes child).maxOrder order,
      .internal (orderedPair child (nodes child).maxOrder len order)⟩) :
    (∃ depth', Shaped nodes' (len + 2) root depth') ∧ Added bounds order nodes nodes' len (len + 2) := by
  have hlt : current < len := (htrail.spec h).1 _ mem_cons_self
  have hmemC := mem_of_getElem? hchd
  have hinternal := isLeaf_of_mem hmemC
  obtain ⟨hchiL, hchdD⟩ := h.child _ hlt _ hmemC
  have hfam := (h.sound _ hlt).family hinternal
  have hrais : Raised bounds order (nodes child) (nodes' (len + 1)) := by
    rw [htop]
    exact ⟨rfl, fun _ hold hnew => hold.union hnew⟩
  have hgot := hfam.replaceChild hchd (fun hmem => absurd (h.child _ hlt _ hmem).1 (by omega)) hrais
    fun x hx => hgra.child_away htrail h hlt hx (.inl rfl)
  rw [← hcur] at hgot
  have hmem : ∀ i < len, ∀ c, c ∈ childrenOf nodes' i ↔ c ∈ childrenOf nodes i ∧ c ≠ child ∨ i = current ∧ c = len + 1 := by
    intro i hi c
    by_cases hne : i = current
    · rw [hne, hgot.2.mem_iff, mem_set_iff hfam.nodup hchd]
      simp only [true_and]
      exact Or.comm
    · rw [(hgra.sound htrail h hi hne).2.mem_iff]
      refine ⟨fun hc => .inl ⟨hc, ?_⟩, ?_⟩
      · rintro rfl
        exact hne (h.unique i hi _ hlt c hc hmemC)
      · rintro (⟨hc, -⟩ | ⟨heq, -⟩)
        exacts [hc, absurd heq hne]
  have hnone : childrenOf nodes' len = [] := by
    rw [childrenOf, hleaf]
    rfl
  have hpair : ∀ c, c ∈ childrenOf nodes' (len + 1) ↔ c = child ∨ c = len := by
    intro c
    rw [childrenOf, htop]
    exact (orderedPair_perm _ _ len _).mem_iff.trans List.mem_pair
  have hkept : nodes' child = nodes child := hgra.child_away htrail h hlt hmemC (.inl rfl)
  -- The leaf goes down by one, and the new node is where it was.
  let depth' : Nat → Nat := fun i =>
    if i = child ∨ i = len then depth child + 1 else if i = len + 1 then depth child else depth i
  have hdown : ∀ i, i = child ∨ i = len → depth' i = depth child + 1 := fun i hi => if_pos hi
  have hpla : depth' (len + 1) = depth child := (if_neg (by omega)).trans (if_pos rfl)
  have hdep : ∀ i < len, i ≠ child → depth' i = depth i := fun i hi hne => (if_neg (by omega)).trans (if_neg (by omega))
  have hnotC : ∀ i < len, (∃ c, c ∈ childrenOf nodes i) → i ≠ child := by
    rintro i hi ⟨c, hc⟩ rfl
    rw [isLeaf_of_mem hc] at hchdL
    cases hchdL
  have hrootC : root ≠ child := by
    rintro rfl
    have hzero := h.rooted.2
    omega
  have hdeep := h.deep _ hchiL
  have hcase : ∀ i < len + 2, i < len ∨ i = len ∨ i = len + 1 := fun i hi => by omega
  refine ⟨⟨depth', ⟨⟨Nat.lt_add_right 2 h.rooted.1, (hdep root h.rooted.1 hrootC).trans h.rooted.2⟩, fun i hi => ?_,
    fun i hi c hc => ?_, fun i hi => ?_, fun c hc hne => ?_, fun i hi j hj c hci hcj => ?_⟩⟩,
    by omega, hleaf, fun i hi hold => ?_, fun i hi hne hold => ?_⟩
  · rcases hcase i hi with hi | rfl | rfl
    · by_cases hne : i = current
      · exact hne ▸ hgot.1
      · exact (hgra.sound htrail h hi hne).1
    · rw [hleaf]
      exact rfl
    · rw [htop]
      exact sound_pair (Nat.ne_of_lt hchiL) hkept hleaf
  · rcases hcase i hi with hi | rfl | rfl
    · rcases (hmem i hi c).mp hc with ⟨hc, hne⟩ | ⟨rfl, rfl⟩
      · obtain ⟨hcLt, hdee⟩ := h.child i hi c hc
        rw [hdep i hi (hnotC i hi ⟨c, hc⟩), hdep c hcLt hne]
        exact ⟨Nat.lt_add_right 2 hcLt, hdee⟩
      · rw [hpla, hdep i hi (hnotC i hi ⟨child, hmemC⟩)]
        exact ⟨by omega, hchdD⟩
    · rw [hnone] at hc
      cases hc
    · have hc := (hpair c).mp hc
      rw [hdown c hc, hpla]
      exact ⟨by omega, rfl⟩
  · rcases hcase i hi with hi | rfl | rfl
    · by_cases hne : i = child
      · rw [hdown i (.inl hne)]
        omega
      · rw [hdep i hi hne]
        exact Nat.lt_add_right 2 (h.deep i hi)
    · rw [hdown i (.inr rfl)]
      omega
    · omega
  · rcases hcase c hc with hc | rfl | rfl
    · by_cases heq : c = child
      · exact ⟨len + 1, by omega, (hpair c).mpr (.inl heq)⟩
      · obtain ⟨i, hi, hpar⟩ := h.parent c hc hne
        exact ⟨i, by omega, (hmem i hi c).mpr (.inl ⟨hpar, heq⟩)⟩
    · exact ⟨c + 1, by omega, (hpair c).mpr (.inr rfl)⟩
    · exact ⟨current, by omega, (hmem _ hlt _).mpr (.inr ⟨rfl, rfl⟩)⟩
  · have hpar : ∀ i < len + 2, c ∈ childrenOf nodes' i →
        i < len ∧ (c ∈ childrenOf nodes i ∧ c ≠ child ∧ c < len ∨ i = current ∧ c = len + 1) ∨
          i = len + 1 ∧ (c = child ∨ c = len) := by
      intro i hi hc
      rcases hcase i hi with hi | rfl | rfl
      · rcases (hmem i hi c).mp hc with ⟨hc, hne⟩ | hnew
        · exact .inl ⟨hi, .inl ⟨hc, hne, (h.child i hi c hc).1⟩⟩
        · exact .inl ⟨hi, .inr hnew⟩
      · rw [hnone] at hc
        cases hc
      · exact .inr ⟨rfl, (hpair c).mp hc⟩
    rcases hpar i hi hci with ⟨hi, ⟨hci, hne, hcLt⟩ | ⟨rfl, hc⟩⟩ | ⟨rfl, hc⟩ <;>
      rcases hpar j hj hcj with ⟨hj, ⟨hcj, hne', hcLt'⟩ | ⟨hj', hc'⟩⟩ | ⟨hj', hc'⟩ <;> try omega
    exact h.unique i hi j hj c hci hcj
  · exact hgra.old htrail hinternal hi hold
  · rcases hcase i hi with hi | rfl | rfl
    · refine hgra.internal htrail h hi (hold hi) fun _ => isLeaf_of_children hgot.2 fun hnil => ?_
      rw [set_eq_nil_iff] at hnil
      rw [childrenOf, hnil] at hchd
      cases hchd
    · exact absurd rfl hne
    · rw [htop]
      rfl

/-- Only the nodes in use count. -/
theorem of_eq (h : Shaped nodes len root depth) (hsame : ∀ i < len, nodes' i = nodes i) : Shaped nodes' len root depth := by
  have hchn : ∀ i < len, childrenOf nodes' i = childrenOf nodes i := fun i hi => by rw [childrenOf, hsame i hi]
  refine ⟨h.rooted, fun i hi => ?_, fun i hi c hc => h.child i hi c (hchn i hi ▸ hc), h.deep, fun c hc hne => ?_,
    fun i hi j hj c hci hcj => h.unique i hi j hj c (hchn i hi ▸ hci) (hchn j hj ▸ hcj)⟩
  · have hsou := h.sound i hi
    rw [hsame i hi]
    cases hkind : (nodes i).kind with
    | leaf o =>
      rw [Sound, hkind] at hsou ⊢
      exact hsou
    | internal children =>
      have hold : ∀ x ∈ children, nodes' x = nodes x := fun x hx => hsame x (h.child i hi x (by rw [childrenOf, hkind]; exact hx)).1
      rw [Sound, hkind] at hsou ⊢
      refine ⟨hsou.two, hsou.few, hsou.nodup, fun x hx => hold x hx ▸ hsou.below x hx, ?_⟩
      obtain ⟨x, hlast, hmax⟩ := hsou.last
      exact ⟨x, hlast, by rw [hold x (List.mem_of_getLast? hlast), hmax]⟩
  · obtain ⟨i, hi, hchd⟩ := h.parent c hc hne
    exact ⟨i, hi, hchn i hi ▸ hchd⟩

end Shaped

/-! ## The tree and its leaves -/

namespace BoundsTree

/-- Says that nodes make up a tree. -/
def Rooted (tree : BoundsTree U) : Prop := ∃ root depth, tree.root = some root ∧ Shaped tree.nodes tree.len root depth

theorem insertLeaf_spec {tree : BoundsTree U} (h : tree.root = none ∧ tree.len = 0 ∨ tree.Rooted) (bounds : Bounds U) (order : Nat) :
    ∃ tree', tree.insertLeaf bounds order = some (tree.len, tree') ∧ tree'.maxLeaf = tree.maxLeaf ∧
      Added bounds order tree.nodes tree'.nodes tree.len tree'.len ∧ tree'.Rooted := by
  let leaf : Node U := ⟨bounds, order, .leaf order⟩
  let pushed := Function.update tree.nodes tree.len leaf
  have hleaf : pushed tree.len = leaf := update_self _ _ _
  have hpush : ∀ i < tree.len, pushed i = tree.nodes i := fun i hi => update_of_ne (Nat.ne_of_lt hi) _ _
  rcases h with ⟨hroot, hlen⟩ | ⟨root, depth, hroot, hshaped⟩
  · refine ⟨{ tree.push leaf with root := some _ }, ?_, rfl, ⟨Nat.lt_succ_self _, hleaf, fun i hi _ => hpush i hi, ?_⟩,
      tree.len, fun _ => 0, rfl, ?_⟩
    · rw [insertLeaf]
      simp only [hroot]
      rfl
    · intro i hi hne
      have hle := Nat.lt_succ_iff.mp hi
      omega
    · show Shaped _ (tree.len + 1) _ _
      rw [hlen] at hleaf ⊢
      exact .single hleaf
  · have hrooL := hshaped.rooted.1
    have hrootN : (tree.push leaf).nodes root = tree.nodes root := hpush root hrooL
    by_cases hrootL : (tree.nodes root).kind.isLeaf = true
    · obtain ⟨hone, hzero⟩ := hshaped.alone hrootL
      let top : Node U := ⟨(tree.nodes root).bounds.union bounds, max (tree.nodes root).maxOrder order,
        .internal (orderedPair root (tree.nodes root).maxOrder tree.len order)⟩
      let nodes' := Function.update pushed (tree.len + 1) top
      have hbel : ∀ i, i ≠ tree.len + 1 → nodes' i = pushed i := fun i hi => update_of_ne hi _ _
      have htop : nodes' (tree.len + 1) = top := update_self _ _ _
      refine ⟨{ (tree.push leaf).push top with root := some _ }, ?_, rfl, ⟨?_, ?_, fun i hi _ => ?_, fun i hi hne _ => ?_⟩,
        tree.len + 1, fun i => if i = 2 then 0 else 1, rfl, ?_⟩
      · rw [insertLeaf]
        simp only [hroot]
        rw [hrootN, if_pos hrootL]
        rfl
      · show tree.len < tree.len + 1 + 1
        omega
      · exact (hbel _ (by omega)).trans hleaf
      · exact (hbel i (by omega)).trans (hpush i hi)
      · have hi : i < tree.len + 1 + 1 := hi
        show (nodes' i).kind.isLeaf = false
        by_cases heq : i = tree.len + 1
        · rw [heq, htop]
          rfl
        · rename_i hinternal
          have hlt : i < tree.len := by omega
          rw [hbel i heq, hpush i hlt]
          exact hinternal hlt
      · show Shaped nodes' (tree.len + 1 + 1) _ _
        have hsou := hshaped.sound root hrooL
        have hbot := (hbel root (by omega)).trans (hpush root hrooL)
        have hmid := (hbel _ (by omega)).trans hleaf
        simp only [top, hone, hzero] at *
        exact .pair hrootL hsou hbot hmid htop
    · have hinternal : (pushed root).kind.isLeaf = false := by
        rw [hpush root hrooL]
        exact Bool.eq_false_iff.mpr hrootL
      have hshapP := hshaped.of_eq hpush
      obtain ⟨current, path, child, pos, hdes, htrail, hchd, hchdL⟩ :=
        descend_spec hshapP _ (tree.len + 1) .root hinternal (by omega)
      have hway : descend (tree.push ⟨bounds, order, .leaf order⟩).nodes bounds (tree.push ⟨bounds, order, .leaf order⟩).len root [] =
        some (current :: path, child, pos) := hdes
      have hlt := (htrail.spec hshapP).1
      by_cases hroom : (childrenOf pushed current).length < maxChildren
      · obtain ⟨hgra, hcur, hpast⟩ := Grafted.of_propagate (htrail.nodup hshapP) hlt
          (fun i _ => rfl) ((addChild_raised bounds _ _ _).trans (propagateStep_raised _ _ none _))
        obtain ⟨hnew, hadd⟩ := hshapP.attach htrail (isLeaf_of_mem (mem_of_getElem? hchd)) hroom hgra hcur
          ((hpast _ le_rfl).trans hleaf)
        refine ⟨{ tree.push leaf with nodes := propagate _ _ none (current :: path) _ }, ?_, rfl, hadd.of_eq hpush, root, _, hroot, hnew⟩
        rw [insertLeaf]
        simp only [hroot]
        rw [hrootN, if_neg hrootL]
        rw [hway]
        exact if_pos hroom
      · let top : Node U := ⟨(pushed child).bounds.union bounds, max (pushed child).maxOrder order,
          .internal (orderedPair child (pushed child).maxOrder tree.len order)⟩
        let pushedTop := Function.update pushed (tree.len + 1) top
        have hbel : ∀ i, i ≠ tree.len + 1 → pushedTop i = pushed i := fun i hi => update_of_ne hi _ _
        obtain ⟨hgra, hcur, hpast⟩ := Grafted.of_propagate (htrail.nodup hshapP) hlt
          (fun i hi => hbel i (by omega)) (replaceChild_raised _ _ pos _ _ _)
        obtain ⟨⟨depth', hnew⟩, hadd⟩ := hshapP.split htrail hchd hchdL hgra hcur
          ((hpast _ le_rfl).trans ((hbel _ (by omega)).trans hleaf))
          ((hpast _ (Nat.le_succ _)).trans (update_self _ _ _))
        refine ⟨{ (tree.push leaf).push top with nodes := propagate _ _ none (current :: path) _ }, ?_, rfl,
          hadd.of_eq hpush, root, depth', hroot, hnew⟩
        rw [insertLeaf]
        simp only [hroot]
        rw [hrootN, if_neg hrootL]
        rw [hway]
        exact if_neg hroom

/-! ## The scan -/

/-- The greatest order of the bounds that intersect a query, by a scan. -/
def greatest (query : Bounds U) : List (Bounds U × Nat) → Nat
  | [] => 0
  | (bounds, order) :: items => if query.intersects bounds then max order (greatest query items) else greatest query items

theorem greatest_spec (query : Bounds U) (items : List (Bounds U × Nat)) :
    (∀ item ∈ items, query.intersects item.1 = true → item.2 ≤ greatest query items) ∧
      (greatest query items = 0 ∨ ∃ item ∈ items, query.intersects item.1 = true ∧ item.2 = greatest query items) := by
  induction items with
  | nil => exact ⟨nofun, .inl rfl⟩
  | cons item items ih =>
    obtain ⟨bounds, -⟩ := item
    rw [greatest]
    by_cases hhit : query.intersects bounds = true
    · rw [if_pos hhit]
      refine ⟨forall_mem_cons.mpr ⟨fun _ => Nat.le_max_left _ _, fun x hx hq => (ih.1 x hx hq).trans (Nat.le_max_right _ _)⟩, ?_⟩
      rcases Nat.le_total _ _ with hle | hle
      · exact .inr ⟨_, mem_cons_self, hhit, (Nat.max_eq_left hle).symm⟩
      · rw [Nat.max_eq_right hle]
        exact ih.2.imp id fun ⟨x, hx, hfnd⟩ => ⟨x, .tail _ hx, hfnd⟩
    · rw [if_neg hhit]
      exact ⟨forall_mem_cons.mpr ⟨fun hq => absurd hq hhit, ih.1⟩, ih.2.imp id fun ⟨x, hx, hfnd⟩ => ⟨x, .tail _ hx, hfnd⟩⟩

theorem greatest_eq {query : Bounds U} {items : List (Bounds U × Nat)} {result : Nat}
    (hle : ∀ item ∈ items, query.intersects item.1 = true → item.2 ≤ result)
    (hfnd : result = 0 ∨ ∃ item ∈ items, query.intersects item.1 = true ∧ item.2 = result) : result = greatest query items := by
  obtain ⟨hle', hfnd'⟩ := greatest_spec query _
  refine Nat.le_antisymm ?_ ?_
  · rcases hfnd with rfl | ⟨item, hmem, hhit, rfl⟩
    exacts [Nat.zero_le _, hle' item hmem hhit]
  · rcases hfnd' with heq | ⟨item, hmem, hhit, heq⟩
    · exact heq ▸ Nat.zero_le _
    · exact heq ▸ hle item hmem hhit

/-- Says that a tree holds items, and that its greatest leaf is known. -/
structure Holds (tree : BoundsTree U) (items : List (Bounds U × Nat)) : Prop where
  leaves : ∀ bounds order, (bounds, order) ∈ items ↔ ∃ i < tree.len, tree.nodes i = ⟨bounds, order, .leaf order⟩
  shape : tree.root = none ∧ tree.len = 0 ∧ tree.maxLeaf = none ∨
    tree.Rooted ∧ ∃ leaf < tree.len, tree.maxLeaf = some leaf ∧ (tree.nodes leaf).kind = .leaf (tree.nodes leaf).maxOrder ∧
      ∀ item ∈ items, item.2 ≤ (tree.nodes leaf).maxOrder

namespace Holds

variable {tree : BoundsTree U} {items : List (Bounds U × Nat)}

/-- A leaf is one of the items. -/
theorem mem_of_leaf (h : tree.Holds items) (hroot : tree.Rooted) {i order : Nat} (hi : i < tree.len)
    (hkind : (tree.nodes i).kind = .leaf order) : ((tree.nodes i).bounds, order) ∈ items := by
  obtain ⟨root, depth, -, hshaped⟩ := hroot
  have hsou := hshaped.sound i hi
  rw [Sound, hkind] at hsou
  exact (h.leaves _ _).mpr ⟨i, hi, by rw [← hsou] at hkind ⊢; rw [← hkind]⟩

theorem findMaxOrdering (h : tree.Holds items) (query : Bounds U) : tree.findMaxOrdering query = some (greatest query items) := by
  rcases h.shape with ⟨hroot, hlen, -⟩ | ⟨hroo, leaf, hlt, hmax, hkind, hgre⟩
  · have hemp : items = [] := by
      refine eq_nil_iff_forall_not_mem.mpr fun item hmem => ?_
      obtain ⟨i, hi, -⟩ := (h.leaves _ _).mp hmem
      omega
    rw [BoundsTree.findMaxOrdering, hroot, hemp]
    rfl
  · obtain ⟨root, depth, hroot, hshaped⟩ := hroo
    rw [BoundsTree.findMaxOrdering, hroot, hmax]
    dsimp only
    by_cases hhit : query.intersects (tree.nodes leaf).bounds = true
    · rw [if_pos hhit]
      exact congrArg some (greatest_eq (fun item hmem _ => hgre item hmem)
        (.inr ⟨_, h.mem_of_leaf ⟨root, depth, hroot, hshaped⟩ hlt hkind, hhit, rfl⟩))
    · rw [if_neg hhit]
      have hwei : Shaped.weight tree.len depth [root] ≤ (maxChildren + 1) ^ tree.len := by
        simp [Shaped.weight, hshaped.rooted.2]
      obtain ⟨result, hres, hfnd⟩ := hshaped.searchLoop_found _ _ _ 0 (fun i hi => mem_singleton.mp hi ▸ hshaped.rooted.1) hwei
      rw [hres]
      refine congrArg some (greatest_eq (fun item hmem hq => ?_) (hfnd.found.imp id fun hfnd => ?_))
      swap
      · obtain ⟨j, hj, hleaf, hq⟩ := hfnd
        exact ⟨_, h.mem_of_leaf ⟨root, depth, hroot, hshaped⟩ hj hleaf, hq, rfl⟩
      obtain ⟨j, hj, hnode⟩ := (h.leaves _ _).mp hmem
      refine hfnd.leaves root (mem_singleton_self root) j _ (hshaped.below_root hj) ?_ ?_
      · rw [hnode]
      · rwa [hnode]

/-- The next insert. -/
theorem insert (h : tree.Holds items) (newBounds : Bounds U) :
    ∃ tree', tree.insert newBounds = some (greatest newBounds items + 1, tree') ∧
      tree'.Holds ((newBounds, greatest newBounds items + 1) :: items) ∧ tree'.Rooted := by
  obtain ⟨tree', hins, hmaxL, hadd, hroot⟩ := insertLeaf_spec
    (h.shape.imp (fun hemp => ⟨hemp.1, hemp.2.1⟩) fun hfull => hfull.1) newBounds (greatest newBounds items + 1)
  rw [BoundsTree.insert, h.findMaxOrdering]
  simp only [Option.bind_eq_bind, Option.bind_some, hins, hmaxL]
  refine ⟨_, rfl, ⟨fun bounds order => ?_, .inr ⟨hroot, ?_⟩⟩, hroot⟩
  · rw [mem_cons, h.leaves]
    constructor
    · rintro (heq | ⟨i, hi, hnode⟩)
      · cases heq
        exact ⟨tree.len, hadd.longer, hadd.leaf⟩
      · exact ⟨i, hi.trans hadd.longer, (hadd.old i hi (by rw [hnode]; rfl)).trans hnode⟩
    · rintro ⟨i, hi, hnode⟩
      by_cases heq : i = tree.len
      · rw [heq, hadd.leaf] at hnode
        cases hnode
        exact .inl rfl
      · have hold : i < tree.len ∧ (tree.nodes i).kind.isLeaf = true := by
          by_contra hnone
          have hinternal := hadd.internal i hi heq fun hlt => Bool.eq_false_iff.mpr fun hleaf => hnone ⟨hlt, hleaf⟩
          rw [hnode] at hinternal
          cases hinternal
        exact .inr ⟨i, hold.1, (hadd.old i hold.1 hold.2).symm.trans hnode⟩
  · have hnew : ∀ i, tree'.nodes i = ⟨newBounds, greatest newBounds items + 1, .leaf (greatest newBounds items + 1)⟩ →
        (tree'.nodes i).kind = .leaf (tree'.nodes i).maxOrder := fun i hi => by rw [hi]
    have hlast := hadd.leaf
    rcases h.shape with ⟨-, hlen, hnone⟩ | ⟨-, leaf, hlt, hmax, hkind, hgre⟩
    · refine ⟨tree.len, hadd.longer, by rw [hnone], hnew _ hlast, forall_mem_cons.mpr ⟨?_, fun item hmem => ?_⟩⟩
      · exact (congrArg Node.maxOrder hlast).ge
      · obtain ⟨i, hi, -⟩ := (h.leaves _ _).mp hmem
        omega
    · have hkept : tree'.nodes leaf = tree.nodes leaf := hadd.old leaf hlt (by rw [hkind]; rfl)
      by_cases hless : (tree'.nodes leaf).maxOrder < greatest newBounds items + 1
      · refine ⟨tree.len, hadd.longer, by rw [hmax]; exact if_pos hless, hnew _ hlast,
          forall_mem_cons.mpr ⟨(congrArg Node.maxOrder hlast).ge, fun item hmem => ?_⟩⟩
        have hle := hgre item hmem
        rw [hkept] at hless
        rw [hlast]
        show item.2 ≤ greatest _ _ + 1
        omega
      · refine ⟨leaf, hlt.trans hadd.longer, by rw [hmax]; exact if_neg hless, hkept ▸ hkind,
          forall_mem_cons.mpr ⟨Nat.not_lt.mp hless, fun item hmem => ?_⟩⟩
        exact hkept ▸ hgre item hmem

end Holds

/-! ## Runs of inserts -/

/-- What the tree promises after each insert of items. -/
structure Correct (tree : BoundsTree U) (items : List (Bounds U × Nat)) : Prop where
  leaves : ∀ bounds order, (bounds, order) ∈ items ↔ ∃ i < tree.len, tree.nodes i = ⟨bounds, order, .leaf order⟩
  reached : ∃ root, tree.root = some root ∧ ∀ i < tree.len, Below tree.nodes root i
  below : ∀ i < tree.len, ∀ j, Below tree.nodes i j →
    (tree.nodes i).bounds.Contains (tree.nodes j).bounds ∧ (tree.nodes j).maxOrder ≤ (tree.nodes i).maxOrder
  attained : ∀ i < tree.len, ∃ j, Below tree.nodes i j ∧ (tree.nodes j).kind = .leaf (tree.nodes i).maxOrder
  children : ∀ i < tree.len, (tree.nodes i).kind.isLeaf = false →
    2 ≤ (childrenOf tree.nodes i).length ∧ (childrenOf tree.nodes i).length ≤ maxChildren ∧
      ∃ c, (childrenOf tree.nodes i).getLast? = some c ∧ ∀ x ∈ childrenOf tree.nodes i, (tree.nodes x).maxOrder ≤ (tree.nodes c).maxOrder
  maxLeaf : ∃ leaf < tree.len, tree.maxLeaf = some leaf ∧ (tree.nodes leaf).kind = .leaf (tree.nodes leaf).maxOrder ∧
    ∀ i < tree.len, (tree.nodes i).maxOrder ≤ (tree.nodes leaf).maxOrder

theorem Holds.correct {tree : BoundsTree U} {items : List (Bounds U × Nat)} (h : tree.Holds items) (hroo : tree.Rooted) :
    tree.Correct items := by
  obtain ⟨root, depth, hroot, hshaped⟩ := hroo
  refine ⟨h.leaves, ⟨root, hroot, fun i hi => hshaped.below_root hi⟩, fun i hi j hbel => (hshaped.below hbel hi).2,
    fun i hi => hshaped.exists_leaf hi, fun i hi hinternal => ?_, ?_⟩
  · have hfam := (hshaped.sound i hi).family hinternal
    obtain ⟨c, hlast, hmax⟩ := hfam.last
    exact ⟨hfam.two, hfam.few, c, hlast, fun x hx => hmax ▸ (hfam.below x hx).2⟩
  · rcases h.shape with ⟨hnone, -⟩ | ⟨-, leaf, hlt, hmax, hkind, hgre⟩
    · rw [hnone] at hroot
      cases hroot
    · refine ⟨leaf, hlt, hmax, hkind, fun i hi => ?_⟩
      obtain ⟨j, hbel, hleaf⟩ := hshaped.exists_leaf hi
      exact hgre _ (h.mem_of_leaf ⟨root, depth, hroot, hshaped⟩ (hshaped.below hbel hi).1 hleaf)

/-- The tree after inserts, with the bounds and their orders; the newest are first. -/
def inserted (node : Node U) : List (Bounds U) → Option (List (Bounds U × Nat) × BoundsTree U)
  | [] => some ([], empty node)
  | newBounds :: earlier => do
    let (items, tree) ← inserted node earlier
    let (order, tree) ← tree.insert newBounds
    return ((newBounds, order) :: items, tree)

theorem inserted_holds (node : Node U) (earlier : List (Bounds U)) :
    ∃ items tree, inserted node earlier = some (items, tree) ∧ items.map Prod.fst = earlier ∧ tree.Holds items := by
  induction earlier with
  | nil =>
    refine ⟨[], empty node, rfl, rfl, fun bounds order => ⟨nofun, ?_⟩, .inl ⟨rfl, rfl, rfl⟩⟩
    rintro ⟨i, hi, -⟩
    cases hi
  | cons newBounds earlier ih =>
    obtain ⟨items, tree, hins, hitems, hhold⟩ := ih
    obtain ⟨tree', hinse, hhold', -⟩ := hhold.insert _
    refine ⟨(newBounds, greatest _ _ + 1) :: items, tree', ?_, congrArg _ hitems, hhold'⟩
    simp [inserted, hins, hinse]

/-- Each insert gives one more than the scan of the earlier ones, and leaves a correct tree. -/
theorem insert_eq_scan (node : Node U) (earlier : List (Bounds U)) (newBounds : Bounds U) :
    ∃ items tree tree', inserted node earlier = some (items, tree) ∧ items.map Prod.fst = earlier ∧
      tree.insert newBounds = some (greatest newBounds items + 1, tree') ∧
      tree'.Correct ((newBounds, greatest newBounds items + 1) :: items) := by
  obtain ⟨items, tree, hinserted, hitems, hholds⟩ := inserted_holds node earlier
  obtain ⟨tree', hinsert, hholds', hrooted⟩ := hholds.insert newBounds
  exact ⟨items, tree, tree', hinserted, hitems, hinsert, hholds'.correct hrooted⟩

end BoundsTree

end Wu.Gpui.PaintOrder
