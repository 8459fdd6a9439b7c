import Wu.Gpui.BoundsTreeRuns

/-!
# Inserts into the tree of bounds

Each of the ways in which a leaf is put into the tree keeps its shape. So an insert returns what a scan of all earlier bounds gives.
-/

namespace Wu.Gpui.PaintOrder

open List Bounds

variable {U : Type} [AddCommGroup U] [LinearOrder U]

/-! ## What becomes of one node -/

variable {nodes nodes' : Nat → Node U} {node : Node U} {bounds : Bounds U} {order newLeaf child : Nat}

/-- A family whose children are given in another order. -/
theorem Family.of_perm {children base : List Nat} (hperm : children.Perm base)
    (htwo : 2 ≤ base.length) (hfew : base.length ≤ maxChildren) (hnod : base.Nodup)
    (hbel : ∀ c ∈ base, node.bounds.Contains (nodes c).bounds ∧ (nodes c).maxOrder ≤ node.maxOrder)
    (hlast : ∃ c, children.getLast? = some c ∧ (nodes c).maxOrder = node.maxOrder) : Family nodes node children where
  two := hperm.length_eq ▸ htwo
  few := hperm.length_eq ▸ hfew
  nodup := hperm.nodup_iff.mpr hnod
  below c hc := hbel c (hperm.subset hc)
  last := hlast

theorem Raised.trans {a b c : Node U} (h : Raised bounds order a b) (h' : Raised bounds order b c) : Raised bounds order a c := by
  refine ⟨?_, fun outer hold hnew => h'.contains _ (h.contains _ hold hnew) hnew⟩
  rw [h'.maxOrder, h.maxOrder, Nat.max_assoc, Nat.max_self]

theorem propagateStep_kind (bounds : Bounds U) (order c : Nat) {children : List Nat} (h : node.kind = .internal children) :
    (propagateStep bounds order (some c) node).kind = .internal
      (if node.maxOrder < order ∧ c ∈ children then swap children (children.idxOf c) (children.length - 1) else children) := by
  obtain ⟨_, maxOrder, kind⟩ := node
  cases h
  simp only [propagateStep]
  split <;> rfl

theorem propagateStep_none_kind (bounds : Bounds U) (order : Nat) (node : Node U) :
    (propagateStep bounds order none node).kind = node.kind := by
  obtain ⟨_, _, _ | _⟩ := node <;> rfl

theorem propagateStep_perm (bounds : Bounds U) (order c : Nat) (node : Node U) :
    (propagateStep bounds order (some c) node).kind.children.Perm node.kind.children := by
  cases hkind : node.kind with
  | leaf o =>
    obtain ⟨_, _, _⟩ := node
    cases hkind
    exact .refl _
  | internal children =>
    rw [propagateStep_kind _ _ c hkind]
    split
    · exact swap_perm _ _ _
    · exact .refl _

theorem addChild_kind (bounds : Bounds U) (order newLeaf : Nat) {children : List Nat} (h : node.kind = .internal children) :
    (addChild bounds order newLeaf node).kind = .internal (if order ≤ node.maxOrder then
      swap (children ++ [newLeaf]) ((children ++ [newLeaf]).length - 1 - 1) ((children ++ [newLeaf]).length - 1)
        else children ++ [newLeaf]) := by
  obtain ⟨_, _, _⟩ := node
  cases h
  rfl

omit [AddCommGroup U] [LinearOrder U] in
theorem replaceChild_kind (pos newInternal newMax : Nat) {children : List Nat} (h : node.kind = .internal children) :
    (replaceChild pos newInternal newMax node).kind = .internal (if newMax > node.maxOrder then
      swap (children.set pos newInternal) pos (children.length - 1) else children.set pos newInternal) := by
  obtain ⟨_, _, _⟩ := node
  cases h
  rfl

/-- A node above a raised child. -/
theorem Family.raise {c : Nat}
    (h : Family nodes node node.kind.children) (hc : c ∈ node.kind.children) (hrais : Raised bounds order (nodes c) (nodes' c))
    (hrest : ∀ x ∈ node.kind.children, x ≠ c → nodes' x = nodes x) : Sound nodes' (propagateStep bounds order (some c) node) := by
  have hgro := propagateStep_raised bounds order (some c) node
  have hperm := propagateStep_perm bounds order c node
  have hcon := union_contains node.bounds bounds
  cases hkind : node.kind with
  | leaf o =>
    rw [hkind] at hc
    cases hc
  | internal children =>
    rw [hkind] at h hc hrest hperm
    simp only [NodeKind.children] at h hc hrest
    have hbel : ∀ x ∈ children, (propagateStep bounds order (some c) node).bounds.Contains (nodes' x).bounds ∧
        (nodes' x).maxOrder ≤ (propagateStep bounds order (some c) node).maxOrder := by
      intro x hx
      obtain ⟨hin, hle⟩ := h.below x hx
      rw [hgro.maxOrder]
      by_cases heq : x = c
      · rw [heq] at hin hle ⊢
        rw [hrais.maxOrder]
        exact ⟨hrais.contains _ (hcon.1.trans hin) hcon.2, by omega⟩
      · rw [hrest x hx heq]
        exact ⟨hcon.1.trans hin, by omega⟩
    have hle := (h.below c hc).2
    have hres := propagateStep_kind bounds order c hkind
    rw [hres] at hperm
    rw [Sound, hres]
    refine .of_perm hperm h.two h.few h.nodup hbel ?_
    rw [hgro.maxOrder]
    by_cases hless : node.maxOrder < order
    · rw [if_pos ⟨hless, hc⟩]
      refine ⟨c, ?_, ?_⟩
      · have hpos := idxOf_lt_length_iff.mpr hc
        rw [getLast?_swap hpos, List.getElem?_eq_getElem hpos, getElem_idxOf]
      · rw [hrais.maxOrder]
        omega
    · rw [if_neg fun hboth => hless hboth.1]
      obtain ⟨x, hlast, hmax⟩ := h.last
      refine ⟨x, hlast, ?_⟩
      by_cases heq : x = c
      · rw [heq] at hmax ⊢
        rw [hrais.maxOrder, hmax]
      · rw [hrest x (List.mem_of_getLast? hlast) heq]
        omega

theorem addChild_raised (bounds : Bounds U) (order newLeaf : Nat) (node : Node U) :
    Raised bounds order node (addChild bounds order newLeaf node) := ⟨rfl, fun _ hold hnew => hold.union hnew⟩

theorem replaceChild_raised (bounds : Bounds U) (order pos newInternal newMax : Nat) (node : Node U) :
    Raised bounds order node (propagateStep bounds order none (replaceChild pos newInternal newMax node)) :=
  ⟨(propagateStep_raised _ _ none _).maxOrder, (propagateStep_raised _ order none _).contains⟩

/-- A node that gets a new leaf. -/
theorem Family.addChild
    (h : Family nodes node node.kind.children) (hroom : node.kind.children.length < maxChildren) (hnew : newLeaf ∉ node.kind.children)
    (hleaf : nodes' newLeaf = ⟨bounds, order, .leaf order⟩) (hrest : ∀ x ∈ node.kind.children, nodes' x = nodes x) :
    Sound nodes' (propagateStep bounds order none (addChild bounds order newLeaf node)) ∧
      (propagateStep bounds order none (PaintOrder.addChild bounds order newLeaf node)).kind.children.Perm
        (node.kind.children ++ [newLeaf]) := by
  have hgro := (addChild_raised bounds order newLeaf node).trans
    (propagateStep_raised _ _ none _)
  have hcon := union_contains (PaintOrder.addChild bounds order newLeaf node).bounds bounds
  have hin := (union_contains node.bounds bounds).1
  obtain ⟨x, hlast, hmax⟩ := h.last
  cases hkind : node.kind with
  | leaf o =>
    have htwo := h.two
    rw [hkind] at htwo
    cases htwo
  | internal children =>
    rw [hkind] at h hroom hnew hrest hlast
    simp only [NodeKind.children] at h hroom hnew hrest hlast ⊢
    have hperm : (if order ≤ node.maxOrder then swap (children ++ [newLeaf]) ((children ++ [newLeaf]).length - 1 - 1)
        ((children ++ [newLeaf]).length - 1) else children ++ [newLeaf]).Perm (children ++ [newLeaf]) := by
      split
      · exact swap_perm _ _ _
      · exact .refl _
    rw [Sound, propagateStep_none_kind, addChild_kind _ _ _ hkind]
    refine ⟨.of_perm hperm ?_ ?_ ?_ ?_ ?_, hperm⟩
    · have htwo := h.two
      rw [length_append]
      omega
    · rw [length_append]
      exact hroom
    · exact nodup_append.mpr ⟨h.nodup, nodup_singleton _, fun a ha b hb heq => hnew (mem_singleton.mp hb ▸ heq ▸ ha)⟩
    · intro c hc
      rw [hgro.maxOrder]
      rcases mem_append.mp hc with hc | hc
      · rw [hrest c hc]
        obtain ⟨hbel, hle⟩ := h.below c hc
        exact ⟨hcon.1.trans (hin.trans hbel), by omega⟩
      · rw [mem_singleton.mp hc, hleaf]
        exact ⟨hcon.2, Nat.le_max_right _ _⟩
    · rw [hgro.maxOrder]
      have hnon : children ≠ [] := fun hnil => by rw [hnil] at hlast; cases hlast
      by_cases hle : order ≤ node.maxOrder
      · rw [if_pos hle, getLast?_swap_snoc hnon]
        refine ⟨x, hlast, ?_⟩
        rw [hrest x (List.mem_of_getLast? hlast)]
        omega
      · rw [if_neg hle, List.getLast?_append]
        refine ⟨newLeaf, rfl, ?_⟩
        rw [hleaf]
        dsimp only
        omega

/-- A node with a leaf and a new one. -/
theorem sound_pair (hne : child ≠ newLeaf)
    (hold : nodes' child = nodes child) (hleaf : nodes' newLeaf = ⟨bounds, order, .leaf order⟩) :
    Sound nodes' ⟨(nodes child).bounds.union bounds, max (nodes child).maxOrder order,
      .internal (orderedPair child (nodes child).maxOrder newLeaf order)⟩ := by
  have hcon := union_contains (nodes child).bounds bounds
  refine Family.of_perm (orderedPair_perm _ _ _ _) le_rfl (Nat.le_add_left 2 10) ?_ ?_ ?_
  · simp [hne]
  · intro c hc
    rcases List.mem_pair.mp hc with rfl | rfl
    · rw [hold]
      exact ⟨hcon.1, Nat.le_max_left _ _⟩
    · rw [hleaf]
      exact ⟨hcon.2, Nat.le_max_right _ _⟩
  · unfold orderedPair
    split
    · refine ⟨newLeaf, rfl, ?_⟩
      rw [hleaf]
      dsimp only
      omega
    · refine ⟨child, rfl, ?_⟩
      rw [hold]
      dsimp only
      omega

/-- A full node whose leaf is replaced. -/
theorem Family.replaceChild {pos newInternal : Nat}
    (h : Family nodes node node.kind.children) (hchd : node.kind.children[pos]? = some child)
    (hnew : newInternal ∉ node.kind.children) (hrais : Raised bounds order (nodes child) (nodes' newInternal))
    (hrest : ∀ x ∈ node.kind.children, nodes' x = nodes x) :
    Sound nodes' (propagateStep bounds order none (replaceChild pos newInternal (max (nodes child).maxOrder order) node)) ∧
      (propagateStep bounds order none (PaintOrder.replaceChild pos newInternal (max (nodes child).maxOrder order) node)).kind.children.Perm
        (node.kind.children.set pos newInternal) := by
  have hgro := replaceChild_raised bounds order pos newInternal (max (nodes child).maxOrder order) node
  have hcon := union_contains node.bounds bounds
  obtain ⟨x, hlast, hmax⟩ := h.last
  cases hkind : node.kind with
  | leaf o =>
    have htwo := h.two
    rw [hkind] at htwo
    cases htwo
  | internal children =>
    rw [hkind] at h hchd hnew hrest hlast
    simp only [NodeKind.children] at h hchd hnew hrest hlast ⊢
    obtain ⟨hpos, -⟩ := List.getElem?_eq_some_iff.mp hchd
    have hset : (children.set pos newInternal).length = children.length := length_set
    have hperm : (if max (nodes child).maxOrder order > node.maxOrder then
        swap (children.set pos newInternal) pos (children.length - 1) else children.set pos newInternal).Perm
          (children.set pos newInternal) := by
      split
      · exact swap_perm _ _ _
      · exact .refl _
    have hle := (h.below _ (mem_of_getElem? hchd)).2
    rw [Sound, propagateStep_none_kind, replaceChild_kind pos _ _ hkind]
    refine ⟨.of_perm hperm (hset ▸ h.two) (hset ▸ h.few) ?_ ?_ ?_, hperm⟩
    · exact h.nodup.set hnew
    · intro c hc
      rw [hgro.maxOrder]
      rcases (mem_set_iff h.nodup hchd).mp hc with rfl | ⟨hc, -⟩
      · rw [hrais.maxOrder]
        exact ⟨hrais.contains _ (hcon.1.trans (h.below _ (mem_of_getElem? hchd)).1) hcon.2, by omega⟩
      · rw [hrest c hc]
        obtain ⟨hbel, hle⟩ := h.below c hc
        exact ⟨hcon.1.trans hbel, by omega⟩
    · rw [hgro.maxOrder]
      by_cases hgre : max (nodes child).maxOrder order > node.maxOrder
      · rw [if_pos hgre]
        refine ⟨newInternal, ?_, ?_⟩
        · rw [← hset, getLast?_swap (hset ▸ hpos), List.getElem?_set_self hpos]
        · rw [hrais.maxOrder]
          omega
      · rw [if_neg hgre]
        by_cases hend : pos = children.length - 1
        · refine ⟨newInternal, ?_, ?_⟩
          · rw [List.getLast?_eq_getElem?, hset, ← hend, List.getElem?_set_self hpos]
          · rw [List.getLast?_eq_getElem?, ← hend, hchd] at hlast
            rw [← Option.some.inj hlast] at hmax
            rw [hrais.maxOrder]
            omega
        · refine ⟨x, ?_, ?_⟩
          · rw [List.getLast?_eq_getElem?, hset, List.getElem?_set_ne hend, ← List.getLast?_eq_getElem?, hlast]
          · rw [hrest x (List.mem_of_getLast? hlast)]
            omega

/-! ## What becomes of the way -/

namespace Trail

variable {nodes : Nat → Node U} {len root : Nat} {depth : Nat → Nat} {path : List Nat}

omit [AddCommGroup U] [LinearOrder U] in
/-- A node of a way is the root or a child of another one. -/
theorem up (h : Trail nodes root path) : ∀ x ∈ path, x = root ∨ ∃ i ∈ path, x ∈ childrenOf nodes i := by
  induction h with
  | root => exact fun x hx => .inl (mem_singleton.mp hx)
  | step _ hchd ih =>
    refine forall_mem_cons.mpr ⟨.inr ⟨_, .tail _ mem_cons_self, hchd⟩, fun x hx => ?_⟩
    rcases ih x hx with heq | ⟨i, hi, hx⟩
    · exact .inl heq
    · exact .inr ⟨i, .tail _ hi, hx⟩

omit [AddCommGroup U] [LinearOrder U] in
/-- A node of a way is the last one or has a child on it. -/
theorem down {current i : Nat} (h : Trail nodes root (current :: path)) (hi : i ∈ current :: path) (hne : i ≠ current) :
    ∃ front c back, current :: path = front ++ c :: i :: back ∧ c ∈ childrenOf nodes i := by
  obtain ⟨front, back, heq⟩ := append_of_mem hi
  rcases eq_nil_or_concat front with rfl | ⟨front, c, rfl⟩
  · exact absurd (List.cons.inj heq).1.symm hne
  · rw [concat_eq_append, append_assoc, singleton_append] at heq
    exact ⟨front, c, back, heq, (heq ▸ h).child⟩

end Trail

/-- What an insert that ends at a node does to the earlier nodes. -/
structure Grafted (bounds : Bounds U) (order : Nat) (nodes nodes' : Nat → Node U) (len current : Nat) (path : List Nat) : Prop where
  away : ∀ i < len, i ∉ current :: path → nodes' i = nodes i
  above : ∀ {front back c i}, current :: path = front ++ c :: i :: back → nodes' i = propagateStep bounds order (some c) (nodes i)
  raised : Raised bounds order (nodes current) (nodes' current)

namespace Grafted

variable {bounds : Bounds U} {order len root current : Nat} {nodes nodes' : Nat → Node U} {depth : Nat → Nat} {path : List Nat}

theorem of_propagate {pushed : Nat → Node U} {f : Node U → Node U} (hnod : (current :: path).Nodup)
    (hlt : ∀ i ∈ current :: path, i < len) (hpush : ∀ i < len, pushed i = nodes i)
    (hrais : Raised bounds order (nodes current) (propagateStep bounds order none (f (nodes current)))) :
    let nodes' := propagate bounds order none (current :: path) (Function.update pushed current (f (pushed current)))
    Grafted bounds order nodes nodes' len current path ∧ nodes' current = propagateStep bounds order none (f (nodes current)) ∧
      ∀ i, len ≤ i → nodes' i = pushed i := by
  intro nodes'
  have hcur : nodes' current = propagateStep bounds order none (f (nodes current)) := by
    refine (propagate_mem bounds _ ((nil_append (current :: path)).symm ▸ hnod) none _).trans ?_
    rw [Function.update_self, hpush _ (hlt _ mem_cons_self)]
    rfl
  have haway : ∀ i, i ∉ current :: path → nodes' i = pushed i := fun i hi =>
    (propagate_notMem _ _ hi none _).trans (Function.update_of_ne (ne_of_not_mem_cons hi) _ _)
  refine ⟨⟨fun i hi hnot => (haway i hnot).trans (hpush i hi), ?_, hcur ▸ hrais⟩, hcur,
    fun i hi => haway i fun hmem => absurd (hlt i hmem) (Nat.not_lt.mpr hi)⟩
  intro front back c i heq
  have hspl : current :: path = (front ++ [c]) ++ i :: back := by rw [heq, append_assoc, singleton_append]
  have hmem : i ∈ current :: path := hspl ▸ mem_append_right _ mem_cons_self
  have hne : i ≠ current := by
    rintro rfl
    rw [hspl, nodup_append] at hnod
    cases front with
    | nil =>
      have hfst := (List.cons.inj heq).1
      exact hnod.2.2 c (mem_append_right _ mem_cons_self) i mem_cons_self hfst.symm
    | cons j front =>
      have hfst := (List.cons.inj heq).1
      exact hnod.2.2 j mem_cons_self i mem_cons_self hfst.symm
  show propagate _ _ none _ _ i = _
  rw [hspl, propagate_mem _ _ (hspl ▸ hnod), Function.update_of_ne hne, hpush i (hlt i hmem), List.getLast?_append]
  rfl

section

variable (h : Grafted bounds order nodes nodes' len current path) (htrail : Trail nodes root (current :: path))
include h htrail

theorem raised_mem {i : Nat} (hi : i ∈ current :: path) : Raised bounds order (nodes i) (nodes' i) := by
  by_cases heq : i = current
  · exact heq ▸ h.raised
  · obtain ⟨front, c, back, hspl, -⟩ := htrail.down hi heq
    exact h.above hspl ▸ propagateStep_raised _ _ _ _

/-- The children of the last node are not on the way. -/
theorem child_away (hshaped : Shaped nodes len root depth) {i x : Nat} (hi : i < len) (hx : x ∈ childrenOf nodes i)
    (hnot : i = current ∨ i ∉ current :: path) : nodes' x = nodes x := by
  obtain ⟨hlt, hdeep⟩ := hshaped.child i hi x hx
  refine h.away x hlt fun hmem => ?_
  rcases htrail.up x hmem with rfl | ⟨j, hj, hxj⟩
  · rw [hshaped.rooted.2] at hdeep
    cases hdeep
  · have hij := hshaped.unique i hi j ((htrail.spec hshaped).1 j hj) x hx hxj
    rcases hnot with rfl | hnot
    · rcases mem_cons.mp hmem with rfl | hmem
      · omega
      · have hless := (pairwise_cons.mp (htrail.spec hshaped).2).1 x hmem
        omega
    · exact hnot (hij ▸ hj)

/-- The other nodes stay sound, with the same children. -/
theorem sound (hshaped : Shaped nodes len root depth) {i : Nat} (hi : i < len) (hne : i ≠ current) :
    Sound nodes' (nodes' i) ∧ (childrenOf nodes' i).Perm (childrenOf nodes i) := by
  by_cases hmem : i ∈ current :: path
  · obtain ⟨front, c, back, hspl, hchd⟩ := htrail.down hmem hne
    have hc : c ∈ current :: path := hspl ▸ mem_append_right _ mem_cons_self
    have hfam := (hshaped.sound i hi).family (isLeaf_of_mem hchd)
    rw [childrenOf, h.above hspl]
    refine ⟨hfam.raise hchd (h.raised_mem htrail hc) fun x hx hoth => ?_, propagateStep_perm _ _ c _⟩
    obtain ⟨hlt, hdeep⟩ := hshaped.child i hi x hx
    refine h.away x hlt fun hx => hoth (htrail.eq_of_depth hshaped hx hc ?_)
    rw [hdeep, (hshaped.child i hi c hchd).2]
  · rw [childrenOf, h.away i hi hmem]
    refine ⟨?_, .refl _⟩
    have hsou := hshaped.sound i hi
    cases hkind : (nodes i).kind with
    | leaf o =>
      rw [Sound, hkind] at hsou ⊢
      exact hsou
    | internal children =>
      have hsame : ∀ x ∈ children, nodes' x = nodes x := fun x hx =>
        h.child_away htrail hshaped hi (by rw [childrenOf, hkind]; exact hx) (.inr hmem)
      rw [Sound, hkind] at hsou ⊢
      refine ⟨hsou.two, hsou.few, hsou.nodup, fun x hx => hsame x hx ▸ hsou.below x hx, ?_⟩
      obtain ⟨x, hlast, hmax⟩ := hsou.last
      exact ⟨x, hlast, by rw [hsame x (List.mem_of_getLast? hlast), hmax]⟩

/-- The leaves stay as they are. -/
theorem old (hinternal : (nodes current).kind.isLeaf = false) {i : Nat} (hi : i < len) (hleaf : (nodes i).kind.isLeaf = true) :
    nodes' i = nodes i := by
  refine h.away i hi fun hmem => ?_
  by_cases heq : i = current
  · rw [← heq, hleaf] at hinternal
    cases hinternal
  · obtain ⟨-, c, -, -, hchd⟩ := htrail.down hmem heq
    rw [isLeaf_of_mem hchd] at hleaf
    cases hleaf

/-- The nodes with children keep some. -/
theorem internal (hshaped : Shaped nodes len root depth) {i : Nat} (hi : i < len) (hinternal : (nodes i).kind.isLeaf = false)
    (hcur : i = current → (nodes' current).kind.isLeaf = false) : (nodes' i).kind.isLeaf = false := by
  by_cases heq : i = current
  · exact heq ▸ hcur heq
  · obtain ⟨c, hlast, -⟩ := ((hshaped.sound i hi).family hinternal).last
    exact isLeaf_of_mem ((h.sound htrail hshaped hi heq).2.mem_iff.mpr (List.mem_of_getLast? hlast))

end

end Grafted

end Wu.Gpui.PaintOrder
