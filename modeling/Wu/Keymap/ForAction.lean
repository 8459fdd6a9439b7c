import Wu.Keymap.Pending
import Wu.Keymap.Superset

/-!
# The bindings of an action

`bindings_for_action` leaves out the bindings that a later null or unbind takes out, wherever it stands. It asks `is_superset`
whether the disabling entry is enabled wherever the binding is, and does not look at their sources, while `bindings_for_input`
lets a null take out bindings of equal or weaker sources only.
-/

namespace Wu.Gpui.Keymap

open List Option

open KeyBindingContextPredicate Matched

/-- `disabled_binding_matches_context`. -/
def disabledBindingMatchesContext (disabledBinding binding : KeyBinding) : Bool :=
  match disabledBinding.contextPredicate, binding.contextPredicate with
  | none, _ => true
  | some _, none => false
  | some disabledPredicate, some predicate => disabledPredicate.isSuperset predicate

/-- Whether an entry takes out a binding in front of it: the body of the loop over the disabling entries. -/
def hides (disabledBinding binding : KeyBinding) : Bool :=
  disabledBinding.keystrokes == binding.keystrokes &&
    if disabledBinding.action.isNoAction then disabledBindingMatchesContext disabledBinding binding
    else disabledBinding.action.isUnbind && disabledBindingMatchesContext disabledBinding binding &&
      bindingIsUnbound disabledBinding binding

/-- `Keymap::bindings_for_action`. -/
def bindingsForAction (keymap : Keymap) (action : Action) : List KeyBinding :=
  keymap.bindings.zipIdx.filterMap fun (binding, ix) =>
    if binding.action.isNoAction || binding.action.isUnbind then none
    else if binding.action ≠ action then none
    else if keymap.bindings.zipIdx.any fun (disabledBinding, disabledIx) => decide (ix < disabledIx) && hides disabledBinding binding
      then none
    else some binding

/-- The binding at an index is the first one that `bindings_for_input` returns. -/
def IsFirst (windows : Bool) (keymap : Keymap) (input : List Keystroke) (contextStack : List KeyContext) (ix : Nat) : Prop :=
  ((select none [] ((keymap.matching windows input contextStack false).insertionSort Before)).head?).map Matched.ix = some ix

/-- A binding is never returned first when there is an entry behind it. -/
def NeverFirst (disabledBinding binding : KeyBinding) : Prop :=
  ∀ (keymap : Keymap) (ix disabledIx : Nat), ix < disabledIx → keymap.bindings[ix]? = some binding →
    keymap.bindings[disabledIx]? = some disabledBinding → ∀ windows input contextStack, ¬IsFirst windows keymap input contextStack ix

section Hides

variable {windows : Bool} {keymap : Keymap} {input : List Keystroke} {contextStack : List KeyContext} {m : Matched}

theorem mem_selected : m ∈ select none [] ((keymap.matching windows input contextStack false).insertionSort Before) ↔
    Completes windows keymap contextStack input m :=
  (mem_select (pairwise_outranks _ _ _ _) m).trans returned_iff

theorem IsFirst.completes {ix : Nat} (h : IsFirst windows keymap input contextStack ix) :
    ∃ m, m.ix = ix ∧ Completes windows keymap contextStack input m := by
  obtain ⟨m, hhead, hix⟩ := map_eq_some_iff.mp h
  exact ⟨m, hix, mem_selected.mp (List.mem_of_head? hhead)⟩

/-- The only action of a keymap is the first one when it is returned. -/
theorem isFirst_of_completes {binding : KeyBinding} {others : List KeyBinding} (hkey : keymap.bindings = binding :: others)
    (hoth : ∀ other ∈ others, other.action.isNoAction = true ∨ other.action.isUnbind = true)
    (h : Completes windows keymap contextStack input m) : IsFirst windows keymap input contextStack 0 := by
  have hzero (x : Matched) (hx : Completes windows keymap contextStack input x) : x.ix = 0 := by
    by_contra hne
    obtain ⟨ix, hix⟩ := Nat.exists_eq_succ_of_ne_zero hne
    have hadd := hx.complete.added
    rw [hkey, hix] at hadd
    have hact := hx.action
    rw [disables, Bool.or_eq_false_iff] at hact
    rcases hoth _ (mem_of_getElem? hadd) with hnull | hunb
    · rw [hact.1] at hnull
      cases hnull
    · rw [hact.2] at hunb
      cases hunb
  unfold IsFirst
  cases hsel : select none [] _ with
  | nil =>
    have hmem := mem_selected.mpr h
    rw [hsel] at hmem
    cases hmem
  | cons x rest =>
    have hmem : x ∈ select none [] ((keymap.matching windows input contextStack false).insertionSort Before) :=
      hsel ▸ mem_cons_self
    exact congrArg some (hzero x (mem_selected.mp hmem))

end Hides

section NeverFirst

variable {disabledBinding binding : KeyBinding}

theorem hides_spec (h : hides disabledBinding binding = true) :
    disabledBinding.keystrokes = binding.keystrokes ∧ disabledBindingMatchesContext disabledBinding binding = true ∧
      (disabledBinding.action.isNoAction = true ∨
        disabledBinding.action.isUnbind = true ∧ bindingIsUnbound disabledBinding binding = true) := by
  rw [hides, Bool.and_eq_true, beq_iff_eq] at h
  refine ⟨h.1, ?_⟩
  have h := h.2
  split at h
  · rename_i hnull
    exact ⟨h, .inl hnull⟩
  · rw [Bool.and_eq_true, Bool.and_eq_true] at h
    exact ⟨h.1.2, .inr ⟨h.1.1, h.2⟩⟩

theorem matchKeystrokes_congr (windows : Bool) (typed : List Keystroke) (h : disabledBinding.keystrokes = binding.keystrokes) :
    disabledBinding.matchKeystrokes windows typed = binding.matchKeystrokes windows typed := by
  rw [KeyBinding.matchKeystrokes, KeyBinding.matchKeystrokes, h]

/-- An entry that is enabled as deep, and whose source is as strong, takes a binding out. -/
theorem neverFirst_of_enabled (h : hides disabledBinding binding = true)
    (hena : ∀ contextStack, ∀ d ∈ bindingEnabled binding contextStack,
      (∃ n ∈ bindingEnabled disabledBinding contextStack, d ≤ n) ∧ disabledBinding.metaIndex.getD 0 ≤ binding.metaIndex.getD 0) :
    NeverFirst disabledBinding binding := by
  intro keymap ix disabledIx hlt hbind hdis windows input contextStack hfst
  obtain ⟨m, rfl, hm⟩ := hfst.completes
  obtain rfl : m.binding = binding := some.inj (hm.complete.added.symm.trans hbind)
  obtain ⟨hkeys, -, hdisa⟩ := hides_spec h
  obtain ⟨⟨n, hn, hle⟩, hmeta⟩ := hena _ _ hm.complete.enabled
  have hmats : Matches windows keymap contextStack input false ⟨n, disabledIx, disabledBinding⟩ :=
    ⟨hdis, hn, (matchKeystrokes_congr _ _ hkeys).trans hm.complete.keys⟩
  have hrank : Outranks ⟨n, disabledIx, disabledBinding⟩ m := by
    unfold Outranks
    dsimp only
    omega
  rcases hdisa with hnull | ⟨hunbi, hunb⟩
  · exact absurd (hm.stronger _ hmats hnull hrank) (Nat.not_lt.mpr hmeta)
  · -- the unbind is only taken out by a null that takes the binding out, too
    obtain ⟨null, hmats', hnull, hrank', hle'⟩ := hm.bound _ hmats hunbi hrank hunb
    have hrank'' : null.Outranks m := by
      unfold Outranks at *
      omega
    exact absurd (hm.stronger null hmats' hnull hrank'') (Nat.not_lt.mpr (hle'.trans hmeta))

/-- The keys of a binding, typed without anything else, complete it. -/
theorem matchKeystrokes_typed (windows : Bool) (binding : KeyBinding) :
    binding.matchKeystrokes windows (binding.keystrokes.map fun target => { target.inner with keyChar := none }) = some false := by
  refine matchKeystrokes_iff.mpr ⟨fun pair hpair => ?_, by rw [length_map], by simp⟩
  obtain ⟨i, htar, hkey⟩ := mem_zip_iff.mp hpair
  rw [List.getElem?_map, htar, map_some, Option.some.injEq] at hkey
  rw [← hkey]
  simp [Keystroke.shouldMatch]

theorem bindingEnabled_le {contextStack : List KeyContext} {n : Nat} (h : bindingEnabled binding contextStack = some n) :
    n ≤ contextStack.length := by
  unfold bindingEnabled at h
  split at h
  · exact (of_depthOf h).1
  · exact (some.inj h).ge

/-- The keys of a binding, typed without anything else. -/
def typed (binding : KeyBinding) : List Keystroke := binding.keystrokes.map fun target => { target.inner with keyChar := none }

/-- An entry takes out a binding in front of it only where it is enabled as deep. -/
theorem enabled_of_neverFirst (h : NeverFirst disabledBinding binding) (hact : disables ⟨0, 0, binding⟩ = false)
    (hdis : disables ⟨0, 0, disabledBinding⟩ = true) {contextStack : List KeyContext} {d : Nat}
    (hd : bindingEnabled binding contextStack = some d) : ∃ n ∈ bindingEnabled disabledBinding contextStack, d ≤ n := by
  by_contra hnone
  -- the binding is alone with the entry, which does not rank before it
  have hbeh (x : Matched) (hx : Matches false ⟨[binding, disabledBinding]⟩ contextStack (typed binding) false x) :
      ¬x.Outranks ⟨d, 0, binding⟩ := by
    intro hrank
    unfold Outranks at hrank
    dsimp only at hrank
    have hadd := hx.added
    cases hix : x.ix with
    | zero =>
      rw [hix] at hadd
      obtain rfl : binding = x.binding := some.inj hadd
      have hdep : d = x.depth := some.inj (hd.symm.trans hx.enabled)
      omega
    | succ i =>
      rw [hix] at hadd
      obtain rfl : x.binding = disabledBinding := mem_singleton.mp (mem_of_getElem? hadd)
      exact hnone ⟨x.depth, hx.enabled, by omega⟩
  refine h ⟨[binding, disabledBinding]⟩ 0 1 Nat.one_pos rfl rfl false _ _
    (isFirst_of_completes (m := ⟨d, 0, binding⟩) rfl ?_ ⟨⟨rfl, hd, matchKeystrokes_typed _ _⟩, hact, ?_, ?_⟩)
  · intro other hoth
    rw [mem_singleton.mp hoth]
    exact (Bool.or_eq_true _ _).mp hdis
  · exact fun null hnull _ hrank => absurd hrank (hbeh null hnull)
  · exact fun unbind hunb _ hrank _ => absurd hrank (hbeh _ hunb)

/-- An entry with a weaker source leaves a binding where a null of its source takes the entry out. -/
theorem meta_of_neverFirst (h : NeverFirst disabledBinding binding) (hact : disables ⟨0, 0, binding⟩ = false)
    (hdis : disables ⟨0, 0, disabledBinding⟩ = true) {contextStack : List KeyContext} {d : Nat}
    (hd : bindingEnabled binding contextStack = some d) :
    disabledBinding.metaIndex.getD 0 ≤ binding.metaIndex.getD 0 := by
  by_contra hlt
  let null : KeyBinding := ⟨.noAction, binding.keystrokes, none, disabledBinding.metaIndex⟩
  let keymap : Keymap := ⟨[binding, disabledBinding, null]⟩
  have hnull : Matches false keymap contextStack (typed binding) false ⟨contextStack.length, 2, null⟩ :=
    ⟨rfl, rfl, matchKeystrokes_typed _ null⟩
  -- what disables has the weaker source
  have hsou (x : Matched) (hx : Matches false keymap contextStack (typed binding) false x) (hdis : x.disables = true) :
      x.metaIndex = disabledBinding.metaIndex.getD 0 := by
    have hmem := mem_of_getElem? hx.added
    simp only [keymap, mem_cons, not_mem_nil, or_false] at hmem
    unfold Matched.metaIndex
    rcases hmem with heq | heq | heq
    · have heq' : x.disables = disables ⟨0, 0, binding⟩ := by rw [disables, disables, heq]
      rw [heq', hact] at hdis
      cases hdis
    · rw [heq]
    · rw [heq]
  refine h keymap 0 1 Nat.one_pos rfl rfl false _ _
    (isFirst_of_completes (m := ⟨d, 0, binding⟩) rfl ?_ ⟨⟨rfl, hd, matchKeystrokes_typed _ _⟩, hact, ?_, ?_⟩)
  · intro other hoth
    rcases mem_cons.mp hoth with rfl | hoth
    · exact (Bool.or_eq_true _ _).mp hdis
    · exact .inl (by rw [mem_singleton.mp hoth]; rfl)
  · intro x hx hisN _
    rw [hsou x hx (by rw [disables, hisN, Bool.true_or])]
    exact Nat.not_le.mp hlt
  · intro unbind hunb hisU _ _
    refine ⟨_, hnull, rfl, ?_, (hsou _ hunb (by rw [disables, hisU, Bool.or_true])).ge⟩
    have hdep := bindingEnabled_le hunb.enabled
    have hix : unbind.ix < 2 := by
      obtain ⟨hlt, heq⟩ := List.getElem?_eq_some_iff.mp hunb.added
      refine lt_of_le_of_ne (Nat.le_of_lt_succ hlt) fun hlast => ?_
      simp only [hlast] at heq
      rw [← heq] at hisU
      cases hisU
    unfold Outranks
    dsimp only
    omega

/-- An entry takes out a binding in front of it exactly when it is enabled as deep wherever the binding is enabled, and its source
is as strong. -/
theorem neverFirst_iff_enabled (h : hides disabledBinding binding = true) (hact : disables ⟨0, 0, binding⟩ = false) :
    NeverFirst disabledBinding binding ↔ ∀ contextStack, ∀ d ∈ bindingEnabled binding contextStack,
        (∃ n ∈ bindingEnabled disabledBinding contextStack, d ≤ n) ∧ disabledBinding.metaIndex.getD 0 ≤ binding.metaIndex.getD 0 := by
  have hdis : disables ⟨0, 0, disabledBinding⟩ = true :=
    (Bool.or_eq_true _ _).mpr ((hides_spec h).2.2.imp_right And.left)
  constructor
  · intro hnev contextStack d hd
    exact ⟨enabled_of_neverFirst hnev hact hdis hd, meta_of_neverFirst hnev hact hdis hd⟩
  · exact neverFirst_of_enabled h

/-- What a superset is said to be: the entry is enabled wherever the binding is. -/
theorem enabled_of_sound (h : disabledBindingMatchesContext disabledBinding binding = true)
    (hsou : ∀ a ∈ disabledBinding.contextPredicate, ∀ b ∈ binding.contextPredicate, Sound a b) {contextStack : List KeyContext}
    {d : Nat} (hd : bindingEnabled binding contextStack = some d) : ∃ n ∈ bindingEnabled disabledBinding contextStack, d ≤ n := by
  unfold disabledBindingMatchesContext at h
  cases ha : disabledBinding.contextPredicate with
  | none => exact ⟨contextStack.length, by rw [bindingEnabled, ha]; rfl, bindingEnabled_le hd⟩
  | some a =>
    cases hb : binding.contextPredicate with
    | none =>
      rw [ha, hb] at h
      cases h
    | some b =>
      rw [bindingEnabled, hb] at hd
      rw [bindingEnabled, ha]
      exact (hsou a ha b hb _).2 d hd

end NeverFirst

/-- A superset is sound exactly when what it finds below a parent is kept, and an entry with such a predicate takes a binding out
exactly when its source is as strong. -/
theorem superset_sound_iff (a b : KeyBindingContextPredicate) (nested : Bool) (p : KeyBindingContextPredicate)
    (disabledBinding binding : KeyBinding) :
    (a.isSuperset b = true ↔ ∃ nested p, Found nested a b p) ∧
    ((∀ a b, Found nested a b p → Sound a b) ↔ (nested = true → p.isOr = false → Kept p)) ∧
    (hides disabledBinding binding = true → (binding.action.isNoAction || binding.action.isUnbind) = false →
      (∀ a ∈ disabledBinding.contextPredicate, ∀ b ∈ binding.contextPredicate, Sound a b) →
      (NeverFirst disabledBinding binding ↔
        disabledBinding.metaIndex.getD 0 ≤ binding.metaIndex.getD 0 ∨
          ∀ contextStack, bindingEnabled binding contextStack = none)) := by
  refine ⟨⟨exists_found, fun ⟨_, _, h⟩ => h.isSuperset⟩, sound_iff_kept nested p, fun h haction hsound => ?_⟩
  rw [neverFirst_iff_enabled h haction]
  constructor
  · intro henabled
    by_cases hnone : ∀ contextStack, bindingEnabled binding contextStack = none
    · exact .inr hnone
    · obtain ⟨contextStack, hsome⟩ := not_forall.mp hnone
      obtain ⟨d, hd⟩ := ne_none_iff_exists'.mp hsome
      exact .inl (henabled contextStack d hd).2
  · rintro (hmeta | hnone) contextStack d hd
    · exact ⟨enabled_of_sound (hides_spec h).2.1 hsound hd, hmeta⟩
    · rw [hnone contextStack] at hd
      cases hd

theorem superset_sound_iff_plain :
    (∀ a b, Found true a b (.identifier "Editor") → Sound a b) ∧
    NeverFirst (plainBinding ["a"] .noAction) (plainBinding ["a"] (.other "Alpha")) := by
  obtain ⟨-, hpart, hbinding⟩ := superset_sound_iff (.identifier "Pane") (.identifier "Editor") true (.identifier "Editor")
    (plainBinding ["a"] .noAction) (plainBinding ["a"] (.other "Alpha"))
  exact ⟨hpart.mpr fun _ _ => kept_of_notFree rfl, (hbinding (by decide) rfl fun _ h => by cases h).mpr (.inl le_rfl)⟩

/-- A negation holds below a parent, and not of all of the contexts; and a null of a base keymap hides a user's binding. -/
theorem superset_is_not_sound :
    (isSuperset (.not (.identifier "X")) (.descendant (.identifier "P") (.not (.identifier "X"))) = true ∧
      eval (.descendant (.identifier "P") (.not (.identifier "X"))) [⟨[⟨"X", none⟩]⟩, ⟨[⟨"P", none⟩]⟩, ⟨[⟨"C", none⟩]⟩] = true ∧
      eval (.not (.identifier "X")) [⟨[⟨"X", none⟩]⟩, ⟨[⟨"P", none⟩]⟩, ⟨[⟨"C", none⟩]⟩] = false) ∧
    bindingsForAction ⟨[plainBinding ["a"] (.other "Alpha"), { plainBinding ["a"] .noAction with metaIndex := some 1 }]⟩
      (.other "Alpha") = [] ∧
    IsFirst false ⟨[plainBinding ["a"] (.other "Alpha"), { plainBinding ["a"] .noAction with metaIndex := some 1 }]⟩
      [plainKey "a"] [] 0 :=
  ⟨⟨(found_descendant rfl _).isSuperset, by decide, by decide⟩, by decide, by unfold IsFirst; decide⟩

end Wu.Gpui.Keymap
