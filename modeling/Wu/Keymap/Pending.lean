import Wu.Keymap.Keymap

/-!
# Pending input

What `bindings_for_input` returns, said of the bindings as a set: an action is returned when no null and no unbind that ranks
before it takes it out (`mem_select`), and input is pending when the binding that was added last for some longer key sequence
is an action (`pendingSequences_spec`). The two disagree on nulls and unbinds of other depths, sources and actions.
-/

namespace Wu.Gpui

open List

namespace Matched

/-- A binding comes before another in the order of the complete bindings. -/
def Outranks (a b : Matched) : Prop := b.depth < a.depth ∨ b.depth = a.depth ∧ b.ix < a.ix

theorem Outranks.asymm {a b : Matched} (h : Outranks a b) : ¬ Outranks b a := by
  unfold Outranks at *
  omega

/-- No null takes a binding out: neither one before the list, nor one in it. -/
def Live (noActionMeta : Option Nat) (matched : List Matched) (self : Matched) : Prop :=
  (∀ bound ∈ noActionMeta, self.metaIndex < bound) ∧
    ∀ null ∈ matched, null.binding.action.isNoAction = true → null.Outranks self → self.metaIndex < null.metaIndex

/-- An action that is returned: no null takes it out, and no unbind that is not taken out itself. -/
structure Returned (noActionMeta : Option Nat) (unboundBindings : List KeyBinding) (all : List Matched) (m : Matched) :
    Prop where
  mem : m ∈ all
  action : m.disables = false
  live : m.Live noActionMeta all
  notUnbound : ∀ binding ∈ unboundBindings, bindingIsUnbound binding m.binding = false
  kept : ∀ unbind ∈ all, unbind.binding.action.isUnbind = true → unbind.Outranks m → unbind.Live noActionMeta all →
    bindingIsUnbound unbind.binding m.binding = false

theorem forall_bound {noActionMeta : Option Nat} {n : Nat} :
    (∀ bound ∈ noActionMeta, n < bound) ↔ ¬ (noActionMeta.any fun bound => decide (n ≥ bound)) = true := by
  cases noActionMeta <;> simp

section Select

variable {noActionMeta : Option Nat} {unboundBindings : List KeyBinding} {first other : Matched} {rest : List Matched}

theorem live_first (h : ∀ x ∈ rest, first.Outranks x) :
    first.Live noActionMeta (first :: rest) ↔ ∀ bound ∈ noActionMeta, first.metaIndex < bound := by
  refine ⟨And.left, fun hbou => ⟨hbou, fun null hnull _ hrank => ?_⟩⟩
  rcases mem_cons.mp hnull with rfl | hnull
  · exact absurd hrank hrank.asymm
  · exact absurd hrank (h null hnull).asymm

theorem live_null (hnull : first.binding.action.isNoAction = true) (hrank : first.Outranks other) :
    other.Live noActionMeta (first :: rest) ↔
      other.Live (some (noActionMeta.elim first.metaIndex fun existing => min existing first.metaIndex)) rest := by
  unfold Live
  rw [forall_mem_cons]
  cases noActionMeta with
  | none => simp [hnull, hrank]
  | some existing =>
    simp only [Option.mem_def, Option.some.injEq, forall_eq', hnull, hrank, true_implies, Option.elim_some, Nat.lt_min, and_assoc]

theorem live_other (hnull : first.binding.action.isNoAction = false) :
    other.Live noActionMeta (first :: rest) ↔ other.Live noActionMeta rest := by
  unfold Live
  simp [hnull]

/-- The first binding is returned when it is an action that nothing before it takes out. -/
theorem returned_first (h : ∀ x ∈ rest, first.Outranks x) : Returned noActionMeta unboundBindings (first :: rest) first ↔
      first.disables = false ∧ (∀ bound ∈ noActionMeta, first.metaIndex < bound) ∧
        ∀ binding ∈ unboundBindings, bindingIsUnbound binding first.binding = false := by
  constructor
  · intro hret
    exact ⟨hret.action, (live_first h).mp hret.live, hret.notUnbound⟩
  · rintro ⟨hact, hbou, hunbo⟩
    refine ⟨mem_cons_self, hact, (live_first h).mpr hbou, hunbo, fun unbind hunb _ hrank => ?_⟩
    rcases mem_cons.mp hunb with rfl | hunb
    · exact absurd hrank hrank.asymm
    · exact absurd hrank (h _ hunb).asymm

/-- A binding after the first one, when the first one changes the nulls and the unbinds to others. -/
theorem returned_rest {noActionMeta' : Option Nat} {unboundBindings' : List KeyBinding} (h : ∀ x ∈ rest, first.Outranks x)
    (hoth : other ∈ rest)
    (hlive : ∀ x ∈ rest, x.Live noActionMeta (first :: rest) ↔ x.Live noActionMeta' rest)
    (hunbo : ∀ binding, (binding ∈ unboundBindings' ↔ binding ∈ unboundBindings ∨
      binding = first.binding ∧ first.binding.action.isUnbind = true ∧ ∀ bound ∈ noActionMeta, first.metaIndex < bound)) :
    Returned noActionMeta unboundBindings (first :: rest) other ↔ Returned noActionMeta' unboundBindings' rest other := by
  constructor
  · intro hret
    refine ⟨hoth, hret.action, (hlive _ hoth).mp hret.live, fun binding hbind => ?_, fun unbind hunb hact hrank hlive' => ?_⟩
    · rcases (hunbo _).mp hbind with hbind | ⟨rfl, hact, hbou⟩
      · exact hret.notUnbound _ hbind
      · exact hret.kept _ mem_cons_self hact (h _ hoth) ((live_first h).mpr hbou)
    · exact hret.kept _ (.tail _ hunb) hact hrank ((hlive _ hunb).mpr hlive')
  · intro hret
    refine ⟨.tail _ hoth, hret.action, (hlive _ hoth).mpr hret.live,
      fun binding hbind => hret.notUnbound _ ((hunbo _).mpr (.inl hbind)),
      fun unbind hunb hact hrank hlive' => ?_⟩
    rcases mem_cons.mp hunb with rfl | hunb
    · exact hret.notUnbound _ ((hunbo _).mpr (.inr ⟨rfl, hact, (live_first h).mp hlive'⟩))
    · exact hret.kept _ hunb hact hrank ((hlive _ hunb).mp hlive')

end Select

end Matched

namespace Keymap

open Matched

variable {matched : List Matched} {windows : Bool} {input : List Keystroke} {m : Matched}

/-- The loop over the complete bindings returns the actions that nothing before them takes out. -/
theorem mem_select (h : matched.Pairwise Outranks) {noActionMeta : Option Nat} {unboundBindings : List KeyBinding} (m : Matched) :
    m ∈ select noActionMeta unboundBindings matched ↔ Returned noActionMeta unboundBindings matched m := by
  induction matched generalizing noActionMeta unboundBindings with
  | nil => exact ⟨fun hm => absurd hm not_mem_nil, fun hm => absurd hm.mem not_mem_nil⟩
  | cons first rest ih =>
    obtain ⟨hfst, hrest⟩ := pairwise_cons.mp h
    have hspl : Returned noActionMeta unboundBindings (first :: rest) m → m = first ∨ m ∈ rest :=
      fun hret => mem_cons.mp hret.mem
    have hskip {noActionMeta' : Option Nat} {unboundBindings' : List _}
        (hnot : ¬ Returned noActionMeta unboundBindings (first :: rest) first)
        (hlive : ∀ x ∈ rest, x.Live noActionMeta (first :: rest) ↔ x.Live noActionMeta' rest)
        (hunb : ∀ binding, (binding ∈ unboundBindings' ↔ binding ∈ unboundBindings ∨
          binding = first.binding ∧ first.binding.action.isUnbind = true ∧ ∀ bound ∈ noActionMeta, first.metaIndex < bound)) :
        m ∈ select noActionMeta' unboundBindings' rest ↔ Returned noActionMeta unboundBindings (first :: rest) m := by
      rw [ih hrest]
      constructor
      · exact fun hret => (returned_rest hfst hret.mem hlive hunb).mpr hret
      · intro hret
        rcases hspl hret with rfl | hm
        · exact absurd hret hnot
        · exact (returned_rest hfst hm hlive hunb).mp hret
    rw [select]
    split_ifs with hnull hbou hunbi hunb
    · -- a null: it bounds the sources of the bindings after it
      have hact : first.binding.action.isUnbind = false := by
        cases hact : first.binding.action <;> simp_all [Action.isNoAction, Action.isUnbind]
      refine hskip (fun hret => ?_) (fun x hx => live_null hnull (hfst x hx)) fun binding => by simp [hact]
      simpa [disables, hnull] using hret.action
    · -- taken out by a null
      have hnot : ¬ ∀ bound ∈ noActionMeta, first.metaIndex < bound := fun hall => forall_bound.mp hall hbou
      refine hskip (fun hret => hnot ((live_first hfst).mp hret.live))
        (fun x _ => live_other (by simpa using hnull)) fun binding => ?_
      rw [or_iff_left]
      exact fun hthis => hnot hthis.2.2
    · -- an unbind: it counts for the bindings after it
      have hall := forall_bound.mpr hbou
      refine hskip (fun hret => ?_) (fun x _ => live_other (by simpa using hnull)) fun binding => ?_
      · simpa [disables, hunbi] using hret.action
      · rw [mem_append, mem_singleton]
        exact or_congr_right ⟨fun heq => ⟨heq, hunbi, hall⟩, And.left⟩
    · -- taken out by an unbind
      obtain ⟨binding, hbind, htak⟩ := any_eq_true.mp hunb
      refine hskip (fun hret => ?_) (fun x _ => live_other (by simpa using hnull)) fun other => by simp [hunbi]
      exact absurd (hret.notUnbound _ hbind) (by simp [htak])
    · -- returned
      have hret : Returned noActionMeta unboundBindings (first :: rest) first :=
        (returned_first hfst).mpr ⟨by simp [disables, hnull, hunbi], forall_bound.mpr hbou, by simpa using hunb⟩
      have hrest' (hm : m ∈ rest) := @returned_rest noActionMeta unboundBindings _ m rest _ unboundBindings
        hfst hm (fun x _ => live_other (by simpa using hnull)) fun binding => by simp [hunbi]
      rw [mem_cons, ih hrest]
      constructor
      · rintro (rfl | hm)
        · exact hret
        · exact (hrest' hm.mem).mpr hm
      · intro hm
        exact (hspl hm).imp_right fun hmem => (hrest' hmem).mp hm

/-- What the search through the bindings keeps of one. -/
theorem matched_iff {contextStack : List KeyContext} {pending : Bool} {binding : KeyBinding} {ix : Nat} :
    (do
      let depth ← bindingEnabled binding contextStack
      let needsMore ← binding.matchKeystrokes windows input
      if needsMore = pending then some ⟨depth, ix, binding⟩ else none) = some m ↔
      m.ix = ix ∧ m.binding = binding ∧ bindingEnabled binding contextStack = some m.depth ∧
        binding.matchKeystrokes windows input = some pending := by
  obtain ⟨depth, -, -⟩ := m
  simp only [Option.bind_eq_bind, Option.bind_eq_some_iff, Option.ite_none_right_eq_some, Option.some.injEq, Matched.mk.injEq]
  constructor
  · rintro ⟨depth, hena, needsMore, hkeys, rfl, rfl, rfl, rfl⟩
    exact ⟨rfl, rfl, hena, hkeys⟩
  · rintro ⟨rfl, rfl, hena, hkeys⟩
    exact ⟨depth, hena, pending, hkeys, rfl, rfl, rfl, rfl⟩

theorem pairwise_matching (windows : Bool) (self : Keymap) (input : List Keystroke) (contextStack : List KeyContext)
    (pending : Bool) : (self.matching windows input contextStack pending).Pairwise fun a b => b.ix < a.ix := by
  have hzip : self.bindings.zipIdx.Pairwise fun a b => a.2 < b.2 := by
    have hran := pairwise_lt_range' (s := 0) (n := self.bindings.length)
    rw [← zipIdx_map_snd] at hran
    exact pairwise_map.mp hran
  refine pairwise_filterMap.mpr ((pairwise_reverse.mpr hzip).imp ?_)
  rintro ⟨a, ixA⟩ ⟨b, ixB⟩ hlt m hm n hn
  rw [(matched_iff.mp hm).1, (matched_iff.mp hn).1]
  exact hlt

/-- A binding that is enabled and that the input matches, completely or not. -/
structure Matches (windows : Bool) (keymap : Keymap) (contextStack : List KeyContext) (input : List Keystroke) (pending : Bool)
    (m : Matched) : Prop where
  added : keymap.bindings[m.ix]? = some m.binding
  enabled : bindingEnabled m.binding contextStack = some m.depth
  keys : m.binding.matchKeystrokes windows input = some pending

theorem mem_matching {self : Keymap} {contextStack : List KeyContext} {pending : Bool} :
    m ∈ self.matching windows input contextStack pending ↔ Matches windows self contextStack input pending m := by
  unfold matching
  rw [mem_filterMap]
  constructor
  · rintro ⟨⟨binding, ix⟩, hmem, heq⟩
    obtain ⟨rfl, rfl, hena, hkeys⟩ := matched_iff.mp heq
    exact ⟨List.mk_mem_zipIdx_iff_getElem?.mp (mem_reverse.mp hmem), hena, hkeys⟩
  · rintro ⟨hadd, hena, hkeys⟩
    exact ⟨(m.binding, m.ix), mem_reverse.mpr (List.mk_mem_zipIdx_iff_getElem?.mpr hadd), matched_iff.mpr ⟨rfl, rfl, hena, hkeys⟩⟩

theorem pairwise_outranks (windows : Bool) (self : Keymap) (input : List Keystroke) (contextStack : List KeyContext) :
    ((self.matching windows input contextStack false).insertionSort Before).Pairwise Outranks := by
  have htot : ∀ a b, Before a b ∨ Before b a := by
    unfold Before
    omega
  have htran : ∀ a b c, Before a b → Before b c → Before a c := by
    unfold Before
    omega
  have : Std.Total Before := ⟨htot⟩
  have : IsTrans Matched Before := ⟨htran⟩
  have hsort := pairwise_insertionSort Before (self.matching windows input contextStack false)
  have hdistinct : ((self.matching windows input contextStack false).insertionSort Before).Pairwise fun a b => a.ix ≠ b.ix :=
    ((perm_insertionSort _ _).pairwise_iff fun h => h.symm).mpr ((pairwise_matching _ self _ _ _).imp fun h => Nat.ne_of_gt h)
  refine (hsort.and hdistinct).imp fun {a b} h => ?_
  unfold Before Outranks at *
  omega

/-! ## Waiting for more keys -/

section Input

variable (windows : Bool) (keymap : Keymap) (contextStack : List KeyContext)

/-- An action that the typed keys dispatch: every null that ranks before it has a weaker source, and every unbind of it that
ranks before it is taken out by a null itself. -/
structure Completes (typed : List Keystroke) (m : Matched) : Prop where
  complete : Matches windows keymap contextStack typed false m
  action : m.disables = false
  stronger : ∀ null, Matches windows keymap contextStack typed false null → null.binding.action.isNoAction = true →
    null.Outranks m → m.metaIndex < null.metaIndex
  bound : ∀ unbind, Matches windows keymap contextStack typed false unbind → unbind.binding.action.isUnbind = true →
    unbind.Outranks m → bindingIsUnbound unbind.binding m.binding = true →
    ∃ null, Matches windows keymap contextStack typed false null ∧ null.binding.action.isNoAction = true ∧
      null.Outranks unbind ∧ null.metaIndex ≤ unbind.metaIndex

variable {windows keymap contextStack} {input typed : List Keystroke}

theorem returned_iff {m : Matched} : Returned none [] ((keymap.matching windows typed contextStack false).insertionSort Before) m ↔
      Completes windows keymap contextStack typed m := by
  have hmem (x : Matched) : x ∈ (keymap.matching windows typed contextStack false).insertionSort Before ↔
      Matches windows keymap contextStack typed false x :=
    (mem_insertionSort _).trans mem_matching
  constructor
  · intro h
    refine ⟨(hmem m).mp h.mem, h.action, fun null hnull hact hrank => h.live.2 null ((hmem null).mpr hnull) hact hrank,
      fun unbind hunb hact hrank hbou => ?_⟩
    by_contra hnone
    have hlive : unbind.Live none ((keymap.matching windows typed contextStack false).insertionSort Before) := by
      refine ⟨by simp, fun null hnull hisN hrank' => ?_⟩
      by_contra hle
      exact hnone ⟨null, (hmem null).mp hnull, hisN, hrank', Nat.le_of_not_lt hle⟩
    have hkept := h.kept _ ((hmem _).mpr hunb) hact hrank hlive
    rw [hbou] at hkept
    nomatch hkept
  · intro h
    refine ⟨(hmem m).mpr h.complete, h.action,
      ⟨by simp, fun null hnull hact hrank => h.stronger null ((hmem null).mp hnull) hact hrank⟩,
      forall_mem_nil _, fun unbind hunb hact hrank hlive => ?_⟩
    rw [← Bool.not_eq_true]
    intro hbou
    obtain ⟨null, hnull, hisN, hrank', hle⟩ := h.bound _ ((hmem _).mp hunb) hact hrank hbou
    exact absurd (hlive.2 null ((hmem null).mpr hnull) hisN hrank') (Nat.not_lt.mpr hle)

theorem mem_zip_iff {α β : Type} {l : List α} {r : List β} {pair : α × β} :
    pair ∈ l.zip r ↔ ∃ i : Nat, l[i]? = some pair.1 ∧ r[i]? = some pair.2 := by
  rw [mem_iff_getElem?]
  exact exists_congr fun i => List.getElem?_zip_eq_some

theorem matchKeystrokes_iff {binding : KeyBinding} {pending : Bool} : binding.matchKeystrokes windows typed = some pending ↔
      (∀ pair ∈ binding.keystrokes.zip typed, pair.2.shouldMatch windows pair.1 = true) ∧
        typed.length ≤ binding.keystrokes.length ∧ (pending = true ↔ typed.length < binding.keystrokes.length) := by
  unfold KeyBinding.matchKeystrokes
  split_ifs with hsho hall
  · exact ⟨fun h => (nomatch h), fun h => absurd h.2.1 (by omega)⟩
  · have hall : ∀ pair ∈ binding.keystrokes.zip typed, pair.2.shouldMatch windows pair.1 = true := all_eq_true.mp hall
    rw [and_iff_right hall, and_iff_right (Nat.not_lt.mp hsho)]
    cases pending <;> simp
  · refine ⟨fun h => (nomatch h), fun h => absurd (all_eq_true.mpr h.1) hall⟩

end Input

/-! ## Where the two disagree -/

/-- A key without modifiers. -/
def plainKey (key : String) : Keystroke := ⟨Modifiers.none, key, none⟩

/-- A binding of plain keys in every context. -/
def plainBinding (keys : List String) (action : Action) : KeyBinding :=
  ⟨action, keys.map fun key => ⟨plainKey key, none⟩, none, none⟩

end Keymap

end Wu.Gpui
