import Mathlib.Data.Fintype.EquivFin
import Wu.Keymap.Context

/-!
# Superset of contexts

`is_superset` looks for a part of one predicate that the other one is, or is an alternative of. What holds of the part is said in
`Found`: in front of the first `>` it is evaluated with the contexts that the whole is evaluated with, and behind a `>` with the
contexts below the parent only. The second is sound just for the parts that stay true with other contexts around (`Kept`).
-/

namespace Wu.Gpui.KeyBindingContextPredicate

open List

/-- `eval`. -/
def eval (pred : KeyBindingContextPredicate) (contexts : List KeyContext) : Bool := pred.evalInner contexts contexts

/-- `is_superset`. -/
def isSuperset (pred other : KeyBindingContextPredicate) : Bool :=
  if pred = other then true
  else
    match pred, other with
    | or left right, other => isSuperset left other || isSuperset right other
    | pred, descendant _ child => isSuperset pred child
    | pred, and left right => isSuperset pred left || isSuperset pred right
    | _, _ => false
  termination_by sizeOf pred + sizeOf other

/-- Whether the predicate is a disjunction. -/
def isOr : KeyBindingContextPredicate → Bool
  | or _ _ => true
  | _ => false

/-- The part that `is_superset` finds both predicates to have, and whether it is below a parent in the second one. -/
inductive Found : Bool → KeyBindingContextPredicate → KeyBindingContextPredicate → KeyBindingContextPredicate → Prop
  | same (p : KeyBindingContextPredicate) : Found false p p p
  | left {nested : Bool} {l r b p : KeyBindingContextPredicate} (hne : or l r ≠ b) (h : Found nested l b p) :
      Found nested (or l r) b p
  | right {nested : Bool} {l r b p : KeyBindingContextPredicate} (hne : or l r ≠ b) (h : Found nested r b p) :
      Found nested (or l r) b p
  | child {nested : Bool} {a parent child p : KeyBindingContextPredicate} (hor : a.isOr = false) (hne : a ≠ descendant parent child)
      (h : Found nested a child p) : Found true a (descendant parent child) p
  | andLeft {nested : Bool} {a l r p : KeyBindingContextPredicate} (hor : a.isOr = false) (hne : a ≠ and l r)
      (h : Found nested a l p) : Found nested a (and l r) p
  | andRight {nested : Bool} {a l r p : KeyBindingContextPredicate} (hor : a.isOr = false) (hne : a ≠ and l r)
      (h : Found nested a r p) : Found nested a (and l r) p

section Equations

variable {a b l r parent child : KeyBindingContextPredicate}

@[simp] theorem isSuperset_self (a : KeyBindingContextPredicate) : a.isSuperset a = true := by
  rw [isSuperset.eq_def, if_pos rfl]

theorem isSuperset_or (hne : or l r ≠ b) : (or l r).isSuperset b = (l.isSuperset b || r.isSuperset b) := by
  rw [isSuperset.eq_def, if_neg hne]

theorem isSuperset_descendant (hor : a.isOr = false) (hne : a ≠ descendant parent child) :
    a.isSuperset (descendant parent child) = a.isSuperset child := by
  rw [isSuperset.eq_def, if_neg hne]
  cases a <;> first | rfl | cases hor

theorem isSuperset_and (hor : a.isOr = false) (hne : a ≠ and l r) : a.isSuperset (and l r) = (a.isSuperset l || a.isSuperset r) := by
  rw [isSuperset.eq_def, if_neg hne]
  cases a <;> first | rfl | cases hor

theorem isSuperset_other (hor : a.isOr = false) (hne : a ≠ b) (hchd : ∀ parent child, b ≠ descendant parent child)
    (hand : ∀ l r, b ≠ and l r) : a.isSuperset b = false := by
  rw [isSuperset.eq_def, if_neg hne]
  cases a with
  | or => cases hor
  | _ =>
    cases b with
    | descendant parent child => exact absurd rfl (hchd _ _)
    | and l r => exact absurd rfl (hand l r)
    | _ => rfl

end Equations

variable {nested : Bool} {a b p : KeyBindingContextPredicate} {stack : List KeyContext}

theorem Found.isSuperset (h : Found nested a b p) : a.isSuperset b = true := by
  induction h with
  | same p => exact isSuperset_self p
  | left hne _ ih => rw [isSuperset_or hne, ih, Bool.true_or]
  | right hne _ ih => rw [isSuperset_or hne, ih, Bool.or_true]
  | child hor hne _ ih => rw [isSuperset_descendant hor hne, ih]
  | andLeft hor hne _ ih => rw [isSuperset_and hor hne, ih, Bool.true_or]
  | andRight hor hne _ ih => rw [isSuperset_and hor hne, ih, Bool.or_true]

theorem exists_found (h : a.isSuperset b = true) : ∃ nested p, Found nested a b p := by
  induction hsize : sizeOf a + sizeOf b using Nat.strongRecOn generalizing a b with
  | ind n ih =>
    by_cases hne : a = b
    · exact ⟨false, b, hne ▸ .same a⟩
    by_cases hor : a.isOr = false
    · have hoth (hchd : ∀ parent child, b ≠ descendant parent child) (hand : ∀ l r, b ≠ and l r) :
          ∃ nested p, Found nested a b p := by
        rw [isSuperset_other hor hne hchd hand] at h
        cases h
      cases b with
      | descendant parent child =>
        rw [isSuperset_descendant hor hne] at h
        obtain ⟨nested, p, h⟩ := ih _ (by rw [← hsize, descendant.sizeOf_spec]; omega) h rfl
        exact ⟨true, p, .child hor hne h⟩
      | and l r =>
        rw [isSuperset_and hor hne, Bool.or_eq_true] at h
        rcases h with h | h
        · obtain ⟨nested, p, h⟩ := ih _ (by rw [← hsize, and.sizeOf_spec]; omega) h rfl
          exact ⟨nested, p, .andLeft hor hne h⟩
        · obtain ⟨nested, p, h⟩ := ih _ (by rw [← hsize, and.sizeOf_spec]; omega) h rfl
          exact ⟨nested, p, .andRight hor hne h⟩
      | _ => exact hoth (by simp) (by simp)
    · cases a with
      | or l r =>
        rw [isSuperset_or hne, Bool.or_eq_true] at h
        rcases h with h | h
        · obtain ⟨nested, p, h⟩ := ih _ (by rw [← hsize, or.sizeOf_spec]; omega) h rfl
          exact ⟨nested, p, .left hne h⟩
        · obtain ⟨nested, p, h⟩ := ih _ (by rw [← hsize, or.sizeOf_spec]; omega) h rfl
          exact ⟨nested, p, .right hne h⟩
      | _ => exact absurd rfl hor

/-! ## Depths -/

/-- The first of a falling list is the greatest. -/
theorem exists_find?_of_mem {l : List Nat} (h : l.Pairwise (· > ·)) {p : Nat → Bool} {n : Nat} (hn : n ∈ l) (hp : p n = true) :
    ∃ m ∈ l.find? p, n ≤ m := by
  induction l with
  | nil => cases hn
  | cons m l ih =>
    obtain ⟨hfst, hrest⟩ := pairwise_cons.mp h
    by_cases hm : p m = true
    · refine ⟨m, List.find?_cons_of_pos hm, ?_⟩
      rcases mem_cons.mp hn with rfl | hn
      · exact le_rfl
      · exact (hfst n hn).le
    · rw [List.find?_cons_of_neg hm]
      rcases mem_cons.mp hn with rfl | hn
      · exact absurd hp hm
      · exact ih hrest hn

section Depth

variable {p : KeyBindingContextPredicate} {stack : List KeyContext} {d : Nat}

theorem le_depthOf (hle : d ≤ stack.length) (h : p.evalInner (stack.take d) stack = true) : ∃ n ∈ p.depthOf stack, d ≤ n := by
  refine exists_find?_of_mem (pairwise_reverse.mpr pairwise_lt_range) ?_ h
  exact mem_reverse.mpr (mem_range.mpr (Nat.lt_succ_of_le hle))

theorem of_depthOf (h : p.depthOf stack = some d) : d ≤ stack.length ∧ p.evalInner (stack.take d) stack = true := by
  have hmem := List.mem_of_find?_eq_some h
  have hfnd := List.find?_some h
  exact ⟨Nat.le_of_lt_succ (mem_range.mp (mem_reverse.mp hmem)), hfnd⟩

/-- A predicate holds of a stack when it is as deep as the stack. -/
theorem eval_iff : p.eval stack = true ↔ ∃ n ∈ p.depthOf stack, stack.length ≤ n := by
  constructor
  · intro h
    exact le_depthOf le_rfl (by rwa [take_length])
  · rintro ⟨n, hn, hle⟩
    obtain ⟨-, h⟩ := of_depthOf hn
    rwa [take_of_length_le hle] at h

end Depth

/-- What a superset has to do: it holds where the other one holds, and as deep. -/
def Sound (a b : KeyBindingContextPredicate) : Prop :=
  ∀ stack, (b.eval stack = true → a.eval stack = true) ∧ ∀ d ∈ b.depthOf stack, ∃ n ∈ a.depthOf stack, d ≤ n

theorem sound_of_depth (h : ∀ stack, ∀ d ∈ b.depthOf stack, ∃ n ∈ a.depthOf stack, d ≤ n) : Sound a b := by
  refine fun stack => ⟨fun hb => ?_, h _⟩
  obtain ⟨d, hd, hle⟩ := eval_iff.mp hb
  obtain ⟨n, hn, hle'⟩ := h _ d hd
  exact eval_iff.mpr ⟨n, hn, hle.trans hle'⟩

/-- The predicate holds at least as deep when there are other contexts around a stack that it holds of. -/
def Kept (p : KeyBindingContextPredicate) : Prop :=
  ∀ outer stack rest, outer ≠ [] → p.eval stack = true → ∃ n ∈ p.depthOf (outer ++ stack ++ rest), (outer ++ stack).length ≤ n

/-! ## What is found -/

section Eval

variable {parent child : KeyBindingContextPredicate} {contexts all : List KeyContext}

/-- Below the outermost match of the parent, the child sees the contexts below it only. -/
theorem evalInner_descendant : (descendant parent child).evalInner contexts all = true ↔
    ∃ i, i + 1 < contexts.length ∧ parent.evalInner (contexts.take (i + 1)) all = true ∧
      (∀ j < i, parent.evalInner (contexts.take (j + 1)) all = false) ∧
      child.evalInner (contexts.drop (i + 1)) (contexts.drop (i + 1)) = true := by
  rw [evalInner]
  constructor
  · intro h
    split at h
    · rename_i i hfind
      obtain ⟨hpar, hmem, hbef⟩ := List.find?_range_eq_some.mp hfind
      have := mem_range.mp hmem
      exact ⟨i, by omega, hpar, fun j hj => by simpa using hbef j hj, h⟩
    · cases h
  · rintro ⟨i, hlt, hpar, hbef, hchd⟩
    have hfind : ((List.range (contexts.length - 1)).find? fun i => parent.evalInner (contexts.take (i + 1)) all) = some i :=
      List.find?_range_eq_some.mpr ⟨hpar, mem_range.mpr (by omega), fun j hj => by simp [hbef j hj]⟩
    rw [hfind]
    exact hchd

/-- Nothing holds of no contexts. -/
theorem evalInner_nil (p : KeyBindingContextPredicate) (all : List KeyContext) : p.evalInner [] all = false := by
  induction p with
  | descendant parent child => rfl
  | and l r ihl _ => rw [evalInner, ihl, Bool.false_and]
  | or l r ihl ihr => rw [evalInner, ihl, ihr, Bool.or_self]
  | _ => rfl

end Eval

section Found

variable {nested : Bool} {a b p : KeyBindingContextPredicate} {contexts all : List KeyContext}

/-- The part is an alternative of the first predicate. -/
theorem Found.of_part (h : Found nested a b p) (hp : p.evalInner contexts all = true) : a.evalInner contexts all = true := by
  induction h with
  | same => exact hp
  | left _ _ ih => rw [evalInner, ih hp, Bool.true_or]
  | right _ _ ih => rw [evalInner, ih hp, Bool.or_true]
  | child _ _ _ ih => exact ih hp
  | andLeft _ _ _ ih => exact ih hp
  | andRight _ _ _ ih => exact ih hp

/-- Where the second predicate holds, the part holds, or it holds of what is left of the contexts below a parent. -/
theorem Found.part (h : Found nested a b p) (hb : b.evalInner contexts all = true) :
    nested = false ∧ p.evalInner contexts all = true ∨
      nested = true ∧ ∃ outer stack, outer ≠ [] ∧ contexts = outer ++ stack ∧ p.eval stack = true := by
  induction h generalizing contexts all with
  | same => exact .inl ⟨rfl, hb⟩
  | left _ _ ih => exact ih hb
  | right _ _ ih => exact ih hb
  | @child nested a parent child p _ _ _ ih =>
    obtain ⟨i, hlt, -, -, hchd⟩ := evalInner_descendant.mp hb
    have hne : contexts.take (i + 1) ≠ [] := by
      rw [← length_pos_iff, length_take]
      omega
    refine .inr ⟨rfl, ?_⟩
    rcases ih hchd with ⟨-, hp⟩ | ⟨-, outer, stack, -, heq, hp⟩
    · exact ⟨_, _, hne, (take_append_drop _ _).symm, hp⟩
    · refine ⟨contexts.take (i + 1) ++ outer, stack, by simp [hne], ?_, hp⟩
      rw [append_assoc, ← heq, take_append_drop]
  | andLeft _ _ _ ih =>
    rw [evalInner, Bool.and_eq_true] at hb
    exact ih hb.1
  | andRight _ _ _ ih =>
    rw [evalInner, Bool.and_eq_true] at hb
    exact ih hb.2

/-- What is found makes the first predicate a superset, if it is not below a parent or is kept. -/
theorem Found.sound (h : Found nested a b p) (hkept : nested = true → Kept p) : Sound a b := by
  refine sound_of_depth fun stack d hd => ?_
  obtain ⟨hle, hb⟩ := of_depthOf hd
  rcases h.part hb with ⟨-, hp⟩ | ⟨hnest, outer, inner, hne, heq, hp⟩
  · exact le_depthOf hle (h.of_part hp)
  · have hsta : outer ++ inner ++ stack.drop d = stack := by rw [← heq, take_append_drop]
    obtain ⟨n, hn, hlen⟩ := hkept hnest _ _ _ hne hp
    rw [hsta] at hn
    obtain ⟨hn, hp⟩ := of_depthOf hn
    obtain ⟨m, hm, hle'⟩ := le_depthOf hn (h.of_part hp)
    refine ⟨m, hm, ?_⟩
    rw [← heq, length_take_of_le hle] at hlen
    exact hlen.trans hle'

end Found

/-! ## What is kept -/

/-- Without negations. -/
def notFree : KeyBindingContextPredicate → Bool
  | identifier _ | equal _ _ | notEqual _ _ => true
  | not _ => false
  | descendant l r | and l r | or l r => l.notFree && r.notFree

theorem getLast?_append_of_ne_nil {α : Type} (l : List α) {r : List α} (h : r ≠ []) : (l ++ r).getLast? = r.getLast? := by
  rw [List.getLast?_append, List.getLast?_eq_some_getLast h, Option.some_or]

/-- Without negations, more contexts outside never hurt: the parent's match may move out, and the child sees more contexts. -/
theorem evalInner_append_of_notFree (h : p.notFree = true) {all : List KeyContext}
    (hp : p.evalInner stack all = true) (outer all' : List KeyContext) : p.evalInner (outer ++ stack) all' = true := by
  have hne : stack ≠ [] := by
    rintro rfl
    rw [evalInner_nil] at hp
    cases hp
  induction p generalizing stack all outer all' with
  | identifier name | equal left right | notEqual left right => rwa [evalInner, getLast?_append_of_ne_nil _ hne]
  | not p => cases h
  | and l r ihl ihr =>
    rw [notFree, Bool.and_eq_true] at h
    rw [evalInner, Bool.and_eq_true] at hp ⊢
    exact ⟨ihl h.1 hp.1 _ all' hne, ihr h.2 hp.2 _ all' hne⟩
  | or l r ihl ihr =>
    rw [notFree, Bool.and_eq_true] at h
    rw [evalInner, Bool.or_eq_true] at hp ⊢
    exact hp.imp (fun hl => ihl h.1 hl _ all' hne) fun hr => ihr h.2 hr _ all' hne
  | descendant parent child ihp ihc =>
    rw [notFree, Bool.and_eq_true] at h
    obtain ⟨i, hlt, hpar, -, hchd⟩ := evalInner_descendant.mp hp
    have htake : (outer ++ stack).take (outer.length + i + 1) = outer ++ stack.take (i + 1) := by
      rw [Nat.add_assoc, take_length_add_append]
    have hmat : ∃ i', parent.evalInner ((outer ++ stack).take (i' + 1)) all' = true := by
      refine ⟨outer.length + i, ?_⟩
      rw [htake]
      exact ihp h.1 hpar _ all' (by rw [← length_pos_iff, length_take]; omega)
    -- the outermost match is the same one or further out
    have hle : Nat.find hmat ≤ outer.length + i := by
      refine Nat.find_min' _ ?_
      rw [htake]
      exact ihp h.1 hpar _ all' (by rw [← length_pos_iff, length_take]; omega)
    refine evalInner_descendant.mpr ⟨Nat.find _, by rw [length_append]; omega, Nat.find_spec hmat,
      fun j hj => by simpa using Nat.find_min _ hj, ?_⟩
    have hdrop : (outer ++ stack).drop (Nat.find hmat + 1) =
        ((outer ++ stack).drop (Nat.find hmat + 1)).take (outer.length + i - Nat.find hmat) ++ stack.drop (i + 1) := by
      conv_lhs => rw [← take_append_drop (outer.length + i - Nat.find hmat) ((outer ++ stack).drop _)]
      rw [drop_drop, show Nat.find hmat + 1 + (outer.length + i - Nat.find hmat) = outer.length + (i + 1) by omega,
        drop_length_add_append]
    rw [hdrop]
    exact ihc h.2 hchd _ _ (by rw [← length_pos_iff, length_drop]; omega)

theorem kept_of_notFree (h : p.notFree = true) : Kept p := by
  intro outer stack rest _ hp
  refine le_depthOf (by simp only [length_append]; omega) ?_
  rw [take_left]
  exact evalInner_append_of_notFree h hp _ _

/-! ## What is not kept -/

/-- The names that a predicate looks at. -/
def names : KeyBindingContextPredicate → List String
  | identifier name => [name]
  | equal left _ | notEqual left _ => [left]
  | not p => p.names
  | descendant l r | and l r | or l r => l.names ++ r.names

/-- Two contexts in which the names mean the same. -/
def Agree (names : List String) (c c' : KeyContext) : Prop :=
  ∀ name ∈ names, c.contains name = c'.contains name ∧ c.get name = c'.get name

section Agree

variable {α : Type} (f g : α → KeyContext)

theorem any_getLast?_congr {l : List α} {p : KeyContext → Bool} (h : ∀ x ∈ l, p (f x) = p (g x)) :
    (l.map f).getLast?.any p = (l.map g).getLast?.any p := by
  rw [List.getLast?_map, List.getLast?_map]
  cases hlast : l.getLast? with
  | none => rfl
  | some x => exact h x (List.mem_of_getLast? hlast)

/-- A predicate looks at its names only. -/
theorem evalInner_congr (p : KeyBindingContextPredicate) {l all : List α} (hl : ∀ x ∈ l, Agree p.names (f x) (g x))
    (hall : ∀ x ∈ all, Agree p.names (f x) (g x)) :
    p.evalInner (l.map f) (all.map f) = p.evalInner (l.map g) (all.map g) := by
  induction p generalizing l all with
  | identifier name => exact any_getLast?_congr f g fun x hx => (hl x hx name mem_cons_self).1
  | equal left right | notEqual left right =>
    exact any_getLast?_congr f g fun x hx => by rw [(hl x hx left mem_cons_self).2]
  | not p ih =>
    have hsame (i : Nat) : p.evalInner ((all.map f).take i) (all.map f) = p.evalInner ((all.map g).take i) (all.map g) := by
      rw [← map_take, ← map_take]
      exact ih (fun x hx => hall x (mem_of_mem_take hx)) hall
    simp only [evalInner, isEmpty_map, length_map, hsame]
  | and l r ihl ihr | or l r ihl ihr =>
    simp only [names, Agree, mem_append] at hl hall
    rw [evalInner, evalInner, ihl (fun x hx n hn => hl x hx n (.inl hn)) fun x hx n hn => hall x hx n (.inl hn),
      ihr (fun x hx n hn => hl x hx n (.inr hn)) fun x hx n hn => hall x hx n (.inr hn)]
  | descendant parent child ihp ihc =>
    simp only [names, Agree, mem_append] at hl hall
    have hpar (i : Nat) : parent.evalInner ((l.map f).take i) (all.map f) = parent.evalInner ((l.map g).take i) (all.map g) := by
      rw [← map_take, ← map_take]
      exact ihp (fun x hx n hn => hl x (mem_of_mem_take hx) n (.inl hn)) fun x hx n hn => hall x hx n (.inl hn)
    have hchd (i : Nat) : child.evalInner ((l.map f).drop i) ((l.map f).drop i) =
        child.evalInner ((l.map g).drop i) ((l.map g).drop i) := by
      rw [← map_drop, ← map_drop]
      exact ihc (fun x hx n hn => hl x (mem_of_mem_drop hx) n (.inr hn)) fun x hx n hn =>
        hl x (mem_of_mem_drop hx) n (.inr hn)
    simp only [evalInner, length_map, hpar, hchd]

theorem depthOf_congr (p : KeyBindingContextPredicate) {l : List α} (hl : ∀ x ∈ l, Agree p.names (f x) (g x)) :
    p.depthOf (l.map f) = p.depthOf (l.map g) := by
  have hsame (i : Nat) : p.evalInner ((l.map f).take i) (l.map f) = p.evalInner ((l.map g).take i) (l.map g) := by
    rw [← map_take, ← map_take]
    exact evalInner_congr f g p (fun x hx => hl x (mem_of_mem_take hx)) hl
  simp only [depthOf, length_map, hsame]

end Agree

/-- A context that is told by a name. -/
def mark (name : String) (c : KeyContext) : KeyContext := ⟨c.entries ++ [⟨name, none⟩]⟩

theorem contains_mark (name : String) (c : KeyContext) : (mark name c).contains name = true := by
  simp [mark, KeyContext.contains]

theorem agree_mark {names : List String} {name : String} (h : name ∉ names) (c : KeyContext) : Agree names c (mark name c) := by
  intro other hoth
  have hne : name ≠ other := fun heq => h (heq ▸ hoth)
  constructor
  · simp [mark, KeyContext.contains, hne]
  · rw [KeyContext.get, KeyContext.get, mark, List.find?_append, List.find?_cons_of_neg (by simpa using hne), List.find?_nil,
      Option.or_none]

/-- A name that is not used by a predicate and by none of the contexts. -/
theorem exists_fresh (p : KeyBindingContextPredicate) (contexts : List KeyContext) :
    ∃ name, name ∉ p.names ∧ ∀ c ∈ contexts, c.contains name = false := by
  let used := p.names ++ contexts.flatMap fun c => c.entries.map ContextEntry.key
  obtain ⟨name, hname⟩ := Infinite.exists_notMem_finset used.toFinset
  rw [mem_toFinset, mem_append, not_or] at hname
  refine ⟨name, hname.1, fun c hc => ?_⟩
  rw [KeyContext.contains, any_eq_false]
  intro entry hent heq
  exact hname.2 (mem_flatMap.mpr ⟨c, hc, mem_map.mpr ⟨entry, hent, beq_iff_eq.mp heq⟩⟩)

/-- A parent that is told by its name. -/
theorem eval_child_of_mark {name : String} {init : List KeyContext} (c : KeyContext)
    (hname : ∀ c ∈ init, c.contains name = false) (hp : p.eval stack = true) (all : List KeyContext) :
    (descendant (identifier name) p).evalInner (init ++ mark name c :: stack) all = true := by
  have hne : 0 < stack.length := by
    refine length_pos_iff.mpr ?_
    rintro rfl
    rw [eval, evalInner_nil] at hp
    cases hp
  refine evalInner_descendant.mpr ⟨init.length, by simp only [length_append, length_cons]; omega, ?_, fun j hj => ?_, ?_⟩
  · rw [take_length_add_append, evalInner, List.getLast?_append]
    exact contains_mark name c
  · rw [take_append_of_le_length hj, evalInner]
    cases hlast : (init.take _).getLast? with
    | none => rfl
    | some c => exact hname c (mem_of_mem_take (List.mem_of_getLast? hlast))
  · rw [drop_length_add_append]
    exact hp

/-- The part has to be kept for `is_superset` to be sound wherever it finds the part below a parent. -/
theorem kept_of_sound (h : ∀ parent, Sound p (descendant parent p)) : Kept p := by
  intro outer stack rest hne hp
  obtain ⟨init, c, rfl⟩ : ∃ init c, outer = init ++ [c] := ⟨_, _, (dropLast_append_getLast hne).symm⟩
  obtain ⟨name, hname, hfre⟩ := exists_fresh p init
  let plain : List KeyContext → List (KeyContext × Bool) := List.map fun c => (c, false)
  let marked : KeyContext × Bool → KeyContext := fun x => if x.2 then mark name x.1 else x.1
  let l := plain init ++ (c, true) :: (plain stack ++ plain rest)
  have hfst : l.map Prod.fst = init ++ [c] ++ stack ++ rest := by simp [l, plain, Function.comp_def]
  have hmark : l.map marked = init ++ mark name c :: stack ++ rest := by simp [l, plain, marked, Function.comp_def]
  have hdep : p.depthOf (init ++ [c] ++ stack ++ rest) = p.depthOf (init ++ mark name c :: stack ++ rest) := by
    rw [← hfst, ← hmark]
    refine depthOf_congr _ _ p fun x _ => ?_
    dsimp only [marked]
    split
    · exact agree_mark hname x.1
    · exact fun other _ => ⟨rfl, rfl⟩
  have htake : (init ++ mark name c :: stack ++ rest).take (init ++ [c] ++ stack).length = init ++ mark name c :: stack := by
    refine take_left' ?_
    simp only [length_append, length_cons, length_nil]
    omega
  have hchd : (descendant (identifier name) p).evalInner
      ((init ++ mark name c :: stack ++ rest).take (init ++ [c] ++ stack).length) (init ++ mark name c :: stack ++ rest) = true := by
    rw [htake]
    exact eval_child_of_mark c hfre hp _
  obtain ⟨d, hd, hle⟩ := le_depthOf (by simp only [length_append, length_cons, length_nil]; omega) hchd
  obtain ⟨n, hn, hle'⟩ := (h _ _).2 d hd
  rw [hdep]
  exact ⟨n, hn, hle.trans hle'⟩

theorem found_descendant (hor : p.isOr = false) (parent : KeyBindingContextPredicate) : Found true p (descendant parent p) p := by
  refine .child hor (fun heq => ?_) (.same p)
  have hsize := congrArg sizeOf heq
  rw [descendant.sizeOf_spec] at hsize
  omega

/-- What a predicate other than a disjunction is found to have in common with another one is the predicate itself. -/
theorem Found.eq_of_isOr (h : Found nested a b p) (hor : a.isOr = false) : p = a := by
  induction h with
  | same => rfl
  | left | right => cases hor
  | child _ _ _ ih | andLeft _ _ _ ih | andRight _ _ _ ih => exact ih hor

/-- A disjunction is not found below a parent. -/
theorem Found.isOr_of_nested (h : Found true a b p) : p.isOr = false := by
  generalize hnest : true = nested at h
  induction h with
  | same => cases hnest
  | left _ _ ih | right _ _ ih => exact ih hnest
  | child hor _ h _ | andLeft hor _ h _ | andRight hor _ h _ => rwa [h.eq_of_isOr hor]

/-- Exactly the parts that are kept can be found below a parent. -/
theorem sound_iff_kept (nested : Bool) (p : KeyBindingContextPredicate) :
    (∀ a b, Found nested a b p → Sound a b) ↔ (nested = true → p.isOr = false → Kept p) := by
  constructor
  · rintro h rfl hor
    exact kept_of_sound fun parent => h _ _ (found_descendant hor _)
  · intro h a b hfnd
    refine hfnd.sound ?_
    rintro rfl
    exact h rfl hfnd.isOr_of_nested

end Wu.Gpui.KeyBindingContextPredicate
