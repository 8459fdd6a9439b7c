import Mathlib.Data.List.Basic

/-!
# Comparisons that may go in circles

A comparison that is fair to both sides, and to items that compare equal, is an order unless three items are in a circle, each of them
less than the next one. When comparisons are made one after another, or along lists, a circle is one of the first comparison that does
not find all three equal.
-/

namespace Wu.Circles

open Ordering

universe u v

variable {α : Type u} {β : Type v}

/-- A comparison that gives the opposite result for swapped items, and the same one for items that compare equal. -/
structure IsTournament (cmp : α → α → Ordering) : Prop where
  swap : ∀ a b, cmp a b = (cmp b a).swap
  congr : ∀ a b c, cmp a b = .eq → cmp a c = cmp b c

/-- Three items each of which is less than the next one. -/
def IsCircle (cmp : α → α → Ordering) (a b c : α) : Prop := cmp a b = .lt ∧ cmp b c = .lt ∧ cmp c a = .lt

/-- What an order does for three items: the first one is equal to itself, swapping the first two reverses the result, and the
comparison is transitive. -/
structure OrderedAt (cmp : α → α → Ordering) (a b c : α) : Prop where
  self : cmp a a = .eq
  swap : cmp a b = (cmp b a).swap
  le_trans : (cmp a b).isLE → (cmp b c).isLE → (cmp a c).isLE
  lt_trans : cmp a b = .lt → cmp b c = .lt → cmp a c = .lt
  eq_trans : cmp a b = .eq → cmp b c = .eq → cmp a c = .eq

/-- Three items that compare equal. -/
def Alike (cmp : α → α → Ordering) (a b c : α) : Prop := cmp a b = .eq ∧ cmp b c = .eq ∧ cmp c a = .eq

namespace IsTournament

variable {cmp cmp' : α → α → Ordering}

section

variable (h : IsTournament cmp)
include h

theorem self (a : α) : cmp a a = .eq := by
  have hswap := h.swap a a
  cases hself : cmp a a with
  | eq => rfl
  | lt =>
    rw [hself] at hswap
    cases hswap
  | gt =>
    rw [hself] at hswap
    cases hswap

theorem gt_iff {a b : α} : cmp a b = .gt ↔ cmp b a = .lt := by
  rw [h.swap, swap_eq_gt]

theorem congr_right {a b : α} (c : α) (heq : cmp a b = .eq) : cmp c a = cmp c b := by
  rw [h.swap, h.congr a b c heq, ← h.swap]

/-- A comparison is transitive but for circles. -/
theorem trans_iff (a b c : α) : ((cmp a b).isLE → (cmp b c).isLE → (cmp a c).isLE) ↔ ¬IsCircle cmp a b c := by
  refine ⟨fun htran ⟨hab, hbc, hca⟩ => ?_, fun hcir hab hbc => ?_⟩
  · have hle := htran (by rw [hab]; rfl) (by rw [hbc]; rfl)
    rw [h.gt_iff.mpr hca] at hle
    cases hle
  · cases hab' : cmp a b with
    | eq => rwa [h.congr a b c hab']
    | gt =>
      rw [hab'] at hab
      cases hab
    | lt =>
      cases hbc' : cmp b c with
      | eq => rw [← h.congr_right a hbc', hab']; rfl
      | gt =>
        rw [hbc'] at hbc
        cases hbc
      | lt =>
        cases hac : cmp a c with
        | eq => rfl
        | lt => rfl
        | gt => exact absurd ⟨hab', hbc', h.gt_iff.mp hac⟩ hcir

/-- A comparison is an order of three items unless these are in a circle. -/
theorem orderedAt_iff (a b c : α) : OrderedAt cmp a b c ↔ ¬IsCircle cmp a b c := by
  refine ⟨fun hord => (h.trans_iff a b c).mp hord.le_trans, fun hcir => ?_⟩
  refine ⟨h.self a, h.swap a b, (h.trans_iff a b c).mpr hcir, fun hab hbc => ?_, fun hab hbc => ?_⟩
  · cases hac : cmp a c with
    | lt => rfl
    | gt => exact absurd ⟨hab, hbc, h.gt_iff.mp hac⟩ hcir
    | eq =>
      rw [h.congr a c b hac, h.gt_iff.mpr hbc] at hab
      cases hab
  · rw [h.congr a b c hab, hbc]

end

/-- An order is a comparison without circles. -/
theorem of_transCmp [Std.TransCmp cmp] : IsTournament cmp :=
  ⟨fun _ _ => Std.OrientedCmp.eq_swap, fun _ _ _ heq => Std.TransCmp.congr_left heq⟩

theorem not_circle [Std.TransCmp cmp] (a b c : α) : ¬IsCircle cmp a b c := fun ⟨hab, hbc, hca⟩ =>
  Std.OrientedCmp.not_lt_of_lt (Std.TransCmp.lt_trans hab hbc) hca

/-- Items are compared by what a function makes of them. -/
theorem comap (h : IsTournament cmp) (f : β → α) : IsTournament fun a b => cmp (f a) (f b) :=
  ⟨fun _ _ => h.swap _ _, fun _ _ _ heq => h.congr _ _ _ heq⟩

/-- Two comparisons one after the other. -/
theorem thenCmp (h : IsTournament cmp) (h' : IsTournament cmp') : IsTournament fun a b => (cmp a b).then (cmp' a b) := by
  refine ⟨fun a b => ?_, fun a b c heq => ?_⟩
  · rw [h.swap, h'.swap, swap_then]
  · obtain ⟨heq, heq'⟩ := then_eq_eq.mp heq
    rw [h.congr a b c heq, h'.congr a b c heq']

/-- Items in a circle, none of which is greater than the next one: they are all alike, or each of them is less. -/
theorem alike_or_circle (h : IsTournament cmp) {a b c : α} (hab : (cmp a b).isLE) (hbc : (cmp b c).isLE) (hca : (cmp c a).isLE) :
    Alike cmp a b c ∨ IsCircle cmp a b c := by
  have hlt : ∀ {x y z : α}, cmp x y = .lt → (cmp y z).isLE → (cmp z x).isLE → cmp y z = .lt := by
    intro x y z hxy hyz hzx
    cases hyz' : cmp y z with
    | lt => rfl
    | gt =>
      rw [hyz'] at hyz
      cases hyz
    | eq =>
      rw [← h.congr y z x hyz', h.gt_iff.mpr hxy] at hzx
      cases hzx
  have heq : ∀ {x y : α}, (cmp x y).isLE → cmp x y ≠ .lt → cmp x y = .eq := by
    intro x y hle hne
    cases hxy : cmp x y with
    | eq => rfl
    | lt => exact absurd hxy hne
    | gt =>
      rw [hxy] at hle
      cases hle
  by_cases h1 : cmp a b = .lt
  · have h2 := hlt h1 hbc hca
    exact .inr ⟨h1, h2, hlt h2 hca hab⟩
  by_cases h2 : cmp b c = .lt
  · have h3 := hlt h2 hca hab
    exact absurd (hlt h3 hab hbc) h1
  by_cases h3 : cmp c a = .lt
  · exact absurd (hlt h3 hab hbc) h1
  exact .inl ⟨heq hab h1, heq hbc h2, heq hca h3⟩

theorem circle_then_iff (h : IsTournament cmp) (a b c : α) :
    IsCircle (fun a b => (cmp a b).then (cmp' a b)) a b c ↔ IsCircle cmp a b c ∨ Alike cmp a b c ∧ IsCircle cmp' a b c := by
  refine ⟨fun ⟨hab, hbc, hca⟩ => ?_, ?_⟩
  · have hle : ∀ {x y : α}, (cmp x y).then (cmp' x y) = .lt → (cmp x y).isLE := fun hxy =>
      isLE_left_of_isLE_then (by rw [hxy]; rfl)
    have hsec : ∀ {x y : α}, cmp x y = .eq → (cmp x y).then (cmp' x y) = .lt → cmp' x y = .lt := fun heq hxy => by
      rwa [heq] at hxy
    obtain hali | hcir := h.alike_or_circle (hle hab) (hle hbc) (hle hca)
    · exact .inr ⟨hali, hsec hali.1 hab, hsec hali.2.1 hbc, hsec hali.2.2 hca⟩
    · exact .inl hcir
  · rintro (⟨hab, hbc, hca⟩ | ⟨⟨hab, hbc, hca⟩, hcir⟩)
    · refine ⟨?_, ?_, ?_⟩
      · show (cmp a b).then _ = _
        rw [hab]
        rfl
      · show (cmp b c).then _ = _
        rw [hbc]
        rfl
      · show (cmp c a).then _ = _
        rw [hca]
        rfl
    · refine ⟨?_, ?_, ?_⟩
      · show (cmp a b).then _ = _
        rw [hab]
        exact hcir.1
      · show (cmp b c).then _ = _
        rw [hbc]
        exact hcir.2.1
      · show (cmp c a).then _ = _
        rw [hca]
        exact hcir.2.2

/-- Circles are those of the second comparison when the first one is an order. -/
theorem circle_order_then_iff [Std.TransCmp cmp] (a b c : α) :
    IsCircle (fun a b => (cmp a b).then (cmp' a b)) a b c ↔ Alike cmp a b c ∧ IsCircle cmp' a b c := by
  rw [of_transCmp.circle_then_iff]
  exact or_iff_right (not_circle a b c)

/-- Circles are those of the first comparison when the second one is an order. -/
theorem circle_then_order_iff [Std.TransCmp cmp'] (h : IsTournament cmp) (a b c : α) :
    IsCircle (fun a b => (cmp a b).then (cmp' a b)) a b c ↔ IsCircle cmp a b c := by
  rw [h.circle_then_iff]
  exact or_iff_left fun hcir => not_circle a b c hcir.2

/-- A comparison with an order before and an order behind it. -/
theorem circle_between_iff {front back : α → α → Ordering} [Std.TransCmp front] [Std.TransCmp back] (h : IsTournament cmp)
    (a b c : α) :
    IsCircle (fun a b => (front a b).then ((cmp a b).then (back a b))) a b c ↔ Alike front a b c ∧ IsCircle cmp a b c := by
  refine (circle_order_then_iff a b c).trans (and_congr_right fun _ => ?_)
  exact h.circle_then_order_iff a b c

/-! ## Lists -/

/-- Lists are compared item by item. -/
theorem list (h : IsTournament cmp) : IsTournament (List.compareLex cmp) := by
  refine ⟨fun as bs => ?_, fun as bs cs heq => ?_⟩
  · induction as generalizing bs with
    | nil => cases bs <;> rfl
    | cons a as ih =>
      cases bs with
      | nil => rfl
      | cons b bs => rw [List.compareLex_cons_cons, List.compareLex_cons_cons, swap_then, ← h.swap, ← ih]
  · induction as generalizing bs cs with
    | nil =>
      cases bs with
      | nil => rfl
      | cons b bs => cases heq
    | cons a as ih =>
      cases bs with
      | nil => cases heq
      | cons b bs =>
        rw [List.compareLex_cons_cons] at heq
        obtain ⟨hab, hrest⟩ := then_eq_eq.mp heq
        cases cs with
        | nil => rfl
        | cons c cs => rw [List.compareLex_cons_cons, List.compareLex_cons_cons, h.congr a b c hab, ih bs cs hrest]

end IsTournament

/-- Lists with places that are alike, up to one that is what is looked for. -/
inductive First (same found : α → α → α → Prop) : List α → List α → List α → Prop
  | here {a b c : α} (as bs cs : List α) : found a b c → First same found (a :: as) (b :: bs) (c :: cs)
  | there {a b c : α} {as bs cs : List α} :
      same a b c → First same found as bs cs → First same found (a :: as) (b :: bs) (c :: cs)

theorem First.mono {same found same' found' : α → α → α → Prop} (hsame : ∀ a b c, same a b c → same' a b c)
    (hfnd : ∀ a b c, found a b c → found' a b c) {as bs cs : List α} (h : First same found as bs cs) :
    First same' found' as bs cs := by
  induction h with
  | here as bs cs h => exact .here as bs cs (hfnd _ _ _ h)
  | there h _ ih => exact .there (hsame _ _ _ h) ih

theorem First.iff {same found same' found' : α → α → α → Prop} (hsame : ∀ a b c, same a b c ↔ same' a b c)
    (hfnd : ∀ a b c, found a b c ↔ found' a b c) (as bs cs : List α) :
    First same found as bs cs ↔ First same' found' as bs cs :=
  ⟨First.mono (fun a b c => (hsame a b c).mp) fun a b c => (hfnd a b c).mp,
    First.mono (fun a b c => (hsame a b c).mpr) fun a b c => (hfnd a b c).mpr⟩

/-- Lists are in a circle when the first of their items that are not all alike are. -/
theorem IsTournament.circle_list_iff {cmp : α → α → Ordering} (h : IsTournament cmp) (as bs cs : List α) :
    IsCircle (List.compareLex cmp) as bs cs ↔ First (Alike cmp) (IsCircle cmp) as bs cs := by
  refine ⟨fun hcir => ?_, fun hfst => ?_⟩
  · induction as generalizing bs cs with
    | nil =>
      obtain ⟨-, -, hca⟩ := hcir
      cases cs <;> cases hca
    | cons a as ih =>
      cases bs with
      | nil => cases hcir.1
      | cons b bs =>
        cases cs with
        | nil => cases hcir.2.1
        | cons c cs =>
          obtain ⟨hab, hbc, hca⟩ := hcir
          rw [List.compareLex_cons_cons] at hab hbc hca
          have hle : ∀ {x y : Ordering}, x.then y = .lt → x.isLE := fun hxy =>
            isLE_left_of_isLE_then (by rw [hxy]; rfl)
          obtain hali | hhead := h.alike_or_circle (hle hab) (hle hbc) (hle hca)
          · rw [hali.1] at hab
            rw [hali.2.1] at hbc
            rw [hali.2.2] at hca
            exact .there hali (ih bs cs ⟨hab, hbc, hca⟩)
          · exact .here as bs cs hhead
  · induction hfst with
    | here as bs cs hcir =>
      obtain ⟨hab, hbc, hca⟩ := hcir
      refine ⟨?_, ?_, ?_⟩
      · rw [List.compareLex_cons_cons, hab]
        rfl
      · rw [List.compareLex_cons_cons, hbc]
        rfl
      · rw [List.compareLex_cons_cons, hca]
        rfl
    | there hali _ ih =>
      obtain ⟨hab, hbc, hca⟩ := hali
      refine ⟨?_, ?_, ?_⟩
      · rw [List.compareLex_cons_cons, hab]
        exact ih.1
      · rw [List.compareLex_cons_cons, hbc]
        exact ih.2.1
      · rw [List.compareLex_cons_cons, hca]
        exact ih.2.2

/-- Lists compare equal when what their items are compared by is equal. -/
theorem compareLex_eq_iff {γ : Type v} {cmp : α → α → Ordering} {key : α → γ} (h : ∀ a b, cmp a b = .eq ↔ key a = key b)
    (as bs : List α) : List.compareLex cmp as bs = .eq ↔ as.map key = bs.map key := by
  induction as generalizing bs with
  | nil =>
    cases bs with
    | nil => exact ⟨fun _ => rfl, fun _ => rfl⟩
    | cons b bs => exact ⟨nofun, nofun⟩
  | cons a as ih =>
    cases bs with
    | nil => exact ⟨nofun, nofun⟩
    | cons b bs => rw [List.compareLex_cons_cons, then_eq_eq, h, ih, List.map_cons, List.map_cons, List.cons_eq_cons]

/-- Three items that compare equal are those with the same key. -/
theorem alike_iff {γ : Type v} {cmp : α → α → Ordering} {key : α → γ} (h : ∀ a b, cmp a b = .eq ↔ key a = key b)
    (a b c : α) : Alike cmp a b c ↔ key a = key b ∧ key b = key c := by
  rw [Alike, h, h, h]
  exact ⟨fun hkeys => ⟨hkeys.1, hkeys.2.1⟩, fun hkeys => ⟨hkeys.1, hkeys.2, (hkeys.1.trans hkeys.2).symm⟩⟩

end Wu.Circles
