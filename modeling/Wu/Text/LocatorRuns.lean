import Wu.Text.Locator

/-!
# Locators without renumbering

`Locator::between` over whole runs: new locators are put between neighbours, again and again, and none is ever renumbered.
-/

namespace Wu.Locator

open List

/-- A locator whose digits fit into 64 bits. -/
def Fits (self : Locator) : Prop := ∀ digit ∈ self.digits, digit ≤ maxDigit

/-- A locator that is another one with nothing but zeros behind it. -/
def Pads (lhs rhs : Locator) : Prop := ∃ n, rhs.digits = lhs.digits ++ replicate n 0

theorem fits_between {lhs rhs : Locator} (hl : lhs.Fits) (hr : rhs.Fits) : (between lhs rhs).Fits :=
  betweenDigits_le le_rfl _ _ hl hr

theorem between_lt_of_not_pads {lhs rhs : Locator} (h : lhs < rhs) (hpad : ¬Pads lhs rhs) : between lhs rhs < rhs :=
  betweenDigits_lt _ _ h fun n hn => hpad ⟨n, hn⟩

/-- The locators that insertions between neighbours make, from the smallest and the largest one on. -/
inductive Inserted : List Locator → Prop
  | start : Inserted [min, max]
  | insert {front rest : List Locator} {a b : Locator} (h : Inserted (front ++ a :: b :: rest)) (hlt : a < b) :
      Inserted (front ++ a :: between a b :: b :: rest)

/-- What every insertion keeps: the smallest locator is first and the largest one last, they are in order, and all but the first
end in a digit that is not `0`. -/
structure Ordered (locators : List Locator) : Prop where
  bounds : ∃ inner, locators = min :: inner ++ [max]
  sorted : locators.Pairwise (· < ·)
  ends : ∀ locator ∈ locators.tail, locator.Ends
  fits : ∀ locator ∈ locators, locator.Fits

theorem ordered_start : Ordered [min, max] where
  bounds := ⟨[], rfl⟩
  sorted := by simpa using min_lt ends_max
  ends := by simpa using ends_max
  fits := by simp [Fits, min, max]

variable {front rest locators : List Locator} {a b c : Locator}

/-- A locator put between two neighbours of a sorted list. -/
theorem sorted_insert (h : (front ++ a :: b :: rest).Pairwise (· < ·)) (ha : a < c) (hb : c < b) :
    (front ++ a :: c :: b :: rest).Pairwise (· < ·) := by
  rw [pairwise_append] at h ⊢
  obtain ⟨hfro, htail, hcros⟩ := h
  obtain ⟨habo, hrest⟩ := pairwise_cons.1 htail
  obtain ⟨hbel, -⟩ := pairwise_cons.1 hrest
  refine ⟨hfro, ?_, fun x hx y hy => ?_⟩
  · refine pairwise_cons.2 ⟨fun y hy => ?_, pairwise_cons.2 ⟨fun y hy => ?_, hrest⟩⟩
    · rcases mem_cons.1 hy with rfl | hy
      · exact ha
      · exact habo y hy
    · rcases mem_cons.1 hy with rfl | hy
      · exact hb
      · exact hb.trans (hbel y hy)
  · rcases mem_cons.1 hy with rfl | hy
    · exact hcros x hx _ mem_cons_self
    · rcases mem_cons.1 hy with rfl | hy
      · exact (hcros x hx a mem_cons_self).trans ha
      · exact hcros x hx y (.tail _ hy)

/-- The second of two neighbours is not the first of the list. -/
theorem mem_tail_append : b ∈ (front ++ a :: b :: rest).tail := by
  cases front <;> simp

theorem mem_tail_insert {x : Locator} (hx : x ∈ (front ++ a :: c :: b :: rest).tail) :
    x = c ∨ x ∈ (front ++ a :: b :: rest).tail := by
  cases front with
  | nil => simpa using hx
  | cons first front =>
    simp only [cons_append, tail_cons, mem_append, mem_cons] at hx ⊢
    tauto

/-- The first and the last stay where they are. -/
theorem bounds_insert (h : ∃ inner, front ++ a :: b :: rest = min :: inner ++ [max]) :
    ∃ inner, front ++ a :: c :: b :: rest = min :: inner ++ [max] := by
  obtain ⟨inner, heq⟩ := h
  have hlast : ∃ init, b :: rest = init ++ [max] := by
    rcases eq_nil_or_concat (b :: rest) with hnil | ⟨init, last, hinit⟩
    · nomatch hnil
    · rw [concat_eq_append] at hinit
      refine ⟨init, ?_⟩
      rw [hinit, ← cons_append, ← append_assoc] at heq
      rw [hinit, append_inj_right' heq rfl]
  obtain ⟨init, hinit⟩ := hlast
  rw [hinit]
  cases front with
  | nil => exact ⟨c :: init, by rw [← (List.cons.inj heq).1]; rfl⟩
  | cons first front => exact ⟨front ++ a :: c :: init, by rw [← (List.cons.inj heq).1]; simp⟩

/-- One insertion. -/
theorem Ordered.insert (h : Ordered (front ++ a :: b :: rest)) (hlt : a < b) :
    Ordered (front ++ a :: between a b :: b :: rest) where
  bounds := bounds_insert h.bounds
  sorted := sorted_insert h.sorted (lt_between a b) (between_lt hlt (h.ends b mem_tail_append))
  ends := by
    intro x hx
    rcases mem_tail_insert hx with rfl | hx
    · exact ends_between a b
    · exact h.ends x hx
  fits := by
    intro x hx
    have hab : (between a b).Fits := fits_between (h.fits a (by simp)) (h.fits b (by simp))
    simp only [mem_append, mem_cons] at hx
    rcases hx with hx | rfl | rfl | rfl | hx
    · exact h.fits x (by simp [hx])
    · exact h.fits _ (by simp)
    · exact hab
    · exact h.fits _ (by simp)
    · exact h.fits x (by simp [hx])

/-- Every run of insertions. -/
theorem Inserted.ordered (h : Inserted locators) : Ordered locators := by
  induction h with
  | start => exact ordered_start
  | insert _ hlt ih => exact ih.insert hlt

/-- In a sorted list everything between the first and the last is strictly between them. -/
theorem Ordered.strictly_between (h : Ordered locators) {inner : List Locator} (heq : locators = min :: inner ++ [max]) :
    ∀ locator ∈ inner, min < locator ∧ locator < max := by
  intro x hx
  have hsort := h.sorted
  rw [heq] at hsort
  obtain ⟨hinit, -, hcros⟩ := pairwise_append.1 hsort
  exact ⟨(pairwise_cons.1 hinit).1 x hx, hcros x (.tail _ hx) max (by simp)⟩

/-- There is always a locator between two, unless the larger one is the smaller one with zeros behind it; it ends in a digit that
is not `0`. So insertions between neighbours keep all locators in order and strictly between the smallest and the largest one, and
no digit overflows. -/
theorem dense_without_renumbering :
    (∀ lhs rhs : Locator, lhs.Fits → rhs.Fits → lhs < rhs → ¬Pads lhs rhs →
      lhs < between lhs rhs ∧ between lhs rhs < rhs ∧ (between lhs rhs).Ends ∧ (between lhs rhs).Fits) ∧
    ∀ locators, Inserted locators →
      locators.Pairwise (· < ·) ∧ (∀ locator ∈ locators, locator.Fits) ∧
        ∃ inner, locators = min :: inner ++ [max] ∧ ∀ locator ∈ inner, min < locator ∧ locator < max := by
  constructor
  · intro lhs rhs hl hr hlt hpad
    exact ⟨lt_between lhs rhs, between_lt_of_not_pads hlt hpad, ends_between lhs rhs, fits_between hl hr⟩
  · intro locators h
    obtain ⟨inner, heq⟩ := h.ordered.bounds
    exact ⟨h.ordered.sorted, h.ordered.fits, inner, heq, h.ordered.strictly_between heq⟩

end Wu.Locator
