import Mathlib.Algebra.Ring.Nat
import Mathlib.Data.List.Lex
import Mathlib.Order.Lattice

/-!
# Locators

A locator is a list of digits below `2 ^ 64`, in lexicographic order. Between two locators there is always a third one, when
the larger one does not end in `0`; no locator that `between` makes does.
-/

namespace Wu

open List

/-- An identifier for a position in an ordered collection. -/
@[ext] structure Locator where
  digits : List Nat
  deriving DecidableEq, Repr

namespace Locator

/-- Locators are compared digit by digit. -/
instance : LinearOrder Locator := LinearOrder.lift' digits fun _ _ h => Locator.ext h

theorem lt_iff {a b : Locator} : a < b ↔ a.digits < b.digits := Iff.rfl

/-- The largest digit. -/
def maxDigit : Nat := 2 ^ 64 - 1

/-- The smallest locator. -/
def min : Locator := ⟨[0]⟩

/-- The largest locator. -/
def max : Locator := ⟨[maxDigit]⟩

/-- The digit of `between`; the subtraction saturates. -/
def mid (lhs rhs : Nat) : Nat := lhs + (rhs - lhs) / 2 ^ 48

/-- The digits of `between`. The left list goes on with `0`, the right one with the largest digit. -/
def betweenDigits : List Nat → List Nat → List Nat
  | [], [] => [mid 0 maxDigit]
  | l :: ls, [] => if mid l maxDigit > l then [mid l maxDigit] else mid l maxDigit :: betweenDigits ls []
  | [], r :: rs => if mid 0 r > 0 then [mid 0 r] else mid 0 r :: betweenDigits [] rs
  | l :: ls, r :: rs => if mid l r > l then [mid l r] else mid l r :: betweenDigits ls rs

/-- A locator between two others. -/
def between (lhs rhs : Locator) : Locator := ⟨betweenDigits lhs.digits rhs.digits⟩

/-- A locator that does not end in `0`. -/
def Ends (self : Locator) : Prop := ∃ init last, self.digits = init ++ [last] ∧ last ≠ 0

theorem ends_max : max.Ends := ⟨[], maxDigit, rfl, by decide⟩

theorem le_mid (lhs rhs : Nat) : lhs ≤ mid lhs rhs := Nat.le_add_right _ _

/-- The digit is below the right one, when the left one is. -/
theorem mid_lt {lhs rhs : Nat} (h : lhs < rhs) : mid lhs rhs < rhs := by
  unfold mid
  omega

theorem mid_le {lhs rhs bound : Nat} (hl : lhs ≤ bound) (hr : rhs ≤ bound) : mid lhs rhs ≤ bound := by
  unfold mid
  omega

theorem mid_self (digit : Nat) : mid digit digit = digit := by simp [mid]

/-- The digits end with one that is larger than the left list's. -/
theorem betweenDigits_ends (ls rs : List Nat) : ∃ init last, betweenDigits ls rs = init ++ [last] ∧ last ≠ 0 := by
  fun_induction betweenDigits ls rs with
  | case1 => exact ⟨[], _, rfl, by decide⟩
  | case2 l ls h => exact ⟨[], _, rfl, by omega⟩
  | case3 l ls h ih =>
    obtain ⟨init, last, heq, hne⟩ := ih
    exact ⟨mid l _ :: init, last, by rw [heq]; rfl, hne⟩
  | case4 r rs h => exact ⟨[], _, rfl, by omega⟩
  | case5 r rs h ih =>
    obtain ⟨init, last, heq, hne⟩ := ih
    exact ⟨mid 0 r :: init, last, by rw [heq]; rfl, hne⟩
  | case6 l ls r rs h => exact ⟨[], _, rfl, by omega⟩
  | case7 l ls r rs h ih =>
    obtain ⟨init, last, heq, hne⟩ := ih
    exact ⟨mid l r :: init, last, by rw [heq]; rfl, hne⟩

/-- The digits are above the left list's: they agree with it up to a larger digit. -/
theorem lt_betweenDigits (ls rs : List Nat) : ls < betweenDigits ls rs := by
  fun_induction betweenDigits ls rs with
  | case1 => exact nil_lt_cons _ _
  | case2 l ls h => exact cons_lt_cons_iff.mpr (.inl h)
  | case3 l ls h ih => exact cons_lt_cons_iff.mpr (.inr ⟨by have := le_mid l maxDigit; omega, ih⟩)
  | case4 r rs h => exact nil_lt_cons _ _
  | case5 r rs h ih => exact nil_lt_cons _ _
  | case6 l ls r rs h => exact cons_lt_cons_iff.mpr (.inl h)
  | case7 l ls r rs h ih => exact cons_lt_cons_iff.mpr (.inr ⟨by have := le_mid l r; omega, ih⟩)

/-- The digits are below the right list's, unless that is the left list with zeros behind it: up to the first digit at which the
lists differ, they are those of the left list. -/
theorem betweenDigits_lt (ls rs : List Nat) (h : ls < rs) (hpad : ∀ n, rs ≠ ls ++ replicate n 0) : betweenDigits ls rs < rs := by
  fun_induction betweenDigits ls rs with
  | case1 => exact absurd h (lt_irrefl _)
  | case2 l ls _ => exact absurd h (not_lt_nil _)
  | case3 l ls _ ih => exact absurd h (not_lt_nil _)
  | case4 r rs hm => exact cons_lt_cons_iff.mpr (.inl (mid_lt (by unfold mid at hm; omega)))
  | case5 r rs hm ih =>
    rcases Nat.eq_zero_or_pos r with rfl | hr
    · have hlt : [] < rs := by
        cases rs with
        | nil => exact absurd rfl (hpad 1)
        | cons x xs => exact nil_lt_cons _ _
      exact cons_lt_cons_iff.mpr (.inr ⟨by omega, ih hlt fun n hn => hpad (n + 1) (by rw [hn]; rfl)⟩)
    · exact cons_lt_cons_iff.mpr (.inl (by omega))
  | case6 l ls r rs hm =>
    rcases cons_lt_cons_iff.mp h with hlr | ⟨rfl, -⟩
    · exact cons_lt_cons_iff.mpr (.inl (mid_lt hlr))
    · rw [mid_self] at hm
      omega
  | case7 l ls r rs hm ih =>
    have heq : mid l r = l := by have := le_mid l r; omega
    rcases cons_lt_cons_iff.mp h with hlr | ⟨rfl, hlt⟩
    · exact cons_lt_cons_iff.mpr (.inl (by omega))
    · exact cons_lt_cons_iff.mpr (.inr ⟨heq, ih hlt fun n hn => hpad n (by rw [hn]; rfl)⟩)

/-- The digits fit into the words that the digits of the lists do: the sum does not overflow. -/
theorem betweenDigits_le {bound : Nat} (hmax : maxDigit ≤ bound) (ls rs : List Nat) (hl : ∀ digit ∈ ls, digit ≤ bound)
    (hr : ∀ digit ∈ rs, digit ≤ bound) : ∀ digit ∈ betweenDigits ls rs, digit ≤ bound := by
  fun_induction betweenDigits ls rs with
  | case1 => simpa using mid_le (Nat.zero_le _) hmax
  | case2 l ls _ => simpa using mid_le (hl l mem_cons_self) hmax
  | case3 l ls _ ih =>
    rw [forall_mem_cons] at hl ⊢
    exact ⟨mid_le hl.1 hmax, ih hl.2 hr⟩
  | case4 r rs _ => simpa using mid_le (Nat.zero_le _) (hr r mem_cons_self)
  | case5 r rs _ ih =>
    rw [forall_mem_cons] at hr ⊢
    exact ⟨mid_le (Nat.zero_le _) hr.1, ih hl hr.2⟩
  | case6 l ls r rs _ => simpa using mid_le (hl l mem_cons_self) (hr r mem_cons_self)
  | case7 l ls r rs _ ih =>
    rw [forall_mem_cons] at hl hr ⊢
    exact ⟨mid_le hl.1 hr.1, ih hl.2 hr.2⟩

theorem lt_between (lhs rhs : Locator) : lhs < between lhs rhs := lt_betweenDigits _ _

/-- A locator that does not end in `0` is not another one with zeros behind it. -/
theorem Ends.ne_append {lhs rhs : Locator} (h : lhs < rhs) (hends : rhs.Ends) (n : Nat) :
    rhs.digits ≠ lhs.digits ++ replicate n 0 := by
  obtain ⟨init, last, heq, hne⟩ := hends
  intro hpad
  cases n with
  | zero =>
    rw [replicate_zero, append_nil] at hpad
    exact h.ne (Locator.ext hpad.symm)
  | succ n =>
    rw [heq, replicate_succ', ← append_assoc] at hpad
    exact hne (append_inj_right' hpad rfl |> singleton_inj.mp)

/-- A locator between two, when the larger one does not end in `0`. -/
theorem between_lt {lhs rhs : Locator} (h : lhs < rhs) (hends : rhs.Ends) : between lhs rhs < rhs :=
  betweenDigits_lt _ _ h (hends.ne_append h)

theorem ends_between (lhs rhs : Locator) : (between lhs rhs).Ends := betweenDigits_ends _ _

/-- Every locator that does not end in `0` is above the smallest one. -/
theorem min_lt {self : Locator} (h : self.Ends) : min < self := by
  obtain ⟨init, last, heq, hne⟩ := h
  rw [lt_iff, heq]
  cases init with
  | nil => exact cons_lt_cons_iff.mpr (.inl (by omega))
  | cons x init =>
    rcases Nat.eq_zero_or_pos x with rfl | hx
    · refine cons_lt_cons_iff.mpr (.inr ⟨rfl, ?_⟩)
      cases init with
      | nil => exact nil_lt_cons _ _
      | cons y init => exact nil_lt_cons _ _
    · exact cons_lt_cons_iff.mpr (.inl hx)

end Locator

end Wu
