import Mathlib.Algebra.Order.BigOperators.Group.List
import Mathlib.Algebra.Order.Group.Nat
import Mathlib.Algebra.Ring.Nat

/-!
# Splices

A splice replaces a range of a list. Splices of disjoint ranges in order can be applied one after the other from the last to
the first, or written out in one pass from the front; the results are the same.
-/

namespace Wu

open List

universe u v

/-- A range of a list and what is put in its place. -/
structure Splice (α : Type u) where
  start : Nat
  stop : Nat
  text : List α
  deriving DecidableEq, Repr

namespace Splice

variable {α : Type u} {β : Type v}

/-- Replace the range by the text. -/
def apply (self : Splice α) (xs : List α) : List α := xs.take self.start ++ self.text ++ xs.drop self.stop

/-- Apply the splices, the last one first. -/
def applyRev (splices : List (Splice α)) (xs : List α) : List α := splices.foldr apply xs

/-- The ranges are ranges of a list of this length. -/
def InBounds (length : Nat) (splices : List (Splice α)) : Prop :=
  ∀ splice ∈ splices, splice.start ≤ splice.stop ∧ splice.stop ≤ length

/-- Each range ends before the next one starts. -/
def Disjoint (splices : List (Splice α)) : Prop := splices.Pairwise fun a b => a.stop < b.start

/-- From a position on, what is outside the ranges as it is and the texts in the place of the ranges. -/
def rewritten (xs : List α) : Nat → List (Splice α) → List α
  | pos, [] => xs.drop pos
  | pos, splice :: splices =>
    (xs.drop pos).take (splice.start - pos) ++ splice.text ++ rewritten xs splice.stop splices

variable {xs : List α} {pos : Nat} {splice : Splice α} {splices : List (Splice α)}

section

variable (hin : InBounds xs.length splices) (hdisjoint : Disjoint splices)
include hin hdisjoint

/-- What is before the first range is kept by all of the splices. -/
theorem applyRev_eq_take_append (hpos : ∀ splice ∈ splices, pos ≤ splice.start) :
    applyRev splices xs = xs.take pos ++ rewritten xs pos splices := by
  induction splices generalizing pos with
  | nil => exact (take_append_drop pos xs).symm
  | cons splice splices ih =>
    have hbds := hin splice (by simp)
    obtain ⟨hfst, hdisjoint⟩ := pairwise_cons.1 hdisjoint
    have hstop : ∀ other ∈ splices, splice.stop ≤ other.start := fun other hoth => Nat.le_of_lt (hfst _ hoth)
    have hrest := ih (fun other hoth => hin _ (by simp [hoth])) hdisjoint hstop
    have hle : pos ≤ splice.start := hpos _ (by simp)
    have htake : (xs.take splice.stop ++ rewritten xs splice.stop splices).take splice.start = xs.take splice.start := by
      rw [take_append_of_le_length (by rw [length_take]; omega), take_take, Nat.min_eq_left hbds.1]
    have hdrop : (xs.take splice.stop ++ rewritten xs splice.stop splices).drop splice.stop =
        rewritten xs splice.stop splices :=
      drop_left' (by rw [length_take]; omega)
    have hgap : xs.take pos ++ (xs.drop pos).take (splice.start - pos) = xs.take splice.start := by
      rw [← take_add, Nat.add_sub_cancel' hle]
    calc applyRev (splice :: splices) xs
        = splice.apply (xs.take splice.stop ++ rewritten xs splice.stop splices) := by rw [← hrest]; rfl
      _ = xs.take splice.start ++ splice.text ++ rewritten xs splice.stop splices := by rw [apply, htake, hdrop]
      _ = xs.take pos ++ rewritten xs pos (splice :: splices) := by
        rw [rewritten, ← hgap]; simp only [append_assoc]

/-- Splices of disjoint ranges applied from the last to the first are the list rewritten from the front. -/
theorem applyRev_eq_rewritten : applyRev splices xs = rewritten xs 0 splices := by
  have htake : applyRev splices xs = xs.take 0 ++ rewritten xs 0 splices :=
    applyRev_eq_take_append hin hdisjoint fun _ _ => Nat.zero_le _
  rw [htake, take_zero, nil_append]

/-- How long the rewritten list is. -/
theorem length_rewritten (hpos : ∀ splice ∈ splices, pos ≤ splice.start) (hle : pos ≤ xs.length) :
    (rewritten xs pos splices).length + pos + (splices.map fun splice => splice.stop - splice.start).sum =
      xs.length + (splices.map fun splice => splice.text.length).sum := by
  induction splices generalizing pos with
  | nil =>
    simp only [rewritten, length_drop, map_nil, List.sum_nil]
    omega
  | cons splice splices ih =>
    have hbds := hin splice (by simp)
    obtain ⟨hfst, hdisjoint⟩ := pairwise_cons.1 hdisjoint
    have hrest := ih (fun other hoth => hin _ (by simp [hoth])) hdisjoint
      (fun other hoth => Nat.le_of_lt (hfst _ hoth)) hbds.2
    have hst : pos ≤ splice.start := hpos _ (by simp)
    simp only [rewritten, length_append, length_take, length_drop, map_cons, sum_cons]
    omega

end

/-- Numbers that are never larger than others, with the same sum, are the others. -/
theorem eq_of_sum_eq {f g : β → Nat} {items : List β} (hle : ∀ item ∈ items, f item ≤ g item)
    (hsum : (items.map f).sum = (items.map g).sum) : ∀ item ∈ items, f item = g item := by
  induction items with
  | nil => simp
  | cons item items ih =>
    have hhead : f item ≤ g item := hle item (by simp)
    have htail : ∀ other ∈ items, f other ≤ g other := fun other hoth => hle _ (by simp [hoth])
    have hrest : (items.map f).sum ≤ (items.map g).sum := sum_le_sum htail
    simp only [map_cons, sum_cons] at hsum
    intro other hoth
    rcases mem_cons.1 hoth with rfl | hoth
    · omega
    · exact ih htail (by omega) _ hoth

/-- Two ways to rewrite the same ranges, one with texts that are never longer than the other's, agree only where the texts
are as long. -/
theorem length_eq_of_rewritten_eq {f g : β → Splice α} {pieces : List β} (hst : ∀ piece, (f piece).start = (g piece).start)
    (hstop : ∀ piece, (f piece).stop = (g piece).stop)
    (hle : ∀ piece ∈ pieces, (f piece).text.length ≤ (g piece).text.length)
    (hin : InBounds xs.length (pieces.map f)) (hdisjoint : Disjoint (pieces.map f))
    (heq : rewritten xs 0 (pieces.map f) = rewritten xs 0 (pieces.map g)) :
    ∀ piece ∈ pieces, (f piece).text.length = (g piece).text.length := by
  have hin' : InBounds xs.length (pieces.map g) := by
    intro splice hspl
    obtain ⟨piece, hpie, rfl⟩ := mem_map.1 hspl
    rw [← hst, ← hstop]
    exact hin _ (mem_map_of_mem hpie)
  have hdisj' : Disjoint (pieces.map g) := by
    rw [Disjoint, pairwise_map] at hdisjoint ⊢
    exact hdisjoint.imp fun h => by rwa [← hstop, ← hst]
  have hf := length_rewritten hin hdisjoint (fun _ _ => Nat.zero_le _) (Nat.zero_le _)
  have hg := length_rewritten hin' hdisj' (fun _ _ => Nat.zero_le _) (Nat.zero_le _)
  have hrang : (pieces.map f).map (fun splice => splice.stop - splice.start) =
      (pieces.map g).map fun splice => splice.stop - splice.start := by
    simp only [map_map]
    exact map_congr_left fun piece _ => by simp only [Function.comp, hst, hstop]
  rw [heq, hrang] at hf
  have hsum : (pieces.map fun piece => (f piece).text.length).sum = (pieces.map fun piece => (g piece).text.length).sum := by
    simp only [map_map, Function.comp_def] at hf hg
    omega
  exact eq_of_sum_eq hle hsum

end Splice

end Wu
