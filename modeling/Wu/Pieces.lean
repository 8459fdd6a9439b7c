import Mathlib.Data.List.Basic

/-!
# Pieces of two lists

Two lists that are aligned with each other: what they have in common, what is only in the first one and what is only in the second
one, one after the other. A list of hunks that says by index where the two differ is a list of such pieces
(`Aligned.exists_pieces`).
-/

namespace Wu.Pieces

open List Bool

universe u

/-- What two lists have in common, and what comes behind it in one of them only. -/
structure Piece (α : Type u) where
  same : List α
  removed : List α
  added : List α
  deriving DecidableEq, Repr

/-- A range of indices. -/
structure Range where
  start : Nat
  stop : Nat
  deriving DecidableEq, Repr

/-- Where two lists differ. -/
structure Hunk where
  before : Range
  after : Range
  deriving DecidableEq, Repr

namespace Piece

variable {α : Type u}

/-- The first list, which ends in what both have in common. -/
def before : List (Piece α) → List α → List α
  | [], tail => tail
  | piece :: pieces, tail => piece.same ++ (piece.removed ++ before pieces tail)

/-- The second list. -/
def after : List (Piece α) → List α → List α
  | [], tail => tail
  | piece :: pieces, tail => piece.same ++ (piece.added ++ after pieces tail)

/-- Where the pieces differ, from an index in each of the lists on. -/
def hunks : Nat → Nat → List (Piece α) → List Hunk
  | _, _, [] => []
  | x, y, piece :: pieces =>
    let x := x + piece.same.length
    let y := y + piece.same.length
    ⟨⟨x, x + piece.removed.length⟩, ⟨y, y + piece.added.length⟩⟩ :: hunks (x + piece.removed.length) (y + piece.added.length) pieces

/-- The hunks start behind the indices. -/
theorem le_of_mem_hunks {pieces : List (Piece α)} {x y : Nat} {hunk : Hunk} (h : hunk ∈ hunks x y pieces) :
    x ≤ hunk.before.start ∧ y ≤ hunk.after.start := by
  induction pieces generalizing x y with
  | nil => exact absurd h not_mem_nil
  | cons piece pieces ih =>
    rw [hunks, mem_cons] at h
    obtain rfl | h := h
    · exact ⟨Nat.le_add_right _ _, Nat.le_add_right _ _⟩
    · have hle := ih h
      omega

/-- A hunk that is not empty on both sides comes from a piece that is not. -/
theorem changed_of_hunks {pieces : List (Piece α)} {x y : Nat}
    (h : ∀ hunk ∈ hunks x y pieces, hunk.before.start < hunk.before.stop ∨ hunk.after.start < hunk.after.stop) :
    ∀ piece ∈ pieces, 0 < piece.removed.length ∨ 0 < piece.added.length := by
  induction pieces generalizing x y with
  | nil => exact forall_mem_nil _
  | cons piece pieces ih =>
    rw [hunks, forall_mem_cons] at h
    rw [forall_mem_cons]
    refine ⟨?_, ih h.2⟩
    have hfst := h.1
    simp only at hfst
    omega

end Piece

variable {α : Type u}

/-- The hunks are in order and in the lists, from an index in each of them on, and the lists are equal outside of them. -/
def Aligned (xs ys : List α) : Nat → Nat → List Hunk → Prop
  | x, y, [] => x ≤ xs.length ∧ y ≤ ys.length ∧ xs.drop x = ys.drop y
  | x, y, hunk :: hunks =>
    (x ≤ hunk.before.start ∧ hunk.before.start ≤ hunk.before.stop ∧ hunk.before.stop ≤ xs.length) ∧
    (y ≤ hunk.after.start ∧ hunk.after.start ≤ hunk.after.stop ∧ hunk.after.stop ≤ ys.length) ∧
    (xs.drop x).take (hunk.before.start - x) = (ys.drop y).take (hunk.after.start - y) ∧
    Aligned xs ys hunk.before.stop hunk.after.stop hunks

variable {xs l : List α} {x y i : Nat} {p : Nat → Bool}

/-- A part of a list is what is behind an index, up to another one, and what is behind that. -/
theorem drop_eq_append {a b : Nat} (h : a ≤ b) : xs.drop a = (xs.drop a).take (b - a) ++ xs.drop b := by
  conv_lhs => rw [← take_append_drop (b - a) (xs.drop a)]
  rw [drop_drop, Nat.add_sub_cancel' h]

theorem Aligned.exists_pieces {ys : List α} {hunks : List Hunk} (h : Aligned xs ys x y hunks) :
    ∃ pieces tail, xs.drop x = Piece.before pieces tail ∧ ys.drop y = Piece.after pieces tail ∧ hunks = Piece.hunks x y pieces := by
  induction hunks generalizing x y with
  | nil => exact ⟨[], xs.drop x, rfl, h.2.2.symm, rfl⟩
  | cons hunk hunks ih =>
    obtain ⟨⟨hx, hx', hxs⟩, ⟨hy, hy', hys⟩, hsame, hrest⟩ := h
    obtain ⟨pieces, tail, hbef, haft, rfl⟩ := ih hrest
    have hlenx : ((xs.drop x).take (hunk.before.start - x)).length = hunk.before.start - x := by
      rw [length_take, length_drop]
      omega
    have hleny : ((ys.drop y).take (hunk.after.start - y)).length = hunk.after.start - y := by
      rw [length_take, length_drop]
      omega
    have hsam : hunk.before.start - x = hunk.after.start - y := by rw [← hlenx, hsame, hleny]
    have hrem : ((xs.drop hunk.before.start).take (hunk.before.stop - hunk.before.start)).length =
        hunk.before.stop - hunk.before.start := by
      rw [length_take, length_drop]
      omega
    have hadd : ((ys.drop hunk.after.start).take (hunk.after.stop - hunk.after.start)).length =
        hunk.after.stop - hunk.after.start := by
      rw [length_take, length_drop]
      omega
    refine ⟨⟨(xs.drop x).take (hunk.before.start - x), (xs.drop hunk.before.start).take (hunk.before.stop - hunk.before.start),
      (ys.drop hunk.after.start).take (hunk.after.stop - hunk.after.start)⟩ :: pieces, tail, ?_, ?_, ?_⟩
    · rw [Piece.before, ← hbef, ← drop_eq_append hx', ← drop_eq_append hx]
    · rw [Piece.after, ← haft, hsame, ← drop_eq_append hy', ← drop_eq_append hy]
    · rw [Piece.hunks]
      simp only [hlenx, hrem, hadd]
      have hst : x + (hunk.before.start - x) = hunk.before.start := by omega
      have hst' : y + (hunk.before.start - x) = hunk.after.start := by omega
      have hstop : hunk.before.start + (hunk.before.stop - hunk.before.start) = hunk.before.stop := by omega
      have hstop' : hunk.after.start + (hunk.after.stop - hunk.after.start) = hunk.after.stop := by omega
      rw [hst, hst', hstop, hstop']

/-! ## Near a range -/

/-- An index is in one of the ranges, or at most this far away from it. -/
def near (distance : Nat) (ranges : List Range) (i : Nat) : Bool :=
  ranges.any fun range => decide (range.start ≤ i + distance) && decide (i < range.stop + distance)

/-- The elements whose index, from a first one on, satisfies a predicate. -/
def pick (p : Nat → Bool) : Nat → List α → List α
  | _, [] => []
  | i, a :: l => if p i then a :: pick p (i + 1) l else pick p (i + 1) l

/-- A predicate has one value at as many indices from a first one on. -/
def Throughout (p : Nat → Bool) (x length : Nat) (value : Bool) : Prop := ∀ i, x ≤ i → i < x + length → p i = value

theorem Throughout.append {k k' : Nat} {value : Bool} (h : Throughout p x k value) (hy : y = x + k)
    (h' : Throughout p y k' value) : Throughout p x (k + k') value := by
  intro i hx hi
  by_cases hk : i < x + k
  · exact h i hx hk
  · exact h' i (by omega) (by omega)

theorem pick_append (p : Nat → Bool) (i : Nat) (l l' : List α) : pick p i (l ++ l') = pick p i l ++ pick p (i + l.length) l' := by
  induction l generalizing i with
  | nil => rfl
  | cons a l ih =>
    have hlen : i + (a :: l).length = i + 1 + l.length := by rw [length_cons]; omega
    rw [cons_append, pick, pick, ih, hlen]
    split <;> rfl

theorem pick_eq_self (h : Throughout p i l.length true) : pick p i l = l := by
  induction l generalizing i with
  | nil => rfl
  | cons a l ih =>
    rw [length_cons] at h
    rw [pick, if_pos (h i (Nat.le_refl i) (by omega)), ih fun j hj hlt => h j (by omega) (by omega)]

theorem pick_eq_nil (h : Throughout p i l.length false) : pick p i l = [] := by
  induction l generalizing i with
  | nil => rfl
  | cons a l ih =>
    rw [length_cons] at h
    have hfst : p i = false := h i (Nat.le_refl i) (by omega)
    rw [pick, hfst, if_neg Bool.false_ne_true, ih fun j hj hlt => h j (by omega) (by omega)]

theorem Throughout.not {length : Nat} {value : Bool} (h : Throughout p x length value) :
    Throughout (fun i => !p i) x length !value := fun i hx hi => congrArg _ (h i hx hi)

/-- Which indices are near, from the end of a range on, is known from the ranges behind it. -/
def NearFrom (distance : Nat) (p : Nat → Bool) (x : Nat) (ranges : List Range) : Prop :=
  ∀ i, x ≤ i → (p i = true ↔ i < x + distance ∨ near distance ranges i = true)

namespace NearFrom

variable {distance : Nat} {p : Nat → Bool} {x k r : Nat} {ranges : List Range}

/-- Right behind a range. -/
theorem near_start (h : NearFrom distance p x ranges) {length : Nat} (hle : length ≤ distance) : Throughout p x length true :=
  fun i hx hi => (h i hx).mpr (.inl (by omega))

/-- Far behind the last range. -/
theorem far_of_nil (h : NearFrom distance p x []) (length : Nat) : Throughout p (x + distance) length false := by
  intro i hx hi
  have hiff := h i (by omega)
  rw [eq_false_iff]
  intro hp
  obtain hlt | hnear := hiff.mp hp
  · omega
  · exact Bool.false_ne_true hnear

theorem near_cons {i a b : Nat} : near distance (⟨a, b⟩ :: ranges) i = true ↔
    (a ≤ i + distance ∧ i < b + distance) ∨ near distance ranges i = true := by
  simp [near]

/-- The elements that are far behind the last range. -/
theorem far_behind (h : NearFrom distance p x []) (l : List α) :
    Throughout p (x + (l.take distance).length) (l.drop distance).length false := by
  by_cases hle : l.length ≤ distance
  · intro i hx hi
    rw [length_drop] at *
    omega
  · rw [length_take, Nat.min_eq_left (by omega)]
    exact h.far_of_nil _

section

variable (h : NearFrom distance p x (⟨x + k, x + k + r⟩ :: ranges))
include h

/-- What is behind the first range. -/
theorem tail : NearFrom distance p (x + k + r) ranges := by
  intro i hi
  rw [h i (by omega), near_cons]
  constructor
  · rintro (hlt | ⟨-, hlt⟩ | hnear)
    · exact .inl (by omega)
    · exact .inl hlt
    · exact .inr hnear
  · rintro (hlt | hnear)
    · exact .inr (.inl ⟨by omega, hlt⟩)
    · exact .inr (.inr hnear)

/-- When the first range is not far away, all is near up to its end. -/
theorem near_of_le (hle : k ≤ distance * 2) : Throughout p x (k + r) true := by
  intro i hx hi
  rw [h i hx, near_cons]
  by_cases hlt : i < x + distance
  · exact .inl hlt
  · exact .inr (.inl ⟨by omega, by omega⟩)

/-- In front of a range that is far away. -/
theorem far_of_lt (hrang : ∀ range ∈ ranges, x + k + r ≤ range.start) :
    Throughout p (x + distance) (k - distance - distance) false := by
  intro i hx hi
  rw [eq_false_iff]
  intro hp
  rw [h i (by omega), near_cons] at hp
  obtain hlt | ⟨hle, -⟩ | hnear := hp
  · omega
  · omega
  · obtain ⟨range, hran, hin⟩ := any_eq_true.mp hnear
    have hst := hrang _ hran
    simp only [and_eq_true, decide_eq_true_eq] at hin
    omega

/-- The end of what is in front of a range, and the range. -/
theorem near_end (hle : distance ≤ k) : Throughout p (x + (k - distance)) (distance + r) true := by
  intro i hx hi
  rw [h i (by omega), near_cons]
  exact .inr (.inl ⟨by omega, by omega⟩)

end

end NearFrom

section First

variable {distance k r : Nat} {ranges : List Range}

/-- Behind the first of all ranges. -/
theorem nearFrom_first : NearFrom distance (near distance (⟨k, k + r⟩ :: ranges)) (k + r) ranges := by
  intro i hi
  rw [NearFrom.near_cons]
  constructor
  · rintro (⟨-, hlt⟩ | hnear)
    · exact .inl hlt
    · exact .inr hnear
  · rintro (hlt | hnear)
    · exact .inl ⟨by omega, hlt⟩
    · exact .inr hnear

/-- In front of the first of all ranges. -/
theorem far_first (hrang : ∀ range ∈ ranges, k + r ≤ range.start) :
    Throughout (near distance (⟨k, k + r⟩ :: ranges)) 0 (k - distance) false := by
  intro i hx hi
  rw [eq_false_iff]
  intro hp
  obtain ⟨hle, -⟩ | hnear := NearFrom.near_cons.mp hp
  · omega
  · obtain ⟨range, hran, hin⟩ := any_eq_true.mp hnear
    have hst := hrang _ hran
    simp only [and_eq_true, decide_eq_true_eq] at hin
    omega

/-- The first of all ranges. -/
theorem near_first : Throughout (near distance (⟨k, k + r⟩ :: ranges)) (k - distance) (k - (k - distance) + r) true := by
  intro i hx hi
  exact NearFrom.near_cons.mpr (.inl ⟨by omega, by omega⟩)

end First

end Wu.Pieces
