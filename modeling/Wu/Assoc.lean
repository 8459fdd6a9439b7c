import Mathlib.Data.List.Nodup
import Mathlib.Algebra.Ring.Nat

/-!
# Maps as lists of entries

A map whose entries are counted or summed up is the list of its entries, in the order in which their keys came. `update` is the
entry API: it changes the value of a key, or starts from none.
-/

namespace Wu.Assoc

open List

universe u v

variable {K : Type u} {V : Type v} [DecidableEq K]

/-- The value of a key. -/
def get (key : K) : List (K × V) → Option V
  | [] => none
  | entry :: entries => if entry.1 = key then some entry.2 else get key entries

/-- Set the value of a key from the value it has. -/
def update (key : K) (f : Option V → V) : List (K × V) → List (K × V)
  | [] => [(key, f none)]
  | entry :: entries => if entry.1 = key then (key, f (some entry.2)) :: entries else entry :: update key f entries

/-- Remove a key. -/
def erase (key : K) : List (K × V) → List (K × V)
  | [] => []
  | entry :: entries => if entry.1 = key then entries else entry :: erase key entries

/-- Each key has one entry. -/
def Keyed (entries : List (K × V)) : Prop := (entries.map Prod.fst).Nodup

/-- What the values of the entries come to. -/
def total (size : V → Nat) (entries : List (K × V)) : Nat := (entries.map fun entry => size entry.2).sum

theorem get_eq_none {key : K} {entries : List (K × V)} : get key entries = none ↔ key ∉ entries.map Prod.fst := by
  induction entries with
  | nil => simp [get]
  | cons entry entries ih =>
    rw [get, map_cons, mem_cons, not_or]
    by_cases h : entry.1 = key
    · simp [h]
    · rw [if_neg h, ih, and_iff_right (Ne.symm h)]

theorem get_update (key other : K) (f : Option V → V) (entries : List (K × V)) :
    get other (update key f entries) = if other = key then some (f (get key entries)) else get other entries := by
  induction entries with
  | nil =>
    by_cases h : other = key
    · simp [update, get, h]
    · simp [update, get, h, Ne.symm]
  | cons entry entries ih =>
    rw [update]
    by_cases hkey : entry.1 = key
    · rw [if_pos hkey, get, get, get, if_pos hkey]
      by_cases h : other = key
      · simp [h]
      · have hne : ¬entry.1 = other := fun heq => h (heq.symm.trans hkey)
        simp [h, Ne.symm, hne]
    · rw [if_neg hkey, get, ih, get, get, if_neg hkey]
      by_cases h : entry.1 = other
      · have hne : ¬other = key := fun heq => hkey (h.trans heq)
        simp [h, hne]
      · simp [h]

theorem mem_keys_update (key other : K) (f : Option V → V) (entries : List (K × V)) :
    other ∈ (update key f entries).map Prod.fst ↔ other = key ∨ other ∈ entries.map Prod.fst := by
  rw [← not_iff_not, ← get_eq_none, get_update, not_or, ← get_eq_none]
  by_cases h : other = key <;> simp [h]

theorem Keyed.update {entries : List (K × V)} (h : Keyed entries) (key : K) (f : Option V → V) : Keyed (update key f entries) := by
  induction entries with
  | nil => exact nodup_singleton key
  | cons entry entries ih =>
    obtain ⟨hnot, hrest⟩ := nodup_cons.mp h
    rw [Assoc.update]
    split
    · rename_i hkey
      rw [hkey] at hnot
      exact nodup_cons.mpr ⟨hnot, hrest⟩
    · rename_i hkey
      refine nodup_cons.mpr ⟨?_, ih hrest⟩
      rw [mem_keys_update]
      rintro (heq | hmem)
      · exact hkey heq
      · exact hnot hmem

theorem erase_sublist (key : K) (entries : List (K × V)) : (erase key entries).Sublist entries := by
  induction entries with
  | nil => exact List.Sublist.refl _
  | cons entry entries ih =>
    rw [erase]
    split
    · exact sublist_cons_self _ _
    · exact ih.cons_cons _

theorem Keyed.erase {entries : List (K × V)} (h : Keyed entries) (key : K) : Keyed (erase key entries) :=
  List.Nodup.sublist ((erase_sublist key _).map _) h

theorem get_erase {entries : List (K × V)} (h : Keyed entries) (key other : K) :
    get other (erase key entries) = if other = key then none else get other entries := by
  induction entries with
  | nil => simp [erase, get]
  | cons entry entries ih =>
    obtain ⟨hnot, hrest⟩ := nodup_cons.mp h
    rw [erase]
    by_cases hkey : entry.1 = key
    · rw [if_pos hkey, get]
      by_cases heq : other = key
      · rw [if_pos heq, get_eq_none, heq, ← hkey]
        exact hnot
      · have hne : ¬entry.1 = other := fun hoth => heq (hoth.symm.trans hkey)
        rw [if_neg heq, if_neg hne]
    · rw [if_neg hkey, get, get, ih hrest]
      by_cases hoth : entry.1 = other
      · have hne : ¬other = key := fun heq => hkey (hoth.trans heq)
        simp [hoth, hne]
      · simp [hoth]

/-- A change of one value changes the total by as much. -/
theorem total_update (size : V → Nat) (key : K) (f : Option V → V) (entries : List (K × V)) :
    total size (update key f entries) + ((get key entries).map size).getD 0 = total size entries + size (f (get key entries)) := by
  induction entries with
  | nil => simp [update, get, total]
  | cons entry entries ih =>
    rw [update, get]
    split
    · simp [total]
      omega
    · have hcons : total size (entry :: update key f entries) = size entry.2 + total size (update key f entries) := rfl
      have hcons' : total size (entry :: entries) = size entry.2 + total size entries := rfl
      omega

/-- Without a key, its value is missing from the total. -/
theorem total_erase (size : V → Nat) {key : K} {value : V} {entries : List (K × V)} (h : get key entries = some value) :
    total size entries = total size (erase key entries) + size value := by
  induction entries with
  | nil => nomatch h
  | cons entry entries ih =>
    rw [get] at h
    rw [erase]
    have hcons : total size (entry :: entries) = size entry.2 + total size entries := rfl
    split at h
    · rename_i hkey
      rw [if_pos hkey, hcons, Option.some.inj h]
      omega
    · rename_i hkey
      have hcons' : total size (entry :: erase key entries) = size entry.2 + total size (erase key entries) := rfl
      rw [if_neg hkey, hcons, ih h]
      omega

theorem mem_update {key : K} {f : Option V → V} {entries : List (K × V)} {entry : K × V}
    (h : entry ∈ update key f entries) : entry ∈ entries ∨ entry = (key, f (get key entries)) := by
  induction entries with
  | nil => exact .inr (mem_singleton.mp h)
  | cons first entries ih =>
    rw [update] at h
    rw [get]
    split at h
    · rename_i hkey
      rw [if_pos hkey]
      rcases mem_cons.mp h with rfl | h
      · exact .inr rfl
      · exact .inl (.tail _ h)
    · rename_i hkey
      rw [if_neg hkey]
      rcases mem_cons.mp h with rfl | h
      · exact .inl (mem_cons_self ..)
      · rcases ih h with hmem | heq
        · exact .inl (.tail _ hmem)
        · exact .inr heq

theorem mem_of_get {key : K} {value : V} {entries : List (K × V)} (h : get key entries = some value) : (key, value) ∈ entries := by
  induction entries with
  | nil => nomatch h
  | cons first entries ih =>
    rw [get] at h
    split at h
    · rename_i hkey
      rw [← hkey, ← Option.some.inj h]
      exact mem_cons_self ..
    · exact .tail _ (ih h)

/-- There is nothing to remove of a key without a value. -/
theorem erase_eq_self {key : K} {entries : List (K × V)} (h : get key entries = none) : erase key entries = entries := by
  induction entries with
  | nil => rfl
  | cons first entries ih =>
    rw [get] at h
    split at h
    · nomatch h
    · rename_i hkey
      rw [erase, if_neg hkey, ih h]

omit [DecidableEq K] in
theorem total_congr {size size' : V → Nat} {entries : List (K × V)}
    (h : ∀ entry ∈ entries, size entry.2 = size' entry.2) : total size entries = total size' entries := by
  unfold total
  rw [map_congr_left h]

end Wu.Assoc
