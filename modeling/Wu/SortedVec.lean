import Wu.KeyedList

/-!
# Vectors that are kept sorted

What `binary_search` and `insert` do to a sorted vector, and `util::extend_sorted`, which goes on from where the last item was put.
-/

namespace Wu

open List

universe u

namespace SortedVec

variable {K : Type u} [LinearOrder K]

/-- Each item is larger than the ones before it. -/
def Sorted (items : List K) : Prop := items.Pairwise (· < ·)

/-- An item is inserted where `binary_search` does not find it. -/
def searchInsert (item : K) (items : List K) : List K :=
  if (items.dropWhile fun other => other < item).head? = some item then items
  else items.takeWhile (fun other => other < item) ++ item :: items.dropWhile fun other => other < item

/-- The loop of `extend_sorted`: `seen` is what comes before `start_index`. -/
def extendLoop : List K → List K → List K → List K
  | seen, [], rest => seen ++ rest
  | seen, item :: items, rest =>
    if (rest.dropWhile fun other => other < item).head? = some item then extendLoop seen items rest
    else extendLoop (seen ++ rest.takeWhile fun other => other < item) items (item :: rest.dropWhile fun other => other < item)

/-- `util::extend_sorted`, with no limit. -/
def extendSorted (newItems items : List K) : List K := extendLoop [] newItems items

variable {item x : K} {items : List K}

theorem lt_of_mem_takeWhile (hx : x ∈ items.takeWhile fun other => decide (other < item)) : x < item := by
  have h := mem_takeWhile_imp hx
  exact of_decide_eq_true h

theorem mem_searchInsert : x ∈ searchInsert item items ↔ x = item ∨ x ∈ items := by
  have hspl := takeWhile_append_dropWhile (p := fun other => decide (other < item)) (l := items)
  unfold searchInsert
  split
  · rename_i hfnd
    refine ⟨.inr, ?_⟩
    rintro (rfl | hmem)
    · exact (dropWhile_sublist _).subset (List.mem_of_mem_head? hfnd)
    · exact hmem
  · conv_rhs => rw [← hspl, mem_append]
    rw [mem_append, mem_cons]
    tauto

/-- What is not smaller than an item that is not found is greater. -/
theorem lt_of_mem_dropWhile (hs : Sorted items) (hfnd : (items.dropWhile fun other => decide (other < item)).head? ≠ some item)
    (hx : x ∈ items.dropWhile fun other => decide (other < item)) : item < x := by
  have hsort : Sorted (items.dropWhile fun other => decide (other < item)) := hs.sublist (dropWhile_sublist _)
  cases hrest : items.dropWhile _ with
  | nil =>
    rw [hrest] at hx
    nomatch hx
  | cons first rest =>
    have hfst : ¬ first < item := by
      have hnot := head?_dropWhile_not (fun other => decide (other < item)) items
      rw [hrest] at hnot
      exact of_decide_eq_false hnot
    rw [hrest] at hfnd hx hsort
    have hlt : item < first := lt_of_le_of_ne (not_lt.mp hfst) fun heq => hfnd (congrArg some heq.symm)
    rcases mem_cons.mp hx with rfl | hx
    · exact hlt
    · exact hlt.trans (rel_of_pairwise_cons hsort hx)

theorem sorted_searchInsert (hs : Sorted items) : Sorted (searchInsert item items) := by
  unfold searchInsert
  split
  · exact hs
  · rename_i hfnd
    refine pairwise_append.mpr ⟨hs.sublist (takeWhile_sublist _), pairwise_cons.mpr ⟨?_, ?_⟩, ?_⟩
    · exact fun other hoth => lt_of_mem_dropWhile hs hfnd hoth
    · exact hs.sublist (dropWhile_sublist _)
    · intro a ha b hb
      have hlt : a < item := lt_of_mem_takeWhile ha
      rcases mem_cons.mp hb with rfl | hb
      · exact hlt
      · exact hlt.trans (lt_of_mem_dropWhile hs hfnd hb)

variable {newItems : List K}

/-- All items are there, in whatever order they come. -/
theorem mem_extendLoop : ∀ {seen rest : List K}, x ∈ extendLoop seen newItems rest ↔ x ∈ newItems ∨ x ∈ seen ∨ x ∈ rest := by
  induction newItems with
  | nil =>
    intro seen rest
    rw [extendLoop, mem_append]
    exact ⟨.inr, fun h => h.resolve_left nofun⟩
  | cons item newItems ih =>
    intro seen rest
    have hspl := takeWhile_append_dropWhile (p := fun other => decide (other < item)) (l := rest)
    unfold extendLoop
    split
    · rename_i hfnd
      have hitem : item ∈ rest := (dropWhile_sublist _).subset (List.mem_of_mem_head? hfnd)
      rw [ih, mem_cons, or_assoc]
      refine ⟨.inr, ?_⟩
      rintro (rfl | h)
      · exact .inr (.inr hitem)
      · exact h
    · rw [ih, mem_cons, mem_cons, mem_append]
      conv_rhs => rw [← hspl, mem_append]
      tauto

theorem mem_extendSorted : x ∈ extendSorted newItems items ↔ x ∈ newItems ∨ x ∈ items := by
  unfold extendSorted
  rw [mem_extendLoop]
  exact or_congr_right (or_iff_right nofun)

/-- Sorted items come each behind the place of the one before. -/
theorem sorted_extendLoop : ∀ {seen rest : List K}, newItems.Pairwise (· ≤ ·) → Sorted (seen ++ rest) →
    (∀ a ∈ seen, ∀ b ∈ newItems, a < b) → Sorted (extendLoop seen newItems rest) := by
  induction newItems with
  | nil => exact fun _ hs _ => hs
  | cons item newItems ih =>
    intro seen rest hnew hs hseen
    obtain ⟨hle, hnew⟩ := pairwise_cons.mp hnew
    unfold extendLoop
    split
    · exact ih hnew hs fun a ha b hb => hseen a ha b (.tail _ hb)
    · rename_i hfnd
      have hrest : Sorted rest := (pairwise_append.mp hs).2.1
      have htake : ∀ a ∈ rest.takeWhile (fun other => decide (other < item)), a < item :=
        fun a ha => lt_of_mem_takeWhile ha
      refine ih hnew ?_ ?_
      · rw [append_assoc]
        refine pairwise_append.mpr ⟨(pairwise_append.mp hs).1, ?_, ?_⟩
        · have hins := @sorted_searchInsert _ _ item _ hrest
          unfold searchInsert at hins
          rwa [if_neg hfnd] at hins
        · intro a ha b hb
          rcases mem_append.mp hb with hb | hb
          · exact (pairwise_append.mp hs).2.2 a ha b ((takeWhile_sublist _).subset hb)
          · rcases mem_cons.mp hb with rfl | hb
            · exact hseen a ha b mem_cons_self
            · exact (pairwise_append.mp hs).2.2 a ha b ((dropWhile_sublist _).subset hb)
      · intro a ha b hb
        rcases mem_append.mp ha with ha | ha
        · exact hseen a ha b (.tail _ hb)
        · exact (htake a ha).trans_le (hle b hb)

/-- Sorted items leave the vector sorted. -/
theorem sorted_extendSorted (hnew : newItems.Pairwise (· ≤ ·)) (hs : Sorted items) :
    Sorted (extendSorted newItems items) := sorted_extendLoop hnew hs fun _ ha => nomatch ha

end SortedVec

end Wu
