import Wu.Positions.Cut

/-!
# Looking positions up in a patch

`oldToNew` and `editForOldPosition` by recursion on the edits, and how the parts of a cut composition are looked up.
-/

namespace Wu.Positions

open List Patch Position

universe u

variable {T : Type u} [LinearOrder T] [Add T] [Sub T] [Position T]

/-- No edit: a position of the old text and where it is in the new one. -/
def pointEdit (old new : T) : Edit T := ⟨⟨old, old⟩, ⟨new, new⟩⟩

section LastBefore

variable {x : T} {edit : Edit T} {patch other : Patch T}

omit [Add T] [Sub T] [Position T] in
theorem lastBefore_cons_of_lt (h : x < edit.old.start) : lastBefore (edit :: patch) x = none := by
  rw [lastBefore, takeWhile_cons_of_neg (by simpa using h)]
  rfl

omit [Add T] [Sub T] [Position T] in
theorem lastBefore_cons_of_le (h : edit.old.start ≤ x) : lastBefore (edit :: patch) x = some ((lastBefore patch x).getD edit) := by
  rw [lastBefore, takeWhile_cons_of_pos (by simpa using h), getLast?_cons]
  rfl

omit [Add T] [Sub T] [Position T] in
/-- Edits that start behind a position do not matter for it. -/
theorem lastBefore_append_of_lt (h : ∀ edit ∈ other, x < edit.old.start) : lastBefore (patch ++ other) x = lastBefore patch x := by
  induction patch with
  | nil =>
    cases other with
    | nil => rfl
    | cons edit other => exact lastBefore_cons_of_lt (h edit mem_cons_self)
  | cons edit patch ih =>
    rcases lt_or_ge x edit.old.start with hlt | hle
    · rw [cons_append, lastBefore_cons_of_lt hlt, lastBefore_cons_of_lt hlt]
    · rw [cons_append, lastBefore_cons_of_le hle, lastBefore_cons_of_le hle, ih]

omit [Add T] [Sub T] [Position T] in
/-- When all of the first edits start before a position, one of the later ones is the last, or none of them is before it. -/
theorem lastBefore_append_of_le (h : ∀ edit ∈ patch, edit.old.start ≤ x) :
    lastBefore (patch ++ other) x = (lastBefore other x).or patch.getLast? := by
  induction patch with
  | nil => simp
  | cons edit patch ih =>
    rw [cons_append, lastBefore_cons_of_le (h edit mem_cons_self),
      ih fun other hoth => h other (.tail _ hoth), getLast?_cons]
    cases lastBefore other x <;> cases patch.getLast? <;> rfl

omit [Add T] [Sub T] [Position T] in
theorem lastBefore_eq_getLast? (h : ∀ edit ∈ patch, edit.old.start ≤ x) : lastBefore patch x = patch.getLast? := by
  have hnil : lastBefore (patch ++ []) x = (lastBefore [] x).or patch.getLast? := lastBefore_append_of_le h
  rwa [append_nil] at hnil

end LastBefore

section Lookup

variable {i j m n x y : T} {edit : Edit T} {patch other rest : Patch T}

/-- A position behind all of the edits. -/
theorem editForOldPosition_behind (h : Gaps m n zero zero patch) (hx : m < x) :
    editForOldPosition patch x = pointEdit x (n + (x - m)) := by
  have hlast : lastBefore patch x = patch.getLast? := lastBefore_eq_getLast? fun edit hedit =>
    ((h.mem hedit).2.2.1.trans (h.mem hedit).2.2.2.2.1).trans hx.le
  unfold editForOldPosition
  rw [hlast]
  rcases eq_nil_or_concat patch with rfl | ⟨front, last, hpat⟩
  · have heq : m = n := by
      have := h.2.2
      rwa [Position.sub_zero, Position.sub_zero] at this
    rw [← heq, add_sub_of_le hx.le]
    rfl
  · rw [concat_eq_append] at hpat
    subst hpat
    obtain ⟨-, -, -, hold, hnew, hgap⟩ := gaps_concat.1 h
    rw [getLast?_concat]
    simp only [gt_iff_lt, hold.trans_lt hx, if_true, pointEdit]
    have heq : last.new.stop + (x - last.old.stop) = n + (x - m) := by
      rw [← sub_add_sub hold hx.le, hgap, ← Position.add_assoc, add_sub_of_le hnew]
    rw [heq]

/-- Behind a cut it does not matter what is before the cut. -/
theorem editForOldPosition_append_congr (h : Gaps m n zero zero patch) (h' : Gaps m n zero zero other) (hx : m < x) :
    editForOldPosition (patch ++ rest) x = editForOldPosition (other ++ rest) x := by
  have hsta {patch : Patch T} (h : Gaps m n zero zero patch) : ∀ edit ∈ patch, edit.old.start ≤ x :=
    fun edit hedit => ((h.mem hedit).2.2.1.trans (h.mem hedit).2.2.2.2.1).trans hx.le
  have hfst := editForOldPosition_behind h hx
  have hsec := editForOldPosition_behind h' hx
  unfold editForOldPosition at hfst hsec ⊢
  rw [lastBefore_append_of_le (hsta h), lastBefore_append_of_le (hsta h')]
  rw [lastBefore_eq_getLast? (hsta h)] at hfst
  rw [lastBefore_eq_getLast? (hsta h')] at hsec
  cases lastBefore rest x with
  | none => exact hfst.trans hsec.symm
  | some edit => rfl

omit [Position T] in
/-- Up to a cut it does not matter what is behind it. -/
theorem editForOldPosition_append (h : ∀ edit ∈ rest, x < edit.old.start) :
    editForOldPosition (patch ++ rest) x = editForOldPosition patch x := by
  unfold editForOldPosition
  rw [lastBefore_append_of_lt h]

/-- The edit for a position, by recursion: `i` and `j` are where the edit before ends. -/
def lookup (i j : T) : Patch T → T → Edit T
  | [], x => pointEdit x (j + (x - i))
  | edit :: patch, x =>
    if x < edit.old.start then pointEdit x (j + (x - i))
    else if x ≤ edit.old.stop then edit
    else lookup edit.old.stop edit.new.stop patch x

omit [Position T] in
theorem lookup_eq (h : Gaps m n i j patch) (hapa : Apart patch) :
    (match lastBefore patch x with
      | none => pointEdit x (j + (x - i))
      | some edit => if x > edit.old.stop then pointEdit x (edit.new.stop + (x - edit.old.stop)) else edit) =
      lookup i j patch x := by
  induction patch generalizing i j with
  | nil => rfl
  | cons edit patch ih =>
    obtain ⟨hfst, hapa⟩ := pairwise_cons.1 hapa
    obtain ⟨-, -, -, hold, -, hrest⟩ := h
    unfold lookup
    rcases lt_or_ge x edit.old.start with hlt | hle
    · rw [lastBefore_cons_of_lt hlt, if_pos hlt]
    · rw [lastBefore_cons_of_le hle, if_neg (not_lt_of_ge hle)]
      by_cases hin : x ≤ edit.old.stop
      · have hnone : lastBefore patch x = none := by
          cases patch with
          | nil => rfl
          | cons second patch => exact lastBefore_cons_of_lt (hin.trans_lt (hfst second mem_cons_self))
        rw [hnone, if_pos hin]
        exact if_neg (not_lt_of_ge hin)
      · rw [if_neg hin, ← ih hrest hapa]
        cases lastBefore patch x with
        | none => exact if_pos (lt_of_not_ge hin)
        | some last => rfl

/-- Looking a position up from the start of the texts. -/
theorem editForOldPosition_eq_lookup (h : Gaps m n zero zero patch) (hapa : Apart patch) :
    editForOldPosition patch x = lookup zero zero patch x := by
  rw [← lookup_eq h hapa]
  unfold editForOldPosition
  cases lastBefore _ x with
  | none =>
    simp only [Position.sub_zero, Position.zero_add]
    rfl
  | some edit => rfl

/-- Where a position goes: to the end of the edit's new range from the end of its old one, and to its start otherwise. -/
def pointOf (edit : Edit T) (x : T) : T := if x = edit.old.stop then edit.new.stop else edit.new.start

omit [Add T] [Sub T] [Position T] in
theorem pointOf_pointEdit (x y : T) : pointOf (pointEdit x y) x = y := by simp [pointOf, pointEdit]

omit [Add T] [Sub T] [Position T] in
theorem pointOf_bounds (edit : Edit T) (x : T) (h : edit.new.start ≤ edit.new.stop) :
    edit.new.start ≤ pointOf edit x ∧ pointOf edit x ≤ edit.new.stop := by
  unfold pointOf
  split
  · exact ⟨h, le_rfl⟩
  · exact ⟨le_rfl, h⟩

theorem le_pointOf_lookup (h : Gaps m n i j patch) (hx : i ≤ x) : j ≤ pointOf (lookup i j patch x) x := by
  induction patch generalizing i j with
  | nil =>
    rw [lookup, pointOf_pointEdit]
    exact le_add _ _
  | cons edit patch ih =>
    obtain ⟨hi, hj, -, -, hnew, hrest⟩ := h
    unfold lookup
    split
    · rw [pointOf_pointEdit]
      exact le_add _ _
    · split
      · exact hj.trans (pointOf_bounds edit x hnew).1
      · rename_i hbeh
        exact (hj.trans hnew).trans (ih hrest (le_of_not_ge hbeh))

/-- Where positions go keeps their order. -/
theorem pointOf_lookup_mono (h : Gaps m n i j patch) (hx : i ≤ x) (hxy : x ≤ y) :
    pointOf (lookup i j patch x) x ≤ pointOf (lookup i j patch y) y := by
  induction patch generalizing i j with
  | nil =>
    rw [lookup, lookup, pointOf_pointEdit, pointOf_pointEdit, Position.add_le_add_left]
    exact Position.sub_le_sub hx hxy
  | cons edit patch ih =>
    obtain ⟨hi, hj, hgap, -, hnew, hrest⟩ := h
    have hbds := pointOf_bounds edit x hnew
    have hbds' := pointOf_bounds edit y hnew
    have hlat (hy : edit.old.stop < y) : edit.new.stop ≤ pointOf (lookup edit.old.stop edit.new.stop patch y) y :=
      le_pointOf_lookup hrest hy.le
    unfold lookup
    by_cases hbef : x < edit.old.start
    · rw [if_pos hbef, pointOf_pointEdit]
      have hle : j + (x - i) ≤ edit.new.start := by
        rw [← add_sub_of_le hj, Position.add_le_add_left, ← hgap]
        exact Position.sub_le_sub hx hbef.le
      split
      · rw [pointOf_pointEdit, Position.add_le_add_left]
        exact Position.sub_le_sub hx hxy
      · split
        · exact hle.trans hbds'.1
        · rename_i hbeh
          exact (hle.trans hnew).trans (hlat (lt_of_not_ge hbeh))
    · rw [if_neg hbef, if_neg (show ¬ y < edit.old.start from fun hlt => hbef (hxy.trans_lt hlt))]
      by_cases hin : x ≤ edit.old.stop
      · rw [if_pos hin]
        split
        · rename_i hin'
          by_cases hend : x = edit.old.stop
          · have hsame : y = x := le_antisymm (hin'.trans hend.ge) hxy
            rw [hsame]
          · have hst : pointOf edit x = edit.new.start := if_neg hend
            rw [hst]
            exact hbds'.1
        · rename_i hbeh
          exact hbds.2.trans (hlat (lt_of_not_ge hbeh))
      · rw [if_neg hin, if_neg (show ¬ y ≤ edit.old.stop from fun hle => hin (hxy.trans hle))]
        exact ih hrest (le_of_not_ge hin)

end Lookup

end Wu.Positions
