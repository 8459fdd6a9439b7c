import Wu.Gpui.LineWrapper
import Mathlib.Data.List.TakeWhile

/-!
# The rows of a wrapped line

One turn of the loop either adds the item to the row or breaks the row. From that, over the whole line: the boundaries are always in
order, and the rows fit and the indent is kept exactly when every break carries over what fits.
-/

namespace Wu.Gpui.TextSystem

open List LineWrapper WrapBoundaryCandidate

variable (w : LineWrapper) {wrapWidth : ℚ} {s s' : State} {item : WrapBoundaryCandidate}
variable {row items pre carried blanks rest : List WrapBoundaryCandidate}

/-! ## Items -/

theorem WrapBoundaryCandidate.lenUtf8_pos (item : WrapBoundaryCandidate) : 0 < item.lenUtf8 := by
  cases item with
  | char c => exact c.utf8Size_pos
  | element _ _ _ pos => exact pos

theorem LineWrapper.itemWidth_nonneg (item : WrapBoundaryCandidate) : 0 ≤ w.itemWidth item := by
  cases item with
  | char c => exact w.nonneg c
  | element _ _ nonneg _ => exact nonneg

theorem WrapBoundaryCandidate.lenUtf8_of_blank (h : item.blank = true) : item.lenUtf8 = 1 := by
  cases item with
  | char c =>
    simp only [blank, decide_eq_true_eq] at h
    subst h
    rfl
  | element => simp [blank] at h

@[simp] theorem size_append (pre rest : List WrapBoundaryCandidate) : size (pre ++ rest) = size pre + size rest := by
  induction pre with
  | nil => simp [size]
  | cons item pre ih => simp [size, ih, Nat.add_assoc]

theorem size_pos (h : items ≠ []) : 0 < size items := by
  cases items with
  | nil => exact absurd rfl h
  | cons item items =>
    have := item.lenUtf8_pos
    simp only [size]
    omega

theorem size_of_blank (h : ∀ item ∈ items, item.blank = true) : size items = items.length := by
  induction items with
  | nil => rfl
  | cons item items ih =>
    have h1 := lenUtf8_of_blank (h item (by simp))
    have h2 := ih fun item hi => h item (by simp [hi])
    simp only [size, length_cons]
    omega

/-- The widths of two parts of a row, where only one of them counts the indent. -/
theorem LineWrapper.rowWidth_append (n : Nat) (pre rest : List WrapBoundaryCandidate) :
    w.rowWidth n (pre ++ rest) = w.rowWidth n pre + w.rowWidth 0 rest := by
  induction pre with
  | nil =>
    induction rest with
    | nil => simp [rowWidth]
    | cons item rest ih =>
      simp only [nil_append, rowWidth] at ih ⊢
      linarith
  | cons item pre ih => simp [rowWidth, ih, add_assoc]

theorem LineWrapper.rowWidth_eq (n : Nat) (items : List WrapBoundaryCandidate) :
    w.rowWidth n items = w.rowWidth 0 items + w.widthForChar ' ' * n := by
  have := w.rowWidth_append n [] items
  simp only [nil_append, rowWidth] at this
  linarith

theorem LineWrapper.rowWidth_nonneg (items : List WrapBoundaryCandidate) : 0 ≤ w.rowWidth 0 items := by
  induction items with
  | nil => simp [rowWidth]
  | cons item items ih => exact add_nonneg (w.itemWidth_nonneg item) ih

theorem cut_size (pre rest : List WrapBoundaryCandidate) : cut (size pre) (pre ++ rest) = (pre, rest) := by
  induction pre with
  | nil => cases rest <;> simp [cut, size]
  | cons item pre ih =>
    have := item.lenUtf8_pos
    have hn : item.lenUtf8 + size pre ≠ 0 := by omega
    simp only [size, cons_append, cut, if_neg hn, Nat.add_sub_cancel_left, ih]

/-- A cut behind the start of an item leaves it in the first part, with all items before it. -/
theorem cut_behind (pre rest : List WrapBoundaryCandidate) (item : WrapBoundaryCandidate) {n : Nat} (h : size pre < n) :
    ∃ rest', (cut n (pre ++ item :: rest)).1 = pre ++ item :: rest' := by
  have hn : n ≠ 0 := by omega
  induction pre generalizing n with
  | nil => exact ⟨(cut (n - item.lenUtf8) rest).1, by simp only [nil_append, cut, if_neg hn]⟩
  | cons head pre ih =>
    simp only [size] at h
    obtain ⟨rest', hcut⟩ := ih (n := n - head.lenUtf8) (by omega) (by omega)
    exact ⟨rest', by simp only [cons_append, cut, if_neg hn, hcut]⟩

theorem starts_append (ix : Nat) (pre rest : List WrapBoundaryCandidate) :
    starts ix (pre ++ rest) = starts ix pre ++ starts (ix + size pre) rest := by
  induction pre generalizing ix with
  | nil => simp [starts, size]
  | cons item pre ih => simp [starts, size, ih, Nat.add_assoc]

theorem firstNonBlank_append (ix : Nat) (h : ∀ item ∈ blanks, item.blank = true) (rest : List WrapBoundaryCandidate) :
    firstNonBlank ix (blanks ++ rest) = firstNonBlank (ix + size blanks) rest := by
  induction blanks generalizing ix with
  | nil => simp [size]
  | cons item blanks ih =>
    have h1 := h item (by simp)
    simp [firstNonBlank, size, h1, ih _ fun item hi => h item (by simp [hi]), Nat.add_assoc]

theorem le_of_firstNonBlank {ix first : Nat} (h : firstNonBlank ix items = some first) : ix ≤ first := by
  induction items generalizing ix with
  | nil => simp [firstNonBlank] at h
  | cons item items ih =>
    simp only [firstNonBlank] at h
    split at h
    · have := ih h
      omega
    · simp only [Option.some.injEq] at h
      omega

/-! ## One turn -/

/-- An item becomes a candidate only behind the first non-blank one, and only then leaves it as it is. -/
theorem State.visit_cases (s : State) (ix : Nat) (item : WrapBoundaryCandidate) :
    (s.firstNonWhitespaceIx.isSome ∧ s.visit ix item = s.setCandidate ix) ∨
      s.visit ix item = { s with firstNonWhitespaceIx := s.firstNonWhitespaceIx.or (if item.blank then none else some ix) } := by
  rcases s with ⟨-, first, -, -, -, -, -, -⟩
  cases first with
  | none =>
    cases item with
    | char c =>
      by_cases hc : c = ' ' <;>
        simp [visit, WrapBoundaryCandidate.blank, setFirst, hc]
    | element => simp [visit, WrapBoundaryCandidate.blank, setFirst]
  | some first =>
    cases item with
    | char c =>
      simp only [visit, Option.isSome_some, and_true]
      split <;> split <;> simp [setCandidate]
    | element =>
      simp only [visit, Option.isSome_some, and_true]
      split <;> simp [setCandidate]

theorem LineWrapper.added_cases (s : State) (item : WrapBoundaryCandidate) :
    (s.firstNonWhitespaceIx.isSome ∧ w.added s item = { s with
        index := s.index + item.lenUtf8, width := s.width + w.itemWidth item,
        lastCandidateIx := s.index, lastCandidateWidth := s.width }) ∨
      w.added s item = { s with
        index := s.index + item.lenUtf8, width := s.width + w.itemWidth item,
        firstNonWhitespaceIx := s.firstNonWhitespaceIx.or (if item.blank then none else some s.index) } := by
  rcases State.visit_cases { s with index := s.index + item.lenUtf8 } s.index item with ⟨hf, h⟩ | h
  · exact Or.inl ⟨hf, by simp only [added, h, State.setCandidate]⟩
  · exact Or.inr (by simp only [added, h])

theorem LineWrapper.added_frame (s : State) (item : WrapBoundaryCandidate) :
    (w.added s item).lastWrapIx = s.lastWrapIx ∧ (w.added s item).indent = s.indent ∧
      (w.added s item).index = s.index + item.lenUtf8 ∧ (w.added s item).width = s.width + w.itemWidth item ∧
      (w.added s item).firstNonWhitespaceIx = s.firstNonWhitespaceIx.or (if item.blank then none else some s.index) := by
  rcases w.added_cases s item with ⟨hf, ha⟩ | ha
  · obtain ⟨first, hfst⟩ := Option.isSome_iff_exists.mp hf
    simp [ha, hfst]
  · simp [ha]

/-- The candidate of a state, if it has one, lies behind the line's first non-blank item and divides the row into `pre` and `carried`. -/
structure Candidate (s : State) (pre carried : List WrapBoundaryCandidate) : Prop where
  pre_ne : pre ≠ []
  behind : ∀ first ∈ s.firstNonWhitespaceIx, first < s.lastWrapIx + size pre
  ix : s.lastCandidateIx = s.lastWrapIx + size pre
  width : s.lastCandidateWidth = w.rowWidth (s.indent.getD 0) pre

/-- The state while `row` is read. The widths are those of the row's items and indent. -/
structure Reading (s : State) (row : List WrapBoundaryCandidate) : Prop where
  index : s.index = s.lastWrapIx + size row
  width : s.width = w.rowWidth (s.indent.getD 0) row
  started : row = [] → s.firstNonWhitespaceIx = none
  first : ∀ first ∈ s.firstNonWhitespaceIx, first < s.index
  candidate : s.lastCandidateIx = 0 ∨ s.firstNonWhitespaceIx.isSome ∧ ∃ pre carried, row = pre ++ carried ∧ Candidate w s pre carried

/-- A turn that adds the item to the row. -/
structure Stays (wrapWidth : ℚ) (s : State) (row : List WrapBoundaryCandidate) (item : WrapBoundaryCandidate)
    (s' : State) : Prop where
  read : w.read wrapWidth s item = (s', none)
  fits : ¬ (w.added s item).Overflows wrapWidth s.index
  reading : Reading w s' (row ++ [item])
  indent : s'.indent = s.indent
  lastWrapIx : s'.lastWrapIx = s.lastWrapIx
  first : s'.firstNonWhitespaceIx = s.firstNonWhitespaceIx.or (if item.blank then none else some s.index)
  width : 2 ≤ (row ++ [item]).length → s'.width ≤ wrapWidth

/-- A turn that ends the row with `pre` and moves `carried` to the next one. -/
structure Breaks (wrapWidth : ℚ) (s : State) (pre carried : List WrapBoundaryCandidate) (item : WrapBoundaryCandidate)
    (s' : State) : Prop where
  read : w.read wrapWidth s item = (s', some ⟨s'.lastWrapIx, s'.indent.getD 0⟩)
  overflows : (w.added s item).Overflows wrapWidth s.index
  pre_ne : pre ≠ []
  reading : Reading w s' (carried ++ [item])
  lastWrapIx : s'.lastWrapIx = s.lastWrapIx + size pre
  lastCandidateIx : s'.lastCandidateIx = 0
  carried_nil : s.lastCandidateIx = 0 → carried = []
  behind : ∀ first ∈ s.firstNonWhitespaceIx, first < s'.lastWrapIx
  indent : s'.indent = (w.added s item).indented
  first : s'.firstNonWhitespaceIx = s.firstNonWhitespaceIx.or (if item.blank then none else some s.index)
  carry : w.CarryFits wrapWidth s item ↔ (2 ≤ (carried ++ [item]).length → s'.width ≤ wrapWidth)

theorem Reading.first_added (h : Reading w s row) (item : WrapBoundaryCandidate) :
    ∀ first ∈ s.firstNonWhitespaceIx.or (if item.blank then none else some s.index), first < s.index + item.lenUtf8 := by
  intro first hfst
  have hpos := item.lenUtf8_pos
  cases hs : s.firstNonWhitespaceIx with
  | some f =>
    have := h.first f hs
    simp only [hs, Option.some_or, Option.mem_def, Option.some.injEq] at hfst
    omega
  | none =>
    simp only [hs, Option.none_or, Option.mem_def, Option.ite_none_left_eq_some, Option.some.injEq] at hfst
    omega

/-- With the item read, the candidate is the one of the row, or the item itself. -/
theorem Reading.candidate_added (h : Reading w s row) (item : WrapBoundaryCandidate) :
    ((w.added s item).lastCandidateIx = 0 ∧ s.lastCandidateIx = 0) ∨
      (w.added s item).firstNonWhitespaceIx.isSome ∧ ∃ pre carried, row = pre ++ carried ∧
        Candidate w (w.added s item) pre carried ∧ (s.lastCandidateIx = 0 → carried = []) := by
  rcases w.added_cases s item with ⟨hf, ha⟩ | ha
  · have hrow : row ≠ [] := by
      intro hr
      simp [h.started hr] at hf
    rw [ha]
    exact Or.inr ⟨hf, row, [], by simp, ⟨hrow, fun first hfst => h.index ▸ h.first _ hfst, h.index, h.width⟩, fun _ => rfl⟩
  · rw [ha]
    rcases h.candidate with hc | ⟨hf, pre, carried, rfl, hc⟩
    · exact Or.inl ⟨hc, hc⟩
    · obtain ⟨first, hfst⟩ := Option.isSome_iff_exists.mp hf
      have hsize := size_pos hc.pre_ne
      have hix := hc.ix
      refine Or.inr ⟨by simp [hfst], pre, carried, rfl, ⟨hc.pre_ne, ?_, hix, hc.width⟩, fun h0 => by omega⟩
      simpa [hfst] using hc.behind

theorem Reading.stays (h : Reading w s row) (hn : item.newline = false)
    (hfit : ¬ (w.added s item).Overflows wrapWidth s.index) : ∃ s', Stays w wrapWidth s row item s' := by
  obtain ⟨hwrap, hind, hidx, hwid, hfst⟩ := w.added_frame s item
  obtain ⟨c, hread⟩ : ∃ c, w.read wrapWidth s item = ({ w.added s item with prevC := c }, none) := by
    simp only [LineWrapper.read, hn, Bool.false_eq_true, if_false, if_neg hfit]
    exact ⟨_, rfl⟩
  refine ⟨_, hread, hfit, ⟨?_, ?_, by simp, ?_, ?_⟩, hind, hwrap, hfst, ?_⟩
  · simp only [hidx, hwrap, h.index, size_append, size]
    omega
  · simp only [hwid, hind, h.width, rowWidth_append, LineWrapper.rowWidth]
    simp
  · simp only [hidx, hfst]
    exact h.first_added w item
  · rcases h.candidate_added w item with ⟨hc, -⟩ | ⟨hf, pre, carried, rfl, hc, -⟩
    · exact Or.inl hc
    · exact Or.inr ⟨hf, pre, carried ++ [item], by simp, hc.pre_ne, hc.behind, hc.ix, hc.width⟩
  · intro hlen
    have hrow : row ≠ [] := by
      rintro rfl
      simp at hlen
    have hsize := size_pos hrow
    have hix := h.index
    by_contra hover
    exact hfit ⟨not_le.mp hover, by omega⟩

/-- What a break makes of the state: the row starts at the candidate, or else at the item. -/
theorem State.wrap_eq (s : State) (space : ℚ) (ix : Nat) (itemWidth : ℚ) :
    s.wrap space ix itemWidth = { s with
      lastWrapIx := if 0 < s.lastCandidateIx then s.lastCandidateIx else ix
      width := (if 0 < s.lastCandidateIx then s.width - s.lastCandidateWidth else itemWidth) + space * (s.indented.getD 0 : ℕ)
      lastCandidateIx := 0
      indent := s.indented } := by
  unfold wrap
  rcases Nat.eq_zero_or_pos s.lastCandidateIx with hc | hc <;> cases hi : s.indented <;> simp [hc]

/-- Where the item's turn breaks the row: at the candidate, or else at the item. -/
theorem Reading.split (h : Reading w s row) (hover : (w.added s item).Overflows wrapWidth s.index) :
    ∃ pre carried, row = pre ++ carried ∧ pre ≠ [] ∧ (s.lastCandidateIx = 0 → carried = []) ∧
      (∀ first ∈ s.firstNonWhitespaceIx, first < s.lastWrapIx + size pre) ∧
      ((w.added s item).lastCandidateIx = 0 ∧ carried = [] ∨ (w.added s item).lastCandidateIx = s.lastWrapIx + size pre ∧
          (w.added s item).lastCandidateWidth = w.rowWidth (s.indent.getD 0) pre) := by
  obtain ⟨hwrap, hind, -, -, hfst⟩ := w.added_frame s item
  have hlt := hover.2
  rw [hwrap] at hlt
  rcases h.candidate_added w item with ⟨hc, -⟩ | ⟨-, pre, carried, rfl, hc, hnil⟩
  · have hrow : row ≠ [] := by
      rintro rfl
      simp [h.index, size] at hlt
    exact ⟨row, [], by simp, hrow, fun _ => rfl, fun first hf => h.index ▸ h.first _ hf, Or.inl ⟨hc, rfl⟩⟩
  · refine ⟨pre, carried, rfl, hc.pre_ne, hnil, fun first hf => ?_, Or.inr ⟨by rw [hc.ix, hwrap], by rw [hc.width, hind]⟩⟩
    rw [← hwrap]
    exact hc.behind _ (by rw [hfst, Option.mem_def.mp hf]; rfl)

theorem Reading.breaks (h : Reading w s row) (hn : item.newline = false) (hover : (w.added s item).Overflows wrapWidth s.index) :
    ∃ pre carried s', row = pre ++ carried ∧ Breaks w wrapWidth s pre carried item s' := by
  obtain ⟨-, -, hidx, hwid, hfst⟩ := w.added_frame s item
  obtain ⟨pre, carried, rfl, hpre, hnil, hbeh, hspl⟩ := h.split w hover
  have hsize := size_pos hpre
  have hrows : s.index = s.lastWrapIx + size pre + size carried := by
    rw [h.index, size_append, Nat.add_assoc]
  have hsum := h.width
  rw [rowWidth_append] at hsum
  obtain ⟨s', hs'⟩ : ∃ s', (w.added s item).wrap (w.widthForChar ' ') s.index (w.itemWidth item) = s' := ⟨_, rfl⟩
  have hread : w.read wrapWidth s item = (s', some ⟨s'.lastWrapIx, s'.indent.getD 0⟩) := by
    simp only [LineWrapper.read, hn, Bool.false_eq_true, if_false, if_pos hover, hs']
  rw [State.wrap_eq] at hs'
  have hlast : s'.lastWrapIx = s.lastWrapIx + size pre := by
    rw [← hs']
    rcases hspl with ⟨h0, rfl⟩ | ⟨hc, -⟩
    · simp [h0, hrows, size]
    · simp [hc, hsize]
  have hind' : s'.indent = (w.added s item).indented := by rw [← hs']
  have hnew : s'.width = w.rowWidth (s'.indent.getD 0) (carried ++ [item]) := by
    rw [rowWidth_eq, rowWidth_append, ← hs']
    rcases hspl with ⟨h0, rfl⟩ | ⟨hc, hcw⟩
    · simp [h0, LineWrapper.rowWidth]
    · simp only [hc, if_pos (show 0 < s.lastWrapIx + size pre by omega), hcw, hwid, hsum, LineWrapper.rowWidth]
      ring
  refine ⟨pre, carried, s', rfl, hread, hover, hpre, ⟨?_, hnew, by simp, ?_, ?_⟩, hlast, by rw [← hs'], hnil, ?_, hind', ?_, ?_⟩
  · rw [hlast, ← hs']
    simp only [hidx, hrows, size_append, size]
    omega
  · rw [← hs']
    simp only [hidx, hfst]
    exact h.first_added w item
  · exact Or.inl (by rw [← hs'])
  · rw [hlast]
    exact hbeh
  · rw [← hs']
    exact hfst
  · unfold LineWrapper.CarryFits
    simp only [hover, true_imp_iff]
    rcases hspl with ⟨h0, rfl⟩ | ⟨hc, -⟩
    · simp [h0]
    · have hw : (w.added s item).width - (w.added s item).lastCandidateWidth
          + w.widthForChar ' ' * ((w.added s item).indented.getD 0 : ℕ) = s'.width := by
        rw [← hs']
        simp only [hc, if_pos (show 0 < s.lastWrapIx + size pre by omega)]
      rw [hw, hc]
      constructor
      · rintro (h0 | hix | hle) hlen
        · omega
        · have hcar : carried ≠ [] := by
            rintro rfl
            simp at hlen
          have := size_pos hcar
          omega
        · exact hle
      · intro hle
        rcases eq_nil_or_concat carried with rfl | ⟨_, _, rfl⟩
        · exact Or.inr (Or.inl (by rw [hrows]; rfl))
        · exact Or.inr (Or.inr (hle (by simp)))

/-! ## The run -/

/-- A whole run: the items read one after the other, each staying in the row or breaking it. -/
inductive Run (wrapWidth : ℚ) : State → List WrapBoundaryCandidate → List WrapBoundaryCandidate → Prop
  | done {s : State} {row : List WrapBoundaryCandidate} (h : Reading w s row) : Run wrapWidth s row []
  | stays {s s' : State} {item : WrapBoundaryCandidate} {row items : List WrapBoundaryCandidate} (h : Reading w s row)
      (hst : Stays w wrapWidth s row item s') (run : Run wrapWidth s' (row ++ [item]) items) :
      Run wrapWidth s row (item :: items)
  | breaks {s s' : State} {item : WrapBoundaryCandidate} {pre carried items : List WrapBoundaryCandidate}
      (h : Reading w s (pre ++ carried)) (hbr : Breaks w wrapWidth s pre carried item s')
      (run : Run wrapWidth s' (carried ++ [item]) items) : Run wrapWidth s (pre ++ carried) (item :: items)

theorem Reading.run (h : Reading w s row) (hn : ∀ item ∈ items, item.newline = false) : Run w wrapWidth s row items := by
  induction items generalizing s row with
  | nil => exact .done h
  | cons item items ih =>
    have hitem := hn item (by simp)
    have hitems := fun i hi => hn i (mem_cons_of_mem item hi)
    by_cases hover : (w.added s item).Overflows wrapWidth s.index
    · obtain ⟨pre, carried, s', rfl, hbr⟩ := h.breaks w hitem hover
      exact .breaks h hbr (ih hbr.reading hitems)
    · obtain ⟨s', hst⟩ := h.stays w hitem hover
      exact .stays h hst (ih hst.reading hitems)

theorem Run.reading (h : Run w wrapWidth s row items) : Reading w s row := by
  cases h <;> assumption

theorem Stays.boundaries (h : Stays w wrapWidth s row item s') :
    w.boundaries wrapWidth s (item :: items) = w.boundaries wrapWidth s' items := by
  simp [LineWrapper.boundaries, h.read]

theorem Stays.turns (h : Stays w wrapWidth s row item s') :
    w.turns wrapWidth s (item :: items) = (s, item) :: w.turns wrapWidth s' items := by
  simp [LineWrapper.turns, h.read]

theorem Breaks.boundaries (h : Breaks w wrapWidth s pre carried item s') :
    w.boundaries wrapWidth s (item :: items) = ⟨s'.lastWrapIx, s'.indent.getD 0⟩ :: w.boundaries wrapWidth s' items := by
  simp [LineWrapper.boundaries, h.read]

theorem Breaks.turns (h : Breaks w wrapWidth s pre carried item s') :
    w.turns wrapWidth s (item :: items) = (s, item) :: w.turns wrapWidth s' items := by
  simp [LineWrapper.turns, h.read]

/-- Once the first non-blank item and the indent are known, a turn keeps them. -/
theorem Stays.first_eq {first : Nat} (h : Stays w wrapWidth s row item s') (hf : s.firstNonWhitespaceIx = some first) :
    s'.firstNonWhitespaceIx = some first := by
  rw [h.first, hf, Option.some_or]

section

variable (h : Breaks w wrapWidth s pre carried item s')
include h

theorem Breaks.first_eq {first : Nat} (hf : s.firstNonWhitespaceIx = some first) : s'.firstNonWhitespaceIx = some first := by
  rw [h.first, hf, Option.some_or]

theorem Breaks.indent_eq :
    s'.indent = s.indent.or (s'.firstNonWhitespaceIx.map fun ix => min MAX_INDENT ((ix - s.lastWrapIx) % 2 ^ 32)) := by
  obtain ⟨hwrap, hind, -, -, hfst⟩ := w.added_frame s item
  rw [h.indent, State.indented, hwrap, hind, hfst, h.first]

/-- The row that a break ends and the items that are left. -/
theorem Breaks.rows_eq (n : Nat) : rows n s.lastWrapIx (w.boundaries wrapWidth s (item :: items)) (pre ++ carried ++ item :: items) =
      ⟨n, pre⟩ :: rows (s'.indent.getD 0) s'.lastWrapIx (w.boundaries wrapWidth s' items) (carried ++ [item] ++ items) := by
  simp [h.boundaries, rows, h.lastWrapIx, cut_size]

end

/-! ## Boundaries -/

/-- The boundaries lie behind the start of the row, in order, at starts of items that are left. -/
theorem Run.placed (h : Run w wrapWidth s row items) :
    ((w.boundaries wrapWidth s items).map (·.ix)).Pairwise (· < ·) ∧ ∀ b ∈ w.boundaries wrapWidth s items,
      s.lastWrapIx < b.ix ∧ b.ix ∈ starts s.lastWrapIx (row ++ items) ∧ b.ix < s.lastWrapIx + size (row ++ items) := by
  induction h with
  | done => simp [boundaries]
  | stays _ hst _ ih => simpa [hst.boundaries, hst.lastWrapIx] using ih
  | @breaks s s' item pre carried items _ hbr _ ih =>
    obtain ⟨hord, hbs⟩ := ih
    have hsize := size_pos hbr.pre_ne
    have hpos := item.lenUtf8_pos
    have hsta : s.lastWrapIx + size pre ∈ starts (s.lastWrapIx + size pre) (carried ++ [item] ++ items) := by
      cases carried <;> simp [starts]
    have hitems : pre ++ carried ++ item :: items = pre ++ (carried ++ [item] ++ items) := by simp
    simp only [hbr.boundaries, map_cons, pairwise_cons, forall_mem_map, forall_mem_cons, hitems,
      starts_append _ pre, mem_append, size_append pre]
    rw [hbr.lastWrapIx] at hbs ⊢
    refine ⟨⟨fun b hb => (hbs b hb).1, hord⟩, ⟨by omega, Or.inr hsta, ?_⟩, ?_⟩
    · simp only [size_append, size]
      omega
    · intro b hb
      obtain ⟨h1, h2, h3⟩ := hbs b hb
      exact ⟨by omega, Or.inr h2, by omega⟩

/-- The boundaries lie behind the first non-blank item, once it is read. -/
theorem Run.behind_first {first : Nat} (h : Run w wrapWidth s row items) (hfst : s.firstNonWhitespaceIx = some first) :
    ∀ b ∈ w.boundaries wrapWidth s items, first < b.ix := by
  induction h with
  | done => simp [boundaries]
  | stays _ hst _ ih =>
    rw [hst.boundaries]
    exact ih (hst.first_eq w hfst)
  | breaks _ hbr run ih =>
    have hlt := hbr.behind _ hfst
    simp only [hbr.boundaries, forall_mem_cons]
    exact ⟨hlt, fun b hb => hlt.trans (run.placed.2 b hb).1⟩

/-! ## The rows fit -/

/-- A row of more than one item that is too wide stays so: the next item, if there is one, is moved to the next row alone. -/
theorem Run.overfull (h : Run w wrapWidth s row items) (hc : s.lastCandidateIx = 0) (hlen : 2 ≤ row.length)
    (hwide : wrapWidth < s.width) :
    ∃ r ∈ rows (s.indent.getD 0) s.lastWrapIx (w.boundaries wrapWidth s items) (row ++ items), ¬ w.Fits wrapWidth r := by
  have hrow : ¬ w.Fits wrapWidth ⟨s.indent.getD 0, row⟩ := by
    intro hf
    have hle := hf hlen
    rw [← h.reading.width] at hle
    exact absurd hle (not_le.mpr hwide)
  refine ⟨_, ?_, hrow⟩
  cases h with
  | done => simp [boundaries, rows]
  | @stays _ _ item _ _ h hst =>
    have hsize : 0 < size row := size_pos fun hr => by simp [hr] at hlen
    have hitem := w.itemWidth_nonneg item
    obtain ⟨hwrap, -, -, hwid, -⟩ := w.added_frame s item
    have hix := h.index
    exact absurd ⟨by linarith, by omega⟩ hst.fits
  | breaks h hbr =>
    obtain rfl := hbr.carried_nil hc
    rw [hbr.rows_eq]
    simp

theorem Run.rows_fit_iff (h : Run w wrapWidth s row items) (hfit : 2 ≤ row.length → s.width ≤ wrapWidth) :
    (∀ r ∈ rows (s.indent.getD 0) s.lastWrapIx (w.boundaries wrapWidth s items) (row ++ items), w.Fits wrapWidth r) ↔
      ∀ t ∈ w.turns wrapWidth s items, w.CarryFits wrapWidth t.1 t.2 := by
  induction h with
  | done h =>
    simp only [boundaries, rows, turns, mem_singleton, forall_eq, append_nil]
    refine iff_of_true ?_ (by simp)
    intro hlen
    rw [← h.width]
    exact hfit hlen
  | stays _ hst _ ih =>
    have hthis : w.CarryFits wrapWidth _ _ := fun hover => absurd hover hst.fits
    simpa [hst.boundaries, hst.turns, hst.indent, hst.lastWrapIx, hthis] using ih hst.width
  | @breaks s s' item pre carried items h hbr run ih =>
    have hpre : w.Fits wrapWidth ⟨s.indent.getD 0, pre⟩ := by
      intro hlen
      have hle := hfit (by
        rw [length_append]
        exact Nat.le_add_right_of_le hlen)
      have hcarr := w.rowWidth_nonneg carried
      rw [h.width, rowWidth_append] at hle
      linarith
    simp only [hbr.rows_eq, hbr.turns, forall_mem_cons, hpre, true_and, hbr.carry]
    by_cases hcar : 2 ≤ (carried ++ [item]).length → s'.width ≤ wrapWidth
    · rw [ih hcar]
      exact (and_iff_right hcar).symm
    · refine iff_of_false ?_ (fun h => hcar h.1)
      push Not at hcar
      obtain ⟨r, hr, hbad⟩ := run.overfull w hbr.lastCandidateIx hcar.1 hcar.2
      exact fun hall => hbad (hall r hr)

/-! ## The indent is kept -/

/-- Blank rows before the others do not count. -/
theorem leadingBlanks_skip {n : Nat} (h : ∀ item ∈ blanks, item.blank = true) (rs : List Row) :
    leadingBlanks (⟨n, blanks⟩ :: rs) = leadingBlanks rs := by
  have hany : blanks.any (!·.blank) = false := by simpa using h
  simp only [leadingBlanks, List.find?_cons, hany]

/-- The row that holds the first non-blank item, when no boundary lies before the item or right at it. -/
theorem leadingBlanks_rows {n ix : Nat} {bs : List Boundary} (hbla : ∀ item ∈ blanks, item.blank = true)
    (hitem : item.blank = false) (hbs : ∀ b ∈ bs, ix + size blanks < b.ix) :
    leadingBlanks (rows n ix bs (blanks ++ item :: rest)) = blanks.length := by
  have hfnd : ∀ rest' rs, leadingBlanks (⟨n, blanks ++ item :: rest'⟩ :: rs) = blanks.length := by
    have htake : blanks.takeWhile (·.blank) = blanks := takeWhile_eq_self_iff.mpr hbla
    simp [leadingBlanks, takeWhile_append, htake, hitem]
  cases bs with
  | nil => exact hfnd rest []
  | cons b bs =>
    have hlt : size blanks < b.ix - ix := by
      have := hbs b (by simp)
      omega
    obtain ⟨rest', hcut⟩ := cut_behind _ rest item hlt
    simp only [rows, hcut]
    exact hfnd _ _

/-- Behind the row of the first non-blank item all boundaries carry the indent, and no turn changes what it says. -/
theorem Run.indent_kept {n first : Nat} (h : Run w wrapWidth s row items) (hind : s.indent = some n)
    (hfst : s.firstNonWhitespaceIx = some first) (hlt : first < s.lastWrapIx) :
    (∀ b ∈ w.boundaries wrapWidth s items, b.nextIndent = n) ∧ ∀ t ∈ w.turns wrapWidth s items, w.IndentFits wrapWidth t.1 t.2 := by
  have hthis : ∀ {s : State} {item}, s.indent = some n → s.firstNonWhitespaceIx = some first → first < s.lastWrapIx →
      w.IndentFits wrapWidth s item := by
    intro s item hind hfst hlt _ f hf
    obtain rfl := Option.mem_unique hf hfst
    exact ⟨by simp [hind], fun n _ => Or.inr (Nat.ne_of_gt hlt)⟩
  induction h with
  | done => simp [boundaries, turns]
  | stays _ hst _ ih =>
    rw [hst.boundaries, hst.turns, forall_mem_cons, and_iff_right (hthis hind hfst hlt)]
    exact ih (hst.indent.trans hind) (hst.first_eq w hfst) (hst.lastWrapIx ▸ hlt)
  | breaks _ hbr _ ih =>
    have hind' := hbr.indent_eq w
    rw [hind] at hind'
    have hrest := ih hind' (hbr.first_eq w hfst) (hbr.behind _ hfst)
    simpa [hbr.boundaries, hbr.turns, hind', hthis hind hfst hlt] using hrest

/-- While the row of the first non-blank item is read: the boundaries to come carry its blanks exactly when the turns to come fit. The
indent is still open, or was set by the break at the item itself. -/
theorem Run.indent_iff (h : Run w wrapWidth s row items) (hind : s.indent = none ∨ blanks = [])
    (hfst : s.firstNonWhitespaceIx = some (s.lastWrapIx + blanks.length)) :
    (∀ b ∈ w.boundaries wrapWidth s items, b.nextIndent = min MAX_INDENT blanks.length) ↔
      ∀ t ∈ w.turns wrapWidth s items, w.IndentFits wrapWidth t.1 t.2 := by
  induction h with
  | done => simp [boundaries, turns]
  | stays _ hst _ ih =>
    have hthis : w.IndentFits wrapWidth _ _ := fun hover => absurd hover hst.fits
    rw [hst.boundaries, hst.turns, forall_mem_cons, and_iff_right hthis]
    exact ih (hst.indent ▸ hind) (hst.lastWrapIx ▸ hst.first_eq w hfst)
  | @breaks s s' item pre carried items _ hbr run =>
    have hfst' := hbr.first_eq w hfst
    have hind' : s'.indent = some (s.indent.getD (min MAX_INDENT (blanks.length % 2 ^ 32))) := by
      rw [hbr.indent_eq, hfst']
      cases s.indent <;> simp
    obtain ⟨hall, hrest⟩ := run.indent_kept w hind' hfst' (hbr.behind _ hfst)
    simp only [hbr.boundaries, hbr.turns, forall_mem_cons, hind', Option.getD_some, and_iff_left hrest]
    trans s.indent.getD (min MAX_INDENT (blanks.length % 2 ^ 32)) = min MAX_INDENT blanks.length
    · exact and_iff_left_of_imp fun heq b hmem => (hall b hmem).trans heq
    · simp only [LineWrapper.IndentFits, hbr.overflows, true_imp_iff, hfst, Option.mem_def, Option.some.injEq, forall_eq']
      cases hi : s.indent with
      | none => simp
      | some n =>
        obtain rfl := hind.resolve_left (by simp [hi])
        simp

/-- What `IndentKept` says of the rows still to come, the row being read among them. -/
def KeptFrom (s : State) (items : List WrapBoundaryCandidate) (bs : List Boundary) : Prop :=
  ∀ first, firstNonBlank s.lastWrapIx items = some first → ∀ b ∈ bs, first < b.ix →
    b.nextIndent = min MAX_INDENT (leadingBlanks (rows (s.indent.getD 0) s.lastWrapIx bs items))

theorem Run.keptFrom_iff (h : Run w wrapWidth s (blanks ++ item :: rest) items) (hitem : item.blank = false)
    (hbla : ∀ item ∈ blanks, item.blank = true) (hind : s.indent = none ∨ blanks = [])
    (hfst : s.firstNonWhitespaceIx = some (s.lastWrapIx + blanks.length)) :
    KeptFrom s (blanks ++ item :: (rest ++ items)) (w.boundaries wrapWidth s items) ↔
      ∀ t ∈ w.turns wrapWidth s items, w.IndentFits wrapWidth t.1 t.2 := by
  have hbeh : ∀ b ∈ w.boundaries wrapWidth s items, s.lastWrapIx + size blanks < b.ix := by
    rw [size_of_blank hbla]
    exact h.behind_first w hfst
  have hfnd : firstNonBlank s.lastWrapIx (blanks ++ item :: (rest ++ items)) = some (s.lastWrapIx + size blanks) := by
    rw [firstNonBlank_append _ hbla]
    simp [firstNonBlank, hitem]
  rw [← h.indent_iff w hind hfst, KeptFrom, hfnd, leadingBlanks_rows hbla hitem hbeh]
  simp only [Option.some.injEq, forall_eq']
  exact ⟨fun hk b hb => hk b hb (hbeh b hb), fun hk b hb _ => hk b hb⟩

/-- Before the first non-blank item is read, all rows are blank. -/
theorem Run.keptFrom_iff_of_blank (h : Run w wrapWidth s row items) (hbla : ∀ item ∈ row, item.blank = true)
    (hfst : s.firstNonWhitespaceIx = none) (hind : s.indent = none) :
    KeptFrom s (row ++ items) (w.boundaries wrapWidth s items) ↔ ∀ t ∈ w.turns wrapWidth s items, w.IndentFits wrapWidth t.1 t.2 := by
  have hthis : ∀ {s : State} {item}, s.firstNonWhitespaceIx = none → w.IndentFits wrapWidth s item := by
    intro s item hfst _ f hf
    simp [hfst] at hf
  induction h with
  | done => simp [boundaries, turns, KeptFrom]
  | @stays s s' item row items h hst run ih =>
    have hsame : KeptFrom s (row ++ item :: items) (w.boundaries wrapWidth s (item :: items)) ↔
        KeptFrom s' (row ++ [item] ++ items) (w.boundaries wrapWidth s' items) := by
      simp [KeptFrom, hst.boundaries, hst.lastWrapIx, hst.indent]
    rw [hsame, hst.turns, forall_mem_cons, and_iff_right (hthis hfst)]
    cases hitem : item.blank with
    | true =>
      refine ih ?_ ?_ (hst.indent.trans hind)
      · simpa [or_imp, forall_and, hitem] using hbla
      · simp [hst.first, hfst, hitem]
    | false =>
      have hsize := size_of_blank hbla
      rw [append_assoc]
      refine run.keptFrom_iff w hitem hbla (Or.inl (hst.indent.trans hind)) ?_
      simp [hst.first, hfst, hitem, hst.lastWrapIx, h.index, hsize]
  | @breaks s s' item pre carried items h hbr run ih =>
    have hnone : s.lastCandidateIx = 0 := by
      rcases h.candidate with hc | ⟨hf, -⟩
      · exact hc
      · simp [hfst] at hf
    obtain rfl := hbr.carried_nil hnone
    simp only [append_nil] at hbla
    have hskip : KeptFrom s (pre ++ [] ++ item :: items) (w.boundaries wrapWidth s (item :: items)) ↔
        KeptFrom s' ([item] ++ items) (w.boundaries wrapWidth s' items) := by
      simp only [KeptFrom, hbr.rows_eq, leadingBlanks_skip hbla]
      simp only [hbr.boundaries, forall_mem_cons, append_nil, firstNonBlank_append _ hbla, ← hbr.lastWrapIx,
        nil_append, singleton_append]
      refine forall₂_congr fun first hf => and_iff_right_of_imp ?_
      have := le_of_firstNonBlank hf
      omega
    rw [hskip, hbr.turns, forall_mem_cons, and_iff_right (hthis hfst)]
    cases hitem : item.blank with
    | true =>
      have hfst' : s'.firstNonWhitespaceIx = none := by simp [hbr.first, hfst, hitem]
      refine ih (by simp [hitem]) hfst' ?_
      simp [hbr.indent_eq, hfst', hind]
    | false =>
      refine run.keptFrom_iff w hitem (forall_mem_nil _) (Or.inr rfl) ?_
      simp [hbr.first, hfst, hitem, hbr.lastWrapIx, h.index]

/-! ## The whole line -/

theorem newline_false_of_fragments {fragments : List LineFragment}
    (hn : ∀ chars, LineFragment.text chars ∈ fragments → '\n' ∉ chars) :
    ∀ item ∈ fragments.flatMap LineFragment.wrapBoundaryCandidates, item.newline = false := by
  intro item hitem
  obtain ⟨fragment, hf, hmem⟩ := mem_flatMap.mp hitem
  cases fragment with
  | text chars =>
    obtain ⟨c, hc, rfl⟩ := mem_map.mp hmem
    simp only [WrapBoundaryCandidate.newline, decide_eq_false_iff_not]
    rintro rfl
    exact hn _ hf hc
  | element =>
    obtain rfl := mem_singleton.mp hmem
    rfl

theorem reading_start : Reading w {} [] :=
  ⟨rfl, by simp [LineWrapper.rowWidth], fun _ => rfl, by simp, Or.inl rfl⟩

/-- The wrapped line is as expected exactly when, at every break, what is moved to the next row fits there and the indent tells the
blanks of the first non-blank item's row. -/
theorem wrapLine_iff_breaks_fit (fragments : List LineFragment) (wrapWidth : ℚ)
    (hn : ∀ chars, LineFragment.text chars ∈ fragments → '\n' ∉ chars) :
    let items := fragments.flatMap LineFragment.wrapBoundaryCandidates
    let bs := w.wrapLine fragments wrapWidth
    (Placed items bs ∧ IndentKept items bs ∧ ∀ r ∈ rows 0 0 bs items, w.Fits wrapWidth r) ↔
      ∀ t ∈ w.turns wrapWidth {} items, w.IndentFits wrapWidth t.1 t.2 ∧ w.CarryFits wrapWidth t.1 t.2 := by
  intro items bs
  have hitems := newline_false_of_fragments hn
  have hrun : Run w wrapWidth {} [] items := (reading_start w).run w hitems
  have hplaced : Placed items bs := by
    obtain ⟨hord, hbs⟩ := hrun.placed
    refine ⟨hord, fun b hb => ?_⟩
    obtain ⟨h1, h2, h3⟩ := hbs b hb
    exact ⟨h2, h1, by simpa using h3⟩
  have hkept : IndentKept items bs ↔ ∀ t ∈ w.turns wrapWidth {} items, w.IndentFits wrapWidth t.1 t.2 :=
    hrun.keptFrom_iff_of_blank w (by simp) rfl rfl
  have hfit : (∀ r ∈ rows 0 0 bs items, w.Fits wrapWidth r) ↔ ∀ t ∈ w.turns wrapWidth {} items, w.CarryFits wrapWidth t.1 t.2 :=
    hrun.rows_fit_iff w (by simp)
  rw [and_iff_right hplaced, forall₂_and]
  exact and_congr hkept hfit

/-- In a monospaced font the second word moves to the next row. -/
theorem wrapLine_short_words :
    let w : LineWrapper := ⟨fun _ => 1, fun _ => Rat.num_nonneg.mp (by decide)⟩
    let fragments := [LineFragment.text [' ', 'a', ' ', 'b', 'b']]
    let items := fragments.flatMap LineFragment.wrapBoundaryCandidates
    w.wrapLine fragments 4 = [⟨3, 1⟩] ∧ Placed items (w.wrapLine fragments 4) ∧ IndentKept items (w.wrapLine fragments 4) ∧
      ∀ r ∈ rows 0 0 (w.wrapLine fragments 4) items, w.Fits 4 r := by
  intro w fragments items
  refine ⟨by decide +kernel, (wrapLine_iff_breaks_fit w fragments 4 ?_).mpr (by decide +kernel)⟩
  intro chars h
  obtain rfl : chars = [' ', 'a', ' ', 'b', 'b'] := by simpa [fragments] using h
  decide

/-- In a proportional font: the wide word behind a narrow one is moved to the next row as a whole, and is wider than a row may be. -/
theorem wrapLine_wide_word :
    let w : LineWrapper := ⟨fun c => if c = 'W' then 3 else 1, fun c => Rat.num_nonneg.mp (by split <;> decide)⟩
    let fragments := [LineFragment.text ['i', ' ', 'W', 'W']]
    let items := fragments.flatMap LineFragment.wrapBoundaryCandidates
    w.wrapLine fragments 5 = [⟨2, 0⟩] ∧
      ¬ (Placed items (w.wrapLine fragments 5) ∧ IndentKept items (w.wrapLine fragments 5) ∧
        ∀ r ∈ rows 0 0 (w.wrapLine fragments 5) items, w.Fits 5 r) := by
  intro w fragments items
  have hbs : w.wrapLine fragments 5 = [⟨2, 0⟩] := by decide +kernel
  refine ⟨hbs, fun ⟨_, _, hfit⟩ => ?_⟩
  have hrow := hfit ⟨0, [.char 'W', .char 'W']⟩ (by
    rw [hbs]
    simp [rows, items, fragments, LineFragment.wrapBoundaryCandidates, cut, WrapBoundaryCandidate.lenUtf8, Char.utf8Size])
  have hwide := hrow (by simp)
  simp only [LineWrapper.rowWidth, LineWrapper.itemWidth, w, if_true] at hwide
  norm_num at hwide

end Wu.Gpui.TextSystem
