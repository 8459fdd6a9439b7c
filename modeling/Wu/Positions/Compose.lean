import Wu.Positions.Patch

/-!
# Composing patches

A patch aligns the positions of two texts that are outside its edits. The composition of two patches aligns what they align one
after the other, and it can be cut at a position that no edit reaches: what comes before the position and what comes behind it
are composed on their own.
-/

namespace Wu.Positions

open List Position

universe u

variable {T : Type u} [LinearOrder T] [Add T] [Sub T] [Position T]

/-- From two positions up to two others, the distances between the edits are the same in both texts. -/
def Gaps (m n : T) : T → T → Patch T → Prop
  | i, j, [] => i ≤ m ∧ j ≤ n ∧ m - i = n - j
  | i, j, edit :: edits =>
    i ≤ edit.old.start ∧ j ≤ edit.new.start ∧ edit.old.start - i = edit.new.start - j ∧
      edit.old.start ≤ edit.old.stop ∧ edit.new.start ≤ edit.new.stop ∧ Gaps m n edit.old.stop edit.new.stop edits

/-- The edits are in order and do not touch. -/
def Apart (patch : Patch T) : Prop := patch.Pairwise fun a b => a.old.stop < b.old.start

section Gaps

variable {i j m n x y : T} {edit : Edit T} {patch other : Patch T}

section

variable (h : Gaps m n i j patch)
include h

theorem Gaps.le : i ≤ m ∧ j ≤ n := by
  induction patch generalizing i j with
  | nil => exact ⟨h.1, h.2.1⟩
  | cons edit patch ih =>
    obtain ⟨hi, hj, -, hold, hnew, hrest⟩ := h
    have := ih hrest
    exact ⟨(hi.trans hold).trans this.1, (hj.trans hnew).trans this.2⟩

/-- Each edit is between the positions. -/
theorem Gaps.mem (hmem : edit ∈ patch) :
    i ≤ edit.old.start ∧ j ≤ edit.new.start ∧ edit.old.start ≤ edit.old.stop ∧ edit.new.start ≤ edit.new.stop ∧
      edit.old.stop ≤ m ∧ edit.new.stop ≤ n := by
  induction patch generalizing i j with
  | nil => cases hmem
  | cons first patch ih =>
    obtain ⟨hi, hj, -, hold, hnew, hrest⟩ := h
    rcases mem_cons.1 hmem with rfl | hmem
    · exact ⟨hi, hj, hold, hnew, hrest.le.1, hrest.le.2⟩
    · obtain ⟨h1, h2, h3⟩ := ih hrest hmem
      exact ⟨(hi.trans hold).trans h1, (hj.trans hnew).trans h2, h3⟩

/-- The positions behind the edits may be moved on in both texts. -/
theorem Gaps.extend (hx : m ≤ x) (hy : n ≤ y) (heq : x - m = y - n) : Gaps x y i j patch := by
  induction patch generalizing i j with
  | nil =>
    obtain ⟨hi, hj, hgap⟩ := h
    exact ⟨hi.trans hx, hj.trans hy, sub_eq_sub_trans hi hx hj hy hgap heq⟩
  | cons edit patch ih =>
    obtain ⟨hi, hj, hgap, hold, hnew, hrest⟩ := h
    exact ⟨hi, hj, hgap, hold, hnew, ih hrest⟩

/-- The positions before the edits may be moved on in both texts, up to the first edit. -/
theorem Gaps.advance (hx : i ≤ x) (hy : j ≤ y) (heq : x - i = y - j)
    (hm : x ≤ m) (hn : y ≤ n) (hfst : ∀ edit ∈ patch.head?, x ≤ edit.old.start ∧ y ≤ edit.new.start) :
    Gaps m n x y patch := by
  cases patch with
  | nil => exact ⟨hm, hn, sub_eq_sub_rest hx hm hy hn heq h.2.2⟩
  | cons edit patch =>
    obtain ⟨hi, hj, hgap, hrest⟩ := h
    obtain ⟨hold, hnew⟩ := hfst edit rfl
    exact ⟨hold, hnew, sub_eq_sub_rest hx hold hy hnew heq hgap, hrest⟩

/-- The positions before the edits move on to a position of the old text that is not behind the first edit. -/
theorem Gaps.moveOn (hx : i ≤ x) (hm : x ≤ m) (hfst : ∀ edit ∈ patch.head?, x ≤ edit.old.start) : Gaps m n x (j + (x - i)) patch := by
  have hy : j + (x - i) ≤ n := by
    have hn := h.le.2
    cases patch with
    | nil =>
      rw [← add_sub_of_le hn, Position.add_le_add_left, ← h.2.2]
      exact Position.sub_le_sub hx hm
    | cons edit patch =>
      obtain ⟨hi, hj, hgap, -, hnew, hrest⟩ := h
      have hle : j + (x - i) ≤ edit.new.start := by
        rw [← add_sub_of_le hj, Position.add_le_add_left, ← hgap]
        exact Position.sub_le_sub hx (hfst edit rfl)
      exact (hle.trans hnew).trans hrest.le.2
  refine h.advance hx (le_add _ _) (Position.add_sub_cancel _ _).symm hm hy fun edit hedit => ⟨hfst edit hedit, ?_⟩
  cases patch with
  | nil => cases hedit
  | cons first patch =>
    obtain rfl : first = edit := Option.some.inj hedit
    obtain ⟨hi, hj, hgap, -⟩ := h
    rw [← add_sub_of_le hj, Position.add_le_add_left, ← hgap]
    exact Position.sub_le_sub hx (hfst first rfl)

/-- The same from the new text to the old one. -/
theorem Gaps.invert : Gaps n m j i patch.invert := by
  induction patch generalizing i j with
  | nil => exact ⟨h.2.1, h.1, h.2.2.symm⟩
  | cons edit patch ih =>
    obtain ⟨hi, hj, hgap, hold, hnew, hrest⟩ := h
    exact ⟨hj, hi, hgap.symm, hnew, hold, ih hrest⟩

end

omit [LinearOrder T] [Add T] [Sub T] [Position T] in
theorem invert_invert (patch : Patch T) : patch.invert.invert = patch := by
  simp [Patch.invert, Edit.invert, Function.comp_def]

/-- The positions before the edits move on to a position of the new text that is not behind the first edit. -/
theorem Gaps.moveOnNew (h : Gaps m n i j patch) (hy : j ≤ y) (hn : y ≤ n) (hfst : ∀ edit ∈ patch.head?, y ≤ edit.new.start) :
    Gaps m n (i + (y - j)) y patch := by
  have hinv := h.invert.moveOn hy hn fun edit hedit => by
    rw [Patch.invert, head?_map] at hedit
    obtain ⟨other, hoth, rfl⟩ := Option.map_eq_some_iff.1 hedit
    exact hfst other hoth
  have := hinv.invert
  rwa [invert_invert] at this

/-- The positions behind the edits may be moved back, to a position of the new text that is not before the last edit. -/
theorem Gaps.retract (h : Gaps m n i j patch) (hj : j ≤ y) (hn : y ≤ n) (hstop : ∀ edit ∈ patch, edit.new.stop ≤ y) :
    ∃ x, Gaps x y i j patch ∧ x ≤ m ∧ m - x = n - y := by
  induction patch generalizing i j with
  | nil =>
    have hle : i + (y - j) ≤ m := by
      rw [← add_sub_of_le h.1, Position.add_le_add_left, h.2.2]
      exact Position.sub_le_sub hj hn
    refine ⟨i + (y - j), ⟨le_add _ _, hj, Position.add_sub_cancel _ _⟩, hle, ?_⟩
    exact sub_eq_sub_rest (le_add _ _) hle hj hn (Position.add_sub_cancel _ _) h.2.2
  | cons edit patch ih =>
    obtain ⟨hi, hj', hgap, hold, hnew, hrest⟩ := h
    obtain ⟨x, hx, hle, heq⟩ := ih hrest (hstop edit mem_cons_self) fun other hoth =>
      hstop other (.tail _ hoth)
    exact ⟨x, ⟨hi, hj', hgap, hold, hnew, hx⟩, hle, heq⟩

/-- Patches one behind the other. -/
theorem Gaps.append (h : Gaps m n i j patch) (h' : Gaps x y m n other) : Gaps x y i j (patch ++ other) := by
  induction patch generalizing i j with
  | nil =>
    obtain ⟨hi, hj, hgap⟩ := h
    cases other with
    | nil => exact ⟨hi.trans h'.1, hj.trans h'.2.1, sub_eq_sub_trans hi h'.1 hj h'.2.1 hgap h'.2.2⟩
    | cons edit other =>
      obtain ⟨hm, hn, hgap', hrest⟩ := h'
      exact ⟨hi.trans hm, hj.trans hn, sub_eq_sub_trans hi hm hj hn hgap hgap', hrest⟩
  | cons edit patch ih =>
    obtain ⟨hi, hj, hgap, hold, hnew, hrest⟩ := h
    exact ⟨hi, hj, hgap, hold, hnew, ih hrest⟩

/-- A patch that ends with an edit at the positions. -/
theorem gaps_concat : Gaps m n i j (patch ++ [edit]) ↔
    Gaps edit.old.start edit.new.start i j patch ∧ edit.old.start ≤ edit.old.stop ∧ edit.new.start ≤ edit.new.stop ∧
      edit.old.stop ≤ m ∧ edit.new.stop ≤ n ∧ m - edit.old.stop = n - edit.new.stop := by
  induction patch generalizing i j with
  | nil => simp only [nil_append, Gaps, and_assoc]
  | cons first patch ih => simp only [cons_append, Gaps, ih, and_assoc]

/-- A patch with an edit at the positions. -/
theorem gaps_append_cons : Gaps m n i j (patch ++ edit :: other) ↔
    Gaps edit.old.start edit.new.start i j patch ∧ edit.old.start ≤ edit.old.stop ∧ edit.new.start ≤ edit.new.stop ∧
      Gaps m n edit.old.stop edit.new.stop other := by
  induction patch generalizing i j with
  | nil => simp only [nil_append, Gaps, and_assoc]
  | cons first patch ih => simp only [cons_append, Gaps, ih, and_assoc]

/-- A patch whose edits do not touch, from two positions up to two others. -/
structure Built (i j m n : T) (patch : Patch T) : Prop where
  gaps : Gaps m n i j patch
  apart : Apart patch

/-- The same from the new text to the old one. -/
theorem Built.invert (h : Built i j m n patch) : Built j i n m patch.invert := by
  refine ⟨h.gaps.invert, ?_⟩
  obtain ⟨hgaps, hapa⟩ := h
  induction patch generalizing i j with
  | nil => exact List.Pairwise.nil
  | cons edit patch ih =>
    obtain ⟨hfst, hapa⟩ := pairwise_cons.1 hapa
    obtain ⟨-, -, -, -, -, hrest⟩ := hgaps
    refine pairwise_cons.2 ⟨fun other hoth => ?_, ih hrest hapa⟩
    cases patch with
    | nil => cases hoth
    | cons second patch =>
      obtain ⟨hst, hst', hgap, -, hnew, hlat⟩ := hrest
      have hlt : edit.new.stop < second.new.start :=
        (lt_iff_of_sub_eq hst hst' hgap).1 (hfst second mem_cons_self)
      rcases mem_cons.1 hoth with rfl | hoth
      · exact hlt
      · obtain ⟨later, hmem, rfl⟩ := mem_map.1 hoth
        exact (hlt.trans_le hnew).trans_le (hlat.mem hmem).2.1

/-- The two texts may be moved on. -/
theorem Built.extend (h : Built i j m n patch) (hx : m ≤ x) (hy : n ≤ y) (heq : x - m = y - n) : Built i j x y patch :=
  ⟨h.gaps.extend hx hy heq, h.apart⟩

/-- An edit at the ends of the two texts is pushed; it is merged with the last one when that one reaches the ends. -/
theorem Built.push (h : Built i j m n patch) (hx : m ≤ x) (hy : n ≤ y) : Built i j x y (patch.push ⟨⟨m, x⟩, ⟨n, y⟩⟩) := by
  unfold Patch.push
  split
  · rename_i hemp
    simp only [Edit.isEmpty, Bool.and_eq_true, beq_iff_eq] at hemp
    obtain ⟨rfl, rfl⟩ := hemp
    exact h
  · unfold Patch.pushMaybeEmpty
    rcases eq_nil_or_concat patch with rfl | ⟨front, last, hcon⟩
    · exact ⟨⟨h.gaps.1, h.gaps.2.1, h.gaps.2.2, hx, hy, le_rfl, le_rfl, by simp⟩, pairwise_singleton _ _⟩
    · rw [concat_eq_append] at hcon
      subst hcon
      obtain ⟨hgaps, hapa⟩ := h
      obtain ⟨hfro, hold, hnew, hm, hn, hend⟩ := gaps_concat.1 hgaps
      obtain ⟨hfroA, -, hlast⟩ := pairwise_append.1 hapa
      rw [getLast?_concat]
      simp only
      split
      · -- the last edit reaches the ends
        rename_i htou
        have heq : last.old.stop = m := le_antisymm hm htou
        have heq' : last.new.stop = n := by
          rw [heq, Position.sub_self] at hend
          exact eq_of_sub_eq le_rfl hn (by rw [Position.sub_self, ← hend])
        rw [dropLast_concat]
        refine ⟨gaps_concat.2 ⟨hfro, (hold.trans heq.le).trans hx, (hnew.trans heq'.le).trans hy, le_rfl, le_rfl, by simp⟩,
          pairwise_append.2 ⟨hfroA, pairwise_singleton _ _, fun a ha b hb => ?_⟩⟩
        rw [mem_singleton.1 hb]
        exact hlast a ha last (.head _)
      · rename_i hbef
        have hlt : last.old.stop < m := not_le.1 hbef
        refine ⟨gaps_concat.2 ⟨hgaps, hx, hy, le_rfl, le_rfl, by simp⟩,
          pairwise_append.2 ⟨hapa, pairwise_singleton _ _, fun a ha b hb => ?_⟩⟩
        rw [mem_singleton.1 hb]
        rcases mem_append.1 ha with ha | ha
        · exact ((hlast a ha last (.head _)).trans_le hold).trans hlt
        · rw [mem_singleton.1 ha]
          exact hlt

end Gaps

/-! ### The turns of the loop -/

/-- What the loop keeps: the patch so far starts at `i` and `j`, `mid` is the position of the text between the two patches that
it ends at, and the edits that are left go on from there up to the ends `x`, `m` and `y` of the three texts. -/
structure Between (i j x m y mid : T) (s : Composing T) : Prop where
  old : Gaps x m s.oldStart mid s.oldEdits
  new : Gaps m y mid s.newStart s.newEdits
  built : Built i j s.oldStart s.newStart s.composed

/-- Two edits that start at the ends of the patch so far. -/
structure Meets (i j x m y : T) (s : Composing T) (oldEdit newEdit : Edit T) (oldEdits newEdits : List (Edit T)) : Prop where
  oldStart : oldEdit.old.start = s.oldStart
  newStart : newEdit.new.start = s.newStart
  middle : oldEdit.new.start = newEdit.old.start
  old : Gaps x m oldEdit.old.start oldEdit.new.start (oldEdit :: oldEdits)
  new : Gaps m y newEdit.old.start newEdit.new.start (newEdit :: newEdits)
  built : Built i j s.oldStart s.newStart s.composed

section Step

variable {i j x m y mid : T} {s : Composing T} {oldEdit newEdit : Edit T} {oldEdits newEdits : List (Edit T)}

/-- The patch so far goes on over common text and then with an edit. -/
theorem Built.pushCaughtUp (h : Built i j s.oldStart s.newStart s.composed) {catchup a b : T} (ha : s.oldStart + catchup ≤ a)
    (hb : s.newStart + catchup ≤ b) : Built i j a b ((s.catchUp catchup).pushTo a b).composed :=
  (h.extend (le_add _ catchup) (le_add _ catchup) (by rw [Position.add_sub_cancel, Position.add_sub_cancel])).push ha hb

variable (oldEdits) in
/-- The ends after an edit of the first patch has been pushed. -/
theorem pushOld_starts (hold : s.oldStart ≤ oldEdit.old.start) (hstop : oldEdit.old.start ≤ oldEdit.old.stop)
    (hmid : mid ≤ oldEdit.new.start) (hnew : oldEdit.new.start ≤ oldEdit.new.stop)
    (hgap : oldEdit.old.start - s.oldStart = oldEdit.new.start - mid) :
    (s.pushOld oldEdit oldEdits).oldStart = oldEdit.old.stop ∧
      (s.pushOld oldEdit oldEdits).newStart = s.newStart + (oldEdit.new.stop - mid) := by
  constructor
  · show s.oldStart + (oldEdit.old.start - s.oldStart) + (oldEdit.old.stop - oldEdit.old.start) = _
    rw [add_sub_add_sub hold hstop, add_sub_of_le (hold.trans hstop)]
  · show s.newStart + (oldEdit.old.start - s.oldStart) + (oldEdit.new.stop - oldEdit.new.start) = _
    rw [hgap, add_sub_add_sub hmid hnew]

/-- A turn that pushes an edit of the first patch. -/
theorem Between.pushOld (h : Between i j x m y mid s) (hedit : s.oldEdits = oldEdit :: oldEdits)
    (hbef : ∀ edit ∈ s.newEdits.head?, oldEdit.new.stop ≤ edit.old.start) :
    Between i j x m y oldEdit.new.stop (s.pushOld oldEdit oldEdits) := by
  obtain ⟨hold, hnew, hbui⟩ := h
  rw [hedit] at hold
  obtain ⟨hi, hmid, hgap, hstop, hstop', hrest⟩ := hold
  obtain ⟨holdStart, hnewS⟩ := pushOld_starts oldEdits hi hstop hmid hstop' hgap
  refine ⟨?_, ?_, ?_⟩
  · rw [holdStart]
    exact hrest
  · rw [hnewS]
    exact hnew.moveOn (hmid.trans hstop') hrest.le.2 hbef
  · exact hbui.pushCaughtUp (le_add _ _) (le_add _ _)

/-- A turn that pushes an edit of the second patch. -/
theorem Between.pushNew (h : Between i j x m y mid s) (hedit : s.newEdits = newEdit :: newEdits)
    (hbef : ∀ edit ∈ s.oldEdits.head?, newEdit.old.stop ≤ edit.new.start) :
    Between i j x m y newEdit.old.stop (s.pushNew newEdit newEdits) := by
  obtain ⟨hold, hnew, hbui⟩ := h
  rw [hedit] at hnew
  obtain ⟨hmid, hj, hgap, hstop, hstop', hrest⟩ := hnew
  have holdStart : (s.pushNew newEdit newEdits).oldStart = s.oldStart + (newEdit.old.stop - mid) := by
    show s.oldStart + (newEdit.new.start - s.newStart) + (newEdit.old.stop - newEdit.old.start) = _
    rw [← hgap, add_sub_add_sub hmid hstop]
  have hnewS : (s.pushNew newEdit newEdits).newStart = newEdit.new.stop := by
    show s.newStart + (newEdit.new.start - s.newStart) + (newEdit.new.stop - newEdit.new.start) = _
    rw [add_sub_add_sub hj hstop', add_sub_of_le (hj.trans hstop')]
  refine ⟨?_, ?_, ?_⟩
  · rw [holdStart]
    exact hold.moveOnNew (hmid.trans hstop) hrest.le.1 hbef
  · rw [hnewS]
    exact hrest
  · exact hbui.pushCaughtUp (le_add _ _) (le_add _ _)

/-- The edit that starts first is pushed up to the start of the other one. -/
theorem Between.pushOverlapStart (h : Between i j x m y mid s) (hold : s.oldEdits = oldEdit :: oldEdits)
    (hnew : s.newEdits = newEdit :: newEdits) (hrch : newEdit.old.start ≤ oldEdit.new.stop)
    (hrch' : oldEdit.new.start ≤ newEdit.old.stop) :
    Meets i j x m y (s.pushOverlapStart oldEdit newEdit).1 (s.pushOverlapStart oldEdit newEdit).2.1
      (s.pushOverlapStart oldEdit newEdit).2.2 oldEdits newEdits := by
  obtain ⟨hgapO, hgapN, hbui⟩ := h
  rw [hold] at hgapO
  rw [hnew] at hgapN
  obtain ⟨hi, hmid, hgap, holdStop, hnewS, hrest⟩ := hgapO
  obtain ⟨hmid', hj, hgap', holdStop', hnewS', hrest'⟩ := hgapN
  unfold Composing.pushOverlapStart
  by_cases hfst : oldEdit.new.start < newEdit.old.start
  · rw [if_pos hfst]
    simp only [Composing.catchUp, Composing.pushTo]
    have hend : s.newStart + (oldEdit.old.start - s.oldStart) + (newEdit.old.start - oldEdit.new.start) =
        newEdit.new.start := by
      rw [hgap, add_sub_add_sub hmid hfst.le, hgap', add_sub_of_le hj]
    have hmeet : oldEdit.new.start + (newEdit.old.start - oldEdit.new.start) = newEdit.old.start :=
      add_sub_of_le hfst.le
    have hst : s.oldStart + (oldEdit.old.start - s.oldStart) = oldEdit.old.start := add_sub_of_le hi
    rw [hmeet]
    refine ⟨rfl, hend.symm, rfl, ⟨le_rfl, le_rfl, by simp, min_le_right _ _, hrch, hrest⟩,
      ⟨le_rfl, le_rfl, by simp, holdStop', hnewS', hrest'⟩, ?_⟩
    refine hbui.pushCaughtUp ?_ (le_add _ _)
    rw [hst]
    exact le_min (le_add _ _) holdStop
  · rw [if_neg hfst]
    have hle : newEdit.old.start ≤ oldEdit.new.start := not_lt.1 hfst
    simp only [Composing.catchUp, Composing.pushTo]
    have hend : s.oldStart + (newEdit.new.start - s.newStart) + (oldEdit.new.start - newEdit.old.start) =
        oldEdit.old.start := by
      rw [← hgap', add_sub_add_sub hmid' hle, ← hgap, add_sub_of_le hi]
    have hmeet : newEdit.old.start + (oldEdit.new.start - newEdit.old.start) = oldEdit.new.start := add_sub_of_le hle
    have hst : s.newStart + (newEdit.new.start - s.newStart) = newEdit.new.start := add_sub_of_le hj
    rw [hmeet]
    refine ⟨hend.symm, rfl, rfl, ⟨le_rfl, le_rfl, by simp, holdStop, hnewS, hrest⟩,
      ⟨le_rfl, le_rfl, by simp, hrch', min_le_right _ _, hrest'⟩, ?_⟩
    refine hbui.pushCaughtUp (le_add _ _) ?_
    rw [hst]
    exact le_min (le_add _ _) hnewS'

/-- The edit that ends first is pushed, and the other one goes on from its end. -/
theorem Meets.pushOverlapEnd (h : Meets i j x m y s oldEdit newEdit oldEdits newEdits) :
    ∃ mid, Between i j x m y mid (s.pushOverlapEnd oldEdit newEdit oldEdits newEdits) := by
  obtain ⟨holdStart, hnewS, hmid, hold, hnew, hbui⟩ := h
  obtain ⟨-, -, -, holdStop, hnewSt, hrest⟩ := hold
  obtain ⟨-, -, -, holdStop', hnewS', hrest'⟩ := hnew
  have hbui' {a b : T} (ha : s.oldStart ≤ a) (hb : s.newStart ≤ b) :
      Built i j a b (s.pushTo a b).composed := hbui.push ha hb
  unfold Composing.pushOverlapEnd
  by_cases hlgr : oldEdit.new.stop > newEdit.old.stop
  · rw [if_pos hlgr]
    have hend : s.newStart + newEdit.newLen = newEdit.new.stop := by
      rw [← hnewS, Edit.newLen, add_sub_of_le hnewS']
    have hle : s.oldStart + min oldEdit.oldLen newEdit.oldLen ≤ oldEdit.old.stop := by
      rw [← add_sub_of_le holdStop, holdStart, Position.add_le_add_left, ← holdStart]
      exact min_le_left _ _
    refine ⟨newEdit.old.stop, ⟨le_rfl, le_rfl, by simp [Composing.pushTo], hle, hlgr.le, hrest⟩, ?_, hbui' (le_add _ _) (le_add _ _)⟩
    simp only [Composing.pushTo, hend]
    exact hrest'
  · rw [if_neg hlgr]
    have hend : s.oldStart + oldEdit.oldLen = oldEdit.old.stop := by
      rw [← holdStart, Edit.oldLen, add_sub_of_le holdStop]
    have hle : s.newStart + min oldEdit.newLen newEdit.newLen ≤ newEdit.new.stop := by
      rw [← add_sub_of_le hnewS', hnewS, Position.add_le_add_left, ← hnewS]
      exact min_le_right _ _
    refine ⟨oldEdit.new.stop, ?_, ⟨le_rfl, le_rfl, by simp [Composing.pushTo], not_lt.1 hlgr, hle, hrest'⟩,
      hbui' (le_add _ _) (le_add _ _)⟩
    simp only [Composing.pushTo, hend]
    exact hrest

/-- A turn of the loop. -/
theorem Between.step (h : Between i j x m y mid s) : ∃ mid, Between i j x m y mid s.step := by
  unfold Composing.step
  split
  · exact ⟨mid, h⟩
  · rename_i oldEdit oldEdits hold hnew
    exact ⟨_, h.pushOld hold (by simp [hnew])⟩
  · rename_i newEdit newEdits hold hnew
    exact ⟨_, h.pushNew hnew (by simp [hold])⟩
  · rename_i oldEdit oldEdits newEdit newEdits hold hnew
    split
    · rename_i hlt
      exact ⟨_, h.pushOld hold (by simp [hnew, hlt.le])⟩
    · split
      · rename_i hlt
        exact ⟨_, h.pushNew hnew (by simp [hold, hlt.le])⟩
      · rename_i hrch hrch'
        exact (h.pushOverlapStart hold hnew (not_lt.1 hrch) (not_lt.1 hrch')).pushOverlapEnd

theorem Between.loop (n : Nat) (h : Between i j x m y mid s) : ∃ mid, Between i j x m y mid (s.loop n) := by
  induction n generalizing s mid with
  | zero => exact ⟨mid, h⟩
  | succ n ih =>
    obtain ⟨mid', h'⟩ := h.step
    exact ih h'

end Step

end Wu.Positions
