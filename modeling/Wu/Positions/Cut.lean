import Wu.Positions.Compose

/-!
# Cutting a composition

At a position that no edit reaches, the composition of two patches is what is composed before the position, followed by what is
composed behind it.
-/

namespace Wu.Positions

open List Position

universe u

variable {T : Type u} [LinearOrder T] [Add T] [Sub T] [Position T]

namespace Composing

/-- The same state with more edits to come. -/
def extend (self : Composing T) (oldEdits newEdits : List (Edit T)) : Composing T :=
  { self with oldEdits := self.oldEdits ++ oldEdits, newEdits := self.newEdits ++ newEdits }

/-- The same state with a patch before what is composed. -/
def behind (self : Composing T) (front : Patch T) : Composing T := { self with composed := front ++ self.composed }

variable {s : Composing T}

theorem size_pushOverlap (oldEdit newEdit : Edit T) (oldEdits newEdits : List (Edit T)) :
    (s.pushOverlap oldEdit newEdit oldEdits newEdits).size = oldEdits.length + newEdits.length + 1 := by
  simp only [pushOverlap, pushOverlapEnd, size]
  split <;> simp only [length_cons] <;> omega

theorem pushOverlapStart_extend (oldEdit newEdit : Edit T) (more more' : List (Edit T)) :
    (s.extend more more').pushOverlapStart oldEdit newEdit =
      ((s.pushOverlapStart oldEdit newEdit).1.extend more more', (s.pushOverlapStart oldEdit newEdit).2) := by
  unfold pushOverlapStart
  split <;> rfl

theorem pushOverlapEnd_extend (oldEdit newEdit : Edit T) (oldEdits newEdits more more' : List (Edit T)) :
    (s.extend more more').pushOverlapEnd oldEdit newEdit (oldEdits ++ more) (newEdits ++ more') =
      (s.pushOverlapEnd oldEdit newEdit oldEdits newEdits).extend more more' := by
  unfold pushOverlapEnd
  split <;> rfl

theorem pushOverlap_extend (oldEdit newEdit : Edit T) (oldEdits newEdits more more' : List (Edit T)) :
    (s.extend more more').pushOverlap oldEdit newEdit (oldEdits ++ more) (newEdits ++ more') =
      (s.pushOverlap oldEdit newEdit oldEdits newEdits).extend more more' := by
  rw [pushOverlap, pushOverlapStart_extend]
  exact pushOverlapEnd_extend _ _ _ _ _ _

/-- A turn drops an edit. -/
theorem size_step (h : 0 < s.size) : s.step.size + 1 = s.size := by
  unfold step
  split
  · rename_i hold hnew
    rw [size, hold, hnew] at h
    exact absurd h (Nat.lt_irrefl 0)
  · rename_i oldEdit oldEdits hold hnew
    simp [size, pushOld, pushTo, catchUp, hold, hnew]
  · rename_i newEdit newEdits hold hnew
    simp [size, pushNew, pushTo, catchUp, hold, hnew]
  · rename_i oldEdit oldEdits newEdit newEdits hold hnew
    have hsize : s.size = oldEdits.length + newEdits.length + 2 := by
      rw [size, hold, hnew, length_cons, length_cons]
      omega
    split
    · rw [hsize]
      simp only [size, pushOld, pushTo, catchUp, hnew, length_cons]
      omega
    · split
      · rw [hsize]
        simp only [size, pushNew, pushTo, catchUp, hold, length_cons]
        omega
      · rw [hsize, size_pushOverlap]

/-- After as many turns as edits none is left. -/
theorem size_loop (s : Composing T) : (s.loop s.size).size = 0 := by
  induction hsize : s.size generalizing s with
  | zero => exact hsize
  | succ n ih =>
    have hstep := size_step (s := s) (by omega)
    rw [loop]
    exact ih s.step (by omega)

theorem loop_add (s : Composing T) (a b : Nat) : s.loop (a + b) = (s.loop a).loop b := by
  induction a generalizing s with
  | zero => rw [Nat.zero_add]; rfl
  | succ a ih => rw [Nat.succ_add, loop, loop, ih]

theorem nil_of_size_eq_zero (h : s.size = 0) : s.oldEdits = [] ∧ s.newEdits = [] := by
  rw [size, Nat.add_eq_zero_iff, length_eq_zero_iff, length_eq_zero_iff] at h
  exact h

end Composing

section Extend

variable {i j x m y mid : T} {s : Composing T} {oldEdits newEdits : List (Edit T)}

/-- Edits that start behind a position. -/
def StartBehind (m : T) (starts : Edit T → Range T) (edits : List (Edit T)) : Prop :=
  ∀ edit ∈ edits.head?, m < (starts edit).start ∧ (starts edit).start ≤ (starts edit).stop

/-- The edits behind the position do not change what a turn does. -/
theorem Between.step_extend (h : Between i j x m y mid s) (hsize : 0 < s.size) (hold : StartBehind m Edit.new oldEdits)
    (hnew : StartBehind m Edit.old newEdits) : (s.extend oldEdits newEdits).step = s.step.extend oldEdits newEdits := by
  obtain ⟨hgapO, hgapN, -⟩ := h
  rcases s with ⟨olds, news, composed, oldStart, newStart⟩
  simp only at hgapO hgapN
  cases olds with
  | nil =>
    cases news with
    | nil => exact absurd hsize (Nat.lt_irrefl 0)
    | cons newEdit news =>
      have hstop := (hgapN.mem mem_cons_self).2.2.2.2.1
      cases oldEdits with
      | nil => rfl
      | cons oldEdit oldEdits =>
        -- the edit behind the position is not before the one that ends before it
        obtain ⟨hlt, hle⟩ := hold oldEdit rfl
        have hst := (hgapN.mem mem_cons_self).2.2.1
        have hfst : ¬ oldEdit.new.stop < newEdit.old.start :=
          not_lt_of_ge (((hst.trans hstop).trans hlt.le).trans hle)
        have hsec : newEdit.old.stop < oldEdit.new.start := hstop.trans_lt hlt
        simp only [Composing.extend, Composing.step, nil_append, cons_append, if_neg hfst, if_pos hsec]
        rfl
  | cons oldEdit olds =>
    have hstop := (hgapO.mem mem_cons_self).2.2.2.2.2
    cases news with
    | nil =>
      cases newEdits with
      | nil => simp only [Composing.extend, Composing.step, cons_append, append_nil]; rfl
      | cons newEdit newEdits =>
        have hfst : oldEdit.new.stop < newEdit.old.start := hstop.trans_lt (hnew newEdit rfl).1
        simp only [Composing.extend, Composing.step, nil_append, cons_append, if_pos hfst]
        rfl
    | cons newEdit news =>
      simp only [Composing.extend, Composing.step, cons_append]
      split
      · rfl
      · split
        · rfl
        · exact Composing.pushOverlap_extend (s := ⟨oldEdit :: olds, newEdit :: news, composed, oldStart, newStart⟩) oldEdit newEdit
            olds news oldEdits newEdits

/-- Nor what the loop does up to the position. -/
theorem Between.loop_extend (h : Between i j x m y mid s) (hold : StartBehind m Edit.new oldEdits)
    (hnew : StartBehind m Edit.old newEdits) :
    (s.extend oldEdits newEdits).loop s.size = (s.loop s.size).extend oldEdits newEdits := by
  induction hsize : s.size generalizing s mid with
  | zero => rfl
  | succ n ih =>
    have hpos : 0 < s.size := by omega
    have hdrop := Composing.size_step hpos
    obtain ⟨mid', h'⟩ := h.step
    rw [Composing.loop, h.step_extend hpos hold hnew, Composing.loop]
    exact ih h' (by omega)

end Extend

/-! ### Behind the position -/

section Behind

variable {i j x m y mid bound : T} {s : Composing T} {front patch : Patch T} {edit : Edit T}

/-- A patch that ends before an edit is not changed when the edit is pushed. -/
theorem push_append (hfro : ∀ last ∈ front.getLast?, last.old.stop < edit.old.start) :
    Patch.push (front ++ patch) edit = front ++ Patch.push patch edit := by
  unfold Patch.push
  split
  · rfl
  · unfold Patch.pushMaybeEmpty
    rcases eq_nil_or_concat patch with rfl | ⟨patch, last, hpat⟩
    · rw [append_nil, getLast?_nil]
      cases hlast : front.getLast? with
      | none => rw [getLast?_eq_none_iff.1 hlast]; rfl
      | some last => exact if_neg (not_le_of_gt (hfro last hlast))
    · rw [concat_eq_append] at hpat
      subst hpat
      rw [← append_assoc, getLast?_concat, getLast?_concat]
      simp only
      split
      · rw [dropLast_concat, dropLast_concat, append_assoc]
      · rw [append_assoc, append_assoc, append_assoc]

/-- Edits start behind a bound when the one that is pushed does. -/
theorem push_starts (hpat : ∀ edit ∈ patch, bound < edit.old.start) (hedit : bound < edit.old.start) :
    ∀ other ∈ Patch.push patch edit, bound < other.old.start := by
  unfold Patch.push
  split
  · exact hpat
  · unfold Patch.pushMaybeEmpty
    rcases eq_nil_or_concat patch with rfl | ⟨patch, last, hlast⟩
    · simpa using hedit
    · rw [concat_eq_append] at hlast
      subst hlast
      rw [getLast?_concat]
      simp only
      split
      · rw [dropLast_concat]
        intro other hoth
        rcases mem_append.1 hoth with hoth | hoth
        · exact hpat other (mem_append_left _ hoth)
        · rw [mem_singleton.1 hoth]
          exact hpat last (by simp)
      · intro other hoth
        rcases mem_append.1 hoth with hoth | hoth
        · exact hpat other hoth
        · rw [mem_singleton.1 hoth]
          exact hedit

/-- What is pushed from now on starts behind the bound. -/
def Ahead (bound : T) (s : Composing T) : Prop :=
  bound < s.oldStart ∨ bound ≤ s.oldStart ∧ (∀ edit ∈ s.oldEdits.head?, s.oldStart < edit.old.start) ∧
    ∀ edit ∈ s.newEdits.head?, s.newStart < edit.new.start

/-- Where the next old edit is caught up with. -/
theorem Ahead.catchUpOld (h : Ahead bound s) (hedit : edit ∈ s.oldEdits.head?) :
    bound < s.oldStart + (edit.old.start - s.oldStart) := by
  rcases h with hlt | ⟨hle, hold, -⟩
  · exact hlt.trans_le (le_add _ _)
  · have hst := hold edit hedit
    rw [add_sub_of_le hst.le]
    exact hle.trans_lt hst

/-- Where the next new edit is caught up with. -/
theorem Ahead.catchUpNew (h : Ahead bound s) (hedit : edit ∈ s.newEdits.head?) :
    bound < s.oldStart + (edit.new.start - s.newStart) := by
  rcases h with hlt | ⟨hle, -, hnew⟩
  · exact hlt.trans_le (le_add _ _)
  · have hst := Position.sub_lt_sub le_rfl (hnew edit hedit)
    rw [Position.sub_self] at hst
    calc bound ≤ s.oldStart + Position.zero := by rw [Position.add_zero]; exact hle
      _ < s.oldStart + (edit.new.start - s.newStart) := Position.add_lt_add_left.2 hst

/-- What a turn does is the same behind a patch that ends at the bound, and all of it is behind the bound. -/
structure Frames (bound : T) (front : Patch T) (s s' t : Composing T) : Prop where
  same : t = s'.behind front
  starts : (∀ edit ∈ s.composed, bound < edit.old.start) → ∀ edit ∈ s'.composed, bound < edit.old.start
  start : bound < s'.oldStart

/-- A push whose start is behind the bound. -/
theorem frames_pushTo (hfro : ∀ last ∈ front.getLast?, last.old.stop ≤ bound) (hst : bound < s.oldStart) {a b : T}
    (ha : s.oldStart ≤ a) : Frames bound front s (s.pushTo a b) ((s.behind front).pushTo a b) where
  same := by
    simp only [Composing.pushTo, Composing.behind]
    rw [push_append fun last hlast => (hfro last hlast).trans_lt hst]
  starts := fun h => push_starts h hst
  start := hst.trans_le ha

/-- The first push of two edits that intersect. -/
theorem frames_pushOverlapStart {oldEdit newEdit : Edit T} (hfro : ∀ last ∈ front.getLast?, last.old.stop ≤ bound)
    (hahe : Ahead bound s) (hold : oldEdit ∈ s.oldEdits.head?) (hnew : newEdit ∈ s.newEdits.head?)
    (hst : s.oldStart ≤ oldEdit.old.start) (hstop : oldEdit.old.start ≤ oldEdit.old.stop) :
    Frames bound front s (s.pushOverlapStart oldEdit newEdit).1 ((s.behind front).pushOverlapStart oldEdit newEdit).1 ∧
      ((s.behind front).pushOverlapStart oldEdit newEdit).2 = (s.pushOverlapStart oldEdit newEdit).2 := by
  unfold Composing.pushOverlapStart
  split
  · refine ⟨?_, rfl⟩
    have hcau : s.oldStart + (oldEdit.old.start - s.oldStart) = oldEdit.old.start := add_sub_of_le hst
    have hfram := frames_pushTo (s := s.catchUp (oldEdit.old.start - s.oldStart))
      (a := min (s.oldStart + (oldEdit.old.start - s.oldStart) + (newEdit.old.start - oldEdit.new.start)) oldEdit.old.stop)
      (b := s.newStart + (oldEdit.old.start - s.oldStart) + (newEdit.old.start - oldEdit.new.start)) hfro
      (hahe.catchUpOld hold) (le_min (le_add _ _) (hcau.le.trans hstop))
    exact ⟨hfram.same, hfram.starts, hfram.start⟩
  · refine ⟨?_, rfl⟩
    have hfram := frames_pushTo (s := s.catchUp (newEdit.new.start - s.newStart))
      (b := min (s.newStart + (newEdit.new.start - s.newStart) + (oldEdit.new.start - newEdit.old.start)) newEdit.new.stop)
      hfro (hahe.catchUpNew hnew) (le_add _ (oldEdit.new.start - newEdit.old.start))
    exact ⟨hfram.same, hfram.starts, hfram.start⟩

/-- The second push of two edits that intersect. -/
theorem frames_pushOverlapEnd (oldEdit newEdit : Edit T) (oldEdits newEdits : List (Edit T))
    (hfro : ∀ last ∈ front.getLast?, last.old.stop ≤ bound) (hst : bound < s.oldStart) :
    Frames bound front s (s.pushOverlapEnd oldEdit newEdit oldEdits newEdits)
      ((s.behind front).pushOverlapEnd oldEdit newEdit oldEdits newEdits) := by
  unfold Composing.pushOverlapEnd
  split
  · have hfram := frames_pushTo (s := s) (b := s.newStart + newEdit.newLen) hfro hst (le_add _ (min oldEdit.oldLen newEdit.oldLen))
    exact ⟨congrArg (fun t : Composing T => Composing.mk _ newEdits t.composed t.oldStart t.newStart) hfram.same,
      hfram.starts, hfram.start⟩
  · have hfram := frames_pushTo (s := s) (b := s.newStart + min oldEdit.newLen newEdit.newLen) hfro hst (le_add _ oldEdit.oldLen)
    exact ⟨congrArg (fun t : Composing T => Composing.mk oldEdits _ t.composed t.oldStart t.newStart) hfram.same,
      hfram.starts, hfram.start⟩

/-- A turn for two edits that intersect. -/
theorem frames_pushOverlap {oldEdit newEdit : Edit T} (oldEdits newEdits : List (Edit T))
    (hfro : ∀ last ∈ front.getLast?, last.old.stop ≤ bound) (hahe : Ahead bound s) (hold : oldEdit ∈ s.oldEdits.head?)
    (hnew : newEdit ∈ s.newEdits.head?) (hst : s.oldStart ≤ oldEdit.old.start) (hstop : oldEdit.old.start ≤ oldEdit.old.stop) :
    Frames bound front s (s.pushOverlap oldEdit newEdit oldEdits newEdits)
      ((s.behind front).pushOverlap oldEdit newEdit oldEdits newEdits) := by
  obtain ⟨hfst, hedit⟩ := frames_pushOverlapStart hfro hahe hold hnew hst hstop
  have hsec := frames_pushOverlapEnd (s.pushOverlapStart oldEdit newEdit).2.1 (s.pushOverlapStart oldEdit newEdit).2.2
    oldEdits newEdits hfro hfst.start
  refine ⟨?_, fun h => hsec.starts (hfst.starts h), hsec.start⟩
  show ((s.behind front).pushOverlapStart oldEdit newEdit).1.pushOverlapEnd
    ((s.behind front).pushOverlapStart oldEdit newEdit).2.1 ((s.behind front).pushOverlapStart oldEdit newEdit).2.2
    oldEdits newEdits = _
  rw [hedit, hfst.same]
  exact hsec.same

/-- A turn, behind a patch that ends at the bound. -/
theorem Between.step_behind (h : Between i j x m y mid s) (hsize : 0 < s.size)
    (hfro : ∀ last ∈ front.getLast?, last.old.stop ≤ bound) (hahe : Ahead bound s) :
    Frames bound front s s.step (s.behind front).step := by
  obtain ⟨hgapO, hgapN, -⟩ := h
  rcases s with ⟨olds, news, composed, oldStart, newStart⟩
  simp only at hgapO hgapN
  have hpushO (oldEdit : Edit T) (olds' : List (Edit T)) (holds : olds = oldEdit :: olds') :
      Frames bound front ⟨olds, news, composed, oldStart, newStart⟩
        (Composing.pushOld ⟨olds, news, composed, oldStart, newStart⟩ oldEdit olds')
        (Composing.pushOld (Composing.behind ⟨olds, news, composed, oldStart, newStart⟩ front) oldEdit olds') := by
    subst holds
    have hfram := frames_pushTo (s := Composing.catchUp ⟨oldEdit :: olds', news, composed, oldStart, newStart⟩
      (oldEdit.old.start - oldStart)) (b := newStart + (oldEdit.old.start - oldStart) + oldEdit.newLen) hfro
      (hahe.catchUpOld rfl) (le_add _ oldEdit.oldLen)
    exact ⟨congrArg (fun t : Composing T => { t with oldEdits := olds' }) hfram.same, hfram.starts, hfram.start⟩
  have hpushN (newEdit : Edit T) (news' : List (Edit T)) (hnews : news = newEdit :: news') :
      Frames bound front ⟨olds, news, composed, oldStart, newStart⟩
        (Composing.pushNew ⟨olds, news, composed, oldStart, newStart⟩ newEdit news')
        (Composing.pushNew (Composing.behind ⟨olds, news, composed, oldStart, newStart⟩ front) newEdit news') := by
    subst hnews
    have hfram := frames_pushTo (s := Composing.catchUp ⟨olds, newEdit :: news', composed, oldStart, newStart⟩
      (newEdit.new.start - newStart)) (b := newStart + (newEdit.new.start - newStart) + newEdit.newLen) hfro
      (hahe.catchUpNew rfl) (le_add _ newEdit.oldLen)
    exact ⟨congrArg (fun t : Composing T => { t with newEdits := news' }) hfram.same, hfram.starts, hfram.start⟩
  cases olds with
  | nil =>
    cases news with
    | nil => exact absurd hsize (Nat.lt_irrefl 0)
    | cons newEdit news => exact hpushN newEdit news rfl
  | cons oldEdit olds =>
    cases news with
    | nil => exact hpushO oldEdit olds rfl
    | cons newEdit news =>
      unfold Composing.step Composing.behind
      simp only
      split
      · exact hpushO oldEdit olds rfl
      · split
        · exact hpushN newEdit news rfl
        · exact frames_pushOverlap (s := ⟨oldEdit :: olds, newEdit :: news, composed, oldStart, newStart⟩) olds news hfro hahe
            rfl rfl hgapO.1 hgapO.2.2.2.1

/-- The loop, behind a patch that ends at the bound. -/
theorem Between.loop_behind (h : Between i j x m y mid s) (hfro : ∀ last ∈ front.getLast?, last.old.stop ≤ bound)
    (hahe : Ahead bound s) (hsta : ∀ edit ∈ s.composed, bound < edit.old.start) :
    (s.behind front).loop s.size = (s.loop s.size).behind front ∧ ∀ edit ∈ (s.loop s.size).composed, bound < edit.old.start := by
  induction hsize : s.size generalizing s mid with
  | zero => exact ⟨rfl, hsta⟩
  | succ n ih =>
    have hpos : 0 < s.size := by omega
    have hdrop := Composing.size_step hpos
    obtain ⟨hsame, hsta', hst⟩ := h.step_behind hpos hfro hahe
    obtain ⟨mid', h'⟩ := h.step
    rw [Composing.loop, Composing.loop, hsame]
    exact ih h' (.inl hst) (hsta' hsta) (by omega)

end Behind

/-! ### The cut -/

section Advance

variable {i j m n x y mid : T} {olds news : List (Edit T)} {composed : Patch T} {oldEdit newEdit : Edit T}

variable (olds news composed) in
/-- Catching up with an edit of the first patch in one step or in two. -/
theorem catchUp_old (hx : i ≤ x) (hy : j ≤ y) (heq : x - i = y - j) (hst : x ≤ oldEdit.old.start) :
    Composing.catchUp ⟨olds, news, composed, i, j⟩ (oldEdit.old.start - i) =
      Composing.catchUp ⟨olds, news, composed, x, y⟩ (oldEdit.old.start - x) := by
  simp only [Composing.catchUp, Composing.mk.injEq, true_and]
  rw [add_sub_of_le (hx.trans hst), add_sub_of_le hst, ← sub_add_sub hx hst, heq, ← Position.add_assoc, add_sub_of_le hy]
  exact ⟨rfl, rfl⟩

variable (olds news composed) in
/-- Catching up with an edit of the second patch in one step or in two. -/
theorem catchUp_new (hx : i ≤ x) (hy : j ≤ y) (heq : x - i = y - j) (hst : y ≤ newEdit.new.start) :
    Composing.catchUp ⟨olds, news, composed, i, j⟩ (newEdit.new.start - j) =
      Composing.catchUp ⟨olds, news, composed, x, y⟩ (newEdit.new.start - y) := by
  simp only [Composing.catchUp, Composing.mk.injEq, true_and]
  rw [add_sub_of_le (hy.trans hst), add_sub_of_le hst, ← sub_add_sub hy hst, ← heq, ← Position.add_assoc, add_sub_of_le hx]
  exact ⟨rfl, rfl⟩

/-- A turn catches up with the next edit from any position before it. -/
theorem step_advance (hx : i ≤ x) (hy : j ≤ y) (heq : x - i = y - j) (hold : ∀ edit ∈ olds.head?, x ≤ edit.old.start)
    (hnew : ∀ edit ∈ news.head?, y ≤ edit.new.start) (hsize : 0 < olds.length + news.length) :
    Composing.step ⟨olds, news, composed, i, j⟩ = Composing.step ⟨olds, news, composed, x, y⟩ := by
  have hcatUO (oldEdit : Edit T) (hedit : oldEdit ∈ olds.head?) :=
    catchUp_old olds news composed hx hy heq (hold oldEdit hedit)
  have hcatUN (newEdit : Edit T) (hedit : newEdit ∈ news.head?) :=
    catchUp_new olds news composed hx hy heq (hnew newEdit hedit)
  cases olds with
  | nil =>
    cases news with
    | nil => exact absurd hsize (Nat.lt_irrefl 0)
    | cons newEdit news =>
      simp only [Composing.step, Composing.pushNew]
      rw [hcatUN newEdit rfl]
  | cons oldEdit olds =>
    cases news with
    | nil =>
      simp only [Composing.step, Composing.pushOld]
      rw [hcatUO oldEdit rfl]
    | cons newEdit news =>
      simp only [Composing.step, Composing.pushOld, Composing.pushNew, Composing.pushOverlap, Composing.pushOverlapStart]
      rw [hcatUO oldEdit rfl, hcatUN newEdit rfl]

/-- So the loop composes the same from any position before the next edits. -/
theorem loop_advance (hx : i ≤ x) (hy : j ≤ y) (heq : x - i = y - j) (hold : ∀ edit ∈ olds.head?, x ≤ edit.old.start)
    (hnew : ∀ edit ∈ news.head?, y ≤ edit.new.start) :
    (Composing.loop (olds.length + news.length) ⟨olds, news, composed, i, j⟩).composed =
      (Composing.loop (olds.length + news.length) ⟨olds, news, composed, x, y⟩).composed := by
  cases hsize : olds.length + news.length with
  | zero => rfl
  | succ n => rw [Composing.loop, Composing.loop, step_advance hx hy heq hold hnew (by omega)]

end Advance

section Cut

variable {m n k x y mid : T} {olds olds' news news' : List (Edit T)}

/-- The composition from two positions on. -/
def composeFrom (i j : T) (olds news : List (Edit T)) : Patch T :=
  (Composing.loop (olds.length + news.length) ⟨olds, news, [], i, j⟩).composed

theorem compose_eq (olds news : List (Edit T)) : Patch.compose olds news = composeFrom Position.zero Position.zero olds news := rfl

/-- A composition goes from the start of the two outer texts to their ends. -/
theorem built_composeFrom {i j : T} (hold : Gaps x m i mid olds) (hnew : Gaps m y mid j news) :
    Built i j x y (composeFrom i j olds news) := by
  have hst : Between i j x m y mid ⟨olds, news, [], i, j⟩ := ⟨hold, hnew, ⟨le_rfl, le_rfl, by simp⟩, .nil⟩
  obtain ⟨mid', hend⟩ := hst.loop (olds.length + news.length)
  obtain ⟨holds, hnews⟩ := Composing.nil_of_size_eq_zero (Composing.size_loop ⟨olds, news, [], i, j⟩)
  obtain ⟨hgapO, hgapN, hbui⟩ := hend
  have hsize : Composing.size ⟨olds, news, [], i, j⟩ = olds.length + news.length := rfl
  rw [hsize] at holds hnews
  rw [holds] at hgapO
  rw [hnews] at hgapN
  exact hbui.extend hgapO.1 hgapN.2.1 (hgapO.2.2.trans hgapN.2.2)

/-- What is behind the cut is composed from the cut on. -/
theorem composeFrom_behind {i j : T} {composed : Patch T} (hbui : Built Position.zero Position.zero i j composed)
    (hx : i ≤ x) (hy : j ≤ y) (heq : x - i = y - j) (hold : Gaps n k x m olds) (hnew : Gaps k mid m y news)
    (hlat : ∀ edit ∈ olds.head?, x < edit.old.start) (hlat' : ∀ edit ∈ news.head?, y < edit.new.start) :
    (Composing.loop (olds.length + news.length) ⟨olds, news, composed, i, j⟩).composed =
        composed ++ composeFrom x y olds news ∧ ∀ edit ∈ composeFrom x y olds news, x < edit.old.start := by
  have hbetw : Between x y n k mid m ⟨olds, news, [], x, y⟩ := ⟨hold, hnew, ⟨le_rfl, le_rfl, by simp⟩, .nil⟩
  have hfro : ∀ last ∈ composed.getLast?, last.old.stop ≤ x := fun last hlast =>
    (hbui.gaps.mem (List.mem_of_getLast? hlast)).2.2.2.2.1.trans hx
  obtain ⟨hsame, hsta⟩ := hbetw.loop_behind hfro (.inr ⟨le_rfl, hlat, hlat'⟩) (by simp)
  refine ⟨?_, hsta⟩
  have hbeh : Composing.behind ⟨olds, news, [], x, y⟩ composed = ⟨olds, news, composed, x, y⟩ := by
    simp only [Composing.behind, append_nil]
  rw [loop_advance hx hy heq (fun edit hedit => (hlat edit hedit).le) fun edit hedit => (hlat' edit hedit).le, ← hbeh]
  exact congrArg Composing.composed hsame

/-- The cut: no edit of either patch reaches the position, which is `x`, `m` and `y` in the three texts. -/
theorem compose_cut (hold : Gaps x m Position.zero Position.zero olds) (hnew : Gaps m y Position.zero Position.zero news)
    (hold' : Gaps n k x m olds') (hnew' : Gaps k mid m y news') (hbeh : ∀ edit ∈ olds'.head?, m < edit.new.start)
    (hbeh' : ∀ edit ∈ news'.head?, m < edit.old.start) :
    Patch.compose (olds ++ olds') (news ++ news') = Patch.compose olds news ++ composeFrom x y olds' news' ∧
      ∀ edit ∈ composeFrom x y olds' news', x < edit.old.start := by
  have hlat : ∀ edit ∈ olds'.head?, x < edit.old.start := by
    intro edit hedit
    cases olds' with
    | nil => cases hedit
    | cons first olds' =>
      obtain rfl : first = edit := Option.some.inj hedit
      exact (lt_iff_of_sub_eq hold'.1 hold'.2.1 hold'.2.2.1).2 (hbeh first rfl)
  have hlat' : ∀ edit ∈ news'.head?, y < edit.new.start := by
    intro edit hedit
    cases news' with
    | nil => cases hedit
    | cons first news' =>
      obtain rfl : first = edit := Option.some.inj hedit
      exact (lt_iff_of_sub_eq hnew'.1 hnew'.2.1 hnew'.2.2.1).1 (hbeh' first rfl)
  have hst : StartBehind m Edit.new olds' := fun edit hedit =>
    ⟨hbeh edit hedit, (hold'.mem (List.mem_of_mem_head? hedit)).2.2.2.1⟩
  have hst' : StartBehind m Edit.old news' := fun edit hedit =>
    ⟨hbeh' edit hedit, (hnew'.mem (List.mem_of_mem_head? hedit)).2.2.1⟩
  -- up to the cut the loop does what it does without the edits behind it
  have hbetw : Between Position.zero Position.zero x m y Position.zero ⟨olds, news, [], Position.zero, Position.zero⟩ :=
    ⟨hold, hnew, ⟨le_rfl, le_rfl, by simp⟩, .nil⟩
  have hext := hbetw.loop_extend hst hst'
  obtain ⟨mid', hgapO, hgapN, hbui⟩ := hbetw.loop (olds.length + news.length)
  obtain ⟨holds, hnews⟩ := Composing.nil_of_size_eq_zero (Composing.size_loop ⟨olds, news, [], Position.zero, Position.zero⟩)
  have hcom : (Composing.loop (olds.length + news.length) ⟨olds, news, [], Position.zero, Position.zero⟩).composed =
      Patch.compose olds news := rfl
  simp only [Composing.size] at hext holds hnews
  have hwho : Patch.compose (olds ++ olds') (news ++ news') =
      (Composing.loop (olds.length + news.length + (olds'.length + news'.length))
        (Composing.extend ⟨olds, news, [], Position.zero, Position.zero⟩ olds' news')).composed := by
    rw [Patch.compose, length_append, length_append, Nat.add_add_add_comm]
    rfl
  rw [hwho, Composing.loop_add, hext]
  generalize Composing.loop (olds.length + news.length) ⟨olds, news, [], Position.zero, Position.zero⟩ = s at *
  rcases s with ⟨restOld, restNew, composed, i, j⟩
  simp only at holds hnews hgapO hgapN hbui hcom
  subst holds hnews hcom
  exact composeFrom_behind hbui hgapO.1 hgapN.2.1 (hgapO.2.2.trans hgapN.2.2) hold' hnew' hlat hlat'

end Cut

end Wu.Positions
