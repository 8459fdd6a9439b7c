import Mathlib.Data.List.TakeWhile
import Wu.Positions.Lookup

/-!
# Windows of a composition

To look up the positions of a range in a composition it is enough to compose the edits of a window: what comes before the window
may be replaced by a single edit, and what comes behind it may be left out.
-/

namespace Wu.Positions

open List Position Patch Option

universe u

variable {T : Type u} [LinearOrder T] [Add T] [Sub T] [Position T]

section Bounds

variable {i j m n x : T} {patch : Patch T}

/-- The positions behind the edits may be moved back, to a position of the old text that is not before the last edit. -/
theorem Gaps.retractOld (h : Gaps m n i j patch) (hi : i ≤ x) (hm : x ≤ m) (hstop : ∀ edit ∈ patch, edit.old.stop ≤ x) :
    ∃ y, Gaps x y i j patch ∧ y ≤ n ∧ n - y = m - x := by
  obtain ⟨y, hgaps, hle, heq⟩ := h.invert.retract hi hm fun edit hedit => by
    obtain ⟨other, hoth, rfl⟩ := mem_map.1 hedit
    exact hstop _ hoth
  have := hgaps.invert
  rw [invert_invert] at this
  exact ⟨y, this, hle, heq⟩

omit [Add T] [Sub T] [Position T] in
/-- Positions before another one have a bound before it. -/
theorem exists_bound {a b : T} (hab : a < b) (positions : List T) (h : ∀ x ∈ positions, x < b) :
    ∃ c, a ≤ c ∧ c < b ∧ ∀ x ∈ positions, x ≤ c := by
  induction positions with
  | nil => exact ⟨a, le_rfl, hab, by simp⟩
  | cons first positions ih =>
    obtain ⟨c, ha, hc, hle⟩ := ih fun x hx => h x (.tail _ hx)
    refine ⟨max first c, ha.trans (le_max_right _ _), max_lt (h first mem_cons_self) hc, fun x hx => ?_⟩
    rcases mem_cons.1 hx with rfl | hx
    · exact le_max_left _ _
    · exact (hle x hx).trans (le_max_right _ _)

/-- Behind the edits. -/
theorem oldToNew_behind (h : Gaps m n zero zero patch) (hx : m ≤ x) : oldToNew patch x = n + (x - m) := by
  have hlast : lastBefore patch x = patch.getLast? := lastBefore_eq_getLast? fun edit hedit =>
    ((h.mem hedit).2.2.1.trans (h.mem hedit).2.2.2.2.1).trans hx
  unfold oldToNew
  rw [hlast]
  rcases eq_nil_or_concat patch with rfl | ⟨front, last, hpat⟩
  · have heq : m = n := by
      have := h.2.2
      rwa [Position.sub_zero, Position.sub_zero] at this
    rw [getLast?_nil, ← heq, add_sub_of_le hx]
  · rw [concat_eq_append] at hpat
    subst hpat
    obtain ⟨-, -, -, hold, hnew, hgap⟩ := gaps_concat.1 h
    rw [getLast?_concat]
    simp only [ge_iff_le, hold.trans hx, if_true]
    rw [← sub_add_sub hold hx, hgap, ← Position.add_assoc, add_sub_of_le hnew]

/-- A position that goes up to the end of the new text is not behind the end of the old one. -/
theorem le_of_oldToNew_le (h : Gaps m n zero zero patch) (hx : oldToNew patch x ≤ n) : x ≤ m := by
  by_contra hlt
  rw [not_le] at hlt
  rw [oldToNew_behind h hlt.le] at hx
  have hgap : zero < x - m := by
    rw [← Position.sub_self]
    exact Position.sub_lt_sub le_rfl hlt
  refine absurd hx (not_le_of_gt ?_)
  calc n = n + zero := (Position.add_zero n).symm
    _ < n + (x - m) := Position.add_lt_add_left.2 hgap

end Bounds

section Window

variable {m n k x y z w mid : T} {olds olds' before before' later news news' : List (Edit T)} {edit last : Edit T}

/-- Behind a cut, what is before the cut may be replaced by something that goes as far. -/
theorem editForOldPosition_compose_front (hold : Gaps x m zero zero before)
    (hold' : Gaps x m zero zero before') (hnew : Gaps m y zero zero news)
    (hnew' : Gaps m y zero zero news') {later laterNew : List (Edit T)} (hlat : Gaps n k x m later)
    (hlatN : Gaps k mid m y laterNew) (hbeh : ∀ edit ∈ later.head?, m < edit.new.start)
    (hbehN : ∀ edit ∈ laterNew.head?, m < edit.old.start) (hz : x < z) :
    editForOldPosition (compose (before ++ later) (news ++ laterNew)) z =
      editForOldPosition (compose (before' ++ later) (news' ++ laterNew)) z := by
  rw [(compose_cut hold hnew hlat hlatN hbeh hbehN).1, (compose_cut hold' hnew' hlat hlatN hbeh hbehN).1]
  exact editForOldPosition_append_congr (built_composeFrom hold hnew).gaps (built_composeFrom hold' hnew').gaps hz

/-- Up to a cut, what is behind the cut may be left out. -/
theorem editForOldPosition_compose_back (hold : Gaps x m zero zero olds)
    (hnew : Gaps m y zero zero news) (hold' : Gaps n k x m olds') (hnew' : Gaps k mid m y news')
    (hbeh : ∀ edit ∈ olds'.head?, m < edit.new.start) (hbeh' : ∀ edit ∈ news'.head?, m < edit.old.start) (hz : z ≤ x) :
    editForOldPosition (compose (olds ++ olds') (news ++ news')) z = editForOldPosition (compose olds news) z := by
  obtain ⟨hcut, hsta⟩ := compose_cut hold hnew hold' hnew' hbeh hbeh'
  rw [hcut]
  exact editForOldPosition_append fun edit hedit => hz.trans_lt (hsta edit hedit)

/-- The edit that stands for all of the edits up to another one. -/
def prefixEdit (last : Edit T) : Edit T := ⟨⟨zero, last.old.stop⟩, ⟨zero, last.new.stop⟩⟩

theorem gaps_prefixEdit (last : Edit T) : Gaps last.old.stop last.new.stop zero zero [prefixEdit last] :=
  ⟨le_rfl, le_rfl, rfl, Position.zero_le _, Position.zero_le _, le_rfl, le_rfl, by simp [prefixEdit]⟩

/-- A patch that is cut behind an edit. -/
theorem Gaps.cutBehind (h : Gaps m n zero zero (before ++ last :: later)) :
    Gaps last.old.stop last.new.stop zero zero (before ++ [last]) ∧ Gaps m n last.old.stop last.new.stop later := by
  obtain ⟨hbef, hold, hnew, hlat⟩ := gaps_append_cons.1 h
  exact ⟨gaps_concat.2 ⟨hbef, hold, hnew, le_rfl, le_rfl, by simp⟩, hlat⟩

theorem gaps_nil (x : T) : Gaps x x zero zero ([] : Patch T) :=
  ⟨Position.zero_le _, Position.zero_le _, rfl⟩

/-- Before the first edit the texts are the same. -/
theorem Gaps.behindOld (h : Gaps m n zero zero olds) (hx : x ≤ m)
    (hbeh : ∀ edit ∈ olds.head?, x < edit.old.start) : Gaps m n x x olds := by
  have := h.moveOn (Position.zero_le x) hx fun edit hedit => (hbeh edit hedit).le
  rwa [Position.zero_add, Position.sub_zero] at this

theorem Gaps.behindNew (h : Gaps m n zero zero olds) (hx : x ≤ n)
    (hbeh : ∀ edit ∈ olds.head?, x < edit.new.start) : Gaps m n x x olds := by
  have := h.moveOnNew (Position.zero_le x) hx fun edit hedit => (hbeh edit hedit).le
  rwa [Position.zero_add, Position.sub_zero] at this

/-- The edits of the second patch up to the window, when the first patch starts behind them. -/
theorem editForOldPosition_compose_prefixNew (hold : Gaps x m zero zero olds) (hnew : Gaps m y zero zero (before ++ last :: later))
    (hbeh : ∀ edit ∈ olds.head?, last.old.stop < edit.new.start) (hlat : ∀ edit ∈ later.head?, last.old.stop < edit.old.start)
    (hz : last.old.stop < z) :
    editForOldPosition (compose olds (before ++ last :: later)) z =
      editForOldPosition (compose olds (prefixEdit last :: later)) z := by
  obtain ⟨hfro, hback⟩ := hnew.cutBehind
  have := editForOldPosition_compose_front (gaps_nil _) (gaps_nil _) hfro (gaps_prefixEdit last)
    (hold.behindNew hback.le.1 hbeh) hback hbeh hlat hz
  rwa [append_assoc] at this

/-- The edits of the first patch up to the window, when the second patch starts behind them. -/
theorem editForOldPosition_compose_prefixOld (hold : Gaps x m zero zero (before ++ last :: later))
    (hnew : Gaps m y zero zero news) (hlat : ∀ edit ∈ later.head?, last.new.stop < edit.new.start)
    (hbeh : ∀ edit ∈ news.head?, last.new.stop < edit.old.start) (hz : last.old.stop < z) :
    editForOldPosition (compose (before ++ last :: later) news) z =
      editForOldPosition (compose (prefixEdit last :: later) news) z := by
  obtain ⟨hfro, hback⟩ := hold.cutBehind
  have := editForOldPosition_compose_front hfro (gaps_prefixEdit last) (gaps_nil _) (gaps_nil _) hback
    (hnew.behindOld hback.le.2 hbeh) hlat hbeh hz
  rwa [append_assoc] at this

/-- A patch that is cut before an edit, at a position of the old text that the edits before it do not pass. -/
theorem Gaps.cutBefore (h : Gaps m n zero zero (before ++ edit :: later)) (hx : x ≤ edit.old.start)
    (hstop : ∀ other ∈ before, other.old.stop ≤ x) :
    ∃ y, Gaps x y zero zero before ∧ Gaps m n x y (edit :: later) := by
  obtain ⟨hbef, hold, hnew, hlat⟩ := gaps_append_cons.1 h
  obtain ⟨y, hgaps, hle, heq⟩ := hbef.retractOld (Position.zero_le x) hx hstop
  exact ⟨y, hgaps, hx, hle, heq.symm, hold, hnew, hlat⟩

/-- The edits of the second patch behind the window are left out. `w` is the end of the window. -/
theorem editForOldPosition_compose_dropNew (hold : Gaps x m zero zero olds) (hnew : Gaps m y zero zero (news ++ later))
    (hlat : ∀ edit ∈ later.head?, oldToNew olds w < edit.old.start ∧
      (∀ other ∈ olds, other.new.stop < edit.old.start) ∧ ∀ other ∈ news, other.old.stop < edit.old.start) (hz : z ≤ w) :
    editForOldPosition (compose olds (news ++ later)) z = editForOldPosition (compose olds news) z := by
  cases later with
  | nil => rw [append_nil]
  | cons edit later =>
    obtain ⟨hw, holds, hnews⟩ := hlat edit rfl
    obtain ⟨c, hc, hlt, hle⟩ := exists_bound hw
      _ (by
        intro p hp
        rcases mem_append.1 hp with hp | hp
        · obtain ⟨other, hoth, rfl⟩ := mem_map.1 hp
          exact holds _ hoth
        · obtain ⟨other, hoth, rfl⟩ := mem_map.1 hp
          exact hnews _ hoth)
    have hcm : c ≤ m := hlt.le.trans ((gaps_append_cons.1 hnew).2.1.trans (gaps_append_cons.1 hnew).2.2.2.le.1)
    obtain ⟨x', hold', hx', heq⟩ := hold.retract (Position.zero_le c) hcm fun other hoth =>
      hle _ (mem_append_left _ (mem_map_of_mem hoth))
    obtain ⟨y', hnew', hrest⟩ := hnew.cutBefore hlt.le fun other hoth =>
      hle _ (mem_append_right _ (mem_map_of_mem hoth))
    have hz' : z ≤ x' := hz.trans (le_of_oldToNew_le hold' hc)
    have hend : Gaps x m x' c ([] : Patch T) := ⟨hx', hcm, heq⟩
    have := editForOldPosition_compose_back hold' hnew' hend hrest (by simp)
      (fun other hoth => by rw [← some.inj hoth]; exact hlt) hz'
    rwa [append_nil] at this

/-- The edits of the first patch behind the window are left out. -/
theorem editForOldPosition_compose_dropOld (hold : Gaps x m zero zero (olds ++ later)) (hnew : Gaps m y zero zero news)
    (hlat : ∀ edit ∈ later.head?, z < edit.old.start ∧
      (∀ other ∈ olds, other.old.stop < edit.old.start) ∧ ∀ other ∈ news, other.old.stop < edit.new.start) :
    editForOldPosition (compose (olds ++ later) news) z = editForOldPosition (compose olds news) z := by
  cases later with
  | nil => rw [append_nil]
  | cons edit later =>
    obtain ⟨hz, holds, hnews⟩ := hlat edit rfl
    obtain ⟨b, hzb, hb, hle⟩ := exists_bound hz (olds.map _) (by simpa using holds)
    obtain ⟨c, hold', hrest⟩ := hold.cutBefore hb.le fun other hoth => hle _ (mem_map_of_mem hoth)
    have hc : c < edit.new.start := (lt_iff_of_sub_eq hrest.1 hrest.2.1 hrest.2.2.1).1 hb
    -- behind the second patch as well
    obtain ⟨d, hcd, hd, hle'⟩ := exists_bound hc (news.map _) (by simpa using hnews)
    have hdm : d ≤ m := hd.le.trans (hrest.2.2.2.2.1.trans hrest.2.2.2.2.2.le.2)
    have hold'' : Gaps (b + (d - c)) d zero zero olds :=
      hold'.extend (le_add _ _) hcd (Position.add_sub_cancel _ _)
    have hrest' := hrest.moveOnNew hcd hdm fun other hoth => by rw [← some.inj hoth]; exact hd.le
    obtain ⟨y', hnew', hy', heq⟩ := hnew.retractOld (Position.zero_le d) hdm fun other hoth =>
      hle' _ (mem_map_of_mem hoth)
    have hend : Gaps m y d y' ([] : Patch T) := ⟨hdm, hy', heq.symm⟩
    have := editForOldPosition_compose_back hold'' hnew' hrest' hend
      (fun other hoth => by rw [← some.inj hoth]; exact hd) (by simp) (hzb.trans (le_add b _))
    rwa [append_nil] at this

/-- A window of the edits stands for all of them where the edits up to one may be taken as a single edit, and where those behind the
window may be left out. -/
theorem Built.eval_window {R : Type*} {passed taken dropped : List (Edit T)} (eval : Patch T → R)
    (h : Built zero zero m n (passed.reverse ++ (taken ++ dropped)))
    (hahe : ∀ last ∈ passed.head?, ∀ before later, Gaps m n zero zero (before ++ last :: later) →
      (∀ edit ∈ later.head?, last.old.stop < edit.old.start ∧ last.new.stop < edit.new.start) →
        eval (before ++ last :: later) = eval (prefixEdit last :: later))
    (hdrop : ∀ edits, Gaps m n zero zero (edits ++ dropped) →
      (∀ edit ∈ dropped.head?, ∀ other ∈ edits, other.old.stop < edit.old.start) → eval (edits ++ dropped) = eval edits) :
    eval (passed.reverse ++ (taken ++ dropped)) = eval ((passed.head?.map prefixEdit).toList ++ taken) := by
  have happ := h.apart
  have hinv := h.invert.apart
  have hgaps := h.gaps
  rw [Patch.invert, map_append] at hinv
  have hbef : ∀ edit ∈ dropped.head?, ∀ other ∈ passed.reverse ++ taken, other.old.stop < edit.old.start := by
    intro edit hedit other hoth
    rw [← append_assoc] at happ
    exact (pairwise_append.1 happ).2.2 _ hoth edit (List.mem_of_mem_head? hedit)
  cases passed with
  | nil => exact hdrop _ hgaps hbef
  | cons last passed =>
    have hlat : ∀ edit ∈ (taken ++ dropped).head?, last.old.stop < edit.old.start ∧ last.new.stop < edit.new.start := by
      intro edit hedit
      have hmem := List.mem_of_mem_head? hedit
      exact ⟨(pairwise_append.1 happ).2.2 last (by simp) edit hmem,
        (pairwise_append.1 hinv).2.2 _ (mem_map_of_mem (by simp)) _ (mem_map_of_mem hmem)⟩
    have hspl : (last :: passed).reverse ++ (taken ++ dropped) = passed.reverse ++ last :: (taken ++ dropped) := by simp
    rw [hspl] at hgaps ⊢
    rw [hahe last rfl _ _ hgaps hlat]
    refine hdrop (prefixEdit last :: taken) ((gaps_prefixEdit last).append hgaps.cutBehind.2) fun edit hedit other hoth => ?_
    rcases mem_cons.1 hoth with rfl | hoth
    · exact hbef edit hedit last (by simp)
    · exact hbef edit hedit _ (mem_append_right _ hoth)

end Window

/-! ### Positions that no edit touches -/

/-- No edit touches the position of the old text. -/
def Outside (x : T) (patch : Patch T) : Prop := ∀ edit ∈ patch, x < edit.old.start ∨ edit.old.stop < x

section Outside

variable {i j m n x y : T} {patch olds news : Patch T}

omit [Add T] [Sub T] [Position T] in
theorem lastBefore_mem {edit : Edit T} (h : lastBefore patch x = some edit) : edit ∈ patch ∧ edit.old.start ≤ x := by
  have hmem := List.mem_of_getLast? h
  exact ⟨takeWhile_subset _ hmem, by simpa using mem_takeWhile_imp hmem⟩

omit [Position T] in
theorem editForOldPosition_of_outside (h : Outside x patch) : editForOldPosition patch x = pointEdit x (oldToNew patch x) := by
  unfold editForOldPosition oldToNew
  cases hlast : lastBefore patch x with
  | none => rfl
  | some edit =>
    obtain ⟨hmem, hst⟩ := lastBefore_mem hlast
    have hstop : edit.old.stop < x := (h edit hmem).resolve_left (not_lt_of_ge hst)
    simp only [gt_iff_lt, hstop, if_true, ge_iff_le, hstop.le, pointEdit]

/-- At a position that no edit touches a patch is cut in two. -/
theorem Gaps.split (h : Gaps m n i j patch) (hi : i ≤ x) (hm : x ≤ m) (houts : Outside x patch) :
    ∃ before after, patch = before ++ after ∧ Gaps x (lookup i j patch x).new.start i j before ∧
      Gaps m n x (lookup i j patch x).new.start after ∧ (∀ edit ∈ before, edit.old.stop < x) ∧
      ∀ edit ∈ after, x < edit.old.start := by
  induction patch generalizing i j with
  | nil =>
    exact ⟨[], [], rfl, ⟨hi, le_add _ _, (Position.add_sub_cancel _ _).symm⟩, h.moveOn hi hm (by simp), by simp, by simp⟩
  | cons edit patch ih =>
    have ⟨hst, hst', hgap, hold, hnew, hrest⟩ := h
    have hlat : Outside x patch := fun other hoth => houts _ (.tail _ hoth)
    rcases houts edit mem_cons_self with hbef | hbeh
    · have hloo : lookup i j (edit :: patch) x = pointEdit x (j + (x - i)) := if_pos hbef
      rw [hloo]
      refine ⟨[], edit :: patch, rfl, ⟨hi, le_add _ _, (Position.add_sub_cancel _ _).symm⟩,
        h.moveOn hi hm fun first hfst => ?_, by simp, fun other hoth => ?_⟩
      · rw [← some.inj hfst]
        exact hbef.le
      · rcases mem_cons.1 hoth with rfl | hoth
        · exact hbef
        · exact (hbef.trans_le hold).trans_le (hrest.mem hoth).1
    · have hloo : lookup i j (edit :: patch) x = lookup edit.old.stop edit.new.stop patch x := by
        rw [lookup, if_neg (not_lt_of_ge (hold.trans hbeh.le)), if_neg (not_le_of_gt hbeh)]
      rw [hloo]
      obtain ⟨before, after, hpat, hfro, hback, hstop, hsta⟩ := ih hrest hbeh.le hlat
      refine ⟨edit :: before, after, by rw [hpat, cons_append], ⟨hst, hst', hgap, hold, hnew, hfro⟩, hback,
        fun other hoth => ?_, hsta⟩
      rcases mem_cons.1 hoth with rfl | hoth
      · exact hbeh
      · exact hstop _ hoth

/-- Edits that end before a position end before it in the new text as well. -/
theorem Gaps.new_lt (h : Gaps m n i j patch) (hstop : ∀ edit ∈ patch, edit.old.stop < m) : ∀ edit ∈ patch, edit.new.stop < n := by
  induction patch generalizing i j with
  | nil => simp
  | cons edit patch ih =>
    obtain ⟨-, -, -, -, -, hrest⟩ := h
    have hlat := ih hrest fun other hoth => hstop _ (.tail _ hoth)
    intro other hoth
    rcases mem_cons.1 hoth with rfl | hoth
    · cases patch with
      | nil => exact (lt_iff_of_sub_eq hrest.1 hrest.2.1 hrest.2.2).1 (hstop _ mem_cons_self)
      | cons second patch =>
        obtain ⟨-, hst, -, -, hnew, -⟩ := hrest
        exact (hst.trans hnew).trans_lt (hlat _ mem_cons_self)
    · exact hlat _ hoth

/-- Two patches that end before a position are composed into one that carries the position on. -/
theorem editForOldPosition_compose_behind (hold : Gaps x m zero zero olds)
    (hnew : Gaps m y zero zero news) (hstop : ∀ edit ∈ olds, edit.old.stop < x)
    (hstop' : ∀ edit ∈ news, edit.old.stop < m) : editForOldPosition (compose olds news) x = pointEdit x y := by
  have hmid := hold.new_lt hstop
  rcases (Position.zero_le m).eq_or_lt with hzero | hpos
  · have holds : olds = [] := eq_nil_iff_forall_not_mem.2 fun edit hedit =>
      absurd (hmid edit hedit) (by rw [← hzero]; exact not_lt_of_ge (Position.zero_le _))
    have hnews : news = [] := eq_nil_iff_forall_not_mem.2 fun edit hedit =>
      absurd (hstop' edit hedit) (by rw [← hzero]; exact not_lt_of_ge (Position.zero_le _))
    subst holds hnews
    have hxm := hold.2.2
    have hmy := hnew.2.2
    simp only [Position.sub_zero] at hxm hmy
    rw [← hmy, ← hxm]
    rfl
  · obtain ⟨c, -, hc, hle⟩ := exists_bound hpos _ (by
      intro p hp
      rcases mem_append.1 hp with hp | hp
      · obtain ⟨edit, hedit, rfl⟩ := mem_map.1 hp
        exact hmid edit hedit
      · obtain ⟨edit, hedit, rfl⟩ := mem_map.1 hp
        exact hstop' edit hedit)
    obtain ⟨x', hold', hx', heq⟩ := hold.retract (Position.zero_le c) hc.le fun edit hedit =>
      hle _ (mem_append_left _ (mem_map_of_mem hedit))
    obtain ⟨y', hnew', hy', heq'⟩ := hnew.retractOld (Position.zero_le c) hc.le fun edit hedit =>
      hle _ (mem_append_right _ (mem_map_of_mem hedit))
    have hlt : x' < x := (lt_iff_of_sub_eq hx' hc.le heq).2 hc
    have hbui := built_composeFrom hold' hnew'
    rw [compose_eq, editForOldPosition_behind hbui.gaps hlt, heq, ← heq', add_sub_of_le hy']

theorem oldToNew_of_outside (h : Gaps m n zero zero patch) (hapa : Apart patch) (houts : Outside x patch) :
    (lookup zero zero patch x).new.start = oldToNew patch x := by
  rw [← editForOldPosition_eq_lookup h hapa, editForOldPosition_of_outside houts]
  rfl

/-- A position that neither of two patches touches is carried on by both. -/
theorem editForOldPosition_compose_outside (hold : Built zero zero i m olds)
    (hnew : Built zero zero m n news) (hx : x ≤ i) (houts : Outside x olds)
    (houts' : Outside (oldToNew olds x) news) :
    editForOldPosition (compose olds news) x = pointEdit x (oldToNew news (oldToNew olds x)) := by
  obtain ⟨before, after, holds, hbef, haft, hstop, hsta⟩ := hold.gaps.split (Position.zero_le x) hx houts
  rw [oldToNew_of_outside hold.gaps hold.apart houts] at hbef haft
  obtain ⟨before', after', hnews, hbef', haft', hstop', hsta'⟩ :=
    hnew.gaps.split (Position.zero_le _) haft.le.2 houts'
  rw [oldToNew_of_outside hnew.gaps hnew.apart houts'] at hbef' haft'
  have hbeh : ∀ edit ∈ after.head?, oldToNew olds x < edit.new.start := by
    intro edit hedit
    cases after with
    | nil => cases hedit
    | cons first after =>
      obtain rfl : first = edit := some.inj hedit
      exact (lt_iff_of_sub_eq haft.1 haft.2.1 haft.2.2.1).1 (hsta _ mem_cons_self)
  have hbeh' : ∀ edit ∈ after'.head?, oldToNew olds x < edit.old.start := fun edit hedit =>
    hsta' edit (List.mem_of_mem_head? hedit)
  calc editForOldPosition (compose olds news) x
      = editForOldPosition (compose (before ++ after) (before' ++ after')) x := by rw [← holds, ← hnews]
    _ = editForOldPosition (compose before before') x :=
      editForOldPosition_compose_back hbef hbef' haft haft' hbeh hbeh' le_rfl
    _ = _ := editForOldPosition_compose_behind hbef hbef' hstop hstop'

/-- Where a composition sends positions keeps their order. -/
theorem pointOf_compose_mono (hold : Gaps i m zero zero olds) (hnew : Gaps m n zero zero news)
    (hxy : x ≤ y) : pointOf (editForOldPosition (compose olds news) x) x ≤ pointOf (editForOldPosition (compose olds news) y) y := by
  have hbui := built_composeFrom hold hnew
  rw [← compose_eq] at hbui
  rw [editForOldPosition_eq_lookup hbui.gaps hbui.apart, editForOldPosition_eq_lookup hbui.gaps hbui.apart]
  exact pointOf_lookup_mono hbui.gaps (Position.zero_le x) hxy

end Outside

/-! ### When one of the texts is empty -/

section Empty

variable {a b c i m n z : T} {edit : Edit T} {patch : Patch T}

/-- No distance in a text that is over. -/
theorem eq_of_sub_eq_empty (hab : a ≤ b) (hc : c ≤ zero) (heq : b - a = c - zero) : b = a := by
  rw [le_antisymm hc (Position.zero_le c), Position.sub_self] at heq
  exact eq_of_sub_eq hab le_rfl (by rw [heq, Position.sub_self])

/-- A single edit into an empty text replaces the whole of the old one. -/
theorem Gaps.toEmpty (h : Gaps m zero zero zero patch) (hlen : patch.length ≤ 1) :
    patch = [] ∧ m = zero ∨ patch = [⟨⟨zero, m⟩, ⟨zero, zero⟩⟩] := by
  match patch with
  | [] => exact .inl ⟨rfl, eq_of_sub_eq_empty h.1 le_rfl h.2.2⟩
  | [edit] =>
    right
    obtain ⟨hst, -, hgap, -, hnew, hm, hstop, hrest⟩ := h
    have hstop' : edit.new.stop = zero := le_antisymm hstop (Position.zero_le _)
    have hst' : edit.new.start = zero := le_antisymm (hnew.trans hstop) (Position.zero_le _)
    have hfst : edit.old.start = zero := eq_of_sub_eq_empty hst hst'.le hgap
    have hlast : m = edit.old.stop := eq_of_sub_eq_empty hm le_rfl (by rw [hrest, hstop'])
    exact congrArg (fun edit => [edit]) (Edit.ext (Range.ext hfst hlast.symm) (Range.ext hst' hstop'))
  | _ :: _ :: _ => exact absurd hlen (by simp)

/-- From one edit to the next there is a distance in both texts, so into an empty text there is only one. -/
theorem Built.length_toEmpty (h : Built zero zero m zero patch) : patch.length ≤ 1 := by
  obtain ⟨hgaps, hapa⟩ := h
  match patch with
  | [] => exact Nat.zero_le 1
  | [_] => exact le_rfl
  | edit :: second :: patch =>
    obtain ⟨-, -, -, -, -, hst, hst', hgap, -, hnew, hrest⟩ := hgaps
    have hlt := (pairwise_cons.1 hapa).1 _ mem_cons_self
    have hemp : edit.new.stop = zero :=
      le_antisymm (hst'.trans (hnew.trans hrest.le.2)) (Position.zero_le _)
    rw [hemp] at hgap
    exact absurd (eq_of_sub_eq_empty hst (hnew.trans hrest.le.2) hgap) hlt.ne'

theorem Built.length_fromEmpty (h : Built zero zero zero n patch) : patch.length ≤ 1 := by
  obtain ⟨hgaps, hapa⟩ := h
  match patch with
  | [] => exact Nat.zero_le 1
  | [_] => exact le_rfl
  | edit :: second :: patch =>
    have hlt := (pairwise_cons.1 hapa).1 _ mem_cons_self
    have hsec := hgaps.mem (mem_cons_of_mem edit (mem_cons_self))
    exact absurd (hlt.trans_le (hsec.2.2.1.trans hsec.2.2.2.2.1)) (not_lt_of_ge (Position.zero_le _))

theorem editForOldPosition_zero (n : T) : editForOldPosition [⟨⟨zero, zero⟩, ⟨zero, n⟩⟩] zero = ⟨⟨zero, zero⟩, ⟨zero, n⟩⟩ := by
  unfold editForOldPosition
  rw [lastBefore_cons_of_le le_rfl]
  exact if_neg (lt_irrefl _)

/-- So it is looked up like the edit that does that. -/
theorem editForOldPosition_toEmpty (h : Built zero zero m zero patch) (hz : z ≤ m) : editForOldPosition patch z =
      editForOldPosition [⟨⟨zero, m⟩, ⟨zero, zero⟩⟩] z := by
  rcases h.gaps.toEmpty h.length_toEmpty with ⟨rfl, hm⟩ | rfl
  · rw [hm] at hz ⊢
    rw [le_antisymm hz (Position.zero_le z), editForOldPosition_zero]
    rfl
  · rfl

/-- From the empty text all is inserted. -/
theorem editForOldPosition_fromEmpty (h : Built zero zero zero n patch) (hz : z ≤ zero) : editForOldPosition patch z =
      editForOldPosition [⟨⟨zero, zero⟩, ⟨zero, n⟩⟩] z := by
  have hlen : patch.invert.length ≤ 1 := by
    rw [invert, length_map]
    exact h.length_fromEmpty
  rcases h.gaps.invert.toEmpty hlen with ⟨hnil, hn⟩ | hsin
  · rw [← invert_invert patch, hnil, hn, le_antisymm hz (Position.zero_le z), editForOldPosition_zero]
    rfl
  · rw [← invert_invert patch, hsin]
    rfl

end Empty

end Wu.Positions
