import Wu.Text.Tiled
import Wu.Splices

/-!
# The text after a local edit

The loop of a local edit moves the visible text from the old text to the new one, leaves out the ranges and puts the new texts in.
-/

namespace Wu

open List FragmentLoop

/-- The new visible text, with what is left of the old one. -/
def RopeBuilder.visible (self : RopeBuilder) : Text := self.newVisible ++ self.oldVisible

/-- Text that is moved as it is. -/
theorem RopeBuilder.visible_push (self : RopeBuilder) (len : Nat) (visible : Bool) :
    (self.push len visible visible).visible = self.visible := by
  cases visible <;> simp [push, RopeBuilder.visible]

theorem RopeBuilder.visible_append (self : RopeBuilder) (len : FragmentTextSummary) : (self.append len).visible = self.visible :=
  (visible_push _ _ _).trans (visible_push _ _ _)

namespace EditState

variable {D : Type} [FragmentDimension D] (offset : D → Nat) (st : EditState D)

theorem visible_finishFragment : (st.finishFragment offset).new.ropes.visible = st.new.ropes.visible := by
  unfold finishFragment
  dsimp only
  repeat' split
  · exact RopeBuilder.visible_push _ _ _
  · rfl
  · rfl
  · rfl

theorem visible_jumpAhead (passes : D → Bool) (rangeStart : Nat) :
    (st.jumpAhead offset passes rangeStart).new.ropes.visible = st.new.ropes.visible := by
  unfold jumpAhead
  split
  · exact (RopeBuilder.visible_append _ _).trans (visible_finishFragment _ st)
  · rfl

omit [FragmentDimension D] in
theorem visible_pushPrefix (rangeStart : Nat) : (st.pushPrefix offset rangeStart).new.ropes.visible = st.new.ropes.visible := by
  unfold pushPrefix
  dsimp only
  repeat' split
  · exact RopeBuilder.visible_push _ _ _
  · rfl
  · rfl

end EditState

/-- Where the cursor stops, if it starts before it. -/
theorem FragmentLoop.sliceLoop_le {D : Type} [FragmentDimension D] (loop : FragmentLoop D) {passes : D → Bool} {bound : Nat}
    (hpas : ∀ position, passes position = true → loop.offset position ≤ bound) (rest : List Fragment) {start : D}
    (hst : loop.offset start ≤ bound) : loop.offset (FragmentsCursor.sliceLoop passes start rest).2.start ≤ bound := by
  induction rest generalizing start with
  | nil => exact hst
  | cons fragment rest ih =>
    unfold FragmentsCursor.sliceLoop
    dsimp only
    split
    · rename_i hpass
      exact ih (hpas _ hpass)
    · exact hst

namespace BufferSnapshot

section Local

variable {texts : InsertionTexts} {timestamp : Lamport} {old rest : List Fragment} {newText more : Text} {new : Rebuild}
  {st : EditState FragmentTextSummary}

/-- What is left of the old text is what is behind the position of the loop. -/
theorem oldVisible_eq (h : (localLoop texts timestamp old).Holds more st) :
    st.new.ropes.oldVisible = (textOf texts true old).drop st.fragmentStart := by
  obtain ⟨⟨start, rest⟩, fragmentStart, new⟩ := st
  have hst : start.visible ≤ fragmentStart := h.start_le
  have hpos : start.visible + counted Fragment.visible rest = counted Fragment.visible old := h.position
  have hlen := @length_textOf_visible texts old
  have hrope : new.ropes.oldVisible = textOf texts true _ := congrArg _ h.built.ropes
  refine hrope.trans ?_
  cases rest with
  | nil =>
    refine (drop_eq_nil_of_le ?_).symm
    simp [counted] at hpos
    simp only [hlen, counted]
    omega
  | cons fragment rest =>
    have hstop : fragmentStart ≤ start.visible + if fragment.visible then fragment.len else 0 :=
      (h.le_stop (cons_ne_nil _ _)).trans_eq ((localLoop _ _ old).offset_add _ _)
    rw [suffix_iff_eq_drop.mp h.built.suffix]
    dsimp only [consume]
    rw [hlen, length_textOf_visible, ← hpos]
    simp only [counted, map_cons, sum_cons]
    cases hv : fragment.visible <;> simp [hv, Fragment.part] at hstop ⊢ <;> omega

/-- The text that has been copied up to the position of the loop. -/
theorem newVisible_eq (h : (localLoop texts timestamp old).Holds more st) {front : Text} {position : Nat}
    (hpos : position ≤ st.fragmentStart) (hvis : st.new.ropes.visible = front ++ (textOf texts true old).drop position) :
    st.new.ropes.newVisible = front ++ ((textOf texts true old).drop position).take (st.fragmentStart - position) := by
  unfold RopeBuilder.visible at hvis
  rw [oldVisible_eq h, ← take_append_drop _ (drop position _), drop_drop, Nat.add_sub_cancel' hpos, ← append_assoc] at hvis
  exact append_cancel_right hvis

theorem ropes_pushChunks (timestamp : Lamport) (nextFragmentId : Locator) (chunks : List Nat) (new : Rebuild) :
    (pushChunks timestamp nextFragmentId chunks new).ropes = new.ropes := by
  induction chunks generalizing new with
  | nil => rfl
  | cons chunkLen chunks ih => exact ih _

/-- One edit: the text up to its range is kept, and the new text stands for the range. -/
theorem editLocal_visible {range : Span} (hval : Text.Valid newText)
    (h : (localLoop texts timestamp old).Holds (newText ++ more) st) {front : Text} {position : Nat}
    (hpos : position ≤ st.fragmentStart) (hvis : st.new.ropes.visible = front ++ (textOf texts true old).drop position)
    (hst : st.fragmentStart ≤ range.start) (hrange : range.start ≤ range.stop)
    (hin : range.stop ≤ (textOf texts true old).length) :
    (editLocal timestamp st range newText).1.new.ropes.visible = front ++
        ((textOf texts true old).drop position).take (range.start - position) ++ newText ++ (textOf texts true old).drop range.stop ∧
      (editLocal timestamp st range newText).1.fragmentStart = range.stop := by
  let loop := localLoop texts timestamp old
  let passes : FragmentTextSummary → Bool := fun stop => stop.visible ≤ range.start
  obtain ⟨hjump, hstop⟩ := h.jumpAhead passes _ (by simpa [passes] using fun position => Nat.le_of_lt)
  have hpre := hjump.pushPrefix hstop
  have hlen := @length_textOf_visible texts old
  let jumped := st.jumpAhead loop.offset passes range.start
  let ready := jumped.pushPrefix loop.offset range.start
  have hjum : jumped.fragmentStart ≤ range.start := by
    unfold jumped EditState.jumpAhead
    split
    · rename_i hlt
      refine loop.sliceLoop_le (by simp [passes, loop]) _ ?_
      unfold EditState.finishFragment
      dsimp only
      split
      · exact Nat.le_of_lt hlt
      · exact h.start_le.trans hst
    · exact hst
  have hready : ready.fragmentStart = range.start := by
    have hfrom : loop.offset jumped.oldFragments.start ≤ jumped.fragmentStart := hjump.start_le
    have hpos : loop.offset jumped.oldFragments.start + counted _ jumped.oldFragments.rest = _ := hjump.position
    unfold ready EditState.pushPrefix
    split
    · split
      · rfl
      · rename_i hitem
        rw [head?_eq_none_iff.mp hitem] at hpos
        simp only [counted, map_nil, List.sum_nil] at hpos hlen
        omega
    · rename_i hge
      exact hjum.antisymm (Nat.le_of_not_lt hge)
  have hcopi : ready.new.ropes.visible = st.new.ropes.visible :=
    (EditState.visible_pushPrefix _ _ _).trans (EditState.visible_jumpAhead _ _ _ _)
  have hkept := newVisible_eq hpre (hready.symm ▸ hpos.trans hst) (hcopi.trans hvis)
  have hinse := holds_insertLocal hval hpre
  have hinsS : (insertLocal timestamp newText ready).fragmentStart = range.start := by
    unfold insertLocal
    split <;> exact hready
  have hins : (insertLocal timestamp newText ready).new.ropes.newVisible = ready.new.ropes.newVisible ++ newText := by
    unfold insertLocal
    split
    · exact congrArg (·.newVisible ++ newText) (ropes_pushChunks _ _ _ _)
    · rename_i hempty
      rw [not_not.mp hempty, append_nil]
  obtain ⟨-, hdel, hend⟩ := holds_deleteLocal _ hinse
  replace hend := hend (hinsS.trans_le hrange) hin
  refine ⟨?_, hend⟩
  rw [RopeBuilder.visible, oldVisible_eq (holds_editLocal _ hval h)]
  refine congrArg₂ _ ?_ (congrArg (drop · _) hend)
  exact hdel.trans (hins.trans (congrArg (· ++ newText) (hready ▸ hkept)))

/-- The edits as splices of the text. -/
def splices (edits : List (Span × Text)) : List (Splice UInt8) := edits.map fun edit => ⟨edit.1.start, edit.1.stop, edit.2⟩

theorem editsLocal_visible {edits : List (Span × Text)} (hval : ∀ edit ∈ edits, Text.Valid edit.2)
    (h : (localLoop texts timestamp old).Holds (edits.map (·.2)).flatten st) {front : Text} {position : Nat}
    (hpos : position ≤ st.fragmentStart) (hvis : st.new.ropes.visible = front ++ (textOf texts true old).drop position)
    (hsort : SortedRanges (textOf texts true old).length st.fragmentStart (edits.map (·.1))) :
    (editsLocal timestamp edits st).1.new.ropes.visible =
      front ++ Splice.rewritten (textOf texts true old) position (splices edits) := by
  induction edits generalizing st front position with
  | nil => exact hvis
  | cons edit edits ih =>
    obtain ⟨hedit, hval⟩ := forall_mem_cons.mp hval
    obtain ⟨hst, hrange, hin, hsort⟩ := hsort
    obtain ⟨hnext, hend⟩ := editLocal_visible hedit h hpos hvis hst hrange hin
    refine (ih hval (holds_editLocal _ hedit h) hend.ge hnext (hend.symm ▸ hsort)).trans ?_
    simp [splices, Splice.rewritten]

end Local

/-- A local edit puts its texts, with normal line endings, in the place of its ranges. -/
theorem visibleText_applyEditInternal {texts : InsertionTexts} {self : BufferSnapshot} (h : self.Tiled texts)
    {timestamp : Lamport} (hnew : texts timestamp = []) {edits : List (Span × Text)}
    (hval : ∀ edit ∈ edits, Text.Valid edit.2) (hsort : SortedRanges self.visibleText.length 0 (edits.map (·.1))) :
    (self.applyEditInternal edits timestamp).1.visibleText =
      Splice.rewritten self.visibleText 0 (splices (edits.map fun edit => (edit.1, edit.2.normalize))) := by
  cases edits with
  | nil => rfl
  | cons edit edits =>
    let normalized := (edit :: edits).map fun edit => (edit.1, Text.normalize edit.2)
    let loop := localLoop (Function.update texts timestamp (normalized.map (·.2)).flatten) timestamp self.fragments
    let passes : FragmentTextSummary → Bool := fun stop => stop.visible ≤ edit.1.start
    let st : EditState FragmentTextSummary := self.seek (·.visible) passes
    have hst : loop.At (normalized.map (·.2)).flatten _ _ := h.at_rebuild rfl rfl hnew rfl
    have hold : textOf loop.texts true self.fragments = self.visibleText := (congrArg RopeBuilder.oldVisible (At.built hst).ropes).symm
    have hseek : loop.Holds _ st := (At.slice hst _).1
    have hfrom : st.fragmentStart ≤ edit.1.start := loop.sliceLoop_le (by simp [passes, loop]) _ (Nat.zero_le _)
    have hvis : st.new.ropes.visible = [] ++ (textOf loop.texts true self.fragments).drop 0 :=
      (RopeBuilder.visible_append _ _).trans hold.symm
    obtain ⟨-, hsort⟩ := hsort
    have hrange : SortedRanges (textOf loop.texts true self.fragments).length st.fragmentStart (normalized.map (·.1)) := by
      rw [hold]
      simpa [normalized, Function.comp_def] using ⟨hfrom, hsort⟩
    have hedit := editsLocal_visible (forall_mem_map.mpr fun edit hmem => (hval edit hmem).normalize) hseek (Nat.zero_le _)
      hvis hrange
    rw [hold] at hedit
    refine Eq.trans ?_ hedit
    exact (RopeBuilder.visible_append _ _).trans (EditState.visible_finishFragment _ _)

end BufferSnapshot

namespace Network

/-- In every run, an edit puts its texts, with normal line endings, in the place of its ranges, and keeps the rest of the text. -/
theorem edit_replaces_ranges {baseText : Text} {net : Network} (hbase : Text.Valid baseText) (h : net.Reachable baseText)
    (r : ReplicaId) {edits : List (Span × Text)} {started ended : Nat}
    (hallowed : (net.buffers r).Allows (.edit edits started ended)) :
    ((net.buffers r).edit edits started ended).1.text = Splice.rewritten (net.buffers r).text 0
      (BufferSnapshot.splices (edits.map fun edit => (edit.1, edit.2.normalize))) := by
  let buffer := (net.buffers r).startTransactionAt started
  obtain ⟨hsorted, hin⟩ := hallowed
  obtain ⟨hsnap, -, -, hreplica, hclock, -⟩ := (net.buffers r).quiet_startTransactionAt started
  have hend := ((buffer.editCore edits).1.quiet_endTransactionAt ended).snapshot
  have htext : buffer.text = (net.buffers r).text := congrArg BufferSnapshot.visibleText hsnap
  obtain ⟨-, hcore, -⟩ := buffer.editCore_eq (htext ▸ hsorted) fun edit hmem =>
    htext ▸ ⟨(hin edit hmem).1, (hin edit hmem).2.1⟩
  have hnew : insertionTexts baseText (net.applied r) buffer.lamportClock = [] := by
    refine (h.inv.broadcast.fresh (Global.observed_eq_false_iff.mpr ?_)).1
    exact ((h.inv.buffers r).clock _).trans_le hclock
  have hresult := BufferSnapshot.visibleText_applyEditInternal ((h.tiles hbase).tiled r) hnew
    (fun edit hmem => (hin edit hmem).2.2) hsorted
  refine Eq.trans ?_ hresult
  refine (congrArg BufferSnapshot.visibleText (hend.trans hcore)).trans ?_
  rw [hsnap]
  rfl

theorem edit_replaces_ranges_line_ending :
    (((init [97, 98, 99] fun _ => 0).buffers ⟨1⟩).edit [(⟨1, 2⟩, [13, 10])] 0 0).1.text = [97, 10, 99] :=
  edit_replaces_ranges (by decide) ⟨_, .refl⟩ ⟨1⟩ ⟨by decide, fun _ h => mem_singleton.mp h ▸ ⟨by decide, by decide, by decide⟩⟩

end Network

end Wu
