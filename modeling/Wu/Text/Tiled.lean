import Wu.Text.FragmentLoops

/-!
# Fragments tile the insertions

Edits, edits of other replicas and undos run the loops over the fragments. In every run of the replicas the fragments stay in order,
each insertion's fragments are its text from start to end, and the visible and the deleted text are those of the fragments.
-/

namespace Wu

open List FragmentLoop

/-! ## Normal texts -/

namespace Text

theorem validFrom_normalize {run : Nat} (text : Text) (h : validFrom run text = true) : validFrom run text.normalize = true := by
  fun_induction normalize text generalizing run with
  | case1 => rfl
  | case2 => rfl
  | case3 byte hne => exact h
  | case4 rest ih => exact ih h
  | case5 next rest hne ih => exact ih h
  | case6 byte next rest hne ih =>
    rw [validFrom_cons] at h ⊢
    split
    · rename_i hcon
      rw [if_pos hcon] at h
      exact ⟨h.1, ih h.2⟩
    · rename_i hcon
      rw [if_neg hcon] at h
      exact ih h

theorem Valid.normalize {text : Text} (h : Valid text) : Valid text.normalize := validFrom_normalize text h

end Text

/-! ## Snapshots -/

/-- The texts that an operation inserts. -/
def Operation.texts : Operation → List Text
  | edit operation => (operation.ranges.zip operation.newText).map (·.2)
  | undo _ => []

namespace BufferSnapshot

/-- The bytes of the fragments, in their order. -/
def bytes (self : BufferSnapshot) : List (Lamport × Nat) := self.fragments.flatMap Fragment.bytes

/-- The ids of the fragments go up, the fragments of each insertion are its text from its start to its end, in this order, and the
texts are those of the visible and of the deleted fragments. -/
structure Tiled (texts : InsertionTexts) (snapshot : BufferSnapshot) : Prop where
  order : InOrder snapshot.fragments
  tiles : ∀ t, snapshot.bytes.filter (fun place => place.1 = t) = (range (texts t).length).map fun offset => (t, offset)
  visible : snapshot.visibleText = textOf texts true snapshot.fragments
  deleted : snapshot.deletedText = textOf texts false snapshot.fragments

section Snapshot

variable {D : Type} [FragmentDimension D] {texts : InsertionTexts} {self : BufferSnapshot} {loop : FragmentLoop D} {t : Lamport}
  (h : self.Tiled texts)
include h

/-- An insertion without text has no fragments. -/
theorem Tiled.timestamp_ne (hnew : texts t = []) : ∀ fragment ∈ self.fragments, fragment.timestamp ≠ t := by
  rintro fragment hmem rfl
  have htile := h.tiles fragment.timestamp
  rw [hnew, length_nil, range_zero, map_nil, filter_eq_nil_iff] at htile
  have hpos := h.order.pos _ hmem
  have hbyte : (fragment.timestamp, fragment.insertionOffset) ∈ fragment.bytes := mem_map.mpr ⟨_, by simp; omega, rfl⟩
  simpa using htile _ (mem_flatMap.mpr ⟨fragment, hmem, hbyte⟩)

variable {more : Text} (hold : loop.old = self.fragments) (htexts : loop.texts = Function.update texts loop.timestamp more)
include hold htexts

theorem Tiled.at_rebuild (hnew : texts loop.timestamp = []) (hzero : loop.offset FragmentDimension.zero = 0) :
    loop.At more (FragmentsCursor.new self.fragments) self.rebuild := by
  have hne := h.timestamp_ne hnew
  have hsame : ∀ visible, textOf loop.texts visible self.fragments = textOf texts visible self.fragments := fun visible =>
    textOf_congr fun fragment hmem => htexts ▸ Function.update_of_ne (hne _ hmem) _ _
  have hkept : (self.fragments.flatMap Fragment.bytes).filter (fun place => place.1 ≠ loop.timestamp) =
      self.fragments.flatMap Fragment.bytes := by
    refine filter_eq_self.mpr fun place hplace => ?_
    obtain ⟨fragment, hmem, hplace⟩ := mem_flatMap.mp hplace
    obtain ⟨-, -, rfl⟩ := mem_map.mp hplace
    simpa using hne _ hmem
  have hinserted := h.tiles loop.timestamp
  rw [hnew] at hinserted
  refine at_of h.order ⟨?_, hinserted, ⟨[], htexts ▸ Function.update_self _ _ _, rfl⟩, hne, ?_, ?_⟩ ?_
  · rw [hold]
    exact hkept
  · rw [hold]
    exact suffix_rfl
  · change self.rebuild.ropes = ropesOf loop.texts [] self.fragments
    rw [ropesOf, hsame, hsame, ← h.visible, ← h.deleted]
    rfl
  · rw [hold]
    exact (congrArg (· + _) hzero).trans (Nat.zero_add _)

theorem Tiled.rebuilt {new : Rebuild} (horder : InOrder new.fragments) (hbuilt : loop.Built [] [] new) {snapshot : BufferSnapshot}
    (hfragments : snapshot.fragments = new.fragments) (hvisible : snapshot.visibleText = new.ropes.finish.1)
    (hdeleted : snapshot.deletedText = new.ropes.finish.2) :
    snapshot.Tiled loop.texts ∧ self.bytes.Sublist snapshot.bytes := by
  obtain ⟨hkept, hinserted, ⟨done, htext, hdone⟩, -, -, hropes⟩ := hbuilt
  rw [append_nil] at htext
  rw [append_nil, hold] at hkept
  rw [append_nil, ← hdone, ← htext] at hinserted
  rw [← hfragments] at horder hkept hinserted hropes
  have hsublist : self.bytes.Sublist snapshot.bytes := (congrArg (List.Sublist · _) hkept).mp filter_sublist
  refine ⟨⟨horder, fun t => ?_, ?_, ?_⟩, hsublist⟩
  · by_cases ht : t = loop.timestamp
    · rw [ht]
      exact hinserted
    · have htiles := h.tiles t
      unfold bytes at htiles
      rw [← hkept, filter_filter, ← Function.update_of_ne (f := texts) ht more, ← htexts] at htiles
      refine Eq.trans (filter_congr fun place _ => ?_) htiles
      by_cases hp : place.1 = t <;> simp [hp, ht]
  · simp [hvisible, hropes, ropesOf, RopeBuilder.finish]
  · simp [hdeleted, hropes, ropesOf, RopeBuilder.finish]

end Snapshot

/-! ## Local edits -/

/-- The loop of a local edit counts the visible bytes. -/
abbrev localLoop (texts : InsertionTexts) (timestamp : Lamport) (old : List Fragment) : FragmentLoop FragmentTextSummary where
  texts := texts
  timestamp := timestamp
  old := old
  offset := (·.visible)
  counts := Fragment.visible
  offset_add position fragment := by
    cases h : fragment.visible <;> simp [FragmentDimension.add, FragmentTextSummary.add, FragmentTextSummary.ofFragment, h]

section Local

variable {texts : InsertionTexts} {timestamp : Lamport} {old rest : List Fragment} {newText more : Text} {new : Rebuild}
  {st : EditState FragmentTextSummary}

theorem holds_insertLocal (hval : Text.Valid newText) (h : (localLoop texts timestamp old).Holds (newText ++ more) st) :
    (localLoop texts timestamp old).Holds more (insertLocal timestamp newText st) := by
  unfold insertLocal
  split
  · exact h.insert hval _
  · rename_i hempty
    rwa [not_not.mp hempty] at h

theorem length_textOf_visible (fragments : List Fragment) :
    (textOf texts true fragments).length = counted Fragment.visible fragments := by
  induction fragments with
  | nil => rfl
  | cons fragment fragments ih =>
    rw [textOf_cons, length_append, ih]
    cases hv : fragment.visible <;> simp [counted, hv]

/-- What is marked as deleted leaves the visible text, and the loop ends behind the range. -/
theorem holds_deleteLocal (rangeEnd : Nat) {start : FragmentTextSummary} {fragmentStart : Nat}
    (h : (localLoop texts timestamp old).Holds more ⟨⟨start, rest⟩, fragmentStart, new⟩) :
    (localLoop texts timestamp old).Holds more (deleteLocal timestamp rangeEnd rest start fragmentStart new) ∧
      (deleteLocal timestamp rangeEnd rest start fragmentStart new).new.ropes.newVisible = new.ropes.newVisible ∧
      (fragmentStart ≤ rangeEnd → rangeEnd ≤ (textOf texts true old).length →
        (deleteLocal timestamp rangeEnd rest start fragmentStart new).fragmentStart = rangeEnd) := by
  induction rest generalizing start fragmentStart new with
  | nil =>
    refine ⟨h, rfl, fun hle hin => hle.antisymm ?_⟩
    have hst : start.visible ≤ fragmentStart := h.start_le
    have hpos : start.visible + 0 = counted Fragment.visible old := h.position
    rw [length_textOf_visible] at hin
    omega
  | cons fragment rest ih =>
    rw [deleteLocal]
    split
    · rename_i hlt
      dsimp only
      generalize hpair : (ite (_ > 0) (_, _) (fragmentStart, new) : Nat × Rebuild) = pair
      generalize hpiece : (ite (fragment.visible = true) _ fragment : Fragment) = piece at hpair
      obtain ⟨hnext, hlast, hend⟩ := h.delete hlt (by rw [← hpiece]; split <;> exact ⟨rfl, rfl⟩) hpair
        (by split <;> exact ⟨rfl, rfl, rfl⟩) ⟨rfl, rfl, rfl⟩
      have hhid : piece.visible = false := by
        rw [← hpiece]
        split
        · rfl
        · rename_i hv
          exact Bool.eq_false_iff.mpr hv
      have hsame : pair.2.ropes.newVisible = new.ropes.newVisible := by
        rw [← hpair]
        split
        · split <;> simp [Rebuild.pushFragment, Rebuild.pushEdit, Rebuild.pushSlice, RopeBuilder.pushFragment, RopeBuilder.push, hhid]
        · rfl
      split
      · rename_i hle
        obtain ⟨hhold, hrest, hstop⟩ := ih (hnext hle)
        exact ⟨hhold, hrest.trans hsame, fun _ => hstop hend⟩
      · rename_i hgt
        exact ⟨(hlast hgt).1, hsame, fun _ _ => (hlast hgt).2⟩
    · rename_i hge
      exact ⟨h, rfl, fun hle _ => hle.antisymm (Nat.le_of_not_lt hge)⟩

theorem holds_editLocal (range : Span) (hval : Text.Valid newText) (h : (localLoop texts timestamp old).Holds (newText ++ more) st) :
    (localLoop texts timestamp old).Holds more (editLocal timestamp st range newText).1 := by
  obtain ⟨hjump, hstop⟩ := h.jumpAhead (fun stop => stop.visible ≤ range.start) _ (by simpa using fun position => Nat.le_of_lt)
  exact (holds_deleteLocal _ (holds_insertLocal hval (hjump.pushPrefix hstop))).1

theorem holds_editsLocal {edits : List (Span × Text)} (hval : ∀ edit ∈ edits, Text.Valid edit.2)
    (h : (localLoop texts timestamp old).Holds (edits.map (·.2)).flatten st) :
    (localLoop texts timestamp old).Holds [] (editsLocal timestamp edits st).1 := by
  induction edits generalizing st with
  | nil => exact h
  | cons edit edits ih =>
    obtain ⟨hedit, hval⟩ := forall_mem_cons.mp hval
    exact ih hval (holds_editLocal _ hedit h)

end Local

/-! ## Edits of other replicas -/

/-- The loop of an edit of another replica counts the bytes that the edit's version has observed. -/
abbrev remoteLoop (texts : InsertionTexts) (timestamp : Lamport) (old : List Fragment) (version : Global) :
    FragmentLoop (VersionedFullOffset version) where
  texts := texts
  timestamp := timestamp
  old := old
  offset := (·.fullOffset)
  counts fragment := version.observed fragment.timestamp
  offset_add _ _ := rfl

section Remote

variable {texts : InsertionTexts} {timestamp : Lamport} {old rest : List Fragment} {newText more : Text} {new : Rebuild}
  {version : Global} {st : EditState (VersionedFullOffset version)} {rangeStart fragmentStart : Nat}
  {start : VersionedFullOffset version}

theorem holds_finishNonConcurrent (h : (remoteLoop texts timestamp old version).Holds more st)
    (hstop : st.oldFragments.rest ≠ [] → rangeStart ≤ st.oldFragments.stop.fullOffset) :
    (remoteLoop texts timestamp old version).Holds more (finishNonConcurrent version rangeStart st) ∧
      ((finishNonConcurrent version rangeStart st).oldFragments.rest ≠ [] →
        rangeStart ≤ (finishNonConcurrent version rangeStart st).oldFragments.stop.fullOffset) := by
  obtain ⟨⟨start, rest⟩, fragmentStart, new⟩ := st
  unfold finishNonConcurrent
  dsimp only
  split
  · rename_i hend
    cases rest with
    | nil => exact ⟨h, hstop⟩
    | cons fragment rest =>
      have hnext : (remoteLoop texts timestamp old version).At more ⟨_, rest⟩ (new.pushFragment _ _) :=
        h.takeRest hend.2
      exact ⟨hnext, fun hne => hend.1.symm.trans_le (hnext.le_stop hne)⟩
  · exact ⟨h, hstop⟩

/-- A fragment that the edit's version has observed has a smaller timestamp, so no part of it has been used. -/
theorem holds_skipConcurrent (hvers : ∀ r, version.get r < timestamp.value)
    (h : (remoteLoop texts timestamp old version).Holds more ⟨⟨start, rest⟩, fragmentStart, new⟩)
    (hstop : rest ≠ [] → rangeStart ≤ (FragmentsCursor.mk start rest).stop.fullOffset) :
    (remoteLoop texts timestamp old version).Holds more (skipConcurrent version timestamp rangeStart rest start fragmentStart new) ∧
      ((skipConcurrent version timestamp rangeStart rest start fragmentStart new).oldFragments.rest ≠ [] →
        rangeStart ≤ (skipConcurrent version timestamp rangeStart rest start fragmentStart new).oldFragments.stop.fullOffset) := by
  induction rest generalizing start fragmentStart new with
  | nil => exact ⟨h, hstop⟩
  | cons fragment rest ih =>
    unfold skipConcurrent
    split
    · rename_i hskip
      have hnot : version.observed fragment.timestamp = false := by
        rw [Global.observed_eq_false_iff]
        have := hvers fragment.timestamp.replicaId
        rcases Lamport.lt_iff.mp hskip.2 with hlt | ⟨heq, -⟩ <;> omega
      have hadd : (FragmentDimension.add start fragment : VersionedFullOffset version).fullOffset = start.fullOffset := by
        simp [FragmentDimension.add, hnot]
      have heq : fragmentStart = start.fullOffset :=
        ((h.le_stop (cons_ne_nil _ _)).trans_eq hadd).antisymm h.start_le
      have hnext : (remoteLoop texts timestamp old version).At more ⟨_, rest⟩ (new.pushOld fragment) :=
        (h.takeWhole heq.le rfl rfl).same ⟨rfl, rfl, rfl⟩
      dsimp only [At] at hnext
      rw [hadd, ← heq] at hnext
      exact ih hnext fun hne => hskip.1.symm.trans_le (hnext.le_stop hne)
    · exact ⟨h, hstop⟩

theorem holds_insertRemote (hval : Text.Valid newText) (h : (remoteLoop texts timestamp old version).Holds (newText ++ more) st) :
    (remoteLoop texts timestamp old version).Holds more (insertRemote version timestamp newText st) := by
  unfold insertRemote
  split
  · exact h.insert hval _
  · rename_i hempty
    rwa [not_not.mp hempty] at h

theorem holds_deleteRemote (undoMap : UndoMap) (rangeEnd : Nat)
    (h : (remoteLoop texts timestamp old version).Holds more ⟨⟨start, rest⟩, fragmentStart, new⟩) :
    (remoteLoop texts timestamp old version).Holds more
      (deleteRemote version timestamp undoMap rangeEnd rest start fragmentStart new) := by
  induction rest generalizing start fragmentStart new with
  | nil => exact h
  | cons fragment rest ih =>
    rw [deleteRemote]
    split
    · rename_i hlt
      dsimp only
      generalize hpair : (ite (_ > 0) (_, _) (fragmentStart, _) : Nat × Rebuild) = pair
      generalize hpiece : (ite (version.observed fragment.timestamp = true) _ fragment : Fragment) = piece at hpair
      obtain ⟨hnext, hlast, -⟩ := h.delete hlt (by rw [← hpiece]; split <;> (try split) <;> exact ⟨rfl, rfl⟩) hpair
        (by split <;> split <;> exact ⟨rfl, rfl, rfl⟩) (by split <;> exact ⟨rfl, rfl, rfl⟩)
      split
      · rename_i hle
        exact ih (hnext hle)
      · rename_i hgt
        exact (hlast hgt).1
    · exact h

theorem holds_editRemote (undoMap : UndoMap) (range : Span) (hvers : ∀ r, version.get r < timestamp.value)
    (hval : Text.Valid newText) (h : (remoteLoop texts timestamp old version).Holds (newText ++ more) st) :
    (remoteLoop texts timestamp old version).Holds more (editRemote version timestamp undoMap st range newText) := by
  obtain ⟨hjump, hstop⟩ := h.jumpAhead (fun stop => stop.fullOffset < range.start) range.start (by simp)
  obtain ⟨hfin, hstop⟩ := holds_finishNonConcurrent hjump hstop
  obtain ⟨hskip, hstop⟩ := holds_skipConcurrent hvers hfin hstop
  exact holds_deleteRemote _ _ (holds_insertRemote hval (hskip.pushPrefix hstop))

theorem holds_editsRemote (undoMap : UndoMap) (hvers : ∀ r, version.get r < timestamp.value) {edits : List (Span × Text)}
    (hval : ∀ edit ∈ edits, Text.Valid edit.2)
    (h : (remoteLoop texts timestamp old version).Holds (edits.map (·.2)).flatten st) :
    (remoteLoop texts timestamp old version).Holds [] (editsRemote version timestamp undoMap edits st) := by
  induction edits generalizing st with
  | nil => exact h
  | cons edit edits ih =>
    obtain ⟨hedit, hval⟩ := forall_mem_cons.mp hval
    exact ih hval (holds_editRemote _ _ hvers hedit h)

end Remote

/-! ## Operations -/

section Operations

variable {texts : InsertionTexts} {self : BufferSnapshot} {timestamp : Lamport}

theorem length_editsLocal (edits : List (Span × Text)) (st : EditState FragmentTextSummary) :
    (editsLocal timestamp edits st).2.length = edits.length := by
  induction edits generalizing st with
  | nil => rfl
  | cons edit edits ih => exact congrArg _ (ih _)

theorem texts_applyEditInternal (self : BufferSnapshot) (edits : List (Span × Text)) (timestamp : Lamport) :
    (Operation.edit (self.applyEditInternal edits timestamp).2.1).texts = edits.map (·.2.normalize) := by
  cases edits with
  | nil => rfl
  | cons edit edits =>
    refine (map_snd_zip ?_).trans (map_map ..)
    dsimp only [BufferSnapshot.applyEditInternal]
    rw [length_editsLocal, length_map]

section

variable (h : self.Tiled texts) (hnew : texts timestamp = [])
include h hnew

theorem Tiled.applyEditInternal {edits : List (Span × Text)} (hval : ∀ edit ∈ edits, Text.Valid edit.2.normalize) :
    (self.applyEditInternal edits timestamp).1.Tiled (Function.update texts timestamp (edits.map (·.2.normalize)).flatten) ∧
      self.bytes.Sublist (self.applyEditInternal edits timestamp).1.bytes := by
  cases edits with
  | nil => exact ⟨by rwa [Function.update_eq_self_iff.mpr hnew.symm], .refl _⟩
  | cons edit edits =>
    let normalized := (edit :: edits).map fun edit => (edit.1, Text.normalize edit.2)
    let loop := localLoop (Function.update texts timestamp (normalized.map (·.2)).flatten) timestamp self.fragments
    have hst : loop.At (normalized.map (·.2)).flatten _ _ := h.at_rebuild rfl rfl hnew rfl
    obtain ⟨hseek, -⟩ := At.slice hst _
    have hval : ∀ edit ∈ normalized, Text.Valid edit.2 := forall_mem_map.mpr hval
    obtain ⟨horder, hbuilt⟩ := (holds_editsLocal hval hseek).finish
    have htext : (normalized.map (·.2)) = (edit :: edits).map (·.2.normalize) := map_map ..
    rw [← htext]
    exact h.rebuilt rfl rfl horder hbuilt rfl rfl rfl

theorem Tiled.applyRemoteEdit {edit : EditOperation} (hvers : ∀ r, edit.version.get r < timestamp.value)
    (hval : ∀ text ∈ (Operation.edit edit).texts, Text.Valid text) :
    (self.applyRemoteEdit edit.version edit.ranges edit.newText timestamp).1.Tiled
        (Function.update texts timestamp (Operation.edit edit).texts.flatten) ∧
      self.bytes.Sublist (self.applyRemoteEdit edit.version edit.ranges edit.newText timestamp).1.bytes := by
  obtain ⟨_, version, ranges, newText⟩ := edit
  cases ranges with
  | nil => exact ⟨by rwa [Function.update_eq_self_iff.mpr (by rw [hnew]; rfl)], .refl _⟩
  | cons range ranges =>
    let edits := (range :: ranges).zip newText
    let loop := remoteLoop (Function.update texts timestamp (edits.map (·.2)).flatten) timestamp self.fragments version
    have hst : loop.At (edits.map (·.2)).flatten _ _ := h.at_rebuild rfl rfl hnew rfl
    obtain ⟨hseek, -⟩ := At.slice hst _
    obtain ⟨horder, hbuilt⟩ := (holds_editsRemote _ hvers (forall_mem_map.mp hval) hseek).finish
    exact h.rebuilt rfl rfl horder hbuilt rfl rfl rfl

end

/-! ## Undos -/

/-- The loop of an undo counts nothing: it takes whole fragments. -/
abbrev undoLoopOf (texts : InsertionTexts) (timestamp : Lamport) (old : List Fragment) : FragmentLoop LocatorPosition where
  texts := texts
  timestamp := timestamp
  old := old
  offset _ := 0
  counts _ := false
  offset_add _ _ := rfl

theorem at_undoLoop {old : List Fragment} (undo : UndoOperation) (undoMap : UndoMap) (fragmentIds : List Locator) {more : Text}
    {cursor : FragmentsCursor LocatorPosition} {new : Rebuild} (h : (undoLoopOf texts timestamp old).At more cursor new) :
    (undoLoopOf texts timestamp old).At more (undoLoop undo undoMap fragmentIds cursor new).1
      (undoLoop undo undoMap fragmentIds cursor new).2 := by
  induction fragmentIds generalizing cursor new with
  | nil => exact h
  | cons fragmentId fragmentIds ih =>
    obtain ⟨hslice, -⟩ := At.slice h _
    have hfrag : (undoLoopOf texts timestamp old).At more (undoFragment undo undoMap fragmentId cursor new).1
        (undoFragment undo undoMap fragmentId cursor new).2 := by
      unfold undoFragment
      generalize cursor.slice (LocatorPosition.before fragmentId) = sliced at hslice ⊢
      obtain ⟨front, ⟨start, _ | ⟨fragment, rest⟩⟩⟩ := sliced
      · exact hslice
      · dsimp only [FragmentsCursor.item, head?_cons]
        generalize hedit : (if (_ && _ : Bool) then _ else if (_ && _ : Bool) then _ else new.append front : Rebuild) = edited
        have hsame : SameFragments (new.append front) edited := by
          rw [← hedit]
          split
          · exact ⟨rfl, rfl, rfl⟩
          · split <;> exact ⟨rfl, rfl, rfl⟩
        let piece : Fragment :=
          { fragment with visible := fragment.isVisible undoMap, maxUndos := fragment.maxUndos.observe undo.timestamp }
        have htake : (undoLoopOf texts timestamp old).At more ⟨_, rest⟩ (edited.pushFragment piece _) :=
          (hslice.same hsame).takeWhole le_rfl rfl rfl
        exact htake.same ⟨rfl, rfl, rfl⟩
    exact ih hfrag

/-- An undo shows and hides fragments, and leaves them where they are. -/
theorem Tiled.applyUndo (h : self.Tiled texts) {undo : UndoOperation} (hnew : texts undo.timestamp = []) :
    (self.applyUndo undo).1.Tiled texts ∧ self.bytes.Sublist (self.applyUndo undo).1.bytes := by
  let self' := { self with undoMap := self.undoMap.insert undo }
  have h' : self'.Tiled texts := ⟨h.order, h.tiles, h.visible, h.deleted⟩
  let loop := undoLoopOf texts undo.timestamp self.fragments
  have hsame : texts = Function.update texts undo.timestamp [] := (Function.update_eq_self_iff.mpr hnew.symm).symm
  have hst : loop.At [] _ _ := h'.at_rebuild rfl hsame hnew rfl
  have hundo := at_undoLoop undo self'.undoMap (self'.fragmentIdsForEdits (undo.counts.map (·.1))) hst
  have hbuilt := At.built hundo
  rw [← append_nil (FragmentsCursor.rest _)] at hbuilt
  exact h'.rebuilt rfl hsame hundo.order hbuilt.append rfl rfl rfl

end Operations

section Taken

variable {texts : InsertionTexts} {self : BufferSnapshot} (h : self.Tiled texts)
include h

theorem Tiled.takeOp {op : Operation} (hnew : texts op.timestamp = []) (hvers : ∀ r, op.version.get r < op.timestamp.value)
    (hval : ∀ text ∈ op.texts, Text.Valid text) :
    (self.takeOp op).Tiled (Function.update texts op.timestamp op.texts.flatten) ∧ self.bytes.Sublist (self.takeOp op).bytes := by
  cases op with
  | edit edit =>
    obtain ⟨⟨hord, htile, hvis, hdel⟩, hsub⟩ := h.applyRemoteEdit hnew hvers hval
    exact ⟨⟨hord, htile, hvis, hdel⟩, hsub⟩
  | undo undo =>
    obtain ⟨⟨hord, htile, hvis, hdel⟩, hsub⟩ := h.applyUndo hnew
    refine ⟨?_, hsub⟩
    rw [Function.update_eq_self_iff.mpr hnew.symm]
    exact ⟨hord, htile, hvis, hdel⟩

theorem Tiled.effect {ids : List Lamport} {t : Lamport} {op : Operation} {new : BufferSnapshot} (heff : self.Effect ids t op new)
    (hnew : texts t = []) :
    new.Tiled (Function.update texts t op.texts.flatten) ∧ self.bytes.Sublist new.bytes ∧ ∀ text ∈ op.texts, Text.Valid text := by
  cases heff with
  | edit edits sorted valid =>
    have hval : ∀ edit ∈ edits, Text.Valid edit.2.normalize := fun edit hmem => (valid edit hmem).normalize
    obtain ⟨⟨hord, htile, hvis, hdel⟩, hsub⟩ := h.applyEditInternal hnew hval
    rw [texts_applyEditInternal]
    exact ⟨⟨hord, htile, hvis, hdel⟩, hsub, forall_mem_map.mpr hval⟩
  | undo counts =>
    let self' := { self with version := self.version.observe t }
    have h' : self'.Tiled texts := ⟨h.order, h.tiles, h.visible, h.deleted⟩
    obtain ⟨htil, hsub⟩ := h'.applyUndo (show texts (UndoOperation.mk t self.version counts).timestamp = [] from hnew)
    rw [Function.update_eq_self_iff.mpr hnew.symm]
    exact ⟨htil, hsub, nofun⟩

end Taken

end BufferSnapshot

/-! ## Runs -/

/-- The texts of the base text and of the operations that a replica has applied. -/
def insertionTexts (baseText : Text) (applied : List Operation) : InsertionTexts := fun t =>
  match applied.find? fun op => op.timestamp = t with
  | some op => op.texts.flatten
  | none => if t = Lamport.new .localReplica then baseText.normalize else []

section Runs

variable {baseText : Text} {applied : List Operation} {op : Operation}

theorem insertionTexts_append (hnew : ∀ other ∈ applied, other.timestamp ≠ op.timestamp) : insertionTexts baseText (applied ++ [op]) =
      Function.update (insertionTexts baseText applied) op.timestamp op.texts.flatten := by
  funext t
  unfold insertionTexts
  by_cases ht : t = op.timestamp
  · subst ht
    have hnone : applied.find? (fun other => other.timestamp = op.timestamp) = none := by simpa using hnew
    simp [hnone]
  · rw [Function.update_of_ne ht]
    simp [Ne.symm ht]

theorem find_timestamp {t : Lamport} (hnodup : (applied.map Operation.timestamp).Nodup) :
    (applied.find? fun op => op.timestamp = t) = some op ↔ op ∈ applied ∧ op.timestamp = t := by
  refine ⟨fun h => ⟨mem_of_find?_eq_some h, by simpa using find?_some h⟩, fun ⟨hop, ht⟩ => ?_⟩
  cases hfound : applied.find? fun op => op.timestamp = t with
  | none => exact absurd ht (by simpa using find?_eq_none.mp hfound op hop)
  | some other =>
    have ht' : other.timestamp = t := by simpa using find?_some hfound
    rw [inj_on_of_nodup_map hnodup (mem_of_find?_eq_some hfound) hop (ht'.trans ht.symm)]

namespace Broadcast

/-- Every replica's fragments tile what the replica has applied. -/
structure Tiles (baseText : Text) (net : Broadcast) : Prop where
  valid : ∀ op ∈ net.sent, ∀ text ∈ op.texts, Text.Valid text
  tiled : ∀ r, (net.snapshots r).Tiled (insertionTexts baseText (net.applied r))

variable {net new : Broadcast}

/-- What a replica has not observed it has not applied. -/
theorem Inv.fresh (inv : net.Inv (Network.baseVersion baseText)) {r : ReplicaId} {t : Lamport}
    (ht : (net.snapshots r).version.observed t = false) :
    insertionTexts baseText (net.applied r) t = [] ∧ ∀ other ∈ net.applied r, other.timestamp ≠ t := by
  have hnot : ∀ other ∈ net.applied r, other.timestamp ≠ t := by
    rintro other hoth rfl
    rw [((inv.view r).mem_applied _).mp hoth |>.2] at ht
    nomatch ht
  have hnone : (net.applied r).find? (fun other => other.timestamp = t) = none := by simpa using hnot
  refine ⟨?_, hnot⟩
  unfold insertionTexts
  rw [hnone]
  refine ite_eq_right_iff.mpr fun hbase => ?_
  by_contra hne
  have hget := (inv.view r).versionOf.base_le t.replicaId
  unfold Network.baseVersion at hget
  rw [if_neg (by simpa using hne), Global.get_observe, ← hbase, if_pos rfl] at hget
  rw [Global.observed_eq_false_iff] at ht
  omega

/-- A replica applies an operation. -/
theorem Tiles.update (h : net.Tiles baseText) {replicaId : ReplicaId} {snapshot : BufferSnapshot}
    (hne : ∀ other ∈ net.applied replicaId, other.timestamp ≠ op.timestamp)
    (htile : snapshot.Tiled (Function.update (insertionTexts baseText (net.applied replicaId)) op.timestamp op.texts.flatten))
    (hsub : (net.snapshots replicaId).bytes.Sublist snapshot.bytes) (r : ReplicaId) :
    (Function.update net.snapshots replicaId snapshot r).Tiled
        (insertionTexts baseText (Function.update net.applied replicaId (net.applied replicaId ++ [op]) r)) ∧
      (net.snapshots r).bytes.Sublist (Function.update net.snapshots replicaId snapshot r).bytes := by
  rw [← insertionTexts_append hne] at htile
  by_cases hr : r = replicaId
  · subst hr
    simpa using ⟨htile, hsub⟩
  · simpa [hr] using h.tiled r

theorem Tiles.step (h : net.Tiles baseText) (inv : net.Inv (Network.baseVersion baseText)) (hstep : net.Step new) :
    new.Tiles baseText ∧ ∀ r, (net.snapshots r).bytes.Sublist (new.snapshots r).bytes := by
  cases hstep with
  | @make op snapshot newer effect =>
    obtain ⟨hnew, hne⟩ := inv.fresh (Global.observed_eq_false_iff.mpr (newer _))
    obtain ⟨htile, hsub, hval⟩ := (h.tiled _).effect effect hnew
    have hupd := h.update hne htile hsub
    refine ⟨⟨fun other hoth => ?_, fun r => (hupd r).1⟩, fun r => (hupd r).2⟩
    rcases mem_append.mp hoth with hoth | hoth
    · exact h.valid _ hoth
    · exact mem_singleton.mp hoth ▸ hval
  | @take replicaId op sent fresh ready =>
    obtain ⟨hnew, hne⟩ := inv.fresh fresh
    obtain ⟨htile, hsub⟩ := (h.tiled _).takeOp hnew (inv.causal.version_lt op sent) (h.valid op sent)
    have hupd := h.update hne htile hsub
    exact ⟨⟨h.valid, fun r => (hupd r).1⟩, fun r => (hupd r).2⟩

theorem Tiles.steps (h : net.Tiles baseText) (inv : net.Inv (Network.baseVersion baseText)) (hste : net.Steps new) :
    new.Tiles baseText ∧ ∀ r, (net.snapshots r).bytes.Sublist (new.snapshots r).bytes := by
  induction hste with
  | refl => exact ⟨h, fun r => .refl _⟩
  | tail hste hstep ih =>
    obtain ⟨hnext, hsub⟩ := ih.1.step (inv.steps hste) hstep
    exact ⟨hnext, fun r => (ih.2 r).trans (hsub r)⟩

/-- Replicas with one version have applied the same operations, so they have the same bytes. -/
theorem Tiles.perm_bytes (h : net.Tiles baseText)
    (inv : net.Inv (Network.baseVersion baseText)) {r r' : ReplicaId}
    (hversion : (net.snapshots r).version = (net.snapshots r').version) :
    (net.snapshots r).bytes.Perm (net.snapshots r').bytes := by
  have htexts : insertionTexts baseText (net.applied r) = insertionTexts baseText (net.applied r') := by
    funext t
    have hfound : ((net.applied r).find? fun op => op.timestamp = t) = (net.applied r').find? fun op => op.timestamp = t := by
      refine Option.ext fun op => ?_
      rw [find_timestamp (inv.view r).nodup, find_timestamp (inv.view r').nodup, (inv.view r).mem_applied, (inv.view r').mem_applied,
        hversion]
    rw [insertionTexts, insertionTexts, hfound]
  have hcount : ∀ r place, count place (net.snapshots r).bytes =
      count place ((range (insertionTexts baseText (net.applied r) place.1).length).map fun offset => (place.1, offset)) :=
    fun r place => by rw [← (h.tiled r).tiles, count_filter (by simp)]
  exact perm_iff_count.mpr fun place => by rw [hcount, hcount, htexts]

end Broadcast

/-- The base text is an insertion like any other, before the largest locator. -/
theorem fragments_pushChunks (timestamp : Lamport) (chunks : List Nat) (new : Rebuild) :
    (pushChunks timestamp Locator.max chunks new).fragments =
      new.fragments ++ Buffer.baseFragments timestamp chunks new.insertionOffset new.maxId := by
  induction chunks generalizing new with
  | nil => exact (append_nil _).symm
  | cons chunkLen chunks ih =>
    rw [pushChunks, ih, Buffer.baseFragments]
    simp [Rebuild.maxId]

theorem tiled_new (hbase : Text.Valid baseText) (replicaId : ReplicaId) (groupInterval : Nat) :
    (Buffer.new replicaId groupInterval baseText).snapshot.Tiled (insertionTexts baseText []) := by
  let timestamp := Lamport.new .localReplica
  let new : Rebuild := ⟨[], ⟨[], [], [], []⟩, [], [], 0, []⟩
  obtain ⟨hpos, hsum⟩ := chunkLens_spec hbase.normalize _ 0 le_rfl
  obtain ⟨added, hfrag, -, -, hadd, hvis, hbyte⟩ :=
    @pushChunks_spec [] new _ _ hpos ⟨Locator.ordered_start, nofun⟩
  rw [hsum] at hbyte
  rw [append_nil] at hadd
  change _ = map _ (range' 0 baseText.normalize.length) at hbyte
  obtain rfl : added = Buffer.baseFragments timestamp _ 0 Locator.min :=
    append_cancel_left (hfrag.symm.trans (fragments_pushChunks _ _ _))
  have htex : ∀ t, insertionTexts baseText [] t = if t = timestamp then baseText.normalize else [] := fun _ => rfl
  obtain ⟨htext, hdel⟩ := @textOf_of_visible _ _ hvis
  refine ⟨hadd, fun t => ?_, ?_, hdel.symm⟩
  · refine (congrArg _ hbyte).trans ?_
    rw [htex]
    by_cases ht : t = timestamp
    · simp [ht, filter_map, Function.comp_def, range_eq_range']
    · simp [ht, Ne.symm, filter_map, Function.comp_def]
  · refine ((htext.trans (congrArg _ hbyte)).trans ?_).symm
    rw [map_map]
    refine (map_congr_left fun i _ => ?_).trans (map_getD_range' [] _ [])
    simp [InsertionTexts.byte, htex]

namespace Network

variable {net : Network}

theorem Inv.simulates_steps {new : Network} (inv : net.Inv (baseVersion baseText)) (hste : net.Steps new) :
    net.broadcast.Steps new.broadcast := by
  induction hste with
  | refl => exact .refl
  | tail hste hstep ih => exact ih.trans ((inv.steps hste).simulates hstep)

theorem Reachable.tiles (hbase : Text.Valid baseText) (h : net.Reachable baseText) : net.broadcast.Tiles baseText := by
  obtain ⟨groupInterval, hstep⟩ := h
  have inv := inv_init baseText groupInterval
  have hinit : (init baseText groupInterval).broadcast.Tiles baseText := ⟨nofun, fun r => tiled_new hbase r (groupInterval r)⟩
  exact (hinit.steps inv.broadcast (inv.simulates_steps hstep)).1

/-- In every run, the fragments of every replica have ids that go up and none of them is empty; the fragments of each insertion
that the replica has applied are its text, from its start to its end, in this order, and there are no others; and the visible and
the deleted text are those of the fragments. -/
theorem fragments_tile_insertions (hbase : Text.Valid baseText) (h : net.Reachable baseText) (r : ReplicaId) :
    (net.buffers r).snapshot.Tiled (insertionTexts baseText (net.applied r)) :=
  (h.tiles hbase).tiled r

theorem fragments_tile_insertions_two_inserts :
    (twoInsertsDelivered.buffers ⟨2⟩).snapshot.Tiled (insertionTexts [] (twoInsertsDelivered.applied ⟨2⟩)) :=
  fragments_tile_insertions (by decide) reachable_twoInsertsDelivered _

/-- Whatever happens in a run, no replica loses a byte that has been inserted, and their order stays. -/
theorem bytes_keep_order (hbase : Text.Valid baseText) (h : net.Reachable baseText) {new : Network} (hsteps : net.Steps new)
    (r : ReplicaId) : (net.buffers r).snapshot.bytes.Sublist (new.buffers r).snapshot.bytes :=
  ((h.tiles hbase).steps h.inv.broadcast (h.inv.simulates_steps hsteps)).2 r

theorem bytes_keep_order_deletion :
    ((init [97, 98] fun _ => 0).buffers ⟨1⟩).snapshot.bytes.Sublist
      (((init [97, 98] fun _ => 0).perform ⟨1⟩ (.edit [(⟨0, 1⟩, [])] 0 0)).buffers ⟨1⟩).snapshot.bytes := by
  have hstep : Step (init [97, 98] fun _ => 0) _ := .perform ⟨1⟩ (.edit [(⟨0, 1⟩, [])] 0 0)
    ⟨by decide, fun _ h => mem_singleton.mp h ▸ ⟨by decide, by decide, by decide⟩⟩
  exact bytes_keep_order (by decide) ⟨_, .refl⟩ (.single hstep) _

/-- Replicas with one version have the same bytes of the same insertions. -/
theorem same_version_same_bytes (hbase : Text.Valid baseText) (h : net.Reachable baseText) {r r' : ReplicaId}
    (hversion : (net.buffers r).version = (net.buffers r').version) :
    (net.buffers r).snapshot.bytes.Perm (net.buffers r').snapshot.bytes :=
  (h.tiles hbase).perm_bytes h.inv.broadcast hversion

theorem same_version_same_bytes_two_inserts :
    (twoInsertsDelivered.buffers ⟨1⟩).snapshot.bytes.Perm (twoInsertsDelivered.buffers ⟨2⟩).snapshot.bytes :=
  same_version_same_bytes (by decide) reachable_twoInsertsDelivered (by decide)

end Network

end Runs

end Wu
