import Wu.Text.Patch

/-!
# Composing patches

A patch transforms an old text into a new one when its edits are in order and apart, the distances between them are the same
in both texts, and replacing its old ranges by the new text of its new ranges gives the new text. `Maps` says the same by the
pieces of the two texts, from two positions on; the loop of `compose` cuts pieces off both patches at the text between them.
-/

namespace Wu.Patch

open List

variable {α : Type}

/-! ## What a patch says -/

/-- The distances between the edits are the same in both texts, from two positions to the ends. -/
def Gaps (oldLen newLen : Nat) : Nat → Nat → Patch → Prop
  | i, j, [] => i ≤ oldLen ∧ j ≤ newLen ∧ oldLen - i = newLen - j
  | i, j, edit :: edits =>
    i ≤ edit.old.start ∧ j ≤ edit.new.start ∧ edit.old.start - i = edit.new.start - j ∧
      Gaps oldLen newLen edit.old.stop edit.new.stop edits

/-- Edits that are in order and do not touch, in both texts. -/
def Apart (self : Patch) : Prop := self.Pairwise fun a b => a.old.stop < b.old.start ∧ a.new.stop < b.new.start

/-- A patch between texts of two lengths. -/
structure WellFormed (patch : Patch) (oldLen newLen : Nat) : Prop where
  ordered : ∀ edit ∈ patch, edit.old.start ≤ edit.old.stop ∧ edit.new.start ≤ edit.new.stop
  apart : Apart patch
  gaps : Gaps oldLen newLen 0 0 patch

/-- The old text from a position on, with the old ranges replaced by the new text's new ranges. -/
def replaceFrom (new : List α) : Nat → Patch → List α → List α
  | _, [], old => old
  | i, edit :: edits, old =>
    old.take (edit.old.start - i) ++ (new.drop edit.new.start).take edit.newLen ++
      replaceFrom new edit.old.stop edits (old.drop (edit.old.stop - i))

/-- A patch transforms an old text into a new one. -/
structure Transforms (patch : Patch) (old new : List α) : Prop where
  wellFormed : WellFormed patch old.length new.length
  replaces : replaceFrom new 0 patch old = new

/-- Where an offset of the old text is in the new one. -/
def oldToNew (self : Patch) (old : Nat) : Nat :=
  match (self.filter fun edit => edit.old.start ≤ old).getLast? with
  | some edit => if old ≥ edit.old.stop then edit.new.stop + (old - edit.old.stop) else edit.new.start
  | none => old

/-! ## The pieces of the two texts -/

/-- Both texts cut at the edits, from two positions on. -/
def Maps : Nat → Nat → Patch → List α → List α → Prop
  | _, _, [], old, new => old = new
  | i, j, edit :: edits, old, new =>
    ∃ gap cut put old' new', old = gap ++ cut ++ old' ∧ new = gap ++ put ++ new' ∧
      edit.old.start = i + gap.length ∧ edit.old.stop = i + gap.length + cut.length ∧
      edit.new.start = j + gap.length ∧ edit.new.stop = j + gap.length + put.length ∧
      Maps edit.old.stop edit.new.stop edits old' new'

section Maps

variable {i j : Nat} {patch : Patch} {old new : List α}

/-- The texts may both go on with the same text. -/
theorem Maps.append (h : Maps i j patch old new) (more : List α) : Maps i j patch (old ++ more) (new ++ more) := by
  induction patch generalizing i j old new with
  | nil => exact congrArg (· ++ more) h
  | cons edit edits ih =>
    obtain ⟨gap, cut, put, old', new', rfl, rfl, h1, h2, h3, h4, hrest⟩ := h
    exact ⟨gap, cut, put, old' ++ more, new' ++ more, by simp, by simp, h1, h2, h3, h4, ih hrest⟩

/-- The pieces around the last edit. -/
theorem maps_concat {edit : Edit} : Maps i j (patch ++ [edit]) old new ↔
      ∃ old' new' cut put gap, old = old' ++ cut ++ gap ∧ new = new' ++ put ++ gap ∧
        edit.old.start = i + old'.length ∧ edit.old.stop = i + old'.length + cut.length ∧
        edit.new.start = j + new'.length ∧ edit.new.stop = j + new'.length + put.length ∧ Maps i j patch old' new' := by
  induction patch generalizing i j old new with
  | nil =>
    constructor
    · rintro ⟨gap, cut, put, old', -, rfl, rfl, h1, h2, h3, h4, rfl⟩
      exact ⟨gap, gap, cut, put, old', rfl, rfl, h1, h2, h3, h4, rfl⟩
    · rintro ⟨old', new', cut, put, gap, rfl, rfl, h1, h2, h3, h4, rfl⟩
      exact ⟨old', cut, put, gap, gap, rfl, rfl, h1, h2, h3, h4, rfl⟩
  | cons first edits ih =>
    constructor
    · rintro ⟨gap, cut, put, old', new', rfl, rfl, h1, h2, h3, h4, hrest⟩
      obtain ⟨o, n, c, p, g, rfl, rfl, k1, k2, k3, k4, hm⟩ := ih.mp hrest
      refine ⟨gap ++ cut ++ o, gap ++ put ++ n, c, p, g, by simp, by simp, ?_, ?_, ?_, ?_, ?_⟩
      · simp only [length_append]; omega
      · simp only [length_append]; omega
      · simp only [length_append]; omega
      · simp only [length_append]; omega
      · exact ⟨gap, cut, put, o, n, rfl, rfl, h1, h2, h3, h4, hm⟩
    · rintro ⟨-, -, c, p, g, rfl, rfl, k1, k2, k3, k4, gap, cut, put, o, n, rfl, rfl, h1, h2, h3, h4, hm⟩
      simp only [length_append] at k1 k2 k3 k4
      refine ⟨gap, cut, put, o ++ c ++ g, n ++ p ++ g, by simp, by simp, h1, h2, h3, h4, ih.mpr ?_⟩
      exact ⟨o, n, c, p, g, rfl, rfl, by omega, by omega, by omega, by omega, hm⟩

/-- A text that both go through before the first edit is cut off. -/
theorem Maps.advance {common : List α} (h : Maps i j patch (common ++ old) new)
    (hfst : ∀ edit ∈ patch.head?, i + common.length ≤ edit.old.start) :
    ∃ new', new = common ++ new' ∧ Maps (i + common.length) (j + common.length) patch old new' := by
  cases patch with
  | nil => exact ⟨old, h.symm, rfl⟩
  | cons edit edits =>
    obtain ⟨gap, cut, put, old', new', heq, rfl, h1, h2, h3, h4, hrest⟩ := h
    have hle := hfst edit rfl
    obtain ⟨gap', rfl⟩ : ∃ gap', gap = common ++ gap' := by
      rw [append_assoc] at heq
      have hpre : common <+: gap := prefix_of_prefix_length_le ⟨old, heq⟩ ⟨_, rfl⟩ (by omega)
      exact ⟨_, hpre.choose_spec.symm⟩
    rw [append_assoc, append_assoc, append_cancel_left_eq] at heq
    simp only [length_append] at h1 h2 h3 h4
    exact ⟨gap' ++ put ++ new', by simp, gap', cut, put, old', new', by rw [heq, append_assoc], rfl, by omega,
      by omega, by omega, by omega, hrest⟩

/-- The edits the other way round. -/
def swap (edit : Edit) : Edit := ⟨edit.new, edit.old⟩

theorem Maps.swap (h : Maps i j patch old new) : Maps j i (patch.map swap) new old := by
  induction patch generalizing i j old new with
  | nil => exact h.symm
  | cons edit edits ih =>
    obtain ⟨gap, cut, put, old', new', rfl, rfl, h1, h2, h3, h4, hrest⟩ := h
    exact ⟨gap, put, cut, new', old', rfl, rfl, h3, h4, h1, h2, ih hrest⟩

theorem map_swap_swap (patch : Patch) : (patch.map Patch.swap).map Patch.swap = patch := by
  rw [map_map]
  exact map_id _

/-- The same for a text before the first edit's new range. -/
theorem Maps.advance_new {common : List α} (h : Maps i j patch old (common ++ new))
    (hfst : ∀ edit ∈ patch.head?, j + common.length ≤ edit.new.start) :
    ∃ old', old = common ++ old' ∧ Maps (i + common.length) (j + common.length) patch old' new := by
  obtain ⟨old', rfl, hm⟩ := h.swap.advance (by cases patch <;> simp_all [Patch.swap])
  refine ⟨old', rfl, ?_⟩
  have := hm.swap
  rwa [map_swap_swap] at this

end Maps

/-! ## The patch that is built -/

/-- A patch between two texts whose edits are apart and not empty. -/
structure Composed (composed : Patch) (old new : List α) : Prop where
  maps : Maps 0 0 composed old new
  apart : Apart composed
  nonempty : ∀ edit ∈ composed, edit.isEmpty = false

section Composed

variable {composed : Patch} {old new : List α}

theorem Composed.append (h : Composed composed old new) (more : List α) : Composed composed (old ++ more) (new ++ more) :=
  ⟨h.maps.append more, h.apart, h.nonempty⟩

/-- The edits up to the last one, and what the last one replaces. -/
theorem apart_concat {edit : Edit} : Apart (composed ++ [edit]) ↔
      Apart composed ∧ ∀ a ∈ composed, a.old.stop < edit.old.start ∧ a.new.stop < edit.new.start := by
  unfold Apart
  rw [pairwise_append]
  constructor
  · rintro ⟨h, -, hlt⟩
    exact ⟨h, fun a ha => hlt a ha edit (.head _)⟩
  · rintro ⟨h, hlt⟩
    refine ⟨h, pairwise_singleton _ _, fun a ha b hb => ?_⟩
    rw [mem_singleton.mp hb]
    exact hlt a ha

/-- An edit at the ends of the two texts is pushed; it is merged with the last one when that one reaches the ends. -/
theorem Composed.push (h : Composed composed old new) (cut put : List α) : Composed
      (Patch.push composed ⟨⟨old.length, old.length + cut.length⟩, ⟨new.length, new.length + put.length⟩⟩)
      (old ++ cut) (new ++ put) := by
  unfold Patch.push
  split
  · rename_i hemp
    simp only [Edit.isEmpty, Bool.and_eq_true, beq_iff_eq] at hemp
    have hcut : cut = [] := length_eq_zero_iff.mp (by omega)
    have hput : put = [] := length_eq_zero_iff.mp (by omega)
    rw [hcut, hput, append_nil, append_nil]
    exact h
  · rename_i hfull
    rw [Bool.not_eq_true] at hfull
    rcases eq_nil_or_concat composed with rfl | ⟨edits, last, heq⟩
    · exact ⟨⟨old, cut, put, [], [], by simp, by simp [show old = new from h.maps], by simp, by simp,
        by simp [show old = new from h.maps], by simp [show old = new from h.maps], rfl⟩,
        pairwise_singleton _ _, fun edit he => mem_singleton.mp he ▸ hfull⟩
    · rw [concat_eq_append] at heq
      subst heq
      obtain ⟨hmaps, hapa, hnon⟩ := h
      obtain ⟨old', new', c, p, gap, rfl, rfl, h1, h2, h3, h4, hm⟩ := maps_concat.mp hmaps
      obtain ⟨ha, hlt⟩ := apart_concat.mp hapa
      have hnon' : ∀ edit ∈ edits, edit.isEmpty = false := fun edit he => hnon edit (by simp [he])
      have hlast := hnon last (by simp)
      unfold pushMaybeEmpty
      rw [getLast?_concat]
      simp only [dropLast_concat, length_append] at h1 h2 h3 h4 hfull ⊢
      split
      · -- the last edit reaches the ends, so there is nothing between
        have hgap : gap = [] := length_eq_zero_iff.mp (by omega)
        subst hgap
        refine ⟨maps_concat.mpr ⟨old', new', c ++ cut, p ++ put, [], by simp, by simp, h1, ?_, h3, ?_, hm⟩,
          apart_concat.mpr ⟨ha, hlt⟩, ?_⟩
        · simp only [length_append, length_nil]; omega
        · simp only [length_append, length_nil]; omega
        · intro edit he
          rcases mem_append.mp he with he | he
          · exact hnon' edit he
          · rw [mem_singleton.mp he]
            simp only [Edit.isEmpty, Bool.and_eq_false_iff, beq_eq_false_iff_ne] at hlast ⊢
            omega
      · refine ⟨maps_concat.mpr ⟨old' ++ c ++ gap, new' ++ p ++ gap, cut, put, [], by simp, by simp, ?_, ?_, ?_, ?_,
          hmaps⟩, apart_concat.mpr ⟨hapa, ?_⟩, ?_⟩
        · simp only [length_append]; omega
        · simp only [length_append]; omega
        · simp only [length_append]; omega
        · simp only [length_append]; omega
        · intro a he
          rcases mem_append.mp he with he | he
          · have := hlt a he
            simp only
            omega
          · rw [mem_singleton.mp he]
            simp only
            omega
        · intro edit he
          rcases mem_append.mp he with he | he
          · exact hnon edit he
          · rw [mem_singleton.mp he]
            exact hfull

end Composed

/-! ## The loop of `compose` -/

/-- A shorter front of a text is a front of a longer one. -/
theorem exists_append_of_le {a b c d : List α} (h : a ++ b = c ++ d) (hle : c.length ≤ a.length) : ∃ e, a = c ++ e ∧ e ++ b = d := by
  obtain ⟨e, rfl⟩ : c <+: a := prefix_of_prefix_length_le ⟨d, rfl⟩ ⟨b, h⟩ hle
  exact ⟨e, rfl, by rwa [append_assoc, append_cancel_left_eq] at h⟩

namespace Composing

variable {old new : List α} {state : Composing} {oldEdit newEdit : Edit} {oldEdits newEdits : List Edit}

/-- What holds in the loop: the patch so far is between what both texts have before its ends, and the edits that are left
are between what they have after, by way of the rest of the text between. -/
def Invariant (old new : List α) (state : Composing) : Prop :=
  ∃ oldDone oldRest newDone newRest between j, old = oldDone ++ oldRest ∧ new = newDone ++ newRest ∧
      state.oldStart = oldDone.length ∧ state.newStart = newDone.length ∧ Composed state.composed oldDone newDone ∧
      Maps oldDone.length j state.oldEdits oldRest between ∧ Maps j newDone.length state.newEdits between newRest

/-- The invariant after a piece of each text, behind a gap, has become part of the patch. -/
theorem invariant_of_push {composed : Patch} {oldDone oldRest newDone newRest between cut put : List α} {j : Nat}
    (gap : List α) (hc : Composed composed oldDone newDone)
    (hp : Maps (oldDone.length + gap.length + cut.length) j oldEdits oldRest between)
    (hq : Maps j (newDone.length + gap.length + put.length) newEdits between newRest) :
    Invariant (oldDone ++ (gap ++ cut ++ oldRest)) (newDone ++ (gap ++ put ++ newRest))
      { oldEdits := oldEdits
        newEdits := newEdits
        composed := Patch.push composed ⟨⟨oldDone.length + gap.length, oldDone.length + gap.length + cut.length⟩,
            ⟨newDone.length + gap.length, newDone.length + gap.length + put.length⟩⟩
        oldStart := oldDone.length + gap.length + cut.length
        newStart := newDone.length + gap.length + put.length } := by
  have hpush := (hc.append gap).push cut put
  have hold : (oldDone ++ gap ++ cut).length = oldDone.length + gap.length + cut.length := by
    rw [length_append, length_append]
  have hnew : (newDone ++ gap ++ put).length = newDone.length + gap.length + put.length := by
    rw [length_append, length_append]
  rw [length_append, length_append] at hpush
  exact ⟨oldDone ++ gap ++ cut, oldRest, newDone ++ gap ++ put, newRest, between, j, by simp, by simp, hold.symm, hnew.symm,
    hpush, hold.symm ▸ hp, hnew.symm ▸ hq⟩

theorem Invariant.pushOld (h : Invariant old new state) (hold : state.oldEdits = oldEdit :: oldEdits)
    (hfst : ∀ other ∈ state.newEdits.head?, oldEdit.new.stop ≤ other.old.start) :
    Invariant old new (state.pushOld oldEdit oldEdits) := by
  obtain ⟨oldDone, oldRest, newDone, newRest, between, j, rfl, rfl, hi, hk, hc, hp, hq⟩ := h
  rw [hold] at hp
  obtain ⟨gap, cut, put, oldRest', between', rfl, rfl, h1, h2, h3, h4, hrest⟩ := hp
  obtain ⟨newRest', rfl, hq'⟩ := hq.advance fun other ho => by
    rw [length_append, ← Nat.add_assoc, ← h4]
    exact hfst _ ho
  rw [length_append, ← Nat.add_assoc, ← Nat.add_assoc, ← h4] at hq'
  have hcat : oldEdit.old.start - oldDone.length = gap.length := by omega
  have hcut : oldEdit.oldLen = cut.length := by unfold Edit.oldLen; omega
  have hput : oldEdit.newLen = put.length := by unfold Edit.newLen; omega
  have hinv := invariant_of_push _ hc (h2 ▸ hrest) hq'
  simp only [Composing.pushOld, catchUp, pushTo, hcut, hput, hi, hk, hcat]
  exact hinv

theorem Invariant.pushNew (h : Invariant old new state) (hnew : state.newEdits = newEdit :: newEdits)
    (hfst : ∀ other ∈ state.oldEdits.head?, newEdit.old.stop ≤ other.new.start) :
    Invariant old new (state.pushNew newEdit newEdits) := by
  obtain ⟨oldDone, oldRest, newDone, newRest, between, j, rfl, rfl, hi, hk, hc, hp, hq⟩ := h
  rw [hnew] at hq
  obtain ⟨gap, cut, put, between', newRest', rfl, rfl, h1, h2, h3, h4, hrest⟩ := hq
  obtain ⟨oldRest', rfl, hp'⟩ := hp.advance_new fun other ho => by
    rw [length_append, ← Nat.add_assoc, ← h2]
    exact hfst _ ho
  rw [length_append, ← Nat.add_assoc, ← Nat.add_assoc, ← h2] at hp'
  have hcat : newEdit.new.start - newDone.length = gap.length := by omega
  have hcut : newEdit.oldLen = cut.length := by unfold Edit.oldLen; omega
  have hput : newEdit.newLen = put.length := by unfold Edit.newLen; omega
  have hinv := invariant_of_push _ hc hp' (h4 ▸ hrest)
  simp only [Composing.pushNew, catchUp, pushTo, hcut, hput, hi, hk, hcat]
  exact hinv

/-- After the part before the other edit has been pushed, both edits start at the ends. -/
theorem Invariant.pushOverlapStart (h : Invariant old new state) (hold : state.oldEdits = oldEdit :: oldEdits)
    (hnew : state.newEdits = newEdit :: newEdits) (hle : newEdit.old.start ≤ oldEdit.new.stop)
    (hle' : oldEdit.new.start ≤ newEdit.old.stop) :
    let next := state.pushOverlapStart oldEdit newEdit
    Invariant old new { next.1 with oldEdits := next.2.1 :: oldEdits, newEdits := next.2.2 :: newEdits } ∧
      next.2.1.old.start = next.1.oldStart ∧ next.2.2.new.start = next.1.newStart := by
  obtain ⟨oldDone, oldRest, newDone, newRest, between, j, rfl, rfl, hi, hk, hc, hp, hq⟩ := h
  rw [hold] at hp
  rw [hnew] at hq
  obtain ⟨gap, cut, put, oldRest', between', rfl, rfl, h1, h2, h3, h4, hp⟩ := hp
  obtain ⟨gap', cut', put', between₂, newRest', heq, rfl, k1, k2, k3, k4, hq⟩ := hq
  simp only [append_assoc] at heq
  unfold Composing.pushOverlapStart
  split
  · rename_i hlt
    -- the old edit puts the first part of its text before the new edit
    obtain ⟨put₁, rfl, heq₁⟩ := exists_append_of_le heq.symm (by omega)
    rw [length_append] at k1 k2 k3 k4
    obtain ⟨put₂, rfl, heq₂⟩ := exists_append_of_le heq₁.symm (by omega)
    rw [length_append] at h4
    have hcat : oldEdit.old.start - oldDone.length = gap.length := by omega
    have hover : newEdit.old.start - oldEdit.new.start = put₁.length := by omega
    have hend : min (oldDone.length + gap.length + put₁.length) oldEdit.old.stop =
        oldDone.length + gap.length + (cut.take put₁.length).length := by
      rw [length_take]
      omega
    have hdrop : (cut.drop put₁.length).length = cut.length - put₁.length := length_drop
    simp only [catchUp, pushTo, hi, hk, hcat, hover, hend]
    refine ⟨?_, trivial, by omega⟩
    have hp' : Maps (oldDone.length + gap.length + (cut.take put₁.length).length) newEdit.old.start
        (⟨⟨oldDone.length + gap.length + (cut.take put₁.length).length, oldEdit.old.stop⟩,
          ⟨oldEdit.new.start + put₁.length, oldEdit.new.stop⟩⟩ :: oldEdits)
        (cut.drop put₁.length ++ oldRest') (put₂ ++ between') :=
      ⟨[], cut.drop _, put₂, oldRest', between', rfl, rfl, rfl, by simp only [length_nil]; omega,
        by simp only [length_nil]; omega, by simp only [length_nil]; omega, hp⟩
    have hq' : Maps newEdit.old.start (newDone.length + gap.length + put₁.length) (newEdit :: newEdits)
        (put₂ ++ between') (put' ++ newRest') :=
      ⟨[], cut', put', between₂, newRest', heq₂, rfl, rfl, by simp only [length_nil]; omega,
        by simp only [length_nil]; omega, by simp only [length_nil]; omega, hq⟩
    have hinv := invariant_of_push _ hc hp' hq'
    have hcuts : gap ++ cut.take put₁.length ++ (cut.drop put₁.length ++ oldRest') = gap ++ cut ++ oldRest' := by
      rw [append_assoc, ← append_assoc (cut.take _), take_append_drop, append_assoc]
    rw [hcuts, ← append_assoc _ put'] at hinv
    exact hinv
  · rename_i hlt
    -- the new edit cuts the first part of its text before the old edit
    obtain ⟨cut₁, rfl, heq₁⟩ := exists_append_of_le heq (by omega)
    rw [length_append] at h1 h2 h3 h4
    obtain ⟨cut₂, rfl, heq₂⟩ := exists_append_of_le heq₁.symm (by omega)
    rw [length_append] at k2
    have hcat : newEdit.new.start - newDone.length = gap'.length := by omega
    have hover : oldEdit.new.start - newEdit.old.start = cut₁.length := by omega
    have hend : min (newDone.length + gap'.length + cut₁.length) newEdit.new.stop =
        newDone.length + gap'.length + (put'.take cut₁.length).length := by
      rw [length_take]
      omega
    have hdrop : (put'.drop cut₁.length).length = put'.length - cut₁.length := length_drop
    simp only [catchUp, pushTo, hi, hk, hcat, hover, hend]
    refine ⟨?_, by omega, trivial⟩
    have hp' : Maps (oldDone.length + gap'.length + cut₁.length) oldEdit.new.start (oldEdit :: oldEdits)
        (cut ++ oldRest') (put ++ between') :=
      ⟨[], cut, put, oldRest', between', rfl, rfl, by simp only [length_nil]; omega,
        by simp only [length_nil]; omega, rfl, by simp only [length_nil]; omega, hp⟩
    have hq' : Maps oldEdit.new.start (newDone.length + gap'.length + (put'.take cut₁.length).length)
        (⟨⟨newEdit.old.start + cut₁.length, newEdit.old.stop⟩,
          ⟨newDone.length + gap'.length + (put'.take cut₁.length).length, newEdit.new.stop⟩⟩ :: newEdits)
        (put ++ between') (put'.drop cut₁.length ++ newRest') :=
      ⟨[], cut₂, put'.drop _, between₂, newRest', heq₂.symm, rfl, by simp only [length_nil]; omega,
        by simp only [length_nil]; omega, rfl, by simp only [length_nil]; omega, hq⟩
    have hinv := invariant_of_push _ hc hp' hq'
    have hputs : gap' ++ put'.take cut₁.length ++ (put'.drop cut₁.length ++ newRest') = gap' ++ put' ++ newRest' := by
      rw [append_assoc, ← append_assoc (put'.take _), take_append_drop, append_assoc]
    rw [hputs, ← append_assoc _ cut] at hinv
    exact hinv

/-- The edit that ends first is dropped, with the part of the other one that is in it. -/
theorem Invariant.pushOverlapEnd
    (h : Invariant old new { state with oldEdits := oldEdit :: oldEdits, newEdits := newEdit :: newEdits })
    (hold : oldEdit.old.start = state.oldStart) (hnew : newEdit.new.start = state.newStart) :
    Invariant old new (state.pushOverlapEnd oldEdit newEdit oldEdits newEdits) := by
  obtain ⟨oldDone, oldRest, newDone, newRest, between, j, rfl, rfl, hi, hk, hc, hp, hq⟩ := h
  obtain ⟨gap, cut, put, oldRest', between', rfl, rfl, h1, h2, h3, h4, hp⟩ := hp
  obtain ⟨gap', cut', put', between₂, newRest', heq, rfl, k1, k2, k3, k4, hq⟩ := hq
  simp only at hi hk hc
  -- both edits start at the ends
  obtain rfl : gap = [] := length_eq_zero_iff.mp (by omega)
  obtain rfl : gap' = [] := length_eq_zero_iff.mp (by omega)
  simp only [nil_append, length_nil, Nat.add_zero] at *
  have hcut : oldEdit.oldLen = cut.length := by unfold Edit.oldLen; omega
  have hput : oldEdit.newLen = put.length := by unfold Edit.newLen; omega
  have hcut' : newEdit.oldLen = cut'.length := by unfold Edit.oldLen; omega
  have hput' : newEdit.newLen = put'.length := by unfold Edit.newLen; omega
  unfold Composing.pushOverlapEnd
  split
  · rename_i hlt
    -- the text that the old edit puts there goes on after the new edit
    obtain ⟨put₂, rfl, heq₂⟩ := exists_append_of_le heq (by omega)
    rw [length_append] at h4 hput
    have hdrop : (cut.drop cut'.length).length = cut.length - cut'.length := length_drop
    have htake : (cut.take cut'.length).length = min cut.length cut'.length := by
      rw [length_take, Nat.min_comm]
    have hp' : Maps (oldDone.length + (cut.take cut'.length).length) newEdit.old.stop
        (⟨⟨oldDone.length + min cut.length cut'.length, oldEdit.old.stop⟩, ⟨newEdit.old.stop, oldEdit.new.stop⟩⟩ :: oldEdits)
        (cut.drop cut'.length ++ oldRest') between₂ :=
      ⟨[], cut.drop _, put₂, oldRest', between', rfl, heq₂.symm, by simp only [length_nil]; omega,
        by simp only [length_nil]; omega, rfl, by simp only [length_nil]; omega, hp⟩
    have hcuts : [] ++ cut.take cut'.length ++ (cut.drop cut'.length ++ oldRest') = cut ++ oldRest' := by
      rw [nil_append, ← append_assoc, take_append_drop]
    have hinv := invariant_of_push [] hc hp' (k4 ▸ hq)
    rw [hcuts] at hinv
    simp only [pushTo, hi, hk, hcut, hcut', hput', htake, length_nil, Nat.add_zero, nil_append] at hinv ⊢
    exact hinv
  · rename_i hlt
    -- the text that the new edit cuts goes on after the old edit
    obtain ⟨cut₂, rfl, heq₂⟩ := exists_append_of_le heq.symm (by omega)
    rw [length_append] at k2 hcut'
    have hdrop : (put'.drop put.length).length = put'.length - put.length := length_drop
    have htake : (put'.take put.length).length = min put.length put'.length := length_take
    have hq' : Maps oldEdit.new.stop (newDone.length + (put'.take put.length).length)
        (⟨⟨oldEdit.new.stop, newEdit.old.stop⟩, ⟨newDone.length + min put.length put'.length, newEdit.new.stop⟩⟩ :: newEdits)
        between' (put'.drop put.length ++ newRest') :=
      ⟨[], cut₂, put'.drop _, between₂, newRest', heq₂.symm, rfl, rfl, by simp only [length_nil]; omega,
        by simp only [length_nil]; omega, by simp only [length_nil]; omega, hq⟩
    have hputs : [] ++ put'.take put.length ++ (put'.drop put.length ++ newRest') = put' ++ newRest' := by
      rw [nil_append, ← append_assoc, take_append_drop]
    have hinv := invariant_of_push [] hc (h2 ▸ hp) hq'
    rw [hputs] at hinv
    simp only [pushTo, hi, hk, hcut, hput, hput', htake, length_nil, Nat.add_zero, nil_append] at hinv ⊢
    exact hinv

/-! ## The number of edits that are left -/

@[simp] theorem pushOld_oldEdits : (state.pushOld oldEdit oldEdits).oldEdits = oldEdits := rfl

@[simp] theorem pushOld_newEdits : (state.pushOld oldEdit oldEdits).newEdits = state.newEdits := rfl

@[simp] theorem pushNew_oldEdits : (state.pushNew newEdit newEdits).oldEdits = state.oldEdits := rfl

@[simp] theorem pushNew_newEdits : (state.pushNew newEdit newEdits).newEdits = newEdits := rfl

theorem length_pushOverlapEnd : (state.pushOverlapEnd oldEdit newEdit oldEdits newEdits).oldEdits.length +
      (state.pushOverlapEnd oldEdit newEdit oldEdits newEdits).newEdits.length = oldEdits.length + newEdits.length + 1 := by
  unfold pushOverlapEnd
  split
  · simp only [length_cons]; omega
  · simp only [length_cons]; omega

/-- One pass of the loop keeps the invariant. -/
theorem Invariant.step (h : Invariant old new state) : Invariant old new state.step := by
  unfold Composing.step
  split
  · exact h
  · rename_i hold hnew
    exact h.pushOld hold (by rw [hnew]; nofun)
  · rename_i hold hnew
    exact h.pushNew hnew (by rw [hold]; nofun)
  · rename_i oldEdit oldEdits newEdit newEdits hold hnew
    split
    · rename_i hlt
      refine h.pushOld hold fun other ho => ?_
      rw [hnew] at ho
      obtain rfl := Option.mem_some_iff.mp ho
      exact hlt.le
    · split
      · rename_i hlt
        refine h.pushNew hnew fun other ho => ?_
        rw [hold] at ho
        obtain rfl := Option.mem_some_iff.mp ho
        exact hlt.le
      · obtain ⟨hinv, hst, hst'⟩ := h.pushOverlapStart hold hnew (by omega) (by omega)
        exact hinv.pushOverlapEnd hst hst'

/-- One pass of the loop drops an edit. -/
theorem length_step (state : Composing) :
    state.step.oldEdits.length + state.step.newEdits.length = state.oldEdits.length + state.newEdits.length - 1 := by
  unfold Composing.step
  split
  · rename_i hold hnew
    rw [hold, hnew]
    rfl
  · rename_i hold hnew
    simp [hold, hnew]
  · rename_i hold hnew
    simp [hold, hnew]
  · rename_i hold hnew
    rw [hold, hnew]
    simp only [length_cons]
    split
    · rw [pushOld_oldEdits, pushOld_newEdits, hnew, length_cons]; omega
    · split
      · rw [pushNew_oldEdits, pushNew_newEdits, hold, length_cons]; omega
      · rw [length_pushOverlapEnd]; omega

/-- The loop runs until no edit is left. -/
theorem Invariant.loop {n : Nat} (h : Invariant old new state) (hn : state.oldEdits.length + state.newEdits.length ≤ n) :
    Invariant old new (Composing.loop n state) ∧ (Composing.loop n state).oldEdits = [] ∧ (Composing.loop n state).newEdits = [] := by
  induction n generalizing state with
  | zero => exact ⟨h, length_eq_zero_iff.mp (by unfold Composing.loop; omega),
      length_eq_zero_iff.mp (by unfold Composing.loop; omega)⟩
  | succ n ih =>
    exact ih h.step (by rw [length_step]; omega)

end Composing

/-- The composed patch cuts both texts at its edits. -/
theorem composed_compose {p q : Patch} {old between new : List α} (hp : Maps 0 0 p old between)
    (hq : Maps 0 0 q between new) : Composed (p.compose q) old new := by
  have hinit : Composing.Invariant old new ⟨p, q, [], 0, 0⟩ :=
    ⟨[], old, [], new, between, 0, rfl, rfl, rfl, rfl, ⟨rfl, List.Pairwise.nil, nofun⟩, hp, hq⟩
  obtain ⟨hinv, hold, hnew⟩ := hinit.loop (le_refl _)
  obtain ⟨oldDone, oldRest, newDone, newRest, between', j, rfl, rfl, hi, hk, hc, hp', hq'⟩ := hinv
  rw [hold] at hp'
  rw [hnew] at hq'
  obtain rfl : oldRest = between' := hp'
  obtain rfl : oldRest = newRest := hq'
  exact hc.append _

/-! ## Patches between texts -/

section Transforms

variable {p q patch : Patch} {old between new : List α} {i j m n : Nat}

/-- The positions are inside the texts. -/
theorem Gaps.le (h : Gaps m n i j patch) (hord : ∀ edit ∈ patch, edit.old.start ≤ edit.old.stop ∧
    edit.new.start ≤ edit.new.stop) : i ≤ m ∧ j ≤ n := by
  induction patch generalizing i j with
  | nil => exact ⟨h.1, h.2.1⟩
  | cons edit edits ih =>
    obtain ⟨h1, h2, -, hrest⟩ := h
    obtain ⟨h3, h4⟩ := hord edit (by simp)
    obtain ⟨h5, h6⟩ := ih hrest fun e he => hord e (by simp [he])
    omega

/-- A patch whose replacements give the new text cuts both texts at its edits. -/
theorem maps_of_replaceFrom (front : List α) (hgaps : Gaps (i + old.length) n i j patch)
    (hord : ∀ edit ∈ patch, edit.old.start ≤ edit.old.stop ∧ edit.new.start ≤ edit.new.stop)
    (hfro : front.length = j) (hlen : n = j + new.length) (hnew : replaceFrom (front ++ new) i patch old = new) :
    Maps i j patch old new := by
  induction patch generalizing i j old new front with
  | nil => exact hnew
  | cons edit edits ih =>
    obtain ⟨h1, h2, h3, hrest⟩ := hgaps
    obtain ⟨h4, h5⟩ := hord edit (by simp)
    have hord' := fun e (he : e ∈ edits) => hord e (by simp [he])
    obtain ⟨h6, h7⟩ := hrest.le hord'
    unfold replaceFrom at hnew
    have hcut : ((old.drop (edit.old.start - i)).take edit.oldLen).length = edit.oldLen := by
      rw [length_take, length_drop]; unfold Edit.oldLen; omega
    have hgap : (old.take (edit.old.start - i)).length = edit.old.start - i := by
      rw [length_take]; omega
    have hput : (((front ++ new).drop edit.new.start).take edit.newLen).length = edit.newLen := by
      rw [length_take, length_drop, length_append]; unfold Edit.newLen; omega
    have hdrop : (old.drop (edit.old.stop - i)).length = old.length - (edit.old.stop - i) := length_drop
    have hold : old = old.take (edit.old.start - i) ++ (old.drop (edit.old.start - i)).take edit.oldLen ++
        old.drop (edit.old.stop - i) := by
      have hsum : edit.old.stop - i = edit.old.start - i + edit.oldLen := by unfold Edit.oldLen; omega
      rw [hsum, ← drop_drop, append_assoc, take_append_drop, take_append_drop]
    generalize hgap' : old.take (edit.old.start - i) = gap at *
    generalize hput' : ((front ++ new).drop edit.new.start).take edit.newLen = put at *
    generalize hrest' : replaceFrom (front ++ new) edit.old.stop edits (old.drop (edit.old.stop - i)) = new' at *
    unfold Edit.oldLen at hcut
    unfold Edit.newLen at hput
    have hnewl : new.length = gap.length + put.length + new'.length := by
      rw [← hnew, length_append, length_append]
    refine ⟨gap, _, put, _, new', hold, hnew.symm, by omega, ?_, by omega, by omega, ?_⟩
    · unfold Edit.oldLen
      omega
    · refine ih (front ++ gap ++ put) ?_ hord' ?_ ?_ ?_
      · rw [show edit.old.stop + (old.drop (edit.old.stop - i)).length = i + old.length by omega]
        exact hrest
      · rw [length_append, length_append]; omega
      · omega
      · rw [append_assoc, append_assoc, ← append_assoc gap, hnew]
        exact hrest'

theorem Transforms.maps (h : Transforms patch old new) : Maps 0 0 patch old new := by
  refine maps_of_replaceFrom [] ?_ h.wellFormed.ordered rfl (Nat.zero_add _).symm h.replaces
  rw [Nat.zero_add]
  exact h.wellFormed.gaps

/-- Cutting both texts at the edits gives the new text by its replacements. -/
theorem Maps.replaceFrom_eq (h : Maps i j patch old new) (front : List α) (hfro : front.length = j) :
    Gaps (i + old.length) (j + new.length) i j patch ∧
      (∀ edit ∈ patch, edit.old.start ≤ edit.old.stop ∧ edit.new.start ≤ edit.new.stop) ∧
      replaceFrom (front ++ new) i patch old = new := by
  induction patch generalizing i j old new front with
  | nil =>
    obtain rfl : old = new := h
    exact ⟨⟨Nat.le_add_right _ _, Nat.le_add_right _ _, by omega⟩, nofun, rfl⟩
  | cons edit edits ih =>
    obtain ⟨gap, cut, put, old', new', rfl, rfl, h1, h2, h3, h4, hrest⟩ := h
    obtain ⟨hgaps, hord, hrep⟩ := ih hrest (front ++ gap ++ put) (by simp; omega)
    refine ⟨⟨by omega, by omega, by omega, ?_⟩, ?_, ?_⟩
    · simp only [length_append]
      rw [show i + (gap.length + cut.length + old'.length) = edit.old.stop + old'.length by omega,
        show j + (gap.length + put.length + new'.length) = edit.new.stop + new'.length by omega]
      exact hgaps
    · intro e he
      rcases mem_cons.mp he with rfl | he
      · omega
      · exact hord e he
    · unfold replaceFrom
      have hgap : edit.old.start - i = gap.length := by omega
      have hcut : edit.old.stop - i = (gap ++ cut).length := by rw [length_append]; omega
      have hst : edit.new.start = (front ++ gap).length := by rw [length_append]; omega
      have hlen : edit.newLen = put.length := by unfold Edit.newLen; omega
      rw [hcut, drop_left, hgap, append_assoc gap, take_left, hst, hlen]
      rw [show front ++ (gap ++ put ++ new') = (front ++ gap) ++ (put ++ new') by simp, drop_left, take_left,
        show front ++ gap ++ (put ++ new') = front ++ gap ++ put ++ new' by simp, hrep]

theorem Composed.transforms (h : Composed patch old new) : Transforms patch old new := by
  obtain ⟨hgaps, hord, hrep⟩ := h.maps.replaceFrom_eq [] rfl
  rw [Nat.zero_add, Nat.zero_add] at hgaps
  exact ⟨⟨hord, h.apart, hgaps⟩, hrep⟩

end Transforms

/-! ## Where the text goes -/

section OldToNew

variable {patch : Patch} {old new : List α} {i j x : Nat}

theorem Maps.le_start (h : Maps i j patch old new) : ∀ edit ∈ patch, i ≤ edit.old.start := by
  induction patch generalizing i j old new with
  | nil => nofun
  | cons edit edits ih =>
    obtain ⟨gap, cut, -, old', new', -, -, h1, h2, -, -, hrest⟩ := h
    intro e he
    rcases mem_cons.mp he with rfl | he
    · omega
    · have := ih hrest e he
      omega

/-- `oldToNew` between two positions. -/
def oldToNewFrom (i j : Nat) (self : Patch) (old : Nat) : Nat :=
  match (self.filter fun edit => edit.old.start ≤ old).getLast? with
  | some edit => if old ≥ edit.old.stop then edit.new.stop + (old - edit.old.stop) else edit.new.start
  | none => j + (old - i)

theorem oldToNew_eq (self : Patch) (old : Nat) : self.oldToNew old = oldToNewFrom 0 0 self old := by
  unfold oldToNew oldToNewFrom
  split
  · rfl
  · omega

/-- What is not in an old range is in the new text, at its offset there. -/
theorem Maps.getElem?_oldToNewFrom (h : Maps i j patch old new) (hi : i ≤ x) (hx : x < i + old.length)
    (hout : ∀ edit ∈ patch, ¬(edit.old.start ≤ x ∧ x < edit.old.stop)) :
    j ≤ oldToNewFrom i j patch x ∧ new[oldToNewFrom i j patch x - j]? = old[x - i]? := by
  induction patch generalizing i j old new with
  | nil =>
    obtain rfl : old = new := h
    unfold oldToNewFrom
    simp
  | cons edit edits ih =>
    obtain ⟨gap, cut, put, old', new', rfl, rfl, h1, h2, h3, h4, hrest⟩ := h
    simp only [length_append] at hx
    rcases Nat.lt_or_ge x _ with hlt | hge
    · -- before the first edit
      have hnone : (edit :: edits).filter (fun edit => edit.old.start ≤ x) = [] := by
        rw [filter_eq_nil_iff]
        intro e he
        rcases mem_cons.mp he with rfl | he
        · simpa using hlt
        · have := hrest.le_start e he
          simp only [decide_eq_true_eq]
          omega
      unfold oldToNewFrom
      rw [hnone]
      simp only [getLast?_nil]
      refine ⟨by omega, ?_⟩
      rw [append_assoc, append_assoc, List.getElem?_append_left (by omega), List.getElem?_append_left (by omega)]
      congr 1
      omega
    · have hstop : edit.old.stop ≤ x := by
        have := hout edit (by simp)
        omega
      obtain ⟨hle, heq⟩ := ih hrest hstop (by omega) fun e he => hout e (by simp [he])
      have hsame : oldToNewFrom i j (edit :: edits) x = oldToNewFrom edit.old.stop edit.new.stop edits x := by
        unfold oldToNewFrom
        rw [filter_cons_of_pos (by simpa using hge)]
        cases hf : (edits.filter _) with
        | nil => simp [hstop]
        | cons e es =>
          obtain ⟨last, hlast⟩ := Option.isSome_iff_exists.mp (getLast?_isSome.mpr (cons_ne_nil e es))
          rw [getLast?_cons_cons, hlast]
      refine ⟨by omega, ?_⟩
      rw [List.getElem?_append_right (by simp only [length_append]; omega),
        List.getElem?_append_right (by simp only [length_append]; omega)]
      simp only [length_append]
      rw [show x - i - (gap.length + cut.length) = x - edit.old.stop by omega, ← heq]
      congr 1
      omega

theorem Transforms.getElem?_oldToNew (h : Transforms patch old new) (hx : x < old.length)
    (hout : ∀ edit ∈ patch, ¬(edit.old.start ≤ x ∧ x < edit.old.stop)) : new[patch.oldToNew x]? = old[x]? := by
  rw [oldToNew_eq]
  exact (h.maps.getElem?_oldToNewFrom (Nat.zero_le x) (by omega) hout).2

end OldToNew

/-! ## Composition -/

/-- Patches one after the other, from a text to another one. -/
inductive Published : List α → List Patch → List α → Prop where
  | nil (text : List α) : Published text [] text
  | cons {old between new : List α} {patch : Patch} {patches : List Patch} (first : Transforms patch old between)
      (rest : Published between patches new) : Published old (patch :: patches) new

theorem Published.foldl_compose {old between new : List α} {patch : Patch} {patches : List Patch}
    (h : Published between patches new) (hpat : Transforms patch old between) :
    Transforms (patches.foldl compose patch) old new := by
  induction h generalizing patch with
  | nil text => exact hpat
  | cons first rest ih => exact ih (composed_compose hpat.maps first.maps).transforms

theorem transforms_nil (text : List α) : Transforms [] text text where
  wellFormed := ⟨nofun, List.Pairwise.nil, Nat.zero_le _, Nat.zero_le _, rfl⟩
  replaces := rfl

/-- Composition is application one after the other: the composed patch is well formed and gives the last text from the first
one, what it does not replace is unchanged and at the shifted place, and so it is for the patches that a subscription
composes onto the empty one. -/
theorem compose_transforms {p q : Patch} {old between new : List α} (hp : Transforms p old between)
    (hq : Transforms q between new) :
    Transforms (p.compose q) old new ∧
      (∀ x < old.length, (∀ edit ∈ p.compose q, ¬(edit.old.start ≤ x ∧ x < edit.old.stop)) →
        new[(p.compose q).oldToNew x]? = old[x]?) ∧
      (∀ edit ∈ p.compose q, edit.isEmpty = false) ∧
      ∀ (patches : List Patch) (text : List α), Published old patches text →
        Transforms (patches.foldl compose []) old text := by
  have hcomposed := composed_compose hp.maps hq.maps
  exact ⟨hcomposed.transforms, fun x hx hout => hcomposed.transforms.getElem?_oldToNew hx hout, hcomposed.nonempty,
    fun patches text hpublished => hpublished.foldl_compose (transforms_nil old)⟩

/-- "abc" loses its "b", and then "ac" gets an "x" between. -/
theorem compose_transforms_replace :
    Transforms (compose [⟨⟨1, 2⟩, ⟨1, 1⟩⟩] [⟨⟨1, 1⟩, ⟨1, 2⟩⟩]) "abc".toList "axc".toList := by
  have hp : Transforms [⟨⟨1, 2⟩, ⟨1, 1⟩⟩] "abc".toList "ac".toList :=
    ⟨⟨by decide, pairwise_singleton _ _, by simp [Gaps]⟩, by decide⟩
  have hq : Transforms [⟨⟨1, 1⟩, ⟨1, 2⟩⟩] "ac".toList "axc".toList :=
    ⟨⟨by decide, pairwise_singleton _ _, by simp [Gaps]⟩, by decide⟩
  exact (compose_transforms hp hq).1

end Wu.Patch
