import Wu.Text.Snapshot

/-!
# The offsets of an insertion

The fragments of the snapshot have their offsets as numbers; the source has them as `u32`, in one counter for all the text that
an operation inserts. Long texts are split, so that no fragment is longer than a `u32` can say, but the counter goes on from
fragment to fragment: it is exact as long as the whole operation inserts no more than `u32::MAX` bytes.
-/

namespace Wu

open List

/-- `u32::MAX`. -/
def u32Max : Nat := UInt32.size - 1

/-- What a fragment of an insertion says of its text. -/
structure InsertionRange where
  timestamp : Lamport
  insertionOffset : UInt32
  len : UInt32
  deriving DecidableEq, Repr

namespace InsertionRange

/-- What two fragments of an insertion must not have in common. -/
def key (range : InsertionRange) : Lamport × UInt32 := (range.timestamp, range.insertionOffset)

end InsertionRange

/-! ## The parts of an insertion -/

theorem chunkEnd_bounds {text : Text} (h : Text.Valid text) {textOffset : Nat} (hlt : textOffset < text.length) :
    textOffset < chunkEnd text textOffset ∧ chunkEnd text textOffset ≤ text.length := by
  unfold chunkEnd
  dsimp only
  split
  · rename_i hend
    rw [hend]
    exact ⟨hlt, le_rfl⟩
  · have hmin : min text.length (textOffset + maxInsertionLen) = textOffset + maxInsertionLen := by omega
    have hsho : textOffset + maxInsertionLen < text.length := by omega
    rw [hmin]
    have hflo := h.lt_floorCharBoundary hsho (by unfold maxInsertionLen; omega)
    refine ⟨?_, Text.floorCharBoundary_le_length _ _⟩
    unfold maxInsertionLen at hflo ⊢
    omega

/-- The parts of an insertion are not empty, and are all of it. -/
theorem chunkLens_spec {text : Text} (h : Text.Valid text) : ∀ (n textOffset : Nat), text.length - textOffset ≤ n →
      (∀ len ∈ chunkLens text n textOffset, 0 < len) ∧ (chunkLens text n textOffset).sum = text.length - textOffset := by
  intro n
  induction n with
  | zero =>
    intro textOffset hn
    refine ⟨nofun, ?_⟩
    rw [chunkLens, List.sum_nil]
    omega
  | succ n ih =>
    intro textOffset hn
    rw [chunkLens]
    split
    · rename_i hlt
      obtain ⟨hst, hend⟩ := chunkEnd_bounds h hlt
      rw [if_neg (Nat.ne_of_gt hst)]
      obtain ⟨hpos, hsum⟩ := ih (chunkEnd text textOffset) (by omega)
      refine ⟨forall_mem_cons.mpr ⟨by omega, hpos⟩, ?_⟩
      rw [sum_cons, hsum]
      omega
    · refine ⟨nofun, ?_⟩
      rw [List.sum_nil]
      omega

/-- The loop over the parts of a text: their ranges, and the counter after them. -/
def pushRanges (timestamp : Lamport) : List Nat → UInt32 → List InsertionRange × UInt32
  | [], insertionOffset => ([], insertionOffset)
  | chunkLen :: chunks, insertionOffset =>
    let (ranges, next) := pushRanges timestamp chunks (insertionOffset + .ofNat chunkLen)
    (⟨timestamp, insertionOffset, .ofNat chunkLen⟩ :: ranges, next)

/-- The ranges of the fragments that `push_fragments_for_insertion` makes, and the counter after them. -/
def insertionRanges (newText : Text) (timestamp : Lamport) (insertionOffset : UInt32) : List InsertionRange × UInt32 :=
  pushRanges timestamp (chunkLens newText newText.length 0) insertionOffset

/-- The fragments that an operation makes for its texts, one after the other. -/
def operationRanges (timestamp : Lamport) : List Text → UInt32 → List InsertionRange
  | [], _ => []
  | newText :: newTexts, insertionOffset =>
    let (ranges, insertionOffset) := insertionRanges newText timestamp insertionOffset
    ranges ++ operationRanges timestamp newTexts insertionOffset

/-- The fragments that `Buffer::new_normalized` makes for the base text. -/
def newNormalizedRanges (normalized : Text) : List InsertionRange :=
  (pushRanges (Lamport.new .localReplica) (chunkLens normalized normalized.length 0) 0).1

/-- The offsets of the fragments count the bytes before them, the ends of their ranges fit, and no two have one key. -/
structure OffsetsExact (ranges : List InsertionRange) : Prop where
  counted : ∀ front range back, ranges = front ++ range :: back →
    range.insertionOffset.toNat = (front.map fun range => range.len.toNat).sum
  fits : ∀ range ∈ ranges, range.insertionOffset.toNat + range.len.toNat ≤ u32Max
  keys : (ranges.map InsertionRange.key).Nodup

section Ranges

variable {timestamp : Lamport} {chunks : List Nat} {insertionOffset : UInt32}

theorem pushRanges_append (more : List Nat) : (pushRanges timestamp (chunks ++ more) insertionOffset).1 =
      (pushRanges timestamp chunks insertionOffset).1 ++
        (pushRanges timestamp more (pushRanges timestamp chunks insertionOffset).2).1 := by
  induction chunks generalizing insertionOffset with
  | nil => rfl
  | cons chunkLen chunks ih => simp [pushRanges, ih]

/-- One counter runs through the texts of an operation. -/
theorem operationRanges_eq (newTexts : List Text) : operationRanges timestamp newTexts insertionOffset =
      (pushRanges timestamp (newTexts.flatMap fun newText => chunkLens newText newText.length 0) insertionOffset).1 := by
  induction newTexts generalizing insertionOffset with
  | nil => rfl
  | cons newText newTexts ih =>
    rw [flatMap_cons, pushRanges_append, ← ih]
    rfl

/-- No part of a text is longer than a fragment can be. -/
theorem chunkLens_le (newText : Text) (n textOffset : Nat) : ∀ len ∈ chunkLens newText n textOffset, len ≤ u32Max := by
  induction n generalizing textOffset with
  | zero => exact forall_mem_nil _
  | succ n ih =>
    have hend : chunkEnd newText textOffset ≤ textOffset + maxInsertionLen := by
      unfold chunkEnd
      dsimp only
      split
      · exact Nat.min_le_right _ _
      · unfold Text.floorCharBoundary
        rw [if_neg (by omega)]
        exact (Text.floorBoundary_le _ _).trans (Nat.min_le_right _ _)
    rw [chunkLens]
    split
    · dsimp only
      split
      · exact forall_mem_nil _
      · refine forall_mem_cons.mpr ⟨?_, ih _⟩
        unfold maxInsertionLen at hend
        unfold u32Max UInt32.size
        omega
    · exact forall_mem_nil _

theorem toNat_add_ofNat {insertionOffset : UInt32} {chunkLen : Nat} (h : insertionOffset.toNat + chunkLen ≤ u32Max) :
    (insertionOffset + .ofNat chunkLen).toNat = insertionOffset.toNat + chunkLen := by
  unfold u32Max UInt32.size at h
  rw [UInt32.toNat_add, UInt32.toNat_ofNat']
  omega

theorem toNat_ofNat_of_le {n : Nat} (h : n ≤ u32Max) : (UInt32.ofNat n).toNat = n := by
  unfold u32Max UInt32.size at h
  rw [UInt32.toNat_ofNat']
  omega

/-- The counter is exact up to the first fragment whose end does not fit. -/
theorem sum_le_of_fits (hchu : ∀ len ∈ chunks, len ≤ u32Max) (hfits : ∀ range ∈ (pushRanges timestamp chunks insertionOffset).1,
      range.insertionOffset.toNat + range.len.toNat ≤ u32Max) :
    insertionOffset.toNat + chunks.sum ≤ u32Max := by
  induction chunks generalizing insertionOffset with
  | nil =>
    have := insertionOffset.toNat_lt
    unfold u32Max UInt32.size
    simp
    omega
  | cons chunkLen chunks ih =>
    obtain ⟨hchuL, hchu⟩ := forall_mem_cons.mp hchu
    obtain ⟨hfst, hfits⟩ := forall_mem_cons.mp hfits
    dsimp only at hfst
    rw [toNat_ofNat_of_le hchuL] at hfst
    have hrest := ih hchu hfits
    rw [toNat_add_ofNat hfst] at hrest
    rw [sum_cons]
    omega

/-- Where all the text fits, the offset of a fragment counts the text before it. -/
theorem counted_of_sum_le (hsum : insertionOffset.toNat + chunks.sum ≤ u32Max) {front back : List InsertionRange}
    {range : InsertionRange} (h : (pushRanges timestamp chunks insertionOffset).1 = front ++ range :: back) :
    range.insertionOffset.toNat = insertionOffset.toNat + (front.map fun range => range.len.toNat).sum ∧
      range.insertionOffset.toNat + range.len.toNat ≤ u32Max := by
  induction chunks generalizing insertionOffset front with
  | nil =>
    rw [pushRanges] at h
    exact absurd h.symm (by simp)
  | cons chunkLen chunks ih =>
    rw [sum_cons] at hsum
    have hlen : (UInt32.ofNat chunkLen).toNat = chunkLen := toNat_ofNat_of_le (by omega)
    cases front with
    | nil =>
      obtain ⟨rfl, -⟩ := List.cons.inj h
      dsimp only
      exact ⟨rfl, by omega⟩
    | cons first front =>
      obtain ⟨rfl, hrest⟩ := List.cons.inj h
      have hnext := @toNat_add_ofNat insertionOffset chunkLen (by omega)
      obtain ⟨hcou, hfits⟩ := ih (by omega) hrest
      rw [map_cons, sum_cons, hlen]
      omega

theorem keys_of_sum_le (hpos : ∀ len ∈ chunks, 0 < len) (hsum : insertionOffset.toNat + chunks.sum ≤ u32Max) :
    ((pushRanges timestamp chunks insertionOffset).1.map InsertionRange.key).Nodup := by
  induction chunks generalizing insertionOffset with
  | nil => exact nodup_nil
  | cons chunkLen chunks ih =>
    obtain ⟨hchuL, hpos⟩ := forall_mem_cons.mp hpos
    rw [sum_cons] at hsum
    have hnext := @toNat_add_ofNat insertionOffset chunkLen (by omega)
    have hrest : (insertionOffset + .ofNat chunkLen).toNat + chunks.sum ≤ u32Max := by omega
    refine nodup_cons.mpr ⟨fun hmem => ?_, ih hpos hrest⟩
    obtain ⟨range, hran, hkey⟩ := mem_map.mp hmem
    obtain ⟨front, back, heq⟩ := append_of_mem hran
    obtain ⟨hcou, -⟩ := counted_of_sum_le hrest heq
    have hoff : range.insertionOffset = insertionOffset := congrArg Prod.snd hkey
    rw [hoff] at hcou
    omega

/-- The offsets are exact exactly when all the text fits. -/
theorem offsetsExact_iff (hpos : ∀ len ∈ chunks, 0 < len) (hchu : ∀ len ∈ chunks, len ≤ u32Max) :
    OffsetsExact (pushRanges timestamp chunks 0).1 ↔ chunks.sum ≤ u32Max := by
  have hzero : (0 : UInt32).toNat + chunks.sum = chunks.sum := Nat.zero_add _
  constructor
  · intro h
    exact hzero ▸ sum_le_of_fits hchu h.fits
  · intro h
    have hsum : (0 : UInt32).toNat + chunks.sum ≤ u32Max := hzero.symm ▸ h
    refine ⟨fun front range back heq => ?_, fun range hran => ?_, keys_of_sum_le hpos hsum⟩
    · exact (counted_of_sum_le hsum heq).1.trans (Nat.zero_add _)
    · obtain ⟨front, back, heq⟩ := append_of_mem hran
      exact (counted_of_sum_le hsum heq).2

/-- What the parts of texts come to. -/
theorem sum_chunkLens {newTexts : List Text} (hval : ∀ newText ∈ newTexts, Text.Valid newText) :
    (∀ len ∈ newTexts.flatMap fun newText => chunkLens newText newText.length 0, 0 < len ∧ len ≤ u32Max) ∧
      (newTexts.flatMap fun newText => chunkLens newText newText.length 0).sum = (newTexts.map List.length).sum := by
  induction newTexts with
  | nil => exact ⟨forall_mem_nil _, rfl⟩
  | cons newText newTexts ih =>
    obtain ⟨hnewT, hval⟩ := forall_mem_cons.mp hval
    obtain ⟨hbds, hsum⟩ := ih hval
    obtain ⟨hpos, hlen⟩ := chunkLens_spec hnewT newText.length 0 le_rfl
    rw [flatMap_cons]
    refine ⟨fun len hmem => ?_, ?_⟩
    · rcases mem_append.mp hmem with hmem | hmem
      · exact ⟨hpos len hmem, chunkLens_le _ _ _ len hmem⟩
      · exact hbds len hmem
    · rw [List.sum_append, hlen, hsum, map_cons, sum_cons, Nat.sub_zero]

end Ranges

theorem offsetsExact_operation (timestamp : Lamport) {newTexts : List Text} (hval : ∀ newText ∈ newTexts, Text.Valid newText) :
    OffsetsExact (operationRanges timestamp newTexts 0) ↔ (newTexts.map List.length).sum ≤ u32Max := by
  obtain ⟨hbds, hsum⟩ := sum_chunkLens hval
  rw [operationRanges_eq, ← hsum]
  exact offsetsExact_iff (fun len hlen => (hbds len hlen).1) fun len hlen => (hbds len hlen).2

/-- The offsets of an operation, and of the base text, are exact exactly when what is inserted is no longer than a `u32` can
say. -/
theorem offsets_exact_iff (timestamp : Lamport) (newTexts : List Text) (hnewTexts : ∀ newText ∈ newTexts, Text.Valid newText)
    (normalized : Text) (hnormalized : Text.Valid normalized) :
    (OffsetsExact (operationRanges timestamp newTexts 0) ↔ (newTexts.map List.length).sum ≤ u32Max) ∧
      (OffsetsExact (newNormalizedRanges normalized) ↔ normalized.length ≤ u32Max) := by
  have hbase := offsetsExact_operation (Lamport.new .localReplica) (forall_mem_singleton.mpr hnormalized)
  exact ⟨offsetsExact_operation timestamp hnewTexts,
    by simpa [operationRanges, insertionRanges, newNormalizedRanges] using hbase⟩

/-- An operation that inserts two texts, and a base text. -/
theorem offsets_exact_iff_short :
    (OffsetsExact (operationRanges ⟨1, .localReplica⟩ [[97], [98, 99]] 0) ↔ ([[97], [98, 99]].map List.length).sum ≤ u32Max) ∧
      (OffsetsExact (newNormalizedRanges [97, 10]) ↔ [97, 10].length ≤ u32Max) :=
  offsets_exact_iff ⟨1, .localReplica⟩ [[97], [98, 99]] (by decide) [97, 10] (by decide)

/-- A text of one byte over and over. -/
theorem valid_replicate (n : Nat) : Text.Valid (replicate n 97) := by
  unfold Text.Valid
  induction n with
  | zero => rfl
  | succ n ih => rwa [replicate_succ]

theorem not_exact_of_long {n : Nat} (h : u32Max < n) : ¬ OffsetsExact (newNormalizedRanges (replicate n 97)) := by
  intro hexa
  obtain ⟨hbds, hsum⟩ := sum_chunkLens (forall_mem_singleton.mpr (valid_replicate n))
  rw [flatMap_singleton] at hbds hsum
  have hle := sum_le_of_fits (fun len hlen => (hbds len hlen).2) hexa.fits
  rw [hsum, map_singleton, length_replicate, List.sum_singleton] at hle
  omega

/-- The second fragment of a base text of 2³² bytes ends where no `u32` can say. -/
theorem long_base_text_overflows : ¬ OffsetsExact (newNormalizedRanges (replicate (2 ^ 32) 97)) :=
  not_exact_of_long (by decide)

end Wu
