import Mathlib.Data.List.Induction
import Wu.Text.Delivery
import Wu.Text.InsertionOffsets
import Wu.Text.LocatorRuns

/-!
# Loops over fragments

The loops over the fragments take what is left of the old fragments piece by piece, and put the pieces and new fragments into
the new list. So no byte of an insertion is lost, doubled or moved, the ids stay in order, and the texts are those of the
fragments.
-/

namespace Wu

open List

namespace Fragment

/-- The bytes of insertions that a fragment has. -/
def bytes (self : Fragment) : List (Lamport × Nat) :=
  (range' self.insertionOffset self.len).map fun offset => (self.timestamp, offset)

@[simp] theorem length_bytes (self : Fragment) : self.bytes.length = self.len := by simp [bytes]

theorem bytes_part_append (self : Fragment) {n : Nat} (h : n ≤ self.len) :
    (self.part 0 n).bytes ++ (self.part n (self.len - n)).bytes = self.bytes := by
  have happ := @range'_append_1 self.insertionOffset n (self.len - n)
  rw [Nat.add_sub_cancel' h] at happ
  simp [bytes, part, ← map_append, happ]

theorem part_part (self : Fragment) (a b c d : Nat) : (self.part a b).part c d = self.part (a + c) d := by
  simp [part, Nat.add_assoc]

end Fragment

/-- The text of each insertion. -/
abbrev InsertionTexts := Lamport → Text

/-- The byte of an insertion. -/
def InsertionTexts.byte (texts : InsertionTexts) (place : Lamport × Nat) : UInt8 := (texts place.1).getD place.2 0

/-- The text of the fragments that are visible, or of those that are not. -/
def textOf (texts : InsertionTexts) (visible : Bool) (fragments : List Fragment) : Text :=
  (fragments.filter fun fragment => fragment.visible == visible).flatMap fun fragment => fragment.bytes.map texts.byte

section Texts

variable {texts : InsertionTexts} {visible : Bool} {fragment piece : Fragment} {a b built left : List Fragment}

@[simp] theorem textOf_nil : textOf texts visible [] = [] := rfl

theorem textOf_append : textOf texts visible (a ++ b) = textOf texts visible a ++ textOf texts visible b := by simp [textOf]

theorem textOf_congr {texts' : InsertionTexts} (h : ∀ fragment ∈ a, texts fragment.timestamp = texts' fragment.timestamp) :
    textOf texts visible a = textOf texts' visible a := by
  refine flatMap_congr fun fragment hmem => map_congr_left fun place hplace => ?_
  obtain ⟨-, -, rfl⟩ := mem_map.mp hplace
  rw [InsertionTexts.byte, h _ (mem_filter.mp hmem).1]
  rfl

theorem textOf_of_visible (h : ∀ fragment ∈ a, fragment.visible = true) :
    textOf texts true a = (a.flatMap Fragment.bytes).map texts.byte ∧ textOf texts false a = [] := by
  constructor
  · rw [textOf, filter_eq_self.mpr (by simpa using h), map_flatMap]
  · rw [textOf, filter_eq_nil_iff.mpr (by simpa using h)]
    rfl

theorem textOf_cons : textOf texts visible (fragment :: a) =
    (if fragment.visible = visible then fragment.bytes.map texts.byte else []) ++ textOf texts visible a := by
  by_cases h : fragment.visible = visible <;> simp [textOf, h]

theorem length_textOf (fragments : List Fragment) : FragmentTextSummary.ofFragments fragments =
    ⟨(textOf texts true fragments).length, (textOf texts false fragments).length⟩ := by
  induction fragments using List.reverseRecOn with
  | nil => rfl
  | append_singleton fragments fragment ih =>
    unfold FragmentTextSummary.ofFragments at ih ⊢
    rw [foldl_append, ih]
    cases h : fragment.visible <;> simp [FragmentTextSummary.add, FragmentTextSummary.ofFragment, h, textOf]

/-- The new texts are those of what has been built, the old ones those of what is left. -/
def ropesOf (texts : InsertionTexts) (built left : List Fragment) : RopeBuilder :=
  ⟨textOf texts true left, textOf texts false left, textOf texts true built, textOf texts false built⟩

/-- A fragment is pushed, perhaps shown or hidden. -/
theorem pushFragment_ropesOf (hbyte : piece.bytes = fragment.bytes) :
    (ropesOf texts built (fragment :: left)).pushFragment piece fragment.visible = ropesOf texts (built ++ [piece]) left := by
  have hlen : piece.len = (fragment.bytes.map texts.byte).length := by rw [← hbyte]; simp
  unfold RopeBuilder.pushFragment RopeBuilder.push ropesOf
  rw [hlen]
  cases hv : fragment.visible <;> cases hp : piece.visible <;> simp [textOf_append, textOf_cons, hv, hp, hbyte]

/-- Fragments are kept as they are. -/
theorem append_ropesOf : (ropesOf texts built (a ++ left)).append (FragmentTextSummary.ofFragments a) =
    ropesOf texts (built ++ a) left := by
  unfold RopeBuilder.append RopeBuilder.push ropesOf
  rw [@length_textOf texts]
  simp [textOf_append]

end Texts

/-! ## Ids -/

/-- The id of the last fragment. -/
def lastId (fragments : List Fragment) : Locator :=
  match fragments.getLast? with
  | some fragment => fragment.id
  | none => Locator.min

/-- The id that new text goes before. -/
def nextId (fragments : List Fragment) : Locator :=
  match fragments.head? with
  | some fragment => fragment.id
  | none => Locator.max

/-- The ids go up, between the smallest and the largest locator; no fragment is empty. -/
structure InOrder (fragments : List Fragment) : Prop where
  ids : Locator.Ordered (Locator.min :: fragments.map Fragment.id ++ [Locator.max])
  pos : ∀ fragment ∈ fragments, 0 < fragment.len

section Ids

variable {a b : List Fragment} {fragment piece : Fragment}

theorem InOrder.of_sublist (h : InOrder a) (hsub : b.Sublist a) : InOrder b := by
  have hids := (hsub.map Fragment.id).append_right [Locator.max]
  exact ⟨⟨⟨_, rfl⟩, h.ids.sorted.sublist (hids.cons_cons _), fun x hx => h.ids.ends x (hids.subset hx),
    fun x hx => h.ids.fits x ((hids.cons_cons _).subset hx)⟩, fun x hx => h.pos x (hsub.subset hx)⟩

/-- A fragment between what is before it and what comes after it. -/
theorem InOrder.insert (h : InOrder (a ++ b)) (hid : piece.id = Locator.between (lastId a) (nextId b)) (hlen : 0 < piece.len) :
    InOrder (a ++ [piece] ++ b) := by
  obtain ⟨front, hfro⟩ : ∃ front, Locator.min :: a.map Fragment.id = front ++ [lastId a] := by
    rcases eq_nil_or_concat a with rfl | ⟨init, -, rfl⟩
    · exact ⟨[], rfl⟩
    · exact ⟨Locator.min :: init.map Fragment.id, by simp [lastId]⟩
  obtain ⟨rest, hrest⟩ : ∃ rest, b.map Fragment.id ++ [Locator.max] = nextId b :: rest := by
    cases b with
    | nil => exact ⟨[], rfl⟩
    | cons first b => exact ⟨_, rfl⟩
  have hids : ∀ between, Locator.min :: (a.map Fragment.id ++ between ++ b.map Fragment.id) ++ [Locator.max] =
      front ++ lastId a :: (between ++ nextId b :: rest) := by
    intro between
    rw [append_assoc, ← cons_append, hfro, append_assoc, append_assoc, append_assoc, hrest]
    rfl
  have hold := h.ids
  rw [map_append, ← append_nil (map _ a), hids] at hold
  have hlt : lastId a < nextId b := (pairwise_cons.mp (pairwise_append.mp hold.sorted).2.1).1 _ mem_cons_self
  refine ⟨?_, by simpa [or_imp, forall_and, hlen] using h.pos⟩
  rw [map_append, map_append, hids, map_singleton, hid]
  exact hold.insert hlt

/-- A fragment in the place of another one. -/
theorem InOrder.replace (h : InOrder (a ++ fragment :: b)) (hid : piece.id = fragment.id) (hlen : 0 < piece.len) :
    InOrder (a ++ [piece] ++ b) := by
  refine ⟨?_, ?_⟩
  · simpa [hid] using h.ids
  · have hpos := h.pos
    simp only [append_assoc, singleton_append, mem_append, mem_cons] at hpos ⊢
    rintro x (hx | rfl | hx)
    · exact hpos x (.inl hx)
    · exact hlen
    · exact hpos x (.inr (.inr hx))

end Ids

/-! ## What the loops keep -/

/-- The fragments and the texts are what they were. -/
structure SameFragments (new new' : Rebuild) : Prop where
  fragments : new'.fragments = new.fragments
  ropes : new'.ropes = new.ropes
  insertionOffset : new'.insertionOffset = new.insertionOffset

/-- What is left when the first fragment has been used up to an offset. -/
def consume (used : Nat) : List Fragment → List Fragment
  | fragment :: rest => fragment.part used (fragment.len - used) :: rest
  | [] => []

theorem consume_zero (rest : List Fragment) : consume 0 rest = rest := by cases rest <;> rfl

/-- How many bytes of the fragments are counted. -/
def counted (counts : Fragment → Bool) (fragments : List Fragment) : Nat :=
  (fragments.map fun fragment => if counts fragment then fragment.len else 0).sum

/-- A loop over the fragments for an operation, with a position that counts the bytes of some of them. -/
structure FragmentLoop (D : Type) [FragmentDimension D] where
  texts : InsertionTexts
  timestamp : Lamport
  old : List Fragment
  offset : D → Nat
  counts : Fragment → Bool
  offset_add : ∀ start fragment, offset (FragmentDimension.add start fragment) =
    offset start + if counts fragment then fragment.len else 0

namespace FragmentLoop

variable {D : Type} [FragmentDimension D]

/-- What has been built and what is left have the old bytes in their order, and those that the operation has inserted so far;
`more` is what it still inserts. -/
structure Built (loop : FragmentLoop D) (more : Text) (left : List Fragment) (new : Rebuild) : Prop where
  kept : ((new.fragments ++ left).flatMap Fragment.bytes).filter (fun place => place.1 ≠ loop.timestamp) =
    loop.old.flatMap Fragment.bytes
  inserted : ((new.fragments ++ left).flatMap Fragment.bytes).filter (fun place => place.1 = loop.timestamp) =
    (range new.insertionOffset).map fun offset => (loop.timestamp, offset)
  pending : ∃ done, loop.texts loop.timestamp = done ++ more ∧ done.length = new.insertionOffset
  fresh : ∀ fragment ∈ left, fragment.timestamp ≠ loop.timestamp
  suffix : textOf loop.texts true left <:+ textOf loop.texts true loop.old
  ropes : new.ropes = ropesOf loop.texts new.fragments left

/-- The end of a fragment. -/
abbrev stop (loop : FragmentLoop D) (start : D) (fragment : Fragment) : Nat := loop.offset (FragmentDimension.add start fragment)

/-- What the loops keep. -/
structure Holds (loop : FragmentLoop D) (more : Text) (st : EditState D) : Prop where
  start_le : loop.offset st.oldFragments.start ≤ st.fragmentStart
  le_stop : st.oldFragments.rest ≠ [] → st.fragmentStart ≤ loop.offset st.oldFragments.stop
  order : InOrder (st.new.fragments ++ st.oldFragments.rest)
  built : loop.Built more (consume (st.fragmentStart - loop.offset st.oldFragments.start) st.oldFragments.rest) st.new
  position : loop.offset st.oldFragments.start + counted loop.counts st.oldFragments.rest = counted loop.counts loop.old

/-- What the loops keep between two fragments. -/
abbrev At (loop : FragmentLoop D) (more : Text) (cursor : FragmentsCursor D) (new : Rebuild) : Prop :=
  loop.Holds more ⟨cursor, loop.offset cursor.start, new⟩

section

variable {loop : FragmentLoop D} {more : Text} {left rest front : List Fragment} {fragment piece : Fragment} {new new' : Rebuild} {start : D}
  {fragmentStart : Nat} {cursor : FragmentsCursor D} {st : EditState D}

/-- What is left is cut, or nothing of it is. -/
theorem Built.congr (h : loop.Built more left new) {left' : List Fragment}
    (hbyte : left'.flatMap Fragment.bytes = left.flatMap Fragment.bytes)
    (htext : ∀ visible, textOf loop.texts visible left' = textOf loop.texts visible left)
    (hfresh : ∀ x ∈ left', ∃ y ∈ left, x.timestamp = y.timestamp) : loop.Built more left' new := by
  obtain ⟨hkept, hins, hpend, hleft, hsuffix, hrope⟩ := h
  rw [flatMap_append] at hkept hins
  refine ⟨?_, ?_, hpend, fun x hx => ?_, htext true ▸ hsuffix, hrope.trans (by simp [ropesOf, htext])⟩
  · rw [flatMap_append, hbyte, hkept]
  · rw [flatMap_append, hbyte, hins]
  · obtain ⟨y, hy, heq⟩ := hfresh x hx
    exact heq ▸ hleft y hy

theorem Built.push (h : loop.Built more (fragment :: left) new) (hbyte : piece.bytes = fragment.bytes) :
    loop.Built more left (new.pushFragment piece fragment.visible) := by
  have hall : (new.fragments ++ [piece] ++ left).flatMap Fragment.bytes = (new.fragments ++ fragment :: left).flatMap Fragment.bytes := by
    simp [hbyte]
  have hsuffix := h.suffix
  rw [textOf_cons] at hsuffix
  exact ⟨hall ▸ h.kept, hall ▸ h.inserted, h.pending, fun x hx => h.fresh x (.tail _ hx), (suffix_append _ _).trans hsuffix,
    (congrArg (·.pushFragment piece fragment.visible) h.ropes).trans (pushFragment_ropesOf hbyte)⟩

theorem Built.append (h : loop.Built more (front ++ left) new) : loop.Built more left (new.append front) := by
  have hsuffix := h.suffix
  rw [textOf_append] at hsuffix
  have hall : new.fragments ++ front ++ left = new.fragments ++ (front ++ left) := append_assoc _ _ _
  exact ⟨hall ▸ h.kept, hall ▸ h.inserted, h.pending, fun x hx => h.fresh x (mem_append_right _ hx), (suffix_append _ _).trans hsuffix,
    (congrArg (·.append (FragmentTextSummary.ofFragments front)) h.ropes).trans append_ropesOf⟩

theorem Built.split (h : loop.Built more (fragment :: left) new) {n : Nat} (hn : n ≤ fragment.len) :
    loop.Built more (fragment.part 0 n :: fragment.part n (fragment.len - n) :: left) new := by
  have hbyte := fragment.bytes_part_append hn
  refine h.congr ?_ (fun visible => ?_) fun x hx => ?_
  · rw [flatMap_cons, flatMap_cons, flatMap_cons, ← append_assoc, hbyte]
  · rw [textOf_cons, textOf_cons, textOf_cons, ← hbyte]
    by_cases hv : fragment.visible = visible <;> simp [Fragment.part, hv]
  · rcases mem_cons.mp hx with rfl | hx
    · exact ⟨fragment, mem_cons_self, rfl⟩
    · rcases mem_cons.mp hx with rfl | hx
      · exact ⟨fragment, mem_cons_self, rfl⟩
      · exact ⟨x, .tail _ hx, rfl⟩

theorem Built.skip (h : loop.Built more (fragment :: left) new) (hlen : fragment.len = 0) : loop.Built more left new := by
  have hbyte : fragment.bytes = [] := by simp [Fragment.bytes, hlen]
  refine h.congr ?_ (fun visible => ?_) fun x hx => ⟨x, .tail _ hx, rfl⟩
  · rw [flatMap_cons, hbyte, nil_append]
  · rw [textOf_cons, hbyte]
    simp

/-! ## Fragments that are taken -/

theorem Holds.same (h : loop.Holds more ⟨cursor, fragmentStart, new⟩) (hsame : SameFragments new new') :
    loop.Holds more ⟨cursor, fragmentStart, new'⟩ := by
  obtain ⟨hfrag, hrop, hoff⟩ := hsame
  obtain ⟨hst, hstop, hord, ⟨hkept, hins, hpend, hfresh, hsuffix, hrope⟩, hpos⟩ := h
  exact ⟨hst, hstop, hfrag ▸ hord, ⟨hfrag ▸ hkept, hfrag ▸ hoff ▸ hins, hoff ▸ hpend, hfresh, hsuffix, hfrag ▸ hrop ▸ hrope⟩, hpos⟩

theorem at_of (hord : InOrder (new.fragments ++ cursor.rest)) (hbuilt : loop.Built more cursor.rest new)
    (hpos : loop.offset cursor.start + counted loop.counts cursor.rest = counted loop.counts loop.old) :
    loop.At more cursor new := by
  refine ⟨le_rfl, fun _ => ?_, hord, ?_, hpos⟩
  · obtain ⟨-, _ | ⟨-, -⟩⟩ := cursor
    · exact le_rfl
    · exact (Nat.le_add_right _ _).trans_eq (loop.offset_add _ _).symm
  · rw [Nat.sub_self, consume_zero]
    exact hbuilt

theorem At.built (h : loop.At more cursor new) : loop.Built more cursor.rest new := by
  have hbuilt := Holds.built h
  rwa [Nat.sub_self, consume_zero] at hbuilt

section

variable (h : loop.Holds more ⟨⟨start, fragment :: rest⟩, fragmentStart, new⟩)
include h

/-- Before the end of a fragment, the fragment is counted. -/
theorem Holds.stop_eq (hlt : fragmentStart < loop.stop start fragment) :
    loop.stop start fragment = loop.offset start + fragment.len := by
  have hst : loop.offset start ≤ fragmentStart := h.start_le
  have hadd := loop.offset_add start fragment
  unfold stop at hlt ⊢
  split at hadd <;> omega

/-- The cursor passes the current fragment. -/
theorem Holds.next (hord : InOrder (new'.fragments ++ rest)) (hbuilt : loop.Built more rest new') :
    loop.At more ⟨FragmentDimension.add start fragment, rest⟩ new' := by
  have hpos := h.position
  refine at_of hord hbuilt (Eq.trans ?_ hpos)
  rw [loop.offset_add, Nat.add_assoc]
  rfl

/-- A part of the current fragment is pushed. -/
theorem Holds.take {n : Nat} (hpos : 0 < n) (hlen : fragmentStart + n ≤ loop.stop start fragment)
    (hbyte : piece.bytes = (fragment.part (fragmentStart - loop.offset start) n).bytes)
    (hid : piece.id = Locator.between new.maxId fragment.id) :
    loop.Holds more ⟨⟨start, fragment :: rest⟩, fragmentStart + n, new.pushFragment piece fragment.visible⟩ := by
  have hstop := h.stop_eq (by omega)
  obtain ⟨hst, -, hord, hbuilt, hposi⟩ := h
  dsimp only [consume] at hst hord hbuilt
  have hplen : piece.len = n := by simpa [Fragment.part] using congrArg length hbyte
  refine ⟨by dsimp only; omega, fun _ => hlen, hord.insert hid (by omega), ?_, hposi⟩
  · have hsplit := hbuilt.split (n := n) (by simp [Fragment.part]; omega)
    rw [Fragment.part_part, Fragment.part_part] at hsplit
    have hused : fragmentStart - loop.offset start + n = fragmentStart + n - loop.offset start := by omega
    have hrest : fragment.len - (fragmentStart - loop.offset start) - n = fragment.len - (fragmentStart + n - loop.offset start) := by
      omega
    dsimp only [Fragment.part] at hsplit ⊢
    rw [hrest, hused] at hsplit
    exact hsplit.push hbyte

/-- The rest of the current fragment is pushed. -/
theorem Holds.takeRest (hlt : fragmentStart < loop.stop start fragment) :
    loop.At more ⟨FragmentDimension.add start fragment, rest⟩ (new.pushFragment
      (fragment.part (fragmentStart - loop.offset start) (loop.stop start fragment - fragmentStart)) fragment.visible) := by
  have hstop := h.stop_eq hlt
  obtain ⟨hst, -, hord, hbuilt, -⟩ := id h
  dsimp only [consume] at hst hord hbuilt
  have hrest : fragment.len - (fragmentStart - loop.offset start) = loop.stop start fragment - fragmentStart := by omega
  rw [hrest] at hbuilt
  exact h.next (hord.replace rfl (by simp [Fragment.part]; omega)) (hbuilt.push rfl)

/-- The current fragment has been used, and is passed. -/
theorem Holds.pass (hlt : loop.offset start < fragmentStart) (hend : loop.stop start fragment ≤ fragmentStart) :
    loop.At more ⟨FragmentDimension.add start fragment, rest⟩ new := by
  obtain ⟨-, hstop, hord, hbuilt, -⟩ := id h
  have hle : fragmentStart ≤ loop.stop start fragment := hstop (cons_ne_nil _ _)
  have hadd := loop.offset_add start fragment
  refine h.next (hord.of_sublist ((sublist_cons_self _ _).append_left _)) (hbuilt.skip ?_)
  simp only [Fragment.part]
  unfold stop at hend hle
  split at hadd <;> omega

/-- The current fragment is pushed as it is. -/
theorem Holds.takeWhole (hle : fragmentStart ≤ loop.offset start) (hbyte : piece.bytes = fragment.bytes)
    (hid : piece.id = fragment.id) :
    loop.At more ⟨FragmentDimension.add start fragment, rest⟩ (new.pushFragment piece fragment.visible) := by
  obtain ⟨-, -, hord, hbuilt, -⟩ := id h
  rw [Nat.sub_eq_zero_of_le hle, consume_zero] at hbuilt
  have hplen : piece.len = fragment.len := by simpa using congrArg length hbyte
  exact h.next (hord.replace hid (hplen ▸ hord.pos _ (by simp))) (hbuilt.push hbyte)

/-- One turn of the loops that mark what an edit deletes: a part of the current fragment is pushed, or all of a fragment that is
not counted, and a fragment that the range does not reach past is left. -/
theorem Holds.delete {rangeEnd : Nat} (hlt : fragmentStart < rangeEnd) {pushed same : Rebuild} {pair : Nat × Rebuild}
    (hpiece : if loop.counts fragment then
        piece.bytes = (fragment.part (fragmentStart - loop.offset start)
          (min rangeEnd (loop.stop start fragment) - fragmentStart)).bytes ∧ piece.id = Locator.between new.maxId fragment.id
      else piece.bytes = fragment.bytes ∧ piece.id = fragment.id)
    (hpair : (if piece.len > 0 then (min rangeEnd (loop.stop start fragment), pushed) else (fragmentStart, same)) = pair)
    (hpush : SameFragments (new.pushFragment piece fragment.visible) pushed) (hsame : SameFragments new same) :
    (loop.stop start fragment ≤ rangeEnd → loop.Holds more ⟨⟨FragmentDimension.add start fragment, rest⟩, pair.1, pair.2⟩) ∧
      (¬loop.stop start fragment ≤ rangeEnd → loop.Holds more ⟨⟨start, fragment :: rest⟩, pair.1, pair.2⟩ ∧ pair.1 = rangeEnd) ∧
      pair.1 ≤ rangeEnd := by
  have hst : loop.offset start ≤ fragmentStart := h.start_le
  have hstop : fragmentStart ≤ loop.stop start fragment := h.le_stop (cons_ne_nil _ _)
  have hadd : loop.stop start fragment = _ := loop.offset_add _ _
  have hlen : piece.bytes.length = piece.len := piece.length_bytes
  cases hc : loop.counts fragment with
  | false =>
    -- the fragment is not counted, so it is at the position itself
    rw [hc, if_neg Bool.false_ne_true] at hpiece hadd
    have hpos := h.order.pos fragment (by simp)
    rw [hpiece.1, fragment.length_bytes] at hlen
    have hmin : min rangeEnd (loop.stop start fragment) = loop.stop start fragment := by omega
    rw [if_pos (by omega), hmin] at hpair
    rw [← hpair]
    exact ⟨fun _ => (h.takeWhole (by omega) hpiece.1 hpiece.2).same hpush, fun hgt => absurd hgt (by omega), by omega⟩
  | true =>
    rw [hc, if_pos rfl] at hpiece hadd
    rw [hpiece.1, Fragment.length_bytes] at hlen
    change min rangeEnd _ - fragmentStart = piece.len at hlen
    rcases Nat.eq_zero_or_pos piece.len with hzero | hpos
    · -- the fragment has been used before
      rw [if_neg (by omega)] at hpair
      have hend : loop.stop start fragment = fragmentStart := by omega
      have hfpos := h.order.pos fragment (by simp)
      have hpass := (h.same hsame).pass (by omega) (by omega)
      rw [← hpair, ← hend]
      exact ⟨fun _ => hpass, fun hgt => absurd hgt (by omega), by omega⟩
    · rw [if_pos hpos] at hpair
      have hend : fragmentStart + (min rangeEnd (loop.stop start fragment) - fragmentStart) =
        min rangeEnd (loop.stop start fragment) := by omega
      have htake := (h.take (hlen ▸ hpos) (by omega) hpiece.1 hpiece.2).same hpush
      rw [hend] at htake
      rw [← hpair]
      refine ⟨fun hle => ?_, fun hgt => ⟨htake, Nat.min_eq_left (Nat.le_of_not_le hgt)⟩, Nat.min_le_left _ _⟩
      rw [Nat.min_eq_right hle] at htake ⊢
      exact htake.pass (by omega) le_rfl

end

/-! ## The parts of the loops -/

theorem finishFragment_cons (hlt : loop.offset start < fragmentStart) :
    EditState.finishFragment loop.offset ⟨⟨start, fragment :: rest⟩, fragmentStart, new⟩ =
      ⟨⟨FragmentDimension.add start fragment, rest⟩, fragmentStart, if fragmentStart < loop.stop start fragment then
          new.pushFragment (fragment.part (fragmentStart - loop.offset start) (loop.stop start fragment - fragmentStart))
            fragment.visible
        else new⟩ := by
  exact if_pos hlt

theorem Holds.finishFragment (h : loop.Holds more st) :
    loop.At more (st.finishFragment loop.offset).oldFragments (st.finishFragment loop.offset).new := by
  obtain ⟨⟨start, rest⟩, fragmentStart, new⟩ := st
  rcases Nat.lt_or_ge (loop.offset start) fragmentStart with hlt | hge
  · cases rest with
    | nil =>
      unfold EditState.finishFragment
      rw [if_pos hlt]
      exact at_of h.order h.built h.position
    | cons fragment rest =>
      rw [finishFragment_cons hlt]
      split
      · rename_i hgt
        exact h.takeRest hgt
      · rename_i hgt
        exact h.pass hlt (Nat.le_of_not_gt hgt)
  · obtain rfl : loop.offset start = fragmentStart := h.start_le.antisymm hge
    unfold EditState.finishFragment
    rw [if_neg (lt_irrefl _)]
    exact h

/-- The fragments that are left are kept. -/
theorem Holds.finish (h : loop.Holds more st) :
    InOrder (st.finish loop.offset).fragments ∧ loop.Built more [] (st.finish loop.offset) := by
  have hbuilt := At.built h.finishFragment
  rw [← append_nil (st.finishFragment _).oldFragments.rest] at hbuilt
  exact ⟨h.finishFragment.order, hbuilt.append⟩

theorem sliceLoop_spec (loop : FragmentLoop D) (passes : D → Bool) (start : D) (rest : List Fragment) :
    (FragmentsCursor.sliceLoop passes start rest).1 ++ (FragmentsCursor.sliceLoop passes start rest).2.rest = rest ∧
      loop.offset (FragmentsCursor.sliceLoop passes start rest).2.start +
        counted loop.counts (FragmentsCursor.sliceLoop passes start rest).2.rest = loop.offset start + counted loop.counts rest ∧
      ((FragmentsCursor.sliceLoop passes start rest).2.rest ≠ [] →
        passes (FragmentsCursor.sliceLoop passes start rest).2.stop = false) := by
  induction rest generalizing start with
  | nil => exact ⟨rfl, rfl, fun h => absurd rfl h⟩
  | cons fragment rest ih =>
    unfold FragmentsCursor.sliceLoop
    dsimp only
    split
    · obtain ⟨happ, hpos, hstop⟩ := ih _
      refine ⟨congrArg _ happ, hpos.trans ?_, hstop⟩
      rw [loop.offset_add, Nat.add_assoc]
      rfl
    · rename_i hpass
      exact ⟨rfl, rfl, fun _ => Bool.eq_false_iff.mpr hpass⟩

/-- Fragments are kept up to a target. -/
theorem At.slice (h : loop.At more cursor new) (passes : D → Bool) :
    loop.At more (cursor.slice passes).2 (new.append (cursor.slice passes).1) ∧
      ((cursor.slice passes).2.rest ≠ [] → passes (cursor.slice passes).2.stop = false) := by
  obtain ⟨happ, hpos, hstop⟩ := sliceLoop_spec loop _ _ cursor.rest
  have hord : InOrder (new.fragments ++ cursor.rest) := h.order
  have hbuilt := At.built h
  rw [← happ] at hord hbuilt
  rw [← append_assoc] at hord
  exact ⟨at_of hord hbuilt.append (hpos.trans h.position), hstop⟩

theorem Holds.jumpAhead (h : loop.Holds more st) (passes : D → Bool) (rangeStart : Nat)
    (hpass : ∀ position, passes position = false → rangeStart ≤ loop.offset position) :
    loop.Holds more (st.jumpAhead loop.offset passes rangeStart) ∧
      ((st.jumpAhead loop.offset passes rangeStart).oldFragments.rest ≠ [] →
        rangeStart ≤ loop.offset (st.jumpAhead loop.offset passes rangeStart).oldFragments.stop) := by
  unfold EditState.jumpAhead
  split
  · obtain ⟨hslice, hstop⟩ := At.slice h.finishFragment _
    exact ⟨hslice, fun hne => hpass _ (hstop hne)⟩
  · rename_i hge
    exact ⟨h, fun _ => Nat.le_of_not_gt hge⟩

theorem Holds.pushPrefix (h : loop.Holds more st) {rangeStart : Nat}
    (hstop : st.oldFragments.rest ≠ [] → rangeStart ≤ loop.offset st.oldFragments.stop) :
    loop.Holds more (st.pushPrefix loop.offset rangeStart) := by
  obtain ⟨⟨start, rest⟩, fragmentStart, new⟩ := st
  unfold EditState.pushPrefix
  dsimp only
  split
  · rename_i hlt
    cases rest with
    | nil => exact h
    | cons fragment rest =>
      have hstop : rangeStart ≤ loop.stop start fragment := hstop (cons_ne_nil _ _)
      have hend : fragmentStart + (rangeStart - fragmentStart) = rangeStart := by omega
      let piece : Fragment :=
        { fragment.part (fragmentStart - loop.offset start) (rangeStart - fragmentStart) with
          id := Locator.between new.maxId fragment.id }
      have htake : loop.Holds more ⟨_, _, new.pushFragment piece _⟩ := h.take (Nat.sub_pos_of_lt hlt) (hend.trans_le hstop) rfl rfl
      rwa [hend] at htake
  · exact h

/-! ## Insertions -/

/-- The bytes of a part of a text. -/
theorem map_getD_range' (done newText more : Text) :
    (range' done.length newText.length).map (fun i => (done ++ (newText ++ more)).getD i 0) = newText := by
  refine ext_getElem (by simp) fun i _ hi => ?_
  simp [getD_eq_getElem?_getD, getElem?_append_right, getElem?_append_left, hi]

theorem pushChunks_spec (timestamp : Lamport) {chunks : List Nat} (hpos : ∀ len ∈ chunks, 0 < len)
    (hord : InOrder (new.fragments ++ rest)) :
    ∃ added, (pushChunks timestamp (nextId rest) chunks new).fragments = new.fragments ++ added ∧
      (pushChunks timestamp (nextId rest) chunks new).ropes = new.ropes ∧
      (pushChunks timestamp (nextId rest) chunks new).insertionOffset = new.insertionOffset + chunks.sum ∧
      InOrder (new.fragments ++ added ++ rest) ∧ (∀ fragment ∈ added, fragment.visible = true) ∧
      added.flatMap Fragment.bytes = (range' new.insertionOffset chunks.sum).map fun offset => (timestamp, offset) := by
  induction chunks generalizing new with
  | nil => exact ⟨[], by simp [pushChunks], rfl, rfl, by simpa using hord, nofun, rfl⟩
  | cons chunkLen chunks ih =>
    obtain ⟨hchuL, hpos⟩ := forall_mem_cons.mp hpos
    rw [pushChunks]
    generalize hfrag : Fragment.mk _ _ _ _ _ _ _ = fragment
    have hord' : InOrder (new.fragments ++ [fragment] ++ rest) :=
      hord.insert (by rw [← hfrag]; rfl) (by rw [← hfrag]; exact hchuL)
    obtain ⟨added, hfra, hrope, hoff, hadd, hvis, hbyte⟩ := @ih { new with
        slices := new.slices ++ [InsertionSlice.fromFragment _ _]
        insertions := new.insertions ++ [InsertionFragment.new _]
        fragments := new.fragments ++ [fragment]
        insertionOffset := new.insertionOffset + chunkLen } hpos hord'
    refine ⟨fragment :: added, by simpa using hfra, hrope, by simpa [Nat.add_assoc] using hoff, by simpa using hadd,
      forall_mem_cons.mpr ⟨by rw [← hfrag], hvis⟩, ?_⟩
    rw [flatMap_cons, hbyte, ← hfrag, sum_cons, ← range'_append_1, map_append]
    rfl

/-- New fragments are inserted before what is left. -/
theorem Built.insert {added : List Fragment} {newText : Text} (hbuilt : loop.Built (newText ++ more) left new)
    (hfrag : new'.fragments = new.fragments ++ added) (hrope : new'.ropes = new.ropes.pushStr newText)
    (hoff : new'.insertionOffset = new.insertionOffset + newText.length) (hvis : ∀ fragment ∈ added, fragment.visible = true)
    (hbyte : added.flatMap Fragment.bytes =
      (range' new.insertionOffset newText.length).map fun offset => (loop.timestamp, offset)) : loop.Built more left new' := by
  obtain ⟨hkept, hins, ⟨done, htext, hdone⟩, hfresh, hsuffix, hropeO⟩ := hbuilt
  have hleft : (left.flatMap Fragment.bytes).filter (fun place => place.1 = loop.timestamp) = [] := by
    rw [filter_eq_nil_iff]
    intro place hplace
    obtain ⟨fragment, hmem, hplace⟩ := mem_flatMap.mp hplace
    obtain ⟨-, -, rfl⟩ := mem_map.mp hplace
    simpa using hfresh _ hmem
  obtain ⟨hadd, hdel⟩ := @textOf_of_visible _ _ hvis
  rw [hbyte, map_map, ← hdone] at hadd
  replace hadd : textOf loop.texts true added = newText := by
    refine hadd.trans (Eq.trans (map_congr_left fun i _ => ?_) (map_getD_range' done _ more))
    simp [InsertionTexts.byte, htext]
  refine ⟨?_, ?_, ⟨done ++ newText, by simpa using htext, by rw [length_append, hdone, hoff]⟩, hfresh, hsuffix, ?_⟩
  · rw [hfrag, ← hkept]
    simp [hbyte, filter_map, Function.comp_def]
  · rw [hfrag, hoff]
    simp only [flatMap_append, filter_append, hleft, append_nil] at hins ⊢
    rw [hins, hbyte]
    simp [filter_map, Function.comp_def, range_eq_range', ← range'_append_1]
  · rw [hfrag, hrope, hropeO]
    simp [ropesOf, RopeBuilder.pushStr, textOf_append, hadd, hdel]

/-- New text goes where the loop is. -/
theorem Holds.insert {newText : Text} (hval : Text.Valid newText) (h : loop.Holds (newText ++ more) st) (edit : Patch.Edit) :
    loop.Holds more { st with
      new := (pushFragmentsForInsertion newText loop.timestamp st.nextFragmentId st.new).pushEdit edit } := by
  obtain ⟨hpos, hsum⟩ := chunkLens_spec hval _ 0 le_rfl
  obtain ⟨added, hfrag, hrope, hoff, hadd, hvis, hbyte⟩ := pushChunks_spec _ hpos h.order
  rw [hsum] at hoff hbyte
  refine ⟨h.start_le, h.le_stop, (congrArg (InOrder <| · ++ st.oldFragments.rest) hfrag).mpr hadd, ?_, h.position⟩
  exact h.built.insert hfrag (congrArg (RopeBuilder.pushStr · _) hrope) hoff hvis hbyte

end

end FragmentLoop

end Wu
