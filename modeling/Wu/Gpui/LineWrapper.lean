import Mathlib.Tactic.Linarith
import Mathlib.Tactic.Ring

/-!
# Wrapping a line

The wrapper reads a line's characters and elements one after the other. It keeps the width of the row it is in and the last place
where that row can be broken, and makes a boundary whenever the item it reads makes the row too wide.
-/

namespace Wu.Gpui.TextSystem

/-- What the wrapper knows of the text system: how wide a character is, as an exact number. -/
structure LineWrapper where
  widthForChar : Char → ℚ
  nonneg : ∀ c, 0 ≤ widthForChar c

/-- The maximum indent that can be applied to a line. -/
def MAX_INDENT : Nat := 256

/-- A fragment of a line. The display map makes an element out of a chunk, which is never empty. -/
inductive LineFragment
  | text (chars : List Char)
  | element (width : ℚ) (lenUtf8 : Nat) (nonneg : 0 ≤ width) (pos : 0 < lenUtf8)

inductive WrapBoundaryCandidate
  | char (character : Char)
  | element (width : ℚ) (lenUtf8 : Nat) (nonneg : 0 ≤ width) (pos : 0 < lenUtf8)

structure Boundary where
  ix : Nat
  nextIndent : Nat
deriving DecidableEq

def LineFragment.wrapBoundaryCandidates : LineFragment → List WrapBoundaryCandidate
  | text chars => chars.map WrapBoundaryCandidate.char
  | element width lenUtf8 nonneg pos => [WrapBoundaryCandidate.element width lenUtf8 nonneg pos]

def WrapBoundaryCandidate.lenUtf8 : WrapBoundaryCandidate → Nat
  | .char character => character.utf8Size
  | .element _ lenUtf8 _ _ => lenUtf8

/-- A space is blank. A tab is not, and an element is not. -/
def WrapBoundaryCandidate.blank : WrapBoundaryCandidate → Bool
  | .char character => character = ' '
  | .element .. => false

def WrapBoundaryCandidate.newline : WrapBoundaryCandidate → Bool
  | .char character => character = '\n'
  | .element .. => false

/-- The characters that stay attached to the word before them. -/
def isWordChar (c : Char) : Bool :=
  c.isAlphanum ||
  -- Latin-1 Supplement, Latin Extended-A, Latin Extended-B and Cyrillic
  (0xC0 ≤ c.toNat && c.toNat ≤ 0xFF) ||
  (0x100 ≤ c.toNat && c.toNat ≤ 0x17F) ||
  (0x180 ≤ c.toNat && c.toNat ≤ 0x24F) ||
  (0x400 ≤ c.toNat && c.toNat ≤ 0x4FF) ||
  -- Vietnamese and Bengali
  (0x1E00 ≤ c.toNat && c.toNat ≤ 0x1EFF) ||
  (0x300 ≤ c.toNat && c.toNat ≤ 0x36F) ||
  (0x980 ≤ c.toNat && c.toNat ≤ 0x9FF) ||
  ['-', '_', '.', '\x27', '’', '‘', '$', '%', '@', '#', '^', '~', ',', '=', ':', ';'].contains c ||
  ['!', ')', ']', '\x7d', '\x22', '”', '»', '…'].contains c ||
  c == '⋯' ||
  ['\u202F', '\u00A0', '\u2011'].contains c

/-! ## The loop -/

/-- What the closure of the iterator captures. -/
structure State where
  width : ℚ := 0
  firstNonWhitespaceIx : Option Nat := none
  indent : Option Nat := none
  lastCandidateIx : Nat := 0
  lastCandidateWidth : ℚ := 0
  lastWrapIx : Nat := 0
  prevC : Char := '\x00'
  index : Nat := 0

/-- The row may be broken before the item at `ix`. -/
def State.setCandidate (s : State) (ix : Nat) : State :=
  { s with lastCandidateIx := ix, lastCandidateWidth := s.width }

def State.setFirst (s : State) (ix : Nat) : State :=
  { s with firstNonWhitespaceIx := some ix }

/-- What the loop does with an item before it adds its width. -/
def State.visit (s : State) (ix : Nat) : WrapBoundaryCandidate → State
  | .char c =>
    let s := if isWordChar c then
        if s.prevC = ' ' ∧ c ≠ ' ' ∧ s.firstNonWhitespaceIx.isSome then s.setCandidate ix else s
      else
        -- CJK may not be space separated
        if c ≠ ' ' ∧ s.firstNonWhitespaceIx.isSome then s.setCandidate ix else s
    if c ≠ ' ' ∧ s.firstNonWhitespaceIx.isNone then s.setFirst ix else s
  | .element .. =>
    let s := if s.prevC = ' ' ∧ s.firstNonWhitespaceIx.isSome then s.setCandidate ix else s
    if s.firstNonWhitespaceIx.isNone then s.setFirst ix else s

def LineWrapper.itemWidth (w : LineWrapper) : WrapBoundaryCandidate → ℚ
  | .char c => w.widthForChar c
  | .element width _ _ _ => width

/-- The indent is taken from the first row broken after its first non-blank item was read: the bytes before the item, as a `u32`. -/
def State.indented (s : State) : Option Nat :=
  s.indent.or (s.firstNonWhitespaceIx.map fun ix => min MAX_INDENT ((ix - s.lastWrapIx) % 2 ^ 32))

/-- The break of a row that the item at `ix` made too wide. What was read since the candidate moves to the next row. -/
def State.wrap (s : State) (space : ℚ) (ix : Nat) (itemWidth : ℚ) : State :=
  let indent := s.indented
  let s := if 0 < s.lastCandidateIx then
      { s with lastWrapIx := s.lastCandidateIx, width := s.width - s.lastCandidateWidth, lastCandidateIx := 0 }
    else { s with lastWrapIx := ix, width := itemWidth }
  match indent with
  | some n => { s with indent := indent, width := s.width + space * n }
  | none => { s with indent := indent }

/-- The state with the item read and its width added, before the width is compared. -/
def LineWrapper.added (w : LineWrapper) (s : State) (item : WrapBoundaryCandidate) : State :=
  let ix := s.index
  let s := { s with index := s.index + item.lenUtf8 }
  let s := s.visit ix item
  { s with width := s.width + w.itemWidth item }

/-- The item at `ix` makes the row too wide, and it is not the row's first. -/
def State.Overflows (wrapWidth : ℚ) (s : State) (ix : Nat) : Prop := wrapWidth < s.width ∧ s.lastWrapIx < ix

instance (wrapWidth : ℚ) (s : State) (ix : Nat) : Decidable (s.Overflows wrapWidth ix) :=
  inferInstanceAs (Decidable (_ ∧ _))

/-- One turn of the loop. A newline is passed over, and a turn that makes a boundary leaves `prev_c` as it was. -/
def LineWrapper.read (w : LineWrapper) (wrapWidth : ℚ) (s : State) (item : WrapBoundaryCandidate) : State × Option Boundary :=
  if item.newline then ({ s with index := s.index + item.lenUtf8 }, none)
  else
    let s' := w.added s item
    if s'.Overflows wrapWidth s.index then
      let s' := s'.wrap (w.widthForChar ' ') s.index (w.itemWidth item)
      (s', some ⟨s'.lastWrapIx, s'.indent.getD 0⟩)
    else
      ({ s' with prevC := match item with | .char c => c | .element .. => s.prevC }, none)

/-- The boundaries made while the items are read. -/
def LineWrapper.boundaries (w : LineWrapper) (wrapWidth : ℚ) : State → List WrapBoundaryCandidate → List Boundary
  | _, [] => []
  | s, item :: items =>
    (w.read wrapWidth s item).2.toList ++ w.boundaries wrapWidth (w.read wrapWidth s item).1 items

def LineWrapper.wrapLine (w : LineWrapper) (fragments : List LineFragment) (wrapWidth : ℚ) : List Boundary :=
  w.boundaries wrapWidth {} (fragments.flatMap LineFragment.wrapBoundaryCandidates)

/-! ## What is expected of the rows -/

/-- The bytes of the items. -/
def size : List WrapBoundaryCandidate → Nat
  | [] => 0
  | item :: items => item.lenUtf8 + size items

/-- The width of a row of the items behind an indent. -/
def LineWrapper.rowWidth (w : LineWrapper) (indent : Nat) : List WrapBoundaryCandidate → ℚ
  | [] => w.widthForChar ' ' * indent
  | item :: items => w.itemWidth item + w.rowWidth indent items

/-- Where the items start, the first of them at `ix`. -/
def starts (ix : Nat) : List WrapBoundaryCandidate → List Nat
  | [] => []
  | item :: items => ix :: starts (ix + item.lenUtf8) items

/-- The items that start in the first `n` bytes, and the others. -/
def cut (n : Nat) : List WrapBoundaryCandidate → List WrapBoundaryCandidate × List WrapBoundaryCandidate
  | [] => ([], [])
  | item :: items =>
    if n = 0 then ([], item :: items)
    else (item :: (cut (n - item.lenUtf8) items).1, (cut (n - item.lenUtf8) items).2)

/-- A row of the wrapped line: its indent and its items. -/
structure Row where
  indent : Nat
  items : List WrapBoundaryCandidate

/-- The rows that boundaries divide the items into, the first row starting at `ix`. -/
def rows (indent ix : Nat) : List Boundary → List WrapBoundaryCandidate → List Row
  | [], items => [⟨indent, items⟩]
  | b :: bs, items => ⟨indent, (cut (b.ix - ix) items).1⟩ :: rows b.nextIndent b.ix bs (cut (b.ix - ix) items).2

/-- The boundaries come in order, at starts of items, above the start of the line and below its length. -/
def Placed (items : List WrapBoundaryCandidate) (bs : List Boundary) : Prop :=
  (bs.map (·.ix)).Pairwise (· < ·) ∧ ∀ b ∈ bs, b.ix ∈ starts 0 items ∧ 0 < b.ix ∧ b.ix < size items

/-- The blanks that the row of the first non-blank item starts with. -/
def leadingBlanks (rs : List Row) : Nat :=
  match rs.find? fun r => r.items.any (!·.blank) with
  | some r => (r.items.takeWhile (·.blank)).length
  | none => 0

/-- Where the first non-blank item starts. -/
def firstNonBlank (ix : Nat) : List WrapBoundaryCandidate → Option Nat
  | [] => none
  | item :: items => if item.blank then firstNonBlank (ix + item.lenUtf8) items else some ix

/-- The boundaries after the first non-blank item all carry the indent of that item's row. -/
def IndentKept (items : List WrapBoundaryCandidate) (bs : List Boundary) : Prop :=
  ∀ first, firstNonBlank 0 items = some first → ∀ b ∈ bs, first < b.ix →
    b.nextIndent = min MAX_INDENT (leadingBlanks (rows 0 0 bs items))

/-- A row of more than one item is not wider, with its indent, than the wrap width. -/
def LineWrapper.Fits (w : LineWrapper) (wrapWidth : ℚ) (r : Row) : Prop :=
  2 ≤ r.items.length → w.rowWidth r.indent r.items ≤ wrapWidth

/-! ## When the rows are as expected -/

/-- Before each turn of the loop: the state and the item read. -/
def LineWrapper.turns (w : LineWrapper) (wrapWidth : ℚ) : State → List WrapBoundaryCandidate → List (State × WrapBoundaryCandidate)
  | _, [] => []
  | s, item :: items => (s, item) :: w.turns wrapWidth (w.read wrapWidth s item).1 items

/-- When the item makes the row too wide: the row has no candidate before the item, or what was read since the candidate fits into the
next row, together with the item and the indent. -/
def LineWrapper.CarryFits (w : LineWrapper) (wrapWidth : ℚ) (s : State) (item : WrapBoundaryCandidate) : Prop :=
  let s' := w.added s item
  s'.Overflows wrapWidth s.index → s'.lastCandidateIx = 0 ∨ s'.lastCandidateIx = s.index ∨
    s'.width - s'.lastCandidateWidth + w.widthForChar ' ' * (s'.indented.getD 0 : ℕ) ≤ wrapWidth

/-- When the item makes the row too wide, after the first non-blank item was read: with no indent yet, the bytes before that item are as
many as the `u32` says, up to the maximum. With an indent, it is zero, or the row does not start with that item. -/
def LineWrapper.IndentFits (w : LineWrapper) (wrapWidth : ℚ) (s : State) (item : WrapBoundaryCandidate) : Prop :=
  let s' := w.added s item
  s'.Overflows wrapWidth s.index → ∀ first ∈ s.firstNonWhitespaceIx,
    (s.indent = none → min MAX_INDENT ((first - s.lastWrapIx) % 2 ^ 32) = min MAX_INDENT (first - s.lastWrapIx)) ∧
      ∀ n ∈ s.indent, n = 0 ∨ s.lastWrapIx ≠ first

instance (w : LineWrapper) (wrapWidth : ℚ) (s : State) (item : WrapBoundaryCandidate) :
    Decidable (w.CarryFits wrapWidth s item) :=
  inferInstanceAs (Decidable (_ → _ ∨ _ ∨ _))

instance (w : LineWrapper) (wrapWidth : ℚ) (s : State) (item : WrapBoundaryCandidate) :
    Decidable (w.IndentFits wrapWidth s item) :=
  inferInstanceAs (Decidable (_ → ∀ first ∈ s.firstNonWhitespaceIx, (_ → _) ∧ ∀ n ∈ s.indent, _ ∨ _))

end Wu.Gpui.TextSystem
