import Wu.Keymap.Parse

/-!
# Printing context predicates

`Display` of a predicate writes a line of atoms that are joined by operators; an alternative inside a conjunction is an atom in
parentheses, and so is a conjunction inside an alternative. A descendant gets no parentheses, so that its line goes on with the
operators around it. `reading` is what the parser makes of the line (`parse_fmt`), for every predicate; it means the same where no
descendant is an operand of another operator, other than on the left of `>` (`plain`).
-/

namespace Wu.Gpui

open List Option

open KeyBindingContextPredicate
open Strings (isWhitespace)

/-! ## The code -/

/-- `enum LogicalOperator`. -/
inductive LogicalOperator where
  | and
  | or
  deriving DecidableEq, Repr

/-- What is written between the operands. -/
def LogicalOperator.separator : LogicalOperator → Str
  | and => " && ".toList
  | or => " || ".toList

/-- Whether an operand needs parentheses: one with the other operator. -/
def LogicalOperator.needsParens : LogicalOperator → KeyBindingContextPredicate → Bool
  | and, .or _ _ => true
  | or, .and _ _ => true
  | _, _ => false

mutual

/-- `Display::fmt`; the first call of `fmt_joined_inner` is on a node with the operator itself, and goes on with its operands. -/
def fmt : KeyBindingContextPredicate → Str
  | .identifier name => name.toList
  | .equal left right => left.toList ++ " == ".toList ++ right.toList
  | .notEqual left right => left.toList ++ " != ".toList ++ right.toList
  | .descendant parent child => fmt parent ++ " > ".toList ++ fmt child
  | .not (.identifier name) => '!' :: name.toList
  | .not pred => "!(".toList ++ fmt pred ++ ")".toList
  | .and left right => (fmtJoinedInner .and right (fmtJoinedInner .and left ([], true))).1
  | .or left right => (fmtJoinedInner .or right (fmtJoinedInner .or left ([], true))).1
  termination_by pred => 2 * sizeOf pred

/-- `fmt_joined_inner`, with what is written and whether the next operand is the first one. -/
def fmtJoinedInner (operator : LogicalOperator) (node : KeyBindingContextPredicate) (written : Str × Bool) : Str × Bool :=
  match operator, node with
  | .and, .and left right => fmtJoinedInner .and right (fmtJoinedInner .and left written)
  | .or, .or left right => fmtJoinedInner .or right (fmtJoinedInner .or left written)
  | operator, node =>
    let text := if written.2 then written.1 else written.1 ++ operator.separator
    (text ++ if operator.needsParens node then "(".toList ++ fmt node ++ ")".toList else fmt node, false)
  termination_by 2 * sizeOf node + 1

end

/-- An operand as it is written. -/
def wrap (operator : LogicalOperator) (node : KeyBindingContextPredicate) : Str :=
  if operator.needsParens node then "(".toList ++ fmt node ++ ")".toList else fmt node

theorem fmtJoinedInner_eq (operator : LogicalOperator) (node : KeyBindingContextPredicate) (text : Str) (first : Bool) :
    fmtJoinedInner operator node (text, first) =
      ((if first then text else text ++ operator.separator) ++ wrap operator node, false) := by
  induction node generalizing text first with
  | and l r ihl ihr =>
    cases operator with
    | and =>
      have hwrap : wrap .and (.and l r) = wrap .and l ++ LogicalOperator.and.separator ++ wrap .and r := by
        have hpln : wrap .and (.and l r) = fmt (.and l r) := rfl
        rw [hpln, fmt, ihl, ihr]
        rfl
      rw [fmtJoinedInner, ihl, ihr, hwrap]
      simp
    | or => rw [fmtJoinedInner.eq_def]; rfl
  | or l r ihl ihr =>
    cases operator with
    | and => rw [fmtJoinedInner.eq_def]; rfl
    | or =>
      have hwrap : wrap .or (.or l r) = wrap .or l ++ LogicalOperator.or.separator ++ wrap .or r := by
        have hpln : wrap .or (.or l r) = fmt (.or l r) := rfl
        rw [hpln, fmt, ihl, ihr]
        rfl
      rw [fmtJoinedInner, ihl, ihr, hwrap]
      simp
  | _ => cases operator <;> rw [fmtJoinedInner.eq_def] <;> rfl

theorem fmt_and (l r : KeyBindingContextPredicate) :
    fmt (.and l r) = wrap .and l ++ LogicalOperator.and.separator ++ wrap .and r := by
  rw [fmt, fmtJoinedInner_eq, fmtJoinedInner_eq]
  rfl

theorem fmt_or (l r : KeyBindingContextPredicate) : fmt (.or l r) = wrap .or l ++ LogicalOperator.or.separator ++ wrap .or r := by
  rw [fmt, fmtJoinedInner_eq, fmtJoinedInner_eq]
  rfl

/-! ## Lines -/

/-- How two atoms are joined. -/
inductive Joint where
  | child
  | or
  | and
  deriving DecidableEq, Repr

/-- The operator of the parser. -/
def Joint.operator : Joint → Operator
  | child => .child
  | or => .or
  | and => .and

theorem Joint.precedence_lt (joint : Joint) : joint.operator.precedence < 4 := by cases joint <;> decide

theorem Joint.precedence_lt_of_ne {joint : Joint} (h : joint ≠ .and) : joint.operator.precedence < 3 := by
  cases joint with
  | and => exact absurd rfl h
  | _ => decide

/-- A part of the text that the parser reads at once, with what it reads. -/
structure Atom where
  text : Str
  tree : KeyBindingContextPredicate

/-- The atoms of a text and how they are joined. -/
structure Line where
  first : Atom
  rest : List (Joint × Atom)

/-- The text behind an atom. -/
def restText : List (Joint × Atom) → Str
  | [] => []
  | (joint, atom) :: rest => ' ' :: joint.operator.text ++ ' ' :: atom.text ++ restText rest

/-- The text of a line. -/
def Line.text (line : Line) : Str := line.first.text ++ restText line.rest

/-- An alternative to those before, if there are some. -/
def joinOr : Option KeyBindingContextPredicate → KeyBindingContextPredicate → KeyBindingContextPredicate
  | none, current => current
  | some alternatives, current => .or alternatives current

/-- A child of what is before, if there is something. -/
def joinChild : Option KeyBindingContextPredicate → KeyBindingContextPredicate → KeyBindingContextPredicate
  | none, current => current
  | some parent, current => .descendant parent current

/-- What a line is read as: the parent and the alternatives before what has been read last, and the atoms that follow it. -/
def readOn (parent alternatives : Option KeyBindingContextPredicate) (current : KeyBindingContextPredicate) :
    List (Joint × Atom) → KeyBindingContextPredicate
  | [] => joinChild parent (joinOr alternatives current)
  | (.and, atom) :: rest => readOn parent alternatives (.and current atom.tree) rest
  | (.or, atom) :: rest => readOn parent (some (joinOr alternatives current)) atom.tree rest
  | (.child, atom) :: rest => readOn (some (joinChild parent (joinOr alternatives current))) none atom.tree rest

/-- What a line is read as. -/
def Line.tree (line : Line) : KeyBindingContextPredicate := readOn none none line.first.tree line.rest

/-- Two lines, one behind the other. -/
def Line.join (joint : Joint) (left right : Line) : Line := ⟨left.first, left.rest ++ (joint, right.first) :: right.rest⟩

/-- The line of an operand. -/
def operandLine (operator : LogicalOperator) (node : KeyBindingContextPredicate) (line : Line) : Line :=
  if operator.needsParens node then ⟨⟨"(".toList ++ line.text ++ ")".toList, line.tree⟩, []⟩ else line

/-- The line that a predicate is written as. -/
def lineOf : KeyBindingContextPredicate → Line
  | .identifier name => ⟨⟨name.toList, .identifier name⟩, []⟩
  | .equal left right => ⟨⟨left.toList ++ " == ".toList ++ right.toList, .equal left right⟩, []⟩
  | .notEqual left right => ⟨⟨left.toList ++ " != ".toList ++ right.toList, .notEqual left right⟩, []⟩
  | .not pred => ⟨⟨fmt (.not pred), .not (lineOf pred).tree⟩, []⟩
  | .descendant parent child => .join .child (lineOf parent) (lineOf child)
  | .and left right => .join .and (operandLine .and left (lineOf left)) (operandLine .and right (lineOf right))
  | .or left right => .join .or (operandLine .or left (lineOf left)) (operandLine .or right (lineOf right))

/-- What the text of a predicate is read as. -/
def reading (pred : KeyBindingContextPredicate) : KeyBindingContextPredicate := (lineOf pred).tree

theorem restText_append (a b : List (Joint × Atom)) : restText (a ++ b) = restText a ++ restText b := by
  induction a with
  | nil => rfl
  | cons x a ih =>
    rw [cons_append, restText, restText, ih]
    simp

theorem Line.text_join (joint : Joint) (left right : Line) :
    (Line.join joint left right).text = left.text ++ (' ' :: joint.operator.text ++ " ".toList) ++ right.text := by
  simp [Line.text, Line.join, restText_append, restText]

theorem text_operandLine {operator : LogicalOperator} {node : KeyBindingContextPredicate} {line : Line} (h : line.text = fmt node) :
    (operandLine operator node line).text = wrap operator node := by
  unfold operandLine wrap
  split
  · rw [← h]
    exact append_nil _
  · exact h

/-- The line of a predicate is its text. -/
theorem text_lineOf (pred : KeyBindingContextPredicate) : (lineOf pred).text = fmt pred := by
  induction pred with
  | identifier name => rw [fmt]; exact append_nil _
  | equal left right => rw [fmt]; exact append_nil _
  | notEqual left right => rw [fmt]; exact append_nil _
  | not pred _ => exact append_nil _
  | descendant parent child ihp ihc =>
    rw [lineOf, Line.text_join, ihp, ihc, fmt]
    rfl
  | and l r ihl ihr =>
    rw [lineOf, Line.text_join, text_operandLine ihl, text_operandLine ihr, fmt_and]
    rfl
  | or l r ihl ihr =>
    rw [lineOf, Line.text_join, text_operandLine ihl, text_operandLine ihr, fmt_or]
    rfl

/-! ## Reading a line -/

section Reading

variable {alphanumeric : Alphanumeric} {stop : Str}

/-- What may stand behind a line: nothing, or the end of the parentheses around it. -/
def Stops (stop : Str) : Prop := stop = [] ∨ ∃ rest, stop = ')' :: rest

/-- The parser reads the atom, with every precedence of an operator, and goes on behind it. -/
structure Readable (alphanumeric : Alphanumeric) (atom : Atom) : Prop where
  starts : ∃ c rest, atom.text = c :: rest ∧ isWhitespace c = false
  parses : ∀ {minPrecedence rest result rest'}, minPrecedence ≤ 4 → (∀ c ∈ rest.head?, isNameChar alphanumeric c = false) →
    Continues alphanumeric atom.tree (skipWhitespace rest) minPrecedence result rest' →
    Parses alphanumeric (atom.text ++ rest) minPrecedence result rest'

theorem skipWhitespace_of_starts {text rest : Str} (h : ∃ c tail, text = c :: tail ∧ isWhitespace c = false) :
    skipWhitespace (text ++ rest) = text ++ rest := by
  obtain ⟨c, -, rfl, hc⟩ := h
  exact dropWhile_cons_of_neg (by simp [hc])

theorem skipWhitespace_stop (h : Stops stop) : skipWhitespace stop = stop := by
  rcases h with rfl | ⟨-, rfl⟩
  · rfl
  · exact dropWhile_cons_of_neg (by decide)

/-- No operator comes at the end. -/
theorem nextOperator_stop (h : Stops stop) (minPrecedence : Nat) : nextOperator stop minPrecedence = none := by
  rcases h with rfl | ⟨-, rfl⟩
  · rfl
  · simp [nextOperator, Operator.text]

variable {atom : Atom} {minPrecedence : Nat} {predicate pred : KeyBindingContextPredicate}

/-- The operator behind an atom. -/
theorem nextOperator_rest (joint : Joint) (h : ∃ c tail, atom.text = c :: tail ∧ isWhitespace c = false)
    (rest : List (Joint × Atom)) (stop : Str) (minPrecedence : Nat) :
    nextOperator (skipWhitespace (restText ((joint, atom) :: rest) ++ stop)) minPrecedence =
      if minPrecedence ≤ joint.operator.precedence then some (joint.operator, atom.text ++ (restText rest ++ stop)) else none := by
  have hskip : skipWhitespace (restText ((joint, atom) :: rest) ++ stop) =
      joint.operator.text ++ ' ' :: (atom.text ++ (restText rest ++ stop)) := by
    rw [restText]
    simp only [append_assoc, cons_append]
    refine (dropWhile_cons_of_pos (by decide)).trans ?_
    cases joint <;> exact dropWhile_cons_of_neg (by decide)
  have hbeh : skipWhitespace (' ' :: (atom.text ++ (restText rest ++ stop))) = atom.text ++ (restText rest ++ stop) :=
    (dropWhile_cons_of_pos (by decide)).trans (skipWhitespace_of_starts h)
  rw [hskip, nextOperator]
  by_cases hle : minPrecedence ≤ joint.operator.precedence
  · cases joint <;> simp_all [Joint.operator, Operator.text, Operator.precedence]
  · rw [if_neg hle, List.findSome?_eq_none_iff]
    refine fun operator _ => if_neg fun hboth => ?_
    rw [Bool.and_eq_true, decide_eq_true_eq] at hboth
    refine hle (hboth.2.trans (Nat.le_of_eq (congrArg _ ?_)))
    cases joint <;> cases operator <;> first | rfl | exact absurd hboth.1 (by simp [Joint.operator, Operator.text])

theorem head?_restText (rest : List (Joint × Atom)) (h : Stops stop) :
    ∀ c ∈ (restText rest ++ stop).head?, isNameChar alphanumeric c = false := by
  have hasc (c : Char) (hc : c ∈ [' ', ')']) : isNameChar alphanumeric c = false := by
    rw [List.mem_pair] at hc
    obtain rfl | rfl := hc
    · rw [isNameChar, isIdentifierChar_of_ascii _ ' ' (by decide)]
      rfl
    · rw [isNameChar, isIdentifierChar_of_ascii _ ')' (by decide)]
      rfl
  intro c hc
  cases rest with
  | nil =>
    rcases h with rfl | ⟨rest, rfl⟩
    · cases hc
    · obtain rfl : ')' = c := some.inj hc
      exact hasc _ (by decide)
  | cons x rest =>
    obtain rfl : ' ' = c := some.inj hc
    exact hasc _ (by decide)

/-- No operator that binds as tight comes behind an atom, for the precedences that the operators in front of it read at. -/
theorem nextOperator_of_lt (rest : List (Joint × Atom)) (h : Stops stop) (hatom : ∀ x ∈ rest, Readable alphanumeric x.2)
    (hlt : ∀ x ∈ rest.head?, x.1.operator.precedence < minPrecedence) :
    nextOperator (skipWhitespace (restText rest ++ stop)) minPrecedence = none := by
  cases rest with
  | nil => rw [restText, nil_append, skipWhitespace_stop h, nextOperator_stop h]
  | cons x rest =>
    obtain ⟨joint, atom⟩ := x
    rw [nextOperator_rest _ (hatom _ mem_cons_self).starts, if_neg (Nat.not_le.mpr (hlt _ rfl))]

/-- A turn of the loop over the operators. -/
theorem continues_cons {joint : Joint} {rest : List (Joint × Atom)}
    {left right result : KeyBindingContextPredicate} {behind behind' : Str} (hatom : Readable alphanumeric atom)
    (hle : minPrecedence ≤ joint.operator.precedence)
    (hrt : Parses alphanumeric (atom.text ++ (restText rest ++ stop)) (joint.operator.precedence + 1) right behind)
    (hcon : joint.operator.construct left right = .ok predicate)
    (h : Continues alphanumeric predicate behind minPrecedence result behind') :
    Continues alphanumeric left (skipWhitespace (restText ((joint, atom) :: rest) ++ stop)) minPrecedence result behind' := by
  refine Continues.step ?_ hrt hcon h
  rw [nextOperator_rest _ hatom.starts, if_pos hle]

/-- An atom, when a conjunction is read. -/
theorem parses_atom {rest : List (Joint × Atom)} (h : Stops stop) (hatom : Readable alphanumeric atom)
    (hato : ∀ x ∈ rest, Readable alphanumeric x.2) :
    Parses alphanumeric (atom.text ++ (restText rest ++ stop)) 4 atom.tree (skipWhitespace (restText rest ++ stop)) := by
  refine hatom.parses le_rfl (head?_restText rest h) (continues_of_none (nextOperator_of_lt rest h hato fun x _ => x.1.precedence_lt) _)

/-- The conjunctions behind an atom, as an operand of `||` or `>`. -/
theorem continues_and (h : Stops stop) (current : KeyBindingContextPredicate) (rest : List (Joint × Atom))
    (hato : ∀ x ∈ rest, Readable alphanumeric x.2) :
    ∃ current' rest', Continues alphanumeric current (skipWhitespace (restText rest ++ stop)) 3 current'
        (skipWhitespace (restText rest' ++ stop)) ∧
      (∀ parent alternatives, readOn parent alternatives current rest = readOn parent alternatives current' rest') ∧
      (∀ x ∈ rest'.head?, x.1 ≠ .and) ∧ rest' <:+ rest := by
  induction rest generalizing current with
  | nil => exact ⟨current, [], continues_of_none (nextOperator_of_lt [] h hato (by simp)) _, fun _ _ => rfl, by simp,
      suffix_rfl⟩
  | cons x rest ih =>
    obtain ⟨joint, atom⟩ := x
    obtain ⟨hatom, hatom'⟩ := forall_mem_cons.mp hato
    by_cases hand : joint = .and
    · subst hand
      obtain ⟨current', rest', hcon, hread, hhead, hsuf⟩ := ih _ hatom'
      exact ⟨current', rest', continues_cons hatom le_rfl (parses_atom h hatom hatom') rfl hcon, hread, hhead,
        hsuf.trans (suffix_cons _ _)⟩
    · refine ⟨current, _, continues_of_none (nextOperator_of_lt _ h hato ?_) _, fun _ _ => rfl, ?_, suffix_rfl⟩
      · rintro x hx
        obtain rfl := some.inj hx
        exact Joint.precedence_lt_of_ne hand
      · rintro x hx
        obtain rfl := some.inj hx
        exact hand

theorem readOn_of_not_and {rest : List (Joint × Atom)} (h : ∀ x ∈ rest.head?, x.1 ≠ .and)
    (parent alternatives : Option KeyBindingContextPredicate) (current : KeyBindingContextPredicate) :
    readOn parent alternatives current rest = readOn parent none (joinOr alternatives current) rest := by
  cases rest with
  | nil => rfl
  | cons x rest =>
    obtain ⟨joint, atom⟩ := x
    cases joint with
    | and => exact absurd rfl (h _ rfl)
    | _ => rfl

/-- An operand of `||`. -/
theorem parses_or {rest : List (Joint × Atom)} (h : Stops stop) (hatom : Readable alphanumeric atom)
    (hato : ∀ x ∈ rest, Readable alphanumeric x.2) :
    ∃ right rest', Parses alphanumeric (atom.text ++ (restText rest ++ stop)) 3 right (skipWhitespace (restText rest' ++ stop)) ∧
      (∀ parent left, readOn parent (some left) atom.tree rest = readOn parent none (.or left right) rest') ∧
      rest' <:+ rest := by
  obtain ⟨right, rest', hcon, hread, hhead, hsuf⟩ := continues_and h _ rest hato
  refine ⟨right, rest', hatom.parses (by decide) (head?_restText rest h) hcon, fun parent left => ?_, hsuf⟩
  rw [hread, readOn_of_not_and hhead]
  rfl

/-- The alternatives behind an atom, as an operand of `>`. -/
theorem continues_or (h : Stops stop) (current : KeyBindingContextPredicate) (rest : List (Joint × Atom))
    (hato : ∀ x ∈ rest, Readable alphanumeric x.2) :
    ∃ current' rest', Continues alphanumeric current (skipWhitespace (restText rest ++ stop)) 2 current'
        (skipWhitespace (restText rest' ++ stop)) ∧
      (∀ parent, readOn parent none current rest = readOn parent none current' rest') ∧
      (∀ x ∈ rest'.head?, x.1 = .child) ∧ rest' <:+ rest := by
  induction hlen : rest.length using Nat.strongRecOn generalizing current rest with
  | ind n ih =>
    cases rest with
    | nil => exact ⟨current, [], continues_of_none (nextOperator_of_lt [] h hato (by simp)) _, fun _ => rfl, by simp,
        suffix_rfl⟩
    | cons x rest =>
      obtain ⟨joint, atom⟩ := x
      obtain ⟨hatom, hatom'⟩ := forall_mem_cons.mp hato
      cases joint with
      | child =>
        refine ⟨current, _, continues_of_none (nextOperator_of_lt _ h hato ?_) _, fun _ => rfl, ?_, suffix_rfl⟩
        · rintro x hx
          obtain rfl := some.inj hx
          exact Nat.one_lt_two
        · rintro x hx
          obtain rfl := some.inj hx
          rfl
      | and =>
        obtain ⟨current', rest', hcon, hread, hhead, hsuf⟩ :=
          ih _ (by rw [← hlen]; exact Nat.lt_succ_self _) _ rest hatom' rfl
        exact ⟨current', rest', continues_cons hatom (by decide) (parses_atom h hatom hatom') rfl hcon, hread, hhead,
          hsuf.trans (suffix_cons _ _)⟩
      | or =>
        obtain ⟨right, rest₁, hpars, hrea₁, hsuf₁⟩ := parses_or h hatom hatom'
        obtain ⟨current', rest', hcon, hread, hhead, hsuf⟩ :=
          ih _ (by rw [← hlen]; exact Nat.lt_succ_of_le hsuf₁.length_le) _ _ (fun x hx => hatom' x (hsuf₁.subset hx)) rfl
        refine ⟨current', rest', continues_cons hatom le_rfl hpars rfl hcon, fun parent => ?_, hhead,
          hsuf.trans (hsuf₁.trans (suffix_cons _ _))⟩
        rw [← hread, ← hrea₁]
        rfl

/-- A child. -/
theorem parses_child {rest : List (Joint × Atom)} (h : Stops stop) (hatom : Readable alphanumeric atom)
    (hato : ∀ x ∈ rest, Readable alphanumeric x.2) :
    ∃ right rest', Parses alphanumeric (atom.text ++ (restText rest ++ stop)) 2 right (skipWhitespace (restText rest' ++ stop)) ∧
      (∀ left, readOn (some left) none atom.tree rest = readOn none none (.descendant left right) rest') ∧ rest' <:+ rest := by
  obtain ⟨right, rest', hcon, hread, hhead, hsuf⟩ := continues_or h _ rest hato
  refine ⟨right, rest', hatom.parses (by decide) (head?_restText rest h) hcon, fun left => ?_, hsuf⟩
  rw [hread]
  cases rest' with
  | nil => rfl
  | cons x rest' =>
    obtain ⟨joint, atom'⟩ := x
    obtain rfl : joint = .child := hhead _ rfl
    rfl

/-- All that is behind an atom. -/
theorem continues_line (h : Stops stop) (current : KeyBindingContextPredicate) (rest : List (Joint × Atom))
    (hato : ∀ x ∈ rest, Readable alphanumeric x.2) :
    Continues alphanumeric current (skipWhitespace (restText rest ++ stop)) 0 (readOn none none current rest) stop := by
  induction hlen : rest.length using Nat.strongRecOn generalizing current rest with
  | ind n ih =>
    cases rest with
    | nil =>
      rw [restText, nil_append, skipWhitespace_stop h]
      exact continues_of_none (nextOperator_stop h 0) _
    | cons x rest =>
      obtain ⟨joint, atom⟩ := x
      obtain ⟨hatom, hatom'⟩ := forall_mem_cons.mp hato
      cases joint with
      | and =>
        exact continues_cons hatom (by decide) (parses_atom h hatom hatom') rfl
          (ih _ (by rw [← hlen]; exact Nat.lt_succ_self _) _ rest hatom' rfl)
      | or =>
        obtain ⟨right, rest', hpars, hread, hsuf⟩ := parses_or h hatom hatom'
        have hrest := ih _ (by rw [← hlen]; exact Nat.lt_succ_of_le hsuf.length_le) (.or current right) _
          (fun x hx => hatom' x (hsuf.subset hx)) rfl
        rw [← hread] at hrest
        exact continues_cons hatom (by decide) hpars rfl hrest
      | child =>
        obtain ⟨right, rest', hpars, hread, hsuf⟩ := parses_child h hatom hatom'
        have hrest := ih _ (by rw [← hlen]; exact Nat.lt_succ_of_le hsuf.length_le) (.descendant current right) _
          (fun x hx => hatom' x (hsuf.subset hx)) rfl
        rw [← hread] at hrest
        exact continues_cons hatom (by decide) hpars rfl hrest

/-- The atoms of a line can be read. -/
structure Line.Readable (alphanumeric : Alphanumeric) (line : Line) : Prop where
  first : Gpui.Readable alphanumeric line.first
  rest : ∀ x ∈ line.rest, Gpui.Readable alphanumeric x.2

theorem Line.Readable.parses {line : Line} (hline : line.Readable alphanumeric) (h : Stops stop) :
    Parses alphanumeric (line.text ++ stop) 0 line.tree stop := by
  rw [Line.text, append_assoc]
  exact hline.first.parses (Nat.zero_le _) (head?_restText _ h) (continues_line h _ _ hline.rest)

theorem Line.Readable.starts {line : Line} (hline : line.Readable alphanumeric) :
    ∃ c tail, line.text = c :: tail ∧ isWhitespace c = false := by
  obtain ⟨c, tail, heq, hc⟩ := hline.first.starts
  exact ⟨c, tail ++ restText _, by rw [Line.text, heq]; rfl, hc⟩

theorem Line.Readable.join {left right : Line} (hleft : left.Readable alphanumeric) (hrt : right.Readable alphanumeric)
    (joint : Joint) : (Line.join joint left right).Readable alphanumeric := by
  refine ⟨hleft.first, fun x hx => ?_⟩
  rcases mem_append.mp hx with hx | hx
  · exact hleft.rest x hx
  · rcases mem_cons.mp hx with rfl | hx
    · exact hrt.first
    · exact hrt.rest x hx

/-- The predicates that are read at once. -/
theorem readable_of_reads (hsta : ∃ c tail, atom.text = c :: tail ∧ isWhitespace c = false)
    (h : ∀ rest : Str, (∀ c ∈ rest.head?, isNameChar alphanumeric c = false) →
      Reads alphanumeric (atom.text ++ rest) atom.tree (skipWhitespace rest)) : Readable alphanumeric atom :=
  ⟨hsta, fun _ hrest hcon => (h _ hrest).parses hcon⟩

theorem IsName.starts {name : Str} (h : IsName alphanumeric name) : ∃ c tail, name = c :: tail ∧ isWhitespace c = false := by
  have hbla (c : Char) (hc : isNameChar alphanumeric c = true) : isWhitespace c = false := by
    refine eq_false_of_ne_true fun hwhi => ?_
    have hoth : (c == '_' || c == '-' || isVimOperatorChar c) = true := by
      rw [isNameChar, isIdentifierChar, alphanumeric.whitespace c hwhi] at hc
      exact hc
    simp only [isVimOperatorChar, Bool.or_eq_true, beq_iff_eq] at hoth
    rcases hoth with (rfl | rfl) | (((rfl | rfl) | rfl) | rfl) | rfl <;> revert hwhi <;> decide
  rcases h with ⟨c, tail, rfl, hc, -⟩ | ⟨c, rfl, -, hc⟩
  · exact ⟨c, tail, rfl, hbla c (by rw [isNameChar, hc, Bool.true_or])⟩
  · exact ⟨c, [], rfl, hbla c (by rw [isNameChar, hc, Bool.or_true])⟩

/-- A text in parentheses. -/
theorem Line.Readable.parenthesis {line : Line} (hline : line.Readable alphanumeric) (rest : Str) :
    Reads alphanumeric ("(".toList ++ line.text ++ ")".toList ++ rest) line.tree (skipWhitespace rest) := by
  have hpars : Parses alphanumeric (line.text ++ ')' :: rest) 0 line.tree (')' :: rest) := hline.parses (.inr ⟨rest, rfl⟩)
  rw [← skipWhitespace_of_starts hline.starts] at hpars
  have hread := reads_parenthesis hpars
  simpa using hread

theorem Line.Readable.single (h : Gpui.Readable alphanumeric atom) : Line.Readable alphanumeric ⟨atom, []⟩ :=
  ⟨h, forall_mem_nil _⟩

theorem Line.Readable.operandLine {line : Line} (hline : line.Readable alphanumeric) (operator : LogicalOperator)
    (node : KeyBindingContextPredicate) : (operandLine operator node line).Readable alphanumeric := by
  unfold Gpui.operandLine
  split
  · exact .single (readable_of_reads ⟨'(', _, rfl, by decide⟩ fun rest _ => hline.parenthesis rest)
  · exact hline

/-- Nothing binds tighter than a negation. -/
theorem nextOperator_not (source : Str) : nextOperator source precedenceNot = none := by
  rw [nextOperator, List.findSome?_eq_none_iff]
  intro operator _
  have hlt : ¬precedenceNot ≤ operator.precedence := by cases operator <;> decide
  rw [decide_eq_false hlt, Bool.and_false, if_neg Bool.false_ne_true]

theorem parses_not {source rest : Str} (h : Reads alphanumeric source predicate rest) :
    Parses alphanumeric source precedenceNot predicate rest :=
  h.parses (continues_of_none (nextOperator_not rest) _)

theorem reads_string {name : String} (h : IsName alphanumeric name.toList) {rest : Str}
    (hrest : ∀ c ∈ rest.head?, isNameChar alphanumeric c = false) :
    Reads alphanumeric (name.toList ++ rest) (.identifier name) (skipWhitespace rest) := by
  have hread := reads_name h hrest
  rwa [String.ofList_toList] at hread

/-- A comparison of two names. -/
theorem readable_comparison {operator : Operator} {tree : KeyBindingContextPredicate} {left right : String}
    (hope : operator = .eq ∨ operator = .neq) (hleft : IsName alphanumeric left.toList)
    (hrt : IsName alphanumeric right.toList) (htree : operator.construct (.identifier left) (.identifier right) = .ok tree) :
    Readable alphanumeric ⟨left.toList ++ (' ' :: operator.text ++ " ".toList) ++ right.toList, tree⟩ := by
  obtain ⟨c, tail, heq, hc⟩ := hleft.starts
  refine ⟨⟨c, _, by rw [heq]; rfl, hc⟩, fun {minPrecedence rest result rest'} hle hrest hcon => ?_⟩
  have hskip : skipWhitespace (' ' :: operator.text ++ " ".toList ++ right.toList ++ rest) =
      operator.text ++ ' ' :: (right.toList ++ rest) := by
    refine (dropWhile_cons_of_pos (by decide)).trans ?_
    rcases hope with rfl | rfl <;> exact dropWhile_cons_of_neg (by decide)
  have hbeh : skipWhitespace (' ' :: (right.toList ++ rest)) = right.toList ++ rest :=
    (dropWhile_cons_of_pos (by decide)).trans (skipWhitespace_of_starts hrt.starts)
  have hnext : nextOperator (operator.text ++ ' ' :: (right.toList ++ rest)) minPrecedence =
      some (operator, right.toList ++ rest) := by
    rcases hope with rfl | rfl <;> simp [nextOperator, Operator.text, Operator.precedence, hle, hbeh]
  have hspa : isNameChar alphanumeric ' ' = false := by
    rw [isNameChar, isIdentifierChar_of_ascii _ ' ' (by decide)]
    decide
  have hread : Reads alphanumeric (left.toList ++ (' ' :: operator.text ++ " ".toList ++ right.toList ++ rest)) (.identifier left)
      (operator.text ++ ' ' :: (right.toList ++ rest)) := by
    rw [← hskip]
    exact reads_string hleft fun c hc => some.inj hc ▸ hspa
  have hpars : Parses alphanumeric (right.toList ++ rest) (operator.precedence + 1) (.identifier right) (skipWhitespace rest) := by
    rcases hope with rfl | rfl <;> exact parses_not (reads_string hrt hrest)
  have h := hread.parses (Continues.step hnext hpars htree hcon)
  simpa only [append_assoc] using h

theorem fmt_not (h : ∀ name, pred ≠ .identifier name) : fmt (.not pred) = "!(".toList ++ fmt pred ++ ")".toList := by
  cases pred with
  | identifier name => exact absurd rfl (h name)
  | _ => rw [fmt.eq_def]

/-- A negation of a predicate that can be read. -/
theorem readable_not (hnames : NamesRead alphanumeric pred)
    (hline : (lineOf pred).Readable alphanumeric) : Readable alphanumeric ⟨fmt (.not pred), .not (lineOf pred).tree⟩ := by
  by_cases hname : ∃ name, pred = .identifier name
  · obtain ⟨name, rfl⟩ := hname
    have htext : fmt (.not (.identifier name)) = '!' :: name.toList := by rw [fmt]
    refine readable_of_reads ⟨'!', _, htext, by decide⟩ fun rest hrest => ?_
    have hpars := parses_not (reads_string hnames hrest)
    rw [← skipWhitespace_of_starts (IsName.starts hnames)] at hpars
    rw [htext]
    exact reads_not hpars
  · have htext := fmt_not fun name heq => hname ⟨name, heq⟩
    refine readable_of_reads ⟨'!', '(' :: (fmt pred ++ ")".toList), htext, by decide⟩ fun rest _ => ?_
    rw [htext]
    refine reads_not ?_
    have hpars := parses_not (hline.parenthesis rest)
    rw [text_lineOf] at hpars
    exact hpars

/-- All that is written of a predicate can be read. -/
theorem readable_lineOf (h : NamesRead alphanumeric pred) : (lineOf pred).Readable alphanumeric := by
  induction pred with
  | identifier name => exact .single (readable_of_reads (IsName.starts h) fun rest hrest => reads_string h hrest)
  | equal left right => exact .single (readable_comparison (.inl rfl) h.1 h.2 rfl)
  | notEqual left right => exact .single (readable_comparison (.inr rfl) h.1 h.2 rfl)
  | not pred ih => exact .single (readable_not h (ih h))
  | descendant parent child ihp ihc => exact (ihp h.1).join (ihc h.2) _
  | and l r ihl ihr => exact ((ihl h.1).operandLine .and l).join ((ihr h.2).operandLine .and r) .and
  | or l r ihl ihr => exact ((ihl h.1).operandLine .or l).join ((ihr h.2).operandLine .or r) .or

/-- The text of a predicate can be parsed, and `reading` is what is parsed. -/
theorem parse_fmt (h : NamesRead alphanumeric pred) : parse alphanumeric (fmt pred) = .ok (reading pred) := by
  have hline := readable_lineOf h
  have hpars := hline.parses (.inl rfl)
  rw [← skipWhitespace_of_starts hline.starts, append_nil, text_lineOf] at hpars
  exact parse_of_parses hpars

end Reading

end Wu.Gpui
