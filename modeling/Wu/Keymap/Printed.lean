import Wu.Keymap.Display

/-!
# What a printed predicate means

A predicate and what its text is read as evaluate alike when no descendant is an operand that should have had parentheses: one of
`&&` or `||`, or the right one of `>`. The reading associates to the left what the predicate may associate to the right.
-/

namespace Wu.Gpui

open KeyBindingContextPredicate Bool

/-- Two predicates that evaluate alike, whatever contexts there are. -/
def Alike (p q : KeyBindingContextPredicate) : Prop := ∀ contexts all, p.evalInner contexts all = q.evalInner contexts all

namespace Alike

variable {p p' q q' r : KeyBindingContextPredicate}

theorem refl (p : KeyBindingContextPredicate) : Alike p p := fun _ _ => rfl

theorem trans (h : Alike p q) (h' : Alike q r) : Alike p r := fun contexts all => (h contexts all).trans (h' _ all)

theorem eval (h : Alike p q) (stack : List KeyContext) : p.eval stack = q.eval stack := h _ _

theorem and (h : Alike p p') (h' : Alike q q') : Alike (.and p q) (.and p' q') := fun contexts all => by
  rw [evalInner, evalInner, h, h']

theorem or (h : Alike p p') (h' : Alike q q') : Alike (.or p q) (.or p' q') := fun contexts all => by
  rw [evalInner, evalInner, h, h']

theorem not (h : Alike p p') : Alike (.not p) (.not p') := fun contexts all => by
  simp only [evalInner, fun i => h _]

theorem descendant (h : Alike p p') (h' : Alike q q') : Alike (.descendant p q) (.descendant p' q') := fun contexts all => by
  simp only [evalInner, fun i => h _, fun i => h' _]

theorem and_assoc (p q r : KeyBindingContextPredicate) : Alike (.and (.and p q) r) (.and p (.and q r)) := fun contexts all => by
  simp only [evalInner, Bool.and_assoc]

theorem or_assoc (p q r : KeyBindingContextPredicate) : Alike (.or (.or p q) r) (.or p (.or q r)) := fun contexts all => by
  simp only [evalInner, Bool.or_assoc]

end Alike

/-! ## Reading on -/

/-- A conjunction with what is before, if there is something. -/
def joinAnd : Option KeyBindingContextPredicate → KeyBindingContextPredicate → KeyBindingContextPredicate
  | none, current => current
  | some conjunction, current => .and conjunction current

section ReadOn

variable {p p' : KeyBindingContextPredicate} {left left' : Option KeyBindingContextPredicate}

/-- What is before evaluates alike, if there is something. -/
inductive AlikeBefore : Option KeyBindingContextPredicate → Option KeyBindingContextPredicate → Prop
  | none : AlikeBefore none none
  | some {p p' : KeyBindingContextPredicate} (h : Alike p p') : AlikeBefore (some p) (some p')

theorem AlikeBefore.refl (left : Option KeyBindingContextPredicate) : AlikeBefore left left := by
  cases left with
  | none => exact .none
  | some p => exact .some (.refl p)

section

variable (hleft : AlikeBefore left left') (h : Alike p p')
include hleft h

theorem alike_joinAnd : Alike (joinAnd left p) (joinAnd left' p') := by
  cases hleft with
  | none => exact h
  | some hleft => exact hleft.and h

theorem alike_joinOr : Alike (joinOr left p) (joinOr left' p') := by
  cases hleft with
  | none => exact h
  | some hleft => exact hleft.or h

theorem alike_joinChild : Alike (joinChild left p) (joinChild left' p') := by
  cases hleft with
  | none => exact h
  | some hleft => exact hleft.descendant h

end

/-- The rest of a line means the same behind what means the same. -/
theorem alike_readOn {parent parent' alternatives alternatives' : Option KeyBindingContextPredicate}
    {current current' : KeyBindingContextPredicate} (rest : List (Joint × Atom)) (hpar : AlikeBefore parent parent')
    (halt : AlikeBefore alternatives alternatives') (h : Alike current current') :
    Alike (readOn parent alternatives current rest) (readOn parent' alternatives' current' rest) := by
  induction rest generalizing parent parent' alternatives alternatives' current current' with
  | nil => exact alike_joinChild hpar (alike_joinOr halt h)
  | cons x rest ih =>
    obtain ⟨joint, -⟩ := x
    cases joint with
    | and => exact ih hpar halt (h.and (.refl _))
    | or => exact ih hpar (.some (alike_joinOr halt h)) (.refl _)
    | child => exact ih (.some (alike_joinChild hpar (alike_joinOr halt h))) .none (.refl _)

end ReadOn

/-! ## Lines of predicates -/

/-- Whether the predicate is a descendant. -/
def isDescendant : KeyBindingContextPredicate → Bool
  | .descendant _ _ => true
  | _ => false

/-- No descendant is an operand of `&&` or `||`, or the right one of `>`. -/
def plain : KeyBindingContextPredicate → Bool
  | .identifier _ | .equal _ _ | .notEqual _ _ => true
  | .not pred => plain pred
  | .descendant parent child => plain parent && plain child && !isDescendant child
  | .and left right | .or left right => plain left && plain right && !isDescendant left && !isDescendant right

/-- A line that can be an operand of `&&`. -/
def MeansConjunct (line : Line) (p : KeyBindingContextPredicate) : Prop :=
  ∀ parent alternatives conjunction rest, Alike (readOn parent alternatives (joinAnd conjunction line.first.tree) (line.rest ++ rest))
      (readOn parent alternatives (joinAnd conjunction p) rest)

/-- A line that can be an operand of `||`. -/
def MeansAlternative (line : Line) (p : KeyBindingContextPredicate) : Prop :=
  ∀ parent alternatives rest, (∀ x ∈ rest.head?, x.1 ≠ Joint.and) →
    Alike (readOn parent alternatives line.first.tree (line.rest ++ rest)) (readOn parent alternatives p rest)

/-- A line that can stand on the left of `>`. -/
def Means (line : Line) (p : KeyBindingContextPredicate) : Prop :=
  ∀ rest, (∀ x ∈ rest.head?, x.1 = Joint.child) →
    Alike (readOn none none line.first.tree (line.rest ++ rest)) (readOn none none p rest)

variable {p l r : KeyBindingContextPredicate} {left right : Line}

theorem MeansConjunct.alternative {line : Line} (h : MeansConjunct line p) :
    MeansAlternative line p := fun parent alternatives rest _ => h parent alternatives none rest

theorem MeansAlternative.means {line : Line} (h : MeansAlternative line p) : Means line p :=
  fun rest hrest => h none none rest fun x hx hand => by
    have hchd := hrest x hx
    rw [hand] at hchd
    cases hchd

theorem Means.tree {line : Line} (h : Means line p) : Alike line.tree p := by
  have h := h [] (by simp)
  rw [List.append_nil] at h
  exact h

theorem meansConjunct_single {atom : Atom} (h : Alike atom.tree p) : MeansConjunct ⟨atom, []⟩ p :=
  fun parent alternatives conjunction rest =>
    alike_readOn rest (.refl parent) (.refl alternatives) (alike_joinAnd (.refl conjunction) h)

theorem MeansConjunct.join (hleft : MeansConjunct left l)
    (hrt : MeansConjunct right r) : MeansConjunct (.join .and left right) (.and l r) := by
  intro parent alternatives conjunction rest
  have hass : Alike (joinAnd (some (joinAnd conjunction l)) r) (joinAnd conjunction (.and l r)) := by
    cases conjunction with
    | none => exact .refl _
    | some before => exact .and_assoc _ l r
  rw [Line.join, List.append_assoc]
  refine (hleft _ _ _ _).trans ?_
  refine (hrt _ _ (some _) rest).trans ?_
  exact alike_readOn rest (.refl _) (.refl _) hass

theorem MeansAlternative.join (hleft : MeansAlternative left l)
    (hrt : MeansAlternative right r) : MeansAlternative (.join .or left right) (.or l r) := by
  intro parent alternatives rest hrest
  have hass : Alike (joinOr (some (joinOr alternatives l)) r) (joinOr alternatives (.or l r)) := by
    cases alternatives with
    | none => exact .refl _
    | some before => exact .or_assoc _ l r
  rw [Line.join, List.append_assoc]
  refine (hleft _ _ _ (by simp)).trans ?_
  refine (hrt _ _ rest hrest).trans ?_
  rw [readOn_of_not_and hrest, readOn_of_not_and hrest _ alternatives]
  exact alike_readOn rest (.refl _) .none hass

theorem Means.join (hleft : Means left l) (hrt : MeansAlternative right r) : Means (.join .child left right) (.descendant l r) := by
  intro rest hrest
  have hnot : ∀ x ∈ rest.head?, x.1 ≠ Joint.and := fun x hx hand => by
    have hchd := hrest x hx
    rw [hand] at hchd
    cases hchd
  rw [Line.join, List.append_assoc]
  refine (hleft _ (by simp)).trans ?_
  refine (hrt _ none rest hnot).trans ?_
  cases rest with
  | nil => exact .refl _
  | cons x rest =>
    obtain ⟨joint, atom⟩ := x
    obtain rfl : joint = .child := hrest _ rfl
    exact .refl _

/-- What a predicate's line can stand for: a descendant has to be the whole line or on the left of `>`, and an alternative is no
operand of `&&`. -/
structure MeansPlainly (line : Line) (p : KeyBindingContextPredicate) : Prop where
  conjunct : isDescendant p = false → p.isOr = false → MeansConjunct line p
  alternative : isDescendant p = false → MeansAlternative line p
  means : Means line p

theorem MeansPlainly.of_conjunct {line : Line} (h : MeansConjunct line p) : MeansPlainly line p :=
  ⟨fun _ _ => h, fun _ => h.alternative, h.alternative.means⟩

/-- An operand of `&&`, with parentheses or without. -/
theorem MeansPlainly.operand_and {line : Line} (h : MeansPlainly line p)
    (hdes : isDescendant p = false) : MeansConjunct (operandLine .and p line) p := by
  unfold operandLine
  split
  · exact meansConjunct_single h.means.tree
  · rename_i hpar
    refine h.conjunct hdes ?_
    cases p with
    | or l r => exact absurd rfl hpar
    | _ => rfl

/-- An operand of `||`, with parentheses or without. -/
theorem MeansPlainly.operand_or {line : Line} (h : MeansPlainly line p)
    (hdes : isDescendant p = false) : MeansAlternative (operandLine .or p line) p := by
  unfold operandLine
  split
  · exact (meansConjunct_single h.means.tree).alternative
  · exact h.alternative hdes

theorem meansPlainly_lineOf (h : plain p = true) : MeansPlainly (lineOf p) p := by
  induction p with
  | identifier | equal | notEqual => exact .of_conjunct (meansConjunct_single (.refl _))
  | not pred ih => exact .of_conjunct (meansConjunct_single (ih h).means.tree.not)
  | descendant parent child ihp ihc =>
    simp only [plain, and_eq_true, not_eq_true'] at h
    obtain ⟨⟨hpar, hchd⟩, hdes⟩ := h
    exact ⟨fun hfal => (by cases hfal), fun hfal => (by cases hfal), (ihp hpar).means.join ((ihc hchd).alternative hdes)⟩
  | and l r ihl ihr =>
    simp only [plain, and_eq_true, not_eq_true'] at h
    obtain ⟨⟨⟨hl, hr⟩, hl'⟩, hr'⟩ := h
    exact .of_conjunct (((ihl hl).operand_and hl').join ((ihr hr).operand_and hr'))
  | or l r ihl ihr =>
    simp only [plain, and_eq_true, not_eq_true'] at h
    obtain ⟨⟨⟨hl, hr⟩, hl'⟩, hr'⟩ := h
    have halt := ((ihl hl).operand_or hl').join ((ihr hr).operand_or hr')
    exact ⟨fun _ hfal => (by cases hfal), fun _ => halt, halt.means⟩

/-- The reading of a plain predicate evaluates like it. -/
theorem alike_reading (h : plain p = true) : Alike (reading p) p :=
  (meansPlainly_lineOf h).means.tree

/-- The text of a predicate can be parsed again, and what is parsed evaluates like the predicate when no descendant is an operand
of `&&` or `||`, or the right one of `>`. -/
theorem display_keeps_meaning (alphanumeric : Alphanumeric) (source : Str) (p : KeyBindingContextPredicate)
    (h : parse alphanumeric source = .ok p) :
    parse alphanumeric (fmt p) = .ok (reading p) ∧ (plain p = true → ∀ stack, (reading p).eval stack = p.eval stack) :=
  ⟨parse_fmt (namesRead_of_parse h), fun hplain stack => (alike_reading hplain).eval stack⟩

/-- Where only the characters of ASCII are letters and digits. -/
def asciiAlphanumeric : Alphanumeric where
  test := Char.isAlphanum
  ascii _ _ := rfl
  whitespace c h := by
    simp only [Strings.isWhitespace, or_eq_true, and_eq_true, decide_eq_true_eq, beq_iff_eq] at h
    have hval : c.val.toNat = c.toNat := rfl
    have hupper : ¬(65 ≤ c.toNat ∧ c.toNat ≤ 90) := by omega
    have hlower : ¬(97 ≤ c.toNat ∧ c.toNat ≤ 122) := by omega
    have hdigit : ¬(48 ≤ c.toNat ∧ c.toNat ≤ 57) := by omega
    delta Char.isAlphanum Char.isAlpha Char.isUpper Char.isLower Char.isDigit
    simp only [UInt32.le_iff_toNat_le, hval]
    simp only [or_eq_false_iff, ← decide_and, decide_eq_false_iff_not]
    exact ⟨⟨hupper, hlower⟩, hdigit⟩

theorem display_keeps_meaning_or :
    parse asciiAlphanumeric (fmt (.or (.identifier "a") (.and (.identifier "b") (.identifier "c")))) =
      .ok (.or (.identifier "a") (.and (.identifier "b") (.identifier "c"))) :=
  (display_keeps_meaning asciiAlphanumeric "a || b && c".toList _ (by decide +kernel)).1

/-- `(a > b) || c` is printed without parentheses, and read as `a > (b || c)`. -/
theorem display_drops_parentheses :
    parse asciiAlphanumeric "(a > b) || c".toList =
      .ok (.or (.descendant (.identifier "a") (.identifier "b")) (.identifier "c")) ∧
    parse asciiAlphanumeric (fmt (.or (.descendant (.identifier "a") (.identifier "b")) (.identifier "c"))) =
      .ok (.descendant (.identifier "a") (.or (.identifier "b") (.identifier "c"))) ∧
    eval (.or (.descendant (.identifier "a") (.identifier "b")) (.identifier "c")) [⟨[⟨"c", none⟩]⟩] = true ∧
    eval (.descendant (.identifier "a") (.or (.identifier "b") (.identifier "c"))) [⟨[⟨"c", none⟩]⟩] = false := by
  refine ⟨by decide +kernel, by decide +kernel, by decide, by decide⟩

end Wu.Gpui
