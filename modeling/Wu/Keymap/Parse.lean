import Wu.Keymap.Superset
import Wu.Rope.Str
import Wu.Strings

/-!
# Parsing context predicates

`KeyBindingContextPredicate::parse`, a precedence climber. Every result carries that it is shorter than what was parsed, which is
why the recursion ends. `Parses` and `Continues` say that the two loops succeed, with the lemmas for one step of each.
-/

namespace Wu.Gpui

open List

open Strings (isWhitespace)

/-- `char::is_alphanumeric`: a letter or digit of ASCII, or a character outside of ASCII that Unicode calls one. -/
structure Alphanumeric where
  test : Char → Bool
  ascii : ∀ c : Char, c.toNat < 128 → test c = c.isAlphanum
  whitespace : ∀ c : Char, isWhitespace c = true → test c = false

/-- The errors of `parse`. -/
inductive ParseError where
  | unexpectedEnd
  | unexpectedCharacter (next : Char)
  | expectedParenthesis
  | operandsOfEq
  | operandsOfNeq
  deriving DecidableEq, Repr

/-- `skip_whitespace`. -/
def skipWhitespace (source : Str) : Str := source.dropWhile isWhitespace

/-- `is_identifier_char`. -/
def isIdentifierChar (alphanumeric : Alphanumeric) (c : Char) : Bool := alphanumeric.test c || c == '_' || c == '-'

/-- `is_vim_operator_char`. -/
def isVimOperatorChar (c : Char) : Bool := c == '>' || c == '<' || c == '~' || c == '"' || c == '?'

/-- What an identifier goes on with. -/
def isNameChar (alphanumeric : Alphanumeric) (c : Char) : Bool := isIdentifierChar alphanumeric c || isVimOperatorChar c

/-- The operators, in the order that they are tried in. -/
inductive Operator where
  | child
  | and
  | or
  | eq
  | neq
  deriving DecidableEq, Repr

namespace Operator

/-- The operator in the source. -/
def text : Operator → Str
  | child => ">".toList
  | and => "&&".toList
  | or => "||".toList
  | eq => "==".toList
  | neq => "!=".toList

/-- `PRECEDENCE_CHILD`, `PRECEDENCE_OR`, `PRECEDENCE_AND` and `PRECEDENCE_EQ`. -/
def precedence : Operator → Nat
  | child => 1
  | or => 2
  | and => 3
  | eq => 4
  | neq => 4

/-- `new_child`, `new_and`, `new_or`, `new_eq` and `new_neq`. -/
def construct : Operator → KeyBindingContextPredicate → KeyBindingContextPredicate → Except ParseError KeyBindingContextPredicate
  | child, left, right => .ok (.descendant left right)
  | and, left, right => .ok (.and left right)
  | or, left, right => .ok (.or left right)
  | eq, .identifier left, .identifier right => .ok (.equal left right)
  | eq, _, _ => .error .operandsOfEq
  | neq, .identifier left, .identifier right => .ok (.notEqual left right)
  | neq, _, _ => .error .operandsOfNeq

end Operator

/-- `PRECEDENCE_NOT`. -/
def precedenceNot : Nat := 5

/-- The first operator that the source starts with and that binds as tight, and what is behind it. -/
def nextOperator (source : Str) (minPrecedence : Nat) : Option (Operator × Str) :=
  ([.child, .and, .or, .eq, .neq] : List Operator).findSome? fun operator =>
    if operator.text.isPrefixOf source && decide (minPrecedence ≤ operator.precedence) then
      some (operator, skipWhitespace (source.drop operator.text.length))
    else none

theorem skipWhitespace_le (source : Str) : (skipWhitespace source).length ≤ source.length := (List.dropWhile_sublist _).length_le

theorem nextOperator_lt {source rest : Str} {minPrecedence : Nat} {operator : Operator}
    (h : nextOperator source minPrecedence = some (operator, rest)) : rest.length < source.length := by
  obtain ⟨other, -, h⟩ := List.exists_of_findSome?_eq_some h
  rw [Option.ite_none_right_eq_some, Bool.and_eq_true, List.isPrefixOf_iff_prefix] at h
  obtain ⟨⟨hpre, -⟩, h⟩ := h
  obtain ⟨-, rfl⟩ := Prod.mk.inj (Option.some.inj h)
  have hlen := hpre.length_le
  have hpos : 0 < other.text.length := by cases other <;> decide
  have hle := skipWhitespace_le (source.drop other.text.length)
  rw [List.length_drop] at hle
  omega

/-- What is left of a source when something has been parsed. -/
abbrev Rest (source : Str) := { rest : Str // rest.length < source.length }

/-- What is left of a source when nothing may have been parsed. -/
abbrev Remains (source : Str) := { rest : Str // rest.length ≤ source.length }

variable (alphanumeric : Alphanumeric)

mutual

/-- `parse_expr`. -/
def parseExpr (source : Str) (minPrecedence : Nat) : Except ParseError (KeyBindingContextPredicate × Rest source) := do
  let (predicate, rest) ← parsePrimary source
  let (predicate, remains) ← parseOperators predicate rest.1 minPrecedence
  return (predicate, ⟨remains.1, Nat.lt_of_le_of_lt remains.2 rest.2⟩)
  termination_by 2 * source.length + 1
  decreasing_by
    · omega
    · have := rest.2
      omega

/-- The loop of `parse_expr`. -/
def parseOperators (predicate : KeyBindingContextPredicate) (source : Str) (minPrecedence : Nat) :
    Except ParseError (KeyBindingContextPredicate × Remains source) :=
  match h : nextOperator source minPrecedence with
  | none => .ok (predicate, ⟨source, Nat.le_refl _⟩)
  | some (operator, behind) => do
    let (right, rest) ← parseExpr behind (operator.precedence + 1)
    let predicate ← operator.construct predicate right
    let (predicate, remains) ← parseOperators predicate rest.1 minPrecedence
    return (predicate, ⟨remains.1, (Nat.le_of_lt (Nat.lt_of_le_of_lt remains.2 rest.2)).trans (Nat.le_of_lt (nextOperator_lt h))⟩)
  termination_by 2 * source.length
  decreasing_by
    · have := nextOperator_lt h
      omega
    · have := nextOperator_lt h
      have := rest.2
      omega

/-- `parse_primary`. -/
def parsePrimary (source : Str) : Except ParseError (KeyBindingContextPredicate × Rest source) :=
  match source with
  | [] => .error .unexpectedEnd
  | next :: tail =>
    if next == '(' then do
      let (predicate, rest) ← parseExpr (skipWhitespace tail) 0
      match hrest : rest.1 with
      | ')' :: stripped =>
        return (predicate, ⟨skipWhitespace stripped, by
          have hlt := rest.2
          have hle := skipWhitespace_le stripped
          have hle' := skipWhitespace_le tail
          rw [hrest, List.length_cons] at hlt
          rw [List.length_cons]
          omega⟩)
      | _ => .error .expectedParenthesis
    else if next == '!' then do
      let (predicate, rest) ← parseExpr (skipWhitespace tail) precedenceNot
      return (.not predicate, ⟨rest.1, Nat.lt_succ_of_lt (Nat.lt_of_lt_of_le rest.2 (skipWhitespace_le tail))⟩)
    else if isIdentifierChar alphanumeric next then
      let identifier := tail.takeWhile (isNameChar alphanumeric)
      let behind := tail.dropWhile (isNameChar alphanumeric)
      .ok (.identifier (String.ofList (next :: identifier)), ⟨skipWhitespace behind,
        Nat.lt_succ_of_le ((skipWhitespace_le behind).trans (List.dropWhile_sublist _).length_le)⟩)
    else if isVimOperatorChar next then
      .ok (.identifier (String.ofList [next]), ⟨skipWhitespace tail, Nat.lt_succ_of_le (skipWhitespace_le tail)⟩)
    else .error (.unexpectedCharacter next)
  termination_by 2 * source.length
  decreasing_by
    all_goals
      have := skipWhitespace_le tail
      simp only [List.length_cons]
      omega

end

/-- `KeyBindingContextPredicate::parse`. -/
def parse (source : Str) : Except ParseError KeyBindingContextPredicate := do
  let (predicate, rest) ← parseExpr alphanumeric (skipWhitespace source) 0
  match rest.1 with
  | [] => return predicate
  | next :: _ => .error (.unexpectedCharacter next)

/-! ## Runs that succeed -/

/-- `parse_expr` succeeds. -/
def Parses (source : Str) (minPrecedence : Nat) (predicate : KeyBindingContextPredicate) (rest : Str) : Prop :=
  ∃ h, parseExpr alphanumeric source minPrecedence = .ok (predicate, ⟨rest, h⟩)

/-- The loop of `parse_expr` succeeds. -/
def Continues (predicate : KeyBindingContextPredicate) (source : Str) (minPrecedence : Nat)
    (result : KeyBindingContextPredicate) (rest : Str) : Prop :=
  ∃ h, parseOperators alphanumeric predicate source minPrecedence = .ok (result, ⟨rest, h⟩)

/-- `parse_primary` succeeds. -/
def Reads (source : Str) (predicate : KeyBindingContextPredicate) (rest : Str) : Prop :=
  ∃ h, parsePrimary alphanumeric source = .ok (predicate, ⟨rest, h⟩)

variable {alphanumeric}

section Steps

variable {source rest rest' tail behind : Str} {minPrecedence : Nat} {operator : Operator}
  {predicate right predicate' result : KeyBindingContextPredicate}

theorem Reads.parses (h : Reads alphanumeric source predicate rest)
    (hrest : Continues alphanumeric predicate rest minPrecedence result rest') :
    Parses alphanumeric source minPrecedence result rest' := by
  obtain ⟨hlt, h⟩ := h
  obtain ⟨hle, hrest⟩ := hrest
  refine ⟨Nat.lt_of_le_of_lt hle hlt, ?_⟩
  rw [parseExpr, h]
  simp only [bind, Except.bind, hrest]
  rfl

/-- The loop ends where no operator that binds as tight comes next. -/
theorem continues_of_none (h : nextOperator source minPrecedence = none) (predicate : KeyBindingContextPredicate) :
    Continues alphanumeric predicate source minPrecedence predicate source := by
  refine ⟨le_rfl, ?_⟩
  rw [parseOperators]
  split
  · rfl
  · rename_i heq
    rw [h] at heq
    cases heq

theorem Continues.step (h : nextOperator source minPrecedence = some (operator, behind))
    (hrt : Parses alphanumeric behind (operator.precedence + 1) right rest)
    (hcon : operator.construct predicate right = .ok predicate')
    (hrest : Continues alphanumeric predicate' rest minPrecedence result rest') :
    Continues alphanumeric predicate source minPrecedence result rest' := by
  obtain ⟨hlt, hrt⟩ := hrt
  obtain ⟨hle, hrest⟩ := hrest
  refine ⟨(Nat.le_of_lt (Nat.lt_of_le_of_lt hle hlt)).trans (Nat.le_of_lt (nextOperator_lt h)), ?_⟩
  rw [parseOperators]
  split
  · rename_i heq
    rw [h] at heq
    cases heq
  · rename_i heq
    rw [h] at heq
    cases heq
    simp only [bind, Except.bind, hrt, hcon, hrest]
    rfl

theorem reads_parenthesis (h : Parses alphanumeric (skipWhitespace tail) 0 predicate (')' :: rest)) :
    Reads alphanumeric ('(' :: tail) predicate (skipWhitespace rest) := by
  obtain ⟨hlt, h⟩ := h
  have hle := skipWhitespace_le rest
  have hle' := skipWhitespace_le tail
  rw [List.length_cons] at hlt
  refine ⟨by rw [List.length_cons]; omega, ?_⟩
  rw [parsePrimary, h]
  rfl

theorem reads_not (h : Parses alphanumeric (skipWhitespace tail) precedenceNot predicate rest) :
    Reads alphanumeric ('!' :: tail) (.not predicate) rest := by
  obtain ⟨hlt, h⟩ := h
  refine ⟨Nat.lt_succ_of_lt (Nat.lt_of_lt_of_le hlt (skipWhitespace_le tail)), ?_⟩
  rw [parsePrimary, h]
  rfl

theorem parse_of_parses (h : Parses alphanumeric (skipWhitespace source) 0 predicate []) :
    parse alphanumeric source = .ok predicate := by
  obtain ⟨hlt, h⟩ := h
  rw [parse, h]
  rfl

end Steps

/-- The characters that are part of no identifier, or only behind its first one. -/
theorem isIdentifierChar_of_ascii (alphanumeric : Alphanumeric) :
    ∀ c ∈ ['(', ')', '!', '&', '|', '=', '>', '<', '~', '"', '?', ' '], isIdentifierChar alphanumeric c = false := by
  intro c hc
  have hall : ['(', ')', '!', '&', '|', '=', '>', '<', '~', '"', '?', ' '].all
      (fun c => decide (c.toNat < 128 ∧ (c.isAlphanum || c == '_' || c == '-') = false)) = true := by decide
  have hasc := of_decide_eq_true (all_eq_true.mp hall c hc)
  rw [isIdentifierChar, alphanumeric.ascii c hasc.1]
  exact hasc.2

theorem not_primary_of_isNameChar {c : Char} (hc : isNameChar alphanumeric c = true) : (c == '(') = false ∧ (c == '!') = false := by
  constructor
  all_goals
    rw [beq_eq_false_iff_ne]
    rintro rfl
    rw [isNameChar, isIdentifierChar_of_ascii _ _ (by decide)] at hc
    exact absurd hc (by decide)

theorem reads_identifier {c : Char} (hc : isIdentifierChar alphanumeric c = true) (tail : Str) :
    Reads alphanumeric (c :: tail) (.identifier (String.ofList (c :: tail.takeWhile (isNameChar alphanumeric))))
      (skipWhitespace (tail.dropWhile (isNameChar alphanumeric))) := by
  have hname : isNameChar alphanumeric c = true := by rw [isNameChar, hc, Bool.true_or]
  obtain ⟨hopen, hnot⟩ := not_primary_of_isNameChar hname
  refine ⟨Nat.lt_succ_of_le ((skipWhitespace_le _).trans (dropWhile_sublist _).length_le), ?_⟩
  rw [parsePrimary, if_neg (by simp [hopen]), if_neg (by simp [hnot]), if_pos hc]

theorem reads_vimOperator {c : Char} (hc : isIdentifierChar alphanumeric c = false) (hvim : isVimOperatorChar c = true) (tail : Str) :
    Reads alphanumeric (c :: tail) (.identifier (String.ofList [c])) (skipWhitespace tail) := by
  have hname : isNameChar alphanumeric c = true := by rw [isNameChar, hvim, Bool.or_true]
  obtain ⟨hopen, hnot⟩ := not_primary_of_isNameChar hname
  refine ⟨Nat.lt_succ_of_le (skipWhitespace_le _), ?_⟩
  rw [parsePrimary, if_neg (by simp [hopen]), if_neg (by simp [hnot]), if_neg (by simp [hc]), if_pos hvim]

/-- The name of an identifier, as `parse_primary` reads it. -/
def IsName (alphanumeric : Alphanumeric) (name : Str) : Prop :=
  (∃ c rest, name = c :: rest ∧ isIdentifierChar alphanumeric c = true ∧ ∀ d ∈ rest, isNameChar alphanumeric d = true) ∨
  ∃ c, name = [c] ∧ isIdentifierChar alphanumeric c = false ∧ isVimOperatorChar c = true

theorem reads_name {name rest : Str} (h : IsName alphanumeric name) (hrest : ∀ c ∈ rest.head?, isNameChar alphanumeric c = false) :
    Reads alphanumeric (name ++ rest) (.identifier (String.ofList name)) (skipWhitespace rest) := by
  rcases h with ⟨c, tail, rfl, hc, htail⟩ | ⟨c, rfl, hc, hvim⟩
  · have hspl : (tail ++ rest).takeWhile (isNameChar alphanumeric) = tail ∧
        (tail ++ rest).dropWhile (isNameChar alphanumeric) = rest := by
      rw [takeWhile_append_of_pos htail, dropWhile_append_of_pos htail]
      cases rest with
      | nil => exact ⟨append_nil _, rfl⟩
      | cons d rest =>
        have hd : ¬isNameChar alphanumeric d = true := by simp [hrest d rfl]
        rw [takeWhile_cons_of_neg hd, dropWhile_cons_of_neg hd]
        exact ⟨append_nil _, rfl⟩
    have h := reads_identifier hc (tail ++ rest)
    rw [hspl.1, hspl.2] at h
    exact h
  · exact reads_vimOperator hc hvim rest

/-! ## What is parsed -/

/-- All names in a predicate can be read. -/
def NamesRead (alphanumeric : Alphanumeric) : KeyBindingContextPredicate → Prop
  | .identifier name => IsName alphanumeric name.toList
  | .equal left right | .notEqual left right => IsName alphanumeric left.toList ∧ IsName alphanumeric right.toList
  | .not pred => NamesRead alphanumeric pred
  | .descendant left right | .and left right | .or left right => NamesRead alphanumeric left ∧ NamesRead alphanumeric right

theorem namesRead_construct {operator : Operator} {left right predicate : KeyBindingContextPredicate}
    (hleft : NamesRead alphanumeric left) (hrt : NamesRead alphanumeric right)
    (h : operator.construct left right = .ok predicate) : NamesRead alphanumeric predicate := by
  cases operator with
  | child | and | or =>
    cases h
    exact ⟨hleft, hrt⟩
  | eq | neq =>
    cases left with
    | identifier left =>
      cases right with
      | identifier right =>
        cases h
        exact ⟨hleft, hrt⟩
      | _ => cases h
    | _ => cases h

theorem bind_eq_ok {ε α β : Type} {x : Except ε α} {f : α → Except ε β} {b : β} (h : (x >>= f) = .ok b) :
    ∃ a, x = .ok a ∧ f a = .ok b := by
  cases x with
  | error e => cases h
  | ok a => exact ⟨a, rfl, h⟩

/-- What is parsed from a source has names that can be read. -/
structure ReadsNames (alphanumeric : Alphanumeric) (source : Str) : Prop where
  primary : ∀ predicate rest, parsePrimary alphanumeric source = .ok (predicate, rest) → NamesRead alphanumeric predicate
  expr : ∀ minPrecedence predicate rest, parseExpr alphanumeric source minPrecedence = .ok (predicate, rest) →
    NamesRead alphanumeric predicate
  operators : ∀ minPrecedence left predicate rest, NamesRead alphanumeric left →
    parseOperators alphanumeric left source minPrecedence = .ok (predicate, rest) → NamesRead alphanumeric predicate

section ReadsNames

variable {source : Str}

theorem namesRead_primary (ih : ∀ shorter : Str, shorter.length < source.length → ReadsNames alphanumeric shorter)
    (predicate : KeyBindingContextPredicate) (rest : Rest source)
    (h : parsePrimary alphanumeric source = .ok (predicate, rest)) : NamesRead alphanumeric predicate := by
  cases source with
  | nil =>
    rw [parsePrimary] at h
    cases h
  | cons next tail =>
    have hshr : (skipWhitespace tail).length < (next :: tail).length := Nat.lt_succ_of_le (skipWhitespace_le tail)
    rw [parsePrimary] at h
    split_ifs at h with hopen hnot hide hvim
    · obtain ⟨⟨inner, behind⟩, hinn, h⟩ := bind_eq_ok h
      dsimp only at h
      split at h
      · cases h
        exact (ih _ hshr).expr _ _ _ hinn
      · cases h
    · obtain ⟨⟨inner, behind⟩, hinn, h⟩ := bind_eq_ok h
      cases h
      have hnames := (ih _ hshr).expr _ _ _ hinn
      exact hnames
    · cases h
      refine .inl ⟨next, _, String.toList_ofList, hide, fun d hd => ?_⟩
      exact all_eq_true.mp (all_takeWhile) d hd
    · cases h
      exact .inr ⟨next, String.toList_ofList, by simpa using hide, hvim⟩

theorem namesRead_operators (ih : ∀ shorter : Str, shorter.length < source.length → ReadsNames alphanumeric shorter)
    (minPrecedence : Nat) (left predicate : KeyBindingContextPredicate) (rest : Remains source) (hleft : NamesRead alphanumeric left)
    (h : parseOperators alphanumeric left source minPrecedence = .ok (predicate, rest)) : NamesRead alphanumeric predicate := by
  rw [parseOperators] at h
  split at h
  · cases h
    exact hleft
  · rename_i operator behind hnext
    have hshr := nextOperator_lt hnext
    obtain ⟨⟨right, rest'⟩, hrt, h⟩ := bind_eq_ok h
    obtain ⟨left', hcon, h⟩ := bind_eq_ok h
    obtain ⟨⟨result, remains⟩, hres, h⟩ := bind_eq_ok h
    cases h
    have hleft' := namesRead_construct hleft ((ih _ hshr).expr _ _ _ hrt) hcon
    exact (ih _ (rest'.2.trans hshr)).operators _ _ _ _ hleft' hres

/-- Whatever is parsed from a source has names that can be read. -/
theorem readsNames (alphanumeric : Alphanumeric) (source : Str) : ReadsNames alphanumeric source := by
  induction hlen : source.length using Nat.strongRecOn generalizing source with
  | ind n ih =>
    have ih' (shorter : Str) (hlt : shorter.length < source.length) : ReadsNames alphanumeric shorter :=
      ih _ (hlen ▸ hlt) _ rfl
    refine ⟨namesRead_primary ih', fun minPrecedence predicate rest h => ?_, namesRead_operators ih'⟩
    rw [parseExpr] at h
    obtain ⟨⟨left, behind⟩, hpri, h⟩ := bind_eq_ok h
    obtain ⟨⟨result, remains⟩, hres, h⟩ := bind_eq_ok h
    cases h
    exact (ih' _ behind.2).operators _ _ _ _ (namesRead_primary ih' _ _ hpri) hres

theorem namesRead_of_parse {predicate : KeyBindingContextPredicate} (h : parse alphanumeric source = .ok predicate) :
    NamesRead alphanumeric predicate := by
  obtain ⟨⟨result, rest⟩, hres, h⟩ := bind_eq_ok h
  dsimp only at h
  split at h
  · cases h
    exact (readsNames _ _).expr _ _ _ hres
  · cases h

end ReadsNames

end Wu.Gpui
