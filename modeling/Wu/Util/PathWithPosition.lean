import Wu.Regex
import Wu.StdPath

/-!
# Paths with a position

A row and a column may follow a path, behind colons or in parentheses. They are found by a regular expression in the last component,
and what it takes for the file name is then looked for in the whole text.
-/

namespace Wu.Util

open List Regex CharLists StdPath

open Strings (isWhitespace)
open CharLists (trimStart trimEnd trim splitOnce rsplitOnce rsplitn parseU32)
open StdPath (fileName lastSegment IsDirectory)

/-! ## The expression for a position -/

section Regex

variable (digit : Char → Bool)

def isColon (c : Char) : Bool := c == ':'

def isNoParen (c : Char) : Bool := c != '('

/-- `(\d+)` -/
def number : Regex := .group (.plus true digit)

/-- `\((\d+)[,:](\d+)\)` -/
def rowAndColumn : Regex :=
  .seq (.char '(') (.seq (number digit) (.seq (.set fun c => c == ',' || c == ':') (.seq (number digit) (.char ')'))))

/-- `\((\d+)\)()` -/
def rowOnly : Regex := .seq (.char '(') (.seq (number digit) (.seq (.char ')') (.group .empty)))

/-- `\:*$` -/
def colonsToEnd : Regex := .seq (.many true isColon) .atEnd

/-- The first alternative: a file name, a colon and a position in parentheses. -/
def colonAndParens : Regex :=
  .seq (.group (.plus true isNoParen)) (.seq (.char ':') (.alt (rowAndColumn digit) (rowOnly digit)))

/-- The second alternative: a file name, a position in parentheses, and nothing else but colons. -/
def parens : Regex :=
  .seq (.group (.plus true isNoParen)) (.seq (.alt (rowAndColumn digit) (rowOnly digit)) colonsToEnd)

/-- `\:+(\d+)\:(\d+)\:*$` -/
def colonRowColumn : Regex :=
  .seq (.plus true isColon) (.seq (number digit) (.seq (.char ':') (.seq (number digit) colonsToEnd)))

/-- `\:+(\d+)\:*()$` -/
def colonRow : Regex :=
  .seq (.plus true isColon) (.seq (number digit) (.seq (.many true isColon) (.seq (.group .empty) .atEnd)))

/-- `\:+()()$` -/
def colonsOnly : Regex :=
  .seq (.plus true isColon) (.seq (.group .empty) (.seq (.group .empty) .atEnd))

/-- The third alternative: as short a file name as can be, and a position behind colons. -/
def behindColons : Regex :=
  .seq (.group (.plus false fun _ => true)) (.alt (colonRowColumn digit) (.alt (colonRow digit) colonsOnly))

/-- `ROW_COL_CAPTURE_REGEX`. -/
def rowColCaptureRegex : Regex := .alt (colonAndParens digit) (.alt (parens digit) (behindColons digit))

end Regex

/-! ## What the expression finds -/

section Found

variable {R : Type} {digit : Char → Bool} {next : List Char → List (List Char) → Option R}

/-- What a colon has to begin is not found at another character. -/
theorem exec_colons_of_ne {c : Char} (hc : c ≠ ':') (behind : Regex) (text : List Char) :
    (seq (.plus true isColon) behind).exec (c :: text) next = none :=
  if_neg fun h => hc (beq_iff_eq.mp h)

/-- A single colon, and what is behind it. -/
theorem exec_colon {text : List Char} (h : ':' ∉ text.head?) (behind : Regex) :
    (seq (.plus true isColon) behind).exec (':' :: text) next = behind.exec text next := by
  have hrun : run true isColon (fun rest => behind.exec rest next) text = behind.exec text next := by
    have hstop : ∀ c ∈ text.head?, isColon c = false := fun c hc => beq_eq_false_iff_ne.mpr fun heq => h (heq ▸ hc)
    have htak : ∀ c ∈ ([] : List Char), isColon c := fun _ hc => by cases hc
    exact run_append true htak (fun _ hc => by cases hc) hstop
  exact (if_pos (c := isColon ':' = true) (e := (none : Option R)) rfl).trans hrun

theorem exec_colonsToEnd (trailing : Nat) : colonsToEnd.exec (replicate trailing ':') next = next [] [] := by
  have hrun : run true isColon (fun rest => exec .atEnd rest next) (replicate trailing ':' ++ []) =
      exec .atEnd [] next :=
    run_append true (fun c hc => by rw [eq_of_mem_replicate hc]; rfl) (fun _ _ _ => rfl) fun _ hc => by cases hc
  rw [append_nil] at hrun
  exact hrun

theorem exec_colonsToEnd_of_ne {c : Char} (hc : c ≠ ':') (text : List Char) : colonsToEnd.exec (c :: text) next = none :=
  if_neg fun h => hc (beq_iff_eq.mp h)

/-- What `\d` matches: of the characters of ASCII these are the digits, of the other ones those that Unicode calls digits. -/
structure IsDigitClass (digit : Char → Bool) : Prop where
  ascii : ∀ c : Char, c.toNat < 128 → digit c = c.isDigit

theorem IsDigitClass.of_mem (hdigit : IsDigitClass digit) {n : Nat} {c : Char} (hc : c ∈ Nat.toDigits 10 n) : digit c := by
  have hd := Nat.isDigit_of_mem_toDigits (by decide) (by decide) hc
  have hle : c.toNat ≤ 57 := (Char.isDigit_iff_toNat.mp hd).2
  rw [hdigit.ascii c (by omega)]
  exact hd

/-- A digit that is printed is none of the characters around numbers. -/
theorem ne_of_mem_toDigits {n : Nat} {c x : Char} (hc : c ∈ Nat.toDigits 10 n) (hx : x.isDigit = false) : c ≠ x := by
  rintro rfl
  rw [Nat.isDigit_of_mem_toDigits (by decide) (by decide) hc] at hx
  cases hx

/-- A number, when what is behind it cannot begin with a digit. -/
theorem exec_number (hdigit : IsDigitClass digit) (n : Nat) {rest : List Char}
    (hnext : ∀ c ∈ Nat.toDigits 10 n, ∀ text captured, next (c :: text) captured = none)
    (hstop : ∀ c ∈ rest.head?, c.toNat < 128 ∧ c.isDigit = false) :
    (number digit).exec (Nat.toDigits 10 n ++ rest) next = next rest [Nat.toDigits 10 n] := by
  cases h : Nat.toDigits 10 n with
  | nil => exact absurd h Nat.toDigits_ne_nil
  | cons c taken =>
    rw [h] at hnext
    have hmem : ∀ x ∈ c :: taken, digit x := fun x hx => hdigit.of_mem (h ▸ hx)
    refine exec_group_plus true (hmem c mem_cons_self) (fun x hx => hmem x (mem_cons_of_mem c hx))
      (fun x hx => hnext x (mem_cons_of_mem c hx)) fun x hx => ?_
    rw [hdigit.ascii x (hstop x hx).1, (hstop x hx).2]

/-- A position in parentheses. -/
def parenSuffix (row : Nat) : Option Nat → List Char
  | some column => '(' :: (Nat.toDigits 10 row ++ ',' :: (Nat.toDigits 10 column ++ [')']))
  | none => '(' :: (Nat.toDigits 10 row ++ [')'])

/-- A position behind colons. -/
def colonSuffix (row : Nat) : Option Nat → List Char
  | some column => ':' :: (Nat.toDigits 10 row ++ ':' :: Nat.toDigits 10 column)
  | none => ':' :: Nat.toDigits 10 row

/-- The text of a column; there is none where there is no column. -/
def columnText : Option Nat → List Char
  | some column => Nat.toDigits 10 column
  | none => []

theorem exec_rowAndColumn (hdigit : IsDigitClass digit) (row column : Nat) (text : List Char) :
    (rowAndColumn digit).exec (parenSuffix row (some column) ++ text) next =
      next text [Nat.toDigits 10 row, Nat.toDigits 10 column] := by
  have hcom : ∀ c ∈ Nat.toDigits 10 row, (c == ',' || c == ':') = false := fun c hc => by
    rw [beq_eq_false_iff_ne.mpr (ne_of_mem_toDigits hc (by decide)), beq_eq_false_iff_ne.mpr (ne_of_mem_toDigits hc (by decide))]
    rfl
  rw [parenSuffix, cons_append, append_assoc, cons_append, append_assoc, rowAndColumn, exec_seq,
    exec_char_self, exec_seq, exec_number hdigit]
  · rw [exec_seq, exec_set_cons, if_pos (by decide), exec_seq, exec_number hdigit]
    · exact exec_char_self _ ')' text
    · exact fun c hc text _ => exec_char_of_ne _ (ne_of_mem_toDigits hc (by decide)) text
    · rintro c ⟨⟩
      decide
  · exact fun c hc text _ => exec_seq_set_of_false _ (hcom c hc) _ text
  · rintro c ⟨⟩
    decide

theorem exec_rowAndColumn_rowOnly (hdigit : IsDigitClass digit) (row : Nat) (text : List Char) :
    (rowAndColumn digit).exec (parenSuffix row none ++ text) next = none := by
  have hcom : ∀ c ∈ Nat.toDigits 10 row, (c == ',' || c == ':') = false := fun c hc => by
    rw [beq_eq_false_iff_ne.mpr (ne_of_mem_toDigits hc (by decide)), beq_eq_false_iff_ne.mpr (ne_of_mem_toDigits hc (by decide))]
    rfl
  rw [parenSuffix, cons_append, append_assoc, rowAndColumn, exec_seq, exec_char_self, exec_seq, exec_number hdigit]
  · exact exec_seq_set_of_false _ (by decide) _ _
  · exact fun c hc text _ => exec_seq_set_of_false _ (hcom c hc) _ text
  · rintro c ⟨⟩
    decide

theorem exec_rowOnly (hdigit : IsDigitClass digit) (row : Nat) (text : List Char) :
    (rowOnly digit).exec (parenSuffix row none ++ text) next = next text [Nat.toDigits 10 row, []] := by
  rw [parenSuffix, cons_append, append_assoc, rowOnly, exec_seq, exec_char_self, exec_seq, exec_number hdigit]
  · have hemp : text.take (text.length - text.length) = [] := by rw [Nat.sub_self, take_zero]
    rw [exec_seq, singleton_append, exec_char_self, exec_group, exec_empty, hemp]
    rfl
  · exact fun c hc text _ => exec_seq_char_of_ne _ (ne_of_mem_toDigits hc (by decide)) _ text
  · rintro c ⟨⟩
    decide

/-- A position in parentheses, whichever of the two forms it has. -/
theorem exec_inParens (hdigit : IsDigitClass digit) (row : Nat) (column : Option Nat) {text : List Char} {found : R}
    (hfnd : next text [Nat.toDigits 10 row, columnText column] = some found) :
    (alt (rowAndColumn digit) (rowOnly digit)).exec (parenSuffix row column ++ text) next = some found := by
  cases column with
  | some column =>
    rw [columnText] at hfnd
    rw [exec_alt, exec_rowAndColumn hdigit, hfnd, Option.some_or]
  | none =>
    rw [columnText] at hfnd
    rw [exec_alt, exec_rowAndColumn_rowOnly hdigit, exec_rowOnly hdigit, hfnd, Option.none_or]

theorem exec_inParens_of_ne {c : Char} (hc : c ≠ '(') (text : List Char) :
    (alt (rowAndColumn digit) (rowOnly digit)).exec (c :: text) next = none := by
  rw [exec_alt, rowAndColumn, exec_seq_char_of_ne next hc, rowOnly, exec_seq_char_of_ne next hc, Option.none_or]

/-- Nothing but colons behind a number. -/
theorem exec_colonsToEnd_of_digit {n : Nat} {c : Char} (hc : c ∈ Nat.toDigits 10 n) (text : List Char) :
    colonsToEnd.exec (c :: text) next = none :=
  exec_colonsToEnd_of_ne (ne_of_mem_toDigits hc (by decide)) text

theorem head?_replicate_colon {trailing : Nat} {c : Char} (hc : c ∈ (replicate trailing ':').head?) :
    c.toNat < 128 ∧ c.isDigit = false := by
  cases trailing with
  | zero => cases hc
  | succ trailing =>
    cases hc
    decide

theorem colon_notMem_head? (n : Nat) (rest : List Char) : ':' ∉ (Nat.toDigits 10 n ++ rest).head? := by
  cases h : Nat.toDigits 10 n with
  | nil => exact absurd h Nat.toDigits_ne_nil
  | cons c digits =>
    rintro ⟨⟩
    exact absurd (ne_of_mem_toDigits (h ▸ mem_cons_self) (by decide)) (· rfl)

theorem exec_colonRowColumn (hdigit : IsDigitClass digit) (row column trailing : Nat) :
    (colonRowColumn digit).exec (colonSuffix row (some column) ++ replicate trailing ':') next =
      next [] [Nat.toDigits 10 row, Nat.toDigits 10 column] := by
  rw [colonSuffix, cons_append, append_assoc, cons_append, colonRowColumn,
    exec_colon (colon_notMem_head? row _), exec_seq, exec_number hdigit]
  · rw [exec_seq, exec_char_self, exec_seq, exec_number hdigit]
    · rw [exec_colonsToEnd]
      rfl
    · exact fun c hc text _ => exec_colonsToEnd_of_digit hc text
    · exact fun c hc => head?_replicate_colon hc
  · exact fun c hc text _ => exec_seq_char_of_ne _ (ne_of_mem_toDigits hc (by decide)) _ text
  · rintro c ⟨⟩
    decide

/-- A row alone is not followed by a column. -/
theorem exec_colonRowColumn_row (hdigit : IsDigitClass digit) (row trailing : Nat) :
    (colonRowColumn digit).exec (colonSuffix row none ++ replicate trailing ':') next = none := by
  rw [colonSuffix, cons_append, colonRowColumn, exec_colon (colon_notMem_head? row _), exec_seq, exec_number hdigit]
  · cases trailing with
    | zero => rfl
    | succ trailing =>
      cases trailing with
      | zero => rfl
      | succ trailing =>
        have hcol : digit ':' = false := by
          rw [hdigit.ascii ':' (by decide)]
          rfl
        exact if_neg (by rw [hcol]; exact Bool.false_ne_true)
  · exact fun c hc text _ => exec_seq_char_of_ne _ (ne_of_mem_toDigits hc (by decide)) _ text
  · exact fun c hc => head?_replicate_colon hc

theorem exec_colonRow (hdigit : IsDigitClass digit) (row trailing : Nat) :
    (colonRow digit).exec (colonSuffix row none ++ replicate trailing ':') next = next [] [Nat.toDigits 10 row, []] := by
  rw [colonSuffix, cons_append, colonRow, exec_colon (colon_notMem_head? row _), exec_seq, exec_number hdigit]
  · have hrun : run true isColon
        (fun rest => exec (.seq (.group .empty) .atEnd) rest fun rest captured => next rest (Nat.toDigits 10 row :: captured))
        (replicate trailing ':' ++ []) = next [] [Nat.toDigits 10 row, []] :=
      run_append true (fun c hc => by rw [eq_of_mem_replicate hc]; rfl) (fun _ _ _ => rfl) fun _ hc => by cases hc
    rw [append_nil] at hrun
    exact hrun
  · exact fun c hc text _ => if_neg fun h => ne_of_mem_toDigits hc (by decide) (beq_iff_eq.mp h)
  · exact fun c hc => head?_replicate_colon hc

/-- A position behind colons, whichever of the two forms it has. -/
theorem exec_position (hdigit : IsDigitClass digit) (row : Nat) (column : Option Nat) (trailing : Nat) {found : R}
    (hfnd : next [] [Nat.toDigits 10 row, columnText column] = some found) :
    (alt (colonRowColumn digit) (.alt (colonRow digit) colonsOnly)).exec
      (colonSuffix row column ++ replicate trailing ':') next = some found := by
  cases column with
  | some column =>
    rw [columnText] at hfnd
    rw [exec_alt, exec_colonRowColumn hdigit, hfnd, Option.some_or]
  | none =>
    rw [columnText] at hfnd
    rw [exec_alt, exec_colonRowColumn_row hdigit, Option.none_or, exec_alt, exec_colonRow hdigit, hfnd, Option.some_or]

theorem exec_position_of_ne {c : Char} (hc : c ≠ ':') (text : List Char) :
    (alt (colonRowColumn digit) (.alt (colonRow digit) colonsOnly)).exec (c :: text) next = none := by
  rw [exec_alt, colonRowColumn, exec_colons_of_ne hc, Option.none_or, exec_alt, colonRow, exec_colons_of_ne hc,
    Option.none_or, colonsOnly, exec_colons_of_ne hc]

/-! ## What is captured -/

/-- There is no position in a text without a colon and a parenthesis. -/
theorem captures_eq_none {text : List Char} (hcolo : ':' ∉ text) (hpar : '(' ∉ text) :
    (rowColCaptureRegex digit).captures text = none := by
  have hinP : Regex.Needs (fun c => c = ':' ∨ c = '(') (.alt (rowAndColumn digit) (rowOnly digit)) :=
    .alt (.first _ (.set fun _ h => .inr (beq_iff_eq.mp h))) (.first _ (.set fun _ h => .inr (beq_iff_eq.mp h)))
  have hcol : ∀ behind : Regex, Regex.Needs (fun c => c = ':' ∨ c = '(') (.seq (.plus true isColon) behind) := fun behind =>
    .first _ (.first _ (.set fun _ h => .inl (beq_iff_eq.mp h)))
  have hneed : Regex.Needs (fun c => c = ':' ∨ c = '(') (rowColCaptureRegex digit) :=
    .alt (.second _ (.second _ hinP)) (.alt (.second _ (.first _ hinP)) (.second _ (.alt (hcol _) (.alt (hcol _) (hcol _)))))
  exact hneed.captures_eq_none fun c hc h => h.elim (fun h => hcolo (h ▸ hc)) fun h => hpar (h ▸ hc)

theorem isNoParen_of_notMem {name : List Char} (h : '(' ∉ name) : ∀ c ∈ name, isNoParen c := by
  rintro c hc
  exact bne_iff_ne.mpr fun heq => h (heq ▸ hc)

/-- A file name that is followed by a parenthesis. -/
theorem exec_nameBeforeParen {c : Char} {name rest : List Char} (hpar : '(' ∉ c :: name)
    (hnext : ∀ c ∈ name, ∀ text captured, next (c :: text) captured = none) :
    (group (.plus true isNoParen)).exec (c :: name ++ '(' :: rest) next = next ('(' :: rest) [c :: name] := by
  have hmem := isNoParen_of_notMem hpar
  refine exec_group_plus true (hmem c mem_cons_self) (fun x hx => hmem x (mem_cons_of_mem c hx)) hnext ?_
  rintro x ⟨⟩
  rfl

theorem exists_parenSuffix (row : Nat) (column : Option Nat) (text : List Char) :
    ∃ rest, parenSuffix row column ++ text = '(' :: rest := by
  cases column with
  | some column => exact ⟨_, rfl⟩
  | none => exact ⟨_, rfl⟩

/-- A file name and a position behind it in parentheses. -/
theorem captures_parens (hdigit : IsDigitClass digit) {c : Char} {name : List Char} (hcol : ':' ∉ c :: name)
    (hpar : '(' ∉ c :: name) (row : Nat) (column : Option Nat) (trailing : Nat) :
    (rowColCaptureRegex digit).captures (c :: name ++ (parenSuffix row column ++ replicate trailing ':')) =
      some [c :: name, Nat.toDigits 10 row, columnText column] := by
  have hname : ∀ x ∈ name, x ≠ ':' ∧ x ≠ '(' := fun x hx =>
    ⟨fun h => hcol (h ▸ mem_cons_of_mem c hx), fun h => hpar (h ▸ mem_cons_of_mem c hx)⟩
  obtain ⟨rest, hrest⟩ := exists_parenSuffix row _ _
  refine captures_of_exec ?_
  have hfst : (colonAndParens digit).exec (c :: name ++ (parenSuffix row column ++ replicate trailing ':'))
      (fun _ captured => some captured) = none := by
    rw [hrest, colonAndParens, exec_seq, exec_nameBeforeParen hpar]
    · exact exec_seq_char_of_ne _ (by decide) _ _
    · exact fun x hx text _ => exec_seq_char_of_ne _ (hname x hx).1 _ text
  have hsec : (parens digit).exec (c :: name ++ (parenSuffix row column ++ replicate trailing ':'))
      (fun _ captured => some captured) = some [c :: name, Nat.toDigits 10 row, columnText column] := by
    rw [hrest, parens, exec_seq, exec_nameBeforeParen hpar]
    · rw [← hrest]
      refine exec_inParens hdigit row _ ?_
      rw [exec_colonsToEnd]
      rfl
    · exact fun x hx text _ => exec_inParens_of_ne (hname x hx).2 text
  rw [rowColCaptureRegex, exec_alt, hfst, Option.none_or, exec_alt, hsec, Option.some_or]

theorem paren_notMem_colonSuffix (row : Nat) (column : Option Nat) (trailing : Nat) :
    '(' ∉ colonSuffix row column ++ replicate trailing ':' := by
  have hdig : ∀ n, '(' ∉ Nat.toDigits 10 n := fun n h => ne_of_mem_toDigits h (by decide) rfl
  have htra : '(' ∉ replicate trailing ':' := fun h => absurd (eq_of_mem_replicate h) (by decide)
  cases column with
  | some column =>
    rw [colonSuffix, mem_append, mem_cons, mem_append, mem_cons]
    rintro ((h | h | h | h) | h)
    · exact absurd h (by decide)
    · exact hdig row h
    · exact absurd h (by decide)
    · exact hdig _ h
    · exact htra h
  | none =>
    rw [colonSuffix, mem_append, mem_cons]
    rintro ((h | h) | h)
    · exact absurd h (by decide)
    · exact hdig row h
    · exact htra h

/-- A file name and a position behind it after a colon. -/
theorem captures_colons (hdigit : IsDigitClass digit) {c : Char} {name : List Char} (hcol : ':' ∉ name)
    (hpar : '(' ∉ c :: name) (row : Nat) (column : Option Nat) (trailing : Nat) :
    (rowColCaptureRegex digit).captures (c :: name ++ (colonSuffix row column ++ replicate trailing ':')) =
      some [c :: name, Nat.toDigits 10 row, columnText column] := by
  have htext : ∀ x ∈ c :: name ++ (colonSuffix row column ++ replicate trailing ':'), ¬x = '(' := by
    rintro x hx rfl
    exact (mem_append.mp hx).elim hpar (paren_notMem_colonSuffix row _ _)
  have hinP : Regex.Needs (· = '(') (.alt (rowAndColumn digit) (rowOnly digit)) :=
    .alt (.first _ (Regex.Needs.char '(')) (.first _ (Regex.Needs.char '('))
  have hfst : Regex.Needs (· = '(') (colonAndParens digit) := .second _ (.second _ hinP)
  have hsec : Regex.Needs (· = '(') (parens digit) := .second _ (.first _ hinP)
  refine captures_of_exec ?_
  rw [rowColCaptureRegex, exec_alt, hfst.exec_eq_none htext, Option.none_or, exec_alt,
    hsec.exec_eq_none htext, Option.none_or, behindColons, exec_seq]
  refine exec_group_lazy rfl (fun _ _ => rfl) (fun x hx text _ => ?_) (exec_position hdigit row _ _ rfl)
  exact exec_position_of_ne (fun h => hcol (h ▸ hx)) text

end Found

/-! ## Parsing -/

structure PathWithPosition where
  path : List Char
  row : Option Nat
  column : Option Nat
  deriving DecidableEq, Repr

namespace PathWithPosition

/-- What is parsed where the expression finds nothing: of the last two pieces between colons the first may be a row, and the second
a column. Nothing is returned where the source would panic. -/
def parseParts (s : List Char) : Option PathWithPosition :=
  let pushAll (path : List Char) (parts : List (List Char)) := parts.foldl (fun path part => path ++ ':' :: part) path
  match (rsplitn 3 ':' s).reverse with
  | [] => none
  | [path] => some ⟨path, none, none⟩
  | path :: maybeRow :: parts =>
    match parseU32 maybeRow with
    | none => some ⟨pushAll path (maybeRow :: parts), none, none⟩
    | some row =>
      match parts with
      | [] => some ⟨path, some row, none⟩
      -- The piece is taken from the iterator also when it is no column.
      | maybeColumn :: rest => some ⟨pushAll path rest, some row, parseU32 maybeColumn⟩

/-- `PathWithPosition::parse_str`. -/
def parseStr (digit : Char → Bool) (s : List Char) : Option PathWithPosition :=
  let trimmed := trim s
  let maybeFileName := (fileName trimmed).getD []
  if maybeFileName = [] then some ⟨s, none, none⟩
  else
    match (rowColCaptureRegex digit).captures maybeFileName with
    | some [name, maybeRow, maybeColumn] => do
      let (_, suffix) ← splitOnce name trimmed
      some ⟨trimmed.take (trimmed.length - suffix.length), parseU32 maybeRow, parseU32 maybeColumn⟩
    | some _ => none
    | none => parseParts s

/-- `PathWithPosition::to_string`. -/
def toString (position : PathWithPosition) (pathToString : List Char → List Char) : List Char :=
  let path := pathToString position.path
  match position.row, position.column with
  | some row, some column => path ++ ':' :: Nat.toDigits 10 row ++ ':' :: Nat.toDigits 10 column
  | some row, none => path ++ ':' :: Nat.toDigits 10 row
  | none, _ => path

example : parseStr Char.isDigit "src/a.rs:22:5:".toList = some ⟨"src/a.rs".toList, some 22, some 5⟩ := by decide +kernel

example : parseStr Char.isDigit "src/a.rs:22:in".toList = some ⟨"src/a.rs".toList, some 22, none⟩ := by decide +kernel

example : parseStr Char.isDigit "a:5:x/b".toList = some ⟨"a".toList, some 5, none⟩ := by decide +kernel

/-! ## What is parsed -/

/-- White space is cut off in front of a directory. -/
theorem exists_trimStart_directory {directory segment : List Char} (hdir : IsDirectory directory)
    (hspa : ∀ c ∈ segment.head?, isWhitespace c = false) :
    ∃ trimmed, IsDirectory trimmed ∧ trimStart (directory ++ segment) = trimmed ++ segment := by
  cases hdir with
  | nil => exact ⟨[], .nil, trimStart_of_head hspa⟩
  | snoc front =>
    refine ⟨trimStart front ++ ['/'], .snoc _, ?_⟩
    rw [append_assoc, append_assoc]
    exact trimStart_append_cons (by decide) _ _

theorem trim_append {path suffix : List Char} (hpath : ∃ c ∈ path, isWhitespace c = false) (hsuf : suffix ≠ [])
    (hend : ∀ c ∈ suffix.getLast?, isWhitespace c = false) : trim (path ++ suffix) = trimStart path ++ suffix := by
  rw [trim, trimStart_append hpath]
  refine trimEnd_of_getLast ?_
  rw [getLast?_append_of_ne_nil _ hsuf]
  exact hend

/-- Where the position behind a path is found in its last segment, the path that is returned goes up to the end of the first place
where that segment stands. -/
theorem parseStr_append {digit : Char → Bool} {directory segment suffix before after maybeRow maybeColumn : List Char}
    (hdir : IsDirectory directory) (hpath : ∃ c ∈ directory ++ segment, isWhitespace c = false)
    (hsep : '/' ∉ segment ++ suffix) (hspa : ∀ c ∈ segment.head?, isWhitespace c = false)
    (hsuf : ∃ c ∈ suffix, c ≠ '.') (hend : ∀ c ∈ suffix.getLast?, isWhitespace c = false) {name : List Char}
    (hcap : (rowColCaptureRegex digit).captures (segment ++ suffix) = some [name, maybeRow, maybeColumn])
    (hfnd : splitOnce name (trimStart (directory ++ segment) ++ suffix) = some (before, after)) :
    parseStr digit (directory ++ segment ++ suffix) = some ⟨(trimStart (directory ++ segment) ++ suffix).take
          ((trimStart (directory ++ segment) ++ suffix).length - after.length),
        parseU32 maybeRow, parseU32 maybeColumn⟩ := by
  obtain ⟨c, hc, hdot⟩ := hsuf
  have hne : suffix ≠ [] := ne_nil_of_mem hc
  have hmem : c ∈ segment ++ suffix := mem_append_right _ hc
  have htrim := trim_append hpath hne hend
  obtain ⟨trimmed, htri, heq⟩ := exists_trimStart_directory hdir hspa
  have hname : fileName (trimStart (directory ++ segment) ++ suffix) = some (segment ++ suffix) := by
    rw [heq, append_assoc]
    refine fileName_segment htri hsep (ne_nil_of_mem hmem) (fun h => ?_) fun h => ?_
    · rw [h, mem_singleton] at hmem
      exact hdot hmem
    · rw [h, mem_cons, mem_singleton, or_self] at hmem
      exact hdot hmem
  rw [parseStr, htrim, hname, Option.getD_some, if_neg (ne_nil_of_mem hmem), hcap]
  dsimp only
  rw [hfnd]
  rfl

/-- Where no text behind the last colon could be a column, what is parsed without a position is the text itself, unless the text
between its last two colons is a number. -/
theorem parseParts_eq_iff {s : List Char} (hlast : ∀ before last, s = before ++ ':' :: last → ':' ∉ last → parseU32 last = none) :
    parseParts s = some ⟨s, none, none⟩ ↔ ∀ last middle rest, rsplitn 3 ':' s = [last, middle, rest] → parseU32 middle = none := by
  cases hs : rsplitOnce ':' s with
  | none =>
    have hpart : rsplitn 3 ':' s = [s] := rsplitn_none hs
    refine ⟨fun _ last middle rest h => ?_, fun _ => ?_⟩
    · rw [hpart] at h
      cases h
    · rw [parseParts, hpart]
      rfl
  | some found =>
    obtain ⟨before, last⟩ := found
    obtain ⟨rfl, hnot⟩ := rsplitOnce_spec hs
    have hnone := hlast _ last rfl hnot
    cases hbef : rsplitOnce ':' _ with
    | none =>
      have hpart : rsplitn 3 ':' (before ++ ':' :: last) = [last, before] := by
        rw [rsplitn_some hs, rsplitn_none hbef]
      refine ⟨fun _ x middle rest h => ?_, fun _ => ?_⟩
      · rw [hpart] at h
        cases h
      · rw [parseParts, hpart]
        simp only [reverse_cons, reverse_nil, nil_append, singleton_append, hnone, foldl_cons, foldl_nil]
    | some found =>
      obtain ⟨rest, middle⟩ := found
      obtain ⟨rfl, -⟩ := rsplitOnce_spec hbef
      have hpart : rsplitn 3 ':' (rest ++ ':' :: middle ++ ':' :: last) = [last, middle, rest] := by
        rw [rsplitn_some hs, rsplitn_some hbef]
        rfl
      rw [parseParts, hpart]
      simp only [reverse_cons, reverse_nil, nil_append, cons_append]
      cases hmid : parseU32 _ with
      | none =>
        refine ⟨fun _ x y z h => ?_, fun _ => ?_⟩
        · cases h
          exact hmid
        · simp
      | some row =>
        refine ⟨fun h => ?_, fun h => ?_⟩
        · cases (congrArg PathWithPosition.row (Option.some.inj h))
        · rw [h last _ rest rfl] at hmid
          cases hmid

/-! ## Positions are parsed back -/

/-- The file name of a path can be told from what is around it: it has no white space around it, and no delimiter in it. -/
structure IsPlainName (name : List Char) : Prop where
  start : ∀ c ∈ name.head?, isWhitespace c = false
  stop : ∀ c ∈ name.getLast?, isWhitespace c = false
  colon : ':' ∉ name
  paren : '(' ∉ name

/-- A path that is found again: it does not begin with white space and does not end in a separator, its last segment stands nowhere
before its end, and the text between its last two colons is no number. -/
structure Locatable (path : List Char) : Prop where
  start : ∀ c ∈ path.head?, isWhitespace c = false
  segment : lastSegment path ≠ []
  first : (splitOnce (lastSegment path) path).map Prod.snd = some []
  middle : ∀ last middle rest, rsplitn 3 ':' path = [last, middle, rest] → parseU32 middle = none

/-- A position is parsed back from each of the texts of a path with it, and none is found in the path alone. -/
structure ParsedBack (digit : Char → Bool) (path : List Char) : Prop where
  colons : ∀ (row : Nat) (column : Option Nat) (trailing : Nat), row < 2 ^ 32 → (∀ c ∈ column, c < 2 ^ 32) →
    parseStr digit (toString ⟨path, some row, column⟩ id ++ replicate trailing ':') = some ⟨path, some row, column⟩
  parens : ∀ (row : Nat) (column : Option Nat) (trailing : Nat), row < 2 ^ 32 → (∀ c ∈ column, c < 2 ^ 32) →
    parseStr digit (path ++ parenSuffix row column ++ replicate trailing ':') = some ⟨path, some row, column⟩
  alone : parseStr digit path = some ⟨path, none, none⟩

theorem toString_eq (path : List Char) (row : Nat) (column : Option Nat) :
    toString ⟨path, some row, column⟩ id = path ++ colonSuffix row column := by
  cases column with
  | some column =>
    exact append_assoc ..
  | none => rfl

theorem parseU32_columnText {column : Option Nat} (h : ∀ c ∈ column, c < 2 ^ 32) : parseU32 (columnText column) = column := by
  cases column with
  | some column => exact parseUnsigned_toDigits (h _ rfl)
  | none => rfl

/-- The last segment of a path with a plain name. -/
theorem plain_lastSegment {path name : List Char} (hname : fileName path = some name) (hpln : IsPlainName name) :
    IsPlainName (lastSegment path) := by
  obtain h | h | ⟨h, -⟩ := lastSegment_cases hname
  · rw [h]
    exact ⟨fun _ hc => (by cases hc), fun _ hc => (by cases hc), not_mem_nil, not_mem_nil⟩
  · rw [h]
    refine ⟨?_, ?_, by decide, by decide⟩ <;>
    · rintro c ⟨⟩
      decide
  · exact h ▸ hpln

/-- The characters of a position. -/
def IsPositionChar (c : Char) : Prop := c.isDigit ∨ c ∈ [':', '(', ')', ',']

theorem isPositionChar_toDigits {n : Nat} {c : Char} (hc : c ∈ Nat.toDigits 10 n) : IsPositionChar c :=
  .inl (Nat.isDigit_of_mem_toDigits (by decide) (by decide) hc)

theorem isPositionChar_colons {row : Nat} {column : Option Nat} {trailing : Nat} {c : Char}
    (hc : c ∈ colonSuffix row column ++ replicate trailing ':') : IsPositionChar c := by
  obtain hc | hc := mem_append.mp hc
  · cases column with
    | some column =>
      rw [colonSuffix, mem_cons, mem_append, mem_cons] at hc
      obtain rfl | hc | rfl | hc := hc
      · exact .inr (by decide)
      · exact isPositionChar_toDigits hc
      · exact .inr (by decide)
      · exact isPositionChar_toDigits hc
    | none =>
      obtain rfl | hc := mem_cons.mp hc
      · exact .inr (by decide)
      · exact isPositionChar_toDigits hc
  · rw [eq_of_mem_replicate hc]
    exact .inr (by decide)

theorem isPositionChar_parens {row : Nat} {column : Option Nat} {trailing : Nat} {c : Char}
    (hc : c ∈ parenSuffix row column ++ replicate trailing ':') : IsPositionChar c := by
  obtain hc | hc := mem_append.mp hc
  · cases column with
    | some column =>
      rw [parenSuffix, mem_cons, mem_append, mem_cons, mem_append, mem_singleton] at hc
      obtain rfl | hc | rfl | hc | rfl := hc
      · exact .inr (by decide)
      · exact isPositionChar_toDigits hc
      · exact .inr (by decide)
      · exact isPositionChar_toDigits hc
      · exact .inr (by decide)
    | none =>
      rw [parenSuffix, mem_cons, mem_append, mem_singleton] at hc
      obtain rfl | hc | rfl := hc
      · exact .inr (by decide)
      · exact isPositionChar_toDigits hc
      · exact .inr (by decide)
  · rw [eq_of_mem_replicate hc]
    exact .inr (by decide)

/-- The characters of a position are no separators and no white space. -/
theorem IsPositionChar.plain {c : Char} (h : IsPositionChar c) : c ≠ '/' ∧ c ≠ '.' ∧ isWhitespace c = false := by
  obtain hdigit | hmem := h
  · obtain ⟨hle, hge⟩ := Char.isDigit_iff_toNat.mp hdigit
    have hle : 48 ≤ c.toNat := hle
    have hge : c.toNat ≤ 57 := hge
    refine ⟨?_, ?_, ?_⟩
    · rintro rfl
      exact absurd hdigit (by decide)
    · rintro rfl
      exact absurd hdigit (by decide)
    · have hspa : ¬isWhitespace c = true := by
        simp only [isWhitespace, Bool.or_eq_true, Bool.and_eq_true, decide_eq_true_eq, beq_iff_eq]
        omega
      exact Bool.eq_false_iff.mpr hspa
  · have hall : [':', '(', ')', ','].all (fun c => c != '/' && (c != '.' && !isWhitespace c)) = true := by decide
    have hc := all_eq_true.mp hall c hmem
    rw [Bool.and_eq_true, Bool.and_eq_true, bne_iff_ne, bne_iff_ne, Bool.not_eq_true'] at hc
    exact hc

/-- What is parsed from a path with a position behind it. -/
theorem parseStr_position {digit : Char → Bool} {path suffix before after : List Char} {row : Nat} {column : Option Nat}
    (hpln : IsPlainName (lastSegment path)) (hseg : lastSegment path ≠ []) (hrow : row < 2 ^ 32)
    (hcol : ∀ c ∈ column, c < 2 ^ 32) (hsuf : ∀ c ∈ suffix, IsPositionChar c) (hne : suffix ≠ [])
    (hcap : (rowColCaptureRegex digit).captures (lastSegment path ++ suffix) =
      some [lastSegment path, Nat.toDigits 10 row, columnText column])
    (hfnd : splitOnce (lastSegment path) (trimStart path) = some (before, after)) :
    parseStr digit (path ++ suffix) = some ⟨(trimStart path).take ((trimStart path).length - after.length), some row, column⟩ := by
  obtain ⟨directory, hdir, hpath⟩ := exists_directory path
  have hsep := separator_notMem_lastSegment path
  generalize lastSegment path = segment at hpln hseg hcap hfnd hpath hsep
  subst hpath
  obtain ⟨c, hc⟩ := exists_mem_of_ne_nil _ hne
  have hspa : ∃ c ∈ directory ++ segment, isWhitespace c = false := by
    cases segment with
    | nil => exact absurd rfl hseg
    | cons c segment => exact ⟨c, mem_append_right _ mem_cons_self, hpln.start c rfl⟩
  have hsep' : '/' ∉ segment ++ suffix := by
    rw [mem_append]
    exact fun h => h.elim hsep fun h => (hsuf _ h).plain.1 rfl
  have hpars := parseStr_append hdir hspa hsep' hpln.start ⟨c, hc, (hsuf c hc).plain.2.1⟩
    (fun c hc => (hsuf c (List.mem_of_getLast? hc)).plain.2.2) hcap (splitOnce_append hfnd _)
  have htake : (trimStart (directory ++ segment) ++ suffix).take
      ((trimStart (directory ++ segment) ++ suffix).length - (after ++ suffix).length) =
      (trimStart (directory ++ segment)).take ((trimStart (directory ++ segment)).length - after.length) := by
    rw [length_append, length_append, Nat.add_sub_add_right, take_append_of_le_length (Nat.sub_le _ _)]
  have hrow' : parseU32 (Nat.toDigits 10 row) = some row := parseUnsigned_toDigits hrow
  rw [hpars, htake, hrow', parseU32_columnText hcol]

/-- A path alone is not matched by the expression. -/
theorem parseStr_alone {digit : Char → Bool} {path name : List Char} (hname : fileName path = some name)
    (hpln : IsPlainName name) (hst : ∀ c ∈ path.head?, isWhitespace c = false) (hseg : lastSegment path ≠ []) :
    parseStr digit path = parseParts path := by
  have htrim : trim path = path := by
    rw [trim, trimStart_of_head hst]
    refine trimEnd_of_getLast ?_
    obtain ⟨directory, -, hpath⟩ := exists_directory path
    rw [hpath, getLast?_append_of_ne_nil _ hseg]
    exact (plain_lastSegment hname hpln).stop
  rw [parseStr, htrim, hname, Option.getD_some, if_neg (fileName_ne_nil hname), captures_eq_none hpln.colon hpln.paren]

/-- What is behind the last colon of a path with a plain name has a separator in it. -/
theorem parseU32_last {path name : List Char} (hname : fileName path = some name) (hpln : IsPlainName name) :
    ∀ before last, path = before ++ ':' :: last → ':' ∉ last → parseU32 last = none := by
  rintro before last rfl -
  have hcol := (plain_lastSegment hname hpln).colon
  obtain hsep | heq := separator_mem_of_notMem hcol
  · exact parseUnsigned_eq_none hsep (by decide) (by decide)
  · exact absurd heq (by decide)

section

variable {digit : Char → Bool} {path name : List Char} (hdigit : IsDigitClass digit) (hname : fileName path = some name)
include hdigit hname

/-- A path that is found again is found by each of the texts with a position. -/
theorem Locatable.parsed (hpln : IsPlainName name) (h : Locatable path) : ParsedBack digit path := by
  obtain ⟨⟨before, after⟩, hfnd, haft⟩ := Option.map_eq_some_iff.mp h.first
  have hseg := plain_lastSegment hname hpln
  have htrim : trimStart path = path := trimStart_of_head h.start
  obtain ⟨c, segment, hcons⟩ := exists_cons_of_ne_nil h.segment
  have hpos : ∀ (row : Nat) (column : Option Nat) (suffix : List Char), row < 2 ^ 32 → (∀ c ∈ column, c < 2 ^ 32) →
      (∀ c ∈ suffix, IsPositionChar c) → suffix ≠ [] →
      (rowColCaptureRegex digit).captures (lastSegment path ++ suffix) =
        some [lastSegment path, Nat.toDigits 10 row, columnText column] →
      parseStr digit (path ++ suffix) = some ⟨path, some row, column⟩ := by
    intro row column suffix hrow hcol hsuf hne hcap
    have hpars := parseStr_position hseg h.segment hrow hcol hsuf hne hcap (by rw [htrim]; exact hfnd)
    rw [hpars, htrim, show after = [] from haft, length_nil, Nat.sub_zero, take_length]
  have hcolo : ':' ∉ segment := fun hmem => hseg.colon (hcons ▸ mem_cons_of_mem c hmem)
  refine ⟨fun row column trailing hrow hcol => ?_, fun row column trailing hrow hcol => ?_, ?_⟩
  · rw [toString_eq, append_assoc]
    refine hpos row _ _ hrow hcol (fun c hc => isPositionChar_colons hc) ?_ ?_
    · cases column <;> exact cons_ne_nil _ _
    · rw [hcons]
      exact captures_colons hdigit hcolo (hcons ▸ hseg.paren) row _ _
  · rw [append_assoc]
    refine hpos row _ _ hrow hcol (fun c hc => isPositionChar_parens hc) ?_ ?_
    · cases column <;> exact cons_ne_nil _ _
    · rw [hcons]
      exact captures_parens hdigit (hcons ▸ hseg.colon) (hcons ▸ hseg.paren) row _ _
  · rw [parseStr_alone hname hpln h.start h.segment]
    exact (parseParts_eq_iff (parseU32_last hname hpln)).mpr h.middle

/-- Behind a separator the colon in front of the row is taken for the file name. -/
theorem segment_of_parsed (h : ParsedBack digit path) : lastSegment path ≠ [] := by
  intro hnil
  obtain ⟨directory, hdir, hpath⟩ := exists_directory path
  rw [hnil, append_nil] at hpath
  have hspa : ∃ c ∈ directory ++ [], isWhitespace c = false := by
    cases hdir with
    | nil =>
      rw [hpath] at hname
      cases hname
    | snoc front => exact ⟨'/', mem_append_left _ (mem_append_right _ mem_cons_self), by decide⟩
  have hcap : (rowColCaptureRegex digit).captures ([] ++ [':', '0', ':', '0']) = some [[':', '0'], ['0'], []] :=
    @captures_colons _ hdigit ':' ['0'] (by decide) (by decide) 0 none 0
  obtain ⟨⟨before, after⟩, hfnd⟩ := exists_splitOnce _ _
  have hfnd := splitOnce_append hfnd [':', '0']
  rw [append_assoc] at hfnd
  have hpars := parseStr_append hdir hspa (by decide) (fun _ hc => by cases hc) ⟨':', by decide, by decide⟩
    (fun c hc => by cases hc; decide) hcap hfnd
  have hcol := h.colons 0 (some 0) 0 (by decide) fun c hc => by cases hc; decide
  rw [toString_eq, replicate_zero, append_nil, hpath, ← append_nil directory] at hcol
  have heq : parseU32 [] = some 0 := congrArg column (Option.some.inj (hpars.symm.trans hcol))
  cases heq

/-- A path that is found by each of the texts with a position can be found again. -/
theorem ParsedBack.locatable (hpln : IsPlainName name) (h : ParsedBack digit path) : Locatable path := by
  have hseg := segment_of_parsed hdigit hname h
  have hplnS := plain_lastSegment hname hpln
  obtain ⟨c, segment, hcons⟩ := exists_cons_of_ne_nil hseg
  obtain ⟨directory, hdir, hpath⟩ := exists_directory path
  obtain ⟨trimmed, -, htri⟩ := exists_trimStart_directory hdir hplnS.start
  rw [← hpath] at htri
  obtain ⟨⟨before, after⟩, hfnd⟩ := exists_splitOnce _ _
  rw [← htri] at hfnd
  have hcap : (rowColCaptureRegex digit).captures (lastSegment path ++ (colonSuffix 0 none ++ replicate 0 ':')) =
      some [lastSegment path, Nat.toDigits 10 0, columnText none] := by
    rw [hcons]
    exact captures_colons hdigit (fun hmem => hplnS.colon (hcons ▸ mem_cons_of_mem c hmem)) (hcons ▸ hplnS.paren) 0 none 0
  have hpars := parseStr_position hplnS hseg (by decide) (fun _ hc => by cases hc)
    (fun c hc => isPositionChar_colons hc) (fun h => by cases h) hcap hfnd
  have hcol := h.colons 0 none 0 (by decide) fun _ hc => by cases hc
  rw [toString_eq, append_assoc] at hcol
  have heq : (trimStart path).take ((trimStart path).length - after.length) = path :=
    congrArg PathWithPosition.path (Option.some.inj (hpars.symm.trans hcol))
  have hle := (trimStart_suffix path).length_le
  have hlen := congrArg List.length heq
  have hspec := congrArg List.length (splitOnce_spec hfnd)
  rw [length_take] at hlen
  rw [length_append, length_append] at hspec
  have htrim : trimStart path = path := (trimStart_suffix path).eq_of_length (by omega)
  have haft : after = [] := eq_nil_of_length_eq_zero (by omega)
  rw [htrim, haft] at hfnd
  have hst : ∀ c ∈ path.head?, isWhitespace c = false := htrim ▸ CharLists.head?_trimStart
  refine ⟨hst, hseg, by rw [hfnd]; rfl, ?_⟩
  have halo := h.alone
  rw [parseStr_alone hname hpln hst hseg] at halo
  exact (parseParts_eq_iff (parseU32_last hname hpln)).mp halo

end

/-- A position behind a path is parsed back, and the path alone has none, exactly when the path can be found again. -/
theorem positions_parsed_back (digit : Char → Bool) (hdigit : IsDigitClass digit) (path name : List Char)
    (hname : fileName path = some name) (hplain : IsPlainName name) : ParsedBack digit path ↔ Locatable path :=
  ⟨fun h => h.locatable hdigit hname hplain, fun h => h.parsed hdigit hname hplain⟩

theorem positions_parsed_back_main : ParsedBack Char.isDigit "src/main.rs".toList := by
  refine (positions_parsed_back Char.isDigit ⟨fun _ _ => rfl⟩ "src/main.rs".toList "main.rs".toList (by decide) ?_).mpr ?_
  · refine ⟨?_, ?_, by decide, by decide⟩ <;>
    · rintro c ⟨⟩
      decide
  · refine ⟨?_, by decide, by decide, fun last middle rest h => ?_⟩
    · rintro c ⟨⟩
      decide
    · cases h

/-- A directory that has the name of the file in it is taken for the file. -/
theorem position_cuts_path :
    fileName "a/a".toList = some "a".toList ∧ IsPlainName "a".toList ∧
      parseStr Char.isDigit "a/a:1".toList = some ⟨"a".toList, some 1, none⟩ ∧ ¬ParsedBack Char.isDigit "a/a".toList := by
  have hplain : IsPlainName "a".toList := by
    refine ⟨?_, ?_, by decide, by decide⟩ <;>
    · rintro c ⟨⟩
      decide
  have hparsed : parseStr Char.isDigit "a/a:1".toList = some ⟨"a".toList, some 1, none⟩ := by decide +kernel
  refine ⟨by decide, hplain, hparsed, fun h => ?_⟩
  have hcolons := h.colons 1 none 0 (by decide) fun _ hc => by cases hc
  rw [show toString ⟨"a/a".toList, some 1, none⟩ id ++ replicate 0 ':' = "a/a:1".toList by decide, hparsed] at hcolons
  exact absurd hcolons (by decide)

end PathWithPosition

end Wu.Util
