import Wu.Snippet.Parse

/-!
# Snippets and their prints

A snippet stands for a tree of text, tab stops, placeholders and choices. The parser accepts what is a print of such a tree, up to what
it lets pass, and what it returns is what the tree means.
-/

namespace Wu.Snippet

open List

/-! ## Trees -/

/-- A sequence of characters and tab stops. A tab stop has choices, content or neither. -/
inductive Tree where
  | nil
  | char (c : Char) (rest : Tree)
  | stop (number : Nat) (choices : Option (List Str)) (content rest : Tree)

/-- An occurrence of a tab stop in the text. -/
structure Occurrence where
  number : Nat
  start : Nat
  «end» : Nat
  choices : Option (List Str)

/-- The text that choices give. -/
def firstChoice : Option (List Str) → Str
  | some (first :: _) => first
  | _ => []

namespace Tree

def text : Tree → Str
  | nil => []
  | char c rest => c :: rest.text
  | stop _ choices content rest => firstChoice choices ++ content.text ++ rest.text

/-- The occurrences of tab stops in the order in which they end, when the text begins at an offset. -/
def occurrences (start : Nat) : Tree → List Occurrence
  | nil => []
  | char c rest => rest.occurrences (start + c.utf8Size)
  | stop number choices content rest =>
    let inner := start + (firstChoice choices).len
    let stop := inner + content.text.len
    content.occurrences inner ++ ⟨number, start, stop, choices⟩ :: rest.occurrences stop

/-- Says that choices have no content behind them. -/
def Proper : Tree → Prop
  | nil => True
  | char _ rest => rest.Proper
  | stop _ choices content rest => (choices = none ∨ content = nil) ∧ content.Proper ∧ rest.Proper

end Tree

/-! ## Prints -/

/-- Says that digits are a print of a number. -/
structure IsNumber (number : Nat) (digits : Str) : Prop where
  all : ∀ c ∈ digits, c.isDigit = true
  nonempty : digits ≠ []
  value : CharLists.parseUnsigned (2 ^ 64) digits = some number

/-- Says that a source begins with the rest of a choice and more choices, up to their end. Any character may be escaped. -/
inductive PrintsChoices : Str → List Str → Str → Str → Prop where
  | last (rest : Str) : PrintsChoices [] [] ('|' :: rest) rest
  | next {choice : Str} {choices : List Str} {source rest : Str} :
      PrintsChoices choice choices source rest → PrintsChoices [] (choice :: choices) (',' :: source) rest
  | plain {c : Char} {choice : Str} {choices : List Str} {source rest : Str} :
      isPlainChoice c = true → PrintsChoices choice choices source rest → PrintsChoices (c :: choice) choices (c :: source) rest
  | escaped {choice : Str} {choices : List Str} {source rest : Str} (c : Char) :
      PrintsChoices choice choices source rest → PrintsChoices (c :: choice) choices ('\\' :: c :: source) rest

/-- Says that a source begins with choices, if there are any. -/
inductive PrintsOption : Option (List Str) → Str → Str → Prop where
  | without (source : Str) : PrintsOption none source source
  | given {choice : Str} {choices : List Str} {source rest : Str} :
      PrintsChoices choice choices source rest → PrintsOption (some (choice :: choices)) ('|' :: source) rest

/-- Says that a source begins with a print of a tree. Nested text ends before a closing brace. -/
inductive Prints : Bool → Tree → Str → Str → Prop where
  | done (nested : Bool) : Prints nested .nil [] []
  | closed (rest : Str) : Prints true .nil ('}' :: rest) ('}' :: rest)
  | plain {nested : Bool} {c : Char} {tree : Tree} {source rest : Str} :
      isPlain c = true → Prints nested tree source rest → Prints nested (.char c tree) (c :: source) rest
  | escaped {nested : Bool} {c : Char} {tree : Tree} {source rest : Str} :
      isPlain c = false → Prints nested tree source rest → Prints nested (.char c tree) ('\\' :: c :: source) rest
  /-- A backslash that escapes nothing. -/
  | backslash {nested : Bool} {tree : Tree} {source rest : Str} :
      (∀ c ∈ source.head?, isPlain c = true) → Prints nested tree source rest → Prints nested (.char '\\' tree) ('\\' :: source) rest
  /-- A brace that closes nothing. -/
  | brace {tree : Tree} {source rest : Str} : Prints false tree source rest → Prints false (.char '}' tree) ('}' :: source) rest
  | bare {nested : Bool} {number : Nat} {digits : Str} {tree : Tree} {source rest : Str} :
      IsNumber number digits → (∀ c ∈ source.head?, c.isDigit = false) → Prints nested tree source rest →
        Prints nested (.stop number none .nil tree) ('$' :: (digits ++ source)) rest
  | braced {nested : Bool} {number : Nat} {digits : Str} {choices : Option (List Str)} {tree : Tree} {inner source rest : Str} :
      IsNumber number digits → PrintsOption choices inner ('}' :: source) → Prints nested tree source rest →
        Prints nested (.stop number choices .nil tree) ('$' :: '{' :: (digits ++ inner)) rest
  | filled {nested : Bool} {number : Nat} {digits : Str} {choices : Option (List Str)} {content tree : Tree}
      {inner filling source rest : Str} :
      IsNumber number digits → PrintsOption choices inner (':' :: filling) → Prints true content filling ('}' :: source) →
        Prints nested tree source rest → Prints nested (.stop number choices content tree) ('$' :: '{' :: (digits ++ inner)) rest

/-! ## Numbers -/

variable {digits source choice : Str} {c : Char} {choices : Option (List Str)} {nested : Bool} {output output' : Output}

theorem takeWhile_digits {rest : Str} (hdig : ∀ c ∈ digits, c.isDigit = true) (hrest : ∀ c ∈ rest.head?, c.isDigit = false) :
    (digits ++ rest).takeWhile Char.isDigit = digits ∧ (digits ++ rest).dropWhile Char.isDigit = rest := by
  rw [takeWhile_append_of_pos hdig, dropWhile_append_of_pos hdig]
  cases rest with
  | nil => simp
  | cons c rest =>
    have hc := hrest c rfl
    simp [hc]

theorem parseInt_of_number {number : Nat} {rest : Str} (h : IsNumber number digits)
    (hrest : ∀ c ∈ rest.head?, c.isDigit = false) : parseInt (digits ++ rest) = .ok (number, rest) := by
  obtain ⟨htake, hdrop⟩ := takeWhile_digits h.all hrest
  simp only [parseInt, htake, hdrop]
  rw [if_neg h.nonempty, h.value]

theorem number_of_parseInt {number : Nat} {rest : Str} (h : parseInt source = .ok (number, rest)) :
    ∃ digits, source = digits ++ rest ∧ IsNumber number digits ∧ ∀ c ∈ rest.head?, c.isDigit = false := by
  simp only [parseInt] at h
  split at h
  · cases h
  · rename_i hnon
    split at h
    · rename_i index hval
      cases h
      refine ⟨_, takeWhile_append_dropWhile.symm, ⟨fun c hc => mem_takeWhile_imp hc, hnon, hval⟩, fun c hc => ?_⟩
      have hhead := head?_dropWhile_not Char.isDigit source
      rw [hc] at hhead
      exact hhead
    · cases h

/-! ## Choices -/

theorem PrintsChoices.length_lt {choices : List Str} {rest : Str} (h : PrintsChoices choice choices source rest) :
    rest.length < source.length := by
  induction h with
  | last rest => exact Nat.lt_succ_self _
  | next _ ih => exact Nat.lt_succ_of_lt ih
  | plain _ _ ih => exact Nat.lt_succ_of_lt ih
  | escaped c _ ih => exact Nat.lt_succ_of_lt (Nat.lt_succ_of_lt ih)

/-- The text that is written while the first choice is read. -/
def withChoice (found : Bool) (output : Output) (choice : Str) : Output := if found then output else output.pushText choice

theorem pushText_nil (output : Output) : output.pushText [] = output := by
  simp [Output.pushText]

theorem pushText_pushText (output : Output) (a b : Str) : (output.pushText a).pushText b = output.pushText (a ++ b) := by
  simp [Output.pushText]

theorem withChoice_withChoice (found : Bool) (output : Output) (a b : Str) :
    withChoice found (withChoice found output a) b = withChoice found output (a ++ b) := by
  cases found
  · exact pushText_pushText _ a b
  · rfl

theorem withChoice_nil (found : Bool) (output : Output) : withChoice found output [] = output := by
  cases found
  · exact pushText_nil _
  · rfl

theorem exists_succ {n fuel : Nat} (h : n < fuel) : ∃ m, fuel = m + 1 := Nat.exists_eq_add_one_of_ne_zero (Nat.ne_zero_of_lt h)

/-- A chunk may be read character by character. -/
theorem parseChoices_plain (hc : isPlainChoice c = true) (hsou : source ≠ []) (fuel : Nat) (found : Bool)
    (current : Str) (choices : List Str) (output : Output) :
    ∃ fuel' ∈ [fuel, fuel + 1], parseChoices (fuel + 1) (c :: source) found current choices output =
      parseChoices fuel' source found (current ++ [c]) choices (withChoice found output [c]) := by
  have hspe : c ≠ '\\' ∧ c ≠ ',' ∧ c ≠ '|' := by
    refine ⟨?_, ?_, ?_⟩ <;> · rintro rfl; cases hc
  rw [parseChoices.eq_def]
  simp only [if_neg hspe.1, if_neg hspe.2.1, if_neg hspe.2.2, takeWhile_cons_of_pos hc, dropWhile_cons_of_pos hc]
  obtain ⟨d, source, rfl⟩ := exists_cons_of_ne_nil hsou
  cases hd : isPlainChoice d with
  | false =>
    refine ⟨fuel, by simp, ?_⟩
    have hneg : ¬isPlainChoice d = true := by rw [hd]; exact Bool.false_ne_true
    rw [takeWhile_cons_of_neg hneg, dropWhile_cons_of_neg hneg]
    rfl
  | true =>
    refine ⟨fuel + 1, by simp, ?_⟩
    have hspe' : d ≠ '\\' ∧ d ≠ ',' ∧ d ≠ '|' := by
      refine ⟨?_, ?_, ?_⟩ <;> · rintro rfl; cases hd
    conv_rhs => rw [parseChoices.eq_def]
    simp only [if_neg hspe'.1, if_neg hspe'.2.1, if_neg hspe'.2.2]
    rw [append_assoc]
    have htext := withChoice_withChoice found output [c] ((d :: source).takeWhile isPlainChoice)
    simp only [withChoice, singleton_append] at htext ⊢
    rw [htext]

theorem parseChoices_of_prints {choices : List Str} {rest : Str} (h : PrintsChoices choice choices source rest) :
    ∀ (fuel : Nat), source.length < fuel → ∀ (found : Bool) (current : Str) (before : List Str) (output : Output),
      parseChoices fuel source found current before output =
        .ok (rest, before ++ (current ++ choice) :: choices, withChoice found output choice) := by
  induction h with
  | last rest =>
    intro fuel hfuel found current before output
    obtain ⟨-, rfl⟩ := exists_succ hfuel
    rw [parseChoices.eq_def]
    dsimp only
    rw [if_neg (by decide), if_neg (by decide), if_pos rfl, append_nil, withChoice_nil]
  | @next choice choices source rest _ ih =>
    intro fuel hfuel found current before output
    obtain ⟨fuel, rfl⟩ := exists_succ hfuel
    rw [parseChoices.eq_def]
    dsimp only
    rw [ih fuel (Nat.lt_of_succ_lt_succ hfuel)]
    simp [withChoice, pushText_nil]
  | @plain c choice choices source rest hc hpri ih =>
    intro fuel hfuel found current before output
    obtain ⟨fuel, rfl⟩ := exists_succ hfuel
    have hfuel := Nat.lt_of_succ_lt_succ hfuel
    have hsou : source ≠ [] := ne_nil_of_length_pos (Nat.zero_lt_of_lt hpri.length_lt)
    obtain ⟨fuel', hmem, hstep⟩ := parseChoices_plain hc hsou fuel _ _ _ _
    have hfuel' : source.length < fuel' := by
      rcases List.mem_pair.mp hmem with rfl | rfl <;> omega
    rw [hstep, ih _ hfuel', withChoice_withChoice, append_assoc]
    rfl
  | @escaped choice choices source rest c _ ih =>
    intro fuel hfuel found current before output
    obtain ⟨fuel, rfl⟩ := exists_succ hfuel
    have hfuel : source.length < fuel := Nat.lt_of_succ_lt (Nat.lt_of_succ_lt_succ hfuel)
    have htext := withChoice_withChoice found output [c] choice
    rw [parseChoices.eq_def]
    dsimp only
    rw [ih fuel hfuel, append_assoc]
    exact congrArg (fun text => Except.ok (rest, _, text)) htext

/-- What the parser of choices reads, unless it comes to the end of the source. -/
theorem prints_of_parseChoices (fuel : Nat) : ∀ {source rest : Str} {found : Bool} {current : Str} {before result : List Str}
    {output output' : Output}, parseChoices fuel source found current before output = .ok (rest, result, output') → rest ≠ [] →
      ∃ choice choices, PrintsChoices choice choices source rest ∧ result = before ++ (current ++ choice) :: choices ∧
        output' = withChoice found output choice := by
  induction fuel with
  | zero =>
    intro source rest found current before result output output' h
    cases h
  | succ fuel ih =>
    intro source rest found current before result output output' h hrest
    cases source with
    | nil =>
      cases h
      exact absurd rfl hrest
    | cons c source =>
      rw [parseChoices.eq_def] at h
      dsimp only at h
      by_cases hbac : c = '\\'
      · rw [if_pos hbac] at h
        cases source with
        | nil =>
          obtain ⟨choice, choices, hpri, -⟩ := ih h hrest
          cases hpri
        | cons escaped source =>
          obtain ⟨choice, choices, hpri, hres, hout⟩ := ih h hrest
          refine ⟨escaped :: choice, choices, hbac ▸ .escaped _ hpri, ?_, ?_⟩
          · rw [hres, append_assoc]
            rfl
          · exact hout.trans (withChoice_withChoice _ _ _ _)
      · rw [if_neg hbac] at h
        by_cases hcom : c = ','
        · rw [if_pos hcom] at h
          obtain ⟨choice, choices, hpri, hres, hout⟩ := ih h hrest
          refine ⟨[], choice :: choices, hcom ▸ .next hpri, ?_, ?_⟩
          · rw [hres]
            simp
          · rw [hout, withChoice_nil]
            rfl
        · rw [if_neg hcom] at h
          by_cases hpipe : c = '|'
          · rw [if_pos hpipe] at h
            cases h
            exact ⟨[], [], hpipe ▸ .last _, by rw [append_nil], (withChoice_nil _ _).symm⟩
          · rw [if_neg hpipe] at h
            split at h
            · cases h
            · obtain ⟨choice, choices, hpri, hres, hout⟩ := ih h hrest
              have hchu : ∀ chunk : Str, (∀ x ∈ chunk, isPlainChoice x = true) →
                  PrintsChoices (chunk ++ choice) choices (chunk ++ (c :: source).dropWhile isPlainChoice) rest := by
                intro chunk hpln
                induction chunk with
                | nil => exact hpri
                | cons x chunk ih =>
                  obtain ⟨hx, hpln⟩ := forall_mem_cons.mp hpln
                  exact .plain hx (ih hpln)
              have hsou := hchu ((c :: source).takeWhile _) fun x hx => mem_takeWhile_imp hx
              rw [takeWhile_append_dropWhile] at hsou
              refine ⟨_, choices, hsou, ?_, ?_⟩
              · rw [hres, append_assoc]
              · exact hout.trans (withChoice_withChoice _ _ _ _)

theorem PrintsOption.length_le {rest : Str} (h : PrintsOption choices source rest) : rest.length ≤ source.length := by
  cases h with
  | without => exact le_rfl
  | given h => exact Nat.le_succ_of_le (Nat.le_of_lt h.length_lt)

/-! ## Whole snippets -/

/-- What a tree adds to the output. -/
def Output.add (output : Output) (tree : Tree) : Output :=
  { text := output.text ++ tree.text
    tabstops := (tree.occurrences output.text.len).foldl (fun stops o => pushRange o.number o.choices (o.start, o.end) stops)
      output.tabstops }

theorem add_nil (output : Output) : output.add .nil = output := by
  simp [Output.add, Tree.text, Tree.occurrences]

theorem add_char (output : Output) (c : Char) (rest : Tree) : output.add (.char c rest) = (output.pushText [c]).add rest := by
  simp [Output.add, Tree.text, Tree.occurrences, Output.pushText, Str.len]

theorem add_stop (output : Output) (number : Nat) (choices : Option (List Str)) (content rest : Tree) :
    output.add (.stop number choices content rest) =
      (((output.pushText (firstChoice choices)).add content).pushStop number choices output.text.len).add rest := by
  simp [Output.add, Tree.text, Tree.occurrences, Output.pushText, Output.pushStop, Str.len, Nat.add_assoc]

theorem Prints.length_le {tree : Tree} {rest : Str} (h : Prints nested tree source rest) : rest.length ≤ source.length := by
  induction h with
  | done => exact le_rfl
  | closed => exact le_rfl
  | plain _ _ ih => exact Nat.le_succ_of_le ih
  | escaped _ _ ih => exact Nat.le_succ_of_le (Nat.le_succ_of_le ih)
  | backslash _ _ ih => exact Nat.le_succ_of_le ih
  | brace _ ih => exact Nat.le_succ_of_le ih
  | bare _ _ _ ih =>
    simp only [length_cons, length_append]
    omega
  | braced _ hcho _ ih =>
    have hle := hcho.length_le
    simp only [length_cons, length_append] at hle ⊢
    omega
  | filled _ hcho _ _ ihcontent ih =>
    have hle := hcho.length_le
    simp only [length_cons, length_append] at hle ihcontent ⊢
    omega

/-- What is not nested is read to the end. -/
theorem Prints.rest_eq_nil {tree : Tree} {rest : Str} (h : Prints nested tree source rest) (hnest : nested = false) : rest = [] := by
  induction h with
  | done => rfl
  | closed => cases hnest
  | plain _ _ ih => exact ih hnest
  | escaped _ _ ih => exact ih hnest
  | backslash _ _ ih => exact ih hnest
  | brace _ ih => exact ih hnest
  | bare _ _ _ ih => exact ih hnest
  | braced _ _ _ ih => exact ih hnest
  | filled _ _ _ _ _ ih => exact ih hnest

/-- A chunk of text may be read character by character. -/
theorem parseSnippet_plain (hc : isPlain c = true) (source : Str) (fuel : Nat) (nested : Bool) (output : Output) :
    ∃ fuel' ∈ [fuel, fuel + 1], parseSnippet (fuel + 1) nested (c :: source) output =
      parseSnippet fuel' nested source (output.pushText [c]) := by
  have hspe : ∀ d : Char, isPlain d = true → d ≠ '$' ∧ d ≠ '\\' ∧ d ≠ '}' := by
    intro d hd
    refine ⟨?_, ?_, ?_⟩ <;> · rintro rfl; cases hd
  obtain ⟨hdol, hbac, hbra⟩ := hspe c hc
  rw [parseSnippet.eq_def]
  simp only [if_neg hdol, if_neg hbac, if_neg hbra, takeWhile_cons_of_pos hc, dropWhile_cons_of_pos hc]
  cases source with
  | nil => exact ⟨fuel, by simp, rfl⟩
  | cons d source =>
    cases hd : isPlain d with
    | false =>
      have hneg : ¬isPlain d = true := by rw [hd]; exact Bool.false_ne_true
      rw [takeWhile_cons_of_neg hneg, dropWhile_cons_of_neg hneg]
      exact ⟨fuel, by simp, rfl⟩
    | true =>
      refine ⟨fuel + 1, by simp, ?_⟩
      obtain ⟨hdol, hbac, hbra⟩ := hspe d hd
      conv_rhs => rw [parseSnippet.eq_def]
      simp only [if_neg hdol, if_neg hbac, if_neg hbra]
      rw [pushText_pushText, singleton_append]

theorem PrintsOption.head_notDigit {rest : Str} {d : Char}
    (h : PrintsOption choices source (d :: rest)) (hd : d.isDigit = false) : ∀ c ∈ source.head?, c.isDigit = false := by
  intro c hc
  cases h with
  | without =>
    cases hc
    exact hd
  | given =>
    cases hc
    rfl

theorem parseOption_of_prints {rest : Str} (h : PrintsOption choices source rest) (hrest : rest.head? ≠ some '|') (output : Output) :
    parseOption source output = .ok (rest, choices, output.pushText (firstChoice choices)) := by
  cases h with
  | without =>
    rw [parseOption, if_neg hrest, firstChoice, pushText_nil]
    exact nofun
  | @given choice choices source rest h =>
    rw [parseOption, tail_cons, parseChoices_of_prints h (('|' :: source).length + 1) (Nat.lt_succ_of_lt (Nat.lt_succ_self _))]
    rfl

theorem parseSnippet_of_prints {tree : Tree} {rest : Str} (h : Prints nested tree source rest) :
    ∀ (fuel : Nat), source.length < fuel → ∀ output : Output, parseSnippet fuel nested source output = .ok (rest, output.add tree) := by
  induction h with
  | done nested =>
    intro fuel hfuel output
    obtain ⟨-, rfl⟩ := exists_succ hfuel
    rw [add_nil]
    rfl
  | closed rest =>
    intro fuel hfuel output
    obtain ⟨-, rfl⟩ := exists_succ hfuel
    rw [add_nil]
    rfl
  | @plain nested c tree source rest hc _ ih =>
    intro fuel hfuel output
    obtain ⟨fuel, rfl⟩ := exists_succ hfuel
    have hfuel := Nat.lt_of_succ_lt_succ hfuel
    obtain ⟨fuel', hmem, hstep⟩ := parseSnippet_plain hc _ fuel _ _
    have hfuel' : source.length < fuel' := by
      rcases List.mem_pair.mp hmem with rfl | rfl <;> omega
    rw [hstep, ih _ hfuel', add_char]
  | @escaped nested c tree source rest hc _ ih =>
    intro fuel hfuel output
    obtain ⟨fuel, rfl⟩ := exists_succ hfuel
    have hfuel : source.length < fuel := Nat.lt_of_succ_lt (Nat.lt_of_succ_lt_succ hfuel)
    rw [parseSnippet.eq_def]
    dsimp only
    rw [if_neg (by decide), if_pos rfl, hc, if_neg Bool.false_ne_true, ih fuel hfuel, add_char]
  | @backslash nested tree source rest hhead _ ih =>
    intro fuel hfuel output
    obtain ⟨fuel, rfl⟩ := exists_succ hfuel
    have hfuel := Nat.lt_of_succ_lt_succ hfuel
    rw [parseSnippet.eq_def, add_char]
    cases source with
    | nil => exact ih fuel hfuel _
    | cons c source =>
      dsimp only
      rw [if_pos (hhead c rfl)]
      exact ih fuel hfuel _
  | @brace tree source rest _ ih =>
    intro fuel hfuel output
    obtain ⟨fuel, rfl⟩ := exists_succ hfuel
    rw [parseSnippet.eq_def, add_char]
    dsimp only
    rw [if_neg (by decide), if_neg (by decide), if_pos rfl, if_neg Bool.false_ne_true, ih fuel (Nat.lt_of_succ_lt_succ hfuel)]
  | @bare nested number digits tree source rest hnum hhead _ ih =>
    intro fuel hfuel output
    obtain ⟨fuel, rfl⟩ := exists_succ hfuel
    have hfuel : source.length < fuel := by
      simp only [length_cons, length_append] at hfuel
      omega
    have hopen : (digits ++ source).head? ≠ some '{' := by
      obtain ⟨d, digits, rfl⟩ := exists_cons_of_ne_nil hnum.nonempty
      intro heq
      have hd := hnum.all d mem_cons_self
      rw [Option.some.inj heq] at hd
      cases hd
    have hstep : parseTabstop (parseSnippet fuel true) (digits ++ source) output =
        .ok (source, output.pushStop number none output.text.len) := by
      rw [parseTabstop, if_neg hopen, parseInt_of_number hnum hhead]
      rfl
    rw [parseSnippet.eq_def, add_stop]
    dsimp only
    rw [hstep, firstChoice, pushText_nil, add_nil]
    · exact ih fuel hfuel _
    · exact nofun
  | @braced nested number digits choices tree inner source rest hnum hcho _ ih =>
    intro fuel hfuel output
    obtain ⟨fuel, rfl⟩ := exists_succ hfuel
    have hfuel : source.length < fuel := by
      have hle := hcho.length_le
      simp only [length_cons, length_append] at hfuel hle
      omega
    have hstep : parseTabstop (parseSnippet fuel true) ('{' :: (digits ++ inner)) output =
        .ok (source, (output.pushText (firstChoice choices)).pushStop number choices output.text.len) := by
      rw [parseTabstop, tail_cons, parseInt_of_number hnum (hcho.head_notDigit (by decide))]
      have hopt := parseOption_of_prints hcho (by simp) output
      simp only [bind, Except.bind, hopt]
      rfl
    rw [parseSnippet.eq_def, add_stop, add_nil]
    dsimp only
    rw [hstep]
    exact ih fuel hfuel _
  | @filled nested number digits choices content tree inner filling source rest hnum hcho hcont _ ihcontent ih =>
    intro fuel hfuel output
    obtain ⟨fuel, rfl⟩ := exists_succ hfuel
    have hle := hcho.length_le
    have hle' := hcont.length_le
    simp only [length_cons, length_append] at hfuel hle hle'
    have hstep : parseTabstop (parseSnippet fuel true) ('{' :: (digits ++ inner)) output =
        .ok (source, ((output.pushText (firstChoice choices)).add content).pushStop number choices output.text.len) := by
      rw [parseTabstop, tail_cons, parseInt_of_number hnum (hcho.head_notDigit (by decide))]
      have hopt := parseOption_of_prints hcho (by simp) output
      simp only [bind, Except.bind, hopt]
      rw [tail_cons, ihcontent fuel (by omega)]
      rfl
    rw [parseSnippet.eq_def, add_stop]
    dsimp only
    rw [hstep]
    exact ih fuel (by omega) _

/-! ## What is accepted is a print -/

theorem prints_of_parseOption {rest : Str} (h : parseOption source output = .ok (rest, choices, output')) (hrest : rest ≠ []) :
    PrintsOption choices source rest ∧ output' = output.pushText (firstChoice choices) := by
  rw [parseOption] at h
  by_cases hpipe : source.head? = some '|'
  · obtain ⟨source, rfl⟩ := head?_eq_some_iff.mp hpipe
    rw [tail_cons] at h
    cases hpar : parseChoices _ _ _ [] [] _ with
    | error error =>
      rw [hpar] at h
      cases h
    | ok result =>
      obtain ⟨rest', found, output''⟩ := result
      rw [hpar] at h
      cases h
      obtain ⟨choice, choices, hpri, rfl, rfl⟩ := prints_of_parseChoices _ hpar hrest
      exact ⟨.given hpri, rfl⟩
  · rw [if_neg hpipe] at h
    cases h
    exact ⟨.without _, (pushText_nil _).symm⟩

theorem prints_of_parseTabstop {parseNested : Str → Output → Except ParseError (Str × Output)}
    (hnest : ∀ {source rest output output'}, parseNested source output = .ok (rest, output') →
      ∃ tree, Prints true tree source rest ∧ output' = output.add tree)
    {rest : Str} (h : parseTabstop parseNested source output = .ok (rest, output')) :
    ∃ number choices content, output' = ((output.pushText (firstChoice choices)).add content).pushStop number choices output.text.len ∧
      rest.length ≤ source.length ∧
      ∀ {nested tree tail}, Prints nested tree rest tail → Prints nested (.stop number choices content tree) ('$' :: source) tail := by
  rw [parseTabstop] at h
  by_cases hopen : source.head? = some '{'
  · obtain ⟨source, rfl⟩ := head?_eq_some_iff.mp hopen
    rw [if_pos hopen, tail_cons] at h
    cases hint : parseInt _ with
    | error error =>
      rw [hint] at h
      cases h
    | ok result =>
      obtain ⟨number, inner⟩ := result
      obtain ⟨digits, rfl, hnum, -⟩ := number_of_parseInt hint
      rw [hint] at h
      cases hopt : parseOption inner output with
      | error error =>
        simp only [bind, Except.bind, hopt] at h
        cases h
      | ok result =>
        obtain ⟨filling, choices, written⟩ := result
        simp only [bind, Except.bind, hopt] at h
        by_cases hcol : filling.head? = some ':'
        · obtain ⟨filling, rfl⟩ := head?_eq_some_iff.mp hcol
          obtain ⟨hcho, rfl⟩ := prints_of_parseOption hopt (cons_ne_nil _ _)
          rw [if_pos hcol, tail_cons] at h
          cases hpar : parseNested _ _ with
          | error error =>
            rw [hpar] at h
            cases h
          | ok result =>
            obtain ⟨closing, filled⟩ := result
            obtain ⟨content, hcont, rfl⟩ := hnest hpar
            rw [hpar] at h
            dsimp only at h
            split at h
            · rename_i hclos
              obtain ⟨closing, rfl⟩ := head?_eq_some_iff.mp hclos
              cases h
              refine ⟨number, choices, content, rfl, ?_, fun hrest => .filled hnum hcho hcont hrest⟩
              have hle := hcho.length_le
              have hle' := hcont.length_le
              simp only [length_cons, length_append, tail_cons] at hle hle' ⊢
              omega
            · cases h
        · rw [if_neg hcol] at h
          split at h
          · rename_i hclos
            obtain ⟨closing, rfl⟩ := head?_eq_some_iff.mp hclos
            obtain ⟨hcho, rfl⟩ := prints_of_parseOption hopt (cons_ne_nil _ _)
            cases h
            refine ⟨number, choices, .nil, by rw [add_nil], ?_, fun hrest => .braced hnum hcho hrest⟩
            have hle := hcho.length_le
            simp only [length_cons, length_append, tail_cons] at hle ⊢
            omega
          · cases h
  · rw [if_neg hopen] at h
    cases hint : parseInt _ with
    | error error =>
      rw [hint] at h
      cases h
    | ok result =>
      obtain ⟨number, inner⟩ := result
      obtain ⟨digits, rfl, hnum, hhead⟩ := number_of_parseInt hint
      rw [hint] at h
      cases h
      refine ⟨number, none, .nil, ?_, ?_, fun hrest => .bare hnum hhead hrest⟩
      · rw [add_nil, firstChoice, pushText_nil]
        exact nofun
      · rw [length_append]
        exact Nat.le_add_left _ _

theorem prints_of_parseSnippet (fuel : Nat) : ∀ {nested : Bool} {source rest : Str} {output output' : Output},
    parseSnippet fuel nested source output = .ok (rest, output') → ∃ tree, Prints nested tree source rest ∧ output' = output.add tree := by
  induction fuel with
  | zero =>
    intro nested source rest output output' h
    cases h
  | succ fuel ih =>
    intro nested source rest output output' h
    cases source with
    | nil =>
      cases h
      exact ⟨.nil, .done _, (add_nil _).symm⟩
    | cons c source =>
      rw [parseSnippet.eq_def] at h
      dsimp only at h
      by_cases hdol : c = '$'
      · rw [if_pos hdol] at h
        cases hstop : parseTabstop _ _ _ with
        | error error =>
          rw [hstop] at h
          cases h
        | ok result =>
          obtain ⟨behind, written⟩ := result
          rw [hstop] at h
          obtain ⟨number, choices, content, rfl, -, hpri⟩ := prints_of_parseTabstop ih hstop
          obtain ⟨tree, hrest, rfl⟩ := ih h
          exact ⟨.stop _ _ _ tree, hdol ▸ hpri hrest, (add_stop _ _ _ _ _).symm⟩
      · rw [if_neg hdol] at h
        by_cases hbac : c = '\\'
        · subst hbac
          cases source with
          | nil =>
            obtain ⟨tree, hrest, rfl⟩ := ih h
            exact ⟨.char '\\' tree, .backslash nofun hrest, (add_char _ _ _).symm⟩
          | cons escaped source =>
            dsimp only at h
            cases hpln : isPlain _ with
            | true =>
              rw [hpln, if_pos rfl] at h
              obtain ⟨tree, hrest, rfl⟩ := ih h
              exact ⟨.char '\\' tree, .backslash (fun d hd => Option.some.inj hd ▸ hpln) hrest, (add_char _ _ _).symm⟩
            | false =>
              rw [hpln, if_neg Bool.false_ne_true] at h
              obtain ⟨tree, hrest, rfl⟩ := ih h
              exact ⟨.char _ tree, .escaped hpln hrest, (add_char _ _ _).symm⟩
        · rw [if_neg hbac] at h
          by_cases hbra : c = '}'
          · subst hbra
            cases nested with
            | true =>
              cases h
              exact ⟨.nil, .closed _, (add_nil _).symm⟩
            | false =>
              rw [if_neg Bool.false_ne_true] at h
              obtain ⟨tree, hrest, rfl⟩ := ih h
              exact ⟨.char '}' tree, .brace hrest, (add_char _ _ _).symm⟩
          · rw [if_neg hbra] at h
            obtain ⟨tree, hrest, rfl⟩ := ih h
            have hchu : ∀ (chunk : Str) (output : Output), (∀ x ∈ chunk, isPlain x = true) →
                ∃ tree', Prints nested tree' (chunk ++ (c :: source).dropWhile isPlain) rest ∧
                  (output.pushText chunk).add tree = output.add tree' := by
              intro chunk
              induction chunk with
              | nil => exact fun output _ => ⟨tree, hrest, by rw [pushText_nil]⟩
              | cons x chunk ihchunk =>
                intro output hpln
                obtain ⟨hx, hpln⟩ := forall_mem_cons.mp hpln
                obtain ⟨tree', hpri, hadd⟩ := ihchunk _ hpln
                refine ⟨.char x _, .plain hx hpri, ?_⟩
                rw [add_char, ← hadd, pushText_pushText, singleton_append]
            obtain ⟨tree', hpri, hadd⟩ := hchu _ _ fun x hx => mem_takeWhile_imp hx
            rw [takeWhile_append_dropWhile] at hpri
            exact ⟨tree', hpri, hadd⟩

end Wu.Snippet
