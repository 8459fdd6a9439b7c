import Wu.CharLists
import Wu.Rope.Str

/-!
# Parsing snippets

A snippet is text with tab stops, placeholders and choices. The parser writes the text and collects the ranges of each tab stop, by its
number.
-/

namespace Wu

structure TabStop where
  ranges : List (Nat × Nat)
  choices : Option (List Str)

structure Snippet where
  text : Str
  tabstops : List TabStop

namespace Snippet

inductive ParseError where
  /-- `expected a closing brace` -/
  | closingBrace
  /-- `expected an integer` -/
  | integer
  /-- The error of `str::parse`. -/
  | tooLarge
  /-- `Placeholder choice doesn't contain closing pipe-character '|'` -/
  | closingPipe
  | outOfFuel

/-- The text and the tab stops by their numbers, which a `BTreeMap` keeps in order. -/
structure Output where
  text : Str
  tabstops : List (Nat × TabStop)

/-- `entry`, `or_insert_with` and the `push` of a range. -/
def pushRange (index : Nat) (choices : Option (List Str)) (range : Nat × Nat) : List (Nat × TabStop) → List (Nat × TabStop)
  | [] => [(index, ⟨[range], choices⟩)]
  | (key, stop) :: stops =>
    if index < key then (index, ⟨[range], choices⟩) :: (key, stop) :: stops
    else if index = key then (key, { stop with ranges := stop.ranges ++ [range] }) :: stops
    else (key, stop) :: pushRange index choices range stops

def Output.pushText (output : Output) (text : Str) : Output := { output with text := output.text ++ text }

/-- The end of a tab stop that began at an offset. -/
def Output.pushStop (output : Output) (index : Nat) (choices : Option (List Str)) (start : Nat) : Output :=
  { output with tabstops := pushRange index choices (start, output.text.len) output.tabstops }

def parseInt (source : Str) : Except ParseError (Nat × Str) :=
  let digits := source.takeWhile Char.isDigit
  if digits = [] then .error .integer
  else
    match CharLists.parseUnsigned (2 ^ 64) digits with
    | some index => .ok (index, source.dropWhile Char.isDigit)
    | none => .error .tooLarge

/-- Says that a character has no meaning in choices. -/
def isPlainChoice (c : Char) : Bool := !(c == ',' || c == '|' || c == '\\')

def parseChoices : Nat → Str → Bool → Str → List Str → Output → Except ParseError (Str × List Str × Output)
  | 0, _, _, _, _, _ => .error .outOfFuel
  | _ + 1, [], _, _, choices, output => .ok ([], choices, output)
  | fuel + 1, c :: source, foundDefaultChoice, currentChoice, choices, output =>
    if c = '\\' then
      match source with
      | [] => parseChoices fuel [] foundDefaultChoice currentChoice choices output
      | escaped :: source =>
        parseChoices fuel source foundDefaultChoice (currentChoice ++ [escaped]) choices
          (if foundDefaultChoice then output else output.pushText [escaped])
    else if c = ',' then parseChoices fuel source true [] (choices ++ [currentChoice]) output
    else if c = '|' then .ok (source, choices ++ [currentChoice], output)
    else
      let chunk := (c :: source).takeWhile isPlainChoice
      let rest := (c :: source).dropWhile isPlainChoice
      if rest = [] then .error .closingPipe
      else
        parseChoices fuel rest foundDefaultChoice (currentChoice ++ chunk) choices
          (if foundDefaultChoice then output else output.pushText chunk)

/-- The choices of a tab stop, if it has some. -/
def parseOption (source : Str) (output : Output) : Except ParseError (Str × Option (List Str) × Output) :=
  if source.head? = some '|' then
    match parseChoices (source.length + 1) source.tail false [] [] output with
    | .ok (source, choices, output) => .ok (source, some choices, output)
    | .error error => .error error
  else .ok (source, none, output)

/-- A tab stop behind its dollar sign; nested content is parsed by the given parser. -/
def parseTabstop (parseNested : Str → Output → Except ParseError (Str × Output)) (source : Str) (output : Output) :
    Except ParseError (Str × Output) := do
  let tabstopStart := output.text.len
  if source.head? = some '{' then
    let (tabstopIndex, source) ← parseInt source.tail
    let (source, choices, output) ← parseOption source output
    let (source, output) ← if source.head? = some ':' then parseNested source.tail output else .ok (source, output)
    if source.head? = some '}' then .ok (source.tail, output.pushStop tabstopIndex choices tabstopStart) else .error .closingBrace
  else
    let (tabstopIndex, source) ← parseInt source
    .ok (source, output.pushStop tabstopIndex none tabstopStart)

/-- Says that a character has no meaning in text. -/
def isPlain (c : Char) : Bool := !(c == '}' || c == '$' || c == '\\')

def parseSnippet : Nat → Bool → Str → Output → Except ParseError (Str × Output)
  | 0, _, _, _ => .error .outOfFuel
  | _ + 1, _, [], output => .ok ([], output)
  | fuel + 1, nested, c :: source, output =>
    if c = '$' then do
      let (source, output) ← parseTabstop (parseSnippet fuel true) source output
      parseSnippet fuel nested source output
    else if c = '\\' then
      match source with
      | [] => parseSnippet fuel nested [] (output.pushText ['\\'])
      | escaped :: rest =>
        if isPlain escaped then parseSnippet fuel nested source (output.pushText ['\\'])
        else parseSnippet fuel nested rest (output.pushText [escaped])
    else if c = '}' then
      if nested then .ok (c :: source, output) else parseSnippet fuel nested source (output.pushText ['}'])
    else
      parseSnippet fuel nested ((c :: source).dropWhile isPlain) (output.pushText ((c :: source).takeWhile isPlain))

/-- The tab stop at the end stands in for a missing one with the number zero. -/
def finalTabstops (len : Nat) (stops : List (Nat × TabStop)) : List TabStop :=
  let tabstops := (stops.filter fun stop => stop.1 ≠ 0).map Prod.snd
  match stops.find? fun stop => stop.1 = 0 with
  | some (_, finalTabstop) => tabstops ++ [finalTabstop]
  | none =>
    if tabstops.getLast?.any fun stop => stop.ranges = [(len, len)] ∧ stop.choices = none then tabstops
    else tabstops ++ [⟨[(len, len)], none⟩]

def parse (source : Str) : Except ParseError Snippet := do
  let (_, output) ← parseSnippet (source.length + 1) false source ⟨[], []⟩
  .ok ⟨output.text, finalTabstops output.text.len output.tabstops⟩

end Snippet

end Wu
