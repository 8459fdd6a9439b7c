import Wu.CharLists

/-!
# Relative paths

A relative path is text in which slashes separate components. Text of a user is made into one by cutting off dots in front and
separators behind, and, when that is not enough, by putting it together from its components anew.
-/

namespace Wu.Path

open CharLists (splitOnce rsplitOnce)

inductive PathStyle where
  | unix
  | windows
  deriving DecidableEq, Repr

/-- Whether a character separates components in a style. -/
def isSeparator (style : PathStyle) (c : Char) : Bool := c == '/' || style == .windows && c == '\\'

/-- A letter, a colon and a separator. -/
def startsWithDrive : List Char → Bool
  | drive :: ':' :: c :: _ => drive.isAlpha && (c == '/' || c == '\\')
  | _ => false

def isAbsolute (style : PathStyle) (path : List Char) : Bool :=
  path.head? == some '/' || style == .windows && (path.head? == some '\\' || startsWithDrive path)

/-! ## Components -/

/-- `RelPathComponents::next`: the component in front, and the rest of the text. -/
def next (text : List Char) : Option (List Char × List Char) :=
  match splitOnce ['/'] text with
  | some (head, tail) => some (head, tail)
  | none => if text = [] then none else some (text, [])

/-- `RelPathComponents::next_back`. -/
def nextBack (text : List Char) : Option (List Char × List Char) :=
  match rsplitOnce '/' text with
  | some (head, tail) => some (tail, head)
  | none => if text = [] then none else some (text, [])

theorem next_length {text head tail : List Char} (h : next text = some (head, tail)) : tail.length < text.length := by
  rw [next] at h
  cases hspl : splitOnce _ text with
  | some found =>
    rw [hspl] at h
    cases h
    have hlen := congrArg List.length (CharLists.splitOnce_spec hspl)
    rw [List.length_append, List.length_append, List.length_singleton] at hlen
    omega
  | none =>
    rw [hspl] at h
    by_cases hnil : text = []
    · rw [if_pos hnil] at h
      cases h
    · rw [if_neg hnil] at h
      cases h
      exact List.length_pos_of_ne_nil hnil

/-- `RelPath::components`. -/
def components (text : List Char) : List (List Char) :=
  match _h : next text with
  | some (head, tail) => head :: components tail
  | none => []
termination_by text.length
decreasing_by exact next_length _h

/-! ## Making a path -/

/-- A path as it was, or put together anew. -/
inductive Cow where
  | borrowed (text : List Char)
  | owned (text : List Char)
  deriving DecidableEq, Repr

def Cow.text : Cow → List Char
  | .borrowed text => text
  | .owned text => text

inductive RelPathError where
  /-- absolute path not allowed -/
  | absolute (path : List Char)
  /-- path is not relative -/
  | notRelative (path : List Char)
  /-- invalid relative path -/
  | invalid (path : List Char)
  deriving DecidableEq, Repr

/-- `RelPathBuf::pop`. -/
def pop (text : List Char) : Option (List Char) :=
  match rsplitOnce '/' text with
  | some (head, _) => some head
  | none => if text = [] then none else some []

/-- `RelPathBuf::push`. -/
def push (text path : List Char) : List Char :=
  if path = [] then text
  else if text = [] then path
  else text ++ '/' :: path

/-- The components one after another, where `..` takes the last one away again. -/
def normalize : List (List Char) → List Char → Option (List Char)
  | [], normalized => some normalized
  | component :: rest, normalized =>
    if component = [] ∨ component = ['.'] then normalize rest normalized
    else if component = ['.', '.'] then (pop normalized).bind (normalize rest)
    else normalize rest (push normalized component)

/-- Cuts off `./` in front, and `.\` too on Windows, as often as it stands there. -/
def trimDots (style : PathStyle) : List Char → List Char
  | '.' :: c :: rest => if isSeparator style c then trimDots style rest else '.' :: c :: rest
  | text => text

/-- Cuts off separators in front, as long as something is left. -/
def trimSeparators (style : PathStyle) : List Char → List Char
  | c :: d :: rest => if isSeparator style c then trimSeparators style (d :: rest) else c :: d :: rest
  | text => text

/-- Text without dots in front and without separators behind. -/
def trimmed (style : PathStyle) (path : List Char) : List Char :=
  (trimSeparators style (trimDots style path).reverse).reverse

/-- Text with slashes for the separators of a style. -/
def withSlashes (style : PathStyle) (path : List Char) : List Char :=
  path.map fun c => if isSeparator style c then '/' else c

/-- The text with slashes, which is anew only when a separator has to be replaced. -/
def slashed (style : PathStyle) (path : List Char) : Cow :=
  if style = .windows ∧ '\\' ∈ path then .owned (withSlashes style path) else .borrowed path

/-- A component that is no name. -/
def isSkipped (component : List Char) : Bool := component == [] || component == ['.'] || component == ['.', '.']

/-- The path is put together anew when one of its components is no name. -/
def normalized (path : Cow) : Except RelPathError Cow :=
  if (components path.text).any isSkipped then
    match normalize (components path.text) [] with
    | some text => .ok (.owned text)
    | none => .error (.notRelative path.text)
  else .ok path

/-- `RelPath::new`. -/
def new (path : List Char) (style : PathStyle) : Except RelPathError Cow :=
  let path := trimmed style path
  if isAbsolute style path then .error (.absolute path) else normalized (slashed style path)

/-- `RelPath::from_unix_str`. -/
def fromUnixStr (path : List Char) : Except RelPathError (List Char) :=
  match new path .unix with
  | .ok (.borrowed path) => .ok path
  | .ok (.owned _) => .error (.invalid path)
  | .error error => .error error

/-! ## Operations -/

/-- `RelPath::strip_prefix`. -/
def stripPrefix (text other : List Char) : Option (List Char) :=
  if other = [] then some text
  else if other <+: text then
    match text.drop other.length with
    | '/' :: suffix => some suffix
    | [] => some []
    | _ => none
  else none

/-- `RelPath::starts_with`. -/
def startsWith (text other : List Char) : Bool := (stripPrefix text other).isSome

/-- `RelPath::join`. -/
def join (text other : List Char) : List Char :=
  if text = [] then other
  else if other = [] then text
  else text ++ '/' :: other

/-- `Ord for RelPath`. -/
def cmp (text other : List Char) : Ordering := compare (components text) (components other)

/-! ## Ancestors -/

/-- `RelPathAncestors`; positions are counted in characters. -/
structure RelPathAncestors where
  full : List Char
  front : Nat
  back : Nat
  done : Bool
  deriving DecidableEq, Repr

/-- `RelPath::ancestors`. -/
def ancestors (text : List Char) : RelPathAncestors := ⟨text, text.length, 0, false⟩

/-- Where the first separator stands. -/
def find (text : List Char) : Option Nat := (splitOnce ['/'] text).map fun (head, _) => head.length

/-- Where the last separator stands. -/
def rfind (text : List Char) : Option Nat := (rsplitOnce '/' text).map fun (head, _) => head.length

namespace RelPathAncestors

def next (self : RelPathAncestors) : Option (List Char × RelPathAncestors) :=
  if self.done then none
  else
    let result := self.full.take self.front
    if self.front = self.back then some (result, { self with done := true })
    else some (result, { self with front := (rfind result).getD 0 })

def nextBack (self : RelPathAncestors) : Option (List Char × RelPathAncestors) :=
  if self.done then none
  else
    let result := self.full.take self.back
    if self.front = self.back then some (result, { self with done := true })
    else
      let searchStart := if self.back = 0 then 0 else self.back + 1
      let back := ((find (self.full.drop searchStart)).map (searchStart + ·)).getD self.full.length
      some (result, { self with back := back })

end RelPathAncestors

example : new "./foo/../bar\\/".toList .windows = .ok (.owned "bar".toList) := by decide +kernel

end Wu.Path
