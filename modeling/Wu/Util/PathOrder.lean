import Wu.Path.RelPath
import Wu.StdPath
import Wu.Util.NaturalSort

/-!
# Order of paths

Paths are compared component by component, files and directories apart or together, and files by their stems before their extensions.
All of it is an order but for the numbers in names.
-/

namespace Wu.Util.PathOrder

open Ordering Circles

open Strings (toAsciiLower)
open Circles (IsTournament IsCircle Alike First OrderedAt)

/-- What is known of characters: `char::is_lowercase`, `char::is_uppercase` and `str::to_lowercase`. -/
structure Casing where
  isLowercase : Char → Bool
  isUppercase : Char → Bool
  toLowercase : List Char → List Char

/-! ## Comparing components -/

def stemAndExtension (filename : List Char) : Option (List Char) × Option (List Char) :=
  if filename = [] then (none, none)
  else
    match CharLists.rsplitOnce '.' filename with
    | none => (some filename, none)
    | some (before, after) => if before = [] then (some filename, none) else (some before, some after)

inductive SortOrder where
  | default
  | upper
  | lower
  | unicode
  deriving DecidableEq, Repr

inductive SortMode where
  | directoriesFirst
  | mixed
  | filesFirst
  deriving DecidableEq, Repr

def caseGroupKey (casing : Casing) (name : List Char) (order : SortOrder) : Nat :=
  match name with
  | [] => 0
  | first :: _ =>
    match order with
    | .upper => if casing.isLowercase first then 1 else 0
    | .lower => if casing.isUppercase first then 1 else 0
    | _ => 0

def compareStrings (order : SortOrder) (a b : List Char) : Ordering :=
  match order with
  | .unicode => compare a b
  | _ => naturalSort a b

def compareStringsNoTiebreak (order : SortOrder) (a b : List Char) : Ordering :=
  match order with
  | .unicode => compare a b
  | _ => naturalSortNoTiebreak a b

/-- How names are compared in a mode. -/
def compareNames (mode : SortMode) (order : SortOrder) (a b : List Char) : Ordering :=
  match mode with
  | .directoriesFirst => compareStrings order a b
  | _ => compareStringsNoTiebreak order a b

/-- A missing key comes before the other ones. -/
def compareKeys (cmp : List Char → List Char → Ordering) : Option (List Char) → Option (List Char) → Ordering
  | some a, some b => cmp a b
  | some _, none => .gt
  | none, some _ => .lt
  | none, none => .eq

/-- A component, and whether it is the name of a file. -/
structure Item where
  component : List Char
  leafFile : Bool

namespace Item

/-- The name that the component is compared by: the stem of a file. -/
def key (item : Item) : Option (List Char) :=
  if item.leafFile then (stemAndExtension item.component).1 else some item.component

def ext (item : Item) : Option (List Char) := if item.leafFile then (stemAndExtension item.component).2 else none

end Item

def fileDirOrdering (mode : SortMode) (a b : Item) : Ordering :=
  match mode with
  | .directoriesFirst => compare a.leafFile b.leafFile
  | .filesFirst => compare b.leafFile a.leafFile
  | .mixed => .eq

/-- Where files and directories are mixed, a directory comes before a file of that name. -/
def compareMixed (mode : SortMode) (aLeafFile bLeafFile : Bool) (a b : List Char) : Ordering :=
  if mode = .mixed then
    match aLeafFile, bLeafFile with
    | true, false => if eqIgnoreAsciiCase a b then .gt else .eq
    | false, true => if eqIgnoreAsciiCase a b then .lt else .eq
    | _, _ => .eq
  else .eq

def compareExtensions (casing : Casing) (order : SortOrder) (a b : Item) : Ordering :=
  if a.leafFile && b.leafFile then
    match order with
    | .unicode => compare (a.ext.getD []) (b.ext.getD [])
    | _ => compare (casing.toLowercase (a.ext.getD [])) (casing.toLowercase (b.ext.getD []))
  else .eq

/-- What the loop of `compare_rel_paths_by` does for two components. -/
def compareItems (casing : Casing) (mode : SortMode) (order : SortOrder) (a b : Item) : Ordering :=
  (fileDirOrdering mode a b).then <|
    compareKeys (fun aKey bKey =>
      ((compare (caseGroupKey casing aKey order) (caseGroupKey casing bKey order)).then (compareNames mode order aKey bKey)).then
        ((compareMixed mode a.leafFile b.leafFile aKey bKey).then (compareExtensions casing order a b)))
      a.key b.key

/-- The loop of `compare_rel_paths_by` over what is left of two paths. -/
def compareComponents (casing : Casing) (mode : SortMode) (order : SortOrder) (aIsFile bIsFile : Bool) (tiebreak : Ordering)
    (a b : List Char) : Ordering :=
  match _h : Path.next a, Path.next b with
  | some (componentA, restA), some (componentB, restB) =>
    match compareItems casing mode order ⟨componentA, aIsFile && restA.isEmpty⟩ ⟨componentB, bIsFile && restB.isEmpty⟩ with
    | .eq => compareComponents casing mode order aIsFile bIsFile tiebreak restA restB
    | ordering => ordering
  | some _, none => .gt
  | none, some _ => .lt
  | none, none => tiebreak
termination_by a.length
decreasing_by exact Path.next_length _h

/-- `compare_rel_paths_by`. -/
def compareRelPathsBy (casing : Casing) (mode : SortMode) (order : SortOrder) (a b : List Char × Bool) : Ordering :=
  compareComponents casing mode order a.2 b.2
    (if mode ≠ .directoriesFirst ∧ a.1 ≠ b.1 then compareStrings order a.1 b.1 else .eq) a.1 b.1

/-! ## Comparing paths of the file system -/

/-- A component of a path of the file system, and whether it is the name of a file. -/
structure PathItem where
  component : StdPath.Component
  isFile : Bool

namespace PathItem

/-- The name that the component is compared by, made into text by `to_string_lossy`. -/
def pathString (toStringLossy : List Char → List Char) (item : PathItem) : Option (List Char) :=
  let path := item.component.asOsStr
  (if item.isFile then StdPath.fileStem path else StdPath.fileName path).map toStringLossy

def ext (item : PathItem) : List Char := (StdPath.extension item.component.asOsStr).getD []

end PathItem

/-- What the loop of `compare_paths` does for two components. -/
def comparePathItems (toStringLossy : List Char → List Char) (a b : PathItem) : Ordering :=
  (compare a.isFile b.isFile).then <|
    (compareKeys naturalSort (a.pathString toStringLossy) (b.pathString toStringLossy)).then <|
      if a.isFile && b.isFile then compare a.ext b.ext else .eq

/-- The loop of `compare_paths` over what is left of two paths. -/
def comparePathComponents (toStringLossy : List Char → List Char) (aIsFile bIsFile : Bool) :
    List StdPath.Component → List StdPath.Component → Ordering
  | a :: as, b :: bs =>
    match comparePathItems toStringLossy ⟨a, as.isEmpty && aIsFile⟩ ⟨b, bs.isEmpty && bIsFile⟩ with
    | .eq => comparePathComponents toStringLossy aIsFile bIsFile as bs
    | ordering => ordering
  | _ :: _, [] => .gt
  | [], _ :: _ => .lt
  | [], [] => .eq

/-- `compare_paths`. -/
def comparePaths (toStringLossy : List Char → List Char) (a b : List Char × Bool) : Ordering :=
  comparePathComponents toStringLossy a.2 b.2 (StdPath.components a.1) (StdPath.components b.1)

/-! ## Components one after another -/

/-- The components of a relative path, with the last one the name of a file. -/
def items (isFile : Bool) (text : List Char) : List Item :=
  match _h : Path.next text with
  | some (component, rest) => ⟨component, isFile && rest.isEmpty⟩ :: items isFile rest
  | none => []
termination_by text.length
decreasing_by exact Path.next_length _h

def pathItems (isFile : Bool) : List StdPath.Component → List PathItem
  | [] => []
  | component :: rest => ⟨component, rest.isEmpty && isFile⟩ :: pathItems isFile rest

theorem items_some {isFile : Bool} {text component rest : List Char} (h : Path.next text = some (component, rest)) :
    items isFile text = ⟨component, isFile && rest.isEmpty⟩ :: items isFile rest := by
  rw [items]
  split
  · rename_i heq
    rw [h] at heq
    cases heq
    rfl
  · rename_i heq
    rw [h] at heq
    cases heq

theorem items_none {isFile : Bool} {text : List Char} (h : Path.next text = none) : items isFile text = [] := by
  rw [items]
  split
  · rename_i heq
    rw [h] at heq
    cases heq
  · rfl

/-- Relative paths are compared as lists of items, and then by what comes last. -/
theorem compareComponents_eq (casing : Casing) (mode : SortMode) (order : SortOrder) (aIsFile bIsFile : Bool)
    (tiebreak : Ordering) (a b : List Char) :
    compareComponents casing mode order aIsFile bIsFile tiebreak a b =
      (List.compareLex (compareItems casing mode order) (items aIsFile a) (items bIsFile b)).then tiebreak := by
  fun_induction compareComponents _ mode _ _ _ _ a b with
  | case1 a b componentA restA componentB restB hb ha heq ih =>
    rw [items_some ha, items_some hb, List.compareLex_cons_cons, heq, ih]
    rfl
  | case2 a b componentA restA componentB restB hb ha hne =>
    rw [items_some ha, items_some hb, List.compareLex_cons_cons, then_of_ne hne, then_of_ne hne]
  | case3 a b found ha hb =>
    rw [items_some ha, items_none hb]
    rfl
  | case4 a b found ha hb =>
    rw [items_none ha, items_some hb]
    rfl
  | case5 a b hb ha =>
    rw [items_none ha, items_none hb]
    rfl

theorem comparePathComponents_eq (toStringLossy : List Char → List Char) (aIsFile bIsFile : Bool) (as bs : List StdPath.Component) :
    comparePathComponents toStringLossy aIsFile bIsFile as bs =
      List.compareLex (comparePathItems toStringLossy) (pathItems aIsFile as) (pathItems bIsFile bs) := by
  fun_induction comparePathComponents _ _ _ as bs with
  | case1 a as b bs heq ih =>
    rw [pathItems, pathItems, List.compareLex_cons_cons, heq, ih]
    rfl
  | case2 a as b bs hne => rw [pathItems, pathItems, List.compareLex_cons_cons, then_of_ne hne]
  | case3 a as => rfl
  | case4 b bs => rfl
  | case5 => rfl

/-! ## What items are compared by -/

theorem compareKeys_eq {cmp : List Char → List Char → Ordering} {a b : Option (List Char)}
    (h : a = none → b = none → cmp [] [] = .eq) :
    compareKeys cmp a b = (compare a.isSome b.isSome).then (cmp (a.getD []) (b.getD [])) := by
  cases a with
  | some a => cases b <;> rfl
  | none =>
    cases b with
    | some b => rfl
    | none => exact (h rfl rfl).symm

theorem then_congr {x y z : Ordering} (h : x = .eq → y = z) : x.then y = x.then z := by
  cases x with
  | eq => exact h rfl
  | lt => rfl
  | gt => rfl

/-- Names that are compared exactly are their own keys, and other ones are in lower case. -/
def nameKey (mode : SortMode) (order : SortOrder) (name : List Char) : List Char :=
  if mode = .directoriesFirst ∨ order = .unicode then name else name.map toAsciiLower

theorem compareNames_isTournament (mode : SortMode) (order : SortOrder) : IsTournament (compareNames mode order) := by
  cases mode <;> cases order <;>
    first
    | exact (IsTournament.of_transCmp : IsTournament (compare : List Char → List Char → Ordering))
    | exact naturalSort_isTournament
    | exact naturalSortNoTiebreak_isTournament

theorem compareNames_eq_iff {mode : SortMode} {order : SortOrder} {a b : List Char} :
    compareNames mode order a b = .eq ↔ nameKey mode order a = nameKey mode order b := by
  cases mode <;> cases order <;>
    first
    | exact Std.LawfulEqOrd.compare_eq_iff_eq
    | exact naturalSort_eq_iff
    | exact naturalSortNoTiebreak_eq_iff

/-- Names that are compared by code points are never in a circle. -/
theorem circle_names_iff (mode : SortMode) (order : SortOrder) (a b c : List Char) :
    IsCircle (compareNames mode order) a b c ↔ order ≠ .unicode ∧ Tangled a b c := by
  have huni : ¬IsCircle (compare : List Char → List Char → Ordering) a b c := IsTournament.not_circle a b c
  cases mode <;> cases order <;>
    first
    | exact iff_of_false huni fun h => h.1 rfl
    | exact (circle_naturalSort_iff a b c).trans (and_iff_right nofun).symm
    | exact (circle_naturalSortNoTiebreak_iff a b c).trans (and_iff_right nofun).symm

namespace Item

def name (item : Item) : List Char := item.key.getD []

/-- The extension that a file is compared by. -/
def extKey (casing : Casing) (order : SortOrder) (item : Item) : List Char :=
  if item.leafFile then if order = .unicode then item.ext.getD [] else casing.toLowercase (item.ext.getD []) else []

/-- What is compared before the name. -/
def front (casing : Casing) (mode : SortMode) (order : SortOrder) (item : Item) : Bool × Bool × Nat :=
  (mode ≠ .mixed && item.leafFile, item.key.isSome, caseGroupKey casing item.name order)

/-- All that the item is compared by. -/
def sortKey (casing : Casing) (mode : SortMode) (order : SortOrder) (item : Item) :
    (Bool × Bool × Nat) × List Char × Bool × List Char :=
  (item.front casing mode order, nameKey mode order item.name, item.leafFile, item.extKey casing order)

end Item

variable (casing : Casing) (mode : SortMode) (order : SortOrder)

def frontOrder (a b : Item) : Ordering :=
  (fileDirOrdering mode a b).then <|
    (compare a.key.isSome b.key.isSome).then (compare (caseGroupKey casing a.name order) (caseGroupKey casing b.name order))

def backOrder (a b : Item) : Ordering :=
  (compare a.leafFile b.leafFile).then (compare (a.extKey casing order) (b.extKey casing order))

instance : Std.TransCmp (fileDirOrdering mode) :=
  match mode with
  | .directoriesFirst => inferInstanceAs (Std.TransCmp (compareOn Item.leafFile))
  | .filesFirst => inferInstanceAs (Std.TransCmp fun a b => compareOn Item.leafFile b a)
  | .mixed => inferInstanceAs (Std.TransCmp (compareOn fun _ : Item => false))

instance : Std.TransCmp (frontOrder casing mode order) :=
  inferInstanceAs (Std.TransCmp (compareLex (fileDirOrdering mode) (compareLex (compareOn fun item : Item => item.key.isSome)
    (compareOn fun item : Item => caseGroupKey casing item.name order))))

instance : Std.TransCmp (backOrder casing order) :=
  inferInstanceAs (Std.TransCmp (compareLex (compareOn Item.leafFile) (compareOn (Item.extKey casing order))))

theorem fileDirOrdering_eq_iff {mode : SortMode} {a b : Item} :
    fileDirOrdering mode a b = .eq ↔ (mode ≠ .mixed && a.leafFile) = (mode ≠ .mixed && b.leafFile) := by
  cases mode with
  | directoriesFirst => exact Std.LawfulEqOrd.compare_eq_iff_eq
  | filesFirst => exact Std.LawfulEqOrd.compare_eq_iff_eq.trans eq_comm
  | mixed => exact iff_of_true rfl rfl

theorem compareMixed_same (leafFile : Bool) (a b : List Char) : compareMixed mode leafFile leafFile a b = .eq := by
  cases leafFile <;> exact ite_self _

theorem compareExtensions_same {a b : Item} (h : a.leafFile = b.leafFile) :
    compareExtensions casing order a b = compare (a.extKey casing order) (b.extKey casing order) := by
  unfold compareExtensions
  rw [Item.extKey, Item.extKey, ← h]
  cases a.leafFile with
  | false => rfl
  | true => cases order <;> rfl

theorem lower_of_nameKey {mode : SortMode} {order : SortOrder} {a b : List Char}
    (h : nameKey mode order a = nameKey mode order b) : a.map toAsciiLower = b.map toAsciiLower := by
  rw [nameKey, nameKey] at h
  split at h
  · rw [h]
  · exact h

/-- Behind equal names, files come after directories, and are compared by their extensions. -/
theorem compare_behind {a b : Item} (hfile : fileDirOrdering mode a b = .eq) (hnames : compareNames mode order a.name b.name = .eq) :
    (compareMixed mode a.leafFile b.leafFile a.name b.name).then (compareExtensions casing order a b) =
      backOrder casing order a b := by
  by_cases hleaf : a.leafFile = b.leafFile
  · rw [compareExtensions_same _ _ hleaf, backOrder, hleaf, compareMixed_same, Std.ReflOrd.compare_self]
  · -- only in mixed mode a file and a directory get here, and then their names are equal in lower case
    have hmode : mode = .mixed := by
      by_contra hmode
      rw [fileDirOrdering_eq_iff, decide_eq_true hmode] at hfile
      exact hleaf hfile
    have hcase : eqIgnoreAsciiCase a.name b.name = true := beq_iff_eq.mpr (lower_of_nameKey (compareNames_eq_iff.mp hnames))
    unfold compareMixed
    rw [if_pos hmode, backOrder, hcase]
    cases ha : a.leafFile <;> cases hb : b.leafFile
    · exact absurd (ha.trans hb.symm) hleaf
    · rfl
    · rfl
    · exact absurd (ha.trans hb.symm) hleaf

/-- Only an empty file name has no key. -/
theorem Item.eq_of_key {item : Item} (h : item.key = none) : item = ⟨[], true⟩ := by
  obtain ⟨component, leafFile⟩ := item
  cases leafFile with
  | false => cases h
  | true =>
    rw [Item.key, if_pos rfl, stemAndExtension] at h
    split at h
    · rename_i hnil
      obtain rfl : component = [] := hnil
      rfl
    · split at h
      · cases h
      · split at h <;> cases h

theorem compareItems_eq (a b : Item) : compareItems casing mode order a b =
      (frontOrder casing mode order a b).then ((compareNames mode order a.name b.name).then (backOrder casing order a b)) := by
  rw [frontOrder, then_assoc]
  refine then_congr fun hfile => ?_
  rw [compareKeys_eq, then_assoc, then_assoc]
  · refine then_congr fun _ => then_congr fun _ => ?_
    exact then_congr fun hnames => compare_behind _ mode _ hfile hnames
  · intro ha hb
    rw [Item.eq_of_key ha, Item.eq_of_key hb, compareMixed_same, compareExtensions_same _ _ rfl,
      Std.ReflOrd.compare_self, Std.ReflOrd.compare_self, (compareNames_isTournament mode _).self]
    rfl

theorem compareItems_eq_iff (a b : Item) :
    compareItems casing mode order a b = .eq ↔ a.sortKey casing mode order = b.sortKey casing mode order := by
  rw [compareItems_eq, frontOrder, backOrder, Item.sortKey, Item.sortKey, Item.front, Item.front]
  simp only [then_eq_eq, Std.LawfulEqOrd.compare_eq_iff_eq, compareNames_eq_iff, fileDirOrdering_eq_iff, Prod.mk.injEq, and_assoc]

theorem compareItems_isTournament : IsTournament (compareItems casing mode order) := by
  have hfro : IsTournament (frontOrder casing mode order) := .of_transCmp
  have hback : IsTournament (backOrder casing order) := .of_transCmp
  rw [funext₂ (compareItems_eq _ mode _)]
  exact hfro.thenCmp (((compareNames_isTournament mode _).comap _).thenCmp hback)

theorem frontOrder_eq_iff (a b : Item) :
    frontOrder casing mode order a b = .eq ↔ a.front casing mode order = b.front casing mode order := by
  rw [frontOrder, Item.front, Item.front]
  simp only [then_eq_eq, Std.LawfulEqOrd.compare_eq_iff_eq, fileDirOrdering_eq_iff, Prod.mk.injEq]

/-! ## Relative paths in a circle -/

/-- Three items that have the same key. -/
def SameItems (a b c : Item) : Prop :=
  a.sortKey casing mode order = b.sortKey casing mode order ∧ b.sortKey casing mode order = c.sortKey casing mode order

/-- Three items that are compared by their names, where these are in a circle. -/
structure TangledItems (a b c : Item) : Prop where
  front : a.front casing mode order = b.front casing mode order ∧ b.front casing mode order = c.front casing mode order
  notUnicode : order ≠ .unicode
  names : Tangled a.name b.name c.name

theorem circle_items_iff (a b c : Item) : IsCircle (compareItems casing mode order) a b c ↔ TangledItems casing mode order a b c := by
  rw [funext₂ (compareItems_eq _ mode _)]
  refine (((compareNames_isTournament mode _).comap _).circle_between_iff a b c).trans ?_
  rw [alike_iff (frontOrder_eq_iff _ mode _)]
  have hnames := circle_names_iff mode order a.name b.name c.name
  exact ⟨fun h => ⟨h.1, (hnames.mp h.2).1, (hnames.mp h.2).2⟩, fun h => ⟨h.front, hnames.mpr ⟨h.notUnicode, h.names⟩⟩⟩

/-- The comparison of whole paths that have the same keys. -/
def finalTiebreak (a b : List Char × Bool) : Ordering :=
  if mode ≠ .directoriesFirst ∧ a.1 ≠ b.1 then compareStrings order a.1 b.1 else .eq

/-- Three paths that have the same keys, where the paths themselves are in a circle. -/
structure TangledTexts (a b c : List Char × Bool) : Prop where
  first : (items a.2 a.1).map (Item.sortKey casing mode order) = (items b.2 b.1).map (Item.sortKey casing mode order)
  second : (items b.2 b.1).map (Item.sortKey casing mode order) = (items c.2 c.1).map (Item.sortKey casing mode order)
  tiebreak : mode ≠ .directoriesFirst
  notUnicode : order ≠ .unicode
  texts : Tangled a.1 b.1 c.1

/-- Three paths whose first items that are not the same are tangled, or that have the same items and are tangled themselves. -/
def TangledPaths (a b c : List Char × Bool) : Prop :=
  First (SameItems casing mode order) (TangledItems casing mode order) (items a.2 a.1) (items b.2 b.1) (items c.2 c.1) ∨
    TangledTexts casing mode order a b c

theorem compareRelPathsBy_eq (a b : List Char × Bool) : compareRelPathsBy casing mode order a b =
      (List.compareLex (compareItems casing mode order) (items a.2 a.1) (items b.2 b.1)).then (finalTiebreak mode order a b) :=
  compareComponents_eq _ mode _ a.2 b.2 _ a.1 b.1

theorem finalTiebreak_eq (h : mode ≠ .directoriesFirst) (a b : List Char × Bool) :
    finalTiebreak mode order a b = compareStrings order a.1 b.1 := by
  rw [finalTiebreak]
  by_cases hne : a.1 ≠ b.1
  · rw [if_pos ⟨h, hne⟩]
  · rw [if_neg fun hboth => hne hboth.2, not_not.mp hne]
    exact ((compareNames_isTournament .directoriesFirst _).self b.1).symm

theorem finalTiebreak_isTournament : IsTournament (finalTiebreak mode order) := by
  by_cases h : mode = .directoriesFirst
  · have heq : ∀ a b : List Char × Bool, finalTiebreak mode order a b = .eq := fun a b => if_neg fun hboth => hboth.1 h
    exact ⟨fun a b => by rw [heq, heq]; rfl, fun a b c _ => by rw [heq, heq]⟩
  · rw [funext₂ (finalTiebreak_eq mode _ h)]
    exact (compareNames_isTournament .directoriesFirst _).comap _

theorem circle_tiebreak_iff (a b c : List Char × Bool) :
    IsCircle (finalTiebreak mode order) a b c ↔ mode ≠ .directoriesFirst ∧ order ≠ .unicode ∧ Tangled a.1 b.1 c.1 := by
  by_cases h : mode = .directoriesFirst
  · have heq : finalTiebreak mode order a b = .eq := if_neg fun hboth => hboth.1 h
    refine iff_of_false (fun hcir => ?_) fun hboth => hboth.1 h
    rw [IsCircle, heq] at hcir
    cases hcir.1
  · rw [funext₂ (finalTiebreak_eq mode _ h)]
    exact (circle_names_iff .directoriesFirst _ a.1 b.1 c.1).trans (and_iff_right h).symm

theorem compareRelPathsBy_isTournament : IsTournament (compareRelPathsBy casing mode order) := by
  rw [funext₂ (compareRelPathsBy_eq _ mode _)]
  exact ((compareItems_isTournament _ mode _).list.comap _).thenCmp (finalTiebreak_isTournament mode _)

theorem circle_relPaths_iff (a b c : List Char × Bool) :
    IsCircle (compareRelPathsBy casing mode order) a b c ↔ TangledPaths casing mode order a b c := by
  have hitems := (compareItems_isTournament casing mode order).list
  rw [funext₂ (compareRelPathsBy_eq _ mode _)]
  refine ((hitems.comap _).circle_then_iff a b c).trans (or_congr ?_ ?_)
  · refine ((compareItems_isTournament _ mode _).circle_list_iff _ _ _).trans ?_
    exact First.iff (alike_iff (compareItems_eq_iff _ mode _)) (circle_items_iff _ mode _) _ _ _
  · have hali := alike_iff (compareLex_eq_iff (compareItems_eq_iff casing mode order)) (items a.2 a.1) (items b.2 b.1) (items c.2 c.1)
    have htie := circle_tiebreak_iff mode order a b c
    exact ⟨fun h => ⟨(hali.mp h.1).1, (hali.mp h.1).2, (htie.mp h.2).1, (htie.mp h.2).2.1, (htie.mp h.2).2.2⟩,
      fun h => ⟨hali.mpr ⟨h.first, h.second⟩, htie.mpr ⟨h.tiebreak, h.notUnicode, h.texts⟩⟩⟩

theorem eq_of_tiebreak {a b : List Char × Bool} (h : mode ≠ .directoriesFirst)
    (heq : compareRelPathsBy casing mode order a b = .eq) : a.1 = b.1 := by
  rw [compareRelPathsBy_eq, finalTiebreak_eq mode _ h] at heq
  have hnames : compareNames .directoriesFirst order a.1 b.1 = .eq := (then_eq_eq.mp heq).2
  have hkeys := compareNames_eq_iff.mp hnames
  rwa [nameKey] at hkeys

/-! ## Paths of the file system in a circle -/

namespace PathItem

variable (toStringLossy : List Char → List Char)

def name (item : PathItem) : List Char := (item.pathString toStringLossy).getD []

/-- What is compared before the name. -/
def front (item : PathItem) : Bool × Bool := (item.isFile, (item.pathString toStringLossy).isSome)

/-- The extension that a file is compared by. -/
def extKey (item : PathItem) : List Char := if item.isFile then item.ext else []

/-- All that the item is compared by. -/
def sortKey (item : PathItem) : (Bool × Bool) × List Char × List Char :=
  (item.front toStringLossy, item.name toStringLossy, item.extKey)

def frontOrder (a b : PathItem) : Ordering :=
  (compare a.isFile b.isFile).then (compare (a.pathString toStringLossy).isSome (b.pathString toStringLossy).isSome)

instance : Std.TransCmp (frontOrder toStringLossy) :=
  inferInstanceAs (Std.TransCmp (compareLex (compareOn isFile)
    (compareOn fun item : PathItem => (item.pathString toStringLossy).isSome)))

theorem frontOrder_eq_iff (a b : PathItem) : frontOrder toStringLossy a b = .eq ↔ a.front toStringLossy = b.front toStringLossy := by
  rw [frontOrder, front, front]
  simp

theorem comparePathItems_eq (a b : PathItem) : comparePathItems toStringLossy a b = (frontOrder toStringLossy a b).then
        ((naturalSort (a.name toStringLossy) (b.name toStringLossy)).then (compareOn extKey a b)) := by
  rw [comparePathItems, frontOrder, compareKeys_eq fun _ _ => naturalSort_isTournament.self [], then_assoc, then_assoc]
  refine then_congr fun hfile => then_congr fun _ => then_congr fun _ => ?_
  have hfile : a.isFile = b.isFile := Std.LawfulEqOrd.eq_of_compare hfile
  rw [compareOn, extKey, extKey, ← hfile]
  cases a.isFile with
  | true => rfl
  | false => rfl

theorem comparePathItems_isTournament : IsTournament (comparePathItems toStringLossy) := by
  have hfro : IsTournament (frontOrder toStringLossy) := .of_transCmp
  have hback : IsTournament (compareOn extKey) := .of_transCmp
  rw [funext₂ (comparePathItems_eq _)]
  exact hfro.thenCmp ((naturalSort_isTournament.comap _).thenCmp hback)

theorem comparePathItems_eq_iff (a b : PathItem) :
    comparePathItems toStringLossy a b = .eq ↔ a.sortKey toStringLossy = b.sortKey toStringLossy := by
  rw [comparePathItems_eq, compareOn, sortKey, sortKey, then_eq_eq, then_eq_eq, frontOrder_eq_iff,
    naturalSort_eq_iff, Std.LawfulEqOrd.compare_eq_iff_eq]
  exact ⟨fun h => by rw [h.1, h.2.1, h.2.2], fun h => ⟨congrArg (·.1) h, congrArg (·.2.1) h, congrArg (·.2.2) h⟩⟩

/-- Three items that have the same key. -/
def Same (a b c : PathItem) : Prop :=
  a.sortKey toStringLossy = b.sortKey toStringLossy ∧ b.sortKey toStringLossy = c.sortKey toStringLossy

/-- Three items that are compared by their names, where these are in a circle. -/
structure InCircle (a b c : PathItem) : Prop where
  front : a.front toStringLossy = b.front toStringLossy ∧ b.front toStringLossy = c.front toStringLossy
  names : Tangled (a.name toStringLossy) (b.name toStringLossy) (c.name toStringLossy)

theorem circle_iff (a b c : PathItem) : IsCircle (comparePathItems toStringLossy) a b c ↔ InCircle toStringLossy a b c := by
  rw [funext₂ (comparePathItems_eq _)]
  refine ((naturalSort_isTournament.comap _).circle_between_iff a b c).trans ?_
  rw [alike_iff (frontOrder_eq_iff _)]
  have hnames := circle_naturalSort_iff (a.name toStringLossy) (b.name toStringLossy) (c.name toStringLossy)
  exact ⟨fun h => ⟨h.1, hnames.mp h.2⟩, fun h => ⟨h.front, hnames.mpr h.names⟩⟩

end PathItem

variable (toStringLossy : List Char → List Char)

/-- The items of a path of the file system. -/
def itemsOf (path : List Char × Bool) : List PathItem := pathItems path.2 (StdPath.components path.1)

/-- Three paths of the file system whose first items that are not the same are in a circle. -/
def TangledFiles (a b c : List Char × Bool) : Prop :=
  First (PathItem.Same toStringLossy) (PathItem.InCircle toStringLossy) (itemsOf a) (itemsOf b) (itemsOf c)

theorem comparePaths_eq (a b : List Char × Bool) :
    comparePaths toStringLossy a b = List.compareLex (comparePathItems toStringLossy) (itemsOf a) (itemsOf b) :=
  comparePathComponents_eq _ a.2 b.2 _ _

theorem comparePaths_isTournament : IsTournament (comparePaths toStringLossy) := by
  rw [funext₂ (comparePaths_eq _)]
  exact (PathItem.comparePathItems_isTournament _).list.comap _

theorem circle_paths_iff (a b c : List Char × Bool) : IsCircle (comparePaths toStringLossy) a b c ↔ TangledFiles toStringLossy a b c := by
  rw [funext₂ (comparePaths_eq _)]
  refine ((PathItem.comparePathItems_isTournament _).circle_list_iff _ _ _).trans ?_
  exact First.iff (alike_iff (PathItem.comparePathItems_eq_iff _)) (PathItem.circle_iff _) _ _ _

/-! ## Paths in order -/

/-- Names and paths are in order but for the tangled ones, and where a last comparison follows only equal paths compare equal. -/
theorem paths_ordered_iff (casing : Casing) (toStringLossy : List Char → List Char) :
    (∀ a b c : List Char, OrderedAt naturalSort a b c ↔ ¬Tangled a b c) ∧
    (∀ (mode : SortMode) (order : SortOrder) (a b c : List Char × Bool),
      OrderedAt (compareRelPathsBy casing mode order) a b c ∧
          (mode ≠ .directoriesFirst → compareRelPathsBy casing mode order a b = .eq → a.1 = b.1) ↔
        ¬TangledPaths casing mode order a b c) ∧
    ∀ a b c : List Char × Bool, OrderedAt (comparePaths toStringLossy) a b c ↔ ¬TangledFiles toStringLossy a b c := by
  refine ⟨fun a b c => ?_, fun mode order a b c => ?_, fun a b c => ?_⟩
  · rw [naturalSort_isTournament.orderedAt_iff, circle_naturalSort_iff]
  · rw [(compareRelPathsBy_isTournament casing mode order).orderedAt_iff, circle_relPaths_iff]
    exact and_iff_left (eq_of_tiebreak casing mode order)
  · rw [(comparePaths_isTournament toStringLossy).orderedAt_iff, circle_paths_iff]

/-- Nine is less than ten, and ten than a number of forty digits that does not fit, as text; but as text that one is less than nine. -/
theorem paths_not_ordered :
    let nine := "9".toList
    let ten := "10".toList
    let big := '1' :: List.replicate 39 '0'
    let casing : Casing := ⟨Char.isLower, Char.isUpper, fun text => text.map Char.toLower⟩
    ¬OrderedAt naturalSort nine ten big ∧
      ¬OrderedAt (compareRelPathsBy casing .directoriesFirst .default) (nine, true) (ten, true) (big, true) ∧
      ¬OrderedAt (comparePaths id) (nine, true) (ten, true) (big, true) := by
  refine ⟨fun h => ?_, fun h => ?_, fun h => ?_⟩
  · exact absurd (h.lt_trans (by decide +kernel) (by decide +kernel)) (by decide +kernel)
  · exact absurd (h.lt_trans (by decide +kernel) (by decide +kernel)) (by decide +kernel)
  · exact absurd (h.lt_trans (by decide +kernel) (by decide +kernel)) (by decide +kernel)

end Wu.Util.PathOrder
