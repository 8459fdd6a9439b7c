import Wu.CharLists

/-!
# Paths of the standard library

The components of a path, as the standard library finds them where separators are slashes, and the file name that a path ends in.
-/

namespace Wu.StdPath

open List

open CharLists (rsplitOnce)

/-- `std::path::Component`. -/
inductive Component where
  | rootDir
  | curDir
  | parentDir
  | normal (name : List Char)
  deriving DecidableEq, Repr

/-- The component that stands between two separators. -/
def parseComponent (piece : List Char) : Option Component :=
  if piece = [] ∨ piece = ['.'] then none
  else if piece = ['.', '.'] then some .parentDir
  else some (.normal piece)

/-- `Path::components`: dots at the start of a path that is not absolute are kept, all other ones are left out. -/
def components (path : List Char) : List Component :=
  let start : List Component :=
    if path.head? = some '/' then [.rootDir]
    else if (path.splitOn '/').head? = some ['.'] then [.curDir]
    else []
  start ++ (path.splitOn '/').filterMap parseComponent

/-- The name in a last component. -/
def lastName (components : List Component) : Option (List Char) :=
  match components.getLast? with
  | some (.normal name) => some name
  | _ => none

/-- `Path::file_name`. -/
def fileName (path : List Char) : Option (List Char) := lastName (components path)

/-- `Component::as_os_str`. -/
def Component.asOsStr : Component → List Char
  | rootDir => ['/']
  | curDir => ['.']
  | parentDir => ['.', '.']
  | normal name => name

/-- `rsplit_file_at_dot`: what is before and behind the last dot of a name, but for a dot in front. -/
def rsplitFileAtDot (file : List Char) : Option (List Char) × Option (List Char) :=
  if file = ['.', '.'] then (some file, none)
  else
    match rsplitOnce '.' file with
    | none => (none, some file)
    | some (before, after) => if before = [] then (some file, none) else (some before, some after)

/-- `Path::file_stem`. -/
def fileStem (path : List Char) : Option (List Char) :=
  (fileName path).bind fun file => (rsplitFileAtDot file).1.or (rsplitFileAtDot file).2

/-- `Path::extension`. -/
def extension (path : List Char) : Option (List Char) :=
  (fileName path).bind fun file => (rsplitFileAtDot file).1.bind fun _ => (rsplitFileAtDot file).2

/-- What is behind the last separator. -/
def lastSegment (path : List Char) : List Char :=
  match rsplitOnce '/' path with
  | some (_, segment) => segment
  | none => path

example : fileName "src/./main.rs/.".toList = some "main.rs".toList := by decide

/-! ## The last component -/

theorem lastName_append {front back : List Component} (h : back ≠ []) : lastName (front ++ back) = lastName back := by
  rw [lastName, getLast?_append_of_ne_nil _ h, lastName]

theorem lastName_concat (front : List Component) (name : List Char) : lastName (front ++ [.normal name]) = some name := by
  rw [lastName, getLast?_concat]

/-- What stands in front of all components has no name. -/
theorem fileName_eq (path : List Char) : fileName path = lastName ((path.splitOn '/').filterMap parseComponent) := by
  rw [fileName, components]
  by_cases hne : (path.splitOn '/').filterMap parseComponent = []
  · rw [hne, append_nil]
    by_cases hroot : path.head? = some '/'
    · rw [if_pos hroot]
      rfl
    · rw [if_neg hroot]
      by_cases hdot : (path.splitOn '/').head? = some ['.']
      · rw [if_pos hdot]
        rfl
      · rw [if_neg hdot]
  · exact lastName_append hne

theorem separator_notMem_lastSegment (path : List Char) : '/' ∉ lastSegment path := by
  rw [lastSegment]
  cases h : rsplitOnce '/' path with
  | none => exact CharLists.rsplitOnce_eq_none.mp h
  | some found => exact (CharLists.rsplitOnce_spec h).2

/-- What is in front of the last segment: nothing, or something that ends in a separator. -/
inductive IsDirectory : List Char → Prop
  | nil : IsDirectory []
  | snoc (front : List Char) : IsDirectory (front ++ ['/'])

theorem exists_directory (path : List Char) : ∃ directory, IsDirectory directory ∧ path = directory ++ lastSegment path := by
  cases h : rsplitOnce '/' path with
  | none => exact ⟨[], .nil, by rw [lastSegment, h, nil_append]⟩
  | some found =>
    refine ⟨found.1 ++ ['/'], .snoc _, ?_⟩
    rw [lastSegment, h, append_assoc]
    exact (CharLists.rsplitOnce_spec h).1

theorem splitOn_directory {directory : List Char} (hdir : IsDirectory directory) :
    ∃ pieces : List (List Char), ∀ segment, '/' ∉ segment → (directory ++ segment).splitOn '/' = pieces ++ [segment] := by
  cases hdir with
  | nil => exact ⟨[], fun segment h => splitOn_eq_singleton h⟩
  | snoc front =>
    refine ⟨front.splitOn '/', fun segment h => ?_⟩
    rw [append_assoc, singleton_append, splitOn_append_cons_self, splitOn_eq_singleton h]

theorem parseComponent_of_ne {piece : List Char} (hnil : piece ≠ []) (hdot : piece ≠ ['.']) (hdots : piece ≠ ['.', '.']) :
    parseComponent piece = some (.normal piece) := by
  rw [parseComponent, if_neg (not_or.mpr ⟨hnil, hdot⟩), if_neg hdots]

/-- A last segment that is a name is the file name. -/
theorem fileName_segment {directory segment : List Char} (hdir : IsDirectory directory) (h : '/' ∉ segment)
    (hnil : segment ≠ []) (hdot : segment ≠ ['.']) (hdots : segment ≠ ['.', '.']) :
    fileName (directory ++ segment) = some segment := by
  obtain ⟨pieces, hpiec⟩ := splitOn_directory hdir
  rw [fileName_eq, hpiec _ h, filterMap_append, filterMap_cons_some (parseComponent_of_ne hnil hdot hdots)]
  exact lastName_concat _ _

/-- A path that has a file name ends in it, or in a dot or in a separator. -/
theorem lastSegment_cases {path name : List Char} (h : fileName path = some name) :
    lastSegment path = [] ∨ lastSegment path = ['.'] ∨ lastSegment path = name ∧ name ≠ ['.', '.'] := by
  by_cases hnil : lastSegment path = []
  · exact .inl hnil
  by_cases hdot : lastSegment path = ['.']
  · exact .inr (.inl hdot)
  obtain ⟨directory, hdir, hpath⟩ := exists_directory path
  have hsep := separator_notMem_lastSegment path
  by_cases hdots : lastSegment path = ['.', '.']
  · obtain ⟨pieces, hpiec⟩ := splitOn_directory hdir
    have hnone : fileName path = none := by
      have hpar : [['.', '.']].filterMap parseComponent = [Component.parentDir] := rfl
      rw [hpath, fileName_eq, hpiec _ hsep, filterMap_append, hdots, hpar, lastName, getLast?_concat]
    rw [hnone] at h
    cases h
  · have hname := fileName_segment hdir hsep hnil hdot hdots
    rw [← hpath, h] at hname
    cases hname
    exact .inr (.inr ⟨rfl, hdots⟩)

theorem fileName_ne_nil {path name : List Char} (h : fileName path = some name) : name ≠ [] := by
  rw [fileName_eq, lastName] at h
  split at h
  · rename_i last hlast
    cases h
    obtain ⟨piece, -, hpie⟩ := mem_filterMap.mp (List.mem_of_getLast? hlast)
    rw [parseComponent] at hpie
    split at hpie
    · cases hpie
    · rename_i hnot
      split at hpie
      · cases hpie
      · cases hpie
        exact fun hnil => hnot (.inl hnil)
  · cases h

/-- What stands in a path behind a character that its last segment does not hold has a separator in it. -/
theorem separator_mem_of_notMem {before after : List Char} {c : Char} (h : c ∉ lastSegment (before ++ c :: after)) :
    '/' ∈ after ∨ c = '/' := by
  by_contra hnot
  rw [not_or] at hnot
  obtain ⟨directory, hdir, hpath⟩ := exists_directory _
  have hsuf : c :: after <:+ before ++ c :: after := suffix_append _ _
  have hseg : lastSegment (before ++ c :: after) <:+ before ++ c :: after := ⟨directory, hpath.symm⟩
  obtain hle | hle := suffix_or_suffix_of_suffix hsuf hseg
  · exact h (hle.mem mem_cons_self)
  · obtain ⟨front, hfro⟩ := hle
    have heq : before ++ front = directory := by
      have happ : before ++ front ++ lastSegment (before ++ c :: after) = directory ++ lastSegment (before ++ c :: after) := by
        rw [append_assoc, hfro]
        exact hpath
      exact append_cancel_right happ
    cases front with
    | nil =>
      rw [nil_append] at hfro
      rw [hfro] at h
      exact h mem_cons_self
    | cons x front =>
      have hlast : '/' ∈ x :: front := by
        cases hdir with
        | nil => cases (append_eq_nil_iff.mp heq).2
        | snoc front' =>
          have hlast := congrArg getLast? heq
          rw [getLast?_append_of_ne_nil _ (cons_ne_nil x _), getLast?_concat] at hlast
          exact List.mem_of_getLast? hlast
      have hmem : '/' ∈ c :: after := hfro ▸ mem_append_left _ hlast
      exact (mem_cons.mp hmem).elim (fun heq => hnot.2 heq.symm) hnot.1

end Wu.StdPath
