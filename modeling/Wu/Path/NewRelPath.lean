import Wu.Path.Canonical

/-!
# How relative paths are made

The text that a path is made from is resolved component by component. Trimming and the separators of a style do not change what it
resolves to, so a path is made unless what is left of the text is absolute or `..` leads out of the directory where it starts.
-/

namespace Wu.Path

open List

open CharLists (splitOnce rsplitOnce)

/-! ## What text resolves to -/

/-- The names that components lead to: empty components and dots are left out, and `..` takes the last name away again. -/
def resolve : List (List Char) → List (List Char) → Option (List (List Char))
  | [], names => some names
  | component :: rest, names =>
    if component = [] ∨ component = ['.'] then resolve rest names
    else if component = ['.', '.'] then if names = [] then none else resolve rest names.dropLast
    else resolve rest (names ++ [component])

/-- What stands between the separators of a style. -/
def pieces (style : PathStyle) (path : List Char) : List (List Char) := (withSlashes style path).splitOn '/'

/-- The names that text leads to; there are none when it leads out of the directory where it starts. -/
def resolved (style : PathStyle) (path : List Char) : Option (List (List Char)) := resolve (pieces style path) []

theorem resolve_append (front back names : List (List Char)) :
    resolve (front ++ back) names = (resolve front names).bind (resolve back) := by
  induction front generalizing names with
  | nil => rfl
  | cons component front ih =>
    rw [cons_append, resolve, resolve, ih, ih, ih]
    split
    · rfl
    · split
      · split
        · rfl
        · rfl
      · rfl

variable {component path : List Char} {style : PathStyle} {c : Char}

/-- A piece that is left out. -/
theorem resolve_skip (h : component = [] ∨ component = ['.']) (rest names : List (List Char)) :
    resolve (component :: rest) names = resolve rest names := by
  rw [resolve, if_pos h]

/-- Names are kept as they are. -/
theorem resolve_names {components : List (List Char)} (h : ∀ c ∈ components, ¬(c = [] ∨ c = ['.']) ∧ c ≠ ['.', '.'])
    (names : List (List Char)) : resolve components names = some (names ++ components) := by
  induction components generalizing names with
  | nil => rw [resolve, append_nil]
  | cons component components ih =>
    obtain ⟨hskip, hdots⟩ := h _ mem_cons_self
    rw [resolve, if_neg hskip, if_neg hdots, ih fun c hc => h c (.tail _ hc), append_assoc]
    rfl

/-- What is resolved comes from the names and the pieces, and no piece that is left out is among it. -/
theorem mem_resolve {components names result : List (List Char)} (h : resolve components names = some result) :
    ∀ name ∈ result, name ∈ names ∨ name ∈ components ∧ ¬(name = [] ∨ name = ['.']) ∧ name ≠ ['.', '.'] := by
  induction components generalizing names with
  | nil =>
    cases h
    exact fun name hname => .inl hname
  | cons component components ih =>
    intro name hname
    rw [resolve] at h
    split at h
    · obtain hmem | ⟨hmem, hkept⟩ := ih h name hname
      · exact .inl hmem
      · exact .inr ⟨.tail _ hmem, hkept⟩
    · rename_i hskip
      split at h
      · split at h
        · cases h
        · obtain hmem | ⟨hmem, hkept⟩ := ih h name hname
          · exact .inl (mem_of_mem_dropLast hmem)
          · exact .inr ⟨.tail _ hmem, hkept⟩
      · rename_i hdots
        obtain hmem | ⟨hmem, hkept⟩ := ih h name hname
        · obtain hmem | hmem := mem_append.mp hmem
          · exact .inl hmem
          · obtain rfl := mem_singleton.mp hmem
            exact .inr ⟨mem_cons_self, hskip, hdots⟩
        · exact .inr ⟨.tail _ hmem, hkept⟩

/-! ## The components of text -/

/-- Text is one component, or it has a separator behind its first component. -/
theorem exists_first (text : List Char) : '/' ∉ text ∨ ∃ head tail, '/' ∉ head ∧ text = head ++ '/' :: tail := by
  by_cases hmem : '/' ∈ text
  · obtain ⟨head, tail, htext, hnot⟩ := eq_append_cons_of_mem hmem
    exact .inr ⟨head, tail, hnot, htext⟩
  · exact .inl hmem

theorem resolve_components (text : List Char) (names : List (List Char)) :
    resolve (components text) names = resolve (text.splitOn '/') names := by
  obtain hnot | ⟨head, tail, hnot, rfl⟩ := exists_first text
  · rw [splitOn_eq_singleton hnot]
    by_cases hnil : text = []
    · rw [hnil, components_nil, resolve_skip (.inl rfl)]
    · rw [components_last hnot hnil]
  · rw [components_separator hnot, splitOn_append_cons_self_of_not_mem hnot, resolve, resolve]
    have ih := resolve_components tail
    rw [ih, ih, ih]
termination_by text.length

theorem mem_components {text : List Char} : ∀ component ∈ components text, '/' ∉ component ∧ ∀ c ∈ component, c ∈ text := by
  obtain hnot | ⟨head, -, hnot, rfl⟩ := exists_first text
  · by_cases hnil : text = []
    · rw [hnil, components_nil]
      exact fun _ h => by cases h
    · rw [components_last hnot hnil]
      rintro component hmem
      obtain rfl := mem_singleton.mp hmem
      exact ⟨hnot, fun _ hc => hc⟩
  · rw [components_separator hnot]
    intro component hmem
    obtain rfl | hmem := mem_cons.mp hmem
    · exact ⟨hnot, fun c hc => mem_append_left _ hc⟩
    · obtain ⟨hsep, hchar⟩ := mem_components _ hmem
      exact ⟨hsep, fun c hc => mem_append_right _ (.tail _ (hchar c hc))⟩
termination_by text.length

theorem components_eq_nil {text : List Char} (h : components text = []) : text = [] := by
  obtain hnot | ⟨head, tail, hnot, rfl⟩ := exists_first text
  · by_contra hne
    rw [components_last hnot hne] at h
    cases h
  · rw [components_separator hnot] at h
    cases h

/-- Text that does not end in a separator is its components with slashes between them. -/
theorem joined_components {text : List Char} (h : text.getLast? ≠ some '/') : joined (components text) = text := by
  obtain hnot | ⟨head, tail, hnot, rfl⟩ := exists_first text
  · by_cases hnil : text = []
    · rw [hnil, components_nil]
      rfl
    · rw [components_last hnot hnil, joined_singleton]
  · have htail : tail ≠ [] := by
      rintro rfl
      exact h getLast?_concat
    have hlast : tail.getLast? ≠ some '/' := by
      rwa [getLast?_append_of_ne_nil _ (cons_ne_nil _ _), getLast?_cons_of_ne_nil htail] at h
    have ih := joined_components hlast
    rw [components_separator hnot]
    cases hcom : components tail with
    | nil => exact absurd (components_eq_nil hcom) htail
    | cons next rest => rw [joined_cons_cons, ← hcom, ih]
termination_by text.length

/-! ## Putting a path together anew -/

theorem pop_joined_concat {names : List (List Char)} {name : List Char} (hname : IsName name) :
    pop (joined (names ++ [name])) = some (joined names) := by
  by_cases hne : names = []
  · rw [hne, nil_append, joined_singleton, pop, CharLists.rsplitOnce_eq_none.mpr hname.separator]
    exact if_neg hname.ne_nil
  · rw [joined_append hne (cons_ne_nil name []), joined_singleton, pop, CharLists.rsplitOnce_append hname.separator]

theorem push_joined {names : List (List Char)} (hnames : ∀ name ∈ names, IsName name) {name : List Char} (hname : name ≠ []) :
    push (joined names) name = joined (names ++ [name]) := by
  rw [push, if_neg hname]
  by_cases hne : names = []
  · rw [hne, nil_append, joined_singleton]
    rfl
  · rw [if_neg (joined_ne_nil hne hnames), joined_append hne (cons_ne_nil name []), joined_singleton]

/-- The loop over the components puts together what they lead to. -/
theorem normalize_joined {components names : List (List Char)} (hcom : ∀ c ∈ components, '/' ∉ c)
    (hnames : ∀ name ∈ names, IsName name) : normalize components (joined names) = (resolve components names).map joined := by
  induction components generalizing names with
  | nil => rfl
  | cons component components ih =>
    have hrest : ∀ c ∈ components, '/' ∉ c := fun c hc => hcom c (.tail _ hc)
    rw [normalize, resolve]
    by_cases hskip : component = [] ∨ component = ['.']
    · rw [if_pos hskip, if_pos hskip, ih hrest hnames]
    rw [if_neg hskip, if_neg hskip]
    by_cases hdots : component = ['.', '.']
    · rw [if_pos hdots, if_pos hdots]
      rcases eq_nil_or_concat' names with rfl | ⟨front, name, rfl⟩
      · rfl
      · have hfro : ∀ name ∈ front, IsName name := fun x hx => hnames x (mem_append_left _ hx)
        rw [pop_joined_concat (hnames name (mem_append_right _ mem_cons_self)), Option.bind_some, ih hrest hfro,
          if_neg (append_ne_nil_of_right_ne_nil _ (cons_ne_nil _ _)), dropLast_concat]
    · rw [not_or] at hskip
      have hname : IsName component := ⟨hskip.1, hskip.2, hdots, hcom _ mem_cons_self⟩
      rw [if_neg hdots, if_neg hdots, push_joined hnames hskip.1]
      refine ih hrest fun x hx => ?_
      obtain hx | hx := mem_append.mp hx
      · exact hnames x hx
      · exact mem_singleton.mp hx ▸ hname

/-! ## Trimming -/

theorem withSlashes_unix (path : List Char) : withSlashes .unix path = path := by
  have heq : ∀ c ∈ path, (if isSeparator .unix c then '/' else c) = id c := by
    intro c _
    by_cases hc : isSeparator .unix c = true
    · rw [if_pos hc]
      exact (beq_iff_eq.mp ((Bool.or_false _).symm.trans hc)).symm
    · exact if_neg hc
  exact (map_congr_left heq).trans (map_id path)

/-- Dots in front do not change what text leads to. -/
theorem resolved_trimDots (style : PathStyle) (path : List Char) : resolved style (trimDots style path) = resolved style path := by
  fun_induction trimDots _ path with
  | case1 c rest hsep ih =>
    rw [ih, resolved, resolved, pieces, pieces]
    have hsla : withSlashes style ('.' :: c :: rest) = ['.'] ++ '/' :: withSlashes style rest := by
      rw [withSlashes, map_cons, map_cons, if_pos hsep]
      cases style <;> rfl
    rw [hsla, splitOn_append_cons_self_of_not_mem (by decide), resolve_skip (.inr rfl)]
  | case2 => rfl
  | case3 => rfl

/-- Separators behind do not change what text leads to. -/
theorem resolved_trimSeparators (style : PathStyle) (path : List Char) :
    resolved style (trimSeparators style path).reverse = resolved style path.reverse := by
  fun_induction trimSeparators _ path with
  | case1 c d rest hsep ih =>
    rw [ih, resolved, resolved, pieces, pieces]
    have hsla : withSlashes style (c :: d :: rest).reverse = withSlashes style (d :: rest).reverse ++ '/' :: [] := by
      rw [reverse_cons, withSlashes, map_append, map_singleton, if_pos hsep]
      rfl
    rw [hsla, splitOn_append_cons_self, resolve_append]
    cases resolve _ [] with
    | none => rfl
    | some names => rfl
  | case2 => rfl
  | case3 => rfl

theorem resolved_trimmed (style : PathStyle) (path : List Char) : resolved style (trimmed style path) = resolved style path := by
  rw [trimmed, resolved_trimSeparators, reverse_reverse, resolved_trimDots]

/-! ## What is trimmed -/

/-- Unless one character only is left, what is trimmed ends in no separator. -/
theorem head?_trimSeparators
    (hhead : c ∈ (trimSeparators style path).head?) (hsep : isSeparator style c = true) : trimSeparators style path = [c] := by
  fun_induction trimSeparators _ path with
  | case1 d e rest _ ih => exact ih hhead
  | case2 d e rest hnot =>
    cases hhead
    exact absurd hsep hnot
  | case3 text hsho =>
    cases text with
    | nil => cases hhead
    | cons d rest =>
      cases hhead
      cases rest with
      | nil => rfl
      | cons e rest => exact absurd rfl (hsho c e rest)

theorem trimSeparators_suffix (style : PathStyle) (path : List Char) : trimSeparators style path <:+ path := by
  fun_induction trimSeparators _ path with
  | case1 c d rest _ ih => exact ih.trans (suffix_cons c _)
  | case2 => exact suffix_rfl
  | case3 => exact suffix_rfl

theorem trimmed_prefix (style : PathStyle) (path : List Char) : trimmed style path <+: trimDots style path := by
  have hsuf := trimSeparators_suffix style (trimDots style path).reverse
  rw [← reverse_prefix, reverse_reverse] at hsuf
  exact hsuf

/-- Text that begins with a separator is absolute. -/
theorem isAbsolute_separator (h : isSeparator style c = true) (rest : List Char) : isAbsolute style (c :: rest) = true := by
  rw [isSeparator, Bool.or_eq_true, Bool.and_eq_true, beq_iff_eq, beq_iff_eq, beq_iff_eq] at h
  obtain rfl | ⟨rfl, rfl⟩ := h
  · rfl
  · rfl

theorem startsWithDrive_append (h : startsWithDrive path = true) (rest : List Char) : startsWithDrive (path ++ rest) = true := by
  unfold startsWithDrive at h
  split at h
  · exact h
  · cases h

/-- Text that begins with absolute text is absolute. -/
theorem isAbsolute_of_isPrefix {text : List Char} (hpath : path <+: text)
    (h : isAbsolute style path = true) : isAbsolute style text = true := by
  obtain ⟨rest, rfl⟩ := hpath
  cases path with
  | nil => cases style <;> cases h
  | cons c path =>
    rw [isAbsolute, Bool.or_eq_true, Bool.and_eq_true, Bool.or_eq_true] at h ⊢
    obtain h | ⟨hwin, h | h⟩ := h
    · exact .inl h
    · exact .inr ⟨hwin, .inl h⟩
    · exact .inr ⟨hwin, .inr (startsWithDrive_append h rest)⟩

theorem trimmed_getLast? (h : isAbsolute style (trimmed style path) = false) :
    (withSlashes style (trimmed style path)).getLast? ≠ some '/' := by
  intro hlast
  rw [withSlashes, getLast?_map, Option.map_eq_some_iff] at hlast
  obtain ⟨c, hc, heq⟩ := hlast
  have hsep : isSeparator style c = true := by
    by_contra hnot
    rw [if_neg hnot] at heq
    rw [heq] at hnot
    exact hnot rfl
  rw [trimmed, getLast?_reverse] at hc
  have hone := head?_trimSeparators hc hsep
  rw [trimmed, hone] at h
  exact absurd (isAbsolute_separator hsep []) (by rw [show isAbsolute style [c] = false from h]; exact Bool.false_ne_true)

/-! ## What is returned -/

theorem slashed_text (style : PathStyle) (path : List Char) : (slashed style path).text = withSlashes style path := by
  by_cases h : style = .windows ∧ '\\' ∈ path
  · rw [slashed, if_pos h]
    rfl
  · rw [slashed, if_neg h]
    cases style with
    | unix => exact (withSlashes_unix path).symm
    | windows =>
      have heq : ∀ c ∈ path, (if isSeparator .windows c then '/' else c) = id c := by
        intro c hc
        by_cases hsep : isSeparator .windows c = true
        · rw [isSeparator, Bool.or_eq_true, Bool.and_eq_true, beq_iff_eq] at hsep
          obtain rfl | ⟨-, hback⟩ := hsep
          · rfl
          · exact absurd ⟨rfl, beq_iff_eq.mp hback ▸ hc⟩ h
        · exact if_neg hsep
      exact ((map_congr_left heq).trans (map_id path)).symm

theorem isSkipped_eq_false : isSkipped component = false ↔ ¬(component = [] ∨ component = ['.']) ∧ component ≠ ['.', '.'] := by
  rw [isSkipped, Bool.or_eq_false_iff, Bool.or_eq_false_iff, beq_eq_false_iff_ne, beq_eq_false_iff_ne, beq_eq_false_iff_ne, not_or]

theorem IsName.isSkipped (h : IsName component) : isSkipped component = false :=
  isSkipped_eq_false.mpr ⟨not_or.mpr ⟨h.ne_nil, h.ne_dot⟩, h.ne_dots⟩

theorem isName_of_mem_resolved {names : List (List Char)} (h : resolved style path = some names) : ∀ name ∈ names, IsName name := by
  intro name hname
  rw [resolved, pieces, ← resolve_components] at h
  obtain hmem | ⟨hmem, hskip, hdots⟩ := mem_resolve h name hname
  · cases hmem
  · rw [not_or] at hskip
    exact ⟨hskip.1, hskip.2, hdots, (mem_components name hmem).1⟩

/-- What is made of text that is not absolute once it is trimmed is what the text leads to. -/
theorem new_of_relative (h : isAbsolute style (trimmed style path) = false) :
    (∀ names, resolved style path = some names → ∃ r, new path style = .ok r ∧ r.text = joined names) ∧
      (resolved style path = none → ∃ error, new path style = .error error) := by
  have hres : resolve (components (withSlashes style (trimmed style path))) [] = resolved style path := by
    rw [resolve_components, ← resolved_trimmed]
    rfl
  have hnor : normalize (components (withSlashes style (trimmed style path))) [] = (resolved style path).map joined := by
    rw [← hres]
    have hnone : ∀ name ∈ ([] : List (List Char)), IsName name := fun _ hname => by cases hname
    exact normalize_joined (fun c hc => (mem_components c hc).1) hnone
  have hnew : new path style = normalized (slashed style (trimmed style path)) := if_neg (by rw [h]; exact Bool.false_ne_true)
  rw [hnew, normalized, slashed_text]
  by_cases hany : (components (withSlashes style (trimmed style path))).any isSkipped = true
  · rw [if_pos hany, hnor]
    refine ⟨fun names hnames => ?_, fun hnone => ?_⟩
    · rw [hnames]
      exact ⟨_, rfl, rfl⟩
    · rw [hnone]
      exact ⟨_, rfl⟩
  · have hkept : resolve (components (withSlashes style (trimmed style path))) [] =
        some (components (withSlashes style (trimmed style path))) :=
      resolve_names (fun c hc => isSkipped_eq_false.mp (Bool.eq_false_iff.mpr fun hskip =>
        hany (any_eq_true.mpr ⟨c, hc, hskip⟩))) []
    rw [hres] at hkept
    rw [if_neg hany]
    refine ⟨fun names hnames => ⟨_, rfl, ?_⟩, fun hnone => ?_⟩
    · rw [hkept] at hnames
      cases hnames
      rw [slashed_text, joined_components (trimmed_getLast? h)]
    · rw [hkept] at hnone
      cases hnone

/-- Text that is absolute once it is trimmed is refused. -/
theorem new_of_absolute (h : isAbsolute style (trimmed style path) = true) :
    new path style = .error (.absolute (trimmed style path)) := if_pos h

/-! ## Canonical text -/

/-- Names with slashes between them that no other separator of the style stands in. -/
structure IsPlain (style : PathStyle) (names : List (List Char)) : Prop where
  isName : ∀ name ∈ names, IsName name
  chars : ∀ name ∈ names, ∀ c ∈ name, isSeparator style c = false

/-- Canonical text begins with its first name. -/
theorem joined_cons (name : List Char) (names : List (List Char)) :
    joined (name :: names) = name ++ if names = [] then [] else '/' :: joined names := by
  cases names with
  | nil => rw [joined_singleton, if_pos rfl, append_nil]
  | cons second names => rw [joined_cons_cons, if_neg (cons_ne_nil _ _)]

theorem IsPlain.getLast? {names : List (List Char)} (h : IsPlain style names) :
    ∀ c ∈ (joined names).getLast?, isSeparator style c = false := by
  rcases eq_nil_or_concat' names with rfl | ⟨front, name, rfl⟩
  · exact fun _ hc => by cases hc
  · have hmem : name ∈ front ++ [name] := mem_append_right _ mem_cons_self
    have hlast : (joined (front ++ [name])).getLast? = name.getLast? := by
      by_cases hne : front = []
      · rw [hne, nil_append, joined_singleton]
      · rw [joined_append hne (cons_ne_nil name []), joined_singleton, getLast?_append_of_ne_nil _ (cons_ne_nil _ _),
          getLast?_cons_of_ne_nil (h.isName name hmem).ne_nil]
    rw [hlast]
    exact fun c hc => h.chars name hmem c (List.mem_of_getLast? hc)

theorem trimDots_eq_self (h : ∀ c rest, path = '.' :: c :: rest → isSeparator style c = false) : trimDots style path = path := by
  fun_cases trimDots _ path with
  | case1 c rest hsep => exact absurd hsep (by rw [h c rest rfl]; exact Bool.false_ne_true)
  | case2 => rfl
  | case3 => rfl

theorem trimSeparators_eq_self (h : ∀ c ∈ path.head?, isSeparator style c = false) : trimSeparators style path = path := by
  fun_cases trimSeparators _ path with
  | case1 c d rest hsep => exact absurd hsep (by rw [h c rfl]; exact Bool.false_ne_true)
  | case2 => rfl
  | case3 => rfl

/-- There is nothing to trim from canonical text. -/
theorem IsPlain.trimmed {names : List (List Char)} (h : IsPlain style names) : trimmed style (joined names) = joined names := by
  have hdots : trimDots style (joined names) = joined names := by
    refine trimDots_eq_self fun c rest heq => ?_
    cases names with
    | nil => cases heq
    | cons name names =>
      have hname := h.isName name mem_cons_self
      rw [joined_cons] at heq
      cases name with
      | nil => exact absurd rfl hname.ne_nil
      | cons d name =>
        cases name with
        | nil => exact absurd (congrArg (fun d => [d]) (List.cons.inj heq).1) hname.ne_dot
        | cons e name =>
          have he : e = c := (List.cons.inj (List.cons.inj heq).2).1
          exact he ▸ h.chars _ mem_cons_self e (.tail _ mem_cons_self)
  rw [Path.trimmed, hdots, trimSeparators_eq_self, reverse_reverse]
  rw [List.head?_reverse]
  exact h.getLast?

theorem IsPlain.separator_head {names : List (List Char)} (h : IsPlain style names)
    (hsep : isSeparator style c = true) : (joined names).head? ≠ some c := by
  cases names with
  | nil => exact fun hhead => by cases hhead
  | cons name names =>
    rw [joined_cons]
    cases name with
    | nil => exact absurd rfl (h.isName [] mem_cons_self).ne_nil
    | cons d name =>
      intro hhead
      cases hhead
      rw [h.chars _ mem_cons_self _ mem_cons_self] at hsep
      cases hsep

/-- Canonical text is absolute only when its first name is a drive of Windows, and another one follows. -/
theorem IsPlain.isAbsolute_iff {names : List (List Char)} (h : IsPlain style names) : isAbsolute style (joined names) = true ↔
      style = .windows ∧ ∃ drive second rest, names = [drive, ':'] :: second :: rest ∧ drive.isAlpha = true := by
  have hsla : (joined names).head? ≠ some '/' := h.separator_head rfl
  rw [isAbsolute, Bool.or_eq_true, Bool.and_eq_true, Bool.or_eq_true, beq_iff_eq, beq_iff_eq, beq_iff_eq]
  refine ⟨fun habs => ?_, ?_⟩
  · obtain ⟨rfl, hhead | hdri⟩ := habs.resolve_left hsla
    · exact absurd hhead (h.separator_head rfl)
    refine ⟨rfl, ?_⟩
    unfold startsWithDrive at hdri
    split at hdri
    · rename_i drive c rest heq
      rw [Bool.and_eq_true] at hdri
      have hsep : isSeparator .windows c = true := hdri.2
      cases names with
      | nil => cases heq
      | cons name names =>
        rw [joined_cons] at heq
        have hname := h.isName name mem_cons_self
        have hchar := h.chars name mem_cons_self
        match name, hname, hchar, heq with
        | [], hname, _, _ => exact absurd rfl hname.ne_nil
        | [d], _, _, heq =>
          split at heq
          · cases heq
          · exact absurd (List.cons.inj (List.cons.inj heq).2).1 (by decide)
        | [d, e], _, _, heq =>
          cases names with
          | nil => cases heq
          | cons second rest' =>
            obtain ⟨-, -, -⟩ := heq
            exact ⟨_, second, rest', rfl, hdri.1⟩
        | d :: e :: f :: name, _, hchar, heq =>
          simp only [cons_append, List.cons.injEq] at heq
          rw [← heq.2.2.1, hchar f (by simp)] at hsep
          cases hsep
    · cases hdri
  · rintro ⟨rfl, drive, -, -, rfl, hdri⟩
    refine .inr ⟨rfl, .inr ?_⟩
    exact Bool.and_eq_true_iff.mpr ⟨hdri, rfl⟩

theorem any_isSkipped_eq_false {names : List (List Char)} (h : ∀ name ∈ names, IsName name) : ¬names.any isSkipped = true := by
  rw [any_eq_true]
  rintro ⟨name, hmem, hskip⟩
  rw [(h name hmem).isSkipped] at hskip
  cases hskip

/-- A separator of canonical text stands in one of its names, or between them. -/
theorem mem_joined {names : List (List Char)} (hc : c ∈ joined names) : c = '/' ∨ ∃ name ∈ names, c ∈ name := by
  induction names with
  | nil => cases hc
  | cons name names ih =>
    rw [joined_cons, mem_append] at hc
    obtain hc | hc := hc
    · exact .inr ⟨name, mem_cons_self, hc⟩
    · split at hc
      · cases hc
      · obtain rfl | hc := mem_cons.mp hc
        · exact .inl rfl
        · obtain hsla | ⟨other, hmem, hchar⟩ := ih hc
          · exact .inl hsla
          · exact .inr ⟨other, mem_cons_of_mem name hmem, hchar⟩

/-- Canonical text that is not absolute is returned as it is. -/
theorem IsPlain.new {names : List (List Char)} (h : IsPlain style names)
    (hrel : isAbsolute style (joined names) = false) : new (joined names) style = .ok (.borrowed (joined names)) := by
  have hsla : slashed style (joined names) = .borrowed (joined names) := by
    refine if_neg ?_
    rintro ⟨rfl, hmem⟩
    obtain hslas | ⟨name, hname, hchar⟩ := mem_joined hmem
    · exact absurd hslas (by decide)
    · exact absurd (h.chars name hname _ hchar) (by decide)
  rw [Path.new, h.trimmed, hrel, hsla]
  show normalized _ = _
  rw [normalized, show (Cow.borrowed (joined names)).text = joined names from rfl, components_joined h.isName,
    if_neg (any_isSkipped_eq_false h.isName)]

/-! ## Normalised forms -/

theorem isPlain_unix {names : List (List Char)} (h : ∀ name ∈ names, IsName name) : IsPlain .unix names := by
  refine ⟨h, fun name hname c hc => ?_⟩
  rw [isSeparator, Bool.or_eq_false_iff, beq_eq_false_iff_ne]
  exact ⟨fun heq => (h name hname).separator (heq ▸ hc), rfl⟩

/-- What text leads to has no separator of the style in its names. -/
theorem isPlain_of_resolved {names : List (List Char)} (h : resolved style path = some names) : IsPlain style names := by
  refine ⟨isName_of_mem_resolved h, fun name hname c hc => ?_⟩
  rw [resolved, pieces, ← resolve_components] at h
  obtain hmem | ⟨hmem, -⟩ := mem_resolve h name hname
  · cases hmem
  · obtain ⟨hsla, hchar⟩ := mem_components name hmem
    obtain ⟨d, -, heq⟩ := mem_map.mp (hchar c hc)
    have hne : c ≠ '/' := fun heq => hsla (heq ▸ hc)
    by_cases hsep : isSeparator style d = true
    · rw [if_pos hsep] at heq
      exact absurd heq.symm hne
    · rw [if_neg hsep] at heq
      exact heq ▸ Bool.eq_false_iff.mpr hsep

/-- Text is accepted as a path of Unix when what is left of it after trimming is canonical. -/
theorem fromUnixStr_iff (path : List Char) : (∃ r, fromUnixStr path = .ok r) ↔ IsCanonical (trimmed .unix path) := by
  refine ⟨fun ⟨r, hr⟩ => ?_, fun ⟨names, hnames, hpath⟩ => ?_⟩
  · rw [fromUnixStr] at hr
    cases habs : isAbsolute _ _ with
    | true =>
      rw [new_of_absolute habs] at hr
      cases hr
    | false =>
      have hnew : new path .unix = normalized (slashed .unix (trimmed .unix path)) :=
        if_neg (by rw [habs]; exact Bool.false_ne_true)
      have hsla : slashed .unix (trimmed .unix path) = .borrowed (trimmed .unix path) := rfl
      have hlast := trimmed_getLast? habs
      rw [withSlashes_unix] at hlast
      rw [hnew, hsla, normalized, show (Cow.borrowed (trimmed .unix path)).text = trimmed .unix path from rfl] at hr
      by_cases hany : (components (trimmed .unix path)).any isSkipped = true
      · rw [if_pos hany] at hr
        cases hnor : normalize _ [] with
        | none =>
          rw [hnor] at hr
          cases hr
        | some text =>
          rw [hnor] at hr
          cases hr
      · refine ⟨components _, fun name hname => ?_, (joined_components hlast).symm⟩
        have hskip := isSkipped_eq_false.mp (Bool.eq_false_iff.mpr fun hskip => hany (any_eq_true.mpr ⟨name, hname, hskip⟩))
        exact ⟨fun h => hskip.1 (.inl h), fun h => hskip.1 (.inr h), hskip.2, (mem_components name hname).1⟩
  · have hpln := isPlain_unix hnames
    have hrel : isAbsolute .unix (joined names) = false :=
      Bool.eq_false_iff.mpr fun h => absurd (hpln.isAbsolute_iff.mp h).1 (by decide)
    have htwi : trimmed .unix (trimmed .unix path) = trimmed .unix path := by
      rw [hpath, hpln.trimmed]
    have hnew : new path .unix = new (trimmed .unix path) .unix := by
      rw [new, new, htwi]
    rw [fromUnixStr, hnew, hpath, hpln.new hrel]
    exact ⟨_, rfl⟩

/-! ## Paths are canonical and ordered by component -/

/-- Text is made into a path, and refused, as it should be. -/
structure IsMade (path : List Char) (style : PathStyle) : Prop where
  /-- Only absolute text is refused, and text that leads out of the directory where it starts. -/
  refused : ∀ error, new path style = .error error → isAbsolute style path = true ∨ resolved style path = none
  /-- What is made is the names that the text leads to. -/
  made : ∀ r, new path style = .ok r → ∃ names, resolved style path = some names ∧ (∀ name ∈ names, IsName name) ∧ r.text = joined names
  /-- What is made is made into itself. -/
  again : ∀ r, new path style = .ok r → ∃ r', new r.text style = .ok r' ∧ r'.text = r.text
  /-- Text with slashes is accepted as it is when it is canonical, and only then. -/
  accepted : (∃ r, fromUnixStr path = .ok r) ↔ IsCanonical path

/-- What holds of all paths. -/
structure AreOrdered : Prop where
  trans : Std.TransCmp RelPath.cmp
  eq : Std.LawfulEqCmp RelPath.cmp
  /-- The paths that start with one of them lie together, and begin with it. -/
  between : ∀ start low path high : RelPath, startsWith low.text start.text = true → startsWith high.text start.text = true →
    (RelPath.cmp low path).isLE → (RelPath.cmp path high).isLE → startsWith path.text start.text = true
  self : ∀ start : RelPath, startsWith start.text start.text = true
  first : ∀ start path : RelPath, startsWith path.text start.text = true → (RelPath.cmp start path).isLE
  strip : ∀ path other : RelPath, stripPrefix (join path.text other.text) path.text = some other.text
  components : ∀ path : RelPath, DoubleEnded.Yields componentsIterator path.text (components path.text)
  ancestors : ∀ path : RelPath, DoubleEnded.Yields ancestorsIterator (ancestors path.text) (ancestorsOf (Path.components path.text))

theorem areOrdered : AreOrdered where
  trans := inferInstance
  eq := inferInstance
  between start low path high hlow hhigh hle hle' :=
    (startsWith_iff path.canonical start.canonical).mpr (prefix_of_between
      ((startsWith_iff low.canonical start.canonical).mp hlow) ((startsWith_iff high.canonical start.canonical).mp hhigh) hle hle')
  self start := (startsWith_iff start.canonical start.canonical).mpr prefix_rfl
  first start path h := isLE_of_prefix ((startsWith_iff path.canonical start.canonical).mp h)
  strip path other := stripPrefix_join path.text other.text
  components path := components_yields path.canonical
  ancestors path := ancestors_yields path.canonical

/-- Text that is made into a path as it should be. What stands behind dots in front is not absolute, or it leads out of the directory;
it does not lead to a drive of Windows with something below it; and what has to be trimmed is not canonical without that. -/
structure IsOrdinary (path : List Char) (style : PathStyle) : Prop where
  dots : trimDots style path ≠ path → isAbsolute style (trimmed style path) = true → resolved style path = none
  drive : style = .windows → isAbsolute style (trimmed style path) = false →
    ∀ drive second rest, resolved style path = some ([drive, ':'] :: second :: rest) → drive.isAlpha = false
  ends : IsCanonical (trimmed .unix path) → trimmed .unix path = path

/-- Text that begins with a dot is not absolute. -/
theorem isAbsolute_dot (style : PathStyle) (rest : List Char) : isAbsolute style ('.' :: rest) = false := by
  have hdri : startsWithDrive ('.' :: rest) = false := by
    unfold startsWithDrive
    split
    · rename_i heq
      obtain ⟨rfl, -⟩ := List.cons.inj heq
      rfl
    · rfl
  rw [isAbsolute, hdri]
  cases style <;> rfl

theorem exists_dot_of_trimDots (h : trimDots style path ≠ path) : ∃ rest, path = '.' :: rest := by
  by_contra hnot
  refine h (trimDots_eq_self fun c rest heq => ?_)
  exact absurd ⟨_, heq⟩ hnot

theorem ordinary_of_made (h : IsMade path style) : IsOrdinary path style := by
  refine ⟨fun hdots habs => ?_, fun hwin hrel drive second rest hnames => ?_, fun hcan => ?_⟩
  · obtain ⟨rest, rfl⟩ := exists_dot_of_trimDots hdots
    refine (h.refused _ (new_of_absolute habs)).resolve_left ?_
    rw [isAbsolute_dot]
    exact Bool.false_ne_true
  · subst hwin
    obtain ⟨r, hr, htext⟩ := (new_of_relative hrel).1 _ hnames
    obtain ⟨r', hr', -⟩ := h.again r hr
    have hpln := isPlain_of_resolved hnames
    refine Bool.eq_false_iff.mpr fun hdri => ?_
    have habs := hpln.isAbsolute_iff.mpr ⟨rfl, drive, second, rest, rfl, hdri⟩
    rw [htext, new_of_absolute (hpln.trimmed.symm ▸ habs)] at hr'
    cases hr'
  · obtain ⟨names, hnames, hpath⟩ := h.accepted.mp ((fromUnixStr_iff path).mpr hcan)
    rw [hpath]
    exact (isPlain_unix hnames).trimmed

theorem made_of_ordinary (h : IsOrdinary path style) : IsMade path style := by
  have hcase : ∀ r, new path style = .ok r → isAbsolute style (trimmed style path) = false ∧
      ∃ names, resolved style path = some names ∧ r.text = joined names := by
    intro r hr
    cases habs : isAbsolute _ _ with
    | true =>
      rw [new_of_absolute habs] at hr
      cases hr
    | false =>
      cases hnames : resolved _ path with
      | none =>
        obtain ⟨error, herr⟩ := (new_of_relative habs).2 hnames
        rw [herr] at hr
        cases hr
      | some names =>
        obtain ⟨r', hr', htext⟩ := (new_of_relative habs).1 _ hnames
        rw [hr'] at hr
        cases hr
        exact ⟨rfl, names, rfl, htext⟩
  refine ⟨fun error hnew => ?_, fun r hr => ?_, fun r hr => ?_, ?_⟩
  · cases habs : isAbsolute _ (trimmed _ path) with
    | true =>
      by_cases hdots : trimDots style path = path
      · have hpre := trimmed_prefix style path
        rw [hdots] at hpre
        exact .inl (isAbsolute_of_isPrefix hpre habs)
      · exact .inr (h.dots hdots habs)
    | false =>
      cases hnames : resolved _ path with
      | none => exact .inr rfl
      | some names =>
        obtain ⟨r, hr, -⟩ := (new_of_relative habs).1 _ hnames
        rw [hr] at hnew
        cases hnew
  · obtain ⟨-, names, hnames, htext⟩ := hcase r hr
    exact ⟨names, hnames, isName_of_mem_resolved hnames, htext⟩
  · obtain ⟨hrel, names, hnames, htext⟩ := hcase r hr
    have hpln := isPlain_of_resolved hnames
    have hjoin : isAbsolute style (joined names) = false := by
      refine Bool.eq_false_iff.mpr fun habs => ?_
      obtain ⟨hwin, drive, second, rest, rfl, hdri⟩ := hpln.isAbsolute_iff.mp habs
      rw [h.drive hwin hrel _ _ rest hnames] at hdri
      cases hdri
    rw [htext]
    exact ⟨_, hpln.new hjoin, rfl⟩
  · rw [fromUnixStr_iff]
    refine ⟨fun hcan => h.ends hcan ▸ hcan, fun ⟨names, hnames, hpath⟩ => ?_⟩
    exact ⟨names, hnames, by rw [hpath, (isPlain_unix hnames).trimmed]⟩

/-- Text is made into a path as it should be, and the paths are ordered by component, exactly when the text is an ordinary one. -/
theorem paths_are_canonical (path : List Char) (style : PathStyle) : IsMade path style ∧ AreOrdered ↔ IsOrdinary path style :=
  ⟨fun h => ordinary_of_made h.1, fun h => ⟨made_of_ordinary h, areOrdered⟩⟩

/-- Text that is not absolute is refused when a separator follows dots in front of it; with Windows' separators a path is made that is
itself absolute; and text that is not canonical is accepted. -/
theorem paths_not_canonical :
    ¬IsMade ".//a".toList .unix ∧ ¬IsMade "a/../C:/b".toList .windows ∧ ¬IsMade "a/".toList .unix := by
  refine ⟨fun h => ?_, fun h => ?_, fun h => ?_⟩
  · have hrefused : new ".//a".toList .unix = .error (.absolute "/a".toList) := by decide +kernel
    exact absurd (h.refused _ hrefused) (by decide +kernel)
  · have hmade : new "a/../C:/b".toList .windows = .ok (.owned "C:/b".toList) := by decide +kernel
    obtain ⟨r', hr', -⟩ := h.again _ hmade
    have habsolute : new "C:/b".toList .windows = .error (.absolute "C:/b".toList) := by decide +kernel
    rw [show (Cow.owned "C:/b".toList).text = "C:/b".toList from rfl, habsolute] at hr'
    cases hr'
  · have haccepted : fromUnixStr "a/".toList = .ok "a".toList := by decide +kernel
    obtain ⟨names, hnames, hpath⟩ := h.accepted.mp ⟨_, haccepted⟩
    have htrimmed := (isPlain_unix hnames).trimmed
    rw [← hpath] at htrimmed
    exact absurd htrimmed (by decide)

end Wu.Path
