import Wu.DoubleEnded
import Wu.Path.RelPath
import Mathlib.Data.List.Infix

/-!
# Canonical paths

A canonical path is names with slashes between them. Its components are the names, so it can be looked at as a list: what it starts
with, how it is ordered, and what its iterators yield.
-/

namespace Wu.Path

open List CharLists

open CharLists (splitOnce rsplitOnce)
open DoubleEnded (DoubleEndedIterator Simulates Yields)

/-- A component that stands for an entry of a directory. -/
structure IsName (component : List Char) : Prop where
  ne_nil : component ≠ []
  ne_dot : component ≠ ['.']
  ne_dots : component ≠ ['.', '.']
  separator : '/' ∉ component

/-- Names with slashes between them. -/
def joined (names : List (List Char)) : List Char := intercalate ['/'] names

/-- A path without empty components, dots, and separators at its ends. -/
def IsCanonical (text : List Char) : Prop := ∃ names, (∀ name ∈ names, IsName name) ∧ text = joined names

/-- A path that is known to be relative and normalized. -/
structure RelPath where
  text : List Char
  canonical : IsCanonical text

/-! ## Joined names -/

theorem joined_singleton (name : List Char) : joined [name] = name := intercalate_singleton

theorem joined_cons_cons (name next : List Char) (names : List (List Char)) :
    joined (name :: next :: names) = name ++ '/' :: joined (next :: names) := by
  rfl

theorem joined_append {front back : List (List Char)} (hfro : front ≠ []) (hback : back ≠ []) :
    joined (front ++ back) = joined front ++ '/' :: joined back := by
  induction front with
  | nil => exact absurd rfl hfro
  | cons name front ih =>
    cases front with
    | nil =>
      cases back with
      | nil => exact absurd rfl hback
      | cons next back => rw [singleton_append, joined_cons_cons, joined_singleton]
    | cons next front =>
      rw [cons_append, cons_append, joined_cons_cons, ← cons_append, ih (cons_ne_nil _ _), joined_cons_cons,
        append_assoc, cons_append]

theorem joined_ne_nil {names : List (List Char)} (hne : names ≠ []) (hnames : ∀ name ∈ names, IsName name) : joined names ≠ [] := by
  cases names with
  | nil => exact absurd rfl hne
  | cons name names =>
    have hname := (hnames name mem_cons_self).ne_nil
    cases names with
    | nil => rwa [joined_singleton]
    | cons next names =>
      exact append_ne_nil_of_left_ne_nil hname _

/-! ## Splitting at separators -/

variable {head : List Char} {k : Nat}

theorem splitOnce_separator (h : '/' ∉ head) (tail : List Char) : splitOnce ['/'] (head ++ '/' :: tail) = some (head, tail) :=
  splitOnce_char h tail

theorem splitOnce_of_notMem {text : List Char} (h : '/' ∉ text) : splitOnce ['/'] text = none := by
  cases hspl : splitOnce _ text with
  | none => rfl
  | some found =>
    have hmem : '/' ∈ text := by
      rw [splitOnce_spec hspl]
      exact mem_append_right _ mem_cons_self
    exact absurd hmem h

theorem next_separator (h : '/' ∉ head) (tail : List Char) : next (head ++ '/' :: tail) = some (head, tail) := by
  rw [next, splitOnce_separator h]

theorem next_last {text : List Char} (h : '/' ∉ text) (hne : text ≠ []) : next text = some (text, []) := by
  rw [next, splitOnce_of_notMem h]
  exact if_neg hne

theorem next_nil : next [] = none := rfl

theorem components_nil : components [] = [] := by
  rw [components, next_nil]

theorem components_separator (h : '/' ∉ head) (tail : List Char) : components (head ++ '/' :: tail) = head :: components tail := by
  rw [components, next_separator h]

theorem components_last {text : List Char} (h : '/' ∉ text) (hne : text ≠ []) : components text = [text] := by
  rw [components, next_last h hne]
  exact congrArg _ components_nil

/-- The components of a canonical path are its names. -/
theorem components_joined {names : List (List Char)} (hnames : ∀ name ∈ names, IsName name) : components (joined names) = names := by
  induction names with
  | nil => exact components_nil
  | cons name names ih =>
    have hname := hnames name mem_cons_self
    cases names with
    | nil => rw [joined_singleton, components_last hname.separator hname.ne_nil]
    | cons next names =>
      rw [joined_cons_cons, components_separator hname.separator, ih fun x hx => hnames x (mem_cons_of_mem name hx)]

theorem IsCanonical.components {text : List Char} (h : IsCanonical text) :
    (∀ name ∈ Path.components text, IsName name) ∧ text = joined (Path.components text) := by
  obtain ⟨names, hnames, rfl⟩ := h
  rw [components_joined hnames]
  exact ⟨hnames, rfl⟩

/-! ## Iterators -/

/-- `RelPathComponents`. -/
def componentsIterator : DoubleEndedIterator (List Char) (List Char) := ⟨next, nextBack⟩

/-- `RelPathAncestors`. -/
def ancestorsIterator : DoubleEndedIterator RelPathAncestors (List Char) := ⟨RelPathAncestors.next, RelPathAncestors.nextBack⟩

theorem componentsIterator_simulates :
    Simulates componentsIterator fun text names => (∀ name ∈ names, IsName name) ∧ text = joined names where
  done := by
    rintro - ⟨-, rfl⟩
    exact ⟨rfl, rfl⟩
  front := by
    rintro - name names ⟨hnames, rfl⟩
    have hname := hnames name mem_cons_self
    refine ⟨joined _, ?_, fun x hx => hnames x (mem_cons_of_mem name hx), rfl⟩
    cases names with
    | nil => exact (congrArg next (joined_singleton name)).trans (next_last hname.separator hname.ne_nil)
    | cons second names => exact (congrArg next (joined_cons_cons name _ _)).trans (next_separator hname.separator _)
  back := by
    rintro - names name ⟨hnames, rfl⟩
    have hname := hnames name (mem_append_right _ mem_cons_self)
    refine ⟨joined _, ?_, fun x hx => hnames x (mem_append_left _ hx), rfl⟩
    by_cases hne : names = []
    · rw [hne, nil_append, joined_singleton]
      show nextBack name = _
      rw [nextBack, CharLists.rsplitOnce_eq_none.mpr hname.separator]
      exact if_neg hname.ne_nil
    · rw [joined_append hne (cons_ne_nil name []), joined_singleton]
      show nextBack _ = _
      rw [nextBack, rsplitOnce_append hname.separator]

/-- However the components of a canonical path are asked for, each comes once and in order. -/
theorem components_yields {text : List Char} (h : IsCanonical text) : Yields componentsIterator text (components text) :=
  componentsIterator_simulates.yields h.components

/-- The ancestors of a path, itself first: what its first names are joined to. -/
def ancestorTexts (names : List (List Char)) (first count : Nat) : List (List Char) :=
  ((range' first count).map fun k => joined (names.take k)).reverse

theorem ancestorTexts_succ_last (names : List (List Char)) (first count : Nat) :
    ancestorTexts names first (count + 1) = joined (names.take (first + count)) :: ancestorTexts names first count := by
  rw [ancestorTexts, range'_1_concat, map_append, reverse_append]
  rfl

theorem ancestorTexts_succ_first (names : List (List Char)) (first count : Nat) :
    ancestorTexts names first (count + 1) = ancestorTexts names (first + 1) count ++ [joined (names.take first)] := by
  rw [ancestorTexts, range'_succ, map_cons, reverse_cons, ancestorTexts]

/-- The start of a path, and what follows it there. -/
theorem joined_take_succ {names : List (List Char)} {name : List Char} (hname : names[k]? = some name) :
    joined (names.take (k + 1)) = if k = 0 then name else joined (names.take k) ++ '/' :: name := by
  have hlt := (List.getElem?_eq_some_iff.mp hname).1
  have htake : names.take (k + 1) = names.take k ++ [name] := by
    rw [take_add_one, hname]
    rfl
  rw [htake]
  by_cases hzero : k = 0
  · rw [if_pos hzero, hzero, take_zero, nil_append, joined_singleton]
  · have hne : names.take k ≠ [] := by
      rw [Ne, take_eq_nil_iff, not_or]
      refine ⟨hzero, fun hnil => ?_⟩
      rw [hnil] at hlt
      cases hlt
    rw [if_neg hzero, joined_append hne (cons_ne_nil name []), joined_singleton]

/-- What is left of a path behind the start of it. -/
theorem joined_eq_take {names : List (List Char)} (hpos : 0 < k) (hk : k < names.length) :
    joined names = joined (names.take k) ++ '/' :: joined (names.drop k) := by
  have hdrop : names.drop k ≠ [] := fun h => absurd (drop_eq_nil_iff.mp h) (by omega)
  have htake : names.take k ≠ [] := fun h => by
    obtain h | h := take_eq_nil_iff.mp h
    · omega
    · rw [h] at hk
      cases hk
  rw [← joined_append htake hdrop, take_append_drop]

/-- The position up to which the first names of a path go. -/
def cut (names : List (List Char)) (k : Nat) : Nat := (joined (names.take k)).length

theorem take_cut {names : List (List Char)} (hk : k ≤ names.length) : (joined names).take (cut names k) = joined (names.take k) := by
  by_cases hpos : 0 < k
  · by_cases hlt : k < names.length
    · rw [joined_eq_take hpos hlt, cut, take_left]
    · have heq : names.take k = names := take_of_length_le (by omega)
      rw [cut, heq, take_length]
  · rw [Nat.eq_zero_of_not_pos hpos]
    rfl

theorem cut_succ {names : List (List Char)} {name : List Char} (hname : names[k]? = some name) :
    cut names (k + 1) = if k = 0 then name.length else cut names k + 1 + name.length := by
  rw [cut, joined_take_succ hname]
  by_cases hzero : k = 0
  · rw [if_pos hzero, if_pos hzero]
  · rw [if_neg hzero, if_neg hzero, cut, length_append, length_cons]
    omega

theorem cut_lt {names : List (List Char)} (hnames : ∀ name ∈ names, IsName name) (hk : k < names.length) :
    cut names k < cut names (k + 1) := by
  have hname := List.getElem?_eq_getElem hk
  have hpos := length_pos_of_ne_nil (hnames _ (getElem_mem hk)).ne_nil
  rw [cut_succ hname]
  by_cases hzero : k = 0
  · have hcut : cut names k = 0 := by
      rw [hzero]
      rfl
    rw [if_pos hzero, hcut]
    exact hpos
  · rw [if_neg hzero]
    omega

theorem cut_add_lt {names : List (List Char)} (hnames : ∀ name ∈ names, IsName name) {count : Nat}
    (hk : k + (count + 1) ≤ names.length) : cut names k < cut names (k + (count + 1)) := by
  induction count with
  | zero => exact cut_lt hnames (by omega)
  | succ count ih => exact (ih (by omega)).trans (cut_lt hnames (by omega))

/-- The ancestors that are left: those from one position to another. -/
def HoldsAncestors (names : List (List Char)) (self : RelPathAncestors) (items : List (List Char)) : Prop :=
  self.full = joined names ∧ (self.done = true ∧ items = [] ∨
      self.done = false ∧ ∃ first count, first + count ≤ names.length ∧ self.back = cut names first ∧
        self.front = cut names (first + count) ∧ items = ancestorTexts names first (count + 1))

section

variable {names : List (List Char)} (hnames : ∀ name ∈ names, IsName name)
include hnames

/-- The separator before the last name of an ancestor is where its parent ends. -/
theorem rfind_ancestor (hk : k < names.length) : (rfind (joined (names.take (k + 1)))).getD 0 = cut names k := by
  have hname := List.getElem?_eq_getElem hk
  have hsep := (hnames _ (getElem_mem hk)).separator
  rw [joined_take_succ hname]
  by_cases hzero : k = 0
  · have hcut : cut names k = 0 := by
      rw [hzero]
      rfl
    rw [if_pos hzero, rfind, CharLists.rsplitOnce_eq_none.mpr hsep, hcut]
    rfl
  · rw [if_neg hzero, rfind, rsplitOnce_append hsep]
    rfl

/-- Where the search for the next separator begins. -/
theorem drop_searchStart (hk : k < names.length) :
    (joined names).drop (if cut names k = 0 then 0 else cut names k + 1) = joined (names.drop k) := by
  by_cases hpos : 0 < k
  · have hlt : 0 < cut names k := by
      have hlt : cut names 0 < cut names (0 + (k - 1 + 1)) := cut_add_lt hnames (by omega)
      rw [show 0 + (k - 1 + 1) = k by omega] at hlt
      omega
    have hdrop : (joined (names.take k) ++ '/' :: joined (names.drop k)).drop (cut names k + 1) = joined (names.drop k) := by
      rw [← drop_drop, cut, drop_left]
      rfl
    rw [if_neg (by omega), joined_eq_take hpos hk, hdrop]
  · rw [Nat.eq_zero_of_not_pos hpos]
    rfl

theorem find_ancestor (hk : k < names.length) : ((find ((joined names).drop (if cut names k = 0 then 0 else cut names k + 1))).map
      ((if cut names k = 0 then 0 else cut names k + 1) + ·)).getD (joined names).length = cut names (k + 1) := by
  have hname := List.getElem?_eq_getElem hk
  have hsep := (hnames _ (getElem_mem hk)).separator
  have hst : (if cut names k = 0 then 0 else cut names k + 1) + names[k].length = cut names (k + 1) := by
    rw [cut_succ hname]
    by_cases hzero : k = 0
    · have hcut : cut names k = 0 := by
        rw [hzero]
        rfl
      rw [if_pos hcut, if_pos hzero, Nat.zero_add]
    · have hlt : cut names 0 < cut names (0 + (k - 1 + 1)) := cut_add_lt hnames (by omega)
      rw [show 0 + (k - 1 + 1) = k by omega] at hlt
      rw [if_neg (by omega), if_neg hzero]
  rw [drop_searchStart hnames hk, drop_eq_getElem_cons hk]
  cases hrest : names.drop _ with
  | nil =>
    have hlen := drop_eq_nil_iff.mp hrest
    rw [joined_singleton, find, splitOnce_of_notMem hsep]
    exact congrArg (fun names => (joined names).length) (take_of_length_le hlen).symm
  | cons second rest =>
    rw [joined_cons_cons, find, splitOnce_separator hsep]
    exact hst

theorem ancestorsIterator_simulates : Simulates ancestorsIterator (HoldsAncestors names) where
  done := by
    rintro ⟨full, front, back, done⟩ ⟨-, ⟨hdone, -⟩ | ⟨-, first, count, -, -, -, hitems⟩⟩
    · cases hdone
      exact ⟨rfl, rfl⟩
    · rw [ancestorTexts_succ_last] at hitems
      cases hitems
  front := by
    rintro ⟨full, front, back, done⟩ item items ⟨hfull, ⟨-, hitems⟩ | ⟨hdone, first, count, hle, hback, hfro, hitems⟩⟩
    · cases hitems
    obtain rfl : done = false := hdone
    obtain rfl : full = joined names := hfull
    obtain rfl : back = cut names first := hback
    obtain rfl : front = cut names (first + count) := hfro
    rw [ancestorTexts_succ_last] at hitems
    obtain ⟨rfl, rfl⟩ := List.cons.inj hitems
    rw [show ancestorsIterator.next = RelPathAncestors.next from rfl, RelPathAncestors.next]
    rw [take_cut hle]
    cases count with
    | zero =>
      rw [if_pos (show cut names (first + 0) = cut names first from rfl)]
      exact ⟨_, rfl, rfl, .inl ⟨rfl, rfl⟩⟩
    | succ count =>
      rw [if_neg (cut_add_lt hnames hle).ne', ← Nat.add_assoc, rfind_ancestor hnames (by omega)]
      exact ⟨_, rfl, rfl, .inr ⟨rfl, first, count, by omega, rfl, rfl, rfl⟩⟩
  back := by
    rintro ⟨full, front, back, done⟩ items item ⟨hfull, ⟨-, hitems⟩ | ⟨hdone, first, count, hle, hback, hfro, hitems⟩⟩
    · cases (append_eq_nil_iff.mp hitems).2
    obtain rfl : done = false := hdone
    obtain rfl : full = joined names := hfull
    obtain rfl : back = cut names first := hback
    obtain rfl : front = cut names (first + count) := hfro
    rw [ancestorTexts_succ_first] at hitems
    obtain ⟨rfl, hitem⟩ := append_inj' hitems rfl
    obtain ⟨rfl, -⟩ := List.cons.inj hitem
    rw [show ancestorsIterator.nextBack = RelPathAncestors.nextBack from rfl, RelPathAncestors.nextBack]
    dsimp only
    rw [take_cut (by omega)]
    cases count with
    | zero =>
      rw [if_pos (show cut names (first + 0) = cut names first from rfl)]
      exact ⟨_, rfl, rfl, .inl ⟨rfl, rfl⟩⟩
    | succ count =>
      rw [if_neg (cut_add_lt hnames hle).ne', find_ancestor hnames (by omega)]
      refine ⟨_, rfl, rfl, .inr ⟨rfl, first + 1, count, by omega, rfl, ?_, rfl⟩⟩
      rw [show first + 1 + count = first + (count + 1) by omega]

end

/-- The ancestors of a path, itself first and the empty path last. -/
def ancestorsOf (names : List (List Char)) : List (List Char) := ancestorTexts names 0 (names.length + 1)

/-- However the ancestors of a canonical path are asked for, each comes once and in order. -/
theorem ancestors_yields {text : List Char} (h : IsCanonical text) :
    Yields ancestorsIterator (ancestors text) (ancestorsOf (components text)) := by
  obtain ⟨hnames, htext⟩ := h.components
  refine (ancestorsIterator_simulates hnames).yields ⟨htext, .inr ⟨rfl, 0, (components text).length, by omega, rfl, ?_, rfl⟩⟩
  show text.length = _
  rw [cut, Nat.zero_add, take_length, ← htext]

/-! ## What a path starts with -/

theorem components_joined_separator {names : List (List Char)} (hnames : ∀ name ∈ names, IsName name) (hne : names ≠ [])
    (text : List Char) : components (joined names ++ '/' :: text) = names ++ components text := by
  induction names with
  | nil => exact absurd rfl hne
  | cons name names ih =>
    have hsep := (hnames name mem_cons_self).separator
    cases names with
    | nil => rw [joined_singleton, components_separator hsep, singleton_append]
    | cons second names =>
      rw [joined_cons_cons, append_assoc, cons_append, components_separator hsep,
        ih (fun x hx => hnames x (mem_cons_of_mem name hx)) (cons_ne_nil _ _)]
      rfl

theorem stripPrefix_join (text other : List Char) : stripPrefix (join text other) text = some other := by
  by_cases htext : text = []
  · rw [stripPrefix, if_pos htext, join, if_pos htext]
  · rw [stripPrefix, if_neg htext]
    by_cases hoth : other = []
    · rw [join, if_neg htext, if_pos hoth, if_pos prefix_rfl, drop_length, hoth]
    · rw [join, if_neg htext, if_neg hoth, if_pos (prefix_append text _), drop_left]
      rfl

/-- A path starts with another one when its names do. -/
theorem startsWith_iff {text other : List Char} (htext : IsCanonical text) (hothe : IsCanonical other) :
    startsWith text other = true ↔ components other <+: components text := by
  obtain ⟨names, hnames, rfl⟩ := htext
  obtain ⟨others, hoth, rfl⟩ := hothe
  rw [components_joined hnames, components_joined hoth]
  by_cases hnil : others = []
  · rw [hnil]
    exact ⟨fun _ => nil_prefix, fun _ => rfl⟩
  have hne := joined_ne_nil hnil hoth
  refine ⟨fun h => ?_, fun h => ?_⟩
  · rw [startsWith, stripPrefix, if_neg hne] at h
    by_cases hpre : joined others <+: joined names
    · rw [if_pos hpre] at h
      have heq := prefix_iff_eq_append.mp hpre
      have hcom := components_joined hnames
      generalize (joined names).drop (joined others).length = rest at h heq
      rw [← heq] at hcom
      split at h
      · rw [components_joined_separator hoth hnil] at hcom
        exact ⟨_, hcom⟩
      · rw [append_nil, components_joined hoth] at hcom
        exact hcom ▸ prefix_rfl
      · cases h
    · rw [if_neg hpre] at h
      cases h
  · obtain ⟨rest, rfl⟩ := h
    by_cases hrest : rest = []
    · rw [hrest, append_nil, startsWith, stripPrefix, if_neg hne, if_pos prefix_rfl, drop_length]
      rfl
    · rw [joined_append hnil hrest, startsWith, stripPrefix, if_neg hne, if_pos (prefix_append _ _), drop_left]
      rfl

/-! ## The order -/

/-- What lies between two lists that start with a third one starts with it too. -/
theorem prefix_of_between {α : Type} [Ord α] [Std.TransOrd α] [Std.LawfulEqOrd α] {start low list high : List α}
    (hlow : start <+: low) (hhigh : start <+: high) (hle : (compare low list).isLE) (hle' : (compare list high).isLE) :
    start <+: list := by
  induction start generalizing low list high with
  | nil => exact nil_prefix
  | cons item start ih =>
    obtain ⟨low, rfl⟩ := hlow
    obtain ⟨high, rfl⟩ := hhigh
    rw [cons_append] at hle hle'
    cases list with
    | nil => cases hle
    | cons other list =>
      rw [List.compare_cons_cons, Ordering.isLE_then_iff_and] at hle hle'
      have heq : item = other :=
        Std.LawfulEqOrd.eq_of_compare (Std.OrientedCmp.isLE_antisymm hle.1 hle'.1)
      subst heq
      have hself : compare item item = .eq := Std.ReflOrd.compare_self
      rw [hself] at hle hle'
      exact cons_prefix_cons.mpr ⟨rfl, ih (prefix_append _ low) (prefix_append _ high)
        (hle.2.resolve_left (by decide)) (hle'.2.resolve_left (by decide))⟩

/-- A list comes before all that start with it. -/
theorem isLE_of_prefix {α : Type} [Ord α] [Std.ReflOrd α] {start list : List α} (h : start <+: list) : (compare start list).isLE := by
  obtain ⟨-, rfl⟩ := h
  induction start with
  | nil => exact List.isLE_compare_nil_left
  | cons item start ih =>
    rw [cons_append, List.compare_cons_cons, Std.ReflOrd.compare_self]
    exact ih

namespace RelPath

def cmp (path other : RelPath) : Ordering := Path.cmp path.text other.text

theorem ext {path other : RelPath} (h : components path.text = components other.text) : path = other := by
  cases path with
  | mk text canonical =>
    cases other with
    | mk text' canonical' =>
      have htext : text = text' := by
        rw [canonical.components.2, canonical'.components.2]
        exact congrArg _ h
      cases htext
      rfl

instance : Std.TransCmp cmp := inferInstanceAs (Std.TransCmp (compareOn fun path : RelPath => components path.text))

instance : Std.LawfulEqCmp cmp where
  compare_self := Std.ReflOrd.compare_self
  eq_of_compare h := ext (Std.LawfulEqOrd.eq_of_compare h)

end RelPath

end Wu.Path
