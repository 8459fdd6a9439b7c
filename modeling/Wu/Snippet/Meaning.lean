import Wu.Snippet.Prints

/-!
# What snippets mean

The parser returns the text of the tree that its source prints, and for each number the ranges of its occurrences.
-/

namespace Wu.Snippet

open List

/-! ## Tab stops by their numbers -/

/-- The ranges of the occurrences of a number, with the choices of the first. -/
def stopOf (occurrences : List Occurrence) (number : Nat) : TabStop where
  ranges := (occurrences.filter fun o => o.number = number).map fun o => (o.start, o.end)
  choices := (occurrences.find? fun o => o.number = number).bind Occurrence.choices

variable {o : Occurrence} {source : Str} {error : ParseError}

theorem stopOf_append_ne {number : Nat} (h : o.number ≠ number) (occurrences : List Occurrence) :
    stopOf (occurrences ++ [o]) number = stopOf occurrences number := by
  simp [stopOf, h]

theorem stopOf_append_new {occurrences : List Occurrence} (h : ∀ other ∈ occurrences, other.number ≠ o.number) :
    stopOf (occurrences ++ [o]) o.number = ⟨[(o.start, o.end)], o.choices⟩ := by
  have hfilt : occurrences.filter (fun other => other.number = o.number) = [] := by simpa using h
  have hfind : occurrences.find? (fun other => other.number = o.number) = none := by simpa using h
  simp [stopOf, hfilt, hfind]

theorem stopOf_append_old {occurrences : List Occurrence} (h : ∃ other ∈ occurrences, other.number = o.number) :
    stopOf (occurrences ++ [o]) o.number =
      { stopOf occurrences o.number with ranges := (stopOf occurrences o.number).ranges ++ [(o.start, o.end)] } := by
  have hfind : (occurrences.find? fun other => other.number = o.number).isSome = true := by simpa using h
  simp only [stopOf, filter_append, List.find?_append, map_append, Option.or_of_isSome hfind]
  simp

/-- A number gets one more range, which is its first if it is new. -/
theorem pushRange_map {index : Nat} {choices : Option (List Str)} {range : Nat × Nat} {f f' : Nat → TabStop}
    (hoth : ∀ number, number ≠ index → f' number = f number) {numbers : List Nat} (hsort : numbers.Pairwise (· < ·))
    (hold : index ∈ numbers → f' index = { f index with ranges := (f index).ranges ++ [range] })
    (hnew : index ∉ numbers → f' index = ⟨[range], choices⟩) :
    ∃ numbers' : List Nat, numbers'.Pairwise (· < ·) ∧ (∀ number, number ∈ numbers' ↔ number = index ∨ number ∈ numbers) ∧
      pushRange index choices range (numbers.map fun number => (number, f number)) = numbers'.map fun number => (number, f' number) := by
  have hmap : ∀ numbers : List Nat, index ∉ numbers →
      (numbers.map fun number => (number, f number)) = numbers.map fun number => (number, f' number) := fun numbers hnone =>
    map_congr_left fun number hnum => by rw [hoth _ fun heq => hnone (heq ▸ hnum)]
  induction numbers with
  | nil => exact ⟨[index], pairwise_singleton _ _, by simp, by simp [pushRange, hnew]⟩
  | cons key numbers ih =>
    obtain ⟨hfst, hrest⟩ := pairwise_cons.mp hsort
    rw [map_cons, pushRange]
    rcases Nat.lt_trichotomy index key with hlt | rfl | hgt
    · have hnone : index ∉ key :: numbers := by
        intro hmem
        rcases mem_cons.mp hmem with heq | hmem
        · omega
        · have hless := hfst _ hmem
          omega
      refine ⟨index :: key :: numbers, pairwise_cons.mpr ⟨forall_mem_cons.mpr ⟨hlt, fun x hx => hlt.trans (hfst x hx)⟩,
        hsort⟩, fun number => mem_cons, ?_⟩
      rw [if_pos hlt, map_cons, hnew hnone, ← hmap _ hnone, map_cons]
    · have hnone : index ∉ numbers := fun hmem => absurd (hfst _ hmem) (Nat.lt_irrefl _)
      refine ⟨index :: numbers, hsort, by simp, ?_⟩
      rw [if_neg (Nat.lt_irrefl _), if_pos rfl, map_cons, hold mem_cons_self, hmap _ hnone]
    · have hne := Nat.ne_of_gt hgt
      obtain ⟨numbers', hsort', hmem, heq⟩ := ih hrest (fun hmem => hold (.tail _ hmem))
        fun hnone => hnew fun hmem => hnone ((mem_cons.mp hmem).resolve_left hne)
      refine ⟨key :: numbers', pairwise_cons.mpr ⟨fun x hx => ?_, hsort'⟩, fun number => ?_, ?_⟩
      · rcases (hmem x).mp hx with rfl | hx
        exacts [hgt, hfst x hx]
      · rw [mem_cons, mem_cons, hmem]
        exact or_left_comm
      · rw [if_neg (Nat.lt_asymm hgt), if_neg hne, heq, map_cons, hoth key (Ne.symm hne)]

/-- The tab stops after all occurrences. -/
theorem foldl_pushRange (occurrences : List Occurrence) :
    ∃ numbers : List Nat, numbers.Pairwise (· < ·) ∧ (∀ number, number ∈ numbers ↔ ∃ o ∈ occurrences, o.number = number) ∧
      (occurrences.foldl (fun stops o => pushRange o.number o.choices (o.start, o.end) stops) []) =
        numbers.map fun number => (number, stopOf occurrences number) := by
  induction occurrences using reverseRecOn with
  | nil => exact ⟨[], List.Pairwise.nil, by simp, rfl⟩
  | append_singleton occurrences o ih =>
    obtain ⟨numbers, hsort, hmem, heq⟩ := ih
    obtain ⟨numbers', hsort', hmem', heq'⟩ := pushRange_map (fun number hne => stopOf_append_ne (Ne.symm hne) _) hsort
      (fun hold => stopOf_append_old ((hmem _).mp hold))
      fun hnew => stopOf_append_new fun other hoth hnum => hnew ((hmem _).mpr ⟨other, hoth, hnum⟩)
    refine ⟨numbers', hsort', fun number => ?_, ?_⟩
    · rw [hmem', hmem]
      constructor
      · rintro (rfl | ⟨other, hoth, hnum⟩)
        exacts [⟨o, by simp, rfl⟩, ⟨other, mem_append_left _ hoth, hnum⟩]
      · rintro ⟨other, hoth, rfl⟩
        rcases mem_append.mp hoth with hoth | hoth
        exacts [.inr ⟨other, hoth, rfl⟩, .inl (by rw [mem_singleton.mp hoth])]
    · rw [foldl_append, heq]
      exact heq'

/-! ## The meaning of a tree -/

/-- Ranges are on boundaries of characters. -/
theorem occurrences_boundaries (tree : Tree) : ∀ (before : Str), ∀ o ∈ tree.occurrences before.len,
    ∃ front inside back, before ++ tree.text = front ++ inside ++ back ∧ o.start = front.len ∧ o.end = (front ++ inside).len := by
  have hlen : ∀ a b : Str, (a ++ b).len = a.len + b.len := fun a b => by simp [Str.len]
  induction tree with
  | nil => exact fun before o ho => by cases ho
  | char c rest ih =>
    intro before o ho
    have hfnd := ih (before ++ [c])
    rw [hlen, append_assoc] at hfnd
    exact hfnd o ho
  | stop number choices content rest ihcontent ih =>
    intro before o ho
    rw [Tree.occurrences, ← hlen, ← hlen] at ho
    rcases mem_append.mp ho with ho | ho
    · obtain ⟨front, inside, back, heq, hst, hend⟩ := ihcontent _ o ho
      refine ⟨front, inside, back ++ rest.text, ?_, hst, hend⟩
      rw [Tree.text, ← append_assoc, ← append_assoc, heq, append_assoc]
    · rcases mem_cons.mp ho with rfl | ho
      · refine ⟨before, firstChoice choices ++ content.text, rest.text, ?_, rfl, ?_⟩
        · rw [Tree.text, ← append_assoc]
        · rw [← append_assoc]
      · obtain ⟨front, inside, back, heq, hst, hend⟩ := ih _ o ho
        refine ⟨front, inside, back, ?_, hst, hend⟩
        rw [Tree.text, ← heq, append_assoc, append_assoc, append_assoc]

/-- The tab stop that stands in for a missing one with the number zero. -/
def endStop (text : Str) : TabStop := ⟨[(text.len, text.len)], none⟩

/-- Says that a snippet is what a tree means: its text, and the tab stops sorted by their numbers, with zero last. -/
structure Means (tree : Tree) (snippet : Snippet) : Prop where
  text : snippet.text = tree.text
  boundaries : ∀ o ∈ tree.occurrences 0,
    ∃ front inside back, tree.text = front ++ inside ++ back ∧ o.start = front.len ∧ o.end = (front ++ inside).len
  tabstops : ∃ numbers : List Nat, numbers.Pairwise (· < ·) ∧
    (∀ number, number ∈ numbers ↔ number ≠ 0 ∧ ∃ o ∈ tree.occurrences 0, o.number = number) ∧
    ((∃ o ∈ tree.occurrences 0, o.number = 0) →
      snippet.tabstops = numbers.map (stopOf (tree.occurrences 0)) ++ [stopOf (tree.occurrences 0) 0]) ∧
    ((∀ o ∈ tree.occurrences 0, o.number ≠ 0) → snippet.tabstops = numbers.map (stopOf (tree.occurrences 0)) ++ [endStop tree.text] ∧
          (numbers.map (stopOf (tree.occurrences 0))).getLast? ≠ some (endStop tree.text) ∨
        snippet.tabstops = numbers.map (stopOf (tree.occurrences 0)) ∧ snippet.tabstops.getLast? = some (endStop tree.text))

theorem means_add (tree : Tree) :
    Means tree ⟨(Output.add ⟨[], []⟩ tree).text, finalTabstops (Output.add ⟨[], []⟩ tree).text.len (Output.add ⟨[], []⟩ tree).tabstops⟩ := by
  obtain ⟨numbers, hsort, hmem, heq⟩ := foldl_pushRange (tree.occurrences 0)
  have hsto : (Output.add ⟨[], []⟩ tree).tabstops = numbers.map fun number => (number, stopOf (tree.occurrences 0) number) := heq
  have htext : (Output.add ⟨[], []⟩ tree).text = tree.text := nil_append _
  have hoth : (((numbers.map fun number => (number, stopOf (tree.occurrences 0) number)).filter fun stop => stop.1 ≠ 0).map Prod.snd) =
      (numbers.filter (· ≠ 0)).map (stopOf (tree.occurrences 0)) := by
    rw [filter_map, map_map]
    rfl
  have hfind : ((numbers.map fun number => (number, stopOf (tree.occurrences 0) number)).find? fun stop => stop.1 = 0) =
      (numbers.find? (· = 0)).map fun number => (number, stopOf (tree.occurrences 0) number) := List.find?_map ..
  refine ⟨htext, fun o ho => occurrences_boundaries tree [] o ho, numbers.filter (· ≠ 0), hsort.filter _, fun number => ?_, ?_, ?_⟩
  · rw [mem_filter, hmem, decide_eq_true_eq, and_comm]
  · intro hzero
    have hfnd : numbers.find? (· = 0) = some 0 := by
      cases hfind : numbers.find? _ with
      | none => simpa using List.find?_eq_none.mp hfind 0 ((hmem 0).mpr hzero)
      | some number =>
        have hnum : number = 0 := by simpa using List.find?_some hfind
        rw [hnum]
    rw [hsto, finalTabstops, hoth, hfind, hfnd]
    rfl
  · intro hnone
    have hfnd : numbers.find? (· = 0) = none := by
      refine List.find?_eq_none.mpr fun number hnum hzero => ?_
      obtain ⟨o, ho, rfl⟩ := (hmem _).mp hnum
      exact hnone o ho (of_decide_eq_true hzero)
    rw [hsto, finalTabstops, hoth, hfind, hfnd]
    dsimp only [Option.map_none]
    have hlast : (((numbers.filter (· ≠ 0)).map (stopOf (tree.occurrences 0))).getLast?.any fun stop =>
        stop.ranges = [(tree.text.len, tree.text.len)] ∧ stop.choices = none) = true ↔
          ((numbers.filter (· ≠ 0)).map (stopOf (tree.occurrences 0))).getLast? = some (endStop tree.text) := by
      rw [Option.any_eq_true]
      constructor
      · rintro ⟨⟨ranges, choices⟩, hget, hstop⟩
        obtain ⟨rfl, rfl⟩ := of_decide_eq_true hstop
        exact hget
      · exact fun hget => ⟨_, hget, decide_eq_true ⟨rfl, rfl⟩⟩
    split
    · rename_i hend
      exact .inr ⟨rfl, hlast.mp hend⟩
    · rename_i hend
      exact .inl ⟨rfl, fun hget => hend (hlast.mpr hget)⟩

/-! ## Errors -/

theorem parseInt_fueled (h : parseInt source = .error error) : error ≠ .outOfFuel := by
  simp only [parseInt] at h
  split at h
  · cases h
    simp
  · split at h
    · cases h
    · cases h
      simp

theorem parseChoices_fueled (fuel : Nat) : ∀ {source : Str} {found : Bool} {current : Str} {choices : List Str} {output : Output}
    {error : ParseError}, source.length < fuel → parseChoices fuel source found current choices output = .error error →
      error ≠ .outOfFuel := by
  induction fuel with
  | zero =>
    intro source found current choices output error hfuel
    cases hfuel
  | succ fuel ih =>
    intro source found current choices output error hfuel h
    cases source with
    | nil => cases h
    | cons c source =>
      have hfuel := Nat.lt_of_succ_lt_succ hfuel
      rw [parseChoices.eq_def] at h
      dsimp only at h
      split at h
      · cases source with
        | nil => exact ih hfuel h
        | cons d source => exact ih (Nat.lt_of_succ_lt hfuel) h
      · rename_i hbac
        split at h
        · exact ih hfuel h
        · rename_i hcom
          split at h
          · cases h
          · rename_i hpipe
            split at h
            · cases h
              simp
            · refine ih ?_ h
              have hc : isPlainChoice c = true := by simp [isPlainChoice, hbac, hcom, hpipe]
              rw [dropWhile_cons_of_pos hc]
              exact (dropWhile_sublist _).length_le.trans_lt hfuel

theorem parseTabstop_fueled {parseNested : Str → Output → Except ParseError (Str × Output)} {output : Output}
    (hnest : ∀ {inner output error}, inner.length < source.length → parseNested inner output = .error error →
      error ≠ .outOfFuel) (h : parseTabstop parseNested source output = .error error) : error ≠ .outOfFuel := by
  rw [parseTabstop] at h
  split at h
  · rename_i hopen
    obtain ⟨source, rfl⟩ := head?_eq_some_iff.mp hopen
    rw [tail_cons] at h
    cases hint : parseInt _ with
    | error found =>
      rw [hint] at h
      cases h
      exact parseInt_fueled hint
    | ok result =>
      obtain ⟨number, inner⟩ := result
      obtain ⟨digits, rfl, -, -⟩ := number_of_parseInt hint
      rw [hint] at h
      cases hopt : parseOption inner output with
      | error found =>
        simp only [bind, Except.bind, hopt] at h
        cases h
        rw [parseOption] at hopt
        split at hopt
        · split at hopt
          · cases hopt
          · rename_i hpar
            cases hopt
            exact parseChoices_fueled _ (Nat.lt_succ_of_le (by simp)) hpar
        · cases hopt
      | ok result =>
        obtain ⟨filling, choices, written⟩ := result
        simp only [bind, Except.bind, hopt] at h
        split at h
        · rename_i hcol
          obtain ⟨filling, rfl⟩ := head?_eq_some_iff.mp hcol
          have hle := (prints_of_parseOption hopt (cons_ne_nil _ _)).1.length_le
          split at h
          · rename_i hpar
            cases h
            refine hnest ?_ hpar
            simp only [length_cons, length_append, tail_cons] at hle ⊢
            omega
          · split at h
            · cases h
            · cases h
              simp
        · split at h
          · cases h
          · cases h
            simp
  · cases hint : parseInt _ with
    | error found =>
      rw [hint] at h
      cases h
      exact parseInt_fueled hint
    | ok result =>
      rw [hint] at h
      cases h

theorem parseSnippet_fueled (fuel : Nat) : ∀ {nested : Bool} {source : Str} {output : Output} {error : ParseError},
    source.length < fuel → parseSnippet fuel nested source output = .error error → error ≠ .outOfFuel := by
  induction fuel with
  | zero =>
    intro nested source output error hfuel
    cases hfuel
  | succ fuel ih =>
    intro nested source output error hfuel h
    cases source with
    | nil => cases h
    | cons c source =>
      have hfuel := Nat.lt_of_succ_lt_succ hfuel
      rw [parseSnippet.eq_def] at h
      dsimp only at h
      split at h
      · cases hstop : parseTabstop _ _ _ with
        | error found =>
          rw [hstop] at h
          cases h
          exact parseTabstop_fueled (fun hlt => ih (hlt.trans hfuel)) hstop
        | ok result =>
          rw [hstop] at h
          obtain ⟨-, -, -, -, hle, -⟩ := prints_of_parseTabstop (prints_of_parseSnippet fuel) hstop
          exact ih (hle.trans_lt hfuel) h
      · rename_i hdol
        split at h
        · cases source with
          | nil => exact ih hfuel h
          | cons d source =>
            dsimp only at h
            split at h
            · exact ih hfuel h
            · exact ih (Nat.lt_of_succ_lt hfuel) h
        · rename_i hbac
          split at h
          · split at h
            · cases h
            · exact ih hfuel h
          · rename_i hbra
            refine ih ?_ h
            have hc : isPlain c = true := by simp [isPlain, hdol, hbac, hbra]
            rw [dropWhile_cons_of_pos hc]
            exact (dropWhile_sublist _).length_le.trans_lt hfuel

/-! ## Parsing and printing -/

/-- The parser accepts exactly the prints of trees, and returns what they mean. -/
theorem parse_iff_prints (source : Str) :
    (∀ tree, Prints false tree source [] → ∃ snippet, parse source = .ok snippet ∧ Means tree snippet) ∧
      (∀ snippet, parse source = .ok snippet → ∃ tree, Prints false tree source [] ∧ Means tree snippet) ∧
      ∀ error, parse source = .error error → error ≠ .outOfFuel := by
  refine ⟨fun tree hprints => ?_, fun snippet h => ?_, fun error h => ?_⟩
  · refine ⟨_, ?_, means_add tree⟩
    rw [parse, parseSnippet_of_prints hprints _ (Nat.lt_succ_self _)]
    rfl
  · rw [parse] at h
    cases hparse : parseSnippet (source.length + 1) false source ⟨[], []⟩ with
    | error error =>
      rw [hparse] at h
      cases h
    | ok result =>
      obtain ⟨rest, output⟩ := result
      rw [hparse] at h
      cases h
      obtain ⟨tree, hprints, rfl⟩ := prints_of_parseSnippet _ hparse
      obtain rfl := hprints.rest_eq_nil rfl
      exact ⟨tree, hprints, means_add tree⟩
  · rw [parse] at h
    cases hparse : parseSnippet (source.length + 1) false source ⟨[], []⟩ with
    | error found =>
      rw [hparse] at h
      cases h
      exact parseSnippet_fueled _ (Nat.lt_succ_self _) hparse
    | ok result =>
      rw [hparse] at h
      cases h

/-- Choices may have content behind them, so that the source prints no tree whose choices have none. -/
theorem filled_choices_accepted :
    (∃ snippet, parse ['$', '{', '1', '|', 'a', '|', ':', 'b', '}'] = .ok snippet) ∧
      ¬∃ tree, tree.Proper ∧ Prints false tree ['$', '{', '1', '|', 'a', '|', ':', 'b', '}'] [] := by
  refine ⟨⟨_, rfl⟩, ?_⟩
  rintro ⟨tree, hproper, hprints⟩
  have hoption : ∀ {number : Nat} {digits inner rest : Str} {choices : Option (List Str)}, IsNumber number digits →
      digits ++ inner = ['1', '|', 'a', '|', ':', 'b', '}'] → PrintsOption choices inner rest → rest.head? ≠ some '|' →
        choices ≠ none ∧ rest = [':', 'b', '}'] := by
    intro number digits inner rest choices hnumber heq hprints hrest
    obtain ⟨first, digits, rfl⟩ := exists_cons_of_ne_nil hnumber.nonempty
    cases digits with
    | cons second digits =>
      have hsecond := hnumber.all second (by simp)
      rw [(List.cons.inj (List.cons.inj heq).2).1] at hsecond
      cases hsecond
    | nil =>
      cases heq
      cases hprints with
      | without => exact absurd rfl hrest
      | given hchoices =>
        refine ⟨nofun, ?_⟩
        cases hchoices with
        | plain _ hchoices =>
          cases hchoices with
          | last => rfl
          | plain hplain _ => cases hplain
  generalize hsource : ['$', '{', '1', '|', 'a', '|', ':', 'b', '}'] = source at hprints
  cases hprints with
  | done => cases hsource
  | plain hplain _ =>
    cases hsource
    cases hplain
  | escaped => cases hsource
  | backslash => cases hsource
  | brace => cases hsource
  | bare hnumber _ _ =>
    obtain ⟨first, digits, rfl⟩ := exists_cons_of_ne_nil hnumber.nonempty
    have hfirst := hnumber.all first mem_cons_self
    rw [← (List.cons.inj (List.cons.inj hsource).2).1] at hfirst
    cases hfirst
  | braced hnumber hprints _ =>
    have hinner := (List.cons.inj (List.cons.inj hsource).2).2
    obtain ⟨-, hrest⟩ := hoption hnumber hinner.symm hprints (by simp)
    cases hrest
  | filled hnumber hprints hcontent _ =>
    have hinner := (List.cons.inj (List.cons.inj hsource).2).2
    obtain ⟨hchoices, hrest⟩ := hoption hnumber hinner.symm hprints (by simp)
    cases hrest
    obtain rfl := hproper.1.resolve_left hchoices
    cases hcontent

end Wu.Snippet
