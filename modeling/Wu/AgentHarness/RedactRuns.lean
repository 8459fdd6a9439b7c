import Wu.AgentHarness.RedactSecrets

/-!
# What a redacted text depends on

Two texts that differ in a credential only are redacted to the same text. A scan of the text comes to a marker, or the marker is
part of an earlier marker's credential. In the first case the credential is what follows the marker, and in the second it is
redacted when nothing in front of it ends the earlier credential.
-/

namespace Wu.Redact

open List

/-- A marker in a text, what is skipped behind it, and the credential up to where it ends. -/
structure Occurrence (marker gap run behind : Str) : Prop where
  marker : toAsciiLowercase marker ∈ markers
  gap : ∀ c ∈ gap, isSkipped c = true
  nonempty : run ≠ []
  clean : ∀ c ∈ run, isDelimiter c = false
  ends : ∀ c ∈ behind.head?, isDelimiter c = true

/-- A text without markers. -/
def NoMarker (s : Str) : Prop := ∀ marker ∈ markers, ¬marker <:+: toAsciiLowercase s

/-- What a scan of a text comes to: everything but what is inside a credential. -/
inductive Scanned : Str → Str → Prop
  | here (s : Str) : Scanned s s
  | plain {c : Char} {s t : Str} (h : markerAt (c :: s) = none) (hrest : Scanned s t) : Scanned (c :: s) t
  | credential {s t marker : Str} (h : markerAt s = some marker) (hrest : Scanned (after marker s) t) : Scanned s t

variable {s t marker k : Str} {c : Char}

theorem Scanned.length_le (h : Scanned s t) : t.length ≤ s.length := by
  induction h with
  | here => exact le_rfl
  | plain _ _ ih => exact ih.trans (Nat.le_succ _)
  | credential hmark _ ih => exact ih.trans (length_after hmark).le

theorem Scanned.of_none (h : Scanned (c :: s) t) (hmark : markerAt (c :: s) = none)
    (hlt : t.length < (c :: s).length) : Scanned s t := by
  cases h with
  | here => exact absurd hlt (Nat.lt_irrefl _)
  | plain _ hrest => exact hrest
  | credential hsome _ =>
    rw [hmark] at hsome
    cases hsome

theorem Scanned.of_some (h : Scanned s t) (hmark : markerAt s = some marker) (hlt : t.length < s.length) :
    Scanned (after marker s) t := by
  cases h with
  | here => exact absurd hlt (Nat.lt_irrefl _)
  | plain hnone _ =>
    rw [hmark] at hnone
    cases hnone
  | credential hsome hrest =>
    obtain rfl := Option.some.inj (hmark.symm.trans hsome)
    exact hrest

/-! ## Markers that overlap -/

/-- No marker contains another one behind its first character, or starts with another one. -/
theorem markers_apart : ∀ k ∈ markers, ∀ k' ∈ markers,
    (∀ i ∈ List.range k.length, i ≠ 0 → ¬k' <+: k.drop i) ∧ (k' <+: k → k' = k) := by decide

/-- No marker starts with an end of one that a credential follows. -/
theorem followed_apart : ∀ k ∈ markers, isFollowed k = true → ∀ k' ∈ markers,
    ∀ i ∈ List.range k.length, i ≠ 0 → ¬k.drop i <+: k' := by decide

variable {m z z' s : Str}

/-- A marker that starts in front of another one ends no later than that one. -/
theorem length_le_of_prefix (hk : k ∈ markers) (hm : toAsciiLowercase m ∈ markers) (hs : s ≠ [])
    (h : k <+: toAsciiLowercase (s ++ m ++ z)) : k.length ≤ (s ++ m).length := by
  by_contra hlt
  have hpre : toAsciiLowercase (s ++ m) <+: k := by
    refine prefix_of_prefix_length_le ?_ h (by rw [toAsciiLowercase, length_map]; omega)
    rw [toAsciiLowercase_append (s ++ m)]
    exact prefix_append _ _
  obtain ⟨tail, rfl⟩ := hpre
  rw [toAsciiLowercase_append] at hk hlt
  refine (markers_apart _ hk _ hm).1 s.length (mem_range.mpr ?_) (by simpa using hs) ?_
  · simp only [length_append, toAsciiLowercase, length_map] at hlt ⊢
    omega
  · have hdrop : (toAsciiLowercase s ++ toAsciiLowercase m ++ tail).drop s.length = toAsciiLowercase m ++ tail := by
      rw [append_assoc]
      exact drop_left' (by rw [toAsciiLowercase, length_map])
    rw [hdrop]
    exact prefix_append _ _

/-- Whether a marker starts in front of another one does not depend on what is behind that one. -/
theorem markerAt_append (hm : toAsciiLowercase m ∈ markers) (hs : s ≠ []) (z z' : Str) :
    markerAt (s ++ m ++ z) = markerAt (s ++ m ++ z') := by
  have hsame (k : Str) (hk : k ∈ markers) (z z' : Str) (h : k <+: toAsciiLowercase (s ++ m ++ z)) :
      k <+: toAsciiLowercase (s ++ m ++ z') := by
    have hle := length_le_of_prefix hk hm hs h
    have hfro : k <+: toAsciiLowercase (s ++ m) := by
      refine prefix_of_prefix_length_le h ?_ (by rw [toAsciiLowercase, length_map]; exact hle)
      rw [toAsciiLowercase_append (s ++ m)]
      exact prefix_append _ _
    rw [toAsciiLowercase_append]
    exact hfro.trans (prefix_append _ _)
  have hcan (candidates : List Str) (hsub : candidates ⊆ markers) :
      candidates.find? (fun k => k.isPrefixOf (toAsciiLowercase (s ++ m ++ z))) =
        candidates.find? fun k => k.isPrefixOf (toAsciiLowercase (s ++ m ++ z')) := by
    induction candidates with
    | nil => rfl
    | cons k candidates ih =>
      obtain ⟨hk, hsub⟩ := cons_subset.mp hsub
      have heq : k.isPrefixOf (toAsciiLowercase (s ++ m ++ z)) = k.isPrefixOf (toAsciiLowercase (s ++ m ++ z')) := by
        rw [Bool.eq_iff_iff, isPrefixOf_iff_prefix, isPrefixOf_iff_prefix]
        exact ⟨hsame k hk z z', hsame k hk z' z⟩
      rw [List.find?_cons, List.find?_cons, heq, ih hsub]
  exact hcan _ (List.Subset.refl _)

/-- The marker that a marker starts with is itself. -/
theorem markerAt_marker (hm : toAsciiLowercase m ∈ markers) (z : Str) : markerAt (m ++ z) = some (toAsciiLowercase m) := by
  have hpre : toAsciiLowercase m <+: toAsciiLowercase (m ++ z) := by
    rw [toAsciiLowercase_append]
    exact prefix_append _ _
  cases h : markerAt _ with
  | none => exact absurd hpre (markerAt_eq_none h hm)
  | some k =>
    obtain ⟨hk, front, rest, heq, rfl⟩ := markerAt_eq_some h
    have hpre' : toAsciiLowercase front <+: toAsciiLowercase (m ++ z) := by
      rw [heq, toAsciiLowercase_append]
      exact prefix_append _ _
    rcases prefix_or_prefix_of_prefix hpre' hpre with hle | hle
    · rw [(markers_apart _ hm _ hk).2 hle]
    · rw [(markers_apart _ hk _ hm).2 hle]

/-- A marker does not start with a delimiter. -/
theorem exists_cons_marker (hm : toAsciiLowercase m ∈ markers) : ∃ c rest, m = c :: rest ∧ isDelimiter c = false := by
  cases m with
  | nil => exact absurd hm (by decide)
  | cons c m =>
    refine ⟨c, m, rfl, ?_⟩
    rw [← isDelimiter_toAsciiLower]
    exact (markers_clean _ hm).1 _ rfl

/-! ## A match in front of a marker -/

section Append

variable {α : Type} {p : α → Bool} {l r : List α}

/-- What is dropped stops in front of an item that is not. -/
theorem dropWhile_append_of_head (h : ∀ a ∈ r.head?, p a = false) : (l ++ r).dropWhile p = l.dropWhile p ++ r := by
  induction l with
  | nil =>
    cases r with
    | nil => rfl
    | cons a r => exact dropWhile_cons_of_neg (by simp [h a rfl])
  | cons a l ih =>
    by_cases ha : p a = true
    · rw [cons_append, dropWhile_cons_of_pos ha, dropWhile_cons_of_pos ha, ih]
    · rw [cons_append, dropWhile_cons_of_neg ha, dropWhile_cons_of_neg ha, cons_append]

theorem takeWhile_append_of_head (h : ∀ a ∈ r.head?, p a = false) : (l ++ r).takeWhile p = l.takeWhile p := by
  induction l with
  | nil =>
    cases r with
    | nil => rfl
    | cons a r => exact takeWhile_cons_of_neg (by simp [h a rfl])
  | cons a l ih =>
    by_cases ha : p a = true
    · rw [cons_append, takeWhile_cons_of_pos ha, takeWhile_cons_of_pos ha, ih]
    · rw [cons_append, takeWhile_cons_of_neg ha, takeWhile_cons_of_neg ha]

end Append

section

variable (hm : toAsciiLowercase m ∈ markers)
include hm

/-- A credential that a marker follows is in front of it. -/
theorem skipped_le (hs : s ≠ []) (h : markerAt (s ++ m ++ z) = some k) : skipped k ≤ s.length := by
  unfold skipped
  split
  · rename_i hfolld
    obtain ⟨hk, -⟩ := markerAt_eq_some h
    have hpre : k <+: toAsciiLowercase (s ++ m ++ z) := by
      obtain ⟨-, front, rest, heq, rfl⟩ := markerAt_eq_some h
      rw [heq, toAsciiLowercase_append]
      exact prefix_append _ _
    have hle := length_le_of_prefix hk hm hs hpre
    by_contra hlt
    -- otherwise the marker's end is the start of the other one
    have hfro : k <+: toAsciiLowercase (s ++ m) := by
      refine prefix_of_prefix_length_le hpre ?_ (by rw [toAsciiLowercase, length_map]; exact hle)
      rw [toAsciiLowercase_append (s ++ m)]
      exact prefix_append _ _
    have hdrop : (toAsciiLowercase (s ++ m)).drop s.length = toAsciiLowercase m := by
      rw [toAsciiLowercase_append]
      exact drop_left' (by rw [toAsciiLowercase, length_map])
    refine followed_apart k hk hfolld _ hm s.length (mem_range.mpr (by omega)) (by simpa using hs) ?_
    obtain ⟨tail, htail⟩ := hfro
    rw [← hdrop, ← htail, drop_append_of_le_length (by omega)]
    exact prefix_append _ _
  · exact Nat.zero_le _

/-- A match in front of a marker: its credential ends in front of that marker, or what does not end it is part of it. -/
theorem after_append (hs : s ≠ []) (h : markerAt (s ++ m ++ z) = some k) : ∃ out, (∀ z, kept k (s ++ m ++ z) = out) ∧
      ((∃ rest, rest.length < s.length ∧ ∀ z, after k (s ++ m ++ z) = rest ++ m ++ z) ∨
        ∀ z, after k (s ++ m ++ z) = (m ++ z).dropWhile fun c => !isDelimiter c) := by
  have hle := skipped_le hm hs h
  have hskip (z : Str) : ∀ a ∈ (m ++ z).head?, isSkipped a = false := by
    obtain ⟨c, -, rfl, hcle⟩ := exists_cons_marker hm
    intro a ha
    obtain rfl : c = a := Option.some.inj ha
    refine eq_false_of_ne_true fun hskip => ?_
    rw [isDelimiter_of_isSkipped hskip] at hcle
    cases hcle
  have hcre (z : Str) : credential k (s ++ m ++ z) = (s.drop (skipped k)).dropWhile isSkipped ++ (m ++ z) := by
    rw [credential, append_assoc, drop_append_of_le_length hle, dropWhile_append_of_head (hskip z)]
  refine ⟨s.take (skipped k) ++ (s.drop (skipped k)).takeWhile isSkipped, fun z => ?_, ?_⟩
  · rw [kept, append_assoc, take_append_of_le_length hle, drop_append_of_le_length hle, takeWhile_append_of_head (hskip z)]
  by_cases hemp : ((s.drop (skipped k)).dropWhile isSkipped).dropWhile (fun c => !isDelimiter c) = []
  · refine .inr fun z => ?_
    rw [after, hcre, dropWhile_append, if_pos (by rw [hemp]; rfl)]
  · have haft (z : Str) : after k (s ++ m ++ z) =
        ((s.drop (skipped k)).dropWhile isSkipped).dropWhile (fun c => !isDelimiter c) ++ m ++ z := by
      rw [after, hcre, dropWhile_append, if_neg (by simpa using hemp), append_assoc]
    refine .inl ⟨_, ?_, haft⟩
    have hlt := length_after h
    rw [haft] at hlt
    simp only [length_append] at hlt
    omega

/-- Not all of what starts with a marker is a credential's rest. -/
theorem length_dropWhile_marker (z : Str) : ((m ++ z).dropWhile fun c => !isDelimiter c).length < (m ++ z).length := by
  obtain ⟨c, -, rfl, hcle⟩ := exists_cons_marker hm
  rw [cons_append, dropWhile_cons_of_pos (by simp [hcle])]
  exact Nat.lt_succ_of_le (dropWhile_sublist _).length_le

/-- What a marker is in front of and what is behind it is redacted one by one, if the scan comes to the marker or the marker's
credential goes with an earlier one. -/
theorem redacted_congr (hbase : redacted (m ++ z) = redacted (m ++ z')) (s : Str)
    (h : ((m ++ z).dropWhile fun c => !isDelimiter c) = ((m ++ z').dropWhile fun c => !isDelimiter c) ∨
      Scanned (s ++ m ++ z) (m ++ z)) : redacted (s ++ m ++ z) = redacted (s ++ m ++ z') := by
  induction hlen : s.length using Nat.strongRecOn generalizing s with
  | ind n ih =>
    cases s with
    | nil => exact hbase
    | cons c s =>
      have hne : c :: s ≠ [] := cons_ne_nil _ _
      have hlt : (m ++ z).length < (c :: s ++ m ++ z).length := by
        simp only [cons_append, length_cons, length_append]
        omega
      cases hmark : markerAt _ with
      | none =>
        have hmark' : markerAt (c :: s ++ m ++ z') = none := by rw [← markerAt_append hm hne, hmark]
        have hrest := ih _ (hlen ▸ Nat.lt_succ_self _) s (h.imp_right fun h => h.of_none hmark hlt) rfl
        exact (redacted_of_none hmark).trans ((congrArg _ hrest).trans (redacted_of_none hmark').symm)
      | some k =>
        have hmark' : markerAt (c :: s ++ m ++ z') = some k := by rw [← markerAt_append hm hne, hmark]
        obtain ⟨out, hkept, haft⟩ := after_append hm hne hmark
        rw [redacted_of_some hmark, redacted_of_some hmark', hkept, hkept]
        congr 1
        rcases haft with ⟨rest, hsho, haft⟩ | haft
        · rw [haft, haft]
          exact ih _ (hlen ▸ hsho) rest (h.imp_right fun h => haft z ▸ h.of_some hmark hlt) rfl
        · rw [haft, haft]
          rcases h with hsame | h
          · rw [hsame]
          · -- the scan does not come to the marker when its start is part of a credential
            have hle := (h.of_some hmark hlt).length_le
            rw [haft] at hle
            exact absurd (length_dropWhile_marker hm z) (Nat.not_lt.mpr hle)

end

/-! ## Credentials -/

section Occurrence

variable {marker gap run run' behind : Str}

theorem dropWhile_run (h : ∀ c ∈ run, isDelimiter c = false) (hends : ∀ c ∈ behind.head?, isDelimiter c = true) :
    (run ++ behind).dropWhile (fun c => !isDelimiter c) = behind := by
  rw [dropWhile_append_of_pos fun c hc => by simp [h c hc]]
  cases behind with
  | nil => rfl
  | cons c behind => exact dropWhile_cons_of_neg (by simp [hends c rfl])

/-- What is skipped in front of a credential ends where the credential starts. -/
theorem Occurrence.not_isSkipped (h : Occurrence marker gap run behind) : ∀ c ∈ (run ++ behind).head?, isSkipped c = false := by
  obtain ⟨d, run, rfl⟩ := exists_cons_of_ne_nil h.nonempty
  intro c hc
  obtain rfl : d = c := Option.some.inj hc
  refine eq_false_of_ne_true fun hskip => ?_
  have hcle := h.clean d mem_cons_self
  rw [isDelimiter_of_isSkipped hskip] at hcle
  cases hcle

/-- A credential behind a marker. -/
theorem Occurrence.redacted_of_followed (h : Occurrence marker gap run behind)
    (hfolld : isFollowed (toAsciiLowercase marker) = true) :
    redacted (marker ++ (gap ++ run ++ behind)) = marker ++ gap ++ notice ++ redacted behind := by
  have hski : skipped (toAsciiLowercase marker) = marker.length := by
    rw [skipped, if_pos hfolld, toAsciiLowercase, length_map]
  have hkept : kept (toAsciiLowercase marker) (marker ++ (gap ++ run ++ behind)) = marker ++ gap := by
    rw [kept, hski, take_left, drop_left, append_assoc, takeWhile_append_of_head h.not_isSkipped, takeWhile_eq_self_iff.mpr h.gap]
  have hcre : credential (toAsciiLowercase marker) (marker ++ (gap ++ run ++ behind)) = run ++ behind := by
    rw [credential, hski, drop_left, append_assoc, dropWhile_append_of_head h.not_isSkipped,
      dropWhile_eq_nil_iff.mpr h.gap, nil_append]
  rw [redacted_of_some (markerAt_marker h.marker _), hkept, after, hcre, dropWhile_run h.clean h.ends]

/-- A credential that starts with the marker. -/
theorem Occurrence.redacted_of_not_followed (h : Occurrence marker [] run behind)
    (hfolld : isFollowed (toAsciiLowercase marker) = false) (hcle : ∀ c ∈ marker, isDelimiter c = false) :
    redacted (marker ++ (run ++ behind)) = notice ++ redacted behind := by
  have hmark := markerAt_marker h.marker (run ++ behind)
  obtain ⟨hkept, hcre, -⟩ := credential_of_not_followed hmark hfolld
  have hall : ∀ c ∈ marker ++ run, isDelimiter c = false := by
    intro c hc
    exact (mem_append.mp hc).elim (hcle c) (h.clean c)
  rw [redacted_of_some hmark, hkept, after, hcre, ← append_assoc, dropWhile_run hall h.ends, nil_append]

/-- The credential is what the marker and what is skipped behind it are followed by. -/
theorem Occurrence.redacted_eq (h : Occurrence marker gap run behind) (h' : Occurrence marker gap run' behind)
    (hrun : gap = [] ∧ (∀ c ∈ marker, isDelimiter c = false) ∨ isFollowed (toAsciiLowercase marker) = true) :
    redacted (marker ++ (gap ++ run ++ behind)) = redacted (marker ++ (gap ++ run' ++ behind)) := by
  by_cases hfolld : isFollowed (toAsciiLowercase marker) = true
  · rw [h.redacted_of_followed hfolld, h'.redacted_of_followed hfolld]
  · obtain ⟨rfl, hcle⟩ := hrun.resolve_right hfolld
    have hfolld' := eq_false_of_ne_true hfolld
    rw [nil_append, nil_append, h.redacted_of_not_followed hfolld' hcle, h'.redacted_of_not_followed hfolld' hcle]

end Occurrence

/-- A text without markers has no marker at its front, and none behind that. -/
theorem NoMarker.cons (h : NoMarker (c :: s)) : markerAt (c :: s) = none ∧ NoMarker s := by
  refine ⟨?_, fun marker hmem hwit => h _ hmem (hwit.trans (suffix_cons _ _).isInfix)⟩
  cases hmark : markerAt _ with
  | none => rfl
  | some marker =>
    obtain ⟨hmem, front, rest, heq, rfl⟩ := markerAt_eq_some hmark
    refine absurd ?_ (h _ hmem)
    rw [heq, toAsciiLowercase_append]
    exact (prefix_append _ _).isInfix

theorem redacted_of_noMarker (h : NoMarker s) : redacted s = s := by
  induction s with
  | nil => exact redacted_nil
  | cons c s ih => rw [redacted_of_none h.cons.1, ih h.cons.2]

/-- The text does not depend on a credential that a marker is part of, or that follows a marker which the scan comes to. A text
without markers stays as it is, and the scan ends without slicing inside a character. -/
theorem redactSecrets_hides_credentials :
    (∀ {marker gap run run' behind : Str} (front : Str), Occurrence marker gap run behind → Occurrence marker gap run' behind →
      (gap = [] ∧ (∀ c ∈ marker, isDelimiter c = false) ∨ isFollowed (toAsciiLowercase marker) = true ∧
        Scanned (front ++ marker ++ (gap ++ run ++ behind)) (marker ++ (gap ++ run ++ behind))) →
      redactSecrets (front ++ marker ++ (gap ++ run ++ behind)) = redactSecrets (front ++ marker ++ (gap ++ run' ++ behind))) ∧
    (∀ text, NoMarker text → redactSecrets text = some text) ∧ ∀ text, (redactSecrets text).isSome = true := by
  refine ⟨fun {marker gap run run' behind} front h h' hrun => ?_, fun text h => ?_, fun text => ?_⟩
  · rw [redactSecrets_eq, redactSecrets_eq]
    refine congrArg some (redacted_congr h.marker (h.redacted_eq h' (hrun.imp_right And.left)) front (hrun.imp ?_ And.right))
    rintro ⟨rfl, hclean⟩
    have hdrop (run : Str) (h : Occurrence marker [] run behind) :
        (marker ++ ([] ++ run ++ behind)).dropWhile (fun c => !isDelimiter c) = behind := by
      rw [nil_append, ← append_assoc]
      exact dropWhile_run (fun c hc => (mem_append.mp hc).elim (hclean c) (h.clean c)) h.ends
    rw [hdrop run h, hdrop run' h']
  · rw [redactSecrets_eq, redacted_of_noMarker h]
  · rw [redactSecrets_eq]
    rfl

theorem Occurrence.of_eq {gap run behind : Str} (hmark : markers.contains (toAsciiLowercase marker) = true)
    (hgap : gap.all isSkipped = true) (hrun : run.isEmpty = false) (hcle : run.any isDelimiter = false)
    (hends : behind.head?.all isDelimiter = true) : Occurrence marker gap run behind where
  marker := contains_iff_mem.mp hmark
  gap := all_eq_true.mp hgap
  nonempty := by
    rintro rfl
    cases hrun
  clean c hc := Bool.eq_false_iff.mpr (any_eq_false.mp hcle c hc)
  ends c hc := by rwa [hc] at hends

theorem redactSecrets_hides_credentials_bearer :
    redactSecrets ("a ".toList ++ "Bearer ".toList ++ ("'".toList ++ "abc".toList ++ "'".toList)) =
      redactSecrets ("a ".toList ++ "Bearer ".toList ++ ("'".toList ++ "xyz".toList ++ "'".toList)) ∧
    redactSecrets "bear".toList = some "bear".toList :=
  ⟨redactSecrets_hides_credentials.1 "a ".toList (.of_eq (by decide) (by decide) (by decide) (by decide) (by decide))
      (.of_eq (by decide) (by decide) (by decide) (by decide) (by decide)) (.inr ⟨by decide, .plain (by decide) (.plain (by decide) (.here _))⟩),
    redactSecrets_hides_credentials.2.1 "bear".toList fun marker h => by revert marker; decide⟩

/-- White space ends the credential that starts with a marker, and the credential of a marker in front of another one. -/
theorem redactSecrets_shows_credentials :
    (Occurrence "sk-".toList " ".toList "a".toList [] ∧ Occurrence "sk-".toList " ".toList "b".toList [] ∧
      redactSecrets "sk- a".toList ≠ redactSecrets "sk- b".toList) ∧
    (Occurrence "bearer ".toList [] "a".toList [] ∧ Occurrence "bearer ".toList [] "b".toList [] ∧
      redactSecrets "api_key=bearer a".toList ≠ redactSecrets "api_key=bearer b".toList) ∧
    NoMarker "a".toList ∧ NoMarker "b".toList := by
  have hshown (text marker : Str) (c : Char) (h : markerAt text = some marker) (hafter : after marker text = [' ', c])
      (hspace : markerAt [' ', c] = none) (hnone : markerAt [c] = none) :
      redactSecrets text = some (kept marker text ++ notice ++ [' ', c]) := by
    rw [redactSecrets_eq, redacted_of_some h, hafter, redacted_of_none hspace, redacted_of_none hnone, redacted_nil]
  refine ⟨⟨.of_eq (by decide) (by decide) (by decide) (by decide) (by decide),
      .of_eq (by decide) (by decide) (by decide) (by decide) (by decide), ?_⟩,
    ⟨.of_eq (by decide) (by decide) (by decide) (by decide) (by decide),
      .of_eq (by decide) (by decide) (by decide) (by decide) (by decide), ?_⟩,
    fun marker h => ?_, fun marker h => ?_⟩
  · rw [hshown "sk- a".toList "sk-".toList 'a' (by decide) (by decide) (by decide) (by decide),
      hshown "sk- b".toList "sk-".toList 'b' (by decide) (by decide) (by decide) (by decide)]
    decide
  · rw [hshown "api_key=bearer a".toList "api_key=".toList 'a' (by decide) (by decide) (by decide) (by decide),
      hshown "api_key=bearer b".toList "api_key=".toList 'b' (by decide) (by decide) (by decide) (by decide)]
    decide
  · revert marker
    decide
  · revert marker
    decide

end Wu.Redact
