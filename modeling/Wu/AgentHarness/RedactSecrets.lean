import Wu.Rope.Str
import Wu.Strings

/-!
# Redacting secrets

`redact_secrets` of `agent_harness.rs`: the credentials that follow known markers are taken out of crash diagnostics. The code
works with byte offsets into the text and into its copy in lower case. `redacted` is what it does to what is left of the text:
`redactSecrets_eq` says that no offset is inside a character and that the loop ends.
-/

namespace Wu.Redact

open List Option Str

open Strings (isWhitespace toAsciiLower)

/-! ## The code -/

/-- The markers, all in lower case. -/
def markers : List Str :=
  ["bearer ".toList, "basic ".toList, "sk-".toList, "ghp_".toList, "xox".toList, "api_key=".toList]

/-- `str::to_ascii_lowercase`. -/
def toAsciiLowercase (s : Str) : Str := s.map toAsciiLower

/-- `&s[start..]`. -/
def indexFrom (s : Str) (start : Nat) : Option Str := (s.splitAt start).map Prod.snd

/-- `str::find` for a pattern. -/
def find (pattern : Str) : Str → Option Nat
  | [] => if pattern.isEmpty then some 0 else none
  | c :: s => if pattern.isPrefixOf (c :: s) then some 0 else (find pattern s).map (c.utf8Size + ·)

/-- `str::find` for a kind of character. -/
def findChar (p : Char → Bool) : Str → Option Nat
  | [] => none
  | c :: s => if p c then some 0 else (findChar p s).map (c.utf8Size + ·)

/-- `Iterator::min_by_key`: the first one with the least key. -/
def minByKey {α : Type} (key : α → Nat) : List α → Option α
  | [] => none
  | a :: l =>
    match minByKey key l with
    | none => some a
    | some b => if key a ≤ key b then some a else some b

/-- What is skipped in front of a credential. -/
def isSkipped (c : Char) : Bool := isWhitespace c || c == '"' || c == '\''

/-- What a credential ends at. -/
def isDelimiter (c : Char) : Bool := isWhitespace c || ['"', '\'', ',', ';', '&', '<', '>'].contains c

/-- A marker that is followed by the credential; the others are its first characters. -/
def isFollowed (marker : Str) : Bool := marker.getLast? == some ' ' || marker.getLast? == some '='

/-- The first marker in the rest of the text, and where it starts. -/
def earliest (offset : Nat) (rest : Str) : Option (Nat × Str) :=
  minByKey Prod.fst (markers.filterMap fun marker => (find marker rest).map fun pos => (offset + pos, marker))

/-- What is written in place of a credential. -/
def notice : Str := "[REDACTED]".toList

/-- A turn of the loop: what it writes, and the next offset, unless the text has been written to its end. -/
def turn (lower text : Str) (offset : Nat) : Option (Str × Option Nat) := do
  let rest ← indexFrom lower offset
  match earliest offset rest with
  | none =>
    let tail ← indexFrom text offset
    return (tail, none)
  | some (start, marker) =>
    let credential := if isFollowed marker then start + marker.len else start
    let tail ← indexFrom text credential
    let credential := credential + tail.len - Str.len (tail.dropWhile isSkipped)
    let tail ← indexFrom text credential
    let stop := ((findChar isDelimiter tail).map (credential + ·)).getD text.len
    let piece ← text.index offset credential
    return (piece ++ notice, some (max stop (start + marker.len)))

theorem mem_of_minByKey {α : Type} {key : α → Nat} {l : List α} {a : α} (h : minByKey key l = some a) : a ∈ l := by
  induction l with
  | nil => cases h
  | cons b l ih =>
    unfold minByKey at h
    cases hl : minByKey key l with
    | none =>
      rw [hl] at h
      exact some.inj h ▸ mem_cons_self
    | some c =>
      rw [hl] at h
      dsimp only at h
      split at h
      · exact some.inj h ▸ mem_cons_self
      · exact .tail _ (ih (hl.trans h))

variable {offset : Nat} {marker s pattern : Str} {c : Char} {candidates : List Str}

theorem earliest_bounds {start : Nat} {rest : Str} (h : earliest offset rest = some (start, marker)) :
    offset ≤ start ∧ marker ∈ markers := by
  obtain ⟨other, hoth, hfnd⟩ := mem_filterMap.mp (mem_of_minByKey h)
  obtain ⟨pos, -, heq⟩ := map_eq_some_iff.mp hfnd
  obtain ⟨rfl, rfl⟩ := Prod.mk.inj heq
  exact ⟨Nat.le_add_right _ _, hoth⟩

theorem len_marker_pos (h : marker ∈ markers) : 0 < marker.len := by
  revert marker
  decide

theorem le_len_of_indexFrom {tail : Str} {start : Nat} (h : indexFrom s start = some tail) : start ≤ s.len := by
  obtain ⟨⟨left, right⟩, hspl, -⟩ := map_eq_some_iff.mp h
  obtain ⟨rfl, rfl⟩ := splitAt_eq_some hspl
  rw [len_append]
  exact Nat.le_add_right _ _

/-- Every turn moves on. -/
theorem turn_lt {lower text piece : Str} {next : Nat} (h : turn lower text offset = some (piece, some next)) :
    offset ≤ lower.len ∧ offset < next := by
  unfold turn at h
  cases hrest : indexFrom _ _ with
  | none =>
    rw [hrest] at h
    cases h
  | some rest =>
    rw [hrest] at h
    simp only [bind_eq_bind, bind_some] at h
    refine ⟨le_len_of_indexFrom hrest, ?_⟩
    split at h
    · obtain ⟨tail, -, h⟩ := bind_eq_some_iff.mp h
      cases h
    · rename_i start marker hear
      obtain ⟨hle, hmem⟩ := earliest_bounds hear
      have hpos := len_marker_pos hmem
      simp only [bind_eq_some_iff, Option.pure_def, Option.some.injEq, Prod.mk.injEq] at h
      omega

/-- The loop of `redact_secrets`. -/
def loop (lower text result : Str) (offset : Nat) : Option Str :=
  match _h : turn lower text offset with
  | none => none
  | some (piece, none) => some (result ++ piece)
  | some (piece, some next) => loop lower text (result ++ piece) next
  termination_by lower.len + 1 - offset
  decreasing_by
    have := turn_lt _h
    omega

/-- `redact_secrets`. -/
def redactSecrets (text : Str) : Option Str := loop (toAsciiLowercase text) text [] 0

/-! ## What it does to what is left of the text -/

/-- The marker that the rest of the text starts with. -/
def markerAt (s : Str) : Option Str := markers.find? fun marker => marker.isPrefixOf (toAsciiLowercase s)

/-- Where the credential may start, in characters. -/
def skipped (marker : Str) : Nat := if isFollowed marker then marker.length else 0

/-- What is kept in front of a credential. -/
def kept (marker s : Str) : Str := s.take (skipped marker) ++ (s.drop (skipped marker)).takeWhile isSkipped

/-- The credential, with the text behind it. -/
def credential (marker s : Str) : Str := (s.drop (skipped marker)).dropWhile isSkipped

/-- The text behind the credential. -/
def after (marker s : Str) : Str := (credential marker s).dropWhile fun c => !isDelimiter c

/-! ### Characters -/

theorem toNat_toAsciiLower (h : 'A' ≤ c ∧ c ≤ 'Z') : (toAsciiLower c).toNat = c.toNat + 32 ∧ 65 ≤ c.toNat ∧ c.toNat ≤ 90 := by
  have hlo : 65 ≤ c.toNat := h.1
  have hhi : c.toNat ≤ 90 := h.2
  refine ⟨?_, hlo, hhi⟩
  have hval : (c.toNat + 32).isValidChar := .inl (by omega)
  rw [toAsciiLower, if_pos h, Char.ofNat, dif_pos hval]
  rfl

theorem toAsciiLower_eq (h : ¬('A' ≤ c ∧ c ≤ 'Z')) : toAsciiLower c = c := if_neg h

/-- A letter of ASCII is encoded in one byte, whatever its case. -/
theorem utf8Size_toAsciiLower (c : Char) : (toAsciiLower c).utf8Size = c.utf8Size := by
  by_cases h : 'A' ≤ c ∧ c ≤ 'Z'
  · obtain ⟨hlow, -, hhi⟩ := toNat_toAsciiLower h
    have hsize (d : Char) (hd : d.toNat ≤ 127) : d.utf8Size = 1 := by
      exact if_pos hd
    rw [hsize _ (by omega), hsize _ (by omega)]
  · rw [toAsciiLower_eq h]

/-- The numbers of the delimiters that are not white space. -/
theorem isDelimiter_iff : isDelimiter c = true ↔ isWhitespace c = true ∨ c.toNat ∈ [34, 39, 44, 59, 38, 60, 62] := by
  have hnum (d : Char) : c = d ↔ c.toNat = d.toNat := ⟨fun h => by rw [h], fun h => Char.toNat_inj.mp h⟩
  simp only [isDelimiter, Bool.or_eq_true, contains_eq_mem, mem_cons, not_mem_nil, or_false, decide_eq_true_eq, hnum]
  rfl

theorem not_isDelimiter_of_letter (h : 65 ≤ c.toNat ∧ c.toNat ≤ 122) : isDelimiter c = false := by
  rw [← Bool.not_eq_true, isDelimiter_iff]
  simp only [isWhitespace, Bool.or_eq_true, Bool.and_eq_true, decide_eq_true_eq, beq_iff_eq, mem_cons, not_mem_nil, or_false]
  omega

theorem isDelimiter_toAsciiLower (c : Char) : isDelimiter (toAsciiLower c) = isDelimiter c := by
  by_cases h : 'A' ≤ c ∧ c ≤ 'Z'
  · obtain ⟨hlow, hlo, hhi⟩ := toNat_toAsciiLower h
    rw [not_isDelimiter_of_letter (by omega), not_isDelimiter_of_letter (by omega)]
  · rw [toAsciiLower_eq h]

theorem isDelimiter_of_isSkipped (h : isSkipped c = true) : isDelimiter c = true := by
  simp only [isSkipped, Bool.or_eq_true, beq_iff_eq] at h
  simp only [isDelimiter, Bool.or_eq_true]
  rcases h with (h | rfl) | rfl
  · exact .inl h
  · exact .inr rfl
  · exact .inr rfl

theorem len_toAsciiLowercase (s : Str) : Str.len (toAsciiLowercase s) = s.len := by
  induction s with
  | nil => rfl
  | cons c s ih =>
    rw [toAsciiLowercase, map_cons, len_cons, utf8Size_toAsciiLower]
    exact congrArg _ ih

theorem toAsciiLowercase_append (s t : Str) : toAsciiLowercase (s ++ t) = toAsciiLowercase s ++ toAsciiLowercase t :=
  map_append

/-! ### Markers -/

theorem markerAt_eq_some (h : markerAt s = some marker) :
    marker ∈ markers ∧ ∃ front rest, s = front ++ rest ∧ toAsciiLowercase front = marker := by
  refine ⟨List.mem_of_find?_eq_some h, ?_⟩
  have hfnd := List.find?_some h
  obtain ⟨tail, htail⟩ := isPrefixOf_iff_prefix.mp hfnd
  obtain ⟨front, rest, rfl, hfro, -⟩ := append_eq_map_iff.mp htail
  exact ⟨front, rest, rfl, hfro⟩

theorem markerAt_eq_none (h : markerAt s = none) (hmem : marker ∈ markers) : ¬ marker <+: toAsciiLowercase s := by
  intro hpre
  have := List.find?_eq_none.mp h _ hmem
  exact this (List.isPrefixOf_iff_prefix.mpr hpre)

/-- No marker starts with a delimiter, and those that are credentials themselves contain none. -/
theorem markers_clean : ∀ marker ∈ markers, (∀ c ∈ marker.head?, isDelimiter c = false) ∧
    (isFollowed marker = false → ∀ c ∈ marker, isDelimiter c = false) := by
  have hcle : markers.all (fun marker => !marker.head?.any isDelimiter && (isFollowed marker || !marker.any isDelimiter)) = true := by
    decide
  intro marker hmark
  have hboth := all_eq_true.mp hcle _ hmark
  simp only [Bool.and_eq_true, Bool.not_eq_true', Bool.or_eq_true] at hboth
  refine ⟨fun c hc => ?_, fun hfolld c hc => ?_⟩
  · have hhead := hboth.1
    rwa [hc] at hhead
  · rw [hfolld] at hboth
    exact Bool.eq_false_iff.mpr (any_eq_false.mp (hboth.2.resolve_left Bool.false_ne_true) c hc)

/-- The credential ends behind where the marker starts. -/
theorem length_after (h : markerAt s = some marker) : (after marker s).length < s.length := by
  obtain ⟨hmem, front, rest, rfl, hfro⟩ := markerAt_eq_some h
  have hlen : front.length = marker.length := by rw [← hfro, toAsciiLowercase, length_map]
  have hpos : 0 < marker.length := length_pos_iff.mpr (by rintro rfl; exact absurd hmem (by decide))
  have hle : (after marker (front ++ rest)).length ≤ (credential marker (front ++ rest)).length :=
    (dropWhile_sublist _).length_le
  have hle' : (credential marker (front ++ rest)).length ≤ ((front ++ rest).drop (skipped marker)).length :=
    (dropWhile_sublist _).length_le
  by_cases hfolld : isFollowed marker = true
  · rw [length_drop, skipped, if_pos hfolld, length_append] at hle'
    rw [length_append]
    omega
  · -- the marker's first character is part of the credential
    obtain ⟨c, front, rfl⟩ := exists_cons_of_ne_nil (ne_nil_of_length_pos (hlen ▸ hpos))
    have hcle : isDelimiter c = false := by
      rw [← isDelimiter_toAsciiLower]
      exact (markers_clean _ hmem).2 (by simpa using hfolld) _ (by rw [← hfro]; exact mem_cons_self)
    have hskip : isSkipped c = false := by
      rw [← Bool.not_eq_true]
      intro hskip
      rw [isDelimiter_of_isSkipped hskip] at hcle
      cases hcle
    have hcre : credential marker (c :: front ++ rest) = c :: front ++ rest := by
      rw [credential, skipped, if_neg hfolld, drop_zero, cons_append, dropWhile_cons_of_neg (by simp [hskip])]
    rw [after, hcre, cons_append, dropWhile_cons_of_pos (by simp [hcle])]
    exact Nat.lt_succ_of_le (dropWhile_sublist _).length_le

/-- The text without its credentials, from where a scan of it has come to. -/
def redacted : Str → Str
  | [] => []
  | c :: s =>
    match _h : markerAt (c :: s) with
    | none => c :: redacted s
    | some marker => kept marker (c :: s) ++ notice ++ redacted (after marker (c :: s))
  termination_by s => s.length
  decreasing_by
    · exact Nat.lt_succ_self _
    · exact length_after _h

@[simp] theorem redacted_nil : redacted [] = [] := by rw [redacted]

theorem redacted_of_none (h : markerAt (c :: s) = none) : redacted (c :: s) = c :: redacted s := by
  rw [redacted]
  split
  · rfl
  · rename_i marker heq
    rw [h] at heq
    cases heq

theorem redacted_of_some (h : markerAt s = some marker) : redacted s = kept marker s ++ notice ++ redacted (after marker s) := by
  cases s with
  | nil =>
    cases h
  | cons c s =>
    rw [redacted]
    split
    · rename_i heq
      rw [h] at heq
      cases heq
    · rename_i other heq
      obtain rfl := some.inj (h.symm.trans heq)
      rfl

/-! ## The offsets -/

theorem find_pos_of_not_prefix {pos : Nat} (h : find pattern s = some pos) (hne : pattern ≠ [])
    (hpre : ¬pattern.isPrefixOf s = true) : 0 < pos := by
  cases s with
  | nil =>
    rw [find, if_neg (by simpa using hne)] at h
    cases h
  | cons c s =>
    rw [find, if_neg hpre] at h
    obtain ⟨-, -, rfl⟩ := map_eq_some_iff.mp h
    have := c.utf8Size_pos
    omega

theorem find_of_prefix (h : pattern.isPrefixOf s = true) : find pattern s = some 0 := by
  cases s with
  | nil => rw [find, if_pos (by simpa using h)]
  | cons c s => rw [find, if_pos h]

theorem le_of_mem_minByKey {start : Nat} {rest : Str}
    (h : minByKey Prod.fst (candidates.filterMap fun marker => (find marker rest).map fun pos => (offset + pos, marker)) =
      some (start, marker)) : offset ≤ start := by
  obtain ⟨other, -, hfnd⟩ := mem_filterMap.mp (mem_of_minByKey h)
  obtain ⟨pos, -, heq⟩ := map_eq_some_iff.mp hfnd
  obtain ⟨rfl, -⟩ := Prod.mk.inj heq
  exact Nat.le_add_right _ _

/-- A marker at the front is the earliest one. -/
theorem minByKey_of_find? {rest : Str} (hne : ∀ other ∈ candidates, other ≠ [])
    (h : candidates.find? (fun marker => marker.isPrefixOf rest) = some marker) :
    minByKey Prod.fst (candidates.filterMap fun marker => (find marker rest).map fun pos => (offset + pos, marker)) =
      some (offset, marker) := by
  induction candidates with
  | nil => cases h
  | cons first candidates ih =>
    rw [forall_mem_cons] at hne
    by_cases hpre : first.isPrefixOf rest = true
    · rw [List.find?_cons, hpre] at h
      obtain rfl := some.inj h
      rw [filterMap_cons, find_of_prefix hpre]
      simp only [map_some, Nat.add_zero, minByKey]
      split
      · rfl
      · rename_i later hlat
        rw [if_pos (le_of_mem_minByKey hlat)]
    · have hpre' : first.isPrefixOf rest = false := eq_false_of_ne_true hpre
      rw [List.find?_cons, hpre'] at h
      rw [filterMap_cons]
      cases hfind : find _ rest with
      | none => exact ih hne.2 h
      | some pos =>
        have hpos := find_pos_of_not_prefix hfind hne.1 hpre
        simp only [map_some, minByKey, ih hne.2 h]
        rw [if_neg (by omega)]

theorem earliest_of_some (h : markerAt s = some marker) : earliest offset (toAsciiLowercase s) = some (offset, marker) :=
  minByKey_of_find? (by decide) h

/-- Where no marker starts, the earliest one is looked for behind the character. -/
theorem earliest_of_none (h : markerAt (c :: s) = none) :
    earliest offset (toAsciiLowercase (c :: s)) = earliest (offset + c.utf8Size) (toAsciiLowercase s) := by
  unfold earliest
  congr 1
  refine filterMap_congr fun marker hmem => ?_
  have hpre : ¬ marker.isPrefixOf (toAsciiLower c :: toAsciiLowercase s) = true := List.find?_eq_none.mp h _ hmem
  have hcons : toAsciiLowercase (c :: s) = toAsciiLower c :: toAsciiLowercase s := rfl
  rw [hcons, find, if_neg hpre, Option.map_map, utf8Size_toAsciiLower]
  simp only [Function.comp_def, Nat.add_assoc]

/-- The first marker in the rest of the text. -/
theorem earliest_spec (offset : Nat) (s : Str) : (earliest offset (toAsciiLowercase s) = none ∧ redacted s = s) ∨
      ∃ front marker rest, s = front ++ rest ∧ markerAt rest = some marker ∧
        earliest offset (toAsciiLowercase s) = some (offset + Str.len front, marker) ∧ redacted s = front ++ redacted rest := by
  induction s generalizing offset with
  | nil => exact .inl ⟨rfl, redacted_nil⟩
  | cons c s ih =>
    cases h : markerAt _ with
    | some marker => exact .inr ⟨[], marker, c :: s, rfl, h, earliest_of_some h, rfl⟩
    | none =>
      rw [earliest_of_none h, redacted_of_none h]
      rcases ih _ with ⟨hnone, hsame⟩ | ⟨front, marker, rest, rfl, hmark, hsome, hred⟩
      · exact .inl ⟨hnone, by rw [hsame]⟩
      · refine .inr ⟨c :: front, marker, rest, rfl, hmark, ?_, by rw [hred, cons_append]⟩
        rw [hsome, len_cons, Nat.add_assoc]

theorem indexFrom_append (a b : Str) : indexFrom (a ++ b) (Str.len a) = some b := by
  rw [indexFrom, splitAt_append, map_some]

theorem indexFrom_of_eq {a b : Str} (h : a ++ b = s) : indexFrom s (Str.len a) = some b := h ▸ indexFrom_append a b

/-- A search for a kind of character ends where the characters of other kinds end. -/
theorem findChar_eq (p : Char → Bool) (s : Str) :
    (findChar p s = none ∧ s.dropWhile (fun c => !p c) = []) ∨ findChar p s = some (Str.len (s.takeWhile fun c => !p c)) := by
  induction s with
  | nil => exact .inl ⟨rfl, rfl⟩
  | cons c s ih =>
    unfold findChar
    by_cases hc : p c = true
    · rw [if_pos hc, takeWhile_cons_of_neg (by simp [hc])]
      exact .inr rfl
    · rw [if_neg hc, takeWhile_cons_of_pos (by simp [hc]), dropWhile_cons_of_pos (by simp [hc])]
      rcases ih with ⟨hnone, hdrop⟩ | hsome
      · exact .inl ⟨by rw [hnone]; rfl, hdrop⟩
      · exact .inr (by rw [hsome]; rfl)

variable {s marker : Str}

/-- The credential itself. -/
def run (marker s : Str) : Str := (credential marker s).takeWhile fun c => !isDelimiter c

theorem kept_append_credential (marker s : Str) : kept marker s ++ credential marker s = s := by
  rw [kept, credential, append_assoc, takeWhile_append_dropWhile, take_append_drop]

/-- What is kept, the credential and what is behind it are all of the text. -/
theorem kept_append (marker s : Str) : kept marker s ++ (run marker s ++ after marker s) = s := by
  rw [run, after, takeWhile_append_dropWhile, kept_append_credential]

theorem len_take_marker (h : markerAt s = some marker) : Str.len (s.take marker.length) = marker.len := by
  obtain ⟨-, front, -, rfl, hfro⟩ := markerAt_eq_some h
  have hlen : marker.length = front.length := by rw [← hfro, toAsciiLowercase, length_map]
  rw [hlen, take_left, ← len_toAsciiLowercase, hfro]

/-- A marker that is part of the credential is at the front of it. -/
theorem credential_of_not_followed (h : markerAt s = some marker) (hfolld : isFollowed marker = false) :
    kept marker s = [] ∧ credential marker s = s ∧ s.take marker.length <+: run marker s := by
  obtain ⟨hmem, front, rest, rfl, hfro⟩ := markerAt_eq_some h
  have hcle : ∀ c ∈ front, isDelimiter c = false := by
    intro c hc
    rw [← isDelimiter_toAsciiLower]
    exact (markers_clean _ hmem).2 hfolld _ (hfro ▸ mem_map_of_mem hc)
  have hlen : marker.length = front.length := by rw [← hfro, toAsciiLowercase, length_map]
  have hnone : (front ++ rest).takeWhile isSkipped = [] ∧ (front ++ rest).dropWhile isSkipped = front ++ rest := by
    obtain ⟨c, front, rfl⟩ : ∃ c tail, front = c :: tail :=
      exists_cons_of_ne_nil (ne_nil_of_length_pos (hlen ▸ length_pos_iff.mpr (by rintro rfl; exact absurd hmem (by decide))))
    have hskip : ¬isSkipped c = true := by
      intro hskip
      have hdel := hcle c mem_cons_self
      rw [isDelimiter_of_isSkipped hskip] at hdel
      cases hdel
    exact ⟨takeWhile_cons_of_neg hskip, dropWhile_cons_of_neg hskip⟩
  have hcre : credential marker (front ++ rest) = front ++ rest := by
    rw [credential, skipped, if_neg (by simp [hfolld]), drop_zero, hnone.2]
  refine ⟨?_, hcre, ?_⟩
  · rw [kept, skipped, if_neg (by simp [hfolld]), drop_zero, hnone.1]
    rfl
  · rw [run, hcre, hlen, take_left, takeWhile_append_of_pos fun c hc => by simp [hcle c hc]]
    exact prefix_append _ _

/-- The credential does not end inside the marker. -/
theorem len_marker_le (h : markerAt s = some marker) : marker.len ≤ Str.len (kept marker s ++ run marker s) := by
  rw [← len_take_marker h]
  by_cases hfolld : isFollowed marker = true
  · rw [kept, skipped, if_pos hfolld]
    simp only [len_append]
    omega
  · obtain ⟨-, -, hpre⟩ := credential_of_not_followed h (by simpa using hfolld)
    obtain ⟨tail, htail⟩ := hpre
    rw [← htail]
    simp only [len_append]
    omega

/-- A turn of the loop at a character's start: it writes up to the next credential, or all of the text. -/
theorem turn_eq (a s : Str) : (turn (toAsciiLowercase (a ++ s)) (a ++ s) (Str.len a) = some (s, none) ∧ redacted s = s) ∨
      ∃ front marker rest, s = front ++ rest ∧ markerAt rest = some marker ∧ turn (toAsciiLowercase (a ++ s)) (a ++ s) (Str.len a) =
          some (front ++ kept marker rest ++ notice, some (Str.len (a ++ front ++ kept marker rest ++ run marker rest))) ∧
        redacted s = front ++ redacted rest := by
  have hrest : indexFrom (toAsciiLowercase (a ++ s)) (Str.len a) = some (toAsciiLowercase s) := by
    rw [toAsciiLowercase_append, ← len_toAsciiLowercase, indexFrom_append]
  rcases earliest_spec (Str.len a) s with ⟨hnone, hsame⟩ | ⟨front, marker, rest, rfl, hmark, hsome, hred⟩
  · refine .inl ⟨?_, hsame⟩
    simp only [turn, hrest, hnone, indexFrom_append, bind_eq_bind, bind_some, Option.pure_def]
  · refine .inr ⟨front, marker, rest, rfl, hmark, ?_, hred⟩
    -- where the credential may start
    have hst : (if isFollowed marker then Str.len a + Str.len front + marker.len else Str.len a + Str.len front) =
        Str.len (a ++ front ++ rest.take (skipped marker)) := by
      unfold skipped
      split
      · rw [len_append, len_append, len_take_marker hmark]
      · rw [take_zero, append_nil, len_append]
    have htail : indexFrom (a ++ (front ++ rest)) (Str.len (a ++ front ++ rest.take (skipped marker))) =
        some (rest.drop (skipped marker)) :=
      indexFrom_of_eq (by rw [append_assoc, take_append_drop, append_assoc])
    -- where it starts
    have hcre : Str.len (a ++ front ++ rest.take (skipped marker)) + Str.len (rest.drop (skipped marker)) -
        Str.len ((rest.drop (skipped marker)).dropWhile isSkipped) = Str.len (a ++ front ++ kept marker rest) := by
      have hspl := congrArg Str.len (takeWhile_append_dropWhile (p := isSkipped) (l := rest.drop (skipped marker)))
      rw [len_append] at hspl
      rw [kept]
      simp only [len_append]
      omega
    have htail' : indexFrom (a ++ (front ++ rest)) (Str.len (a ++ front ++ kept marker rest)) = some (credential marker rest) :=
      indexFrom_of_eq (by rw [append_assoc, kept_append_credential, append_assoc])
    have hpie : (a ++ (front ++ rest)).index (Str.len a) (Str.len (a ++ front ++ kept marker rest)) =
        some (front ++ kept marker rest) := by
      have := index_append a (front ++ kept marker rest) (credential marker rest)
      simp only [← append_assoc] at this ⊢
      rwa [append_assoc, kept_append_credential] at this
    -- where it ends
    have hstop : ((findChar isDelimiter (credential marker rest)).map (Str.len (a ++ front ++ kept marker rest) + ·)).getD
        (Str.len (a ++ (front ++ rest))) = Str.len (a ++ front ++ kept marker rest ++ run marker rest) := by
      rcases findChar_eq _ _ with ⟨hnone, hemp⟩ | hfnd
      · have hall := kept_append marker rest
        rw [after, hemp, append_nil] at hall
        rw [hnone, map_none, getD_none]
        simp only [append_assoc, hall]
      · rw [hfnd, map_some, ← len_append]
        rfl
    have hmax : max (Str.len (a ++ front ++ kept marker rest ++ run marker rest)) (Str.len a + Str.len front + marker.len) =
        Str.len (a ++ front ++ kept marker rest ++ run marker rest) := by
      have hle := len_marker_le hmark
      simp only [len_append] at hle ⊢
      omega
    simp only [turn, hrest, hsome, hst, htail, hcre, htail', hpie, hstop, hmax, bind_eq_bind, bind_some, Option.pure_def]

/-- The loop, from a character's start on. -/
theorem loop_eq (a s result : Str) : loop (toAsciiLowercase (a ++ s)) (a ++ s) result (Str.len a) = some (result ++ redacted s) := by
  induction hlen : s.length using Nat.strongRecOn generalizing a s result with
  | ind n ih =>
    rw [loop]
    rcases turn_eq a s with ⟨hturn, hsame⟩ | ⟨front, marker, rest, rfl, hmark, hturn, hred⟩
    · rw [hturn, hsame]
    · rw [hturn]
      have hlt : (after marker rest).length < n := by
        have := length_after hmark
        rw [← hlen, length_append]
        omega
      have hspl : a ++ (front ++ rest) = (a ++ front ++ kept marker rest ++ run marker rest) ++ after marker rest := by
        simp only [append_assoc, kept_append]
      dsimp only
      rw [hspl, ih _ hlt _ _ _ rfl, hred, redacted_of_some hmark]
      simp

/-- The code writes the text without its credentials, and never slices inside a character. -/
theorem redactSecrets_eq (text : Str) : redactSecrets text = some (redacted text) := loop_eq [] text []

end Wu.Redact
