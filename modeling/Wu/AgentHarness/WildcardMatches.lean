import Wu.AgentHarness.SessionRules

/-!
# How a permission's wildcard is matched

`wildcard_matches` of `opencode.rs`, with its indices into the wildcard and the text. Dropping what the indices have passed gives
the pass over lists that `Wildcard` is about.
-/

namespace Wu.OpenCode

open List

open Wildcard

/-- The variables of the loop; `backtrack` is the last star with the index up to which the text has been given to it. The indices
stay inside the wildcard and the text. -/
structure Matcher (pattern : List Char) where
  patternIndex : Nat
  textIndex : Nat
  backtrack : Option (Nat × Nat)
  inPattern : patternIndex ≤ pattern.length
  behind : ∀ b ∈ backtrack, b.1 < pattern.length ∧ b.2 ≤ textIndex

namespace Matcher

variable {pattern : List Char}

/-- How far back the loop may still go. -/
def reach (scan : Matcher pattern) (text : List Char) : Nat :=
  match scan.backtrack with
  | some b => text.length - b.2
  | none => text.length + 1

theorem le_reach (scan : Matcher pattern) (text : List Char) : text.length - scan.textIndex ≤ scan.reach text := by
  unfold reach
  split
  · rename_i b hb
    have := (scan.behind b hb).2
    omega
  · omega

theorem lt_length_of_getElem? {l : List Char} {i : Nat} {c : Char} (h : l[i]? = some c) : i < l.length :=
  (List.getElem?_eq_some_iff.mp h).1

/-- The loop and the test behind it. -/
def run (text : List Char) (scan : Matcher pattern) : Bool :=
  if htext : scan.textIndex < text.length then
    if hstar : pattern[scan.patternIndex]? = some '*' then
      run text ⟨scan.patternIndex + 1, scan.textIndex, some (scan.patternIndex, scan.textIndex), lt_length_of_getElem? hstar, by
        rintro b ⟨⟩
        exact ⟨lt_length_of_getElem? hstar, Nat.le_refl _⟩⟩
    else if hsame : pattern[scan.patternIndex]? = some '?' ∨ pattern[scan.patternIndex]? = some text[scan.textIndex] then
      run text ⟨scan.patternIndex + 1, scan.textIndex + 1, scan.backtrack,
        hsame.elim (fun h => lt_length_of_getElem? h) fun h => lt_length_of_getElem? h,
        fun b hb => ⟨(scan.behind b hb).1, (scan.behind b hb).2.trans (Nat.le_succ _)⟩⟩
    else
      match hback : scan.backtrack with
      | some b => run text ⟨b.1 + 1, b.2 + 1, some (b.1, b.2 + 1), (scan.behind b hback).1, by
          rintro b' ⟨⟩
          exact ⟨(scan.behind b hback).1, Nat.le_refl _⟩⟩
      | none => false
  else (pattern.drop scan.patternIndex).all (· == '*')
  termination_by (scan.reach text, text.length - scan.textIndex, pattern.length - scan.patternIndex)
  decreasing_by
    · -- the new star is not further back than the last one
      have hlt := lt_length_of_getElem? hstar
      have hle := scan.le_reach text
      rcases Nat.lt_or_eq_of_le hle with hfar | hsame
      · exact Prod.Lex.left _ _ hfar
      · rw [← hsame]
        exact Prod.Lex.right _ (Prod.Lex.right _ (by omega))
    · exact Prod.Lex.right _ (Prod.Lex.left _ _ (by omega))
    · have hle := (scan.behind b hback).2
      refine Prod.Lex.left _ _ ?_
      simp only [reach, hback]
      omega

/-- `wildcard_matches`. -/
def wildcardMatches (pattern text : String) : Bool :=
  run text.toList (⟨0, 0, none, Nat.zero_le _, by rintro b ⟨⟩⟩ : Matcher pattern.toList)

/-- What the indices have not passed. -/
def rest (text : List Char) (scan : Matcher pattern) : Scan where
  pattern := pattern.drop scan.patternIndex
  text := text.drop scan.textIndex
  backtrack := scan.backtrack.map fun b => (pattern.drop (b.1 + 1), text.drop b.2)
  behind := by
    intro b hb
    obtain ⟨b', hb', rfl⟩ := Option.map_eq_some_iff.mp hb
    have := (scan.behind b' hb').2
    simp only [length_drop]
    omega

theorem rest_text (scan : Matcher pattern) {text : List Char} (htext : scan.textIndex < text.length) :
    (scan.rest text).text = text[scan.textIndex] :: text.drop (scan.textIndex + 1) :=
  drop_eq_getElem_cons _

/-- The loop over indices is the pass over what they have not passed. -/
theorem run_eq (text : List Char) (scan : Matcher pattern) : scan.run text = (scan.rest text).run := by
  fun_induction run text scan with
  | case1 scan htext hstar ih =>
    have hhead : (scan.rest text).pattern.head? = some '*' := by rw [rest, head?_drop, hstar]
    rw [ih, Scan.run_star (rest_text scan htext) hhead]
    simp [rest, ← drop_eq_getElem_cons _]
  | case2 scan htext hstar hsame ih =>
    have hhead : (scan.rest text).pattern.head? = pattern[scan.patternIndex]? := head?_drop
    rw [ih, Scan.run_same (rest_text scan _) (hhead ▸ hstar) (hhead ▸ hsame)]
    simp [rest]
  | case3 scan htext hstar hsame b hback ih =>
    have hhead : (scan.rest text).pattern.head? = pattern[scan.patternIndex]? := head?_drop
    have hback' : (scan.rest text).backtrack = some (pattern.drop (b.1 + 1), text.drop b.2) := congrArg (Option.map _) hback
    rw [ih, Scan.run_back (rest_text scan _) (by rwa [hhead]) (by rwa [hhead]) hback']
    simp [rest]
  | case4 scan htext hstar hsame hback =>
    have hhead : (scan.rest text).pattern.head? = pattern[scan.patternIndex]? := head?_drop
    rw [Scan.run_stuck (rest_text scan _) (by rwa [hhead]) (by rwa [hhead]) (congrArg (Option.map _) hback)]
  | case5 scan htext => rw [Scan.run_nil (drop_eq_nil_of_le (Nat.le_of_not_lt htext)), rest]

/-- The code's loop decides what a wildcard stands for: each star for any text, each question mark for one character, and any
other character for itself. -/
theorem wildcardMatches_iff_exists_parts (pattern text : String) :
    wildcardMatches pattern text = true ↔
      ∃ parts : List (List Char), List.Forall₂ Stands pattern.toList parts ∧ text.toList = parts.flatten := by
  rw [wildcardMatches, run_eq, Scan.run_iff (by rintro b ⟨⟩), ← matches_iff_exists_parts]
  simp [Scan.Possible, rest]

end Matcher

end Wu.OpenCode
