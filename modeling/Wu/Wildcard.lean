import Mathlib.Data.List.Basic
import Mathlib.Algebra.Ring.Nat

/-!
# Wildcards

A wildcard is a text in which `*` stands for any text and `?` for any character. `Matches` says which texts a wildcard stands
for. `Scan.run` is the usual decision by one pass over the text: the pass remembers the last star only, and when it is stuck it
lets that star stand for one more character.
-/

namespace Wu.Wildcard

open List Prod

/-- The texts a wildcard stands for. -/
inductive Matches : List Char → List Char → Prop
  | nil : Matches [] []
  | skip {pattern text : List Char} (h : Matches pattern text) : Matches ('*' :: pattern) text
  | take {pattern text : List Char} (c : Char) (h : Matches ('*' :: pattern) text) : Matches ('*' :: pattern) (c :: text)
  | single {pattern text : List Char} {w c : Char} (hw : w ≠ '*') (hc : w = '?' ∨ w = c) (h : Matches pattern text) :
      Matches (w :: pattern) (c :: text)

/-- A pass over a text: what is left of the wildcard and of the text, and the last star: the wildcard after it and the text after
what the star stands for so far. -/
structure Scan where
  pattern : List Char
  text : List Char
  backtrack : Option (List Char × List Char)
  behind : ∀ b ∈ backtrack, text.length ≤ b.2.length

/-- How far back a pass may still go. -/
def reach (text : List Char) : Option (List Char × List Char) → Nat
  | some b => b.2.length
  | none => text.length + 1

namespace Scan

theorem length_le_reach (scan : Scan) : scan.text.length ≤ reach scan.text scan.backtrack := by
  unfold reach
  split
  · rename_i b hb
    exact scan.behind b hb
  · exact Nat.le_succ _

theorem reach_tail_le (c : Char) (text : List Char) (backtrack : Option (List Char × List Char)) :
    reach text backtrack ≤ reach (c :: text) backtrack := by
  cases backtrack with
  | none => exact Nat.le_succ _
  | some b => exact le_rfl

theorem length_tail_lt {l : List Char} {c : Char} (h : l.head? = some c) : l.tail.length < l.length := by
  cases l with
  | nil => simp at h
  | cons _ _ => simp

/-- Whether the wildcard stands for the text. -/
def run (scan : Scan) : Bool :=
  match htext : scan.text with
  | [] => scan.pattern.all (· == '*')
  | c :: text =>
    if hstar : scan.pattern.head? = some '*' then
      run ⟨scan.pattern.tail, c :: text, some (scan.pattern.tail, c :: text), by rintro b ⟨⟩; exact Nat.le_refl _⟩
    else if scan.pattern.head? = some '?' ∨ scan.pattern.head? = some c then
      run ⟨scan.pattern.tail, text, scan.backtrack, by
        intro b hb
        have hle := scan.behind b hb
        rw [htext, length_cons] at hle
        omega⟩
    else
      match hback : scan.backtrack with
      | some b => run ⟨b.1, b.2.tail, some (b.1, b.2.tail), by rintro b' ⟨⟩; exact Nat.le_refl _⟩
      | none => false
  termination_by (reach scan.text scan.backtrack, scan.text.length, scan.pattern.length)
  decreasing_by
    · -- The star is where the pass goes back to from now on.
      have hlt := length_tail_lt hstar
      have hle := scan.length_le_reach
      rw [htext] at hle ⊢
      rw [lex_def, lex_def]
      dsimp only
      have hreach : reach (c :: text) (some (scan.pattern.tail, c :: text)) = (c :: text).length := rfl
      omega
    · have hle := reach_tail_le c text scan.backtrack
      rw [htext, lex_def, lex_def, length_cons]
      dsimp only
      omega
    · have hle := scan.behind b hback
      rw [htext, length_cons] at hle
      rw [lex_def, lex_def, hback]
      dsimp only
      have hreach : reach b.2.tail (some (b.1, b.2.tail)) = b.2.length - 1 := length_tail
      have hold : reach scan.text (some b) = b.2.length := rfl
      omega

variable {scan : Scan} {c : Char} {text : List Char}

theorem run_nil (htext : scan.text = []) : scan.run = scan.pattern.all (· == '*') := by
  rw [run]
  split
  · rfl
  · rename_i heq
    rw [htext] at heq
    nomatch heq

section

variable (htext : scan.text = c :: text)
include htext

/-- At a star the pass remembers it. -/
theorem run_star (hstar : scan.pattern.head? = some '*') :
    scan.run = run ⟨scan.pattern.tail, c :: text, some (scan.pattern.tail, c :: text), by
      rintro b ⟨⟩; exact Nat.le_refl _⟩ := by
  rw [run]
  split
  · rename_i heq
    rw [htext] at heq
    nomatch heq
  · rename_i heq
    obtain ⟨rfl, rfl⟩ := List.cons.inj (htext.symm.trans heq)
    rw [dif_pos hstar]

/-- Past the same character. -/
theorem run_same (hstar : ¬scan.pattern.head? = some '*') (hsame : scan.pattern.head? = some '?' ∨ scan.pattern.head? = some c) :
    scan.run = run ⟨scan.pattern.tail, text, scan.backtrack, by
      intro b hb
      have hle := scan.behind b hb
      rw [htext, length_cons] at hle
      omega⟩ := by
  rw [run]
  split
  · rename_i heq
    rw [htext] at heq
    nomatch heq
  · rename_i heq
    obtain ⟨rfl, rfl⟩ := List.cons.inj (htext.symm.trans heq)
    rw [dif_neg hstar, if_pos hsame]

/-- Where the pass is stuck, the last star stands for one more character. -/
theorem run_back {b : List Char × List Char} (hstar : ¬scan.pattern.head? = some '*')
    (hsame : ¬(scan.pattern.head? = some '?' ∨ scan.pattern.head? = some c)) (hback : scan.backtrack = some b) :
    scan.run = run ⟨b.1, b.2.tail, some (b.1, b.2.tail), by rintro b' ⟨⟩; exact Nat.le_refl _⟩ := by
  rw [run]
  split
  · rename_i heq
    rw [htext] at heq
    nomatch heq
  · rename_i heq
    obtain ⟨rfl, -⟩ := List.cons.inj (htext.symm.trans heq)
    rw [dif_neg hstar, if_neg hsame]
    split
    · rename_i hb
      obtain rfl := Option.some.inj (hback.symm.trans hb)
      rfl
    · rename_i hb
      rw [hback] at hb
      nomatch hb

theorem run_stuck (hstar : ¬scan.pattern.head? = some '*')
    (hsame : ¬(scan.pattern.head? = some '?' ∨ scan.pattern.head? = some c)) (hback : scan.backtrack = none) :
    scan.run = false := by
  rw [run]
  split
  · rename_i heq
    rw [htext] at heq
    nomatch heq
  · rename_i heq
    obtain ⟨rfl, -⟩ := List.cons.inj (htext.symm.trans heq)
    rw [dif_neg hstar, if_neg hsame]
    split
    · rename_i hb
      rw [hback] at hb
      nomatch hb
    · rfl

end

end Scan

/-! ## What the pass decides -/

variable {pattern : List Char} {w : Char}

/-- A text that ends with one a wildcard stands for is one the wildcard stands for after a star. -/
theorem Matches.star_append {text : List Char} (h : Matches ('*' :: pattern) text) (before : List Char) :
    Matches ('*' :: pattern) (before ++ text) := by
  induction before with
  | nil => exact h
  | cons c before ih => exact ih.take c

/-- What a wildcard with a star first stands for: its rest stands for an end of the text. -/
theorem matches_star_iff {text : List Char} :
    Matches ('*' :: pattern) text ↔ ∃ before after, text = before ++ after ∧ Matches pattern after := by
  constructor
  · intro h
    generalize hwild : '*' :: pattern = wild at h
    induction h with
    | nil => nomatch hwild
    | skip h =>
      obtain ⟨-, rfl⟩ := List.cons.inj hwild
      exact ⟨[], _, rfl, h⟩
    | take c h ih =>
      obtain ⟨before, after, rfl, haft⟩ := ih hwild
      exact ⟨c :: before, after, rfl, haft⟩
    | single hw => exact absurd (List.cons.inj hwild).1.symm hw
  · rintro ⟨-, after, rfl, h⟩
    exact h.skip.star_append _

/-- A wildcard whose first character is not a star stands for texts that start with a character it stands for. -/
theorem matches_cons_iff {text : List Char} {c : Char} (hw : w ≠ '*') :
    Matches (w :: pattern) (c :: text) ↔ (w = '?' ∨ w = c) ∧ Matches pattern text := by
  constructor
  · intro h
    cases h with
    | skip => exact absurd rfl hw
    | take => exact absurd rfl hw
    | single _ hc h => exact ⟨hc, h⟩
  · rintro ⟨hc, h⟩
    exact h.single hw hc

theorem not_matches_cons_nil (hw : w ≠ '*') : ¬Matches (w :: pattern) [] := by
  intro h
  cases h with
  | skip => exact hw rfl

/-- What one character of a wildcard stands for: a star for any text, a question mark for one character, and any other character
for itself. -/
def Stands (w : Char) (part : List Char) : Prop := w = '*' ∨ w = '?' ∧ part.length = 1 ∨ w ≠ '*' ∧ w ≠ '?' ∧ part = [w]

/-- A wildcard stands for the texts that split into a part for each of its characters. -/
theorem matches_iff_exists_parts {text : List Char} :
    Matches pattern text ↔ ∃ parts : List (List Char), List.Forall₂ Stands pattern parts ∧ text = parts.flatten := by
  constructor
  · intro h
    induction pattern generalizing text with
    | nil =>
      cases h
      exact ⟨[], .nil, rfl⟩
    | cons w pattern ih =>
      by_cases hw : w = '*'
      · subst hw
        obtain ⟨before, after, rfl, haft⟩ := matches_star_iff.mp h
        obtain ⟨parts, hpar, rfl⟩ := ih haft
        exact ⟨before :: parts, .cons (.inl rfl) hpar, rfl⟩
      · cases text with
        | nil => exact absurd h (not_matches_cons_nil hw)
        | cons c text =>
          obtain ⟨hc, hrest⟩ := (matches_cons_iff hw).mp h
          obtain ⟨parts, hpar, rfl⟩ := ih hrest
          refine ⟨[c] :: parts, .cons (.inr ?_) hpar, rfl⟩
          by_cases hmark : w = '?'
          · exact .inl ⟨hmark, rfl⟩
          · exact .inr ⟨hw, hmark, by rw [hc.resolve_left hmark]⟩
  · rintro ⟨parts, hpar, rfl⟩
    induction hpar with
    | nil => exact .nil
    | @cons w part pattern parts hpart hpar ih =>
      rcases hpart with rfl | ⟨rfl, hlen⟩ | ⟨hw, -, rfl⟩
      · exact ih.skip.star_append part
      · obtain ⟨c, rfl⟩ := length_eq_one_iff.mp hlen
        exact ih.single (by decide) (.inl rfl)
      · exact ih.single hw (.inr rfl)

/-- Only stars stand for the empty text. -/
theorem matches_nil_iff : Matches pattern [] ↔ pattern.all (· == '*') = true := by
  induction pattern with
  | nil => exact ⟨fun _ => rfl, fun _ => .nil⟩
  | cons w pattern ih =>
    by_cases hw : w = '*'
    · subst hw
      rw [matches_star_iff]
      simp only [all_cons, beq_self_eq_true, Bool.true_and, ← ih]
      constructor
      · rintro ⟨before, after, happ, h⟩
        rwa [(append_eq_nil_iff.mp happ.symm).2] at h
      · intro h
        exact ⟨[], [], rfl, h⟩
    · rw [all_cons, beq_eq_false_iff_ne.mpr hw]
      exact iff_of_false (not_matches_cons_nil hw) Bool.false_ne_true

/-- A wildcard that starts without a star stands for texts that start with as many characters, the rest standing for the rest. -/
theorem matches_append {fixed text : List Char} (hf : '*' ∉ fixed) (h : Matches (fixed ++ pattern) text) :
    ∃ before after, text = before ++ after ∧ before.length = fixed.length ∧ Matches pattern after := by
  induction fixed generalizing text with
  | nil => exact ⟨[], text, rfl, rfl, h⟩
  | cons w fixed ih =>
    rw [mem_cons, not_or] at hf
    obtain ⟨hw, hf⟩ := hf
    cases text with
    | nil => exact absurd h (not_matches_cons_nil (Ne.symm hw))
    | cons c text =>
      obtain ⟨before, after, rfl, hlen, haft⟩ := ih hf ((matches_cons_iff (Ne.symm hw)).mp h).2
      exact ⟨c :: before, after, rfl, congrArg Nat.succ hlen, haft⟩

namespace Scan

/-- The pass has matched what is between the last star and where it is. -/
def Kept (scan : Scan) : Prop :=
  ∀ b ∈ scan.backtrack, ∃ fixed passed : List Char,
    b.1 = fixed ++ scan.pattern ∧ b.2 = passed ++ scan.text ∧ fixed.length = passed.length ∧ '*' ∉ fixed

/-- What is still possible: the wildcard that is left stands for the text that is left, or the last star stands for more. -/
def Possible (scan : Scan) : Prop :=
  Matches scan.pattern scan.text ∨ ∃ b ∈ scan.backtrack, Matches ('*' :: b.1) b.2.tail

theorem possible_some {pattern text : List Char} {b : List Char × List Char} {h : ∀ b' ∈ some b, text.length ≤ b'.2.length} :
    Possible ⟨pattern, text, some b, h⟩ ↔ Matches pattern text ∨ Matches ('*' :: b.1) b.2.tail := by
  unfold Possible
  simp

/-- Where neither a star nor the character that is next is next in the wildcard, it does not stand for the text. -/
theorem stuck_not_matches {scan : Scan} {c : Char} {text : List Char} (htext : scan.text = c :: text)
    (hstar : ¬scan.pattern.head? = some '*') (hsame : ¬(scan.pattern.head? = some '?' ∨ scan.pattern.head? = some c)) :
    ¬Matches scan.pattern scan.text := by
  rw [htext]
  cases hp : scan.pattern with
  | nil => nofun
  | cons w pattern =>
    rw [hp, head?_cons, Option.some_inj] at hstar
    rw [hp, head?_cons, Option.some_inj, Option.some_inj] at hsame
    intro h
    exact hsame ((matches_cons_iff hstar).mp h).1

/-- At the end of the text the last star cannot stand for more: what is fixed after it is longer than what is left for it. -/
theorem Kept.possible_nil {scan : Scan} (h : scan.Kept) (ht : scan.text = []) : scan.Possible ↔ Matches scan.pattern [] := by
  unfold Possible
  rw [ht]
  refine or_iff_left_of_imp ?_
  rintro ⟨b, hb, hmat⟩
  obtain ⟨fixed, passed, hb1, hb2, hlen, hf⟩ := h b hb
  rw [ht, append_nil] at hb2
  obtain ⟨skipped, rest, hspl, hrest⟩ := matches_star_iff.mp hmat
  rw [hb1] at hrest
  obtain ⟨before, after, hba, hbef, haft⟩ := matches_append hf hrest
  have htot := congrArg List.length hspl
  rw [hba, hb2, length_tail, length_append, length_append] at htot
  have hemp : after = [] := length_eq_zero_iff.mp (by omega)
  rwa [hemp] at haft

/-- A new star makes the last one idle: what the last star may still stand for, the new one may as well. -/
theorem Kept.star_enough {scan : Scan} (h : scan.Kept) {pattern : List Char} (hp : scan.pattern = '*' :: pattern) :
    scan.Possible ↔ Matches scan.pattern scan.text := by
  refine or_iff_left_of_imp ?_
  rintro ⟨b, hb, hmat⟩
  obtain ⟨fixed, passed, hb1, hb2, hlen, hf⟩ := h b hb
  obtain ⟨skipped, rest, hspl, hrest⟩ := matches_star_iff.mp hmat
  rw [hb1] at hrest
  obtain ⟨before, after, rfl, hbef, haft⟩ := matches_append hf hrest
  -- What the fixed part leaves of the shorter text is an end of what it leaves of the longer one.
  have hsuf : after <:+ scan.text := by
    have htail : after <:+ b.2 := by
      have hend : after <:+ b.2.tail := ⟨skipped ++ before, by rw [hspl, append_assoc]⟩
      exact hend.trans (List.tail_suffix _)
    refine suffix_of_suffix_length_le htail ?_ ?_
    · rw [hb2]
      exact suffix_append _ _
    · have htot := congrArg List.length hspl
      rw [hb2, length_tail, length_append, length_append, length_append] at htot
      omega
  obtain ⟨before', hbef'⟩ := hsuf
  rw [← hbef', hp]
  rw [hp] at haft
  exact haft.star_append _

theorem matches_star_tail {pattern text : List Char} :
    Matches ('*' :: pattern) text ↔ Matches pattern text ∨ Matches ('*' :: pattern) text.tail := by
  constructor
  · intro h
    obtain ⟨before, after, rfl, haft⟩ := matches_star_iff.mp h
    cases before with
    | nil => exact .inl haft
    | cons c before => exact .inr (haft.skip.star_append _)
  · rintro (h | h)
    · exact h.skip
    · cases text with
      | nil => exact h
      | cons c text => exact h.take c

/-- The pass decides what is possible. -/
theorem run_iff {scan : Scan} (h : scan.Kept) : scan.run = true ↔ scan.Possible := by
  fun_induction run scan with
  | case1 scan htext => rw [h.possible_nil htext, matches_nil_iff]
  | case2 scan c text htext hstar ih =>
    obtain ⟨pattern, hp⟩ := head?_eq_some_iff.mp hstar
    rw [ih, h.star_enough hp, htext, possible_some, hp]
    · exact matches_star_tail.symm
    · rintro b ⟨⟩
      exact ⟨[], [], rfl, rfl, rfl, not_mem_nil⟩
  | case3 scan c text htext hstar hsame ih =>
    obtain ⟨w, pattern, hp, hw, hc⟩ : ∃ w pattern, scan.pattern = w :: pattern ∧ w ≠ '*' ∧ (w = '?' ∨ w = c) := by
      rcases hsame with hsame | hsame <;> obtain ⟨pattern, hp⟩ := head?_eq_some_iff.mp hsame
      · exact ⟨'?', pattern, hp, by decide, .inl rfl⟩
      · rw [hsame] at hstar
        exact ⟨c, pattern, hp, fun hcs => hstar (congrArg some hcs), .inr rfl⟩
    rw [ih]
    · unfold Possible
      rw [htext, hp, matches_cons_iff hw, and_iff_right hc, tail_cons]
    · intro b hb
      obtain ⟨fixed, passed, hb1, hb2, hlen, hf⟩ := h b hb
      refine ⟨fixed ++ [w], passed ++ [c], ?_, ?_, ?_, ?_⟩
      · rw [hb1, hp, tail_cons, append_assoc, singleton_append]
      · rw [hb2, htext, append_assoc, singleton_append]
      · rw [length_append, length_append, hlen, length_singleton, length_singleton]
      · rw [mem_append, mem_singleton]
        rintro (hmem | hmem)
        · exact hf hmem
        · exact hw hmem.symm
  | case4 scan c text htext hstar hsame b hback ih =>
    have hstu : ¬Matches scan.pattern scan.text := stuck_not_matches htext hstar hsame
    rw [ih, possible_some, ← matches_star_tail]
    · unfold Possible
      rw [or_iff_right hstu, hback]
      simp
    · rintro b' ⟨⟩
      exact ⟨[], [], rfl, rfl, rfl, not_mem_nil⟩
  | case5 scan c text htext hstar hsame hback =>
    have hstu : ¬Matches scan.pattern scan.text := stuck_not_matches htext hstar hsame
    unfold Possible
    rw [or_iff_right hstu, hback]
    simp

end Scan

/-- Whether a wildcard stands for a text. -/
def wildcardMatches (pattern text : String) : Bool :=  Scan.run ⟨pattern.toList, text.toList, none, by rintro b ⟨⟩⟩

/-- The pass over a text decides what the wildcard stands for. -/
theorem wildcardMatches_iff {pattern text : String} : wildcardMatches pattern text = true ↔ Matches pattern.toList text.toList := by
  unfold wildcardMatches
  rw [Scan.run_iff (by rintro b ⟨⟩)]
  unfold Scan.Possible
  simp

/-- A star stands for any text. -/
theorem wildcardMatches_star (text : String) : wildcardMatches "*" text = true := by
  rw [wildcardMatches_iff]
  exact matches_star_iff.mpr ⟨text.toList, [], (append_nil _).symm, .nil⟩

/-- Without stars and question marks, a wildcard stands for itself only. -/
theorem matches_iff_eq_of_plain {text : List Char} (hp : ∀ w ∈ pattern, w ≠ '*' ∧ w ≠ '?') :
    Matches pattern text ↔ pattern = text := by
  induction pattern generalizing text with
  | nil =>
    constructor
    · rintro ⟨⟩
      rfl
    · rintro rfl
      exact .nil
  | cons w pattern ih =>
    obtain ⟨hstar, hmark⟩ := hp w (by simp)
    cases text with
    | nil => exact iff_of_false (not_matches_cons_nil hstar) (cons_ne_nil _ _)
    | cons c text =>
      rw [matches_cons_iff hstar, ih (fun w' hw' => hp w' (by simp [hw'])), or_iff_right hmark, List.cons.injEq]

theorem wildcardMatches_plain {pattern text : String} (hp : ∀ w ∈ pattern.toList, w ≠ '*' ∧ w ≠ '?') :
    wildcardMatches pattern text = decide (pattern = text) := by
  rw [Bool.eq_iff_iff, wildcardMatches_iff, matches_iff_eq_of_plain hp, decide_eq_true_iff, String.toList_inj]

end Wu.Wildcard
