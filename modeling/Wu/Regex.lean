import Mathlib.Data.List.Basic

/-!
# Regular expressions

A matcher that tries alternatives in order and goes back when what follows fails: a greedy run takes as much as it can first, a lazy
one as little. What is found is the first match in that order, at the first place of the text where there is one. What repeats
is a set of characters.
-/

namespace Wu

open List Option

/-- A regular expression. -/
inductive Regex where
  | empty
  | set (member : Char → Bool)
  | many (greedy : Bool) (member : Char → Bool)
  | seq (first second : Regex)
  | alt (first second : Regex)
  | group (inner : Regex)
  | atEnd

namespace Regex

/-- A character. -/
def char (c : Char) : Regex := set fun x => x == c

/-- One character of a set or more. -/
def plus (greedy : Bool) (member : Char → Bool) : Regex := seq (set member) (many greedy member)

variable {R : Type}

/-- A run of characters of a set, as long as what follows demands. -/
def run (greedy : Bool) (member : Char → Bool) (next : List Char → Option R) : List Char → Option R
  | [] => next []
  | c :: text =>
    if member c then
      if greedy then (run greedy member next text).or (next (c :: text))
      else (next (c :: text)).or (run greedy member next text)
    else next (c :: text)

/-- Matches the start of a text, and goes on with what is left of it and with the texts of the groups that took part. -/
def exec : Regex → List Char → (List Char → List (List Char) → Option R) → Option R
  | .empty, text, next => next text []
  | .set member, text, next =>
    match text with
    | [] => none
    | c :: rest => if member c then next rest [] else none
  | .many greedy member, text, next => run greedy member (fun rest => next rest []) text
  | .seq first second, text, next =>
    exec first text fun rest captured => exec second rest fun rest' captured' => next rest' (captured ++ captured')
  | .alt first second, text, next => (exec first text next).or (exec second text next)
  | .group inner, text, next =>
    exec inner text fun rest captured => next rest (text.take (text.length - rest.length) :: captured)
  | .atEnd, text, next =>
    match text with
    | [] => next [] []
    | _ :: _ => none

/-- The texts of the groups in the first match of a text. -/
def captures (regex : Regex) : List Char → Option (List (List Char))
  | [] => exec regex [] fun _ captured => some captured
  | c :: text => (exec regex (c :: text) fun _ captured => some captured).or (captures regex text)

/-! ## Matching part by part -/

section Parts

variable (next : List Char → List (List Char) → Option R)

theorem exec_seq (first second : Regex) (text : List Char) : exec (.seq first second) text next =
      exec first text fun rest captured => exec second rest fun rest' captured' => next rest' (captured ++ captured') := rfl

theorem exec_alt (first second : Regex) (text : List Char) :
    exec (.alt first second) text next = (exec first text next).or (exec second text next) := rfl

theorem exec_group (inner : Regex) (text : List Char) : exec (.group inner) text next =
      exec inner text fun rest captured => next rest (text.take (text.length - rest.length) :: captured) := rfl

theorem exec_empty (text : List Char) : exec .empty text next = next text [] := rfl

theorem exec_set_cons (member : Char → Bool) (c : Char) (text : List Char) :
    exec (.set member) (c :: text) next = if member c then next text [] else none := rfl

theorem exec_char_self (c : Char) (text : List Char) : exec (.char c) (c :: text) next = next text [] :=
  if_pos (beq_self_eq_true c)

theorem exec_char_of_ne {c x : Char} (h : x ≠ c) (text : List Char) : exec (.char c) (x :: text) next = none :=
  if_neg fun heq => h (beq_iff_eq.mp heq)

theorem exec_seq_set_of_false {member : Char → Bool} {c : Char} (h : member c = false) (second : Regex) (text : List Char) :
    exec (.seq (.set member) second) (c :: text) next = none :=
  if_neg (by rw [h]; exact Bool.false_ne_true)

theorem exec_seq_char_of_ne {c x : Char} (h : x ≠ c) (second : Regex) (text : List Char) :
    exec (.seq (.char c) second) (x :: text) next = none :=
  exec_seq_set_of_false next (beq_eq_false_iff_ne.mpr h) _ text

end Parts

/-! ## Runs -/

section Runs

variable {member : Char → Bool} {next : List Char → Option R}

/-- A run that nothing can follow before its end goes to its end. -/
theorem run_append (greedy : Bool) {taken rest : List Char} (htak : ∀ c ∈ taken, member c)
    (hnext : ∀ c ∈ taken, ∀ text, next (c :: text) = none) (hstop : ∀ c ∈ rest.head?, member c = false) :
    run greedy member next (taken ++ rest) = next rest := by
  induction taken with
  | nil =>
    cases rest with
    | nil => rfl
    | cons c rest => exact if_neg (by rw [hstop c rfl]; exact Bool.false_ne_true)
  | cons c taken ih =>
    have ih := ih (fun x hx => htak x (mem_cons_of_mem c hx)) fun x hx => hnext x (mem_cons_of_mem c hx)
    have hc := hnext c mem_cons_self (taken ++ rest)
    rw [cons_append, run, if_pos (htak c mem_cons_self), ih, hc]
    cases greedy
    · exact none_or
    · exact or_none

/-- A lazy run ends at the first place where what follows matches. -/
theorem run_lazy_append {taken rest : List Char} {found : R} (htak : ∀ c ∈ taken, member c)
    (hnext : ∀ c ∈ taken, ∀ text, next (c :: text) = none) (hfnd : next rest = some found) :
    run false member next (taken ++ rest) = some found := by
  induction taken with
  | nil =>
    cases rest with
    | nil => exact hfnd
    | cons c rest =>
      rw [nil_append, run, hfnd]
      exact ite_self _
  | cons c taken ih =>
    have ih := ih (fun x hx => htak x (mem_cons_of_mem c hx)) fun x hx => hnext x (mem_cons_of_mem c hx)
    rw [cons_append, run, if_pos (htak c mem_cons_self), ih, hnext c mem_cons_self]
    rfl

/-- A run fails where what follows fails behind each of its characters. -/
theorem run_eq_none (greedy : Bool) {text : List Char} (h : ∀ rest, rest <:+ text → next rest = none) :
    run greedy member next text = none := by
  induction text with
  | nil => exact h [] suffix_rfl
  | cons c text ih =>
    have ih := ih fun rest hrest => h rest (hrest.trans (suffix_cons c text))
    rw [run, ih, h _ suffix_rfl]
    cases greedy <;> exact ite_self _

/-- What a group holds that began with a text of which a rest is left. -/
theorem taken_eq (taken rest : List Char) : (taken ++ rest).take ((taken ++ rest).length - rest.length) = taken := by
  rw [length_append, Nat.add_sub_cancel]
  exact take_left

/-- One or more characters that nothing can follow before their end, as a group. -/
theorem exec_group_plus (greedy : Bool) {next : List Char → List (List Char) → Option R} {c : Char} {taken rest : List Char}
    (hc : member c) (htak : ∀ c ∈ taken, member c)
    (hnext : ∀ c ∈ taken, ∀ text captured, next (c :: text) captured = none)
    (hstop : ∀ c ∈ rest.head?, member c = false) :
    exec (.group (.plus greedy member)) (c :: taken ++ rest) next = next rest [c :: taken] := by
  have hrun : run greedy member
      (fun rest' => next rest' [(c :: taken ++ rest).take ((c :: taken ++ rest).length - rest'.length)]) (taken ++ rest) =
      next rest [(c :: taken ++ rest).take ((c :: taken ++ rest).length - rest.length)] :=
    run_append _ htak (fun x hx text => hnext x hx text _) hstop
  rw [taken_eq] at hrun
  exact (if_pos hc).trans hrun

/-- A lazy run of one or more characters, as a group, ends at the first place where what follows matches. -/
theorem exec_group_lazy {next : List Char → List (List Char) → Option R} {c : Char} {taken rest : List Char} {found : R}
    (hc : member c) (htak : ∀ c ∈ taken, member c)
    (hnext : ∀ c ∈ taken, ∀ text captured, next (c :: text) captured = none) (hfnd : next rest [c :: taken] = some found) :
    exec (.group (.plus false member)) (c :: taken ++ rest) next = some found := by
  have hrun : run false member
      (fun rest' => next rest' [(c :: taken ++ rest).take ((c :: taken ++ rest).length - rest'.length)]) (taken ++ rest) =
      some found :=
    run_lazy_append htak (fun x hx text => hnext x hx text _) (by rw [taken_eq]; exact hfnd)
  exact (if_pos hc).trans hrun

end Runs

/-! ## What a match cannot do without -/

/-- Where nothing can follow behind any part of a text, there is no match. -/
theorem exec_eq_none (regex : Regex) {text : List Char} {next : List Char → List (List Char) → Option R}
    (h : ∀ rest captured, rest <:+ text → next rest captured = none) : exec regex text next = none := by
  induction regex generalizing text next with
  | empty => exact h text [] suffix_rfl
  | set member =>
    cases text with
    | nil => rfl
    | cons c text =>
      rw [exec_set_cons, h text [] (suffix_cons c text)]
      exact ite_self _
  | many greedy member => exact run_eq_none _ fun rest hrest => h rest [] hrest
  | seq first second ihfirst ihsecond =>
    exact ihfirst fun rest captured hrest => ihsecond fun rest' captured' hrest' => h _ _ (hrest'.trans hrest)
  | alt first second ihfirst ihsecond => rw [exec_alt, ihfirst h, ihsecond h, none_or]
  | group inner ih => exact ih fun rest captured hrest => h rest _ hrest
  | atEnd =>
    cases text with
    | nil => exact h [] [] suffix_rfl
    | cons c text => rfl

/-- Every match holds a character of a set. -/
inductive Needs (needed : Char → Prop) : Regex → Prop
  | set {member : Char → Bool} : (∀ c, member c → needed c) → Needs needed (.set member)
  | first {first : Regex} (second : Regex) : Needs needed first → Needs needed (.seq first second)
  | second (first : Regex) {second : Regex} : Needs needed second → Needs needed (.seq first second)
  | alt {first second : Regex} : Needs needed first → Needs needed second → Needs needed (.alt first second)
  | group {inner : Regex} : Needs needed inner → Needs needed (.group inner)

theorem Needs.char (c : Char) : Needs (· = c) (.char c) := .set fun _ h => beq_iff_eq.mp h

variable {needed : Char → Prop} {regex : Regex}

theorem Needs.exec_eq_none (hneed : Needs needed regex) {text : List Char}
    (htext : ∀ c ∈ text, ¬needed c) (next : List Char → List (List Char) → Option R) : exec regex text next = none := by
  induction hneed generalizing text next with
  | set hset =>
    cases text with
    | nil => rfl
    | cons c text => exact if_neg fun h => htext c mem_cons_self (hset c h)
  | first second _ ih => exact ih htext _
  | second first _ ih => exact Regex.exec_eq_none first fun rest _ hrest => ih (fun c hc => htext c (hrest.mem hc)) _
  | alt _ _ ihfirst ihsecond => rw [exec_alt, ihfirst htext, ihsecond htext, none_or]
  | group _ ih => exact ih htext _

/-- A text without the characters that a match needs has none. -/
theorem Needs.captures_eq_none (hneed : Needs needed regex) {text : List Char}
    (htext : ∀ c ∈ text, ¬needed c) : captures regex text = none := by
  induction text with
  | nil => exact hneed.exec_eq_none htext _
  | cons c text ih =>
    rw [captures, hneed.exec_eq_none htext, ih fun x hx => htext x (mem_cons_of_mem c hx), none_or]

/-- A match at the start of a text is the first one. -/
theorem captures_of_exec {text : List Char} {captured : List (List Char)}
    (h : exec regex text (fun _ captured => some captured) = some captured) : captures regex text = some captured := by
  cases text with
  | nil => exact h
  | cons c text =>
    rw [captures, h]
    rfl

end Regex

end Wu
