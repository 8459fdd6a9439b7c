import Mathlib.Data.List.Basic
import Mathlib.Data.List.Induction

/-!
# The turn router

The router of a Codex session keeps the turn that is active and the ids of turns that are over. It is told of a turn by the
response to `turn/start` and by the notifications of the turn, which come in any order. What is said here about runs of its
calls: a turn that is over does not become active again, and an active turn gives way to later turns only.
-/

namespace Wu

open List Option

/-- The active turn, and the last turns that are over. -/
structure TurnRouter where
  active : Option String
  completed : List String
  deriving DecidableEq, Repr

namespace TurnRouter

/-- A router that has not been told of a turn. -/
def new : TurnRouter := ⟨none, []⟩

/-- How many turns that are over are remembered. -/
def maxCompleted : Nat := 32

/-- Whether a turn is remembered as over. -/
def isCompleted (self : TurnRouter) (id : String) : Bool := self.completed.contains id

/-- Remember a turn as over; the oldest ones are forgotten. -/
def rememberCompleted (self : TurnRouter) (id : String) : TurnRouter :=
  let completed := self.completed ++ [id]
  { self with completed := completed.drop (completed.length - maxCompleted) }

/-- A notification says that a turn has started. A new turn means that the old one is over. -/
def noteStarted (self : TurnRouter) (id : String) : TurnRouter :=
  if id.isEmpty || self.isCompleted id then self
  else
    match self.active with
    | some prev => { (if prev ≠ id then self.rememberCompleted prev else self) with active := some id }
    | none => { self with active := some id }

/-- A notification says that a turn is over. -/
def noteCompleted (self : TurnRouter) (id : String) : TurnRouter :=
  if id.isEmpty then self
  else
    let self := self.rememberCompleted id
    if self.active = some id then { self with active := none } else self

/-- The response to `turn/start` says that a turn has started. -/
def adoptStarted (self : TurnRouter) (id : String) : TurnRouter :=
  { self with active := if !id.isEmpty && !self.isCompleted id then some id else none }

/-! ## What one call does -/

theorem active_rememberCompleted (self : TurnRouter) (id : String) : (self.rememberCompleted id).active = self.active := by
  rfl

/-- A turn that starts becomes active, unless it is remembered as over. -/
theorem active_noteStarted (self : TurnRouter) {id : String} (hid : id ≠ "") :
    (self.noteStarted id).active = if self.isCompleted id then self.active else some id := by
  have hemp : id.isEmpty = false := by simpa using hid
  unfold noteStarted
  rw [hemp, Bool.false_or]
  split
  · rfl
  · split <;> rfl

/-- A turn that is over is not active. -/
theorem active_noteCompleted (self : TurnRouter) {id : String} (hid : id ≠ "") :
    (self.noteCompleted id).active = if self.active = some id then none else self.active := by
  have hemp : id.isEmpty = false := by simpa using hid
  unfold noteCompleted
  simp only [hemp, Bool.false_eq_true, if_false, active_rememberCompleted]
  split <;> rfl

/-- The turn of a response becomes active, unless it is remembered as over; then none is. -/
theorem active_adoptStarted (self : TurnRouter) {id : String} (hid : id ≠ "") :
    (self.adoptStarted id).active = if self.isCompleted id then none else some id := by
  have hemp : id.isEmpty = false := by simpa using hid
  unfold adoptStarted
  rw [hemp]
  cases self.isCompleted id <;> rfl

/-! ## Runs -/

/-- What the router is told of the turns, which are numbered in the order in which the app server starts them. -/
inductive Call where
  | noteStarted (turn : Nat)
  | noteCompleted (turn : Nat)
  | adoptStarted (turn : Nat)
  deriving DecidableEq, Repr

section Runs

variable (turnId : Nat → String)

/-- One call. -/
def call (self : TurnRouter) : Call → TurnRouter
  | .noteStarted turn => self.noteStarted (turnId turn)
  | .noteCompleted turn => self.noteCompleted (turnId turn)
  | .adoptStarted turn => self.adoptStarted (turnId turn)

/-- The router after calls. -/
def after (calls : List Call) : TurnRouter := calls.foldl (call turnId) new

/-- A call after other calls leaves no turn active whose completion has been processed, and does not replace an active turn
whose completion has not been processed by an earlier turn or by none. -/
def Tracks (calls : List Call) (next : Call) : Prop :=
  (∀ turn, .noteCompleted turn ∈ calls ++ [next] → (after turnId (calls ++ [next])).active ≠ some (turnId turn)) ∧
    ∀ turn, (after turnId calls).active = some (turnId turn) → .noteCompleted turn ∉ calls ++ [next] →
      ∃ later ≥ turn, (after turnId (calls ++ [next])).active = some (turnId later)

/-- A turn may become active: it is not over, and the active one is not a later one. -/
def MayStart (calls : List Call) (turn : Nat) : Prop :=
  .noteCompleted turn ∉ calls ∧ ∀ active, (after turnId calls).active = some (turnId active) → active ≤ turn

/-- A call that the router can take after other calls. -/
def Welcome (calls : List Call) : Call → Prop
  | .noteStarted turn => (after turnId calls).isCompleted (turnId turn) = true ∨ MayStart turnId calls turn
  | .noteCompleted _ => True
  | .adoptStarted turn =>
    if (after turnId calls).isCompleted (turnId turn) then (after turnId calls).active = none
    else MayStart turnId calls turn

variable {turnId} {calls : List Call} {next : Call}

theorem after_concat : after turnId (calls ++ [next]) = (after turnId calls).call turnId next := by
  unfold after
  rw [foldl_append]
  rfl

/-- What is active is a turn. -/
theorem exists_active (hne : ∀ turn, turnId turn ≠ "") {id : String} (h : (after turnId calls).active = some id) :
    ∃ turn, id = turnId turn := by
  induction calls using reverseRecOn with
  | nil => nomatch h
  | append_singleton calls next ih =>
    rw [after_concat] at h
    cases next with
    | noteStarted turn =>
      rw [call, active_noteStarted _ (hne turn)] at h
      split at h
      · exact ih h
      · exact ⟨turn, (some.inj h).symm⟩
    | noteCompleted turn =>
      rw [call, active_noteCompleted _ (hne turn)] at h
      split at h
      · nomatch h
      · exact ih h
    | adoptStarted turn =>
      rw [call, active_adoptStarted _ (hne turn)] at h
      split at h
      · nomatch h
      · exact ⟨turn, (some.inj h).symm⟩

/-- A call that makes a turn active. -/
theorem tracks_start (hinj : Function.Injective turnId) {turn : Nat} (hnext : ∀ other, next ≠ .noteCompleted other)
    (haft : (after turnId (calls ++ [next])).active = some (turnId turn))
    (hdone : ∀ turn, .noteCompleted turn ∈ calls → (after turnId calls).active ≠ some (turnId turn)) :
    Tracks turnId calls next ↔ MayStart turnId calls turn := by
  have hmem : ∀ other, Call.noteCompleted other ∈ calls ++ [next] ↔ .noteCompleted other ∈ calls := by
    intro other
    rw [mem_append, mem_singleton]
    exact or_iff_left (hnext _).symm
  unfold Tracks MayStart
  rw [haft]
  constructor
  · rintro ⟨hover, hkeep⟩
    refine ⟨fun h => hover turn ((hmem turn).mpr h) rfl, fun active hact => ?_⟩
    obtain ⟨later, hle, heq⟩ := hkeep _ hact fun h => hdone _ ((hmem _).mp h) hact
    rw [hinj (some.inj heq)]
    exact hle
  · rintro ⟨hover, hle⟩
    refine ⟨fun other h heq => ?_, fun active hact _ => ⟨turn, hle _ hact, rfl⟩⟩
    rw [hinj (some.inj heq)] at hover
    exact hover ((hmem _).mp h)

/-- A call keeps track of the turns when it is one that the router can take. -/
theorem tracks_iff (hinj : Function.Injective turnId) (hne : ∀ turn, turnId turn ≠ "")
    (hdone : ∀ turn, .noteCompleted turn ∈ calls → (after turnId calls).active ≠ some (turnId turn)) :
    Tracks turnId calls next ↔ Welcome turnId calls next := by
  have hcall : after turnId (calls ++ [next]) = (after turnId calls).call turnId next := after_concat
  cases next with
  | noteStarted turn =>
    have hact := active_noteStarted (after turnId calls) (hne turn)
    rw [← call, ← hcall] at hact
    simp only [Welcome]
    cases hmem : (after _ _).isCompleted _ with
    | true =>
      rw [hmem] at hact
      refine iff_of_true ⟨fun other h => ?_, fun other h _ => ⟨other, Nat.le_refl _, hact ▸ h⟩⟩ (.inl rfl)
      rw [hact]
      rcases mem_append.mp h with h | h
      · exact hdone _ h
      · nomatch mem_singleton.mp h
    | false =>
      rw [hmem] at hact
      have hnext : ∀ other, Call.noteStarted turn ≠ .noteCompleted other := nofun
      rw [tracks_start hinj hnext hact hdone]
      exact ⟨.inr, fun h => h.resolve_left (by decide)⟩
  | noteCompleted turn =>
    have hact := active_noteCompleted (after turnId calls) (hne turn)
    rw [← call, ← hcall] at hact
    refine iff_of_true ⟨fun other h => ?_, fun other h hnot => ?_⟩ trivial
    · rw [hact]
      split
      · nofun
      · rename_i hoth
        rcases mem_append.mp h with h | h
        · exact hdone _ h
        · cases mem_singleton.mp h
          exact hoth
    · refine ⟨other, Nat.le_refl _, ?_⟩
      rw [hact, if_neg, h]
      intro heq
      rw [h] at heq
      rw [hinj (some.inj heq)] at hnot
      exact hnot (by simp)
  | adoptStarted turn =>
    have hact := active_adoptStarted (after turnId calls) (hne turn)
    rw [← call, ← hcall] at hact
    simp only [Welcome]
    cases hmem : (after _ _).isCompleted _ with
    | true =>
      rw [hmem] at hact
      unfold Tracks
      rw [hact]
      constructor
      · rintro ⟨-, hkeep⟩
        cases hbef : (after _ _).active with
        | none => rfl
        | some id =>
          obtain ⟨other, rfl⟩ := exists_active hne hbef
          have hnot : Call.noteCompleted other ∉ calls ++ [.adoptStarted turn] := by
            intro h
            rcases mem_append.mp h with h | h
            · exact hdone _ h hbef
            · nomatch mem_singleton.mp h
          obtain ⟨_, _, h⟩ := hkeep _ hbef hnot
          nomatch h
      · intro hnone
        refine ⟨fun _ _ => nofun, fun other h => ?_⟩
        rw [hnone] at h
        nomatch h
    | false =>
      rw [hmem] at hact
      have hnext : ∀ other, Call.adoptStarted turn ≠ .noteCompleted other := nofun
      rw [tracks_start hinj hnext hact hdone, if_neg (by decide)]

/-- The runs in which every call meets a condition on the calls before it. -/
def Always (condition : List Call → Call → Prop) (calls : List Call) : Prop :=
  ∀ before next later, calls = before ++ next :: later → condition before next

theorem always_nil {condition : List Call → Call → Prop} : Always condition [] := by
  intro before next later h
  exact absurd h (by simp)

theorem always_concat {condition : List Call → Call → Prop} :
    Always condition (calls ++ [next]) ↔ Always condition calls ∧ condition calls next := by
  constructor
  · intro h
    refine ⟨fun before other later heq => h _ _ (later ++ [next]) (by simp [heq]), h _ next [] rfl⟩
  · rintro ⟨hcall, hnext⟩ before other later heq
    rcases eq_nil_or_concat later with rfl | ⟨later, last, rfl⟩
    · obtain ⟨rfl, hoth⟩ := append_inj' heq rfl
      cases hoth
      exact hnext
    · rw [concat_eq_append, ← cons_append, ← append_assoc] at heq
      exact hcall _ _ _ (append_inj' heq rfl).1

/-- In a run that keeps track of the turns, no turn is active whose completion has been processed. -/
theorem Always.not_active (h : Always (Tracks turnId) calls) {turn : Nat} (hturn : .noteCompleted turn ∈ calls) :
    (after turnId calls).active ≠ some (turnId turn) := by
  rcases eq_nil_or_concat calls with rfl | ⟨before, last, rfl⟩
  · nomatch hturn
  · rw [concat_eq_append] at *
    exact (h _ last [] rfl).1 turn hturn

/-- A run keeps track of the turns if and only if every call is one that the router can take. -/
theorem tracks_run_iff (turnId : Nat → String) (hinj : Function.Injective turnId) (hne : ∀ turn, turnId turn ≠ "")
    (calls : List Call) : Always (Tracks turnId) calls ↔ Always (Welcome turnId) calls := by
  induction calls using reverseRecOn with
  | nil => exact iff_of_true always_nil always_nil
  | append_singleton calls next ih =>
    rw [always_concat, always_concat, ← ih]
    exact and_congr_right fun h => tracks_iff hinj hne fun turn => h.not_active

/-- Names for the turns of a run. -/
def demoTurnId (turn : Nat) : String := String.ofList (replicate (turn + 1) 'a')

theorem injective_demoTurnId : Function.Injective demoTurnId := by
  intro a b h
  have hlen := congrArg (fun id => id.toList.length) h
  simpa [demoTurnId] using hlen

theorem demoTurnId_ne_empty (turn : Nat) : demoTurnId turn ≠ "" := by
  intro h
  have hlen := congrArg (fun id => id.toList.length) h
  simp [demoTurnId] at hlen

theorem tracks_run_in_order :
    Always (Tracks demoTurnId) [.adoptStarted 0, .noteStarted 0, .noteCompleted 0] := by
  refine (tracks_run_iff demoTurnId injective_demoTurnId demoTurnId_ne_empty _).mpr ?_
  have hadopt : Always (Welcome demoTurnId) ([] ++ [.adoptStarted 0]) :=
    always_concat.mpr ⟨always_nil, by decide, nofun⟩
  have hstart : Always (Welcome demoTurnId) ([.adoptStarted 0] ++ [.noteStarted 0]) := by
    refine always_concat.mpr ⟨hadopt, .inr ⟨by decide, fun active h => ?_⟩⟩
    exact Nat.le_of_eq (injective_demoTurnId (some.inj h)).symm
  have hover : Welcome demoTurnId [.adoptStarted 0, .noteStarted 0] (.noteCompleted 0) := trivial
  exact always_concat.mpr ⟨hstart, hover⟩

/-- The response to the first turn comes after its notifications and the start of the second one: then no turn is active. -/
theorem tracks_run_diverges :
    ¬Always (Tracks demoTurnId) [.noteStarted 0, .noteCompleted 0, .noteStarted 1, .adoptStarted 0] := by
  intro h
  obtain ⟨later, -, heq⟩ := (h [.noteStarted 0, .noteCompleted 0, .noteStarted 1] (.adoptStarted 0) [] rfl).2 1
    (by decide) (by decide)
  rw [show (after demoTurnId ([.noteStarted 0, .noteCompleted 0, .noteStarted 1] ++ [.adoptStarted 0])).active = none by
    decide] at heq
  nomatch heq

end Runs

end TurnRouter

end Wu
