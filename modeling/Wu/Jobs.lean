import Mathlib.Data.List.Basic
import Mathlib.Logic.Relation

/-!
# Jobs that wait for jobs

Background work: a job is started with the jobs that it waits for, and finishes after them, in any order otherwise. What a
finished job has waited for, directly or not, is finished.
-/

namespace Wu

universe u

/-- Jobs in the order in which they were started, each with those that it waits for, and those that are finished. -/
structure Jobs (α : Type u) where
  jobs : List (α × List Nat)
  finished : List Nat

namespace Jobs

variable {α : Type u}

def empty : Jobs α := ⟨[], []⟩

/-- The number that the next job gets. -/
def next (self : Jobs α) : Nat := self.jobs.length

def get (self : Jobs α) (job : Nat) : Option α := self.jobs[job]?.map Prod.fst

def spawn (self : Jobs α) (work : α) (after : List Nat) : Jobs α := { self with jobs := self.jobs ++ [(work, after)] }

def finish (self : Jobs α) (job : Nat) : Jobs α := { self with finished := job :: self.finished }

/-- A job waits for another. -/
def Needs (self : Jobs α) (job before : Nat) : Prop := ∃ entry, self.jobs[job]? = some entry ∧ before ∈ entry.2

/-- A job waits for another, or for one that waits for it, or is it. -/
def Waits (self : Jobs α) : Nat → Nat → Prop := Relation.ReflTransGen self.Needs

/-- A job that can finish now. -/
def Ready (self : Jobs α) (job : Nat) : Prop :=
  job < self.next ∧ job ∉ self.finished ∧ ∀ before, self.Needs job before → before ∈ self.finished

/-- Every job is finished. -/
def Done (self : Jobs α) : Prop := ∀ job < self.next, job ∈ self.finished

/-- A job waits for earlier ones. What is finished was started, and what it has waited for is finished. -/
structure Sound (all : Jobs α) : Prop where
  earlier : ∀ job before, all.Needs job before → before < job
  started : ∀ job ∈ all.finished, job < all.next
  closed : ∀ job ∈ all.finished, ∀ before, all.Needs job before → before ∈ all.finished

theorem sound_empty : Sound (empty : Jobs α) := by
  refine ⟨?_, nofun, nofun⟩
  rintro job - ⟨entry, hent, -⟩
  nomatch hent

theorem next_spawn (self : Jobs α) (work : α) (after : List Nat) : (self.spawn work after).next = self.next + 1 :=
  List.length_append

variable {self : Jobs α} {job : Nat} {work : α}

theorem get_lt (h : self.get job = some work) : job < self.next := by
  obtain ⟨entry, hent, -⟩ := Option.map_eq_some_iff.mp h
  exact (List.getElem?_eq_some_iff.mp hent).1

theorem get_of_lt (h : job < self.next) : ∃ work, self.get job = some work := by
  obtain ⟨entry, hent⟩ : ∃ entry, self.jobs[job]? = some entry := ⟨_, List.getElem?_eq_getElem h⟩
  exact ⟨entry.1, by rw [get, hent]; rfl⟩

theorem get_spawn_next (self : Jobs α) (work : α) (after : List Nat) : (self.spawn work after).get self.next = some work := by
  simp [get, spawn, next]

theorem get_spawn_of_lt (h : job < self.next) (work : α) (after : List Nat) : (self.spawn work after).get job = self.get job := by
  unfold get spawn
  rw [List.getElem?_append_left h]

/-- A job after a start is the one that was started, or was there. -/
theorem get_spawn {after : List Nat} {found : α}
    (h : (self.spawn work after).get job = some found) : self.get job = some found ∨ (job = self.next ∧ found = work) := by
  have hlt := get_lt h
  rw [next_spawn] at hlt
  rcases Nat.lt_succ_iff_lt_or_eq.mp hlt with hlt | rfl
  · rw [get_spawn_of_lt hlt] at h
    exact .inl h
  · rw [get_spawn_next] at h
    exact .inr ⟨rfl, (Option.some.inj h).symm⟩

theorem needs_spawn_of_lt {before : Nat} (hlt : job < self.next) {after : List Nat} :
    (self.spawn work after).Needs job before ↔ self.Needs job before := by
  unfold Needs spawn
  rw [List.getElem?_append_left hlt]

theorem Needs.lt {before : Nat} (h : self.Needs job before) : job < self.next := by
  obtain ⟨entry, hent, -⟩ := h
  exact (List.getElem?_eq_some_iff.mp hent).1

theorem needs_spawn_next {after : List Nat} {before : Nat} (h : before ∈ after) : (self.spawn work after).Needs self.next before :=
  ⟨(work, after), by simp [spawn, next], h⟩

/-- What waits still waits after another start. -/
theorem Waits.spawn {before : Nat} (h : self.Waits job before) (work : α) (after : List Nat) :
    (self.spawn work after).Waits job before := by
  induction h with
  | refl => exact .refl
  | tail _ hneed ih => exact ih.tail ((needs_spawn_of_lt hneed.lt).mpr hneed)

/-- A job that is started waits for what those wait for that it waits for. -/
theorem Waits.next {before : Nat} (h : self.Waits job before) (work : α) {after : List Nat}
    (haft : job ∈ after) : (self.spawn work after).Waits self.next before :=
  .head (needs_spawn_next haft) (h.spawn work _)

theorem Waits.le (hsou : Sound self) {before : Nat} (h : self.Waits job before) : before ≤ job := by
  induction h with
  | refl => exact Nat.le_refl _
  | tail _ hneed ih => exact Nat.le_trans (Nat.le_of_lt (hsou.earlier _ _ hneed)) ih

/-- What was there waits for what it has waited for. -/
theorem Waits.of_spawn (hsou : Sound self) {before : Nat} {after : List Nat}
    (h : (self.spawn work after).Waits job before) (hlt : job < self.next) : self.Waits job before := by
  induction h with
  | refl => exact .refl
  | tail _ hneed ih => exact ih.tail ((needs_spawn_of_lt (Nat.lt_of_le_of_lt (ih.le hsou) hlt)).mp hneed)

theorem Waits.finished (hsou : Sound self) {before : Nat} (h : self.Waits job before)
    (hfin : job ∈ self.finished) : before ∈ self.finished := by
  induction h with
  | refl => exact hfin
  | tail _ hneed ih => exact hsou.closed _ ih _ hneed

theorem Sound.spawn (h : Sound self) (work : α) {after : List Nat} (haft : ∀ job ∈ after, job < self.next) :
    Sound (self.spawn work after) := by
  refine ⟨?_, ?_, ?_⟩
  · intro job before hneed
    have hlt := hneed.lt
    rw [next_spawn] at hlt
    rcases Nat.lt_succ_iff_lt_or_eq.mp hlt with hlt | rfl
    · exact h.earlier job _ ((needs_spawn_of_lt hlt).mp hneed)
    · obtain ⟨entry, hent, hmem⟩ := hneed
      simp only [Jobs.spawn, next, List.getElem?_concat_length, Option.some.injEq] at hent
      subst hent
      exact haft _ hmem
  · intro job hfin
    rw [next_spawn]
    exact Nat.lt_succ_of_lt (h.started job hfin)
  · intro job hfin before hneed
    exact h.closed job hfin _ ((needs_spawn_of_lt (h.started job hfin)).mp hneed)

theorem Sound.finish (h : Sound self) (hready : self.Ready job) : Sound (self.finish job) := by
  obtain ⟨hlt, -, hneed⟩ := hready
  refine ⟨h.earlier, ?_, ?_⟩
  · intro other hoth
    rcases List.mem_cons.mp hoth with rfl | hoth
    · exact hlt
    · exact h.started _ hoth
  · intro other hoth before hbef
    rcases List.mem_cons.mp hoth with rfl | hoth
    · exact .tail _ (hneed _ hbef)
    · exact .tail _ (h.closed _ hoth _ hbef)

/-- A job that can finish is not waited for by a finished one. -/
theorem Ready.not_finished (hsou : Sound self) {later : Nat} (h : self.Ready job)
    (hwait : self.Waits later job) : later ∉ self.finished :=
  fun hfin => h.2.1 (hwait.finished hsou hfin)

end Jobs

end Wu
