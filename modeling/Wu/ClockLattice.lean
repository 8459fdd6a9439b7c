import Mathlib.Data.List.Induction
import Wu.Clock

/-!
# Version vectors form a lattice

The tests and the operations of `clock::Global` in terms of what a vector has observed of each replica. The tests rely on the
lengths of the vectors: every vector that observations, joins and meets build is trimmed, so they say what they should.
-/

namespace Wu.Global

open List Global

/-- The larger number where both replicas have been observed, the other one where one has not. -/
def meetEntry (left right : Nat) : Nat := if left = 0 then right else if right = 0 then left else min left right

/-- The counter of the loop in `meet`: one more than the index of the last entry that is not `0`. -/
def countNewLen : Nat → Nat → List Nat → Nat
  | _, newLen, [] => newLen
  | ix, newLen, left :: rest => countNewLen (ix + 1) (if left ≠ 0 then ix + 1 else newLen) rest

/-- `Global::meet`: entries that are not observed are those of the other vector, and observed ones the smaller of the two. The
vector is cut off behind the last entry that is not `0`, unless it is longer than the other one. -/
def meet (self other : Global) : Global :=
  let values := zipEntries meetEntry (resize self.values other.values.length) other.values
  let newLen := countNewLen 0 0 (values.take other.values.length)
  if other.values.length = values.length then ⟨values.take newLen⟩ else ⟨values⟩

/-- `Global::observed_any`. -/
def observedAny (self other : Global) : Bool :=
  (self.values.zip other.values).any fun entry => entry.2 > 0 && entry.1 ≥ entry.2

/-- `Global::changed_since`. -/
def changedSince (self other : Global) : Bool :=
  self.values.length > other.values.length || (self.values.zip other.values).any fun entry => entry.1 > entry.2

/-! ## What a meet has observed -/

@[simp] theorem meetEntry_zero (n : Nat) : meetEntry n 0 = n := by grind [meetEntry]

theorem meetEntry_comm (a b : Nat) : meetEntry a b = meetEntry b a := by grind [meetEntry]

theorem meetEntry_assoc (a b c : Nat) : meetEntry (meetEntry a b) c = meetEntry a (meetEntry b c) := by grind [meetEntry]

theorem meetEntry_self (a : Nat) : meetEntry a a = a := by grind [meetEntry]

theorem countNewLen_concat (ix newLen last : Nat) (values : List Nat) : countNewLen ix newLen (values ++ [last]) =
      if last ≠ 0 then ix + values.length + 1 else countNewLen ix newLen values := by
  induction values generalizing ix newLen with
  | nil => rfl
  | cons value values ih =>
    rw [cons_append, countNewLen, countNewLen]
    grind

/-- Cutting off zeros changes no entry, and leaves none at the end. -/
theorem take_countNewLen (values : List Nat) :
    countNewLen 0 0 values ≤ values.length ∧ (values.take (countNewLen 0 0 values)).getLast? ≠ some 0 ∧
      ∀ r, (values.take (countNewLen 0 0 values)).getD r 0 = values.getD r 0 := by
  induction values using reverseRecOn with
  | nil => simp [countNewLen]
  | append_singleton values last ih =>
    obtain ⟨hle, hlast, hget⟩ := ih
    rw [countNewLen_concat]
    split
    · rename_i hne
      rw [take_of_length_le (by simp)]
      refine ⟨by simp, by simpa using hne, fun r => rfl⟩
    · rename_i hzero
      obtain rfl : last = 0 := not_not.mp hzero
      rw [take_append_of_le_length hle]
      refine ⟨by rw [length_append]; omega, hlast, fun r => ?_⟩
      rw [hget]
      exact (getD_resize _ (values.length + 1) r).symm.trans (by simp [resize])

theorem length_zipEntries (f : Nat → Nat → Nat) (ls rs : List Nat) : (zipEntries f ls rs).length = ls.length := by
  induction ls generalizing rs with
  | nil => cases rs <;> rfl
  | cons l ls ih =>
    cases rs with
    | nil => rfl
    | cons r rs => rw [zipEntries, length_cons, length_cons, ih]

variable {a b c self other : Global}

/-- What a vector has observed after a meet. -/
theorem get_meet (self other : Global) (r : ReplicaId) : (self.meet other).get r = meetEntry (self.get r) (other.get r) := by
  have hzip : (zipEntries meetEntry (resize self.values other.values.length) other.values).getD r.id 0 =
      meetEntry (self.get r) (other.get r) := by
    rw [getD_zipEntries meetEntry_zero _ _ (by rw [length_resize]; omega), getD_resize]
    rfl
  unfold meet
  dsimp only
  split
  · rename_i hlen
    rw [take_of_length_le hlen.ge, ← hzip]
    exact (take_countNewLen _).2.2 r.id
  · exact hzip

/-! ## Trimmed vectors -/

/-- Past the end of the shorter list the entries are those of the longer one. -/
theorem getLast?_zipEntries {f : Nat → Nat → Nat} {ls rs : List Nat} (h : rs.length < ls.length) :
    (zipEntries f ls rs).getLast? = ls.getLast? := by
  induction ls generalizing rs with
  | nil => nomatch h
  | cons l ls ih =>
    cases rs with
    | nil => rfl
    | cons r rs =>
      have hlt : rs.length < ls.length := Nat.lt_of_succ_lt_succ h
      have hne : ls ≠ [] := ne_nil_of_length_pos (by omega)
      have hne' : zipEntries f ls rs ≠ [] := ne_nil_of_length_pos (by rw [length_zipEntries]; omega)
      rw [zipEntries, List.getLast?_cons_of_ne_nil hne', List.getLast?_cons_of_ne_nil hne, ih hlt]

theorem resize_of_le {values : List Nat} {n : Nat} (h : n ≤ values.length) : resize values n = values := by
  rw [resize, Nat.sub_eq_zero_of_le h, replicate_zero, append_nil]

theorem Trimmed.meet (ha : self.Trimmed) (other : Global) : (self.meet other).Trimmed := by
  unfold Global.meet Trimmed
  dsimp only
  split
  · rename_i hlen
    rw [take_of_length_le hlen.ge]
    exact (take_countNewLen _).2.1
  · rename_i hne
    rw [length_zipEntries, length_resize] at hne
    have hlt : other.values.length < self.values.length := by omega
    rw [resize_of_le hlt.le]
    simp only [getLast?_zipEntries hlt]
    exact ha

/-- A vector is trimmed when it ends at an entry that is observed. -/
theorem trimmed_of_get (h : self.values ≠ [] → 0 < self.get ⟨self.values.length - 1⟩) : self.Trimmed := by
  intro hlast
  have hne : self.values ≠ [] := by
    rintro hnil
    rw [hnil] at hlast
    nomatch hlast
  have hpos := h hne
  rw [List.getLast?_eq_getElem?] at hlast
  rw [get, getD_eq_getElem?_getD, hlast] at hpos
  exact absurd hpos (lt_irrefl 0)

/-- The last entry of a trimmed vector is observed. -/
theorem Trimmed.get_last (h : self.Trimmed) (hne : self.values ≠ []) : 0 < self.get ⟨self.values.length - 1⟩ := by
  rw [get, getD_eq_getElem?_getD, ← List.getLast?_eq_getElem?]
  have hlast : self.values.getLast? = some (self.values.getLast hne) := List.getLast?_eq_some_getLast hne
  rw [hlast, Option.getD_some]
  refine Nat.pos_of_ne_zero fun hzero => h ?_
  rw [hlast, hzero]

theorem Trimmed.join (ha : self.Trimmed) (hb : other.Trimmed) : (self.join other).Trimmed := by
  have hlen : (self.join other).values.length = max self.values.length other.values.length := by
    rw [Global.join, length_zipEntries, length_resize]
  refine trimmed_of_get fun hne => ?_
  rw [get_join, hlen]
  rw [← length_pos_iff, hlen] at hne
  rcases Nat.le_total _ _ with hle | hle
  · rw [max_eq_right hle] at hne ⊢
    exact (hb.get_last (length_pos_iff.mp hne)).trans_le (le_max_right _ _)
  · rw [max_eq_left hle] at hne ⊢
    exact (ha.get_last (length_pos_iff.mp hne)).trans_le (le_max_left _ _)

/-- The vectors that the operations build. -/
inductive Reachable : Global → Prop
  | new : Reachable new
  | observe {self : Global} (h : Reachable self) (timestamp : Lamport) : Reachable (self.observe timestamp)
  | join {self other : Global} (h : Reachable self) (hother : Reachable other) : Reachable (self.join other)
  | meet {self other : Global} (h : Reachable self) (hother : Reachable other) : Reachable (self.meet other)

theorem Reachable.trimmed (h : Reachable self) : self.Trimmed := by
  induction h with
  | new => exact trimmed_new
  | observe _ timestamp ih => exact ih.observe _
  | join _ _ ih ihother => exact ih.join ihother
  | meet _ _ ih _ => exact ih.meet _

/-! ## The tests -/

/-- An entry of both vectors. -/
theorem mem_zip_iff {left right : Nat} : (left, right) ∈ self.values.zip other.values ↔
      ∃ r : ReplicaId, r.id < self.values.length ∧ r.id < other.values.length ∧ self.get r = left ∧ other.get r = right := by
  rw [mem_iff_getElem?]
  simp only [List.getElem?_zip_eq_some, get, getD_eq_getElem?_getD]
  constructor
  · rintro ⟨r, hl, hr⟩
    exact ⟨⟨r⟩, (List.getElem?_eq_some_iff.mp hl).1, (List.getElem?_eq_some_iff.mp hr).1, by rw [hl]; rfl, by rw [hr]; rfl⟩
  · rintro ⟨⟨r⟩, hlen, hlen', rfl, rfl⟩
    exact ⟨r, by simp [hlen], by simp [hlen']⟩

theorem lt_length_of_get_pos {r : ReplicaId} (h : 0 < self.get r) : r.id < self.values.length := by
  by_contra hge
  rw [get, getD_eq_getElem?_getD, List.getElem?_eq_none (Nat.le_of_not_lt hge)] at h
  exact absurd h (lt_irrefl 0)

theorem observedAny_iff : self.observedAny other = true ↔ ∃ r, 0 < other.get r ∧ other.get r ≤ self.get r := by
  unfold observedAny
  rw [any_eq_true]
  simp only [Prod.exists, mem_zip_iff, Bool.and_eq_true, decide_eq_true_eq]
  constructor
  · rintro ⟨-, -, ⟨r, -, -, rfl, rfl⟩, hpos, hle⟩
    exact ⟨r, hpos, hle⟩
  · rintro ⟨r, hpos, hle⟩
    exact ⟨_, _, ⟨r, lt_length_of_get_pos (hpos.trans_le hle), lt_length_of_get_pos hpos, rfl, rfl⟩, hpos, hle⟩

theorem Trimmed.changedSince_iff (h : self.Trimmed) : self.changedSince other = true ↔ ∃ r, other.get r < self.get r := by
  unfold changedSince
  rw [Bool.or_eq_true, any_eq_true]
  simp only [Prod.exists, mem_zip_iff, decide_eq_true_eq]
  constructor
  · rintro (hlen | ⟨-, -, ⟨r, -, -, rfl, rfl⟩, hlt⟩)
    · -- the last entry of the longer vector
      have hpos := h.get_last (ne_nil_of_length_pos (Nat.zero_lt_of_lt hlen))
      refine ⟨_, lt_of_le_of_lt ?_ hpos⟩
      rw [get, getD_eq_getElem?_getD, List.getElem?_eq_none (by simp only; omega)]
      exact le_rfl
    · exact ⟨r, hlt⟩
  · rintro ⟨r, hlt⟩
    have hself := lt_length_of_get_pos (Nat.zero_lt_of_lt hlt)
    by_cases hlen : self.values.length > other.values.length
    · exact .inl hlen
    · exact .inr ⟨_, _, ⟨r, hself, by omega, rfl, rfl⟩, hlt⟩

/-- What the tests of two vectors say, entry by entry. -/
structure Pointwise (a b : Global) : Prop where
  eq_iff : a = b ↔ ∀ r, a.get r = b.get r
  observedAll_iff : a.observedAll b = true ↔ ∀ r, b.get r ≤ a.get r
  observedAny_iff : a.observedAny b = true ↔ ∃ r, 0 < b.get r ∧ b.get r ≤ a.get r
  changedSince_iff : a.changedSince b = true ↔ ∃ r, b.get r < a.get r

theorem Trimmed.pointwise (ha : a.Trimmed) (hb : b.Trimmed) : Pointwise a b where
  eq_iff := ⟨fun h r => by rw [h], ha.ext hb⟩
  observedAll_iff := hb.observedAll_iff
  observedAny_iff := observedAny_iff
  changedSince_iff := ha.changedSince_iff

/-! ## The operations -/

/-- A join is the least vector that has observed two others. -/
structure LeastUpperBound (a b c : Global) : Prop where
  left : (a.join b).observedAll a = true
  right : (a.join b).observedAll b = true
  least : c.observedAll a = true → c.observedAll b = true → c.observedAll (a.join b) = true
  assoc : (a.join b).join c = a.join (b.join c)
  comm : a.join b = b.join a
  idem : a.join a = a

theorem Trimmed.leastUpperBound (ha : a.Trimmed) (hb : b.Trimmed) (hc : c.Trimmed) : LeastUpperBound a b c where
  left := ha.observedAll fun r => by rw [get_join]; exact le_max_left _ _
  right := hb.observedAll fun r => by rw [get_join]; exact le_max_right _ _
  least hleft hrt := (ha.join hb).observedAll fun r => by
    rw [get_join]
    exact max_le (observedAll_get hleft r) (observedAll_get hrt r)
  assoc := ((ha.join hb).join hc).ext (ha.join (hb.join hc)) fun r => by simp only [get_join, max_assoc]
  comm := (ha.join hb).ext (hb.join ha) fun r => by rw [get_join, get_join, max_comm]
  idem := (ha.join ha).ext ha fun r => by rw [get_join, max_self]

/-- A meet is the minimum, in which a replica that one vector has not observed is as the other one has it. -/
structure UnconstrainedMinimum (a b c : Global) : Prop where
  get_meet : ∀ r, (a.meet b).get r = if a.get r = 0 then b.get r else if b.get r = 0 then a.get r else min (a.get r) (b.get r)
  assoc : (a.meet b).meet c = a.meet (b.meet c)
  comm : a.meet b = b.meet a
  idem : a.meet a = a

theorem Trimmed.unconstrainedMinimum (ha : a.Trimmed) (hb : b.Trimmed) : UnconstrainedMinimum a b c where
  get_meet := get_meet a b
  assoc := ((ha.meet b).meet c).ext (ha.meet _) fun r => by simp only [get_meet, meetEntry_assoc]
  comm := (ha.meet b).ext (hb.meet a) fun r => by rw [get_meet, get_meet, meetEntry_comm]
  idem := (ha.meet a).ext ha fun r => by rw [get_meet, meetEntry_self]

end Wu.Global
