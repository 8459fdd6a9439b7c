import Mathlib.Data.List.Basic
import Mathlib.Data.Prod.Lex

/-!
# Lamport timestamps and version vectors

`Lamport`: a timestamp, ordered by its value and then by its replica. `Global`: a version vector, one sequence number for
each replica, with the replicas past the end of the list at `0`. What a vector has observed is `get` for every replica; the
lemmas say what each operation does to `get`. Sequence numbers do not overflow here.
-/

namespace Wu

open List

/-- A unique identifier for each distributed node. -/
@[ext] structure ReplicaId where
  id : Nat
  deriving DecidableEq, Repr

/-- The local replica. -/
def ReplicaId.localReplica : ReplicaId := ⟨0⟩

/-- A Lamport timestamp. -/
structure Lamport where
  value : Nat
  replicaId : ReplicaId
  deriving DecidableEq, Repr

/-- A version vector. -/
@[ext] structure Global where
  values : List Nat
  deriving DecidableEq, Repr

namespace Lamport

/-- Timestamps are compared by value; the replica breaks ties between concurrent events. -/
instance : LinearOrder Lamport :=
  LinearOrder.lift' (fun t => toLex (t.value, t.replicaId.id)) fun a b h => by
    obtain ⟨va, ⟨ia⟩⟩ := a
    obtain ⟨vb, ⟨ib⟩⟩ := b
    simpa using h

theorem lt_iff {a b : Lamport} : a < b ↔ a.value < b.value ∨ a.value = b.value ∧ a.replicaId.id < b.replicaId.id :=
  Prod.Lex.toLex_lt_toLex

theorem lt_of_value_lt {a b : Lamport} (h : a.value < b.value) : a < b := lt_iff.mpr (.inl h)

/-- The smallest timestamp. -/
def min : Lamport := ⟨0, ⟨0⟩⟩

/-- The first timestamp of a replica. -/
def new (replicaId : ReplicaId) : Lamport := ⟨1, replicaId⟩

/-- The next timestamp of a clock, and the clock after it. -/
def tick (clock : Lamport) : Lamport × Lamport := (clock, { clock with value := clock.value + 1 })

/-- The clock moves past the timestamp. -/
def observe (clock timestamp : Lamport) : Lamport := { clock with value := max clock.value timestamp.value + 1 }

@[simp] theorem tick_fst (clock : Lamport) : clock.tick.1 = clock := rfl

@[simp] theorem tick_snd_value (clock : Lamport) : clock.tick.2.value = clock.value + 1 := rfl

@[simp] theorem tick_snd_replicaId (clock : Lamport) : clock.tick.2.replicaId = clock.replicaId := rfl

@[simp] theorem observe_replicaId (clock t : Lamport) : (clock.observe t).replicaId = clock.replicaId := rfl

@[simp] theorem observe_value (clock t : Lamport) : (clock.observe t).value = max clock.value t.value + 1 := rfl

end Lamport

namespace Global

/-- The version that has observed nothing. -/
def new : Global := ⟨[]⟩

/-- The sequence number of a replica. -/
def get (self : Global) (replicaId : ReplicaId) : Nat := self.values.getD replicaId.id 0

/-- The vector with zeros at its end, up to a length. -/
def resize (values : List Nat) (newLen : Nat) : List Nat := values ++ replicate (newLen - values.length) 0

/-- Observe a timestamp. -/
def observe (self : Global) (timestamp : Lamport) : Global :=
  if timestamp.value > 0 then
    let values := resize self.values (timestamp.replicaId.id + 1)
    ⟨values.set timestamp.replicaId.id (max (values.getD timestamp.replicaId.id 0) timestamp.value)⟩
  else self

/-- The entries of `left` with the entry of `right` at the same place, while there is one. -/
def zipEntries (f : Nat → Nat → Nat) : List Nat → List Nat → List Nat
  | left :: ls, right :: rs => f left right :: zipEntries f ls rs
  | ls, _ => ls

/-- Observe all timestamps of the other vector. -/
def join (self other : Global) : Global :=
  ⟨zipEntries max (resize self.values other.values.length) other.values⟩

/-- Whether the vector has observed a timestamp. -/
def observed (self : Global) (timestamp : Lamport) : Bool := self.get timestamp.replicaId ≥ timestamp.value

/-- Whether the vector has observed the other one. -/
def observedAll (self other : Global) : Bool :=
  if self.values.length < other.values.length then false
  else (self.values.zip other.values).all fun entry => entry.1 ≥ entry.2

variable {self : Global} {t : Lamport}

theorem observed_iff : self.observed t = true ↔ t.value ≤ self.get t.replicaId := by
  simp [observed]

theorem observed_eq_false_iff : self.observed t = false ↔ self.get t.replicaId < t.value := by
  simp [observed]

@[simp] theorem get_new (r : ReplicaId) : new.get r = 0 := by simp [new, get]

theorem getD_resize (values : List Nat) (n r : Nat) : (resize values n).getD r 0 = values.getD r 0 := by
  unfold resize
  simp only [getD_eq_getElem?_getD, List.getElem?_append, List.getElem?_replicate]
  split
  · rfl
  · rename_i h
    rw [List.getElem?_eq_none (Nat.le_of_not_lt h)]
    split <;> rfl

theorem length_resize (values : List Nat) (n : Nat) : (resize values n).length = max values.length n := by
  simp only [resize, length_append, length_replicate]
  omega

/-- What a vector has observed after it observes a timestamp. -/
theorem get_observe (self : Global) (t : Lamport) (r : ReplicaId) :
    (self.observe t).get r = if r = t.replicaId then max (self.get r) t.value else self.get r := by
  unfold observe
  by_cases hpos : t.value > 0
  · rw [if_pos hpos]
    have hpad := getD_resize self.values (t.replicaId.id + 1) r.id
    simp only [get, getD_eq_getElem?_getD, List.getElem?_set, length_resize] at hpad ⊢
    by_cases hr : r = t.replicaId
    · subst hr
      rw [if_pos rfl, if_pos rfl, if_pos (by omega), Option.getD_some, hpad]
    · have hid : t.replicaId.id ≠ r.id := fun h => hr (ReplicaId.ext h.symm)
      rw [if_neg hid, if_neg hr, hpad]
  · rw [if_neg hpos]
    split
    · omega
    · rfl

theorem getD_zipEntries {f : Nat → Nat → Nat} (hf : ∀ n, f n 0 = n) (ls rs : List Nat) (hl : rs.length ≤ ls.length)
    (r : Nat) : (zipEntries f ls rs).getD r 0 = f (ls.getD r 0) (rs.getD r 0) := by
  induction ls generalizing rs r with
  | nil =>
    have : rs = [] := length_eq_zero_iff.mp (by simpa using hl)
    subst this
    simp [zipEntries, hf]
  | cons l ls ih =>
    cases rs with
    | nil => simp [zipEntries, hf]
    | cons x rs =>
      cases r with
      | zero => simp [zipEntries]
      | succ r => simpa [zipEntries] using ih rs (by simpa using hl) r

/-- What a vector has observed after a join. -/
theorem get_join (self other : Global) (r : ReplicaId) : (self.join other).get r = max (self.get r) (other.get r) := by
  simp only [join, get]
  rw [getD_zipEntries (fun n => Nat.max_zero n) _ _ (by rw [length_resize]; omega), getD_resize]

/-- A vector observes the other one when it does so entry by entry. -/
theorem observedAll_get {other : Global} (h : self.observedAll other = true) (r : ReplicaId) : other.get r ≤ self.get r := by
  unfold observedAll at h
  split at h
  · nomatch h
  · simp only [get, getD_eq_getElem?_getD]
    by_cases hr : r.id < other.values.length
    · have hr' : r.id < self.values.length := by omega
      have hmem : (self.values[r.id], other.values[r.id]) ∈ self.values.zip other.values := by
        rw [mem_iff_getElem?]
        exact ⟨r.id, by simp [hr, hr']⟩
      have := all_eq_true.mp h _ hmem
      rw [List.getElem?_eq_getElem, List.getElem?_eq_getElem]
      simpa using this
    · rw [List.getElem?_eq_none (by omega)]
      exact Nat.zero_le _

/-- A vector whose last entry is not `0`: every vector that observations and joins build. -/
def Trimmed (self : Global) : Prop := self.values.getLast? ≠ some 0

theorem trimmed_new : new.Trimmed := by simp [Trimmed, new]

/-- A trimmed vector is as short as what it has observed allows. -/
theorem Trimmed.length_le {other : Global} (ht : other.Trimmed) (h : ∀ r, other.get r ≤ self.get r) :
    other.values.length ≤ self.values.length := by
  rcases eq_nil_or_concat other.values with hnil | ⟨init, last, heq⟩
  · simp [hnil]
  · have hlast : last ≠ 0 := by
      intro h0
      subst h0
      exact ht (by simp [heq])
    have hle := h ⟨init.length⟩
    have hget : other.get ⟨init.length⟩ = last := by simp [get, heq]
    by_contra hlt
    have hlen : other.values.length = init.length + 1 := by simp [heq]
    have hz : self.get ⟨init.length⟩ = 0 := by
      unfold get
      rw [getD_eq_getElem?_getD, List.getElem?_eq_none (by simp only; omega)]
      rfl
    omega

/-- A trimmed vector is observed when each of its entries is. -/
theorem Trimmed.observedAll {other : Global} (ht : other.Trimmed) (h : ∀ r, other.get r ≤ self.get r) :
    self.observedAll other = true := by
  have hlen := ht.length_le h
  unfold Global.observedAll
  rw [if_neg (by omega), all_eq_true]
  rintro ⟨a, b⟩ hm
  obtain ⟨r, hr⟩ := mem_iff_getElem?.mp hm
  obtain ⟨ha, hb⟩ := List.getElem?_zip_eq_some.mp hr
  have := h ⟨r⟩
  simp only [get, getD_eq_getElem?_getD] at this
  rw [ha, hb] at this
  simpa using this

/-- For a trimmed vector, the code's test is the order on what is observed. -/
theorem Trimmed.observedAll_iff {other : Global} (ht : other.Trimmed) :
    self.observedAll other = true ↔ ∀ r, other.get r ≤ self.get r :=
  ⟨fun h r => observedAll_get h r, ht.observedAll⟩

theorem Trimmed.observe (ht : self.Trimmed) (t : Lamport) : (self.observe t).Trimmed := by
  unfold Global.observe
  split
  · intro hlast
    rw [getLast?_eq_getElem?, length_set, length_resize, List.getElem?_set] at hlast
    split at hlast
    · split at hlast
      · simp only [Option.some.injEq] at hlast
        omega
      · nomatch hlast
    · rename_i hne
      -- the last entry is one of the old vector's
      have hlen : max self.values.length (t.replicaId.id + 1) = self.values.length := by omega
      rw [hlen, resize, List.getElem?_append_left (by omega), ← getLast?_eq_getElem?] at hlast
      exact ht hlast
  · exact ht

/-- Two trimmed vectors that have observed the same are equal. -/
theorem Trimmed.ext {a b : Global} (ha : a.Trimmed) (hb : b.Trimmed) (h : ∀ r, a.get r = b.get r) : a = b := by
  have hlen : a.values.length = b.values.length :=
    le_antisymm (ha.length_le fun r => (h r).le) (hb.length_le fun r => (h r).ge)
  ext1
  refine ext_getElem hlen fun r hr hr' => ?_
  have := h ⟨r⟩
  simp only [get, getD_eq_getElem?_getD] at this
  rwa [List.getElem?_eq_getElem, List.getElem?_eq_getElem] at this

/-- An observed timestamp stays observed. -/
theorem observed_mono {other : Global} (h : ∀ r, self.get r ≤ other.get r)
    (ht : self.observed t = true) : other.observed t = true := by
  rw [observed_iff] at ht ⊢
  exact ht.trans (h _)

theorem get_le_observe (self : Global) (t : Lamport) (r : ReplicaId) : self.get r ≤ (self.observe t).get r := by
  rw [get_observe]
  split
  · exact le_max_left _ _
  · exact le_rfl

theorem observed_observe_self (self : Global) (t : Lamport) : (self.observe t).observed t = true := by
  rw [observed_iff, get_observe, if_pos rfl]
  exact le_max_right _ _

end Global

end Wu
