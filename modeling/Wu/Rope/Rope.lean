import Wu.Rope.Chunk

/-!
# Ropes

`Rope` of the `rope` crate, with the tree of its chunks as their list. Text that is pushed fills the last chunk up and is then
cut into chunks between characters; an operation is `none` where the source panics. `push_text`: it never does, and the text of
the rope is what has been pushed.
-/

namespace Wu

open List Option Str

/-- `struct Rope`: the chunks from left to right. -/
structure Rope where
  chunks : List Chunk

namespace Rope

/-- `Rope::new`. -/
def new : Rope := ⟨[]⟩

/-- What `Rope::chunks` iterates over. -/
def chunkTexts (self : Rope) : List Str := self.chunks.map fun chunk => chunk.text.str

/-- The text of a rope: its chunks side by side. -/
def text (self : Rope) : Str := self.chunkTexts.flatten

/-- How many new chunks `push` has room for. -/
def numChunks : Nat := 4

/-- The loop that cuts a text into chunks, as long as it is not empty. -/
def cut : Nat → Str → Option (List Str)
  | _, [] => some []
  | 0, _ :: _ => none
  | fuel + 1, text@(_ :: _) => do
    let splitIx ← Str.seekDown text.isCharBoundary (min maxBase text.len)
    let (chunk, remainder) ← text.splitAt splitIx
    return chunk :: (← cut fuel remainder)

/-- How much of a text the last chunk takes: all that it has room for, or what fills the first half of it. -/
def fillIx (lastChunk : Chunk) (text : Str) : Option Nat :=
  if lastChunk.text.len + text.len ≤ maxBase then some text.len
  else
    let splitIx := min (minBase - lastChunk.text.len) text.len
    Str.seekUp text.isCharBoundary (text.len - splitIx) splitIx

/-- What `push` does to the last chunk, and the text that is left. -/
def fillLast (chunks : List Chunk) (text : Str) : Option (List Chunk × Str) :=
  match chunks.getLast? with
  | none => some (chunks, text)
  | some lastChunk => do
    let splitIx ← fillIx lastChunk text
    let (suffix, remainder) ← text.splitAt splitIx
    return (chunks.dropLast ++ [← lastChunk.pushStr suffix], remainder)

/-- `Rope::push`, with `push_large` for a text that needs more chunks than there is room for. -/
def push (self : Rope) (text : Str) : Option Rope := do
  let (chunks, text) ← fillLast self.chunks text
  if text.isEmpty then return ⟨chunks⟩
  let newChunks ← cut text.length text
  if text.len ≤ numChunks * maxBase - numChunks * 4 ∧ numChunks < newChunks.length then none
  return ⟨chunks ++ (← newChunks.mapM Chunk.new)⟩

/-- `impl From<&str>`. -/
def «from» (text : Str) : Option Rope := new.push text

/-! ## Cutting a text into chunks -/

/-- A text is cut into chunks that are full but for the bytes of a character, up to the last one. -/
theorem cut_spec : ∀ {fuel : Nat} {text : Str}, text.length ≤ fuel →
    ∃ chunks, cut fuel text = some chunks ∧ chunks.flatten = text ∧ (∀ chunk ∈ chunks, chunk.len ≤ maxBase) ∧
      125 * chunks.length ≤ text.len + 124 := by
  intro fuel
  induction fuel with
  | zero =>
    intro text h
    obtain rfl := length_eq_zero_iff.mp (Nat.le_zero.mp h)
    exact ⟨[], rfl, rfl, forall_mem_nil _, by simp⟩
  | succ fuel ih =>
    intro text h
    cases text with
    | nil => exact ⟨[], rfl, rfl, forall_mem_nil _, by simp⟩
    | cons c text =>
      obtain ⟨chunk, rest, hspl, hle, hlt, hseek⟩ := seekDown_boundary (Nat.min_le_right _ (Str.len (c :: text)))
      have hpos := c.utf8Size_pos
      have hsum : Str.len (c :: text) = chunk.len + rest.len := by rw [hspl, len_append]
      have hcut : cut (fuel + 1) (c :: text) = (cut fuel rest).map (chunk :: ·) := by
        rw [cut, hseek]
        simp only [bind_eq_bind, bind_some, hspl, splitAt_append]
        cases cut fuel rest <;> rfl
      rcases Nat.lt_or_ge _ _ with hlong | hfits
      · rw [Nat.min_eq_left (Nat.le_of_lt hlong)] at hle hlt
        have hchun : chunk ≠ [] := by
          rintro rfl
          simp [maxBase] at hlt
        have hrest : rest.length ≤ fuel := by
          have hlen := congrArg List.length hspl
          have := length_pos_iff.mpr hchun
          rw [length_append] at hlen
          omega
        obtain ⟨chunks, hchu, hfla, hfit, hcnt⟩ := ih hrest
        refine ⟨chunk :: chunks, by rw [hcut, hchu]; rfl, by rw [flatten_cons, hfla, hspl], forall_mem_cons.mpr ⟨hle, hfit⟩, ?_⟩
        rw [length_cons]
        unfold maxBase at hlt
        omega
      · -- the rest of the text is one chunk
        rw [Nat.min_eq_right hfits] at hle hlt hseek
        have hwho : rest.len = 0 := by
          by_contra hne
          have hno := seekDown_max hseek (by omega) le_rfl
          rw [isCharBoundary_len] at hno
          nomatch hno
        obtain rfl := Str.len_eq_zero.mp hwho
        rw [append_nil] at hspl
        refine ⟨[chunk], by rw [hcut, cut]; rfl, by simp [hspl], by simpa using hspl ▸ hfits, ?_⟩
        simp
        omega

theorem mapM_new {chunks : List Str} (h : ∀ chunk ∈ chunks, chunk.len ≤ maxBase) :
    ∃ built, chunks.mapM Chunk.new = some built ∧ built.map (fun chunk => chunk.text.str) = chunks := by
  induction chunks with
  | nil => exact ⟨[], rfl, rfl⟩
  | cons chunk chunks ih =>
    obtain ⟨hchun, hchu⟩ := forall_mem_cons.mp h
    obtain ⟨built, hbui, htext⟩ := ih hchu
    refine ⟨Chunk.of ⟨chunk, hchun⟩ :: built, ?_, by rw [map_cons, htext]; rfl⟩
    rw [mapM_cons, Chunk.new_eq, hbui]
    rfl

/-! ## Pushing text -/

theorem pushStr_text {chunk : Chunk} {suffix : Str} (h : chunk.text.len + suffix.len ≤ maxBase) :
    ∃ pushed, chunk.pushStr suffix = some pushed ∧ pushed.text.str = chunk.text.str ++ suffix := by
  have hsuf : suffix.len ≤ maxBase := (Nat.le_add_left ..).trans h
  have hjoin : (chunk.text.str ++ suffix).len ≤ maxBase := by
    rw [len_append]
    exact h
  rw [Chunk.pushStr, Chunk.new_eq _ hsuf, bind_eq_bind, bind_some, Chunk.append]
  split
  · rename_i hemp
    obtain rfl : suffix = [] := List.isEmpty_iff.mp hemp
    exact ⟨chunk, rfl, (append_nil _).symm⟩
  · have hpush : chunk.text.pushStr suffix = some ⟨chunk.text.str ++ suffix, hjoin⟩ := dif_pos _
    exact ⟨_, by simp only [Chunk.asSlice, Chunk.of, hpush, bind_eq_bind, bind_some]; rfl, rfl⟩

/-- The last chunk takes no more of a text than it has room for. -/
theorem fillIx_spec (lastChunk : Chunk) (text : Str) : ∃ suffix rest, text = suffix ++ rest ∧
    fillIx lastChunk text = some suffix.len ∧ lastChunk.text.len + suffix.len ≤ maxBase := by
  have hfits : lastChunk.text.len ≤ maxBase := lastChunk.text.fits
  unfold fillIx
  split
  · rename_i hroom
    exact ⟨text, [], (append_nil _).symm, rfl, hroom⟩
  · have hle := Nat.min_le_right (minBase - lastChunk.text.len) text.len
    rcases Nat.eq_zero_or_pos (minBase - lastChunk.text.len) with hfull | hfree
    · refine ⟨[], text, rfl, ?_, by simpa using hfits⟩
      rw [hfull]
      exact seekUp_eq (isCharBoundary_zero text) (Nat.le_refl 0) (Nat.zero_le _) fun k hk hk' => absurd hk' (by simp)
    · obtain ⟨suffix, rest, rfl, -, hlt, hseek⟩ := seekUp_boundary hle
      refine ⟨suffix, rest, rfl, hseek, ?_⟩
      unfold minBase maxBase at *
      omega

theorem fillLast_spec (chunks : List Chunk) (text : Str) : ∃ filled rest, fillLast chunks text = some (filled, rest) ∧
      (Rope.mk filled).text ++ rest = (Rope.mk chunks).text ++ text := by
  unfold fillLast
  split
  · exact ⟨chunks, text, rfl, rfl⟩
  · rename_i lastChunk hlast
    obtain ⟨front, rfl⟩ := getLast?_eq_some_iff.mp hlast
    obtain ⟨suffix, rest, rfl, hspl, hroom⟩ := fillIx_spec lastChunk text
    obtain ⟨pushed, hpush, htext⟩ := pushStr_text hroom
    refine ⟨front ++ [pushed], rest, ?_, ?_⟩
    · simp only [hspl, bind_eq_bind, bind_some, splitAt_append, hpush, dropLast_concat]
      rfl
    · simp [Rope.text, chunkTexts, htext]

/-- Pushing text never fails, and the text is at the end. -/
theorem push_text (self : Rope) (text : Str) : ∃ rope, self.push text = some rope ∧ rope.text = self.text ++ text := by
  obtain ⟨filled, rest, hfill, hsame⟩ := fillLast_spec self.chunks text
  unfold push
  simp only [hfill, bind_eq_bind, bind_some]
  split
  · rename_i hemp
    rw [List.isEmpty_iff.mp hemp, append_nil] at hsame
    exact ⟨⟨filled⟩, rfl, hsame⟩
  · obtain ⟨chunks, hcut, hfla, hfit, hcnt⟩ := cut_spec (Nat.le_refl rest.length)
    obtain ⟨built, hbui, htext⟩ := mapM_new hfit
    have hroom : ¬ (rest.len ≤ numChunks * maxBase - numChunks * 4 ∧ numChunks < chunks.length) := by
      unfold numChunks maxBase
      omega
    refine ⟨⟨filled ++ built⟩, ?_, ?_⟩
    · simp only [hcut, bind_some, if_neg hroom, hbui]
      rfl
    · rw [← hsame, ← hfla, ← htext]
      simp [Rope.text, chunkTexts]

theorem from_text (text : Str) : ∃ rope, Rope.from text = some rope ∧ rope.text = text := push_text new text

end Rope

end Wu
