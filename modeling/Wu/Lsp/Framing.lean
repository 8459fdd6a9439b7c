import Wu.Strings

/-!
# Messages in a stream of bytes

A message is a header that ends with a blank line and tells how long the body is, and the body. What is read from a stream depends on
its bytes only, and not on the pieces in which they come.
-/

namespace Wu.Lsp

open List

/-! ## Text -/

/-- The character with a code point, where a smaller one would have been encoded in fewer bytes. -/
def charOf (least code : Nat) : Option Char :=
  if code < least then none else if h : code.isValidChar then some (Char.ofNatAux code h) else none

/-- The characters of bytes, where the first `needed` ones go on a character whose code point begins with `code`. -/
def decodeUtf8 (needed least code : Nat) : List UInt8 → Option (List Char)
  | [] => if needed = 0 then some [] else none
  | byte :: rest =>
    let n := byte.toNat
    if needed = 0 then
      if n < 0x80 then (decodeUtf8 0 0 0 rest).map (Char.ofNat n :: ·)
      else if n / 32 = 6 then decodeUtf8 1 0x80 (n % 32) rest
      else if n / 16 = 14 then decodeUtf8 2 0x800 (n % 16) rest
      else if n / 8 = 30 then decodeUtf8 3 0x10000 (n % 8) rest
      else none
    else if n / 64 = 2 then
      let code := code * 64 + n % 64
      if needed = 1 then
        match charOf least code with
        | some char => (decodeUtf8 0 0 0 rest).map (char :: ·)
        | none => none
      else decodeUtf8 (needed - 1) least code rest
    else none

/-- `str::from_utf8`. -/
def fromUtf8 (bytes : List UInt8) : Option (List Char) := decodeUtf8 0 0 0 bytes

example : fromUtf8 [0x61, 0xC3, 0xA9, 0xE2, 0x82, 0xAC] = some ['a', 'é', '€'] := by decide

example : fromUtf8 [0xC0, 0x80] = none := by decide

/-- `str::parse` to a `usize`. -/
def parseUsize (text : List Char) : Option Nat :=
  let digits := match text with
    | '+' :: rest => rest
    | _ => text
  (Strings.parseDigits digits).filter (· < 18446744073709551616)

/-! ## Reading a message -/

def headerDelimiter : List UInt8 := [0x0D, 0x0A, 0x0D, 0x0A]

def contentLenHeader : List Char := "Content-Length: ".toList

/-- What comes of reading: more bytes are needed, or the reader gives up, or there is a value, with what follows it. -/
inductive Reading (α : Type) where
  | pending
  | failed
  | done (value : α) (rest : List UInt8)

/-- `read_headers`: `read_until` appends bytes up to a newline, and after each newline the buffer is looked at. When the stream has
ended, nothing is read any more. -/
def readHeaders (eof : Bool) (buffer : List UInt8) : List UInt8 → Reading (List UInt8)
  | [] => if eof then .failed else .pending
  | byte :: rest =>
    let buffer := buffer ++ [byte]
    if byte = 0x0A ∧ headerDelimiter <:+ buffer then .done buffer rest else readHeaders eof buffer rest

/-- How long the header says that the body is. -/
def contentLength (header : List UInt8) : Option Nat := do
  let headers ← fromUtf8 header
  let line ← (headers.splitOn '\n').find? (contentLenHeader.isPrefixOf ·)
  let value := line.drop contentLenHeader.length
  parseUsize (value.reverse.dropWhile Strings.isWhitespace).reverse

/-- A turn of the reader's loop: the header, and then as many bytes as it says. -/
def readMessage (eof : Bool) (input : List UInt8) : Reading (List UInt8) :=
  match readHeaders eof [] input with
  | .done header rest =>
    match contentLength header with
    | some messageLen =>
      if messageLen ≤ rest.length then .done (rest.take messageLen) (rest.drop messageLen)
      else if eof then .failed else .pending
    | none => .failed
  | .failed => .failed
  | .pending => .pending

/-! ## Frames -/

/-- The header of a body of a length: it ends with the first blank line, and says the length. -/
structure IsHeader (header : List UInt8) (length : Nat) : Prop where
  ends : headerDelimiter <:+ header
  first : ∀ shorter, shorter <+: header → headerDelimiter <:+ shorter → shorter = header
  length : contentLength header = some length

/-- A stream is messages one after another, with the given bodies, and a rest. -/
inductive Framed : List UInt8 → List (List UInt8) → List UInt8 → Prop
  | nil (rest : List UInt8) : Framed rest [] rest
  | cons {header body stream : List UInt8} {bodies : List (List UInt8)} {rest : List UInt8} :
      IsHeader header body.length → Framed stream bodies rest → Framed (header ++ body ++ stream) (body :: bodies) rest

variable {stream body input : List UInt8} {bodies : List (List UInt8)} {eof : Bool}

theorem Framed.extend {rest : List UInt8} (h : Framed stream bodies rest)
    (piece : List UInt8) : Framed (stream ++ piece) bodies (rest ++ piece) := by
  induction h with
  | nil rest => exact .nil _
  | cons hhead _ ih =>
    rw [append_assoc]
    exact .cons hhead ih

theorem Framed.snoc {header more : List UInt8}
    (h : Framed stream bodies (header ++ body ++ more)) (hhead : IsHeader header body.length) :
    Framed stream (bodies ++ [body]) more := by
  generalize hrest : header ++ body ++ more = rest at h
  induction h with
  | nil rest =>
    rw [← hrest]
    exact .cons hhead (.nil more)
  | cons hfst _ ih => exact .cons hfst (ih hrest)

/-! ## What is read is what was framed -/

theorem newline_of_ends {buffer : List UInt8} {byte : UInt8} (h : headerDelimiter <:+ buffer ++ [byte]) : byte = 0x0A := by
  obtain ⟨before, hbef⟩ := h
  have hspl : (before ++ [0x0D, 0x0A, 0x0D]) ++ [0x0A] = buffer ++ [byte] := by
    rw [append_assoc]
    exact hbef
  exact (List.cons.inj (append_inj_right' hspl rfl)).1.symm

theorem readHeaders_cons (eof : Bool) (buffer : List UInt8) (byte : UInt8) (rest : List UInt8) :
    readHeaders eof buffer (byte :: rest) =
      if headerDelimiter <:+ buffer ++ [byte] then .done (buffer ++ [byte]) rest else readHeaders eof (buffer ++ [byte]) rest := by
  by_cases hends : headerDelimiter <:+ buffer ++ [byte]
  · rw [if_pos hends]
    exact if_pos ⟨newline_of_ends hends, hends⟩
  · rw [if_neg hends]
    exact if_neg fun h => hends h.2

/-- Headers that are read end with the first blank line after what was in the buffer. -/
theorem readHeaders_sound {buffer header rest : List UInt8} (h : readHeaders eof buffer input = .done header rest) :
    ∃ read, read ≠ [] ∧ input = read ++ rest ∧ header = buffer ++ read ∧ headerDelimiter <:+ header ∧
      ∀ shorter, buffer <+: shorter → shorter ≠ buffer → shorter <+: header → headerDelimiter <:+ shorter → shorter = header := by
  induction input generalizing buffer with
  | nil =>
    unfold readHeaders at h
    split at h <;> nomatch h
  | cons byte input ih =>
    rw [readHeaders_cons] at h
    split at h
    · rename_i hends
      obtain ⟨rfl, rfl⟩ := Reading.done.inj h
      refine ⟨[byte], cons_ne_nil _ _, rfl, rfl, hends, ?_⟩
      intro shorter hbuf hne hshr _
      refine hshr.eq_of_length_le ?_
      have hlen : buffer.length < shorter.length := by
        refine Nat.lt_of_le_of_ne hbuf.length_le fun heq => hne ?_
        exact (hbuf.eq_of_length heq).symm
      rw [length_append]
      exact hlen
    · rename_i hends
      obtain ⟨read, -, rfl, rfl, hdel, hfst⟩ := ih h
      refine ⟨byte :: read, cons_ne_nil _ _, rfl, by rw [append_assoc]; rfl, hdel, ?_⟩
      intro shorter hbuf hne hshr hshrE
      have hlgr : buffer ++ [byte] <+: shorter := by
        refine prefix_of_prefix_length_le (prefix_append _ _) hshr ?_
        have hlen : buffer.length < shorter.length := by
          refine Nat.lt_of_le_of_ne hbuf.length_le fun heq => hne ?_
          exact (hbuf.eq_of_length heq).symm
        rw [length_append]
        exact hlen
      refine hfst _ hlgr ?_ hshr hshrE
      rintro rfl
      exact hends hshrE

/-- A header is read up to its end. -/
theorem readHeaders_complete {buffer read rest : List UInt8} (hread : read ≠ []) (hends : headerDelimiter <:+ buffer ++ read)
    (hfst : ∀ shorter, shorter <+: buffer ++ read → headerDelimiter <:+ shorter → shorter = buffer ++ read) :
    readHeaders eof buffer (read ++ rest) = .done (buffer ++ read) rest := by
  induction read generalizing buffer with
  | nil => exact absurd rfl hread
  | cons byte read ih =>
    rw [cons_append, readHeaders_cons]
    have hspl : buffer ++ byte :: read = buffer ++ [byte] ++ read := by
      rw [append_assoc]
      rfl
    split
    · rename_i hear
      have heq := hfst _ ⟨read, by rw [hspl]⟩ hear
      have hnil : read = [] := by
        rw [hspl] at heq
        exact self_eq_append_right.mp heq
      rw [hnil]
      rfl
    · rename_i hear
      rw [hspl] at hends hfst ⊢
      refine ih ?_ hends hfst
      rintro rfl
      rw [append_nil] at hends
      exact hear hends

/-- A message that is read was framed. -/
theorem readMessage_sound {rest : List UInt8} (h : readMessage eof input = .done body rest) :
    ∃ header, input = header ++ body ++ rest ∧ IsHeader header body.length := by
  unfold readMessage at h
  split at h
  · rename_i header more hhea
    obtain ⟨header, -, rfl, rfl, hends, hfst⟩ := readHeaders_sound hhea
    split at h
    · rename_i messageLen hlen
      split at h
      · rename_i heno
        obtain ⟨rfl, rfl⟩ := Reading.done.inj h
        refine ⟨header, by rw [append_assoc, take_append_drop], hends, ?_, ?_⟩
        · intro shorter hshr hshrE
          refine hfst _ (List.nil_prefix) ?_ hshr hshrE
          rintro rfl
          nomatch hshrE.length_le
        · rw [length_take, Nat.min_eq_left heno]
          exact hlen
      · split at h <;> nomatch h
    · nomatch h
  · nomatch h
  · nomatch h

/-- A framed message at the front is read. -/
theorem readMessage_complete {header rest : List UInt8} (hhead : IsHeader header body.length) :
    readMessage eof (header ++ body ++ rest) = .done body rest := by
  have hne : header ≠ [] := by
    rintro rfl
    nomatch hhead.ends.length_le
  have hhea : readHeaders eof [] (header ++ (body ++ rest)) = .done ([] ++ header) (body ++ rest) :=
    readHeaders_complete hne hhead.ends hhead.first
  unfold readMessage
  rw [append_assoc, hhea]
  dsimp only [nil_append]
  rw [hhead.length]
  dsimp only
  rw [if_pos (by rw [length_append]; exact Nat.le_add_right _ _), take_left, drop_left]

/-- What is read is shorter than what it was read from. -/
theorem readMessage_shorter {rest : List UInt8} (h : readMessage eof input = .done body rest) : rest.length < input.length := by
  obtain ⟨header, rfl, hhead⟩ := readMessage_sound h
  have hlen := hhead.ends.length_le
  rw [length_append, length_append]
  change 4 ≤ header.length at hlen
  omega

end Wu.Lsp
