import Wu.Language.FileContent
import Wu.Readers
import Wu.Text.LineEnding

/-!
# Decoding a file while it is read

A file that is plain UTF-8 is decoded block by block and put into a rope, without ever being in memory as a whole. Whatever the pieces in
which the file is read, what comes out is the same as when the whole content is decoded and its line endings are normalized.
-/

namespace Wu.Worktree.DecodeStream

open List LineEnding Str Utf8

open Language.FileContent

/-! ## Reading and decoding -/

def streamBlockBytes : Nat := 1024 * 1024

def readFileHeader (file : Reader) : List UInt8 × Bool × Reader :=
  file.readUpTo fileAnalysisBytes (fun _ => fileAnalysisBytes) []

/-- A block of `read_file_to_end`. -/
def readBlock (file : Reader) : List UInt8 × Bool × Reader := file.readUpTo streamBlockBytes (streamBlockBytes - ·) []

theorem readBlock_hasRead (file : Reader) : Reader.HasRead streamBlockBytes file [] (readBlock file) :=
  Reader.hasRead _ _ file []

def readFileToEnd (file : Reader) (content : List UInt8) : List UInt8 :=
  if (readBlock file).1 = [] then content
  else if (readBlock file).1.length < streamBlockBytes then content ++ (readBlock file).1
  else readFileToEnd (readBlock file).2.2 (content ++ (readBlock file).1)
termination_by file.rest.length
decreasing_by exact (readBlock_hasRead file).length_lt ‹_›

def decodeByteHeader (header : List UInt8) : Option Encoding × ByteContent :=
  match Encoding.forBom header with
  | some (encoding, _) => (some encoding, .unknown)
  | none => (none, analyzeByteContent header)

def decodeFileText (legacy : Legacy) (file : Reader) : Except DecodeError DecodedText :=
  let (header, reachedEof, rest) := readFileHeader file
  if (decodeByteHeader header).2 = .binary then .error .binary
  else decodeText legacy (if reachedEof then header else readFileToEnd rest header)

/-- The loop of `push_normalized`: `pending` is the text since the last carriage return. -/
def normalizeInto (scratch pending : Str) : Str → Str
  | [] => scratch ++ pending
  | [c] => if c = '\r' then scratch ++ pending ++ ['\n'] else scratch ++ (pending ++ [c])
  | c :: next :: rest =>
    if c = '\r' then
      if next = '\n' then normalizeInto (scratch ++ pending ++ ['\n']) [] rest
      else normalizeInto (scratch ++ pending ++ ['\n']) [] (next :: rest)
    else normalizeInto scratch (pending ++ [c]) (next :: rest)

def pushNormalized (rope : Rope) (text : Str) : Option Rope :=
  if '\r' ∈ text then rope.push (normalizeInto [] [] text) else rope.push text

/-- How much of `pending` is complete UTF-8, or `none` where the file is not UTF-8. -/
def validLen (pending : List UInt8) (eof : Bool) : Option Nat :=
  match Utf8.fromUtf8 pending with
  | .ok _ => some pending.length
  | .error error => if error.errorLen = none ∧ eof = false then some error.validUpTo else none

/-- A carriage return at the end waits until it is known what follows it. -/
def emitLen (pending : List UInt8) (eof : Bool) (validLen : Nat) : Nat :=
  if eof = false ∧ 0 < validLen ∧ pending[validLen - 1]? = some 13 then validLen - 1 else validLen

/-- What comes of streaming: the file is not plain UTF-8, or a rope. -/
inductive Streamed where
  | notUtf8
  | done (rope : Rope) (lineEnding : LineEnding)

/-- The line ending of the first text that is not empty. -/
def detectFirst (default : LineEnding) (lineEnding : Option LineEnding) (text : Str) : Option (Option LineEnding) :=
  if lineEnding = none ∧ text ≠ [] then (detect default text).map some else some lineEnding

/-- Fills `pending` up to a block. -/
def fill (file : Reader) (pending : List UInt8) (eof : Bool) : List UInt8 × Bool × Reader :=
  if eof then (pending, true, file) else file.readUpTo streamBlockBytes (fun _ => streamBlockBytes) pending

/-- What a turn does with the bytes at hand: it panics, or the file is not plain UTF-8, or text goes into the rope. -/
def emit (default : LineEnding) (rope : Rope) (lineEnding : Option LineEnding) (pending : List UInt8) (eof : Bool) :
    Option (Option (Rope × Option LineEnding × List UInt8)) :=
  match validLen pending eof with
  | none => some none
  | some validLen =>
    match Utf8.fromUtf8 (pending.take (emitLen pending eof validLen)) with
    | .error _ => none
    | .ok text =>
      if '\x1b' ∈ text then some none
      else do
        let lineEnding ← detectFirst default lineEnding text
        let rope ← pushNormalized rope text
        return some (rope, lineEnding, pending.drop (emitLen pending eof validLen))

/-- The loop of `stream_utf8_into_rope`, or `none` where it panics, or when it has not ended after `fuel` turns. -/
def streamUtf8IntoRope (default : LineEnding) : Nat → Reader → Rope → Option LineEnding → List UInt8 → Bool → Option Streamed
  | 0, _, _, _, _, _ => none
  | fuel + 1, file, rope, lineEnding, pending, eof =>
    let filled := fill file pending eof
    match emit default rope lineEnding filled.1 filled.2.1 with
    | none => none
    | some none => some .notUtf8
    | some (some (rope, lineEnding, pending)) =>
      if filled.2.1 then if pending = [] then some (.done rope (lineEnding.getD default)) else some .notUtf8
      else streamUtf8IntoRope default fuel filled.2.2 rope lineEnding pending filled.2.1

/-- A file that has been opened. -/
structure Opened where
  rope : Rope
  lineEnding : LineEnding
  encoding : Encoding
  hasBom : Bool

/-- Decodes the whole file, and makes a rope of it. -/
def decodeAtOnce (legacy : Legacy) (default : LineEnding) (file : Reader) : Option (Except DecodeError Opened) :=
  match decodeFileText legacy file with
  | .error error => some (.error error)
  | .ok decoded => do
    let lineEnding ← detect default decoded.text
    let rope ← Rope.from (LineEnding.normalize decoded.text)
    return .ok ⟨rope, lineEnding, decoded.encoding, decoded.hasBom⟩

/-- `decode_file_text_to_rope`, which may open the file twice. -/
def decodeFileTextToRope (legacy : Legacy) (default : LineEnding) (fuel : Nat) (file again : Reader) :
    Option (Except DecodeError Opened) :=
  let (header, reachedEof, rest) := readFileHeader file
  let (bomEncoding, byteContent) := decodeByteHeader header
  if byteContent = .binary then some (.error .binary)
  else if bomEncoding = none ∧ byteContent = .unknown then
    match streamUtf8IntoRope default fuel rest Rope.new none header reachedEof with
    | none => none
    | some (.done rope lineEnding) => some (.ok ⟨rope, lineEnding, .utf8, false⟩)
    | some .notUtf8 => decodeAtOnce legacy default again
  else decodeAtOnce legacy default again

/-! ## Decoding the whole content -/

/-- What is looked at of an opened file: its text, line ending, encoding and mark. -/
def Opened.view (self : Opened) : Str × LineEnding × Encoding × Bool :=
  (self.rope.text, self.lineEnding, self.encoding, self.hasBom)

/-- The whole content is decoded, then the line ending is detected and the text normalized. -/
def decodeWhole (legacy : Legacy) (default : LineEnding) (content : List UInt8) :
    Except DecodeError (Option (Str × LineEnding × Encoding × Bool)) :=
  (decodeText legacy content).map fun decoded =>
    (detect default decoded.text).map fun lineEnding =>
      (LineEnding.normalize decoded.text, lineEnding, decoded.encoding, decoded.hasBom)

/-! ## The beginning of a file -/

theorem readFileToEnd_eq (file : Reader) (content : List UInt8) : readFileToEnd file content = content ++ file.rest := by
  fun_induction readFileToEnd file content with
  | case1 file content hnil =>
    have hread := readBlock_hasRead file
    have hrest : file.rest = [] := by
      cases hended : (readBlock file).2.1 with
      | true =>
        have happ := hread.append
        rw [hnil, hread.ended hended] at happ
        exact happ.symm
      | false =>
        have heno := hread.enough hended
        rw [hnil] at heno
        exact absurd heno (by decide)
    rw [hrest, append_nil]
  | case2 file content hne hlt =>
    have hread := readBlock_hasRead file
    have hrest : (readBlock file).2.2.rest = [] := by
      cases hended : (readBlock file).2.1 with
      | true => exact hread.ended hended
      | false => exact absurd hlt (Nat.not_lt_of_le (hread.enough hended))
    have happ := hread.append
    rw [hrest, append_nil, nil_append] at happ
    rw [happ]
  | case3 file content hne hlt ih =>
    have happ := (readBlock_hasRead file).append
    rw [nil_append] at happ
    rw [ih, append_assoc, happ]

/-- The header is the whole file, or long enough to be looked at. -/
structure IsHeader (header : List UInt8) (reachedEof : Bool) (rest : List UInt8) : Prop where
  ended : reachedEof = true → rest = []
  enough : reachedEof = false → fileAnalysisBytes ≤ header.length

theorem readFileHeader_spec (file : Reader) : (readFileHeader file).1 ++ (readFileHeader file).2.2.rest = file.rest ∧
      IsHeader (readFileHeader file).1 (readFileHeader file).2.1 (readFileHeader file).2.2.rest := by
  have hread := Reader.hasRead fileAnalysisBytes (fun _ => fileAnalysisBytes) file []
  exact ⟨hread.append, hread.ended, hread.enough⟩

theorem isPrefixOf_append {mark header : List UInt8} (h : mark.length ≤ header.length) (rest : List UInt8) :
    mark.isPrefixOf (header ++ rest) = mark.isPrefixOf header := by
  rw [Bool.eq_iff_iff, isPrefixOf_iff_prefix, isPrefixOf_iff_prefix]
  exact ⟨fun hpre => prefix_of_prefix_length_le hpre (prefix_append _ _) h, fun hpre => hpre.trans (prefix_append _ _)⟩

section

variable {header : List UInt8} (h : fileAnalysisBytes ≤ header.length) (rest : List UInt8)
include h rest

theorem forBom_append : Encoding.forBom (header ++ rest) = Encoding.forBom header := by
  have hmark : ∀ encoding : Encoding, encoding.mark.length ≤ header.length := by
    intro encoding
    have hle : encoding.mark.length ≤ 3 := by cases encoding <;> exact Nat.le_of_ble_eq_true rfl
    exact hle.trans (le_trans (by decide) h)
  rw [Encoding.forBom, Encoding.forBom, isPrefixOf_append (hmark _), isPrefixOf_append (hmark _), isPrefixOf_append (hmark _)]

theorem isKnownBinaryHeader_append : isKnownBinaryHeader (header ++ rest) = isKnownBinaryHeader header := by
  have hsho : ∀ known ∈ knownBinaryHeaders, known.length ≤ fileAnalysisBytes := by decide
  rw [isKnownBinaryHeader, isKnownBinaryHeader, Bool.eq_iff_iff, any_eq_true, any_eq_true]
  refine exists_congr fun known => and_congr_right fun hkno => ?_
  rw [isPrefixOf_append ((hsho _ hkno).trans h)]

theorem analyzeByteContent_append : analyzeByteContent (header ++ rest) = analyzeByteContent header := by
  have hlt : ¬header.length < 2 := by
    have hbyte : fileAnalysisBytes = 1024 := rfl
    omega
  have hlt' : ¬(header ++ rest).length < 2 := by
    rw [length_append]
    omega
  have hlim : min (header ++ rest).length fileAnalysisBytes = min header.length fileAnalysisBytes := by
    rw [length_append]
    omega
  have hsam : (header ++ rest).take (min header.length fileAnalysisBytes) = header.take (min header.length fileAnalysisBytes) :=
    take_append_of_le_length (Nat.min_le_left _ _)
  unfold analyzeByteContent
  rw [if_neg hlt, if_neg hlt', isKnownBinaryHeader_append h, hlim, hsam]

end

/-- The header tells what the whole content does. -/
theorem decodeByteHeader_eq {header rest : List UInt8} {reachedEof : Bool} (h : IsHeader header reachedEof rest) :
    decodeByteHeader (header ++ rest) = decodeByteHeader header := by
  cases hended : reachedEof with
  | true => rw [h.ended hended, append_nil]
  | false =>
    rw [decodeByteHeader, forBom_append (h.enough hended), analyzeByteContent_append (h.enough hended), decodeByteHeader]

variable {legacy : Legacy} {eof : Bool} {valid : Nat} {default : LineEnding} {lineEnding : Option LineEnding}

theorem decodeText_binary {content : List UInt8} (h : (decodeByteHeader content).2 = .binary) :
    decodeText legacy content = .error .binary := by
  rw [decodeByteHeader] at h
  cases hbom : Encoding.forBom _ with
  | some found =>
    rw [hbom] at h
    cases h
  | none =>
    rw [hbom] at h
    rw [decodeText, hbom, show analyzeByteContent content = .binary from h]

theorem decodeFileText_eq (legacy : Legacy) (file : Reader) : decodeFileText legacy file = decodeText legacy file.rest := by
  obtain ⟨hcont, hhead⟩ := readFileHeader_spec file
  have hwho : (if (readFileHeader file).2.1 then (readFileHeader file).1
      else readFileToEnd (readFileHeader file).2.2 (readFileHeader file).1) = file.rest := by
    cases hended : (readFileHeader file).2.1 with
    | true =>
      rw [hhead.ended hended, append_nil] at hcont
      exact hcont
    | false => exact (readFileToEnd_eq _ _).trans hcont
  have hdec : decodeFileText legacy file =
      if (decodeByteHeader (readFileHeader file).1).2 = .binary then .error .binary else decodeText legacy file.rest := by
    rw [← hwho]
    rfl
  rw [hdec]
  by_cases hbin : (decodeByteHeader (readFileHeader file).1).2 = .binary
  · rw [if_pos hbin, decodeText_binary]
    rw [← hcont, decodeByteHeader_eq hhead]
    exact hbin
  · rw [if_neg hbin]

/-! ## Normalizing in parts -/

theorem normalizeInto_eq (scratch pending text : Str) :
    normalizeInto scratch pending text = scratch ++ pending ++ LineEnding.normalize text := by
  fun_induction normalizeInto scratch pending text with
  | case1 => exact (append_nil _).symm
  | case2 scratch pending => rfl
  | case3 scratch pending c hc => rw [LineEnding.normalize, if_neg hc, append_assoc]
  | case4 scratch pending rest ih =>
    rw [ih, LineEnding.normalize, if_pos rfl, if_pos rfl, append_nil, append_assoc, singleton_append]
  | case5 scratch pending next rest hnext ih =>
    rw [ih, LineEnding.normalize, if_pos rfl, if_neg hnext, append_nil, append_assoc, singleton_append]
  | case6 scratch pending c next rest hc ih =>
    rw [ih, LineEnding.normalize, if_neg hc, append_assoc, append_assoc, append_assoc, singleton_append]

theorem pushNormalized_text (rope : Rope) (text : Str) :
    ∃ pushed, pushNormalized rope text = some pushed ∧ pushed.text = rope.text ++ LineEnding.normalize text := by
  rw [pushNormalized]
  by_cases h : '\r' ∈ text
  · rw [if_pos h, normalizeInto_eq]
    exact Rope.push_text rope _
  · rw [if_neg h, LineEnding.normalize_eq h]
    exact Rope.push_text rope text

theorem normalize_cons {c : Char} (hc : c ≠ '\r') (text : Str) : LineEnding.normalize (c :: text) = c :: LineEnding.normalize text := by
  cases text with
  | nil => exact if_neg hc
  | cons next rest => exact if_neg hc

theorem normalize_return {text : Str} (h : text.head? ≠ some '\n') :
    LineEnding.normalize ('\r' :: text) = '\n' :: LineEnding.normalize text := by
  cases text with
  | nil => rfl
  | cons next rest => exact (if_pos rfl).trans (if_neg fun hnext => h (congrArg some hnext))

/-- Text may be normalized in two parts unless a carriage return and its line feed are apart. -/
theorem normalize_append {front back : Str} (h : front.getLast? = some '\r' → back.head? ≠ some '\n') :
    LineEnding.normalize (front ++ back) = LineEnding.normalize front ++ LineEnding.normalize back := by
  fun_induction LineEnding.normalize front with
  | case1 => rfl
  | case2 => exact normalize_return (h rfl)
  | case3 c hc => exact normalize_cons hc back
  | case4 rest ih =>
    have hrest : rest.getLast? = some '\r' → back.head? ≠ some '\n' := fun hlast => h (by
      rw [getLast?_cons_cons, getLast?_cons, hlast]
      rfl)
    exact congrArg _ (ih hrest)
  | case5 next rest hnext ih =>
    have hhead : (next :: rest ++ back).head? ≠ some '\n' := fun heq => hnext (Option.some.inj heq)
    rw [cons_append, normalize_return hhead, ih fun hlast => h (getLast?_cons_cons.trans hlast), cons_append]
  | case6 c next rest hc ih =>
    rw [cons_append, normalize_cons hc, ih fun hlast => h (getLast?_cons_cons.trans hlast), cons_append]

theorem firstLine_of_mem {front : Str} (h : '\n' ∈ front) (back : Str) : (front ++ back).firstLine = front.firstLine := by
  obtain ⟨line, -, rfl, hline⟩ := eq_append_cons_of_mem h
  rw [append_assoc, cons_append, firstLine_append hline, firstLine_append hline]

theorem len_firstLine_of_notMem {front : Str} (h : '\n' ∉ front) (back : Str) : front.len ≤ (front ++ back).firstLine.len := by
  have hall : ∀ c ∈ front, decide (c ≠ '\n') = true := fun c hc => decide_eq_true fun heq => h (heq ▸ hc)
  rw [Str.firstLine, takeWhile_append_of_pos hall, len_append]
  exact Nat.le_add_right _ _

/-- Where the first thousand bytes are there, the line ending is the one of the whole text. -/
theorem detect_append (default : LineEnding) {front : Str} (h : 1000 ≤ front.len) (back : Str) :
    detect default (front ++ back) = detect default front := by
  have hfnd : LineEnding.FoundIn (front ++ back) ↔ LineEnding.FoundIn front := by
    by_cases hmem : '\n' ∈ front
    · rw [LineEnding.FoundIn, firstLine_of_mem hmem]
      exact and_congr_left fun _ => iff_of_true (mem_append_left _ hmem) hmem
    · refine iff_of_false (fun hin => ?_) fun hin => hmem hin.1
      have hle := len_firstLine_of_notMem hmem back
      have hlt := hin.2
      omega
  obtain ⟨hin, heq⟩ | ⟨hout, heq⟩ := detect_spec _ front
  · obtain ⟨-, heq'⟩ | ⟨hout', -⟩ := detect_spec _ _
    · rw [heq, heq', ofFirstLine, ofFirstLine, firstLine_of_mem hin.1]
    · exact absurd (hfnd.mpr hin) hout'
  · obtain ⟨hin', -⟩ | ⟨-, heq'⟩ := detect_spec _ _
    · exact absurd (hfnd.mp hin') hout
    · rw [heq, heq']

/-! ## One turn -/

/-- What a turn takes from the bytes at hand: a text, of which only a few bytes stay behind, and none at the end. -/
structure Emitted (pending : List UInt8) (eof : Bool) (emitted : Nat) (text : Str) : Prop where
  bytes : pending = Str.asBytes text ++ pending.drop emitted
  decoded : Utf8.fromUtf8 (pending.take emitted) = .ok text
  ended : eof = true → pending.drop emitted = []
  most : eof = false → pending.length ≤ emitted + 4
  apart : eof = false → text.getLast? = some '\r' → (pending.drop emitted).head? = some 13

theorem asBytes_append (a b : Str) : Str.asBytes (a ++ b) = Str.asBytes a ++ Str.asBytes b := flatMap_append

theorem Emitted.of_append {text : Str} {more : List UInt8} (hended : eof = true → more = [])
    (hmost : eof = false → more.length ≤ 4) (hapa : eof = false → text.getLast? = some '\r' → more.head? = some 13) :
    Emitted (Str.asBytes text ++ more) eof text.len text := by
  have hdrop : (Str.asBytes text ++ more).drop text.len = more := by rw [← length_asBytes, drop_left]
  have htake : (Str.asBytes text ++ more).take text.len = Str.asBytes text := by rw [← length_asBytes, take_left]
  refine ⟨by rw [hdrop], ?_, fun heof => hdrop.trans (hended heof), fun heof => ?_, fun heof => ?_⟩
  · rw [htake]
    exact fromUtf8_asBytes text
  · have hlen := hmost heof
    rw [length_append, length_asBytes]
    omega
  · rw [hdrop]
    exact hapa heof

/-- Where the bytes are complete UTF-8 up to a place, only few of them follow, and none at the end. -/
theorem validLen_spec {pending : List UInt8} (h : validLen pending eof = some valid) :
    ∃ text more, pending = Str.asBytes text ++ more ∧ valid = text.len ∧ (eof = true → more = []) ∧ more.length ≤ 3 := by
  have hscan := scan_spec pending
  have hlen := congrArg List.length hscan
  rw [length_append, length_asBytes] at hlen
  rw [validLen, Utf8.fromUtf8] at h
  by_cases hnil : (Utf8.scan pending).2 = []
  · rw [if_pos hnil] at h
    cases h
    rw [hnil] at hlen
    exact ⟨_, _, hscan, hlen, fun _ => hnil, by rw [hnil]; exact Nat.zero_le _⟩
  · rw [if_neg hnil] at h
    dsimp only at h
    split at h
    · rename_i herr
      cases h
      have hmore := length_of_errorLen herr.1
      refine ⟨_, _, hscan, by omega, fun heof => ?_, hmore⟩
      rw [heof] at herr
      cases herr.2
    · cases h

theorem emitted_of_validLen {pending : List UInt8} (h : validLen pending eof = some valid) :
    ∃ text, Emitted pending eof (emitLen pending eof valid) text := by
  obtain ⟨text, more, rfl, rfl, hended, hmore⟩ := validLen_spec h
  have hlast : 0 < text.len → ((Str.asBytes text ++ more)[text.len - 1]? = some 13 ↔ text.getLast? = some '\r') := by
    intro hpos
    have hbef : (Str.asBytes (text ++ []))[text.len - 1]? = some 13 ↔ text.getLast? = some '\r' :=
      asBytes_before (Str.len_pos.mp hpos)
    rw [append_nil] at hbef
    rw [List.getElem?_append_left (by rw [length_asBytes]; omega)]
    exact hbef
  by_cases hhold : eof = false ∧ 0 < text.len ∧ (Str.asBytes text ++ more)[text.len - 1]? = some 13
  · -- the carriage return stays behind
    obtain ⟨heof, hpos, hret⟩ := hhold
    obtain ⟨front, rfl⟩ := getLast?_eq_some_iff.mp ((hlast hpos).mp hret)
    have hbyte : Str.asBytes (front ++ ['\r']) ++ more = Str.asBytes front ++ 13 :: more := by
      rw [asBytes_append, append_assoc]
      rfl
    have hlen : Str.len (front ++ ['\r']) = Str.len front + 1 := len_append _ _
    have hemit : emitLen (Str.asBytes (front ++ ['\r']) ++ more) eof (Str.len (front ++ ['\r'])) = Str.len front := by
      rw [emitLen, if_pos ⟨heof, hpos, hret⟩, hlen, Nat.add_sub_cancel]
    have hmost : (13 :: more).length ≤ 4 := Nat.succ_le_succ hmore
    rw [hemit, hbyte]
    refine ⟨front, Emitted.of_append (fun hend => ?_) (fun _ => hmost) fun _ _ => rfl⟩
    rw [heof] at hend
    cases hend
  · rw [emitLen, if_neg hhold]
    refine ⟨text, Emitted.of_append hended (fun _ => Nat.le_succ_of_le hmore) fun heof hret => ?_⟩
    have hpos : 0 < text.len := Str.len_pos.mpr fun hnil => by
      rw [hnil] at hret
      cases hret
    exact absurd ⟨heof, hpos, (hlast hpos).mpr hret⟩ hhold

/-- A file that has been streamed up to a place: its text is in the rope, normalized. -/
structure Streaming (default : LineEnding) (content : List UInt8) (file : Reader) (into : Rope) (lineEnding : Option LineEnding)
    (pending : List UInt8) (text : Str) : Prop where
  bytes : content = Str.asBytes text ++ (pending ++ file.rest)
  noEscape : '\x1b' ∉ text
  rope : into.text = LineEnding.normalize text
  ending : text = [] ∧ lineEnding = none ∨ 1000 ≤ text.len ∧ lineEnding = detect default text
  apart : text.getLast? = some '\r' → (pending ++ file.rest).head? = some 13

/-- The file is UTF-8 without escape characters, and the rope holds its text. -/
structure Whole (default : LineEnding) (content : List UInt8) (into : Rope) (lineEnding : LineEnding) (text : Str) : Prop where
  bytes : content = Str.asBytes text
  noEscape : '\x1b' ∉ text
  rope : into.text = LineEnding.normalize text
  ending : detect default text = some lineEnding

/-- What streaming comes to: when it says that there is a rope, then it is the one of the whole file. -/
def Right (default : LineEnding) (content : List UInt8) : Option Streamed → Prop
  | none => False
  | some .notUtf8 => True
  | some (.done rope lineEnding) => ∃ text, Whole default content rope lineEnding text

theorem detect_exists (default : LineEnding) (text : Str) : ∃ lineEnding, detect default text = some lineEnding := by
  obtain ⟨-, heq⟩ | ⟨-, heq⟩ := detect_spec _ text
  · exact ⟨_, heq⟩
  · exact ⟨_, heq⟩

/-- The line ending is that of the text so far, once there is any. -/
theorem detectFirst_spec {text : Str}
    (h : text = [] ∧ lineEnding = none ∨ 1000 ≤ text.len ∧ lineEnding = detect default text) (more : Str) :
    ∃ detected, detectFirst default lineEnding more = some detected ∧
      (text ++ more = [] ∧ detected = none ∨ text ++ more ≠ [] ∧ detected = detect default (text ++ more)) := by
  rw [detectFirst]
  rcases h with ⟨rfl, rfl⟩ | ⟨hlen, rfl⟩
  · by_cases hmore : more = []
    · rw [if_neg fun hboth => hboth.2 hmore]
      exact ⟨none, rfl, .inl ⟨hmore, rfl⟩⟩
    · obtain ⟨found, hfnd⟩ := detect_exists _ more
      rw [if_pos ⟨rfl, hmore⟩, hfnd]
      exact ⟨some _, rfl, .inr ⟨hmore, hfnd.symm⟩⟩
  · obtain ⟨found, hfnd⟩ := detect_exists _ text
    have hne : text ≠ [] := Str.len_pos.mp (by omega)
    rw [if_neg fun hboth => by rw [hfnd] at hboth; cases hboth.1]
    exact ⟨_, rfl, .inr ⟨fun hnil => hne (append_eq_nil_iff.mp hnil).1, (detect_append _ hlen more).symm⟩⟩

/-- What is filled up is what was there and a part of the rest. -/
theorem fill_spec (file : Reader) (pending : List UInt8) (heof : eof = true → file.rest = []) :
    (fill file pending eof).1 ++ (fill file pending eof).2.2.rest = pending ++ file.rest ∧
      ((fill file pending eof).2.1 = true → (fill file pending eof).2.2.rest = []) ∧
      ((fill file pending eof).2.1 = false → streamBlockBytes ≤ (fill file pending eof).1.length) := by
  cases eof with
  | true => exact ⟨rfl, fun _ => heof rfl, nofun⟩
  | false =>
    have hread := Reader.hasRead streamBlockBytes (fun _ => streamBlockBytes) file pending
    exact ⟨hread.append, hread.ended, hread.enough⟩

/-- A turn goes on, or finds that the file is not plain UTF-8. -/
theorem emit_spec {content : List UInt8} {file : Reader} {rope : Rope}
    {pending : List UInt8} {text : Str} (h : Streaming default content file rope lineEnding pending text) (eof : Bool) :
    emit default rope lineEnding pending eof = some none ∨
      ∃ rope' lineEnding' emitted more, emit default rope lineEnding pending eof = some (some (rope', lineEnding', pending.drop emitted)) ∧
        Emitted pending eof emitted more ∧ '\x1b' ∉ more ∧ rope'.text = LineEnding.normalize (text ++ more) ∧
        (text ++ more = [] ∧ lineEnding' = none ∨ text ++ more ≠ [] ∧ lineEnding' = detect default (text ++ more)) := by
  unfold emit
  cases hval : validLen _ eof with
  | none => exact .inl rfl
  | some valid =>
    obtain ⟨more, hemi⟩ := emitted_of_validLen hval
    dsimp only
    rw [hemi.decoded]
    by_cases hesc : '\x1b' ∈ more
    · exact .inl (if_pos hesc)
    · obtain ⟨detected, hdet, hend⟩ := detectFirst_spec h.ending more
      obtain ⟨pushed, hpush, htext⟩ := pushNormalized_text rope more
      refine .inr ⟨pushed, detected, emitLen _ eof _, more, ?_, hemi, hesc, ?_, hend⟩
      · dsimp only
        rw [if_neg hesc, hdet, hpush]
        rfl
      · rw [htext, h.rope, normalize_append fun hret hhead => ?_]
        have hnext := h.apart hret
        obtain ⟨rest, rfl⟩ := head?_eq_some_iff.mp hhead
        rw [hemi.bytes] at hnext
        cases hnext

theorem right_stream (default : LineEnding) (content : List UInt8) (fuel : Nat) (file : Reader) (rope : Rope)
    (lineEnding : Option LineEnding) (pending : List UInt8) (eof : Bool) (text : Str)
    (h : Streaming default content file rope lineEnding pending text) (heof : eof = true → file.rest = [])
    (hfuel : pending.length + file.rest.length < fuel) :
    Right default content (streamUtf8IntoRope default fuel file rope lineEnding pending eof) := by
  induction fuel generalizing file rope lineEnding pending eof text with
  | zero => exact absurd hfuel (Nat.not_lt_zero _)
  | succ fuel ih =>
    obtain ⟨happ, hended, heno⟩ := fill_spec file _ heof
    have hfill : Streaming default content (fill file pending eof).2.2 rope lineEnding (fill file pending eof).1 text :=
      ⟨by rw [happ]; exact h.bytes, h.noEscape, h.rope, h.ending, by rw [happ]; exact h.apart⟩
    rw [streamUtf8IntoRope]
    obtain hemit | ⟨rope', lineEnding', emitted, more, hemit, hemi, hesc, hrope, hendi⟩ :=
      emit_spec hfill _
    · rw [hemit]
      trivial
    · rw [hemit]
      have hnoE : '\x1b' ∉ text ++ more := fun hmem => (mem_append.mp hmem).elim h.noEscape hesc
      have hbyte : content = Str.asBytes (text ++ more) ++
          ((fill file pending eof).1.drop emitted ++ (fill file pending eof).2.2.rest) := by
        have hpend := congrArg (· ++ (fill file pending eof).2.2.rest) hemi.bytes
        rw [hfill.bytes, asBytes_append, append_assoc]
        rw [append_assoc] at hpend
        exact congrArg _ hpend
      cases hend : (fill file _ eof).2.1 with
      | true =>
        have hnil := hemi.ended hend
        rw [hnil, hended hend, append_nil, append_nil] at hbyte
        dsimp only
        rw [if_pos hnil]
        refine ⟨text ++ more, hbyte, hnoE, hrope, ?_⟩
        obtain ⟨hemp, rfl⟩ | ⟨-, rfl⟩ := hendi
        · rw [hemp]
          rfl
        · obtain ⟨found, hfnd⟩ := detect_exists _ _
          rw [hfnd]
          rfl
      | false =>
        have hblo := heno hend
        have hmost := hemi.most hend
        have hlen : pending.length + file.rest.length =
            (fill file pending eof).1.length + (fill file pending eof).2.2.rest.length := by
          rw [← length_append, ← length_append, happ]
        have hsize : streamBlockBytes = 1048576 := rfl
        have htake := congrArg List.length (fromUtf8_ok hemi.decoded)
        rw [length_take, length_asBytes] at htake
        have hmore : more ≠ [] := Str.len_pos.mp (by omega)
        have hne : text ++ more ≠ [] := fun hnil => hmore (append_eq_nil_iff.mp hnil).2
        have hstr : Streaming default content (fill file pending eof).2.2 rope' lineEnding'
            ((fill file pending eof).1.drop emitted) (text ++ more) := by
          refine ⟨hbyte, hnoE, hrope, .inr ⟨?_, ?_⟩, fun hret => ?_⟩
          · rw [len_append]
            omega
          · exact (hendi.resolve_left fun hemp => hne hemp.1).2
          · rw [getLast?_append_of_ne_nil _ hmore] at hret
            obtain ⟨rest, hrest⟩ := head?_eq_some_iff.mp (hemi.apart hend hret)
            rw [hrest]
            rfl
        refine ih _ _ _ _ _ _ hstr nofun ?_
        rw [length_drop]
        omega

/-! ## The whole file -/

/-- A file that is UTF-8 without escape characters, a mark or too many null bytes is decoded as UTF-8. -/
theorem decodeText_of_whole {content : List UInt8} {text : Str} (hbyte : content = Str.asBytes text)
    (hesc : '\x1b' ∉ text) (hhead : decodeByteHeader content = (none, .unknown)) :
    decodeText legacy content = .ok ⟨text, .utf8, false⟩ := by
  rw [decodeByteHeader] at hhead
  cases hbom : Encoding.forBom _ with
  | some found =>
    rw [hbom] at hhead
    cases hhead
  | none =>
    rw [hbom] at hhead
    have hcont : analyzeByteContent content = .unknown := congrArg Prod.snd hhead
    rw [decodeText, hbom, hcont, hbyte, fromUtf8_asBytes]
    exact if_neg hesc

theorem decodeAtOnce_eq (legacy : Legacy) (default : LineEnding) (file : Reader) :
    ∃ result, decodeAtOnce legacy default file = some result ∧
      result.map (some ∘ Opened.view) = decodeWhole legacy default file.rest := by
  rw [decodeAtOnce, decodeFileText_eq, decodeWhole]
  cases decodeText _ _ with
  | error error => exact ⟨_, rfl, rfl⟩
  | ok decoded =>
    obtain ⟨lineEnding, hlineE⟩ := detect_exists _ _
    obtain ⟨rope, hrope, htext⟩ := Rope.from_text _
    refine ⟨.ok ⟨rope, lineEnding, decoded.encoding, decoded.hasBom⟩, ?_, ?_⟩
    · dsimp only
      rw [hlineE, hrope]
      rfl
    · rw [Except.map, Except.map, hlineE, Function.comp, Opened.view, htext]
      rfl

/-- A file is decoded to the same text, with the same line ending, encoding and mark, as when its whole content is decoded and then
normalized, or fails as that does; and this takes no more turns than the file has bytes. -/
theorem decodeFileTextToRope_eq (legacy : Legacy) (default : LineEnding) (content : List UInt8) (sizes sizes' : Nat → Nat)
    (extra : Nat) :
    ∃ result, decodeFileTextToRope legacy default (content.length + 1 + extra) ⟨content, sizes⟩ ⟨content, sizes'⟩ = some result ∧
      result.map (some ∘ Opened.view) = decodeWhole legacy default content := by
  obtain ⟨happend, hheader⟩ := readFileHeader_spec ⟨content, sizes⟩
  have hsame := decodeByteHeader_eq hheader
  rw [happend] at hsame
  have honce := decodeAtOnce_eq legacy default ⟨content, sizes'⟩
  unfold decodeFileTextToRope
  dsimp only
  rw [← hsame]
  by_cases hbinary : (decodeByteHeader content).2 = .binary
  · rw [if_pos hbinary, decodeWhole, decodeText_binary hbinary]
    exact ⟨_, rfl, rfl⟩
  rw [if_neg hbinary]
  by_cases hplain : (decodeByteHeader content).1 = none ∧ (decodeByteHeader content).2 = .unknown
  · have hstart : Streaming default content (readFileHeader ⟨content, sizes⟩).2.2 Rope.new none
        (readFileHeader ⟨content, sizes⟩).1 [] :=
      ⟨happend.symm, not_mem_nil, rfl, .inl ⟨rfl, rfl⟩, nofun⟩
    have hfuel : (readFileHeader ⟨content, sizes⟩).1.length + (readFileHeader ⟨content, sizes⟩).2.2.rest.length <
        content.length + 1 + extra := by
      rw [← length_append, happend]
      exact Nat.lt_add_right extra (Nat.lt_succ_self _)
    have hright := right_stream default content (content.length + 1 + extra) _ _ _ _ _ [] hstart hheader.ended hfuel
    rw [if_pos hplain]
    cases hstream : streamUtf8IntoRope default (content.length + 1 + extra) (readFileHeader ⟨content, sizes⟩).2.2 Rope.new none
        (readFileHeader ⟨content, sizes⟩).1 (readFileHeader ⟨content, sizes⟩).2.1 with
    | none =>
      rw [hstream] at hright
      cases hright
    | some streamed =>
      cases streamed with
      | notUtf8 => exact honce
      | done rope lineEnding =>
        rw [hstream] at hright
        obtain ⟨text, hwhole⟩ := hright
        refine ⟨_, rfl, ?_⟩
        rw [decodeWhole, decodeText_of_whole hwhole.bytes hwhole.noEscape (Prod.ext hplain.1 hplain.2), Except.map, Except.map,
          hwhole.ending, Function.comp, Opened.view, hwhole.rope]
        rfl
  · rw [if_neg hplain]
    exact honce

end Wu.Worktree.DecodeStream
