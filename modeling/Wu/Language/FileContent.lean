import Wu.Utf8
import Wu.Utf16

/-!
# The content of a file as text

Bytes are decoded in the encoding that a mark in front tells, or that null bytes suggest, or as UTF-8, or else in the encoding that a
detector guesses. Text is encoded in the encoding that it was decoded from. What the decoder cannot decode it replaces, so that a file
is saved as it was opened exactly when its bytes are well formed.
-/

namespace Wu.Language.FileContent

open List

open Utf16 (ByteOrder)

def fileAnalysisBytes : Nat := 1024

/-- The encodings, where those other than Unicode have a label. -/
inductive Encoding where
  | utf8
  | utf16Be
  | utf16Le
  | other (label : String)
  deriving DecidableEq, Repr

namespace Encoding

/-- The mark that stands in front of a text. -/
def mark : Encoding → List UInt8
  | utf8 => [0xEF, 0xBB, 0xBF]
  | utf16Be => [0xFE, 0xFF]
  | utf16Le => [0xFF, 0xFE]
  | other _ => []

def isUnicode : Encoding → Bool
  | other _ => false
  | _ => true

/-- `Encoding::for_bom`: the encoding that a mark tells, and the length of the mark. -/
def forBom (bytes : List UInt8) : Option (Encoding × Nat) :=
  if utf8.mark.isPrefixOf bytes then some (utf8, 3)
  else if utf16Le.mark.isPrefixOf bytes then some (utf16Le, 2)
  else if utf16Be.mark.isPrefixOf bytes then some (utf16Be, 2)
  else none

end Encoding

/-- The decoders and encoders of the encodings other than Unicode, and the detector, which guesses UTF-8 only where the bytes are UTF-8,
and never UTF-16. -/
structure Legacy where
  decode : String → List UInt8 → Str
  encode : String → Str → List UInt8
  guess : List UInt8 → Encoding
  guess_utf8 : ∀ bytes, guess bytes = .utf8 → ∃ text, bytes = Str.asBytes text
  guess_utf16 : ∀ bytes, guess bytes ≠ .utf16Be ∧ guess bytes ≠ .utf16Le

namespace Encoding

variable (legacy : Legacy)

/-- `Encoding::decode_without_bom_handling`. -/
def decodeWithoutBomHandling (bytes : List UInt8) : Encoding → Str
  | utf8 => Utf8.lossy bytes
  | utf16Be => Utf16.decode .big bytes
  | utf16Le => Utf16.decode .little bytes
  | other label => legacy.decode label bytes

/-- `Encoding::decode_with_bom_removal`. -/
def decodeWithBomRemoval (encoding : Encoding) (bytes : List UInt8) : Str :=
  encoding.decodeWithoutBomHandling legacy (if encoding.mark.isPrefixOf bytes then bytes.drop encoding.mark.length else bytes)

/-- `Encoding::decode`, where a mark decides before the encoding does. -/
def decode (encoding : Encoding) (bytes : List UInt8) : Str :=
  match forBom bytes with
  | some (marked, length) => marked.decodeWithoutBomHandling legacy (bytes.drop length)
  | none => encoding.decodeWithoutBomHandling legacy bytes

/-- `Encoding::encode`, which encodes UTF-16 as UTF-8. -/
def encode (encoding : Encoding) (text : Str) : List UInt8 :=
  match encoding with
  | other label => legacy.encode label text
  | _ => Str.asBytes text

end Encoding

/-! ## Looking at bytes -/

inductive ByteContent where
  | utf16Le
  | utf16Be
  | binary
  | unknown
  deriving DecidableEq, Repr

def knownBinaryHeaders : List (List UInt8) :=
  [[0x25, 0x50, 0x44, 0x46, 0x2D], -- PDF
    [0x50, 0x4B, 0x03, 0x04], -- ZIP local header
    [0x50, 0x4B, 0x05, 0x06], -- ZIP end of central directory
    [0x50, 0x4B, 0x07, 0x08], -- ZIP spanning/splitting
    [0x89, 0x50, 0x4E, 0x47, 0x0D, 0x0A, 0x1A, 0x0A], -- PNG
    [0xFF, 0xD8, 0xFF], -- JPEG
    [0x47, 0x49, 0x46, 0x38, 0x37, 0x61], -- GIF87a
    [0x47, 0x49, 0x46, 0x38, 0x39, 0x61], -- GIF89a
    [0x49, 0x57, 0x41, 0x44], -- Doom IWAD archive
    [0x50, 0x57, 0x41, 0x44], -- Doom PWAD archive
    [0x52, 0x49, 0x46, 0x46], -- WAV, AVI, WebP
    [0x4F, 0x67, 0x67, 0x53], -- OGG
    [0x66, 0x4C, 0x61, 0x43], -- FLAC
    [0x49, 0x44, 0x33], -- MP3 with ID3v2 tag
    [0xFF, 0xFB], [0xFF, 0xFA], [0xFF, 0xF3], [0xFF, 0xF2]] -- MP3 frame sync

def isKnownBinaryHeader (bytes : List UInt8) : Bool := knownBinaryHeaders.any (·.isPrefixOf bytes)

/-- The counters of `is_plausible_utf16_text`. -/
structure Plausibility where
  suspiciousCount : Nat
  wordLikeCount : Nat
  total : Nat

namespace Plausibility

def suspicious (self : Plausibility) : Plausibility :=
  { self with suspiciousCount := self.suspiciousCount + 1, total := self.total + 1 }

def wordLike (self : Plausibility) (count : Nat) : Plausibility :=
  { self with wordLikeCount := self.wordLikeCount + count, total := self.total + count }

def neither (self : Plausibility) : Plausibility := { self with total := self.total + 1 }

/-- A code unit that is no high surrogate. -/
def unit (self : Plausibility) (codeUnit : Nat) : Plausibility :=
  if codeUnit ∈ [0x09, 0x0A, 0x0C, 0x0D] then self.neither
  else if codeUnit = 0x20 ∨ 0x30 ≤ codeUnit ∧ codeUnit ≤ 0x39 ∨ 0x41 ≤ codeUnit ∧ codeUnit ≤ 0x5A ∨
      0x61 ≤ codeUnit ∧ codeUnit ≤ 0x7A then self.wordLike 1
  else if codeUnit ≤ 0x1F ∨ 0x7F ≤ codeUnit ∧ codeUnit ≤ 0x9F ∨ codeUnit = 0xFFFE ∨ codeUnit = 0xFFFF then self.suspicious
  else if Utf16.isLow codeUnit then self.suspicious
  else if 0x100 ≤ codeUnit then self.wordLike 1
  else self.neither

/-- The loop of `is_plausible_utf16_text` over what is left of the bytes. -/
def scan (order : ByteOrder) (self : Plausibility) : List UInt8 → Plausibility
  | a :: b :: c :: d :: rest =>
    if Utf16.isHigh (Utf16.ofBytes order a b) then
      if Utf16.isLow (Utf16.ofBytes order c d) then scan order (self.wordLike 2) rest
      else scan order self.suspicious (c :: d :: rest)
    else scan order (self.unit (Utf16.ofBytes order a b)) (c :: d :: rest)
  | a :: b :: _ =>
    if Utf16.isHigh (Utf16.ofBytes order a b) then self.suspicious else self.unit (Utf16.ofBytes order a b)
  | _ => self

end Plausibility

def isPlausibleUtf16Text (bytes : List UInt8) (order : ByteOrder) : Bool :=
  let counts := Plausibility.scan order ⟨0, 0, 0⟩ bytes
  counts.total ≠ 0 && counts.suspiciousCount * 100 < counts.total * 2 && counts.wordLikeCount * 100 ≥ counts.total * 30

/-- The counters of `analyze_byte_content`. -/
structure ByteCounts where
  evenNullCount : Nat
  oddNullCount : Nat
  nonTextLikeCount : Nat

def isTextLike (byte : UInt8) : Bool :=
  byte ∈ [0x09, 0x0A, 0x0D, 0x0C] || 0x20 ≤ byte && byte ≤ 0x7E || 0x80 ≤ byte && byte ≤ 0xBF || 0xC2 ≤ byte && byte ≤ 0xF4

/-- The loop of `analyze_byte_content`, from the byte at an index on. -/
def countBytes (counts : ByteCounts) (i : Nat) : List UInt8 → ByteCounts
  | [] => counts
  | byte :: rest =>
    if byte = 0 then
      if i % 2 = 0 then
        countBytes ⟨counts.evenNullCount + 1, counts.oddNullCount, counts.nonTextLikeCount + 1⟩ (i + 1) rest
      else countBytes ⟨counts.evenNullCount, counts.oddNullCount + 1, counts.nonTextLikeCount + 1⟩ (i + 1) rest
    else if isTextLike byte then countBytes counts (i + 1) rest
    else countBytes { counts with nonTextLikeCount := counts.nonTextLikeCount + 1 } (i + 1) rest

/-- What `analyze_byte_content` says of the bytes that it looks at. -/
def analyzeSample (limit : Nat) (sample : List UInt8) : ByteContent :=
  let counts := countBytes ⟨0, 0, 0⟩ 0 sample
  let totalNullCount := counts.evenNullCount + counts.oddNullCount
  if totalNullCount = 0 then .unknown
  else if totalNullCount ≥ limit / 16 then
    if counts.evenNullCount > counts.oddNullCount * 4 ∧ isPlausibleUtf16Text sample .big then .utf16Be
    else if counts.oddNullCount > counts.evenNullCount * 4 ∧ isPlausibleUtf16Text sample .little then .utf16Le
    else .binary
  else if counts.nonTextLikeCount * 100 < limit * 8 then .unknown
  else .binary

def analyzeByteContent (bytes : List UInt8) : ByteContent :=
  if bytes.length < 2 then .unknown
  else if isKnownBinaryHeader bytes then .binary
  else analyzeSample (min bytes.length fileAnalysisBytes) (bytes.take (min bytes.length fileAnalysisBytes))

/-! ## Decoding and encoding -/

structure DecodedText where
  text : Str
  encoding : Encoding
  hasBom : Bool
  deriving DecidableEq, Repr

inductive DecodeError where
  /-- Binary files are not supported -/
  | binary
  deriving DecidableEq, Repr

variable (legacy : Legacy)

def decodeWithDetectedEncoding (bytes : List UInt8) : DecodedText where
  text := (legacy.guess bytes).decode legacy bytes
  encoding := legacy.guess bytes
  hasBom := false

def decodeText (bytes : List UInt8) : Except DecodeError DecodedText :=
  match Encoding.forBom bytes with
  | some (encoding, _) => .ok ⟨encoding.decodeWithBomRemoval legacy bytes, encoding, true⟩
  | none =>
    match analyzeByteContent bytes with
    | .utf16Le => .ok ⟨Encoding.utf16Le.decode legacy bytes, .utf16Le, false⟩
    | .utf16Be => .ok ⟨Encoding.utf16Be.decode legacy bytes, .utf16Be, false⟩
    | .binary => .error .binary
    | .unknown =>
      match Utf8.fromUtf8 bytes with
      | .ok text =>
        if '\x1b' ∈ text then .ok (decodeWithDetectedEncoding legacy (Str.asBytes text)) else .ok ⟨text, .utf8, false⟩
      | .error _ => .ok (decodeWithDetectedEncoding legacy bytes)

def encodeText (text : Str) (encoding : Encoding) (hasBom : Bool) : List UInt8 :=
  if encoding = .utf8 ∧ hasBom = false then Str.asBytes text
  else if encoding = .utf16Be then (if hasBom then [0xFE, 0xFF] else []) ++ Utf16.encode .big text
  else if encoding = .utf16Le then (if hasBom then [0xFF, 0xFE] else []) ++ Utf16.encode .little text
  else if hasBom ∧ encoding = .utf8 then [0xEF, 0xBB, 0xBF] ++ encoding.encode legacy text
  else encoding.encode legacy text

/-! ## Bytes that are well formed -/

namespace Encoding

/-- The bytes of a text in a Unicode encoding, without a mark. -/
def bytesOf : Encoding → Str → List UInt8
  | utf16Be => Utf16.encode .big
  | utf16Le => Utf16.encode .little
  | _ => Str.asBytes

variable {encoding : Encoding} {bytes : List UInt8}

theorem decode_bytesOf (h : encoding.isUnicode = true) (text : Str) :
    encoding.decodeWithoutBomHandling legacy (encoding.bytesOf text) = text := by
  cases encoding with
  | utf8 => exact Utf8.lossy_asBytes text
  | utf16Be => exact Utf16.decode_encode .big text
  | utf16Le => exact Utf16.decode_encode _ text
  | other label => cases h

/-- A mark that is found stands in front of the bytes. -/
theorem forBom_some {length : Nat} (h : forBom bytes = some (encoding, length)) :
    encoding.isUnicode = true ∧ length = encoding.mark.length ∧ encoding.mark <+: bytes := by
  rw [forBom] at h
  split_ifs at h with h8 hLe hBe
  · cases h
    exact ⟨rfl, rfl, isPrefixOf_iff_prefix.mp h8⟩
  · cases h
    exact ⟨rfl, rfl, isPrefixOf_iff_prefix.mp hLe⟩
  · cases h
    exact ⟨rfl, rfl, isPrefixOf_iff_prefix.mp hBe⟩

theorem decodeWithBomRemoval_of_mark (h : encoding.mark <+: bytes) : encoding.decodeWithBomRemoval legacy bytes =
      encoding.decodeWithoutBomHandling legacy (bytes.drop encoding.mark.length) := by
  unfold decodeWithBomRemoval
  rw [if_pos (List.isPrefixOf_iff_prefix.mpr h)]

theorem decode_of_forBom (h : forBom bytes = none) (encoding : Encoding) :
    encoding.decode legacy bytes = encoding.decodeWithoutBomHandling legacy bytes := by
  rw [decode, h]

end Encoding

variable {encoding : Encoding} {bytes : List UInt8}

theorem encodeText_unicode (h : encoding.isUnicode = true) (text : Str) (hasBom : Bool) :
    encodeText legacy text encoding hasBom = (if hasBom then encoding.mark else []) ++ encoding.bytesOf text := by
  cases encoding with
  | utf8 => cases hasBom <;> rfl
  | utf16Be => cases hasBom <;> rfl
  | utf16Le => cases hasBom <;> rfl
  | other label => cases h

/-- The encoding in which bytes have to be well formed, and the length of the mark in front of them. -/
def required (bytes : List UInt8) : Option (Encoding × Nat) :=
  match Encoding.forBom bytes with
  | some found => some found
  | none =>
    match analyzeByteContent bytes with
    | .utf16Le => some (.utf16Le, 0)
    | .utf16Be => some (.utf16Be, 0)
    | _ => none

/-- Bytes with a mark, or with the null bytes of UTF-16, that are the bytes of a text; other bytes are decoded as they are. -/
def WellFormed (bytes : List UInt8) : Prop :=
  ∀ encoding length, required bytes = some (encoding, length) → ∃ text, bytes.drop length = encoding.bytesOf text

/-- The file is saved as it was opened, if it is opened as Unicode. -/
def SavedUnchanged (bytes : List UInt8) : Prop :=
  ∀ decoded, decodeText legacy bytes = .ok decoded → decoded.encoding.isUnicode = true →
    encodeText legacy decoded.text decoded.encoding decoded.hasBom = bytes

/-- What bytes of a Unicode encoding are decoded to is encoded as them when they are well formed. -/
theorem bytesOf_decode_iff (h : encoding.isUnicode = true) (bytes : List UInt8) :
    encoding.bytesOf (encoding.decodeWithoutBomHandling legacy bytes) = bytes ↔ ∃ text, bytes = encoding.bytesOf text := by
  refine ⟨fun heq => ⟨_, heq.symm⟩, ?_⟩
  rintro ⟨-, rfl⟩
  rw [Encoding.decode_bytesOf _ h]

theorem savedUnchanged_ok {decoded : DecodedText} (h : decodeText legacy bytes = .ok decoded)
    (huni : decoded.encoding.isUnicode = true) :
    SavedUnchanged legacy bytes ↔ encodeText legacy decoded.text decoded.encoding decoded.hasBom = bytes := by
  refine ⟨fun hsav => hsav _ h huni, fun heq decoded' h' _ => ?_⟩
  rw [h] at h'
  cases h'
  exact heq

/-- Bytes that have to be well formed in an encoding are decoded in it, whatever they are. -/
theorem decodeText_required {length : Nat} (h : required bytes = some (encoding, length)) :
    encoding.isUnicode = true ∧ ∃ hasBom, bytes = (if hasBom then encoding.mark else []) ++ bytes.drop length ∧
      decodeText legacy bytes = .ok ⟨encoding.decodeWithoutBomHandling legacy (bytes.drop length), encoding, hasBom⟩ := by
  rw [required] at h
  cases hbom : Encoding.forBom _ with
  | some found =>
    rw [hbom] at h
    cases h
    obtain ⟨huni, rfl, hmark⟩ := Encoding.forBom_some hbom
    refine ⟨huni, true, (prefix_iff_eq_append.mp hmark).symm, ?_⟩
    rw [decodeText, hbom]
    have hdec := Encoding.decodeWithBomRemoval_of_mark legacy hmark
    exact congrArg (fun text => (.ok ⟨text, encoding, true⟩ : Except DecodeError DecodedText)) hdec
  | none =>
    rw [hbom] at h
    cases hcont : analyzeByteContent _ with
    | binary =>
      rw [hcont] at h
      cases h
    | unknown =>
      rw [hcont] at h
      cases h
    | utf16Le =>
      rw [hcont] at h
      cases h
      refine ⟨rfl, false, rfl, ?_⟩
      rw [decodeText, hbom, hcont]
      have hdec := Encoding.decode_of_forBom legacy hbom .utf16Le
      exact congrArg (fun text => (.ok ⟨text, .utf16Le, false⟩ : Except DecodeError DecodedText)) hdec
    | utf16Be =>
      rw [hcont] at h
      cases h
      refine ⟨rfl, false, rfl, ?_⟩
      rw [decodeText, hbom, hcont]
      have hdec := Encoding.decode_of_forBom legacy hbom .utf16Be
      exact congrArg (fun text => (.ok ⟨text, .utf16Be, false⟩ : Except DecodeError DecodedText)) hdec

/-- Bytes that the detector looks at are UTF-8 when it says so. -/
theorem savedUnchanged_detected (hbom : Encoding.forBom bytes = none)
    (h : decodeText legacy bytes = .ok (decodeWithDetectedEncoding legacy bytes)) : SavedUnchanged legacy bytes := by
  intro decoded hdec huni
  rw [h] at hdec
  cases hdec
  rw [decodeWithDetectedEncoding] at huni ⊢
  cases hgues : legacy.guess _ with
  | utf8 =>
    have hutf8 : Encoding.utf8.isUnicode = true := rfl
    obtain ⟨text, htext⟩ := legacy.guess_utf8 _ hgues
    rw [Encoding.decode_of_forBom _ hbom]
    exact (bytesOf_decode_iff legacy hutf8 _).mpr ⟨text, htext⟩
  | utf16Be => exact absurd hgues (legacy.guess_utf16 _).1
  | utf16Le => exact absurd hgues (legacy.guess_utf16 _).2
  | other label =>
    rw [hgues] at huni
    cases huni

/-- Bytes that need not be well formed are refused, or saved as they were. -/
theorem savedUnchanged_of_none (h : required bytes = none) : SavedUnchanged legacy bytes := by
  rw [required] at h
  cases hbom : Encoding.forBom _ with
  | some found =>
    rw [hbom] at h
    cases h
  | none =>
    rw [hbom] at h
    cases hcont : analyzeByteContent _ with
    | utf16Le =>
      rw [hcont] at h
      cases h
    | utf16Be =>
      rw [hcont] at h
      cases h
    | binary =>
      intro decoded hdec
      rw [decodeText, hbom, hcont] at hdec
      cases hdec
    | unknown =>
      cases htext : Utf8.fromUtf8 _ with
      | error error =>
        refine savedUnchanged_detected _ hbom ?_
        rw [decodeText, hbom, hcont, htext]
      | ok text =>
        obtain rfl := Utf8.fromUtf8_ok htext
        by_cases hesc : '\x1b' ∈ text
        · refine savedUnchanged_detected _ hbom ?_
          rw [decodeText, hbom, hcont, htext]
          exact if_pos hesc
        · have hdec : decodeText legacy (Str.asBytes text) = .ok ⟨text, .utf8, false⟩ := by
            rw [decodeText, hbom, hcont, htext]
            exact if_neg hesc
          exact (savedUnchanged_ok _ hdec rfl).mpr rfl

theorem savedUnchanged_iff (bytes : List UInt8) : SavedUnchanged legacy bytes ↔ WellFormed bytes := by
  cases h : required _ with
  | none =>
    refine iff_of_true (savedUnchanged_of_none _ h) fun encoding length hsome => ?_
    rw [h] at hsome
    cases hsome
  | some found =>
    obtain ⟨encoding, length⟩ := found
    obtain ⟨huni, hasBom, hbyte, hdec⟩ := decodeText_required _ h
    have hwellF : WellFormed bytes ↔ ∃ text, bytes.drop length = encoding.bytesOf text := by
      refine ⟨fun hform => hform _ _ h, fun htext encoding' length' hsome => ?_⟩
      rw [h] at hsome
      cases hsome
      exact htext
    rw [savedUnchanged_ok _ hdec huni, hwellF, ← bytesOf_decode_iff _ huni, encodeText_unicode _ huni]
    exact ⟨fun heq => append_cancel_left (heq.trans hbyte), fun heq => (congrArg _ heq).trans hbyte.symm⟩

/-- Opening and saving a file leaves it as it is, and what cannot be represented is refused, exactly for bytes that are well formed in
the encoding that their mark tells or their null bytes suggest. -/
theorem savedUnchanged_or_refused_iff (bytes : List UInt8) :
    (SavedUnchanged legacy bytes ∧ (¬WellFormed bytes → ∃ error, decodeText legacy bytes = .error error)) ↔ WellFormed bytes := by
  rw [savedUnchanged_iff]
  exact and_iff_left_of_imp fun hformed hnot => absurd hformed hnot

/-- A byte behind a mark of UTF-16 is opened as a replacement character, which is saved as two bytes. -/
theorem oddByte_replaced :
    let legacy : Legacy := ⟨fun _ _ => [], fun _ _ => [], fun _ => .other "windows-1252", nofun, fun _ => ⟨nofun, nofun⟩⟩
    let bytes : List UInt8 := [0xFF, 0xFE, 0x41]
    decodeText legacy bytes = .ok ⟨['\uFFFD'], .utf16Le, true⟩ ∧
      encodeText legacy ['\uFFFD'] .utf16Le true = [0xFF, 0xFE, 0xFD, 0xFF] ∧
      ¬(SavedUnchanged legacy bytes ∧ (¬WellFormed bytes → ∃ error, decodeText legacy bytes = .error error)) := by
  refine ⟨rfl, rfl, fun h => ?_⟩
  exact absurd (h.1 ⟨['\uFFFD'], .utf16Le, true⟩ rfl rfl) (by decide)

end Wu.Language.FileContent
