import Wu.Rope.Rope
import Wu.Text.Buffer

/-!
# Line endings

A buffer is loaded with its line endings normalized, and saved with the line ending that was detected in the text. Detection
looks for a line feed in the first thousand bytes only, and otherwise takes the default of the platform, which is a parameter.
-/

namespace Wu

open List Option Str

/-- `enum LineEnding`. -/
inductive LineEnding where
  | unix
  | windows
  deriving DecidableEq, Repr

namespace LineEnding

/-- `LineEnding::as_str`. -/
def asStr : LineEnding → Str
  | unix => ['\n']
  | windows => ['\r', '\n']

/-- How much of a text `detect` looks at. -/
def maxIx (text : Str) : Option Nat := Str.seekDown text.isCharBoundary (min text.len 1000)

/-- `LineEnding::detect`. -/
def detect (default : LineEnding) (text : Str) : Option LineEnding := do
  let (before, _) ← text.splitAt (← maxIx text)
  if '\n' ∈ before then
    let ix := before.firstLine.len
    if ix > 0 ∧ text.asBytes[ix - 1]? = some 13 then return windows
    else return unix
  else return default

/-- `LineEnding::normalize`: `\r\n` and `\r` become `\n`. -/
def normalize : Str → Str
  | [] => []
  | [c] => if c = '\r' then ['\n'] else [c]
  | c :: next :: rest =>
    if c = '\r' then if next = '\n' then '\n' :: normalize rest else '\n' :: normalize (next :: rest)
    else c :: normalize (next :: rest)

end LineEnding

namespace Str

/-- `str::split_inclusive('\n')`. -/
def splitInclusive : Str → List Str
  | [] => []
  | c :: text =>
    if c = '\n' then [c] :: splitInclusive text
    else
      match splitInclusive text with
      | [] => [[c]]
      | line :: lines => (c :: line) :: lines

/-- `str::strip_suffix`. -/
def stripSuffix (suffix : Char) (text : Str) : Option Str := if text.getLast? = some suffix then some text.dropLast else none

/-- `str::lines`. -/
def lines (text : Str) : List Str :=
  text.splitInclusive.map fun line =>
    match stripSuffix '\n' line with
    | none => line
    | some line => (stripSuffix '\r' line).getD line

end Str

namespace LineEnding

/-- The lines of a chunk, each but the first one after a line ending; `newline` says whether there has been one. -/
def separated (lineEnding : LineEnding) : Bool → List Str → List Str
  | _, [] => []
  | newline, line :: lines => (if newline then [lineEnding.asStr] else []) ++ line :: separated lineEnding true lines

/-- A chunk with the line ending: the closure of `chunks_with_line_ending`. -/
def chunkWithLineEnding (lineEnding : LineEnding) (chunk : Str) : List Str :=
  separated lineEnding false chunk.lines ++ if chunk.getLast? = some '\n' then [lineEnding.asStr] else []

end LineEnding

/-- `chunks_with_line_ending`. -/
def chunksWithLineEnding (rope : Rope) (lineEnding : LineEnding) : List Str :=
  rope.chunkTexts.flatMap lineEnding.chunkWithLineEnding

/-- What a buffer keeps of the text that it is loaded from. -/
structure LoadedText where
  lineEnding : LineEnding
  visibleText : Rope

namespace LoadedText

/-- `Buffer::new`. -/
def new (default : LineEnding) (baseText : Str) : Option LoadedText := do
  let lineEnding ← LineEnding.detect default baseText
  return ⟨lineEnding, ← Rope.from (LineEnding.normalize baseText)⟩

/-- `BufferSnapshot::text_with_line_endings`. -/
def textWithLineEndings (self : LoadedText) : Str := (chunksWithLineEnding self.visibleText self.lineEnding).flatten

end LoadedText

/-- The text with each line feed replaced. -/
def Str.withEnding (lineEnding : LineEnding) (text : Str) : Str :=
  text.flatMap fun c => if c = '\n' then lineEnding.asStr else [c]

/-! ## Chunk by chunk -/

namespace Str

/-- `str::lines` of one line with its end. -/
def stripEnd (line : Str) : Str :=
  match stripSuffix '\n' line with
  | none => line
  | some line => (stripSuffix '\r' line).getD line

theorem lines_eq (text : Str) : text.lines = text.splitInclusive.map stripEnd := rfl

theorem stripSuffix_cons {suffix c : Char} {text : Str} (h : text ≠ [] ∨ c ≠ suffix) :
    stripSuffix suffix (c :: text) = (stripSuffix suffix text).map (c :: ·) := by
  cases text with
  | nil =>
    obtain hc : c ≠ suffix := by simpa using h
    simp [stripSuffix, hc]
  | cons d text =>
    simp only [stripSuffix, List.getLast?_cons_cons, dropLast_cons_cons]
    split <;> rfl

/-- The characters before the end of a line stay. -/
theorem stripEnd_cons {c : Char} (hn : c ≠ '\n') (hr : c ≠ '\r') (line : Str) : stripEnd (c :: line) = c :: stripEnd line := by
  unfold stripEnd
  rw [stripSuffix_cons (.inr hn)]
  cases stripSuffix '\n' line with
  | none => rfl
  | some line =>
    simp only [map_some, stripSuffix_cons (.inr hr)]
    cases stripSuffix '\r' line <;> rfl

theorem lines_newline (text : Str) : lines ('\n' :: text) = [] :: text.lines := rfl

/-- A character other than a line end is put to the first line. -/
theorem lines_cons {c : Char} (hn : c ≠ '\n') (hr : c ≠ '\r') (text : Str) : text = [] ∧ lines (c :: text) = [[c]] ∨
      ∃ line rest, text.lines = line :: rest ∧ lines (c :: text) = (c :: line) :: rest := by
  rw [lines_eq, lines_eq, splitInclusive, if_neg hn]
  cases htext : splitInclusive text with
  | nil =>
    have hemp : text = [] := by
      cases text with
      | nil => rfl
      | cons d text =>
        rw [splitInclusive] at htext
        split at htext
        · nomatch htext
        · split at htext <;> nomatch htext
    exact .inl ⟨hemp, by rw [map_singleton, stripEnd_cons hn hr]; rfl⟩
  | cons line rest =>
    exact .inr ⟨stripEnd line, rest.map _, rfl, by rw [map_cons, stripEnd_cons hn hr]⟩

@[simp] theorem withEnding_append (lineEnding : LineEnding) (a b : Str) :
    withEnding lineEnding (a ++ b) = withEnding lineEnding a ++ withEnding lineEnding b :=
  flatMap_append

theorem withEnding_newline (lineEnding : LineEnding) (text : Str) :
    withEnding lineEnding ('\n' :: text) = lineEnding.asStr ++ text.withEnding lineEnding := rfl

theorem withEnding_cons {c : Char} (h : c ≠ '\n') (lineEnding : LineEnding) (text : Str) :
    withEnding lineEnding (c :: text) = c :: text.withEnding lineEnding := by
  simp [withEnding, h]

end Str

namespace LineEnding

/-- The lines of a chunk, with the ending between them and after the last one that ends, are its text with the ending. -/
theorem flatten_separated (lineEnding : LineEnding) {text : Str} (h : '\r' ∉ text) (newline : Bool) :
    (separated lineEnding newline text.lines).flatten ++ (if text.getLast? = some '\n' then lineEnding.asStr else []) =
      (if newline ∧ text ≠ [] then lineEnding.asStr else []) ++ text.withEnding lineEnding := by
  induction text generalizing newline with
  | nil => simp [Str.lines, Str.splitInclusive, separated, Str.withEnding]
  | cons c text ih =>
    obtain ⟨hr, htext⟩ : '\r' ≠ c ∧ '\r' ∉ text := by simpa using h
    by_cases hn : c = '\n'
    · subst hn
      have ih := ih htext true
      rw [lines_newline, withEnding_newline, separated]
      cases text with
      | nil => cases newline <;> simp [Str.lines, Str.splitInclusive, separated, Str.withEnding]
      | cons d text =>
        simp only [ne_eq, reduceCtorEq, not_false_eq_true, and_true, if_true] at ih ⊢
        rw [← ih]
        cases newline <;> simp
    · rw [withEnding_cons hn]
      rcases lines_cons hn hr.symm text with ⟨rfl, hline⟩ | ⟨line, rest, hline, hcons⟩
      · rw [hline]
        cases newline <;> simp [separated, hn, Str.withEnding]
      · have ih := ih htext false
        have hne : text ≠ [] := by
          rintro rfl
          nomatch hline
        have hlast : (c :: text).getLast? = text.getLast? := by
          rw [List.getLast?_cons, List.getLast?_eq_some_getLast hne]
          rfl
        rw [hline] at ih
        rw [hcons, hlast]
        simp only [separated, Bool.false_eq_true, false_and, if_false, nil_append, flatten_cons] at ih ⊢
        rw [← ih]
        cases newline <;> simp

theorem flatten_chunkWithLineEnding (lineEnding : LineEnding) {chunk : Str} (h : '\r' ∉ chunk) :
    (lineEnding.chunkWithLineEnding chunk).flatten = chunk.withEnding lineEnding := by
  have hline := flatten_separated lineEnding h false
  unfold chunkWithLineEnding
  split <;> simp_all

end LineEnding

/-- Wherever a rope is cut into chunks, its line feeds are replaced. -/
theorem flatten_chunksWithLineEnding {rope : Rope} (h : '\r' ∉ rope.text) (lineEnding : LineEnding) :
    (chunksWithLineEnding rope lineEnding).flatten = rope.text.withEnding lineEnding := by
  unfold chunksWithLineEnding Rope.text at *
  generalize rope.chunkTexts = chunks at h ⊢
  induction chunks with
  | nil => rfl
  | cons chunk chunks ih =>
    rw [flatten_cons, mem_append, not_or] at h
    rw [flatMap_cons, flatten_append, lineEnding.flatten_chunkWithLineEnding h.1, ih h.2, flatten_cons, withEnding_append]

/-! ## Detection -/

namespace Str

theorem length_asBytes (text : Str) : text.asBytes.length = text.len := by
  induction text with
  | nil => rfl
  | cons c text ih =>
    rw [asBytes, flatMap_cons, length_append, String.length_utf8EncodeChar, len_cons, ← ih]
    rfl

/-- The last byte of a character is that of a carriage return when the character is one. -/
theorem getLast?_encode (c : Char) : (String.utf8EncodeChar c).getLast? = some 13 ↔ c = '\r' := by
  constructor
  · intro h
    obtain ⟨b, bs, hc, hlen, hbs, hb, -⟩ := utf8EncodeChar_eq c
    rw [hc, List.getLast?_cons] at h
    obtain h13 := some.inj h
    cases hlast : bs.getLast? with
    | some d =>
      have := (hbs d (List.mem_of_getLast? hlast)).1
      rw [hlast, getD_some] at h13
      rw [h13] at this
      exact absurd this (by decide)
    | none =>
      rw [hlast, getD_none] at h13
      rw [List.getLast?_eq_none_iff.mp hlast, length_nil] at hlen
      have hpos := c.utf8Size_pos
      rcases hb with ⟨-, hval, -⟩ | ⟨hne, -⟩
      · refine Char.toNat_inj.mp ?_
        rw [← hval, h13]
        rfl
      · omega
  · rintro rfl
    decide

/-- What the byte before the first line feed is looked at for. -/
theorem asBytes_before {line rest : Str} (h : line ≠ []) :
    (asBytes (line ++ rest))[line.len - 1]? = some 13 ↔ line.getLast? = some '\r' := by
  obtain ⟨front, c, rfl⟩ := (eq_nil_or_concat line).resolve_left h
  have hpos := c.utf8Size_pos
  have hspl : asBytes (front.concat c ++ rest) = (asBytes front ++ String.utf8EncodeChar c) ++ asBytes rest := by
    simp [asBytes]
  have hlen : (asBytes front ++ String.utf8EncodeChar c).length = Str.len (front.concat c) := by
    rw [length_append, length_asBytes]
    simp
  have henc : String.utf8EncodeChar c ≠ [] := by
    rw [← length_pos_iff, String.length_utf8EncodeChar]
    exact hpos
  have hlast : (asBytes front ++ String.utf8EncodeChar c).getLast? = (String.utf8EncodeChar c).getLast? := by
    rw [List.getLast?_append, List.getLast?_eq_some_getLast henc]
    rfl
  rw [hspl, List.getElem?_append_left, ← hlen, ← List.getLast?_eq_getElem?, hlast, getLast?_encode,
    concat_eq_append, List.getLast?_concat, Option.some.injEq]
  rw [hlen]
  simp
  omega

end Str

namespace LineEnding

/-- The line ending of a text by its first line. -/
def ofFirstLine (text : Str) : LineEnding := if text.firstLine.getLast? = some '\r' then windows else unix

/-- The line feed that is looked for is among the first thousand bytes. -/
def FoundIn (text : Str) : Prop := '\n' ∈ text ∧ text.firstLine.len < 1000

instance (text : Str) : Decidable (FoundIn text) := inferInstanceAs (Decidable (_ ∧ _))

/-- Detection goes by the first line feed, when it is found. -/
theorem detect_spec (default : LineEnding) (text : Str) :
    (FoundIn text ∧ detect default text = some (ofFirstLine text)) ∨ (¬ FoundIn text ∧ detect default text = some default) := by
  obtain ⟨before, after, rfl, hle, -, hseek⟩ := seekDown_boundary (Nat.min_le_left text.len 1000)
  have hspl : (before ++ after).splitAt before.len = some (before, after) := splitAt_append _ _
  unfold detect maxIx
  simp only [hseek, bind_eq_bind, bind_some, hspl]
  by_cases h : '\n' ∈ before
  · obtain ⟨line, rest, rfl, hline⟩ := eq_append_cons_of_mem h
    have hfst : Str.firstLine (line ++ '\n' :: rest ++ after) = line := by
      rw [append_assoc, cons_append, firstLine_append hline]
    refine .inl ⟨⟨by simp, ?_⟩, ?_⟩
    · rw [len_append, len_cons] at hle
      have hsize : Char.utf8Size '\n' = 1 := rfl
      rw [hfst]
      omega
    · rw [if_pos h, firstLine_append hline, ofFirstLine, hfst]
      by_cases hemp : line = []
      · subst hemp
        rfl
      · have hpos := Str.len_pos.mpr hemp
        have hbyte := @asBytes_before line ('\n' :: rest ++ after) hemp
        rw [← append_assoc] at hbyte
        simp only [gt_iff_lt, hpos, true_and, hbyte]
        split <;> rfl
  · refine .inr ⟨?_, if_neg h⟩
    rintro ⟨hmem, hlt⟩
    obtain ⟨line, rest, heq, hline⟩ := eq_append_cons_of_mem hmem
    have hspl' : before ++ after = (line ++ ['\n']) ++ rest := by rw [heq]; simp
    have hbou : Str.isCharBoundary (before ++ after) (Str.len (line ++ ['\n'])) = true := by
      rw [hspl']
      exact isCharBoundary_append _ _
    rw [heq, firstLine_append hline] at hlt
    rcases Nat.lt_or_ge _ (Str.len (line ++ ['\n'])) with hbef | hbef
    · have hno := seekDown_max hseek hbef (by
        have := isCharBoundary_le hbou
        have hlen : Str.len (line ++ ['\n']) = Str.len line + 1 := len_append _ _
        omega)
      rw [hbou] at hno
      nomatch hno
    · obtain ⟨m, rfl, -⟩ := append_of_len_le hspl'.symm hbef
      exact h (by simp)

/-! ## Normalizing -/

theorem notMem_normalize (text : Str) : '\r' ∉ normalize text := by
  fun_induction normalize text <;> simp_all [eq_comm]

theorem normalize_eq {text : Str} (h : '\r' ∉ text) : normalize text = text := by
  fun_induction normalize text <;> simp_all

/-- Every line ends with `\r\n`, and there is no other `\r`. -/
def crlfOnly : Str → Bool
  | [] => true
  | [c] => c ≠ '\r' && c ≠ '\n'
  | c :: next :: rest => if c = '\r' then next = '\n' && crlfOnly rest else c ≠ '\n' && crlfOnly (next :: rest)

section

variable {text : Str} (h : crlfOnly text = true)
include h

/-- Such a text comes back from its normal form. -/
theorem withEnding_normalize : (normalize text).withEnding windows = text := by
  fun_induction normalize text with
  | case1 => rfl
  | case2 => simp [crlfOnly] at h
  | case3 c hc => simp_all [crlfOnly, Str.withEnding]
  | case4 rest ih =>
    have hrest : crlfOnly rest = true := by simpa [crlfOnly] using h
    rw [withEnding_newline, ih hrest]
    rfl
  | case5 next rest hnext => simp [crlfOnly, hnext] at h
  | case6 c next rest hc ih =>
    obtain ⟨hn, hrest⟩ : c ≠ '\n' ∧ crlfOnly (next :: rest) = true := by simpa [crlfOnly, hc] using h
    rw [withEnding_cons hn, ih hrest]

/-- Where there is a line in such a text, it ends with `\r`. -/
theorem getLast?_firstLine (hmem : '\n' ∈ text) : text.firstLine.getLast? = some '\r' := by
  fun_induction crlfOnly text with
  | case1 => nomatch hmem
  | case2 c =>
    obtain ⟨-, hn⟩ : c ≠ '\r' ∧ c ≠ '\n' := by simpa using h
    exact absurd (mem_singleton.mp hmem).symm hn
  | case3 next rest ih =>
    obtain ⟨rfl, -⟩ : next = '\n' ∧ crlfOnly rest = true := by simpa using h
    rfl
  | case4 c next rest hc ih =>
    obtain ⟨hn, hrest⟩ : c ≠ '\n' ∧ crlfOnly (next :: rest) = true := by simpa using h
    have hline : Str.firstLine (c :: next :: rest) = c :: Str.firstLine (next :: rest) :=
      takeWhile_cons_of_pos (by simpa using hn)
    rw [hline, List.getLast?_cons, ih hrest ((mem_cons.mp hmem).resolve_left (Ne.symm hn))]
    rfl

theorem carriageReturn_mem (hmem : '\n' ∈ text) : '\r' ∈ text :=
  takeWhile_subset _ (List.mem_of_getLast? (getLast?_firstLine h hmem))

theorem notMem_of_crlfOnly (hmem : '\n' ∉ text) : '\r' ∉ text := by
  fun_induction crlfOnly text with
  | case1 => exact not_mem_nil
  | case2 c =>
    obtain ⟨hr, -⟩ : c ≠ '\r' ∧ c ≠ '\n' := by simpa using h
    exact fun hin => hr (mem_singleton.mp hin).symm
  | case3 next rest ih =>
    obtain ⟨rfl, -⟩ : next = '\n' ∧ crlfOnly rest = true := by simpa using h
    simp at hmem
  | case4 c next rest hc ih =>
    obtain ⟨-, hrest⟩ : c ≠ '\n' ∧ crlfOnly (next :: rest) = true := by simpa using h
    rw [mem_cons, not_or] at hmem ⊢
    exact ⟨Ne.symm hc, ih hrest hmem.2⟩

end

end LineEnding

/-! ## Loading and saving -/

namespace LoadedText

open LineEnding

/-- A buffer is loaded with a line ending and the normalized text, and saved with that ending. -/
theorem new_spec (default : LineEnding) (baseText : Str) : ∃ loaded, new default baseText = some loaded ∧
      loaded.lineEnding = (if FoundIn baseText then ofFirstLine baseText else default) ∧
      loaded.textWithLineEndings = (normalize baseText).withEnding loaded.lineEnding := by
  obtain ⟨rope, hrope, htext⟩ := Rope.from_text _
  have hdet : detect default baseText = some (if FoundIn baseText then ofFirstLine baseText else default) := by
    rcases detect_spec _ _ with ⟨hfnd, hdet⟩ | ⟨hfnd, hdet⟩
    · rw [hdet, if_pos hfnd]
    · rw [hdet, if_neg hfnd]
  refine ⟨⟨_, rope⟩, by rw [new, hdet, hrope]; rfl, rfl, ?_⟩
  have hcle : '\r' ∉ rope.text := htext ▸ notMem_normalize _
  rw [textWithLineEndings, flatten_chunksWithLineEnding hcle, htext]

/-- All line ends of a text are the same. -/
def Uniform (text : Str) : Prop := '\r' ∉ text ∨ crlfOnly text = true

/-- The line ending of the text is found, or it is the default one. -/
def Kept (default : LineEnding) (text : Str) : Prop :=
  '\n' ∉ text ∨ text.firstLine.len < 1000 ∨ default = unix ∧ '\r' ∉ text ∨ default = windows ∧ crlfOnly text = true

theorem withEnding_of_notMem (lineEnding : LineEnding) {text : Str} (h : '\n' ∉ text) : text.withEnding lineEnding = text := by
  induction text with
  | nil => rfl
  | cons c text ih =>
    obtain ⟨hc, htext⟩ : '\n' ≠ c ∧ '\n' ∉ text := by simpa using h
    rw [withEnding_cons hc.symm, ih htext]

theorem withEnding_unix (text : Str) : text.withEnding unix = text := by
  induction text with
  | nil => rfl
  | cons c text ih =>
    by_cases hc : c = '\n'
    · subst hc
      rw [withEnding_newline, ih]
      rfl
    · rw [withEnding_cons hc, ih]

/-- A text whose lines end with `\n` stays as it is under that line ending only. -/
theorem saved_unix {text : Str} (hr : '\r' ∉ text) (hn : '\n' ∈ text) (lineEnding : LineEnding) :
    (normalize text).withEnding lineEnding = text ↔ lineEnding = unix := by
  rw [normalize_eq hr]
  refine ⟨fun h => ?_, fun h => h ▸ withEnding_unix text⟩
  cases lineEnding with
  | unix => rfl
  | windows =>
    have hmem : '\r' ∈ text.withEnding windows := mem_flatMap.mpr ⟨'\n', hn, by decide⟩
    exact absurd (h ▸ hmem) hr

/-- A text whose lines end with `\r\n` stays as it is under that line ending only. -/
theorem saved_windows {text : Str} (h : crlfOnly text = true) (hn : '\n' ∈ text) (lineEnding : LineEnding) :
    (normalize text).withEnding lineEnding = text ↔ lineEnding = windows := by
  refine ⟨fun hsav => ?_, fun hend => hend ▸ withEnding_normalize h⟩
  cases lineEnding with
  | windows => rfl
  | unix =>
    rw [withEnding_unix] at hsav
    have hnot := notMem_normalize text
    rw [hsav] at hnot
    exact absurd (carriageReturn_mem h hn) hnot

theorem saved_iff (default : LineEnding) {text : Str} (h : Uniform text) :
    ∃ loaded, new default text = some loaded ∧ (loaded.textWithLineEndings = text ↔ Kept default text) := by
  obtain ⟨loaded, hnew, hend, hsav⟩ := new_spec _ text
  refine ⟨loaded, hnew, ?_⟩
  rw [hsav, hend]
  unfold Kept FoundIn
  by_cases hn : '\n' ∈ text
  · rcases h with hr | hcrlf
    · have hfst : ofFirstLine text = unix := by
        refine if_neg fun hlast => hr ?_
        exact takeWhile_subset _ (List.mem_of_getLast? hlast)
      have hnot : crlfOnly text ≠ true := fun hcrlf => hr (carriageReturn_mem hcrlf hn)
      rw [saved_unix hr hn]
      split_ifs <;> simp_all
    · have hfst : ofFirstLine text = windows := if_pos (getLast?_firstLine hcrlf hn)
      have hr := carriageReturn_mem hcrlf hn
      rw [saved_windows hcrlf hn]
      split_ifs <;> simp_all
  · have hr : '\r' ∉ text := h.elim id fun hcrlf => notMem_of_crlfOnly hcrlf hn
    rw [normalize_eq hr, withEnding_of_notMem _ hn]
    exact ⟨fun _ => .inl hn, fun _ => rfl⟩

/-- A text with one kind of line ends is saved as it was loaded exactly when its first line feed is near enough or the default
is its line ending; the chunks of a rope with a line ending are its text with that ending. -/
theorem line_endings_survive (default : LineEnding) :
    (∀ text, Uniform text → ∃ loaded, new default text = some loaded ∧
      (loaded.textWithLineEndings = text ↔ Kept default text)) ∧
      ∀ (rope : Rope) (lineEnding : LineEnding), '\r' ∉ rope.text →
        (chunksWithLineEnding rope lineEnding).flatten = rope.text.withEnding lineEnding :=
  ⟨fun _ h => saved_iff default h, fun _ lineEnding h => flatten_chunksWithLineEnding h lineEnding⟩

/-- Both kinds of hypotheses are met: lines that end with `\r\n`, and a rope that is cut at a line feed. -/
theorem line_endings_survive_lines :
    (∃ loaded, new unix "a\r\nb\r\n".toList = some loaded ∧
      (loaded.textWithLineEndings = "a\r\nb\r\n".toList ↔ Kept unix "a\r\nb\r\n".toList)) ∧
    (chunksWithLineEnding ⟨[Chunk.of ⟨"a\n".toList, by decide⟩, Chunk.of ⟨"\nb".toList, by decide⟩]⟩ windows).flatten =
      Str.withEnding windows "a\n\nb".toList :=
  ⟨(line_endings_survive unix).1 _ (.inr (by decide)), (line_endings_survive unix).2 _ windows (by decide)⟩

/-- A line of some length, and its end. -/
def crlfLine (n : Nat) : Str := replicate n 'a' ++ ['\r', '\n']

theorem crlfOnly_crlfLine (n : Nat) : crlfOnly (crlfLine n) = true := by
  induction n with
  | zero => rfl
  | succ n ih =>
    cases n with
    | zero => rfl
    | succ n => simpa [crlfLine, replicate_succ, crlfOnly] using ih

theorem len_firstLine_crlfLine (n : Nat) : (crlfLine n).firstLine.len = n + 1 := by
  have hline : '\n' ∉ replicate n 'a' ++ ['\r'] := by simp [mem_replicate]
  have hspl : crlfLine n = (replicate n 'a' ++ ['\r']) ++ '\n' :: [] := by simp [crlfLine]
  have ha : Char.utf8Size 'a' = 1 := by decide
  have hr : Char.utf8Size '\r' = 1 := by decide
  rw [hspl, firstLine_append hline]
  simp [Str.len, ha, hr]

theorem not_kept_crlfLine {n : Nat} (h : 999 ≤ n) : ¬ Kept unix (crlfLine n) := by
  have hlen := len_firstLine_crlfLine n
  rintro (hn | hlt | ⟨-, hr⟩ | ⟨hdef, -⟩)
  · exact hn (by simp [crlfLine])
  · omega
  · exact hr (by simp [crlfLine])
  · nomatch hdef

/-- The end of a long line is not found, and `\n` is written for it. -/
theorem long_first_line_is_not_kept : Uniform (crlfLine 1000) ∧
    ∃ loaded, new unix (crlfLine 1000) = some loaded ∧ loaded.textWithLineEndings ≠ crlfLine 1000 := by
  have huniform : Uniform (crlfLine 1000) := .inr (crlfOnly_crlfLine 1000)
  obtain ⟨loaded, hnew, hiff⟩ := saved_iff unix huniform
  exact ⟨huniform, loaded, hnew, fun heq => not_kept_crlfLine (by decide) (hiff.mp heq)⟩

end LoadedText

/-! ## The text of a buffer -/

namespace Str

end Str

end Wu
