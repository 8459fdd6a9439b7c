import Wu.Git.Status
import Wu.Path.NewRelPath
import Mathlib.Data.List.Sort

/-!
# Reading back what git prints

The formats of the three outputs, and when their readers give back what was printed.
-/

namespace Wu.Git

open List SortedGroups CharLists Option

open Path (IsCanonical)

/-! ## Fields and paths -/

/-- Fields, each with a NUL behind it. -/
def terminated (fields : List (List Char)) : List Char := fields.flatMap (· ++ ['\x00'])

theorem splitOn_terminated {fields : List (List Char)} (h : ∀ field ∈ fields, '\x00' ∉ field) :
    (terminated fields).splitOn '\x00' = fields ++ [[]] := by
  induction fields with
  | nil => rfl
  | cons field fields ih =>
    have hfie : terminated (field :: fields) = field ++ '\x00' :: terminated fields := by simp [terminated]
    rw [hfie, splitOn_append_cons_self, splitOn_eq_singleton (h _ mem_cons_self), ih fun other hoth => h _ (.tail _ hoth)]
    rfl

/-- A path that git prints. -/
structure IsPath (path : List Char) : Prop where
  canonical : IsCanonical path
  ne_nil : path ≠ []
  noNul : '\x00' ∉ path

theorem isPlain_of_canonical {path : List Char} (h : IsCanonical path) :
    ∃ names, Path.IsPlain .unix names ∧ path = Path.joined names := by
  obtain ⟨names, hnames, hpath⟩ := h
  exact ⟨names, Path.isPlain_unix hnames, hpath⟩

theorem fromUnixStr_canonical {path : List Char} (h : IsCanonical path) : Path.fromUnixStr path = .ok path := by
  obtain ⟨names, hpln, rfl⟩ := isPlain_of_canonical h
  have hrel : Path.isAbsolute .unix (Path.joined names) = false :=
    Bool.eq_false_iff.mpr fun habs => absurd (hpln.isAbsolute_iff.mp habs).1 (by decide)
  rw [Path.fromUnixStr, hpln.new hrel]

theorem getLast?_canonical {path : List Char} (h : IsCanonical path) : path.getLast? ≠ some '/' := by
  obtain ⟨names, hpln, rfl⟩ := isPlain_of_canonical h
  intro hlast
  exact absurd (hpln.getLast? '/' hlast) (by decide)

/-- Sorted paths are sorted by an order in which only equal paths are equal. -/
theorem SortUnstable.sortedBy {V : Type} (order : SortUnstable V) {items : List (List Char × V)}
    (h : ∀ item ∈ items, IsCanonical item.1) : SortedGroups.SortedBy Path.cmp (order.sort items) := by
  refine ⟨order.sorted _, fun a ha b hb heq => ?_⟩
  have hsame : Path.components a.1 = Path.components b.1 := Std.LawfulEqOrd.eq_of_compare heq
  have hpath := @Path.RelPath.ext ⟨a.1, h a ((order.perm _).mem_iff.mp ha)⟩ ⟨b.1, h b ((order.perm _).mem_iff.mp hb)⟩ hsame
  exact congrArg Path.RelPath.text hpath

instance : Std.TransCmp Path.cmp := inferInstanceAs (Std.TransCmp (compareOn Path.components))

/-- The items that are left when those with one path are merged. -/
theorem SortUnstable.merges {V : Type} (order : SortUnstable V) (merge : V → V → V) {items : List (List Char × V)}
    (h : ∀ item ∈ items, IsCanonical item.1) :
    SortedGroups.Merges Path.cmp merge (order.sort items) (dedupBy merge (order.sort items)) :=
  dedupBy_merges _ (order.sortedBy h)

/-! ## `git status` -/

def UnmergedStatusCode.letter : UnmergedStatusCode → Char
  | added => 'A'
  | deleted => 'D'
  | updated => 'U'

def StatusCode.letter : StatusCode → Char
  | modified => 'M'
  | typeChanged => 'T'
  | added => 'A'
  | deleted => 'D'
  | renamed => 'R'
  | copied => 'C'
  | unmodified => ' '

/-- The pair that git documents for a status. -/
def FileStatus.letters : FileStatus → Char × Char
  | untracked => ('?', '?')
  | ignored => ('!', '!')
  | unmerged firstHead secondHead => (firstHead.letter, secondHead.letter)
  | tracked indexStatus worktreeStatus => (indexStatus.letter, worktreeStatus.letter)

/-- The statuses that git documents, without renames and copies. -/
def FileStatus.documented : FileStatus → Bool
  | untracked => true
  | ignored => true
  | unmerged .added .deleted => false
  | unmerged .deleted .added => false
  | unmerged _ _ => true
  | tracked .unmodified worktreeStatus => worktreeStatus ∈ [.modified, .typeChanged, .added, .deleted]
  | tracked .deleted worktreeStatus => worktreeStatus = .unmodified
  | tracked indexStatus worktreeStatus =>
    decide (indexStatus ∈ [.modified, .typeChanged, .added] ∧ worktreeStatus ∈ [.unmodified, .modified, .typeChanged, .deleted])

/-- Both heads deleted the file. -/
abbrev bothDeleted : FileStatus := .unmerged .deleted .deleted

/-- What the pair of a status is read as. -/
def FileStatus.asRead (status : FileStatus) : FileStatus := if status = bothDeleted then .unmerged .added .added else status

theorem fromBytes_letters {status : FileStatus} (h : status.documented) :
    FileStatus.fromBytes status.letters.1 status.letters.2 = .ok status.asRead := by
  cases status with
  | untracked => rfl
  | ignored => rfl
  | unmerged firstHead secondHead => cases firstHead <;> cases secondHead <;> first | rfl | cases h
  | tracked indexStatus worktreeStatus => cases indexStatus <;> cases worktreeStatus <;> first | rfl | cases h

/-- An entry of `git status`. -/
structure Entry where
  path : List Char
  isDirectory : Bool
  status : FileStatus

namespace Entry

/-- The field of an entry: the pair, a space, and the path, with a slash behind that of a directory. -/
def field (entry : Entry) : List Char :=
  entry.status.letters.1 :: entry.status.letters.2 :: ' ' :: (entry.path ++ if entry.isDirectory then ['/'] else [])

/-- The entries that are no directories. -/
def files (entries : List Entry) : List Entry := entries.filter fun entry => !entry.isDirectory

/-- Says that entries are such as git prints: a path is listed again only with one status, or as deleted and untracked. -/
structure Listed (entries : List Entry) : Prop where
  documented : ∀ entry ∈ entries, entry.status.documented
  path : ∀ entry ∈ entries, IsPath entry.path
  again : ∀ a ∈ files entries, ∀ b ∈ files entries, a.path = b.path →
    a.status = b.status ∨ a.status = indexDeleted ∧ b.status = .untracked ∨ a.status = .untracked ∧ b.status = indexDeleted

/-- Says what entries mean for a path: its one status, or that it is deleted and added again. -/
def Means (entries : List Entry) (path : List Char) (status : FileStatus) : Prop :=
  (∃ entry ∈ files entries, entry.path = path) ∧ ((∀ entry ∈ files entries, entry.path = path → entry.status = status) ∨
      (∃ entry ∈ files entries, entry.path = path ∧ entry.status = indexDeleted) ∧
        (∃ entry ∈ files entries, entry.path = path ∧ entry.status = .untracked) ∧ status = deletedAndAdded)

/-- Says that the printed entries are read back: sorted by path, one for each path, and different pairs as different statuses. -/
structure ReadBack (order : SortUnstable FileStatus) (entries : List Entry) : Prop where
  sorted : (GitStatus.fromStr order (terminated (entries.map field))).Pairwise fun a b => Path.cmp a.1 b.1 = .lt
  mem_iff : ∀ (path : List Char) (status : FileStatus),
    (path, status) ∈ GitStatus.fromStr order (terminated (entries.map field)) ↔ Means entries path status
  distinct : ∀ a ∈ files entries, ∀ b ∈ files entries,
    FileStatus.fromBytes a.status.letters.1 a.status.letters.2 = FileStatus.fromBytes b.status.letters.1 b.status.letters.2 →
      a.status.letters = b.status.letters

theorem readEntry_field {entry : Entry} (hstat : entry.status.documented) (hpath : IsPath entry.path) :
    readEntry entry.field = if entry.isDirectory then none else some (entry.path, entry.status.asRead) := by
  rw [field, readEntry, fromBytes_letters hstat]
  cases entry.isDirectory with
  | true => simp
  | false => simp [fromUnixStr_canonical hpath.canonical, getLast?_canonical hpath.canonical]

theorem noNul_field {entry : Entry} (hpath : IsPath entry.path) : '\x00' ∉ entry.field := by
  have hlet : entry.status.letters.1 ≠ '\x00' ∧ entry.status.letters.2 ≠ '\x00' := by
    cases entry.status with
    | untracked => decide
    | ignored => decide
    | unmerged firstHead secondHead => cases firstHead <;> cases secondHead <;> decide
    | tracked indexStatus worktreeStatus => cases indexStatus <;> cases worktreeStatus <;> decide
  cases hdir : entry.isDirectory with
  | true | false => simp [field, hlet.1.symm, hlet.2.symm, hpath.noNul, hdir]

/-- The statuses of the files, as they are read. -/
def readFiles (entries : List Entry) : List (List Char × FileStatus) :=
  (files entries).map fun entry => (entry.path, entry.status.asRead)

theorem filterMap_readEntry {entries : List Entry} (h : ∀ entry ∈ entries, entry.status.documented ∧ IsPath entry.path) :
    ((terminated (entries.map field)).splitOn '\x00').filterMap readEntry = readFiles entries := by
  have hnul : ∀ line ∈ entries.map field, '\x00' ∉ line := by
    intro line hline
    obtain ⟨entry, hent, rfl⟩ := mem_map.mp hline
    exact noNul_field (h _ hent).2
  have hread : (entries.map field).filterMap readEntry = readFiles entries := by
    induction entries with
    | nil => rfl
    | cons entry entries ih =>
      have hrest := ih fun other hoth => h _ (.tail _ hoth)
      have hent := readEntry_field (h _ mem_cons_self).1 (h _ mem_cons_self).2
      cases hdir : entry.isDirectory with
      | true => simp_all [readFiles, files]
      | false => simp_all [readFiles, files]
  rw [splitOn_terminated hnul, filterMap_append, hread]
  exact append_nil _

/-- The values of a path are the statuses of its files, as they are read. -/
theorem mem_valuesOf_readFiles {order : SortUnstable FileStatus} {entries : List Entry} {path : List Char} {status : FileStatus} :
    status ∈ valuesOf path (order.sort (readFiles entries)) ↔
      ∃ entry ∈ files entries, entry.path = path ∧ entry.status.asRead = status := by
  rw [mem_valuesOf, (order.perm _).mem_iff, readFiles]
  simp

end Entry

/-! ### A path that is listed again -/

theorem foldl_mergeStatus_same {first : FileStatus} {more : List FileStatus} (h : ∀ status ∈ more, status = first) :
    more.foldl mergeStatus first = first := by
  induction more with
  | nil => rfl
  | cons status more ih =>
    have hsame : mergeStatus first status = first := by
      rw [h _ mem_cons_self, mergeStatus, if_neg]
      rintro (⟨haga, hkept⟩ | ⟨hkept, haga⟩)
      · exact absurd (haga.symm.trans hkept) (by decide)
      · exact absurd (haga.symm.trans hkept) (by decide)
    rw [foldl_cons, hsame]
    exact ih fun other hoth => h _ (.tail _ hoth)

theorem foldl_mergeStatus_deletedAndAdded (more : List FileStatus) : more.foldl mergeStatus deletedAndAdded = deletedAndAdded := by
  induction more with
  | nil => rfl
  | cons status more ih =>
    have hsame : mergeStatus deletedAndAdded status = deletedAndAdded :=
      if_neg (by rintro (⟨-, hkept⟩ | ⟨-, hkept⟩) <;> exact absurd hkept (by decide))
    rw [foldl_cons, hsame]
    exact ih

/-- Says that two statuses may be listed for one path. -/
def MayMeet (a b : FileStatus) : Prop :=
  a = b ∨ a = indexDeleted ∧ b = .untracked ∨ a = .untracked ∧ b = indexDeleted

/-- Statuses for one path are all the same, or come to deleted and added. -/
theorem foldl_mergeStatus {first : FileStatus} {more : List FileStatus} (h : ∀ status ∈ more, MayMeet first status) :
    (∀ status ∈ more, status = first) ∧ more.foldl mergeStatus first = first ∨
      (indexDeleted ∈ first :: more ∧ .untracked ∈ first :: more) ∧ more.foldl mergeStatus first = deletedAndAdded := by
  induction more with
  | nil => exact .inl ⟨nofun, rfl⟩
  | cons status more ih =>
    have hrest := ih fun other hoth => h _ (.tail _ hoth)
    rcases h _ mem_cons_self with rfl | hpair
    · have hsame : mergeStatus first first = first := @foldl_mergeStatus_same _ _ fun _ h => mem_singleton.mp h
      rw [foldl_cons, hsame]
      refine hrest.imp (fun hall => ⟨forall_mem_cons.mpr ⟨rfl, hall.1⟩, hall.2⟩) fun hboth => ⟨?_, hboth.2⟩
      exact ⟨.tail _ hboth.1.1, .tail _ hboth.1.2⟩
    · have hmer : mergeStatus first status = deletedAndAdded :=
        if_pos (hpair.elim (fun h => .inr ⟨h.2, h.1⟩) fun h => .inl ⟨h.2, h.1⟩)
      rw [foldl_cons, hmer]
      refine .inr ⟨?_, foldl_mergeStatus_deletedAndAdded more⟩
      rcases hpair with ⟨rfl, rfl⟩ | ⟨rfl, rfl⟩
      · exact ⟨mem_cons_self, .tail _ mem_cons_self⟩
      · exact ⟨.tail _ mem_cons_self, mem_cons_self⟩

namespace Entry

theorem asRead_eq_self {status : FileStatus} (h : status ≠ bothDeleted) : status.asRead = status := if_neg h

/-- The statuses are read back exactly when no file is deleted by both heads. -/
theorem readBack_iff (order : SortUnstable FileStatus) {entries : List Entry} (h : Listed entries) :
    ReadBack order entries ↔ ∀ entry ∈ files entries, entry.status ≠ bothDeleted := by
  have hlist : ∀ entry ∈ entries, entry.status.documented ∧ IsPath entry.path :=
    fun entry hent => ⟨h.documented _ hent, h.path _ hent⟩
  have hfil : ∀ entry ∈ files entries, entry.status.documented ∧ IsPath entry.path :=
    fun entry hent => hlist _ (mem_of_mem_filter hent)
  have hcan : ∀ item ∈ readFiles entries, IsCanonical item.1 := by
    intro item hitem
    obtain ⟨entry, hent, rfl⟩ := mem_map.mp hitem
    exact (hfil _ hent).2.canonical
  have hmerg := order.merges mergeStatus hcan
  have hread : GitStatus.fromStr order (terminated (entries.map field)) =
      dedupBy mergeStatus (order.sort (readFiles entries)) := by
    rw [GitStatus.fromStr, filterMap_readEntry hlist]
  rw [← hread] at hmerg
  constructor
  · intro hback entry hent hdel
    have hmean : Means entries entry.path bothDeleted := by
      refine ⟨⟨entry, hent, rfl⟩, .inl fun other hoth hpath => ?_⟩
      rcases h.again _ hent _ hoth hpath.symm with heq | ⟨heq, -⟩ | ⟨heq, -⟩
      · exact heq.symm.trans hdel
      · exact absurd (hdel.symm.trans heq) (by decide)
      · exact absurd (hdel.symm.trans heq) (by decide)
    obtain ⟨first, more, hvals, hfold⟩ := (hmerg.mem_iff _ _).mp ((hback.mem_iff _ _).mpr hmean)
    have hall : ∀ status ∈ first :: more, status = .unmerged .added .added := by
      intro status hstat
      obtain ⟨other, hoth, hpath, rfl⟩ := mem_valuesOf_readFiles.mp (hvals ▸ hstat)
      rcases h.again _ hent _ hoth hpath.symm with heq | ⟨heq, -⟩ | ⟨heq, -⟩
      · rw [← heq, hdel]
        rfl
      · exact absurd (hdel.symm.trans heq) (by decide)
      · exact absurd (hdel.symm.trans heq) (by decide)
    have hfst := hall _ mem_cons_self
    rw [foldl_mergeStatus_same fun status hstat => (hall _ (.tail _ hstat)).trans hfst.symm, hfst] at hfold
    cases hfold
  · intro hnone
    have hval : ∀ {path : List Char} {status : FileStatus},
        status ∈ valuesOf path (order.sort (readFiles entries)) ↔
          ∃ entry ∈ files entries, entry.path = path ∧ entry.status = status := by
      intro path status
      rw [mem_valuesOf_readFiles]
      refine exists_congr fun entry => and_congr_right fun hent => ?_
      rw [asRead_eq_self (hnone _ hent)]
    refine ⟨hmerg.sorted, fun path status => (hmerg.mem_iff path _).trans ⟨?_, ?_⟩, fun a ha b hb heq => ?_⟩
    · rintro ⟨first, more, hvals, rfl⟩
      have hmem : ∀ status, status ∈ first :: more ↔ ∃ entry ∈ files entries, entry.path = path ∧ entry.status = status :=
        fun status => hvals ▸ hval
      obtain ⟨entry, hent, hpath, hfst⟩ := (hmem _).mp mem_cons_self
      have hmeet : ∀ status ∈ more, MayMeet first status := by
        intro status hstat
        obtain ⟨other, hoth, hpath', rfl⟩ := (hmem _).mp (.tail _ hstat)
        exact hfst ▸ h.again _ hent _ hoth (hpath.trans hpath'.symm)
      refine ⟨⟨entry, hent, hpath⟩, (foldl_mergeStatus hmeet).imp (fun hall other hoth hpath' => ?_) fun hboth => ?_⟩
      · rw [hall.2]
        obtain heq | hmore := mem_cons.mp ((hmem _).mpr ⟨other, hoth, hpath', rfl⟩)
        · exact heq
        · exact hall.1 _ hmore
      · exact ⟨(hmem _).mp hboth.1.1, (hmem _).mp hboth.1.2, hboth.2⟩
    · rintro ⟨⟨entry, hent, rfl⟩, hcase⟩
      cases hvals : valuesOf entry.path _ with
      | nil =>
        have hmem := hval.mpr ⟨entry, hent, rfl, rfl⟩
        rw [hvals] at hmem
        cases hmem
      | cons first more =>
        have hmem : ∀ status, status ∈ first :: more ↔ ∃ other ∈ files entries, other.path = entry.path ∧ other.status = status :=
          fun status => hvals ▸ hval
        obtain ⟨other, hoth, hpath, hfst⟩ := (hmem _).mp mem_cons_self
        refine ⟨first, more, rfl, ?_⟩
        rcases hcase with hall | ⟨hdel, hunt, rfl⟩
        · have hsame : ∀ found ∈ first :: more, found = status := by
            intro found hfnd
            obtain ⟨file, hfile, hpath', rfl⟩ := (hmem _).mp hfnd
            exact hall file hfile hpath'
          rw [foldl_mergeStatus_same fun found hfnd => (hsame _ (.tail _ hfnd)).trans (hsame _ mem_cons_self).symm]
          exact (hsame _ mem_cons_self).symm
        · have hmeet : ∀ status ∈ more, MayMeet first status := by
            intro status hstat
            obtain ⟨file, hfile, hpath', rfl⟩ := (hmem _).mp (.tail _ hstat)
            exact hfst ▸ h.again _ hoth file hfile (hpath.trans hpath'.symm)
          rcases foldl_mergeStatus hmeet with ⟨hall, -⟩ | ⟨-, hfold⟩
          · have hsame : ∀ found ∈ first :: more, found = first := forall_mem_cons.mpr ⟨rfl, hall⟩
            have heq := (hsame _ ((hmem _).mpr hdel)).trans (hsame _ ((hmem _).mpr hunt)).symm
            exact absurd heq (by decide)
          · exact hfold.symm
    · rw [fromBytes_letters (hfil a ha).1, fromBytes_letters (hfil b hb).1, asRead_eq_self (hnone a ha),
        asRead_eq_self (hnone b hb)] at heq
      exact congrArg _ (Except.ok.inj heq)

end Entry

/-! ## Object ids -/

/-- `Oid::hex_digit` for a half of a byte. -/
def hexDigit (nibble : UInt8) : Char := Nat.digitChar nibble.toNat

/-- The text of an id. -/
def Oid.hex (oid : Oid) : List Char :=
  (oid.bytes.take (match oid.format with | .sha1 => sha1ByteLength | .sha256 => sha256ByteLength)).flatMap
    fun byte : UInt8 => [hexDigit (byte >>> 4), hexDigit (byte &&& 15)]

/-- Says that an id has the bytes of its format, and zeros behind them. -/
def Oid.IsId (oid : Oid) : Prop :=
  oid.bytes.length = sha256ByteLength ∧ (oid.format = .sha1 → oid.bytes.drop sha1ByteLength = replicate 12 0)

theorem decodeHexDigit_hexDigit : ∀ n < 16, (String.utf8EncodeChar (Nat.digitChar n)) = [(Nat.digitChar n).toUInt8] ∧
    decodeHexDigit (Nat.digitChar n).toUInt8 = some (UInt8.ofNat n) ∧ ' ' ≠ Nat.digitChar n ∧ '\x00' ≠ Nat.digitChar n := by
  decide

theorem nibbles (byte : UInt8) :
    (byte >>> 4).toNat < 16 ∧ (byte &&& 15).toNat < 16 ∧ (byte >>> 4) <<< 4 ||| (byte &&& 15) = byte := by
  have hall : ∀ n : Fin 256, ((UInt8.ofFin n) >>> 4).toNat < 16 ∧ ((UInt8.ofFin n) &&& 15).toNat < 16 ∧
      ((UInt8.ofFin n) >>> 4) <<< 4 ||| ((UInt8.ofFin n) &&& 15) = UInt8.ofFin n := by decide +kernel
  exact hall _

theorem hexDigit_spec {nibble : UInt8} (h : nibble.toNat < 16) :
    String.utf8EncodeChar (hexDigit nibble) = [(hexDigit nibble).toUInt8] ∧ decodeHexDigit (hexDigit nibble).toUInt8 = some nibble ∧
      ' ' ≠ hexDigit nibble ∧ '\x00' ≠ hexDigit nibble := by
  obtain ⟨henc, hdec, hchar⟩ := decodeHexDigit_hexDigit _ h
  exact ⟨henc, hdec.trans (congrArg some UInt8.ofNat_toNat), hchar⟩

/-- The digits of bytes are read into the places of the bytes. -/
theorem decodeHex_hex (bytes : List UInt8) (k : Nat) (into : List UInt8) (h : k + bytes.length ≤ into.length) :
    decodeHex into (2 * k) (bytes.flatMap fun byte : UInt8 => [(hexDigit (byte >>> 4)).toUInt8, (hexDigit (byte &&& 15)).toUInt8]) =
      .ok (into.take k ++ bytes ++ into.drop (k + bytes.length)) := by
  induction bytes generalizing k into with
  | nil => rw [flatMap_nil, decodeHex, append_nil, length_nil, Nat.add_zero, take_append_drop]
  | cons byte bytes ih =>
    obtain ⟨hhigh, hlow, hbyte⟩ := nibbles byte
    rw [length_cons] at h
    have hset : (into.set k ((byte >>> 4) <<< 4)).modify k (· ||| (byte &&& 15)) = into.set k byte := by
      rw [modify_eq_set, List.getElem?_set_self (by omega), getD_some, set_set, hbyte]
    have htake : (into.set k byte).take (k + 1) = into.take k ++ [byte] := by
      rw [take_succ_eq_append_getElem (by rw [length_set]; omega), getElem_set_self, take_set_of_le (Nat.le_refl k)]
    rw [flatMap_cons, cons_append, decodeHex, (hexDigit_spec hhigh).2.1]
    dsimp only
    rw [if_pos (by omega), Nat.mul_div_cancel_left k (by omega), cons_append, decodeHex, (hexDigit_spec hlow).2.1]
    dsimp only
    rw [if_neg (by omega), show (2 * k + 1) / 2 = k by omega, hset, nil_append, show 2 * k + 1 + 1 = 2 * (k + 1) by omega,
      ih _ _ (by rw [length_set]; omega)]
    rw [htake, drop_set_of_lt (by omega), show k + 1 + bytes.length = k + (bytes.length + 1) by omega, append_assoc (into.take k)]
    rfl

/-- The text of an id is read back. -/
theorem fromStr_hex {oid : Oid} (h : oid.IsId) : Oid.fromStr oid.hex = .ok oid := by
  obtain ⟨bytes, format⟩ := oid
  obtain ⟨hlen, hzero⟩ := h
  have hbyte : ∀ bytes : List UInt8, (bytes.flatMap fun byte : UInt8 => [hexDigit (byte >>> 4), hexDigit (byte &&& 15)]).flatMap
      String.utf8EncodeChar =
        bytes.flatMap fun byte : UInt8 => [(hexDigit (byte >>> 4)).toUInt8, (hexDigit (byte &&& 15)).toUInt8] := by
    intro bytes
    rw [flatMap_assoc]
    refine congrArg (bytes.flatMap ·) (funext fun byte => ?_)
    obtain ⟨hhigh, hlow, -⟩ := nibbles byte
    simp [(hexDigit_spec hhigh).1, (hexDigit_spec hlow).1]
  have hcnt : ∀ bytes : List UInt8, (bytes.flatMap fun byte : UInt8 =>
      [(hexDigit (byte >>> 4)).toUInt8, (hexDigit (byte &&& 15)).toUInt8]).length = 2 * bytes.length := by
    simp [Nat.mul_comm]
  have hread : ∀ read : List UInt8, read.length ≤ 32 → decodeHex (replicate sha256ByteLength 0) 0 (read.flatMap fun byte : UInt8 =>
      [(hexDigit (byte >>> 4)).toUInt8, (hexDigit (byte &&& 15)).toUInt8]) = .ok (read ++ replicate (32 - read.length) 0) := by
    intro read hle
    rw [decodeHex_hex read 0 _ (by simpa [sha256ByteLength] using hle), drop_replicate, Nat.zero_add]
    rfl
  cases format with
  | sha1 =>
    have htake : (bytes.take sha1ByteLength).length = 20 := by simp [hlen, sha1ByteLength, sha256ByteLength]
    rw [Oid.hex, Oid.fromStr]
    dsimp only
    rw [hbyte, hcnt, htake, if_pos (by decide), hread _ (by omega), htake, Except.map]
    rw [← hzero rfl, take_append_drop]
  | sha256 =>
    have htake : bytes.take sha256ByteLength = bytes := take_of_length_le (Nat.le_of_eq hlen)
    rw [Oid.hex, Oid.fromStr]
    rw [htake, hbyte, hcnt, hlen, if_neg (by decide), if_pos (by decide), hread _ (Nat.le_of_eq hlen), hlen, Except.map]
    exact congrArg (fun bytes => Except.ok (Oid.mk bytes _)) (append_nil _)

/-! ## `git diff-tree` -/

/-- A record of `git diff-tree`. -/
structure TreeRecord where
  oldMode : List Char
  newMode : List Char
  oldSha : Oid
  newSha : Oid
  status : Char
  path : List Char

namespace TreeRecord

def header (record : TreeRecord) : List Char :=
  (':' :: record.oldMode) ++ ' ' :: (record.newMode ++ ' ' :: (record.oldSha.hex ++ ' ' :: (record.newSha.hex ++ ' ' :: [record.status])))

def fields (record : TreeRecord) : List (List Char) := [record.header, record.path]

/-- Says that a record is such as git prints: one path, with the letter of a change. -/
structure Formatted (record : TreeRecord) : Prop where
  oldMode : ∀ c ∈ record.oldMode, c.isDigit
  newMode : ∀ c ∈ record.newMode, c.isDigit
  oldSha : record.oldSha.IsId
  newSha : record.newSha.IsId
  status : record.status ∈ ['A', 'D', 'M', 'T', 'U', 'X']
  path : IsPath record.path

/-- The change of a record, with the old id. -/
def change? (record : TreeRecord) : Option TreeDiffStatus :=
  if record.status = 'A' then some .added
  else if record.status = 'M' then some (.modified record.oldSha)
  else if record.status = 'D' then some (.deleted record.oldSha)
  else none

/-- Says that the printed records are read back: each path has its change, and no other path has one. -/
def ReadBack (records : List TreeRecord) : Prop :=
  ∃ parsed, TreeDiff.fromStr (terminated (records.flatMap fields)) = .ok parsed ∧
    (∀ record ∈ records, ∃ change, record.change? = some change ∧ Assoc.get record.path parsed = some change) ∧
    ∀ path, Assoc.get path parsed ≠ none → ∃ record ∈ records, record.path = path

theorem notMem_hex {oid : Oid} : ' ' ∉ oid.hex ∧ '\x00' ∉ oid.hex := by
  refine ⟨fun h => ?_, fun h => ?_⟩ <;>
  · obtain ⟨byte, -, hdigit⟩ := mem_flatMap.mp h
    obtain ⟨hhigh, hlow, -⟩ := nibbles byte
    simp [(hexDigit_spec hhigh).2.2, (hexDigit_spec hlow).2.2] at hdigit

theorem notMem_of_digits {text : List Char} (h : ∀ c ∈ text, c.isDigit) : ' ' ∉ text ∧ '\x00' ∉ text :=
  ⟨fun hmem => absurd (h _ hmem) (by decide), fun hmem => absurd (h _ hmem) (by decide)⟩

variable {record : TreeRecord}

theorem splitOn_header (h : record.Formatted) :
    record.header.splitOn ' ' = [':' :: record.oldMode, record.newMode, record.oldSha.hex, record.newSha.hex, [record.status]] := by
  have hmode : ' ' ∉ ':' :: record.oldMode := not_mem_cons_of_ne_of_not_mem (by decide) (notMem_of_digits h.oldMode).1
  have hstat : ' ' ∉ [record.status] := fun hmem => by
    have hspa := h.status
    rw [← mem_singleton.mp hmem] at hspa
    exact absurd hspa (by decide)
  rw [header, splitOn_append_cons_self, splitOn_eq_singleton hmode, splitOn_append_cons_self,
    splitOn_eq_singleton (notMem_of_digits h.newMode).1, splitOn_append_cons_self, splitOn_eq_singleton notMem_hex.1,
    splitOn_append_cons_self, splitOn_eq_singleton notMem_hex.1, splitOn_eq_singleton hstat]
  rfl

/-- The change of a record is read, except for letters that are no status. -/
theorem readChange_header (h : record.Formatted) :
    if record.status = 'U' ∨ record.status = 'X' then ∃ error, readChange record.header = .error error
    else readChange record.header = .ok record.change? := by
  have hstat := h.status
  simp only [mem_cons, not_mem_nil, or_false] at hstat
  rw [readChange, splitOn_header h]
  dsimp only [List.drop]
  rw [fromStr_hex h.oldSha, change?]
  rcases hstat with hstat | hstat | hstat | hstat | hstat | hstat <;> rw [hstat]
  · rfl
  · rfl
  · rfl
  · rfl
  · exact ⟨_, rfl⟩
  · exact ⟨_, rfl⟩

/-- The loop over records that can be read: a path has the change of its records, when these agree. -/
theorem treeDiffLoop_fields {records : List TreeRecord}
    (h : ∀ record ∈ records, record.Formatted ∧ ¬(record.status = 'U' ∨ record.status = 'X'))
    (parsed : List (List Char × TreeDiffStatus)) :
    ∃ result, treeDiffLoop parsed (records.flatMap fields ++ [[]]) = .ok result ∧
      (∀ path, (∀ record ∈ records, record.path ≠ path) → Assoc.get path result = Assoc.get path parsed) ∧
      ∀ path change, (∃ record ∈ records, record.path = path) → (∀ record ∈ records, record.path = path → record.change? = some change) →
        Assoc.get path result = some change := by
  induction records generalizing parsed with
  | nil => exact ⟨parsed, rfl, fun _ _ => rfl, fun _ _ ⟨_, hmem, _⟩ => absurd hmem not_mem_nil⟩
  | cons record records ih =>
    obtain ⟨hfor, hread⟩ := h _ mem_cons_self
    have hchg := readChange_header hfor
    rw [if_neg hread] at hchg
    have hstep : treeDiffLoop parsed ((record :: records).flatMap fields ++ [[]]) =
        treeDiffLoop (match record.change? with | none => parsed | some change => Assoc.update record.path (fun _ => change) parsed)
          (records.flatMap fields ++ [[]]) := by
      rw [flatMap_cons, fields, append_assoc, cons_append, cons_append, treeDiffLoop, fromUnixStr_canonical hfor.path.canonical]
      rw [hchg]
      cases record.change? <;> rfl
    obtain ⟨result, hres, hoth, hown⟩ := ih (fun other hmem => h _ (.tail _ hmem)) _
    refine ⟨result, hstep.trans hres, fun path hpath => ?_, fun path change hex hall => ?_⟩
    · rw [hoth path fun other hmem => hpath _ (.tail _ hmem)]
      have hne : path ≠ record.path := (hpath _ mem_cons_self).symm
      cases record.change? with
      | none => rfl
      | some change => exact (Assoc.get_update _ _ _ _).trans (if_neg hne)
    · have hrest : ∀ other ∈ records, other.path = path → other.change? = some change := fun other hmem => hall _ (.tail _ hmem)
      by_cases hlat : ∃ other ∈ records, other.path = path
      · exact hown path _ hlat hrest
      · have hnot : ∀ other ∈ records, other.path ≠ path := fun other hmem heq => hlat ⟨other, hmem, heq⟩
        obtain ⟨found, hfnd, hpath⟩ := hex
        obtain rfl | hfnd := mem_cons.mp hfnd
        · rw [hoth path hnot, hall _ mem_cons_self hpath, ← hpath]
          exact (Assoc.get_update _ _ _ _).trans (if_pos rfl)
        · exact absurd hpath (hnot _ hfnd)

theorem change?_of_other (h : record.status = 'U' ∨ record.status = 'X') : record.change? = none := by
  rcases h with h | h <;> rw [change?, h] <;> rfl

/-- The records are read back exactly when each is of a file that was added, deleted or modified, and those of one path agree. -/
theorem readBack_iff {records : List TreeRecord} (h : ∀ record ∈ records, record.Formatted) :
    ReadBack records ↔ (∀ record ∈ records, record.status ∈ ['A', 'D', 'M']) ∧
      ∀ a ∈ records, ∀ b ∈ records, a.path = b.path → a.change? = b.change? := by
  have hsome : ∀ record ∈ records, record.change? ≠ none ↔ record.status ∈ ['A', 'D', 'M'] := by
    intro record hmem
    have hstat := (h _ hmem).status
    simp only [mem_cons, not_mem_nil, or_false] at hstat
    rcases hstat with hstat | hstat | hstat | hstat | hstat | hstat <;> rw [change?, hstat] <;> simp
  have hspl : TreeDiff.fromStr (terminated (records.flatMap fields)) = treeDiffLoop [] (records.flatMap fields ++ [[]]) := by
    rw [TreeDiff.fromStr, splitOn_terminated]
    intro field hfie
    obtain ⟨record, hmem, hfie⟩ := mem_flatMap.mp hfie
    rcases mem_cons.mp hfie with rfl | hfie
    · have hstat : '\x00' ≠ record.status := fun heq => absurd (heq ▸ (h _ hmem).status) (by decide)
      simp [header, (notMem_of_digits (h _ hmem).oldMode).2, (notMem_of_digits (h _ hmem).newMode).2, notMem_hex.2, hstat]
    · rw [mem_singleton.mp hfie]
      exact (h _ hmem).path.noNul
  constructor
  · rintro ⟨parsed, -, hown, -⟩
    refine ⟨fun record hmem => ?_, fun a ha b hb hpath => ?_⟩
    · obtain ⟨change, hchg, -⟩ := hown _ hmem
      exact (hsome _ hmem).mp (by rw [hchg]; exact some_ne_none _)
    · obtain ⟨change, hchg, hget⟩ := hown a ha
      obtain ⟨change', hchg', hget'⟩ := hown b hb
      rw [hchg, hchg', ← hget, ← hget', hpath]
  · rintro ⟨hlet, hagr⟩
    have hread : ∀ record ∈ records, record.Formatted ∧ ¬(record.status = 'U' ∨ record.status = 'X') := fun record hmem =>
      ⟨h _ hmem, fun hoth => (hsome _ hmem).mpr (hlet _ hmem) (change?_of_other hoth)⟩
    obtain ⟨result, hres, hoth, hown⟩ := treeDiffLoop_fields hread []
    refine ⟨result, hspl.trans hres, fun record hmem => ?_, fun path hpath => ?_⟩
    · obtain ⟨change, hchg⟩ := Option.ne_none_iff_exists'.mp ((hsome _ hmem).mpr (hlet _ hmem))
      exact ⟨change, hchg, hown _ _ ⟨record, hmem, rfl⟩ fun other hmem' heq =>
        (hagr _ hmem' _ hmem heq).trans hchg⟩
    · by_contra hnone
      exact hpath (hoth path fun record hmem heq => hnone ⟨record, hmem, heq⟩)

end TreeRecord

/-! ## `git diff --numstat` -/

/-- A record of `git diff --numstat`: there are no counts for a binary file, and an old path for a rename. -/
structure NumstatRecord where
  counts : Option DiffStat
  oldPath : Option (List Char)
  path : List Char

namespace NumstatRecord

/-- The two counts, as they are printed. -/
def countTexts (record : NumstatRecord) : List Char × List Char :=
  match record.counts with
  | some counts => (Nat.toDigits 10 counts.added, Nat.toDigits 10 counts.deleted)
  | none => (['-'], ['-'])

def fields (record : NumstatRecord) : List (List Char) :=
  match record.oldPath with
  | none => [record.countTexts.1 ++ '\t' :: (record.countTexts.2 ++ '\t' :: record.path)]
  | some oldPath => [record.countTexts.1 ++ '\t' :: (record.countTexts.2 ++ '\t' :: []), oldPath, record.path]

/-- Says that a record is such as git prints. -/
structure Formatted (record : NumstatRecord) : Prop where
  oldPath : ∀ path ∈ record.oldPath, IsPath path
  path : IsPath record.path

/-- Says that the printed records are read back: sorted by path, with the counts of each counted file under its new path. -/
structure ReadBack (order : SortUnstable DiffStat) (records : List NumstatRecord) : Prop where
  sorted : (parseNumstat order (terminated (records.flatMap fields))).Pairwise fun a b => Path.cmp a.1 b.1 = .lt
  mem_iff : ∀ (path : List Char) (counts : DiffStat), (path, counts) ∈ parseNumstat order (terminated (records.flatMap fields)) ↔
    ∃ record ∈ records, record.path = path ∧ record.counts = some counts

/-- Says that a count can be told by a `u32`. -/
def Fits (counts : DiffStat) : Prop := counts.added < 2 ^ 32 ∧ counts.deleted < 2 ^ 32

instance (counts : DiffStat) : Decidable (Fits counts) := inferInstanceAs (Decidable (_ ∧ _))

/-- The entry that is read from a record. -/
def numstatEntry (record : NumstatRecord) : Option (List Char × DiffStat) :=
  match record.counts with
  | some counts => if Fits counts then some (record.path, counts) else none
  | none => none

variable {record : NumstatRecord}

theorem countTexts_char (c : Char) (h : c ∈ record.countTexts.1 ∨ c ∈ record.countTexts.2) : c.isDigit = true ∨ c = '-' := by
  cases hcou : record.counts with
  | none =>
    rw [countTexts, hcou] at h
    exact .inr (h.elim mem_singleton.mp mem_singleton.mp)
  | some counts =>
    rw [countTexts, hcou] at h
    exact .inl (h.elim (Nat.isDigit_of_mem_toDigits (by decide) (by decide)) (Nat.isDigit_of_mem_toDigits (by decide) (by decide)))

theorem notMem_countTexts {c : Char} (h : c.isDigit = false) (hne : c ≠ '-') : c ∉ record.countTexts.1 ∧ c ∉ record.countTexts.2 := by
  have hnot : ¬(c.isDigit = true ∨ c = '-') := by rw [h]; exact fun hor => hor.elim Bool.false_ne_true hne
  exact ⟨fun hmem => hnot (countTexts_char c (.inl hmem)), fun hmem => hnot (countTexts_char c (.inr hmem))⟩

theorem pushStat_countTexts (h : IsPath record.path) (entries : List (List Char × DiffStat)) :
    pushStat record.countTexts.1 record.countTexts.2 record.path entries = record.numstatEntry.toList ++ entries := by
  rw [pushStat, fromUnixStr_canonical h.canonical, countTexts, numstatEntry]
  cases record.counts with
  | none => rfl
  | some counts =>
    dsimp only
    rw [CharLists.parseU32, CharLists.parseU32, parseUnsigned_toDigits_eq, parseUnsigned_toDigits_eq]
    by_cases hadd : counts.added < 2 ^ 32
    · by_cases hdel : counts.deleted < 2 ^ 32
      · rw [if_pos hadd, if_pos hdel, if_pos ⟨hadd, hdel⟩]
        rfl
      · rw [if_pos hadd, if_neg hdel, if_neg (show ¬Fits counts from fun h => hdel h.2)]
        rfl
    · rw [if_neg hadd, if_neg (show ¬Fits counts from fun h => hadd h.1)]
      rfl

theorem numstatLoop_fields {records : List NumstatRecord} (h : ∀ record ∈ records, record.Formatted) :
    numstatLoop (records.flatMap fields ++ [[]]) = records.filterMap numstatEntry := by
  induction records with
  | nil => rfl
  | cons record records ih =>
    have hpath := (h _ mem_cons_self).path
    have htabs : '\t' ∉ record.countTexts.1 ∧ '\t' ∉ record.countTexts.2 := notMem_countTexts (by decide) (by decide)
    have hstep : numstatLoop ((record :: records).flatMap fields ++ [[]]) =
        pushStat record.countTexts.1 record.countTexts.2 record.path (numstatLoop (records.flatMap fields ++ [[]])) := by
      obtain ⟨c, rest, hcons⟩ := exists_cons_of_ne_nil hpath.ne_nil
      rw [flatMap_cons, fields]
      cases record.oldPath with
      | none =>
        rw [append_assoc, singleton_append, numstatLoop, splitOnce_char htabs.1]
        dsimp only
        rw [splitOnce_char htabs.2, hcons]
      | some oldPath =>
        rw [append_assoc, cons_append, numstatLoop, splitOnce_char htabs.1]
        dsimp only
        rw [splitOnce_char htabs.2, hcons]
        rfl
    rw [hstep, ih fun other hmem => h _ (.tail _ hmem), pushStat_countTexts hpath, filterMap_cons]
    cases record.numstatEntry <;> rfl

theorem numstatEntry_eq_some {path : List Char} {counts : DiffStat} :
    record.numstatEntry = some (path, counts) ↔ record.path = path ∧ record.counts = some counts ∧ Fits counts := by
  rw [numstatEntry]
  cases record.counts with
  | none => simp
  | some found =>
    by_cases hfits : Fits found
    · simp only [hfits, if_true, some.injEq, Prod.mk.injEq]
      exact and_congr_right fun _ => (and_iff_left_of_imp fun heq => heq ▸ hfits).symm
    · simp only [hfits, if_false, reduceCtorEq, some.injEq, false_iff]
      exact fun ⟨_, heq, hcou⟩ => hfits (heq ▸ hcou)

/-- The counts are read back exactly when they can be told by a `u32`, and the records of one path agree. -/
theorem readBack_iff (order : SortUnstable DiffStat) {records : List NumstatRecord} (h : ∀ record ∈ records, record.Formatted) :
    ReadBack order records ↔ (∀ record ∈ records, ∀ counts ∈ record.counts, Fits counts) ∧
      ∀ a ∈ records, ∀ b ∈ records, a.path = b.path → a.counts ≠ none → b.counts ≠ none → a.counts = b.counts := by
  have hread : parseNumstat order (terminated (records.flatMap fields)) =
      dedupBy (fun kept _ => kept) (order.sort (records.filterMap numstatEntry)) := by
    rw [parseNumstat, splitOn_terminated, numstatLoop_fields h]
    intro field hfie
    obtain ⟨record, hmem, hfie⟩ := mem_flatMap.mp hfie
    have hnul : '\x00' ∉ record.countTexts.1 ∧ '\x00' ∉ record.countTexts.2 := notMem_countTexts (by decide) (by decide)
    have hpath := (h _ hmem).path.noNul
    rw [fields] at hfie
    cases hold : record.oldPath with
    | none =>
      rw [hold] at hfie
      rw [mem_singleton.mp hfie]
      simp [hnul.1, hnul.2, hpath]
    | some oldPath =>
      rw [hold] at hfie
      have holdPath := ((h _ hmem).oldPath _ hold).noNul
      simp only [mem_cons, not_mem_nil, or_false] at hfie
      rcases hfie with rfl | rfl | rfl
      · simp [hnul.1, hnul.2]
      · exact holdPath
      · exact hpath
  have hents : ∀ {path : List Char} {counts : DiffStat}, (path, counts) ∈ order.sort (records.filterMap numstatEntry) ↔
      ∃ record ∈ records, record.path = path ∧ record.counts = some counts ∧ Fits counts := by
    intro path counts
    rw [(order.perm _).mem_iff, mem_filterMap]
    exact exists_congr fun record => and_congr_right fun _ => numstatEntry_eq_some
  have hcan : ∀ item ∈ records.filterMap numstatEntry, IsCanonical item.1 := by
    rintro ⟨path, counts⟩ hitem
    obtain ⟨record, hmem, rfl, -⟩ := hents.mp ((order.perm _).mem_iff.mpr hitem)
    exact (h _ hmem).path.canonical
  have hmerg := order.merges (fun kept _ => kept) hcan
  rw [← hread] at hmerg
  have hkept : ∀ (first : DiffStat) (more : List DiffStat), more.foldl (fun kept _ => kept) first = first := by
    intro first more
    induction more with
    | nil => rfl
    | cons _ more ih => exact ih
  constructor
  · intro hback
    have hfits : ∀ record ∈ records, ∀ counts ∈ record.counts, Fits counts := by
      intro record hmem counts hcou
      obtain ⟨first, more, hvals, hfold⟩ :=
        (hmerg.mem_iff _ _).mp ((hback.mem_iff _ _).mpr ⟨record, hmem, rfl, hcou⟩)
      rw [hkept] at hfold
      obtain ⟨_, _, _, _, hfst⟩ := hents.mp (mem_valuesOf.mp (hvals ▸ mem_cons_self))
      exact hfold ▸ hfst
    refine ⟨hfits, fun a ha b hb hpath hnone hnone' => ?_⟩
    obtain ⟨counts, hcou⟩ := Option.ne_none_iff_exists'.mp hnone
    obtain ⟨counts', hcou'⟩ := Option.ne_none_iff_exists'.mp hnone'
    obtain ⟨first, more, hvals, hfold⟩ := (hmerg.mem_iff _ _).mp ((hback.mem_iff _ _).mpr ⟨a, ha, rfl, hcou⟩)
    obtain ⟨first', more', hvals', hfold'⟩ :=
      (hmerg.mem_iff _ _).mp ((hback.mem_iff _ _).mpr ⟨b, hb, hpath.symm, hcou'⟩)
    rw [hvals] at hvals'
    cases hvals'
    rw [hcou, hcou', hfold, hfold']
  · rintro ⟨hfits, hagr⟩
    refine ⟨hmerg.sorted, fun path counts => (hmerg.mem_iff path _).trans ⟨?_, ?_⟩⟩
    · rintro ⟨first, more, hvals, hfold⟩
      rw [hkept] at hfold
      obtain ⟨record, hmem, hpath, hcou, -⟩ := hents.mp (mem_valuesOf.mp (hvals ▸ mem_cons_self))
      exact ⟨record, hmem, hpath, hfold ▸ hcou⟩
    · rintro ⟨record, hmem, rfl, hcou⟩
      have hval := mem_valuesOf.mpr (hents.mpr ⟨record, hmem, rfl, hcou, hfits _ hmem _ hcou⟩)
      cases hvals : valuesOf record.path _ with
      | nil =>
        rw [hvals] at hval
        cases hval
      | cons first more =>
        refine ⟨first, more, rfl, ?_⟩
        rw [hkept]
        obtain ⟨other, hoth, hpath, hfst, -⟩ := hents.mp (mem_valuesOf.mp (hvals ▸ mem_cons_self))
        have hsame := hagr _ hmem _ hoth hpath.symm (by rw [hcou]; exact some_ne_none _)
          (by rw [hfst]; exact some_ne_none _)
        rw [hcou, hfst] at hsame
        exact some.inj hsame

end NumstatRecord

/-! ## All three -/

/-- What git prints is read back exactly when no file is deleted by both heads, no record of a tree is of another change than three,
the counts can be told by a `u32`, and the records of one path agree. -/
theorem output_readBack_iff (order : SortUnstable FileStatus) (order' : SortUnstable DiffStat) {entries : List Entry}
    {trees : List TreeRecord} {stats : List NumstatRecord} (hentries : Entry.Listed entries)
    (htrees : ∀ record ∈ trees, record.Formatted) (hstats : ∀ record ∈ stats, record.Formatted) :
    (Entry.ReadBack order entries ∧ TreeRecord.ReadBack trees ∧ NumstatRecord.ReadBack order' stats) ↔
      (∀ entry ∈ Entry.files entries, entry.status ≠ bothDeleted) ∧
      ((∀ record ∈ trees, record.status ∈ ['A', 'D', 'M']) ∧
        ∀ a ∈ trees, ∀ b ∈ trees, a.path = b.path → a.change? = b.change?) ∧
      (∀ record ∈ stats, ∀ counts ∈ record.counts, NumstatRecord.Fits counts) ∧
        ∀ a ∈ stats, ∀ b ∈ stats, a.path = b.path → a.counts ≠ none → b.counts ≠ none → a.counts = b.counts := by
  rw [Entry.readBack_iff order hentries, TreeRecord.readBack_iff htrees, NumstatRecord.readBack_iff order' hstats]

/-- A sort that keeps the order of items with equal paths. -/
def insertionSort (V : Type) : SortUnstable V where
  sort := List.insertionSort fun a b => (Path.cmp a.1 b.1).isLE
  perm := perm_insertionSort _
  sorted items := by
    have : Std.Total fun a b : List Char × V => ((Path.cmp a.1 b.1).isLE : Prop) :=
      ⟨fun a b => by
        have hswap : Path.cmp b.1 a.1 = (Path.cmp a.1 b.1).swap := Std.OrientedCmp.eq_swap
        rw [hswap]
        cases Path.cmp a.1 b.1 <;> simp⟩
    have : IsTrans (List Char × V) fun a b => ((Path.cmp a.1 b.1).isLE : Prop) := ⟨fun _ _ _ => Std.TransCmp.isLE_trans⟩
    exact pairwise_insertionSort _ items

theorem isPath_letter {c : Char} (h : c ∉ ['/', '.', '\x00']) : IsPath [c] := by
  simp only [mem_cons, not_mem_nil, or_false, not_or] at h
  refine ⟨⟨[[c]], fun name hname => ?_, (Path.joined_singleton [c]).symm⟩, cons_ne_nil _ _, by simp [Ne.symm h.2.2]⟩
  rw [mem_singleton.mp hname]
  exact ⟨cons_ne_nil _ _, by simp [h.2.1], by simp, by simp [Ne.symm h.1]⟩

/-- A file that is deleted by both heads is read as one that both added. -/
theorem bothDeleted_misread :
    Entry.Listed [⟨['a'], false, bothDeleted⟩] ∧ ¬Entry.ReadBack (insertionSort FileStatus) [⟨['a'], false, bothDeleted⟩] := by
  have hlisted : Entry.Listed [⟨['a'], false, bothDeleted⟩] :=
    ⟨by decide, fun entry hentry => mem_singleton.mp hentry ▸ isPath_letter (by decide), by decide⟩
  refine ⟨hlisted, fun hback => ?_⟩
  exact (Entry.readBack_iff _ hlisted).mp hback ⟨['a'], false, bothDeleted⟩ (by simp [Entry.files]) rfl

/-- A changed file, a directory and a file that was deleted and added again, a new file in a tree, a rename and a binary file. -/
theorem output_readBack_iff_six :
    let entries : List Entry := [⟨['b'], false, .tracked .unmodified .modified⟩, ⟨['d'], true, .untracked⟩,
      ⟨['a'], false, indexDeleted⟩, ⟨['a'], false, .untracked⟩]
    let trees : List TreeRecord := [⟨['0'], ['1'], ⟨replicate 32 0, .sha1⟩, ⟨replicate 32 0, .sha1⟩, 'A', ['a']⟩]
    let stats : List NumstatRecord := [⟨some ⟨1, 0⟩, some ['o'], ['n']⟩, ⟨none, none, ['p']⟩]
    Entry.ReadBack (insertionSort FileStatus) entries ∧ TreeRecord.ReadBack trees ∧
      NumstatRecord.ReadBack (insertionSort DiffStat) stats := by
  refine (output_readBack_iff _ _ ⟨by decide, ?_, by decide⟩ ?_ ?_).mpr (by decide)
  · simp only [mem_cons, not_mem_nil, or_false]
    rintro entry (rfl | rfl | rfl | rfl) <;> exact isPath_letter (by decide)
  · intro record hrecord
    rw [mem_singleton.mp hrecord]
    have hid : Oid.IsId ⟨replicate 32 0, .sha1⟩ := ⟨length_replicate, fun _ => drop_replicate⟩
    exact ⟨by simp, by simp, hid, hid, by simp, isPath_letter (by decide)⟩
  · simp only [mem_cons, not_mem_nil, or_false]
    rintro record (rfl | rfl)
    · exact ⟨fun path hpath => (Option.some.inj hpath ▸ isPath_letter (by decide) : IsPath path), isPath_letter (by decide)⟩
    · exact ⟨fun path hpath => (by cases hpath), isPath_letter (by decide)⟩

end Wu.Git
