import Wu.Assoc
import Wu.Path.RelPath
import Wu.SortedGroups

/-!
# Git's machine-readable output

The readers of `git status --porcelain -z`, `git diff-tree -z` and `git diff --numstat -z`. All three separate fields by NUL.
-/

namespace Wu.Git

open CharLists (splitOnce parseU32)

inductive UnmergedStatusCode where
  | added
  | deleted
  | updated
  deriving DecidableEq, Repr

inductive StatusCode where
  | modified
  | typeChanged
  | added
  | deleted
  | renamed
  | copied
  | unmodified
  deriving DecidableEq, Repr

inductive FileStatus where
  | untracked
  | ignored
  | unmerged (firstHead secondHead : UnmergedStatusCode)
  | tracked (indexStatus worktreeStatus : StatusCode)
  deriving DecidableEq, Repr

/-- An error of a path, or a message. -/
inductive ParseError where
  | path (error : Path.RelPathError)
  | message (text : String)
  deriving DecidableEq, Repr

def UnmergedStatusCode.fromByte (byte : Char) : Except ParseError UnmergedStatusCode :=
  match byte with
  | 'A' => .ok .added
  | 'D' => .ok .deleted
  | 'U' => .ok .updated
  | _ => .error (.message s!"Invalid unmerged status code: {byte.toNat}")

def StatusCode.fromByte (byte : Char) : Except ParseError StatusCode :=
  match byte with
  | 'M' => .ok .modified
  | 'T' => .ok .typeChanged
  | 'A' => .ok .added
  | 'D' => .ok .deleted
  | 'R' => .ok .renamed
  | 'C' => .ok .copied
  | ' ' => .ok .unmodified
  | _ => .error (.message s!"Invalid status code: {byte.toNat}")

def FileStatus.fromBytes (first second : Char) : Except ParseError FileStatus :=
  if first = '?' ∧ second = '?' then .ok .untracked
  else if first = '!' ∧ second = '!' then .ok .ignored
  else if first = 'A' ∧ second = 'A' then .ok (.unmerged .added .added)
  else if first = 'D' ∧ second = 'D' then .ok (.unmerged .added .added)
  else if second = 'U' then do
    let firstHead ← UnmergedStatusCode.fromByte first
    return .unmerged firstHead .updated
  else if first = 'U' then do
    let secondHead ← UnmergedStatusCode.fromByte second
    return .unmerged .updated secondHead
  else do
    let indexStatus ← StatusCode.fromByte first
    let worktreeStatus ← StatusCode.fromByte second
    return .tracked indexStatus worktreeStatus

/-- Any sort by path: `sort_unstable_by` says nothing of the order of items with equal paths. -/
structure SortUnstable (V : Type) where
  sort : List (List Char × V) → List (List Char × V)
  perm : ∀ items, (sort items).Perm items
  sorted : ∀ items, (sort items).Pairwise fun a b => (Path.cmp a.1 b.1).isLE

/-! ## `git status` -/

/-- `FileStatus::index(StatusCode::Deleted)` -/
def indexDeleted : FileStatus := .tracked .deleted .unmodified

def deletedAndAdded : FileStatus := .tracked .deleted .added

/-- The file of an entry; directories are skipped, and what cannot be read. -/
def readEntry (entry : List Char) : Option (List Char × FileStatus) :=
  match entry with
  -- Two bytes in front that are one character are no status either.
  | first :: second :: ' ' :: path =>
    if path.getLast? = some '/' then none
    else
      match FileStatus.fromBytes first second, Path.fromUnixStr path with
      | .ok status, .ok path => some (path, status)
      | _, _ => none
  | _ => none

/-- What becomes of the status of a path that is listed again. -/
def mergeStatus (kept again : FileStatus) : FileStatus :=
  if again = indexDeleted ∧ kept = .untracked ∨ again = .untracked ∧ kept = indexDeleted then deletedAndAdded else kept

/-- `GitStatus::from_str` -/
def GitStatus.fromStr (order : SortUnstable FileStatus) (s : List Char) : List (List Char × FileStatus) :=
  SortedGroups.dedupBy mergeStatus (order.sort ((s.splitOn '\x00').filterMap readEntry))

/-! ## Object ids -/

inductive OidFormat where
  | sha1
  | sha256
  deriving DecidableEq, Repr

structure Oid where
  bytes : List UInt8
  format : OidFormat
  deriving DecidableEq, Repr

def sha1ByteLength : Nat := 20
def sha256ByteLength : Nat := 32
def sha1HexLength : Nat := sha1ByteLength * 2
def sha256HexLength : Nat := sha256ByteLength * 2

def decodeHexDigit (byte : UInt8) : Option UInt8 :=
  if 48 ≤ byte ∧ byte ≤ 57 then some (byte - 48)
  else if 97 ≤ byte ∧ byte ≤ 102 then some (byte - 97 + 10)
  else if 65 ≤ byte ∧ byte ≤ 70 then some (byte - 65 + 10)
  else none

/-- The loop of `Oid::from_str`. -/
def decodeHex (bytes : List UInt8) : Nat → List UInt8 → Except ParseError (List UInt8)
  | _, [] => .ok bytes
  | index, byte :: rest =>
    match decodeHexDigit byte with
    | none => .error (.message s!"invalid hex digit at byte {index} for git oid")
    | some digit =>
      if index % 2 = 0 then decodeHex (bytes.set (index / 2) (digit <<< 4)) (index + 1) rest
      else decodeHex (bytes.modify (index / 2) (· ||| digit)) (index + 1) rest

def Oid.fromStr (s : List Char) : Except ParseError Oid :=
  let text := s.flatMap String.utf8EncodeChar
  if 1 ≤ text.length ∧ text.length ≤ sha1HexLength then
    (decodeHex (List.replicate sha256ByteLength 0) 0 text).map fun bytes => ⟨bytes, .sha1⟩
  else if text.length = sha256HexLength then
    (decodeHex (List.replicate sha256ByteLength 0) 0 text).map fun bytes => ⟨bytes, .sha256⟩
  else
    .error (.message s!"invalid git oid hex length: expected 1..={sha1HexLength} for SHA-1 or {sha256HexLength} for SHA-256, got {text.length}")

/-! ## `git diff-tree` -/

inductive TreeDiffStatus where
  | added
  | modified (old : Oid)
  | deleted (old : Oid)
  deriving DecidableEq, Repr

/-- The change that the first field of a record says; other changes than three are passed over. -/
def readChange (status : List Char) : Except ParseError (Option TreeDiffStatus) :=
  match (status.splitOn ' ').drop 2 with
  | [] => .error (.message "expected to find old_sha")
  | oldSha :: fields => do
    let oldSha ← Oid.fromStr oldSha
    match fields with
    | [] => .error (.message "expected to find new_sha")
    | _ :: [status] :: _ =>
      if status.toNat < 128 then
        match ← StatusCode.fromByte status with
        | .modified => return some (.modified oldSha)
        | .added => return some .added
        | .deleted => return some (.deleted oldSha)
        | _ => return none
      else .error (.message "expected to find status")
    | _ => .error (.message "expected to find status")

/-- The loop of `TreeDiff::from_str`. -/
def treeDiffLoop (parsed : List (List Char × TreeDiffStatus)) : List (List Char) → Except ParseError (List (List Char × TreeDiffStatus))
  | status :: path :: fields =>
    match Path.fromUnixStr path with
    | .error error => .error (.path error)
    | .ok path =>
      match readChange status with
      | .error error => .error error
      | .ok none => treeDiffLoop parsed fields
      | .ok (some change) => treeDiffLoop (Assoc.update path (fun _ => change) parsed) fields
  | _ => .ok parsed

def TreeDiff.fromStr (s : List Char) : Except ParseError (List (List Char × TreeDiffStatus)) := treeDiffLoop [] (s.splitOn '\x00')

/-! ## `git diff --numstat` -/

structure DiffStat where
  added : Nat
  deleted : Nat
  deriving DecidableEq, Repr

/-- The counts of a path go in front, when they are counts. -/
def pushStat (added deleted path : List Char) (entries : List (List Char × DiffStat)) : List (List Char × DiffStat) :=
  match parseU32 added, parseU32 deleted, Path.fromUnixStr path with
  | some added, some deleted, .ok path => (path, ⟨added, deleted⟩) :: entries
  | _, _, _ => entries

/-- The loop of `parse_numstat`. -/
def numstatLoop : List (List Char) → List (List Char × DiffStat)
  | [] => []
  | record :: records =>
    match splitOnce ['\t'] record with
    | none => numstatLoop records
    | some (added, rest) =>
      match splitOnce ['\t'] rest with
      | none => numstatLoop records
      | some (deleted, []) =>
        match records with
        | _ :: [] :: _ => []
        | _ :: newPath :: records => pushStat added deleted newPath (numstatLoop records)
        | _ => []
      | some (deleted, path) => pushStat added deleted path (numstatLoop records)

def parseNumstat (order : SortUnstable DiffStat) (output : List Char) : List (List Char × DiffStat) :=
  SortedGroups.dedupBy (fun kept _ => kept) (order.sort (numstatLoop (output.splitOn '\x00')))

end Wu.Git
