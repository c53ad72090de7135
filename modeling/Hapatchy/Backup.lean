import Mathlib.Data.Char
import Mathlib.Data.List.Lex
import Mathlib.Data.List.Sort
import Hapatchy.SafeIo
import Hapatchy.PatchEngine

/-!
# Backups

`backup.py`: preimages with metadata, fsynced before the replacement, and
the retention of complete ones.
-/

open Effects Prog

namespace Hapatchy

variable (env : Env)

def targetName : Text := "target".toList
def metadataFile : Text := "metadata.json".toList

/-! ## Names and metadata -/

/-- `now.strftime("%Y%m%dT%H%M%S.%fZ-")` and the hex digits of a `uuid4`. -/
def backupName (now : Timestamp) (hex : Hex32) : Text :=
  padded 4 now.year ++ padded 2 now.month ++ padded 2 now.day ++ ['T'] ++ padded 2 now.hour ++
    padded 2 now.minute ++ padded 2 now.second ++ ['.'] ++ padded 6 now.microsecond ++
    ['Z', '-'] ++ hex.val

/-- `now.isoformat()` -/
def isoformat (now : Timestamp) : Text :=
  padded 4 now.year ++ ['-'] ++ padded 2 now.month ++ ['-'] ++ padded 2 now.day ++ ['T'] ++
    padded 2 now.hour ++ [':'] ++ padded 2 now.minute ++ [':'] ++ padded 2 now.second ++
    (if now.microsecond = 0 then [] else '.' :: padded 6 now.microsecond) ++ "+00:00".toList

/-- `_BACKUP_NAME`: `\d{8}T\d{6}\.\d{6}Z-[0-9a-f]{32}` -/
def isBackupName (name : Text) : Bool :=
  let digits (t : Text) : Bool := t.all fun c => (PatchEngine.digitValue c).isSome
  name.length = 56 && digits (name.extract 0 8) && name[8]? = some 'T' &&
    digits (name.extract 9 15) && name[15]? = some '.' && digits (name.extract 16 22) &&
    name[22]? = some 'Z' && name[23]? = some '-' && (name.drop 24).all isHex

structure Metadata where
  patchId : Text
  targetPath : Text
  operation : Text
  timestamp : Text
  sourceSha256 : Text
  originalSha256 : Text
  outputSha256 : Text
  mode : Nat
  deriving DecidableEq, Repr

/-- The dictionary of `create`, by its sorted keys. -/
def Metadata.json (metadata : Metadata) : Json := .object
  [("mode".toList, .number metadata.mode),
    ("operation".toList, .string metadata.operation),
    ("original_sha256".toList, .string metadata.originalSha256),
    ("output_sha256".toList, .string metadata.outputSha256),
    ("patch_id".toList, .string metadata.patchId),
    ("source_sha256".toList, .string metadata.sourceSha256),
    ("target_path".toList, .string metadata.targetPath),
    ("timestamp".toList, .string metadata.timestamp),
    ("version".toList, .number 1)]

/-- `metadata.get(key)`: of equal keys, `json.loads` keeps the last one. -/
def Json.get (members : List (Text × Json)) (key : Text) : Option Json :=
  (members.reverse.find? (·.1 = key)).map Prod.snd

/-- What `_complete` asks of the metadata. -/
def metadataMatches (patchId : Text) : Option Json → Bool
  | some (.object members) =>
    (match Json.get members "version".toList with
      | some (.number version) => decide (version = 1)
      | some (.bool version) => version
      | _ => false) &&
    (match Json.get members "patch_id".toList with
      | some (.string value) => decide (value = patchId)
      | _ => false) &&
    match Json.get members "original_sha256".toList with
    | some (.string _) => true
    | _ => false
  | _ => false

/-! ## The manager -/

structure BackupManager where
  patchId : Text
  retention : Nat

def isPatchId (id : Text) : Bool :=
  1 ≤ id.length && id.length ≤ 64 &&
    id.all fun c => ('A' ≤ c && c ≤ 'Z') || ('a' ≤ c && c ≤ 'z') || ('0' ≤ c && c ≤ '9') ||
      c = '_' || c = '-'

/-- `__init__` -/
def BackupManager.make (patchId : Text) (retention : Nat) : Except PatchError BackupManager :=
  if !isPatchId patchId then throw ⟨.invalidPatchId, .securityError⟩
  else if retention < 1 ∨ retention > 100 then throw ⟨.invalidRetention, .invalidPatch⟩
  else pure ⟨patchId, retention⟩

variable (manager : BackupManager)

def BackupManager.parts : List Text :=
  [".hapatchy".toList, "backups".toList, manager.patchId]

/-- `_write` -/
def writeFile (p : Path) (data : Bytes) : Io Unit := do
  let handle ← createExclusive env p
  ensure
    (do
      write env p data
      fsync env p)
    fun _ => close env handle

def BackupManager.metadata (snapshot : Snapshot) (targetPath : Text) (output : Bytes)
    (sourceSha256 operation : Text) (now : Timestamp) : Metadata where
  patchId := manager.patchId
  targetPath := targetPath
  operation := operation
  timestamp := isoformat now
  sourceSha256 := sourceSha256
  originalSha256 := snapshot.sha256
  outputSha256 := env.sha256 output
  mode := snapshot.info.mode

def BackupManager.create (snapshot : Snapshot) (targetPath : Text) (output : Bytes)
    (sourceSha256 operation : Text) : Io Text := do
  let w ← read
  let now := env.now w.step
  let name := backupName now (env.uuid w.step)
  let metadata := manager.metadata env snapshot targetPath output sourceSha256 operation now
  rescueOs
    (withDirectory env manager.parts true fun parent => do
      mkdir env (parent.path ++ [name])
      withDirectory env (manager.parts ++ [name]) false fun directory => do
        writeFile env (directory.path ++ [targetName]) snapshot.data
        writeFile env (directory.path ++ [metadataFile]) (env.dumps metadata.json)
        directory.verify env
        fsync env directory.path
      parent.verify env
      fsync env parent.path)
    fun _ => raisePatch .backupFailed .applyError
  pure name

/-! ## Retention -/

/-- `set(os.listdir(…)) == {"target", "metadata.json"}` -/
def isBackupListing (names : List Text) : Bool :=
  targetName ∈ names && metadataFile ∈ names &&
    names.all fun name => name = targetName || name = metadataFile

/-- The loop of `_complete` over the two names. -/
def bothRegular (directory : GuardedDirectory) : List Text → Io Bool
  | [] => pure true
  | name :: names => do
    let info ← lstat env (directory.path ++ [name])
    if info.kind ≠ .file ∨ info.nlink ≠ 1 then pure false else bothRegular directory names

/-- `_complete`. On the bytes of `exhausts`, `json.loads` exceeds the recursion limit, and no
handler here catches what it raises then. -/
def BackupManager.complete (directory : GuardedDirectory)
    (exhausts : Bytes → Bool := fun _ => false) : Io Bool := do
  let handle : Handle := directory.handles.getLast?.getD ⟨[], 0⟩
  let names ← listdir env handle
  if !isBackupListing names then pure false
  else
    let regular ← bothRegular env directory [targetName, metadataFile]
    if !regular then pure false
    else
      let file ← openFile env (directory.path ++ [metadataFile])
      let raw ← ensure (readAt env file 0 65537) fun _ => close env file
      if raw.length > 65536 then pure false
      else if exhausts raw then raise .recursion
      else pure (metadataMatches manager.patchId (env.loads raw))

/-- `except (OSError, PatchError): continue`, where the name is among the candidates or not. -/
def goOn (found : Bool) : Exc → Io Bool
  | .value => raise .value
  | .recursion => raise .recursion
  | _ => pure found

/-- The body of the loop of `_complete_backups`: whether the name is appended. It stays appended
when the directory fails to close after that. -/
def BackupManager.isCandidate (name : Text) (exhausts : Bytes → Bool := fun _ => false) :
    Io Bool :=
  rescue
    (do
      let directory ← GuardedDirectory.enter env (manager.parts ++ [name])
      let found ← onError (manager.complete env directory exhausts) (directory.exit env)
      rescue
        (do
          directory.exit env
          pure found)
        (goOn found))
    (goOn false)

/-- The loop of `_complete_backups`. -/
def BackupManager.completeAmong (exhausts : Bytes → Bool := fun _ => false) :
    List Text → Io (List Text)
  | [] => pure []
  | name :: names =>
    if !isBackupName name then completeAmong exhausts names
    else do
      let found ← manager.isCandidate env name exhausts
      let rest ← completeAmong exhausts names
      pure (if found then name :: rest else rest)

def BackupManager.completeBackups (parent : GuardedDirectory)
    (exhausts : Bytes → Bool := fun _ => false) : Io (List Text) := do
  let handle : Handle := parent.handles.getLast?.getD ⟨[], 0⟩
  let names ← listdir env handle
  manager.completeAmong env exhausts (names.insertionSort (· ≤ ·))

/-- `any(not S_ISREG(os.stat(item)) for item in names)` -/
def anyIrregular (directory : GuardedDirectory) : List Text → Io Bool
  | [] => pure false
  | name :: names => do
    let info ← lstat env (directory.path ++ [name])
    if info.kind ≠ .file then pure true else anyIrregular directory names

/-- The inner `with` of `prune`: whether the directory is empty now. -/
def BackupManager.emptyBackup (name : Text) : Io Bool :=
  withDirectory env (manager.parts ++ [name]) false fun directory => do
    let handle : Handle := directory.handles.getLast?.getD ⟨[], 0⟩
    let names ← listdir env handle
    if !isBackupListing names then pure false
    else
      let irregular ← anyIrregular env directory names
      if irregular then pure false
      else
        directory.verify env
        names.forM fun item => unlink env (directory.path ++ [item])
        pure true

/-- The loop of `prune`. -/
def BackupManager.removeAll (parent : GuardedDirectory) : List Text → Io Unit
  | [] => pure ()
  | name :: names => do
    let emptied ← manager.emptyBackup env name
    if emptied then
      parent.verify env
      rmdir env (parent.path ++ [name])
    removeAll parent names

def BackupManager.prune (exhausts : Bytes → Bool := fun _ => false) : Io Unit :=
  rescueOs
    (withDirectory env manager.parts false fun parent => do
      let candidates ← manager.completeBackups env parent exhausts
      manager.removeAll env parent (candidates.take (candidates.length - manager.retention))
      fsync env parent.path)
    fun
      | .fileNotFound => pure ()
      | _ => raisePatch .backupPruneFailed .applyError

end Hapatchy
