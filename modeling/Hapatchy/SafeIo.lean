import Hapatchy.Os

/-!
# Guarded directories and files

`safe_io.py`: every directory of a traversal is kept open and checked again,
and a read is of one regular file that did not change meanwhile.
-/

open Effects Prog

namespace Hapatchy

/-! ## Exceptions -/

def raisePatch {α : Type} (reason : Reason) (status : Status := .invalidPatch) : Io α :=
  raise (.patch ⟨reason, status⟩)

/-- `except OSError`. -/
def rescueOs {α : Type} (body : Io α) (handler : OsError → Io α) : Io α :=
  rescue body fun
    | .os error => handler error
    | error => raise error

/-- `except BaseException: cleanup; raise`. -/
def onError {α : Type} (body : Io α) (cleanup : Io Unit) : Io α :=
  rescue body fun error => do
    cleanup
    raise error

def ofPatch {α : Type} (x : Except PatchError α) : Io α := lift (x.mapError Exc.patch)

variable (env : Env)

/-! ## Directories -/

structure GuardedDirectory where
  parts : List Text
  handles : List Handle

/-- The path behind `fd`, the last handle. -/
def GuardedDirectory.path (directory : GuardedDirectory) : Path :=
  (directory.handles.getLast?.map Handle.path).getD []

def directoryChanged : Io Unit := raisePatch .directoryChanged .securityError

/-- The loop of `verify`, over each handle with the one below it. -/
def verifyBelow : Handle → List Handle → List Text → Io Unit
  | parent, child :: handles, name :: names => do
    let current ← lstat env (parent.path ++ [name])
    let opened ← fstatDirectory env child
    if current.kind ≠ .directory ∨ current.ino ≠ opened then directoryChanged
    else verifyBelow child handles names
  | _, _, _ => pure ()

def GuardedDirectory.verify (directory : GuardedDirectory) : Io Unit :=
  match directory.handles with
  | [] => pure ()
  | root :: handles => do
    let info ← lstat env []
    let opened ← fstatDirectory env root
    if info.kind ≠ .directory ∨ info.ino ≠ opened then directoryChanged
    else verifyBelow env root handles directory.parts

/-- `__exit__`: closes from the last handle on, up to the first failure. -/
def GuardedDirectory.exit (directory : GuardedDirectory) : Io Unit :=
  directory.handles.reverse.forM (close env)

/-- One part of the traversal in `__enter__`. -/
def openPart (create : Bool) (parent : Handle) (part : Text) : Io Handle := do
  if create then
    rescueOs
      (do
        mkdir env (parent.path ++ [part])
        fsync env parent.path)
      fun
        | .fileExists => pure ()
        | error => raise (.os error)
  openDirectory env (parent.path ++ [part])

/-- The loop of `__enter__`, below the handles opened so far. -/
def openParts (create : Bool) (parts : List Text) : Handle → List Handle → List Text →
    Io GuardedDirectory
  | _, opened, [] => do
    let directory : GuardedDirectory := ⟨parts, opened⟩
    onError (directory.verify env) (directory.exit env)
    pure directory
  | parent, opened, part :: rest => do
    let child ← onError (openPart env create parent part)
      (GuardedDirectory.exit env ⟨parts, opened⟩)
    openParts create parts child (opened ++ [child]) rest

def GuardedDirectory.enter (parts : List Text) (create : Bool := false) : Io GuardedDirectory := do
  let root ← openDirectory env []
  openParts env create parts root [root] parts

/-- `with GuardedDirectory(…) as directory`. -/
def withDirectory {α : Type} (parts : List Text) (create : Bool)
    (body : GuardedDirectory → Io α) : Io α := do
  let directory ← GuardedDirectory.enter env parts create
  ensure (body directory) fun _ => directory.exit env

/-! ## Files -/

structure Snapshot where
  data : Bytes
  sha256 : Text
  info : Stat
  deriving DecidableEq, Repr

structure GuardedFile where
  name : Text
  directory : GuardedDirectory

/-- The path behind `parent_fd`. -/
def GuardedFile.parent (target : GuardedFile) : Path := target.directory.path

def GuardedFile.path (target : GuardedFile) : Path := target.parent ++ [target.name]

/-- `__init__` and `__enter__`. -/
def GuardedFile.enter (path : Text) (internal : Bool := false) : Io GuardedFile := do
  let parts ← ofPatch (relativeParts path internal)
  let directory ← rescueOs (GuardedDirectory.enter env parts.dropLast) fun
    | .fileNotFound => raisePatch .missingTarget .missingTarget
    | _ => raisePatch .unsafeDirectory .securityError
  pure ⟨parts.getLast?.getD [], directory⟩

/-- The loop of `read`. The fuel bounds the chunks: each has a byte, and the limit has an end. -/
def readChunks (handle : Handle) (limit : Nat) : Nat → Bytes → Io Bytes
  | 0, data => pure data
  | fuel + 1, data => do
    let chunk ← readAt env handle data.length (min 65536 (limit + 1 - data.length))
    if chunk = [] then pure data
    else if data.length + chunk.length > limit then raisePatch .sizeLimit
    else readChunks handle limit fuel (data ++ chunk)

def GuardedFile.readOpen (handle : Handle) (limit : Nat) : Io Snapshot := do
  let before ← fstatFile env handle
  if before.kind ≠ .file ∨ before.nlink ≠ 1 then raisePatch .unsafeFile .securityError
  else if before.size > limit then raisePatch .sizeLimit
  else
    let data ← readChunks env handle limit (limit + 1) []
    let after ← fstatFile env handle
    if before ≠ after then raisePatch .targetChanged .applyError
    else pure ⟨data, env.sha256 data, before⟩

def GuardedFile.read (target : GuardedFile) (limit : Nat := maxTargetBytes) : Io Snapshot :=
  rescueOs
    (do
      target.directory.verify env
      let handle ← openFile env target.path
      ensure (GuardedFile.readOpen env handle limit) fun _ => close env handle)
    fun
      | .fileNotFound => raisePatch .missingTarget .missingTarget
      | _ => raisePatch .unsafeFile .securityError

/-- The record of when a verification begins. -/
def beginVerification : Io Unit := change fun w => { w with disturbed := false }

def GuardedFile.verifySnapshot (target : GuardedFile) (snapshot : Snapshot) : Io Unit := do
  beginVerification
  let current ← target.read env
  if current.info ≠ snapshot.info ∨ current.sha256 ≠ snapshot.sha256 then
    raisePatch .targetChanged .applyError
  else pure ()

def GuardedFile.exit (target : GuardedFile) : Io Unit := target.directory.exit env

end Hapatchy
