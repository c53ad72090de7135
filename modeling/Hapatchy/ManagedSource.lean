import Hapatchy.Lib.Traces
import Hapatchy.PatchEngine

/-!
# Managed patch revisions

`managed_source.py`, call by call: any number of saves and loads run side by
side, and each of them can fail at any system call or stop before it. The guarded
reads are those of `safe_io.py`. Nothing else touches the directory, so that
`verify` never fails.
-/

namespace Hapatchy

open PatchEngine

namespace ManagedPatchStore

/-- `REVISION` -/
def isRevision (t : Text) : Bool := t.length = 64 && t.all isHex

def validateContent (data : Bytes) : Except PatchError Unit :=
  if data = [] ∨ data.length > maxPatchBytes then
    throw ⟨if data = [] then .emptyPatch else .sourceTooLarge, .invalidPatch⟩
  else match Utf8.decode data with
  | none => throw ⟨.invalidEncoding, .invalidPatch⟩
  | some _ => pure ()

/-! ## The directory -/

structure Inode where
  data : Bytes := []
  nlink : Nat := 1
  mtime : Nat
  ctime : Nat
  deriving DecidableEq, Repr

/-- `identity` of a file in the directory, whose owner and mode do not change. -/
structure Info where
  ino : Nat
  size : Nat
  mtime : Nat
  ctime : Nat
  nlink : Nat
  deriving DecidableEq, Repr

/-- The names in the directory: `{revision}.patch`, and the `.pending-…` of a save. -/
inductive Name where
  | revision (revision : Text)
  | pending (call : Nat)
  deriving DecidableEq, Repr

structure Store where
  entries : Name → Option Nat
  inodes : Nat → Inode
  /-- The inodes from here on are free. -/
  next : Nat
  clock : Nat

namespace Store

variable (store : Store)

def info (ino : Nat) : Info :=
  let inode := store.inodes ino
  ⟨ino, inode.data.length, inode.mtime, inode.ctime, inode.nlink⟩

def setEntry (name : Name) (ino : Option Nat) : Store :=
  { store with entries := Function.update store.entries name ino }

def modifyInode (ino : Nat) (f : Inode → Inode) : Store :=
  { store with inodes := Function.update store.inodes ino (f (store.inodes ino)) }

/-- `os.open` of a new temporary file. -/
def create (call : Nat) : Store :=
  { store with
    entries := Function.update store.entries (.pending call) (some store.next)
    inodes := Function.update store.inodes store.next { mtime := store.clock, ctime := store.clock }
    next := store.next + 1
    clock := store.clock + 1 }

def append (ino : Nat) (data : Bytes) : Store :=
  { store.modifyInode ino fun inode =>
      { inode with data := inode.data ++ data, mtime := store.clock, ctime := store.clock } with
    clock := store.clock + 1 }

/-- `os.link` under a free name. -/
def link (ino : Nat) (revision : Text) : Store :=
  { (store.modifyInode ino fun inode =>
      { inode with nlink := inode.nlink + 1, ctime := store.clock }).setEntry
        (.revision revision) (some ino) with
    clock := store.clock + 1 }

/-- `os.unlink` of a temporary file. -/
def unlink (call : Nat) : Store :=
  match store.entries (.pending call) with
  | none => store
  | some ino =>
    { (store.modifyInode ino fun inode =>
        { inode with nlink := inode.nlink - 1, ctime := store.clock }).setEntry
          (.pending call) none with
      clock := store.clock + 1 }

end Store

/-! ## Calls -/

inductive Call where
  | save (data : Bytes)
  | load (revision : Text)
  deriving DecidableEq, Repr

/-- Where `_read` is called: before and after publication, of what another save has published, and
in `load`. -/
inductive Site where
  | before
  | existing
  | after
  | load
  deriving DecidableEq, Repr

/-- The next system call of `GuardedFile.read`. -/
inductive Reading where
  | opening
  | fstat (ino : Nat)
  | chunks (ino : Nat) (before : Info) (data : Bytes)
  | again (ino : Nat) (before : Info) (data : Bytes)
  deriving DecidableEq, Repr

/-- The next system call of a save or load, or what it returned. -/
inductive Position where
  | read (site : Site) (reading : Reading)
  /-- The directory is synced for a revision that was there. -/
  | syncFound
  | create
  | write (ino : Nat)
  | syncFile (ino : Nat)
  | link (ino : Nat)
  /-- The `finally` block, and what it was entered with. -/
  | unlink (raised : Option PatchError)
  | syncDirectory
  | saved (result : Except PatchError Text)
  | loaded (result : Except PatchError Bytes)
  | stopped
  deriving DecidableEq

structure Process where
  call : Call
  position : Position
  /-- A system call of it has failed. -/
  failed : Bool := false
  deriving DecidableEq

structure State where
  store : Store
  processes : Nat → Option Process

def missingTarget : PatchError := ⟨.missingTarget, .missingTarget⟩

def unsafeFile : PatchError := ⟨.unsafeFile, .securityError⟩

def writeFailed : PatchError := ⟨.managedSourceWriteFailed, .sourceError⟩

inductive Move where
  | save (call : Nat) (data : Bytes)
  | load (call : Nat) (revision : Text)
  /-- The next system call; a write writes `count + 1` bytes, if that many are left. -/
  | run (call : Nat) (count : Nat)
  /-- The next system call raises an `OSError`. -/
  | fail (call : Nat)
  /-- The call is abandoned before its next system call. -/
  | stop (call : Nat)
  deriving DecidableEq, Repr

section Steps

variable (sha256 : Bytes → Text)

def Call.revision : Call → Text
  | .save data => sha256 data
  | .load revision => revision

/-- What follows `_read`. -/
def resume (revision : Text) : Site → Except PatchError Bytes → Position
  | .before, .ok _ => .syncFound
  | .before, .error error =>
    if error.status ≠ .missingTarget then .saved (.error error) else .create
  | .existing, .ok _ => .unlink none
  | .existing, .error error => .unlink (some error)
  | .after, .ok _ => .saved (.ok revision)
  | .after, .error error => .saved (.error error)
  | .load, .ok data => .loaded (.ok data)
  | .load, .error error =>
    if error.status = .missingTarget then
      .loaded (.error ⟨.managedSourceUnavailable, .sourceError⟩)
    else .loaded (.error error)

/-- One system call of `_read`. -/
def readStep (store : Store) (revision : Text) (site : Site) : Reading → Position
  | .opening =>
    if !isRevision revision then resume revision site (.error ⟨.invalidManagedSource, .securityError⟩)
    else match store.entries (.revision revision) with
    | none => resume revision site (.error missingTarget)
    | some ino => .read site (.fstat ino)
  | .fstat ino =>
    let before := store.info ino
    if before.nlink ≠ 1 then resume revision site (.error unsafeFile)
    else if before.size > maxPatchBytes then
      resume revision site (.error ⟨.sizeLimit, .invalidPatch⟩)
    else .read site (.chunks ino before [])
  | .chunks ino before data =>
    let chunk := ((store.inodes ino).data.drop data.length).take
      (min 65536 (maxPatchBytes + 1 - data.length))
    if chunk = [] then .read site (.again ino before data)
    else if data.length + chunk.length > maxPatchBytes then
      resume revision site (.error ⟨.sizeLimit, .invalidPatch⟩)
    else .read site (.chunks ino before (data ++ chunk))
  | .again ino before data =>
    if before ≠ store.info ino then resume revision site (.error ⟨.targetChanged, .applyError⟩)
    else if sha256 data ≠ revision then
      resume revision site (.error ⟨.sourceHashMismatch, .sourceError⟩)
    else resume revision site (.ok data)

/-- The next system call of a call. -/
def runStep (store : Store) (id count : Nat) (call : Call) : Position → Option (Store × Position)
  | .read site reading => some (store, readStep sha256 store (call.revision sha256) site reading)
  | .syncFound => some (store, .saved (.ok (call.revision sha256)))
  | .create => some (store.create id, .write store.next)
  | .write ino =>
    match call with
    | .save data =>
      match data.drop (store.inodes ino).data.length with
      | [] => some (store, .syncFile ino)
      | rest => some (store.append ino (rest.take (count + 1)), .write ino)
    | .load _ => none
  | .syncFile ino => some (store, .link ino)
  | .link ino =>
    match store.entries (.revision (call.revision sha256)) with
    | some _ => some (store, .read .existing .opening)
    | none => some (store.link ino (call.revision sha256), .unlink none)
  | .unlink raised =>
    some (store.unlink id, match raised with
      | some error => .saved (.error error)
      | none => .syncDirectory)
  | .syncDirectory => some (store, .read .after .opening)
  | _ => none

/-- The next system call raises an `OSError`. -/
def failStep (revision : Text) : Position → Option Position
  | .read site _ => some (resume revision site (.error unsafeFile))
  | .write _ => some (.unlink (some writeFailed))
  | .syncFile _ => some (.unlink (some writeFailed))
  | .link _ => some (.unlink (some writeFailed))
  | .syncFound => some (.saved (.error writeFailed))
  | .create => some (.saved (.error writeFailed))
  | .unlink _ => some (.saved (.error writeFailed))
  | .syncDirectory => some (.saved (.error writeFailed))
  | _ => none

namespace State

variable (state : State)

def set (id : Nat) (process : Process) : State :=
  { state with processes := Function.update state.processes id (some process) }

def step : Move → Option State
  | .save id data =>
    if (state.processes id).isSome then none
    else some (state.set id ⟨.save data, match validateContent data with
      | .ok () => .read .before .opening
      | .error error => .saved (.error error), false⟩)
  | .load id revision =>
    if (state.processes id).isSome then none
    else some (state.set id ⟨.load revision, .read .load .opening, false⟩)
  | .run id count => do
    let process ← state.processes id
    let (store, position) ← runStep sha256 state.store id count process.call process.position
    some ({ state with store := store }.set id { process with position := position })
  | .fail id => do
    let process ← state.processes id
    let position ← failStep (process.call.revision sha256) process.position
    some (state.set id ⟨process.call, position, true⟩)
  | .stop id => do
    let process ← state.processes id
    let _ ← failStep (process.call.revision sha256) process.position
    some (state.set id { process with position := .stopped })

end State

end Steps

/-- An empty directory, and no calls. -/
def initial : State := ⟨⟨fun _ => none, fun _ => ⟨[], 1, 0, 0⟩, 0, 0⟩, fun _ => none⟩

end ManagedPatchStore

end Hapatchy
