import Mathlib.Data.List.AList
import Hapatchy.Lib.Effects
import Hapatchy.Models

/-!
# The operating system under the guarded files

A file tree by path, and the calls that the code makes on it. Every call can
fail, and another program can act right before it.

A directory is a path and the inode that was opened there: a directory that
another one has replaced shows as another inode number.
-/

open Effects

namespace Hapatchy

abbrev Path := List Text

instance : LawfulBEq Path := inferInstance

/-! ## Files -/

inductive Kind where
  | file
  | directory
  | symlink
  | other
  deriving DecidableEq, Repr

/-- `os.stat_result`, as far as `identity` reads it: `ino` is the device with the inode, and
`st_mode` is `kind` with the permission bits `mode`. -/
structure Stat where
  kind : Kind
  ino : Nat
  size : Nat
  mtime : Nat
  ctime : Nat
  mode : Nat
  uid : Nat
  gid : Nat
  nlink : Nat
  deriving DecidableEq, Repr

structure Node where
  kind : Kind
  data : Bytes := []
  ino : Nat
  mtime : Nat
  ctime : Nat
  mode : Nat
  uid : Nat
  gid : Nat
  nlink : Nat := 1
  /-- The bytes, and the names of a directory, at the last fsync. -/
  synced : Option (Bytes × List Text) := none
  deriving DecidableEq, Repr

def Node.stat (node : Node) : Stat :=
  ⟨node.kind, node.ino, node.data.length, node.mtime, node.ctime, node.mode, node.uid, node.gid,
    node.nlink⟩

abbrev Fs := AList fun _ : Path => Node

namespace Fs

variable {fs : Fs} {p q : Path} {x : Option Node}

/-- The names in the directory `p`. -/
def names (fs : Fs) (p : Path) : List Text :=
  fs.keys.filterMap fun q => if q.dropLast = p then q.getLast? else none

/-- `p` becomes `x`, or goes away. -/
def put (fs : Fs) (p : Path) : Option Node → Fs
  | some node => fs.insert p node
  | none => fs.erase p

@[simp] theorem lookup_put : (fs.put p x).lookup p = x := by
  cases x <;> simp [put]

theorem lookup_put_ne (h : q ≠ p) : (fs.put p x).lookup q = fs.lookup q := by
  cases x <;> simp [put, AList.lookup_insert_ne, AList.lookup_erase_ne, h]

theorem mem_names_iff {name : Text} : name ∈ fs.names p ↔ (fs.lookup (p ++ [name])).isSome := by
  rw [AList.lookup_isSome, AList.mem_keys, names, List.mem_filterMap]
  constructor
  · rintro ⟨q, hq, hname⟩
    split at hname
    · rename_i hp
      obtain ⟨q', rfl⟩ := List.getLast?_eq_some_iff.mp hname
      simp_all
    · cases hname
  · intro h
    exact ⟨_, h, by simp⟩

end Fs

/-! ## The world of a run -/

structure Replacement where
  target : Path
  /-- The tree right before the replacement. -/
  before : Fs
  installed : Node
  /-- Another program has acted since the last verification began. -/
  disturbed : Bool

inductive Event where
  | call
  | changed (path : Path)
  | synced (path : Path)
  | unlinkFailed (path : Path)
  | checked (definition : PatchDefinition)
  | replaced (replacement : Replacement)

/-- `log` and `disturbed` are records for the statements: no code reads them. `progress` is the
one mutable object of a run. -/
structure World where
  fs : Fs
  step : Nat := 0
  disturbed : Bool := false
  log : List Event := []
  progress : Progress

/-- An `OSError` of a call, and the bytes that a failing write left behind. -/
structure Fault where
  error : OsError
  written : Nat := 0
  deriving DecidableEq, Repr

/-- What the system gives a node that a call makes or changes. -/
structure Stamp where
  ino : Nat
  uid : Nat
  gid : Nat
  time : Nat
  deriving DecidableEq, Repr

/-- All that a run does not decide: at call `n`, whether it fails, who acts before it, and what
the system, the clock, `uuid4` and the authority checks give. -/
structure Env where
  fault : Nat → Option Fault
  interfere : Nat → Option (Fs → Fs)
  stamp : Nat → Stamp
  /-- What a descriptor shows when its file is no longer at its path. -/
  orphan : Nat → Node
  now : Nat → Timestamp
  uuid : Nat → Hex32
  /-- `grants.check_current()`. -/
  checkCurrent : Nat → Option AuthorityReason
  /-- `hass.config.is_allowed_path`. -/
  haAllowed : Nat → Path → Bool
  sha256 : Bytes → Text
  /-- `json.dumps(…, sort_keys=True).encode()`. -/
  dumps : Json → Bytes
  /-- `json.loads`, with `none` for a `ValueError`. -/
  loads : Bytes → Option Json

abbrev Io := Prog Exc World

variable (env : Env)

/-- The moment of a call: another program may act first. -/
def arrive (w : World) : World :=
  match env.interfere w.step with
  | none => { w with step := w.step + 1, log := w.log ++ [.call] }
  | some act =>
    { w with fs := act w.fs, disturbed := true, step := w.step + 1, log := w.log ++ [.call] }

/-- A change of `p` by the run itself. -/
def World.edit (w : World) (p : Path) (x : Option Node) : World :=
  { w with fs := w.fs.put p x, log := w.log ++ [.changed p] }

/-- A call that only looks. -/
def look {α : Type} (act : Nat → Fs → Except OsError α) : Io α := fun w =>
  match env.fault w.step with
  | some fault => (.error (.os fault.error), arrive env w)
  | none => ((act w.step (arrive env w).fs).mapError Exc.os, arrive env w)

/-- A call that changes `p`. -/
def alter (p : Path) (act : Nat → Fs → Except OsError (Option Node)) : Io Unit := fun w =>
  match env.fault w.step with
  | some fault => (.error (.os fault.error), arrive env w)
  | none =>
    match act w.step (arrive env w).fs with
    | .ok x => (.ok (), (arrive env w).edit p x)
    | .error e => (.error (.os e), arrive env w)

/-! ## Calls -/

/-- An open file or directory. -/
structure Handle where
  path : Path
  ino : Nat
  deriving DecidableEq, Repr

/-- `os.open` with `O_DIRECTORY | O_NOFOLLOW`. -/
def openDirectory (p : Path) : Io Handle := look env fun _ fs =>
  match fs.lookup p with
  | none => throw .fileNotFound
  | some node => if node.kind = .directory then pure ⟨p, node.ino⟩ else throw .other

/-- `os.open` with `O_RDONLY | O_NOFOLLOW | O_NONBLOCK`. -/
def openFile (p : Path) : Io Handle := look env fun _ fs =>
  match fs.lookup p with
  | none => throw .fileNotFound
  | some node => if node.kind = .symlink then throw .other else pure ⟨p, node.ino⟩

def close (_ : Handle) : Io Unit := look env fun _ _ => pure ()

/-- `os.lstat`, and `os.stat` with `follow_symlinks=False`. -/
def lstat (p : Path) : Io Stat := look env fun _ fs =>
  match fs.lookup p with
  | none => throw .fileNotFound
  | some node => pure node.stat

/-- The inode behind a directory descriptor. -/
def fstatDirectory (handle : Handle) : Io Nat := look env fun _ _ => pure handle.ino

/-- The node behind a file descriptor. -/
def nodeAt (n : Nat) (handle : Handle) (fs : Fs) : Node :=
  match fs.lookup handle.path with
  | some node => if node.ino = handle.ino then node else env.orphan n
  | none => env.orphan n

def fstatFile (handle : Handle) : Io Stat :=
  look env fun n fs => pure (nodeAt env n handle fs).stat

/-- `os.read` at the offset that the reads before it have reached. -/
def readAt (handle : Handle) (offset count : Nat) : Io Bytes :=
  look env fun n fs => pure (((nodeAt env n handle fs).data.drop offset).take count)

def listdir (handle : Handle) : Io (List Text) := look env fun _ fs => pure (fs.names handle.path)

def fresh (n : Nat) (kind : Kind) (mode : Nat) : Node :=
  let stamp := env.stamp n
  ⟨kind, [], stamp.ino, stamp.time, stamp.time, mode, stamp.uid, stamp.gid, 1, none⟩

/-- `os.mkdir` with mode 0700. What has entries is there. -/
def mkdir (p : Path) : Io Unit := alter env p fun n fs =>
  if p ∈ fs ∨ fs.names p ≠ [] then throw .fileExists
  else if p.dropLast ∉ fs then throw .fileNotFound
  else pure (fresh env n .directory 0o700)

/-- `os.open` with `O_CREAT | O_EXCL` and mode 0600. -/
def createExclusive (p : Path) : Io Handle := do
  let w ← Prog.read
  alter env p fun n fs =>
    if p ∈ fs then throw .fileExists
    else if p.dropLast ∉ fs then throw .fileNotFound
    else pure (fresh env n .file 0o600)
  pure ⟨p, (env.stamp w.step).ino⟩

/-- A change of the node that a descriptor of `p` shows. -/
def modify (p : Path) (f : Stamp → Node → Node) : Io Unit := alter env p fun n fs =>
  pure ((fs.lookup p).map (f (env.stamp n)))

def Node.appended (data : Bytes) (stamp : Stamp) (node : Node) : Node :=
  { node with data := node.data ++ data, mtime := stamp.time, ctime := stamp.time }

/-- `stream.write` and `stream.flush`: a failure leaves a prefix. -/
def write (p : Path) (data : Bytes) : Io Unit := fun w =>
  match env.fault w.step with
  | some fault =>
    let w' := arrive env w
    (.error (.os fault.error),
      w'.edit p ((w'.fs.lookup p).map (Node.appended (data.take fault.written) (env.stamp w.step))))
  | none => modify env p (Node.appended data) w

def fchown (p : Path) (uid gid : Nat) : Io Unit := modify env p fun stamp node =>
  { node with uid, gid, ctime := stamp.time }

def fchmod (p : Path) (mode : Nat) : Io Unit := modify env p fun stamp node =>
  { node with mode, ctime := stamp.time }

/-- `os.fsync`: the bytes of `p`, or its names, are on disk. -/
def fsync (p : Path) : Io Unit := fun w =>
  let w' := arrive env w
  match env.fault w.step with
  | some fault => (.error (.os fault.error), w')
  | none =>
    (.ok (), { w' with
      fs := w'.fs.put p ((w'.fs.lookup p).map fun node =>
        { node with synced := some (node.data, w'.fs.names p) })
      log := w'.log ++ [.synced p] })

/-- `os.unlink`. -/
def unlink (p : Path) : Io Unit := fun w =>
  let w' := arrive env w
  match env.fault w.step with
  | some fault => (.error (.os fault.error), { w' with log := w'.log ++ [.unlinkFailed p] })
  | none =>
    match w'.fs.lookup p with
    | none => (.error (.os .fileNotFound), w')
    | some node =>
      if node.kind = .directory then
        (.error (.os .other), { w' with log := w'.log ++ [.unlinkFailed p] })
      else (.ok (), w'.edit p none)

/-- `os.rmdir`. -/
def rmdir (p : Path) : Io Unit := alter env p fun _ fs =>
  match fs.lookup p with
  | none => throw .fileNotFound
  | some node => if node.kind = .directory ∧ fs.names p = [] then pure none else throw .other

/-- `os.replace` of one file by another in the same directory. -/
def replace (source target : Path) : Io Unit := fun w =>
  let w' := arrive env w
  match env.fault w.step with
  | some fault => (.error (.os fault.error), w')
  | none =>
    match w'.fs.lookup source, w'.fs.lookup target with
    | none, _ => (.error (.os .fileNotFound), w')
    | some node, old =>
      if old.any (·.kind = .directory) then (.error (.os .other), w')
      else (.ok (), { w' with
        fs := (w'.fs.put source none).put target (some node)
        log := w'.log ++ [.replaced ⟨target, w'.fs, node, w'.disturbed⟩] })

end Hapatchy
