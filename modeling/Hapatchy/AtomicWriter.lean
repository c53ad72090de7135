import Hapatchy.SafeIo

/-!
# The atomic file writer

`atomic_writer.py`: the output goes to a temporary file beside the target,
which takes the place of the target in one call.
-/

open Effects Prog

namespace Hapatchy

variable (env : Env)

/-- `except OSError: raise CommitError(reason, replaced=…)`. -/
def commitErrorOnOs (reason : Reason) (replaced : Bool) (body : Io Unit) : Io Unit :=
  rescueOs body fun _ => raise (.commit reason replaced)

def tempName (hex : Hex32) : Text := ".hapatchy-".toList ++ hex.val ++ ".tmp".toList

/-- The block that fills the temporary file. -/
def fillTemp (temp : Handle) (snapshot : Snapshot) (output : Bytes) : Io Unit :=
  ensure
    (do
      write env temp.path output
      let current ← fstatFile env temp
      if current.uid ≠ snapshot.info.uid ∨ current.gid ≠ snapshot.info.gid then
        fchown env temp.path snapshot.info.uid snapshot.info.gid
      fchmod env temp.path snapshot.info.mode
      fsync env temp.path)
    fun _ => close env temp

/-- `before_replace()` with its `except (OSError, PatchError)`. -/
def backupOrFail (before : Io Unit) : Io Unit :=
  rescue before fun error =>
    match error with
    | .value => raise .value
    | .recursion => raise .recursion
    | _ => raise (.commit .backupFailed false)

/-- The cleanup of a file that was created and did not replace the target. -/
def unlinkTemp (temp : Path) : Io Unit :=
  rescueOs (unlink env temp) fun
    | .fileNotFound => pure ()
    | error => raise (.os error)

/-- The block between the temporary file and the replacement. -/
def prepare (target : GuardedFile) (snapshot : Snapshot) (output : Bytes)
    (beforeReplace : Option (Io Unit)) (beforeCommit : Io Unit) (temp : Handle) : Io Unit := do
  fillTemp env temp snapshot output
  match beforeReplace with
  | some before => backupOrFail before
  | none => pure ()
  target.verifySnapshot env snapshot
  beforeCommit

/-- `commit`. The flags `created` and `replaced` of the code are the three parts here: before the
temporary file exists, until it has replaced the target, and after that. -/
def commit (target : GuardedFile) (snapshot : Snapshot) (output : Bytes)
    (beforeReplace : Option (Io Unit)) (beforeCommit : Io Unit) : Io Unit := do
  let w ← read
  let path := target.parent ++ [tempName (env.uuid w.step)]
  commitErrorOnOs .commitFailed false (target.verifySnapshot env snapshot)
  let temp ← rescueOs (createExclusive env path) fun _ => raise (.commit .commitFailed false)
  onError
    (commitErrorOnOs .commitFailed false do
      prepare env target snapshot output beforeReplace beforeCommit temp
      replace env path target.path)
    (unlinkTemp env path)
  commitErrorOnOs .durabilityUnconfirmed true (fsync env target.parent)

def confirmDurability (target : GuardedFile) (snapshot : Snapshot) : Io Unit := do
  target.verifySnapshot env snapshot
  commitErrorOnOs .durabilityUnconfirmed true (fsync env target.parent)

end Hapatchy
