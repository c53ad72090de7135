import Hapatchy.AtomicWriter
import Hapatchy.Backup
import Hapatchy.PathPolicy

/-!
# One inspect and commit operation

`reconciler.py`: up to three attempts, and the report of what happened.
-/

open Effects Prog

namespace Hapatchy

inductive Action where
  | apply
  | revert
  | reconcile
  | refreshSource
  deriving DecidableEq, Repr

structure ReconcileResult where
  inspection : PatchInspection
  sourceSha256 : Text
  targetSha256 : Option Text := none
  mutated : Bool := false
  serviceError : Option Reason := none
  deriving DecidableEq, Repr

/-- `_Progress.result` -/
def Progress.result (progress : Progress) (inspection : PatchInspection)
    (error : Option Reason := none) : ReconcileResult :=
  ⟨inspection, progress.sourceSha256, progress.targetSha256, progress.mutated, error⟩

def outputForAction (definition : PatchDefinition) (inspection : PatchInspection) :
    Action → Option Bytes
  | .revert => inspection.reverseOutput
  | .apply => inspection.forwardOutput
  | .reconcile => if definition.autoApply then inspection.forwardOutput else none
  | .refreshSource => none

/-- A change of the progress record. -/
def record (f : Progress → Progress) : Io Unit :=
  change fun w => { w with progress := f w.progress }

def result (inspection : PatchInspection) (error : Option Reason) : Io ReconcileResult := do
  let w ← read
  pure (w.progress.result inspection error)

structure Reconciler where
  policy : PathPolicy
  fromstring : PatchEngine.Fromstring

/-- What one call of `run` is about. -/
structure Job where
  definition : PatchDefinition
  source : Bytes
  action : Action
  retention : Nat

variable (env : Env) (reconciler : Reconciler) (job : Job)

def backupRequired : Bool := job.action = .revert || job.definition.backupBeforeApply

/-- `_observe_replaced_target` -/
def observeReplacedTarget (target : GuardedFile) : Io Unit :=
  rescue
    (do
      let current ← target.read env
      record fun progress => { progress with targetSha256 := some current.sha256 })
    fun error =>
      match error.patchError? with
      | some _ => record fun progress => { progress with targetSha256 := none }
      | none => raise error

/-- The `except CommitError` of `_replace`. -/
def commitFailed (target : GuardedFile) : Exc → Io Unit
  | .commit reason replaced => do
    record fun progress => { progress with mutated := replaced }
    if replaced then observeReplacedTarget env target
    raise (.commit reason replaced)
  | error => raise error

/-- The `commit` call of `_replace`. -/
def commitOutput (manager : BackupManager) (target : GuardedFile) (snapshot : Snapshot)
    (output : Bytes) : Io Unit := do
  let w ← read
  let backup : Io Unit := do
    let _ ← manager.create env snapshot job.definition.targetPath output w.progress.sourceSha256
      (if job.action = .revert then "revert".toList else "apply".toList)
  rescue
    (commit env target snapshot output (if backupRequired job then some backup else none)
      (reconciler.policy.checkDefinition env job.definition))
    (commitFailed env target)

/-- The end of `_replace`, after the commit. -/
def afterCommit (manager : BackupManager) (parsed : PatchEngine.ParsedPatch)
    (target : GuardedFile) : Io ReconcileResult := do
  record fun progress => { progress with mutated := true }
  let current ← target.read env
  record fun progress => { progress with targetSha256 := some current.sha256 }
  let inspection := PatchEngine.inspect parsed current.data
  manager.prune env
  result inspection inspection.reason

/-- `_replace` -/
def replaceTarget (parsed : PatchEngine.ParsedPatch) (target : GuardedFile) (snapshot : Snapshot)
    (output : Bytes) : Io ReconcileResult := do
  let manager ← ofPatch (BackupManager.make job.definition.patchId job.retention)
  commitOutput env reconciler job manager target snapshot output
  afterCommit env manager parsed target

/-- The `with` block of `_attempt` before the inspection. -/
def readTarget (target : GuardedFile) : Io Snapshot := do
  let snapshot ← target.read env
  record fun progress => { progress with targetSha256 := some snapshot.sha256 }
  let w ← read
  if w.progress.pendingDurability then
    confirmDurability env target snapshot
    record fun progress => { progress with pendingDurability := false }
  pure snapshot

/-- The `with` block of `_attempt`. -/
def inspectAndReplace (parsed : PatchEngine.ParsedPatch) (target : GuardedFile) :
    Io ReconcileResult := do
  let snapshot ← readTarget env target
  let inspection := PatchEngine.inspect parsed snapshot.data
  if job.action = .revert ∧ inspection.status = .applicable then
    result inspection (some .notApplied)
  else
    match outputForAction job.definition inspection job.action with
    | none =>
      result inspection
        (if inspection.status = .applied ∨ inspection.status = .applicable then none
          else inspection.reason)
    | some output => replaceTarget env reconciler job parsed target snapshot output

/-- `_attempt` -/
def attempt : Io ReconcileResult := do
  reconciler.policy.checkDefinition env job.definition
  let parsed ← lift (PatchEngine.parse reconciler.fromstring job.source job.definition.targetPath)
  let target ← GuardedFile.enter env job.definition.targetPath
  ensure (inspectAndReplace env reconciler job parsed target) fun _ => target.exit env

/-- The `except` branches of `run`, with the attempt that may follow. -/
def report (retry : Option (Io ReconcileResult)) (error : Exc) : Io ReconcileResult := do
  let w ← read
  match error.patchError? with
  | some ⟨reason, status⟩ =>
    if w.progress.pendingDurability ∧ status ≠ .securityError then
      result { status := .applyError, reason := some .durabilityUnconfirmed }
        (some .durabilityUnconfirmed)
    else
      match retry with
      | some again =>
        if reason = .targetChanged ∧ ¬ w.progress.mutated then again
        else result { status := status, reason := some reason } (some reason)
      | none => result { status := status, reason := some reason } (some reason)
  | none =>
    match error with
    | .os _ =>
      result { status := .applyError, reason := some .filesystemError } (some .filesystemError)
    | _ => raise error

/-- The loop of `run`: one attempt, and at most so many after it. -/
def attempts : Nat → Io ReconcileResult
  | 0 => rescue (attempt env reconciler job) (report none)
  | later + 1 => rescue (attempt env reconciler job) (report (some (attempts later)))

/-- `run` -/
def run (pendingDurability : Bool) : Io ReconcileResult := do
  record fun _ =>
    { sourceSha256 := env.sha256 job.source, pendingDurability := pendingDurability }
  if !job.definition.enabled then
    result { status := .disabled } (some .disabledPatch)
  else attempts env reconciler job 2

end Hapatchy
