import Hapatchy.PatchBuilder
import Hapatchy.PatchSource

/-!
# Validation before a definition is published

`validation.py`: what a patch flow reads of a target and of a source, before it
publishes a definition. It changes no file.
-/

open Effects Prog

namespace Hapatchy

open PatchEngine (Fromstring ParsedPatch)
open PatchBuilder (maxEditorBytes validateEditorText)

/-! ## Errors of a flow -/

/-- What a flow catches: an error of the modules below, or a reason that only a flow gives. -/
inductive FlowError where
  | below (error : Exc)
  /-- `invalid_patch`, for an inspection without a reason. -/
  | invalidPatch (status : Status)
  | editorTargetChanged
  | editorSizeLimit
  | revertBeforeEdit
  deriving DecidableEq, Repr

abbrev FlowIo := Prog FlowError World

/-- A function of the modules below. -/
def below {α : Type} (m : Io α) : FlowIo α := fun w =>
  match m w with
  | (.ok a, w') => (.ok a, w')
  | (.error e, w') => (.error (.below e), w')

/-- The reason of an error whose status is `MISSING_TARGET`. -/
def FlowError.missing? : FlowError → Option Reason
  | .below error =>
    match error.patchError? with
    | some ⟨reason, .missingTarget⟩ => some reason
    | _ => none
  | _ => none

/-- `except PatchError` catches it. -/
def FlowError.isPatchError : FlowError → Bool
  | .below error => error.patchError?.isSome
  | _ => true

/-! ## Targets -/

variable (env : Env)

def readEditableTarget (policy : PathPolicy) (definition : PatchDefinition) : Io Snapshot := do
  policy.checkDefinition env definition
  withFile env definition.targetPath false fun target => do
    let snapshot ← target.read env maxEditorBytes
    let _ ← ofPatch (validateEditorText snapshot.data)
    policy.checkDefinition env definition
    target.verifySnapshot env snapshot
    pure snapshot

def verifyEditableSnapshot (policy : PathPolicy) (definition : PatchDefinition)
    (expected : Snapshot) : FlowIo Unit := do
  let current ← rescue (below (readEditableTarget env policy definition)) fun error =>
    if error.isPatchError then raise .editorTargetChanged else raise error
  if current.info ≠ expected.info ∨ current.sha256 ≠ expected.sha256 then
    raise .editorTargetChanged
  else pure ()

/-- The statuses that `inspect_target` returns from an inspection. -/
def inspectedStatuses : List Status := [.applicable, .applied, .conflict]

/-- `PatchError(result.reason or "invalid_patch", result.status)` -/
def inspectionError (result : PatchInspection) : FlowError :=
  match result.reason with
  | some reason => .below (.patch ⟨reason, result.status⟩)
  | none => .invalidPatch result.status

/-- The `try` block of `inspect_target`. -/
def inspectFile (parsed : ParsedPatch) (definition : PatchDefinition) : FlowIo PatchInspection := do
  let result ← below (withFile env definition.targetPath false fun target => do
    let snapshot ← target.read env
    pure (PatchEngine.inspect parsed snapshot.data))
  if result.status ∉ inspectedStatuses then raise (inspectionError result) else pure result

def inspectTarget (policy : PathPolicy) (fromstring : Fromstring) (definition : PatchDefinition)
    (raw : Bytes) : FlowIo PatchInspection := do
  below (policy.checkDefinition env definition)
  let parsed ← below (lift (PatchEngine.parse fromstring raw definition.targetPath))
  rescue (inspectFile env parsed definition) fun error =>
    match error.missing? with
    | some reason => pure { status := .missingTarget, reason := some reason }
    | none => raise error

/-- `PatchSourceClient.load` -/
def loadPatch (network : Network) (definition : PatchDefinition) : Io Bytes := fun w =>
  match fetchSource env network definition w with
  | (out, w') => (loadSource out, w')

end Hapatchy
