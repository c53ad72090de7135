import Hapatchy.ManagedSource.Publication
import Hapatchy.Validation

/-!
# Saves of patch flows

`config_flow.py`: the file editor up to its definition, and `_save` from one
await to the next, while it holds the operation lock. The forms are left out.
-/

open Effects Prog

namespace Hapatchy

open Difflib (GroupedOpcodes)
open PatchBuilder (buildPatch maxEditorBytes)

/-! ## The file editor -/

/-- `_encode_editor_input`: no `Text` has a surrogate. -/
def encodeEditorInput (value : Text) : Except FlowError Bytes :=
  if value.length > maxEditorBytes then throw .editorSizeLimit
  else
    let encoded := Utf8.encode value
    if encoded.length > maxEditorBytes then throw .editorSizeLimit else pure encoded

/-- An edit of the target of `base` that the editor has accepted. -/
structure Edit (env : Env) (grouped : GroupedOpcodes) (reconciler : Reconciler) where
  /-- The first form, with the source type `managed`. -/
  base : PatchDefinition
  /-- `_edit_snapshot` -/
  snapshot : Snapshot
  text : Text
  edited : Bytes
  /-- `_draft` -/
  draft : Bytes
  managed : base.sourceType = "managed".toList
  read : snapshot.sha256 = env.sha256 snapshot.data
  encoded : encodeEditorInput text = .ok edited
  built : buildPatch grouped reconciler.fromstring snapshot.data edited base.targetPath =
    some (.ok draft)
  deriving DecidableEq

variable {env : Env} {grouped : GroupedOpcodes} {reconciler : Reconciler}

/-- What `async_step_edit_file` saves. -/
def Edit.definition (edit : Edit env grouped reconciler) : PatchDefinition :=
  let digest := env.sha256 edit.draft
  { edit.base with
    source := digest
    sourceSha256 := some digest
    enabled := true
    autoApply := true
    reconcileOnStartup := true
    backupBeforeApply := true }

/-- What a flow keeps for itself: `_draft` of the forms, or the edit of the file editor. -/
inductive Flow (env : Env) (grouped : GroupedOpcodes) (reconciler : Reconciler) where
  | forms (draft : Option Bytes)
  | editor (edit : Edit env grouped reconciler)
  deriving DecidableEq

namespace Flow

def draft : Flow env grouped reconciler → Option Bytes
  | .forms draft => draft
  | .editor edit => some edit.draft

/-- The save is one of this flow. The form of a managed source has set its digest, and the file
editor only makes new patches. -/
def fits (save : Save) : Flow env grouped reconciler → Bool
  | .forms draft =>
    decide (save.definition.sourceType ≠ "managed".toList) ||
      draft.any fun draft => env.sha256 draft = save.definition.source
  | .editor edit => decide (save.original = none) && decide (save.definition = edit.definition)

/-- `_verify_save_target` -/
def verifySaveTarget (definition : PatchDefinition) : Flow env grouped reconciler → FlowIo Unit
  | .forms _ => below (reconciler.policy.checkDefinition env definition)
  | .editor edit => verifyEditableSnapshot env reconciler.policy definition edit.snapshot

end Flow

/-! ## A save under the lock -/

/-- What the save awaits. The first three are in `_check_source_change`. -/
inductive Await where
  | checking (original : PatchDefinition)
  | loading (original : PatchDefinition)
  | inspecting (original : PatchDefinition) (raw : Bytes)
  | verifying
  | storing
  | reverifying
  deriving DecidableEq, Repr

structure Publishing (env : Env) (grouped : GroupedOpcodes) (reconciler : Reconciler) where
  flow : Flow env grouped reconciler
  /-- The local `definition` of `_save`. -/
  definition : PatchDefinition
  await : Await

/-- The definition that `_check_source_change` validates: another source or target replaces it. -/
def changedFrom (save : Save) : Option PatchDefinition :=
  save.original.filter fun original =>
    (save.definition.sourceType, save.definition.source, save.definition.targetPath) ≠
      (original.sourceType, original.source, original.targetPath)

def firstAwait (save : Save) : Await :=
  match changedFrom save with
  | some original => .checking original
  | none => .verifying

/-- The statuses that `validate_definition` returns. -/
def validatedStatuses : List Status := .missingTarget :: inspectedStatuses

/-- Home Assistant with the save that holds the lock. -/
structure Session (env : Env) (grouped : GroupedOpcodes) (reconciler : Reconciler) where
  system : System
  publishing : Option (Publishing env grouped reconciler) := none

/-- Moves of the system, with those of a save under the lock step by step. -/
inductive Session.Move (env : Env) (grouped : GroupedOpcodes) (reconciler : Reconciler) where
  | system (move : Hapatchy.Move)
  /-- A waiting save takes the lock. -/
  | acquire (index : Nat) (flow : Flow env grouped reconciler)
  /-- What the save awaits is done. -/
  | proceed
  /-- Its last await is done, and it publishes. A new patch gets the id `patchId`. -/
  | publish (patchId : Text)
  /-- It is cancelled. -/
  | cancel

/-- The moves that a save makes under the lock. -/
def Move.ofSave : Move → Bool
  | .acquire _ => true
  | .drafted _ => true
  | .abandon => true
  | .commit _ => true
  | _ => false

/-- The system with other files. -/
def System.inWorld (system : System) (world : World) : System := { system with world := world }

namespace Session

variable (session : Session env grouped reconciler)

def inWorld (world : World) : Session env grouped reconciler :=
  { session with system := session.system.inWorld world }

/-- The save is over, and the lock is free. -/
def finish : Session env grouped reconciler := ⟨{ session.system with saving := none }, none⟩

/-- An awaited job runs in the files. `_save` goes on with `next`, or it ends in an exception. -/
def awaitJob {α : Type} (m : FlowIo α)
    (next : α → Session env grouped reconciler → Session env grouped reconciler) :
    Session env grouped reconciler :=
  match m session.system.world with
  | (.ok a, world) => next a (session.inWorld world)
  | (.error _, world) => (session.inWorld world).finish

/-- `_save` awaits the next thing. -/
def goOn (publishing : Publishing env grouped reconciler) (await : Await) :
    Session env grouped reconciler :=
  { session with publishing := some { publishing with await := await } }

/-- The end of `_check_source_change`. -/
def sourceChecked (publishing : Publishing env grouped reconciler) (result : PatchInspection) :
    Session env grouped reconciler :=
  if result.status ∉ validatedStatuses ∨ result.status = .applied then session.finish
  else session.goOn publishing .verifying

/-- The draft is stored, as the managed source `source`. -/
def drafted (publishing : Publishing env grouped reconciler) (save : Save) (source : Text) :
    Session env grouped reconciler :=
  let save := { save with definition := { save.definition with source := source } }
  goOn { session with system := { session.system with saving := some save } } publishing .reverifying

def proceed (network : Network) (session : Session env grouped reconciler)
    (publishing : Publishing env grouped reconciler) (save : Save) :
    Option (Session env grouped reconciler) :=
  match publishing.await with
  | .checking original =>
    some (session.awaitJob (below (reconciler.policy.checkDefinition env original)) fun _ session =>
      session.goOn publishing (.loading original))
  | .loading original =>
    some (session.awaitJob (below (loadPatch env network original)) fun raw session =>
      session.goOn publishing (.inspecting original raw))
  | .inspecting original raw =>
    some (session.awaitJob (inspectTarget env reconciler.policy reconciler.fromstring original raw)
      fun result session => session.sourceChecked publishing result)
  | .verifying =>
    some (session.awaitJob (publishing.flow.verifySaveTarget publishing.definition)
      fun _ session => session.goOn publishing
        (if publishing.definition.sourceType = "managed".toList then .storing else .reverifying))
  | .storing =>
    match publishing.flow.draft with
    | none => some session.finish
    | some draft =>
      some (session.awaitJob (below (ManagedPatchStore.saveRevision env draft))
        fun source session => session.drafted publishing save source)
  | .reverifying => none

/-- `_save` after its last await. -/
def publish (save : Save) (patchId : Text) : Option (Session env grouped reconciler) :=
  if !session.system.guardOpen save then some session.finish
  else (session.system.commitSave save patchId).map fun system => ⟨system, none⟩

def step (network : Network) (session : Session env grouped reconciler) :
    Move env grouped reconciler → Option (Session env grouped reconciler)
  | .system move =>
    if move.ofSave then none
    else (session.system.step env reconciler move).map fun system => { session with system := system }
  | .acquire index flow => do
    let save ← session.system.saves[index]?
    if !flow.fits save then none
    else
      let system ← session.system.step env reconciler (.acquire index)
      some ⟨system, system.saving.map fun save => ⟨flow, save.definition, firstAwait save⟩⟩
  | .proceed => do
    let publishing ← session.publishing
    let save ← session.system.saving
    session.proceed network publishing save
  | .publish patchId => do
    let publishing ← session.publishing
    let save ← session.system.saving
    if publishing.await ≠ .reverifying then none
    else
      match publishing.flow.verifySaveTarget publishing.definition session.system.world with
      | (.error _, world) => some (session.inWorld world).finish
      | (.ok (), world) => (session.inWorld world).publish save patchId
  | .cancel => do
    let _ ← session.publishing
    some session.finish

end Session

end Hapatchy
