import Hapatchy.Lib.Dicts
import Hapatchy.Lib.Traces
import Hapatchy.Reconciler

/-!
# The runtime

`coordinator.py` and `state_store.py`: admission, one action at a time under
the operation lock, the state of each patch and what is kept over a reload.

Between two `await`s the event loop runs one piece of code to its end. A move
is such a piece, with the outcome of what it awaited, or something that
Home Assistant or the watcher does in between.
-/

open Effects Prog

namespace Hapatchy

/-! ## States of a patch -/

structure PatchRuntimeState where
  status : Status := .unknown
  watcherAvailable : Bool := false
  watcherRecheckRequired : Bool := false
  lastCheckedAt : Option Text := none
  lastAppliedAt : Option Text := none
  targetSha256 : Option Text := none
  patchSha256 : Option Text := none
  lastError : Option Reason := none
  restartMayBeRequired : Bool := false
  deriving DecidableEq, Repr

namespace StateStore

/-- `_FIELDS` of a patch, as far as `_restore` understands them: strings, and known reasons. -/
structure Item where
  lastCheckedAt : Option Text := none
  lastAppliedAt : Option Text := none
  targetSha256 : Option Text := none
  patchSha256 : Option Text := none
  lastError : Option Reason := none
  deriving DecidableEq, Repr

/-- `[0-9a-f]{64}` -/
def isSha256 (t : Text) : Bool := t.length = 64 && t.all isHex

/-- `[0-9T:.+Z-]{10,40}` -/
def isTimestamp (t : Text) : Bool :=
  10 ≤ t.length && t.length ≤ 40 &&
    t.all fun c => ('0' ≤ c && c ≤ '9') || c ∈ ['T', ':', '.', '+', 'Z', '-']

/-- `value` if it passes the check, else what is there. -/
def checked (check : Text → Bool) (value current : Option Text) : Option Text :=
  match value with
  | some t => if check t then some t else current
  | none => current

/-- The failures that are safety gates across reloads. -/
def gates : List Reason := [.durabilityUnconfirmed, .revertMetadataUnavailable]

/-- `_restore` -/
def restore (state : PatchRuntimeState) (item : Item) : PatchRuntimeState :=
  { state with
    targetSha256 := checked isSha256 item.targetSha256 state.targetSha256
    patchSha256 := checked isSha256 item.patchSha256 state.patchSha256
    lastCheckedAt := checked isTimestamp item.lastCheckedAt state.lastCheckedAt
    lastAppliedAt := checked isTimestamp item.lastAppliedAt state.lastAppliedAt
    lastError :=
      match item.lastError with
      | some reason => if reason ∈ gates then some reason else state.lastError
      | none => state.lastError }

/-- `load`, with `none` for data that cannot be read or is no dictionary. -/
def load (states : Dict Text PatchRuntimeState) (data : Option (Dict Text Item)) :
    Dict Text PatchRuntimeState :=
  Dict.mapValues (fun patchId state =>
    match data.bind (AList.lookup patchId) with
    | some item => restore state item
    | none => state) states

/-- What `save` writes. -/
def save (states : Dict Text PatchRuntimeState) : Dict Text Item :=
  Dict.mapValues (fun _ state =>
    ⟨state.lastCheckedAt, state.lastAppliedAt, state.targetSha256, state.patchSha256,
      state.lastError⟩) states

end StateStore

/-- `PatchSourceClient.load`, around what its `try` block ends with. -/
def loadSource : Except Exc Bytes → Except Exc Bytes
  | .ok data => .ok data
  | .error (.os _) => .error (.patch ⟨.sourceUnavailable, .sourceError⟩)
  | .error .value => .error .value
  | .error .recursion => .error .recursion
  | .error error =>
    match error.patchError? with
    | some ⟨_, .sourceError⟩ => .error error
    | some ⟨_, .securityError⟩ => .error error
    | _ => .error (.patch ⟨.invalidLocalSource, .sourceError⟩)

/-! ## The runtime -/

/-- What the holder of the operation lock awaits. -/
inductive Phase where
  | checking
  | loading
  | running (source : Bytes)
  | refreshing (result : ReconcileResult)
  /-- `store.save` has been called, and has built its dictionary. -/
  | saving (items : Dict Text StateStore.Item)
  deriving DecidableEq

/-- An action in `_execute_action` that holds the lock. -/
structure Held where
  patchId : Text
  action : Action
  definition : PatchDefinition
  /-- `last_error` was `durability_unconfirmed` when it took the lock. -/
  pending : Bool
  phase : Phase
  deriving DecidableEq

structure PatchManagerRuntime where
  definitions : Dict Text PatchDefinition
  retention : Nat
  states : Dict Text PatchRuntimeState
  suppressReapply : List Text := []
  closing : Bool := false
  /-- Admitted actions that wait for the lock. -/
  waiting : List (Text × Action) := []
  holder : Option Held := none

namespace PatchManagerRuntime

/-- `__init__` -/
def make (subentries : Dict Text PatchDefinition) (retention : Nat) :
    Except PatchError PatchManagerRuntime :=
  let targets := subentries.entries.map fun entry => entry.2.targetPath
  if ¬ targets.Nodup then throw ⟨.duplicateTarget, .invalidPatch⟩
  else if retention < 1 ∨ retention > 100 then throw ⟨.invalidRetention, .invalidPatch⟩
  else pure {
    definitions := subentries
    retention := retention
    states := Dict.mapValues (fun _ definition =>
      { status := if definition.enabled then .unknown else .disabled }) subentries }

/-- The loop of `async_load` over the states. -/
def loadedState (restart : List Text) (patchId : Text) (definition : PatchDefinition)
    (state : PatchRuntimeState) : PatchRuntimeState :=
  let state := { state with restartMayBeRequired := decide (patchId ∈ restart) }
  let gated : Bool := state.lastError.any (· ∈ StateStore.gates)
  if definition.sourceType = "url".toList ∧ definition.sourceSha256 = none ∧ !gated then
    { state with
      status := if definition.enabled then .sourceError else state.status
      lastError := some .sourceHashRequired
      patchSha256 := none }
  else if gated && definition.enabled then { state with status := .applyError }
  else state

/-- `async_load` -/
def asyncLoad (runtime : PatchManagerRuntime) (restart : List Text)
    (data : Option (Dict Text StateStore.Item)) : PatchManagerRuntime :=
  let states := StateStore.load runtime.states data
  { runtime with
    suppressReapply := runtime.suppressReapply ++ states.keys.filter fun patchId =>
      (states.lookup patchId).any (·.lastError = some .revertMetadataUnavailable)
    states := Dict.mapValues (fun patchId state =>
      match runtime.definitions.lookup patchId with
      | some definition => loadedState restart patchId definition state
      | none => state) states }

/-- `self.states[patch_id]` becomes `f` of it. -/
def modifyState (runtime : PatchManagerRuntime) (patchId : Text)
    (f : PatchRuntimeState → PatchRuntimeState) : PatchManagerRuntime :=
  { runtime with
    states := Dict.mapValues (fun key state => if key = patchId then f state else state)
      runtime.states }

/-- `watch_available` -/
def watchAvailable (runtime : PatchManagerRuntime) (patchId : Text) (available : Bool) :
    PatchManagerRuntime :=
  runtime.modifyState patchId fun state =>
    { state with
      watcherAvailable := available
      watcherRecheckRequired := state.watcherRecheckRequired || !available }

/-- `watch_denied` -/
def watchDenied (runtime : PatchManagerRuntime) (patchId : Text) (reason : Reason) :
    PatchManagerRuntime :=
  runtime.modifyState patchId fun state =>
    { state with
      watcherAvailable := false
      watcherRecheckRequired := true
      status := .securityError
      lastError := if state.lastError ≠ some .durabilityUnconfirmed then some reason
        else state.lastError }

/-- `matches_entry` -/
def matchesEntry (runtime : PatchManagerRuntime) (subentries : Dict Text PatchDefinition)
    (retention : Nat) : Bool :=
  decide (Dict.Same subentries runtime.definitions) && decide (retention = runtime.retention)

/-- `_validate_current` -/
def validateCurrent (runtime : PatchManagerRuntime) (subentries : Dict Text PatchDefinition)
    (retention : Nat) (patchId : Text) : Except PatchError Unit :=
  if patchId ∉ runtime.definitions then throw ⟨.unknownPatch, .invalidPatch⟩
  else
    match subentries.lookup patchId with
    | none => throw ⟨.unknownPatch, .invalidPatch⟩
    | some current =>
      if !current.enabled then throw ⟨.disabledPatch, .invalidPatch⟩
      else if !runtime.matchesEntry subentries retention then throw ⟨.runtimeReloading, .invalidPatch⟩
      else pure ()

end PatchManagerRuntime

/-! ## Results -/

/-- The `except PatchError` of `_execute_action`. -/
def failedResult (pending : Bool) (error : PatchError) : ReconcileResult :=
  let (status, reason) : Status × Reason :=
    if pending ∧ error.status ≠ .securityError then (.applyError, .durabilityUnconfirmed)
    else (error.status, error.reason)
  { inspection := { status := status, reason := some reason }
    sourceSha256 := []
    serviceError := some reason }

/-- The result of a revert that could not persist `auto_apply`. -/
def unavailableResult (result : ReconcileResult) : ReconcileResult :=
  { result with
    inspection := { status := .applyError, reason := some .revertMetadataUnavailable }
    serviceError := some .revertMetadataUnavailable }

def haDenied (result : ReconcileResult) : Bool :=
  result.inspection.status = .securityError && result.inspection.reason = some .haPathNotAllowed

/-- The watcher has reported the loss of the directory already. -/
def lossReported (result : ReconcileResult) (state : PatchRuntimeState) : Bool :=
  haDenied result && !state.watcherAvailable && state.watcherRecheckRequired

/-- `_record_result`, for the state. -/
def recordResult (held : Held) (result : ReconcileResult) (checkedAt : Text)
    (state : PatchRuntimeState) : PatchRuntimeState :=
  if lossReported result state then state
  else
    { state with
      status := result.inspection.status
      watcherRecheckRequired := !state.watcherAvailable && state.watcherRecheckRequired
      lastError :=
        if held.pending ∧ result.inspection.status = .securityError then
          some .durabilityUnconfirmed
        else result.inspection.reason
      lastCheckedAt := some checkedAt
      targetSha256 := result.targetSha256
      patchSha256 := if result.sourceSha256 = [] then none else some result.sourceSha256
      lastAppliedAt := if result.mutated ∧ held.action ≠ .revert then some checkedAt
        else state.lastAppliedAt
      restartMayBeRequired := state.restartMayBeRequired ||
        (result.mutated && decide (".py".toList <:+ held.definition.targetPath)) }

/-! ## The system -/

/-- `_save` of a patch flow: it creates a patch, or reconfigures the one of `original`. -/
structure Save where
  original : Option PatchDefinition
  definition : PatchDefinition
  /-- The runtime whose `configuration_guard` it takes, or none for the bare lock. -/
  guard : Option Nat
  deriving DecidableEq, Repr

/-- Home Assistant with the entry, its store, the files, and the runtime while it is set up. -/
structure System where
  world : World
  subentries : Dict Text PatchDefinition
  backupRetention : Nat
  store : Option (Dict Text StateStore.Item) := none
  restartRequired : List Text := []
  runtime : Option PatchManagerRuntime := none
  /-- The number of setups, which tells a runtime from those before it. -/
  generation : Nat := 0
  /-- Saves that wait for the operation lock. -/
  saves : List Save := []
  /-- The save that holds it. -/
  saving : Option Save := none

/-- How `async_update_subentry` ends: it returns, or it raises one of the three exceptions that
`_execute_action` expects, or another one. -/
inductive Update where
  | done
  | failed
  | raised
  deriving DecidableEq, Repr

/-- The reasons with which `_root_identity` denies a watch root. -/
def watchReasons : List Reason :=
  [.unsafePath, .protectedPath, .hapatchyFileNotAllowed, .haPathNotAllowed, .directoryChanged] ++
    authorityReasons

inductive Move where
  /-- `async_action`, up to the new task: a service call, a check of the watcher, a schedule. -/
  | request (patchId : Text) (action : Action)
  /-- A waiting action takes the lock. -/
  | begin (index : Nat)
  /-- `check_definition` has run. -/
  | checked (update : Update)
  /-- The source has been read. -/
  | loaded (source : Except Exc Bytes) (update : Update)
  /-- `Reconciler.run` has run. -/
  | ran (update : Update)
  /-- `watcher.async_refresh` has returned or raised. -/
  | refreshed (returned : Bool)
  /-- `store.save` has returned or raised. -/
  | saved (returned : Bool)
  | watchAvailable (patchId : Text) (available : Bool)
  | watchDenied (patchId : Text) (reason : Reason)
  /-- An unload begins, or Home Assistant refuses it. -/
  | setClosing (closing : Bool)
  /-- `async_close` has drained the runtime and saved. -/
  | close (stopped : Bool)
  /-- A setup whose `store.load` finds `data`. -/
  | setup (data : Option (Dict Text StateStore.Item))
  /-- A patch flow reaches `_save`. -/
  | save (original : Option PatchDefinition) (definition : PatchDefinition)
  /-- A waiting save takes the lock, and makes its first checks. -/
  | acquire (index : Nat)
  /-- The save that holds the lock has saved its draft, as the managed source `source`. -/
  | drafted (source : Text)
  /-- The save that holds the lock ends in an exception. -/
  | abandon
  /-- The save that holds the lock publishes its definition; a new patch gets the id `patchId`. -/
  | commit (patchId : Text)
  /-- Home Assistant updates a subentry by itself. -/
  | update (patchId : Text) (definition : PatchDefinition)
  /-- Home Assistant removes a subentry. -/
  | remove (patchId : Text)
  | setRetention (retention : Nat)

namespace System

variable (env : Env) (reconciler : Reconciler) (system : System)

def withRuntime (runtime : PatchManagerRuntime) : System := { system with runtime := some runtime }

/-- Nobody holds the operation lock. -/
def unlocked : Bool :=
  system.saving.isNone && (system.runtime.bind PatchManagerRuntime.holder).isNone

/-- The lock is free again, and the action is over. -/
def release (runtime : PatchManagerRuntime) : System :=
  system.withRuntime { runtime with holder := none }

/-- `_disable_auto_apply`. -/
def disableAutoApply (runtime : PatchManagerRuntime) (patchId : Text) (update : Update) :
    Update × System × PatchManagerRuntime :=
  match runtime.definitions.lookup patchId, update with
  | some previous, .done =>
    let definition := { previous with autoApply := false }
    -- `self.entry.subentries[patch_id]` raises a `KeyError` for a subentry that is gone.
    if patchId ∈ system.subentries then
      (.done, { system with subentries := system.subentries.insert patchId definition },
        { runtime with definitions := runtime.definitions.insert patchId definition })
    else (.raised, system, runtime)
  | some _, .failed => (if patchId ∈ system.subentries then .failed else .raised, system, runtime)
  | _, _ => (.raised, system, runtime)

/-- `_record_result`, and the await of `store.save`. -/
def recordAndSave (runtime : PatchManagerRuntime) (held : Held) (result : ReconcileResult) :
    System :=
  let checkedAt := isoformat (env.now system.world.step)
  let restart := result.mutated && decide (".py".toList <:+ held.definition.targetPath) &&
    !(runtime.states.lookup held.patchId).any (lossReported result)
  let runtime := runtime.modifyState held.patchId (recordResult held result checkedAt)
  { system with
    restartRequired :=
      if restart then system.restartRequired ++ [held.patchId] else system.restartRequired
    runtime := some { runtime with
      holder := some { held with phase := .saving (StateStore.save runtime.states) } } }

/-- `_execute_action` after the branch for a revert, up to its next await. -/
def settle (runtime : PatchManagerRuntime) (held : Held) (result : ReconcileResult) : System :=
  if haDenied result then
    system.withRuntime { runtime with holder := some { held with phase := .refreshing result } }
  else system.recordAndSave env runtime held result

/-- `_execute_action` after the `try` block, up to its next await. -/
def conclude (runtime : PatchManagerRuntime) (held : Held) (result : ReconcileResult)
    (update : Update) : System :=
  if held.action = .revert ∧ result.inspection.status ≠ .securityError then
    match system.disableAutoApply runtime held.patchId update with
    | (.done, system, runtime) =>
      let suppressReapply := runtime.suppressReapply.filter (· ≠ held.patchId)
      system.settle env { runtime with suppressReapply := suppressReapply } held result
    | (.failed, system, runtime) =>
      let suppressReapply := held.patchId :: runtime.suppressReapply
      system.settle env { runtime with suppressReapply := suppressReapply } held
        (unavailableResult result)
    | (.raised, system, runtime) => system.release runtime
  else system.settle env runtime held result

/-- The outcome of an executor job in the `try` block, with what follows a result. -/
def continueWith {α : Type} (runtime : PatchManagerRuntime) (held : Held) (out : Except Exc α)
    (update : Update) (next : α → System) : System :=
  match out with
  | .ok a => next a
  | .error error =>
    match error.patchError? with
    | some error =>
      system.conclude env runtime held (failedResult held.pending error) update
    | none => system.release runtime

/-- A waiting action takes the lock: `_execute_action` up to its first await. -/
def begin (runtime : PatchManagerRuntime) (patchId : Text) (action : Action)
    (waiting : List (Text × Action)) : System :=
  let runtime := { runtime with waiting := waiting }
  match runtime.validateCurrent system.subentries system.backupRetention patchId,
    runtime.definitions.lookup patchId, runtime.states.lookup patchId with
  | .ok (), some definition, some state =>
    if !definition.enabled then system.release runtime
    else
      let pending := decide (state.lastError = some .durabilityUnconfirmed)
      system.withRuntime
        { runtime with holder := some ⟨patchId, action, definition, pending, .checking⟩ }
  | _, _, _ => system.release runtime

/-- The runtime behind `guard` is there, and not closing. -/
def guardOpen (save : Save) : Bool :=
  match save.guard with
  | none => true
  | some generation =>
    match system.runtime with
    | some runtime => decide (generation = system.generation) && !runtime.closing
    | none => false

/-- The checks of `_save` right after it has the lock. -/
def checkSave (save : Save) : Bool :=
  system.guardOpen save &&
    (save.guard = none ||
      system.runtime.any (·.matchesEntry system.subentries system.backupRetention)) &&
    (match save.original with
      | some original => decide (system.subentries.lookup original.patchId = some original)
      | none => true) &&
    !system.subentries.entries.any fun entry =>
      some entry.1 ≠ save.original.map PatchDefinition.patchId &&
        entry.2.targetPath = save.definition.targetPath

/-- `_commit`, where the subentry of a reconfigured patch is still there. -/
def commitSave (save : Save) (patchId : Text) : Option System :=
  let system := { system with saving := none }
  match save.original with
  | some original =>
    if original.patchId ∉ system.subentries then some system
    else some { system with
      subentries := system.subentries.insert original.patchId
        { save.definition with patchId := original.patchId } }
  | none =>
    if patchId ∈ system.subentries then none
    else some { system with
      subentries := system.subentries.insert patchId { save.definition with patchId := patchId } }

/-- The job that `Reconciler.run` gets. -/
def job (runtime : PatchManagerRuntime) (held : Held) (source : Bytes) : Job :=
  ⟨held.definition, source, held.action, runtime.retention⟩

/-- One move, where it can be made. -/
def step : Move → Option System
  | .request patchId action => do
    let runtime ← system.runtime
    if runtime.closing then none
    else
      match runtime.validateCurrent system.subentries system.backupRetention patchId with
      | .error _ => none
      | .ok () =>
        if action = .reconcile ∧ patchId ∈ runtime.suppressReapply then none
        else some (system.withRuntime
          { runtime with waiting := runtime.waiting ++ [(patchId, action)] })
  | .begin index => do
    let runtime ← system.runtime
    let (patchId, action) ← runtime.waiting[index]?
    if !system.unlocked then none
    else some (system.begin runtime patchId action (runtime.waiting.eraseIdx index))
  | .checked update => do
    let runtime ← system.runtime
    let held ← runtime.holder
    if held.phase ≠ .checking then none
    else
      let (out, world) := reconciler.policy.checkDefinition env held.definition system.world
      let system := { system with world := world }
      some (system.continueWith env runtime held out update fun _ =>
        system.withRuntime { runtime with holder := some { held with phase := .loading } })
  | .loaded source update => do
    let runtime ← system.runtime
    let held ← runtime.holder
    if held.phase ≠ .loading then none
    else some (system.continueWith env runtime held (loadSource source) update fun source =>
      system.withRuntime { runtime with holder := some { held with phase := .running source } })
  | .ran update => do
    let runtime ← system.runtime
    let held ← runtime.holder
    match held.phase with
    | .running source =>
      let (out, world) := run env reconciler (job runtime held source) held.pending system.world
      let system := { system with world := world }
      some (system.continueWith env runtime held out update fun result =>
        system.conclude env runtime held result update)
    | _ => none
  | .refreshed returned => do
    let runtime ← system.runtime
    let held ← runtime.holder
    match held.phase with
    | .refreshing result =>
      if returned then some (system.recordAndSave env runtime held result)
      else some (system.release runtime)
    | _ => none
  | .saved returned => do
    let runtime ← system.runtime
    let held ← runtime.holder
    match held.phase with
    | .saving items =>
      let system := if returned then { system with store := some items } else system
      some (system.release runtime)
    | _ => none
  | .watchAvailable patchId available => do
    let runtime ← system.runtime
    some (system.withRuntime (runtime.watchAvailable patchId available))
  | .watchDenied patchId reason => do
    let runtime ← system.runtime
    if reason ∉ watchReasons then none
    else some (system.withRuntime (runtime.watchDenied patchId reason))
  | .setClosing closing => do
    let runtime ← system.runtime
    some (system.withRuntime { runtime with closing := closing })
  | .close stopped => do
    let runtime ← system.runtime
    if !runtime.closing ∨ runtime.waiting ≠ [] ∨ !system.unlocked then none
    else some { system with
      store := some (StateStore.save runtime.states)
      restartRequired := if stopped then [] else system.restartRequired
      runtime := none }
  | .setup data =>
    match system.runtime, PatchManagerRuntime.make system.subentries system.backupRetention with
    | none, .ok runtime =>
      some { system with
        runtime := some (runtime.asyncLoad system.restartRequired data)
        generation := system.generation + 1 }
    | _, _ => none
  | .save original definition =>
    some { system with
      saves := system.saves ++
        [⟨original, definition, system.runtime.map fun _ => system.generation⟩] }
  | .acquire index => do
    let save ← system.saves[index]?
    if !system.unlocked then none
    else some { system with
      saves := system.saves.eraseIdx index
      saving := if system.checkSave save then some save else none }
  | .drafted source => do
    let save ← system.saving
    if save.definition.sourceType ≠ "managed".toList then none
    else some { system with
      saving := some { save with definition := { save.definition with source := source } } }
  | .abandon => do
    let _ ← system.saving
    some { system with saving := none }
  | .commit patchId => do
    let save ← system.saving
    if !system.guardOpen save then none else system.commitSave save patchId
  | .update patchId definition =>
    if patchId ∈ system.subentries then
      some { system with subentries := system.subentries.insert patchId definition }
    else none
  | .remove patchId => some { system with subentries := system.subentries.erase patchId }
  | .setRetention retention => some { system with backupRetention := retention }

end System

end Hapatchy
