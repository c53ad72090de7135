import Hapatchy.Coordinator
import Mathlib.Data.Finset.Basic
import Mathlib.Data.Finset.Image

/-!
# Tasks

`coordinator.py` and `watcher.py` as tasks on the event loop: who waits for
whom, over any number of runtimes that share the operation lock. What an action
does is in `Coordinator`; here it is the result that its job returns.

A move runs one task from one `await` to the next. A task may run up to its
first `await` where it is created, or later.
-/

namespace Hapatchy.Tasks

/-! ## Actions and callers -/

/-- Where an action is in `_execute_action`. -/
inductive Stage where
  /-- It waits for the operation lock. -/
  | waiting
  /-- `check_definition` and the source. -/
  | preparing
  /-- `Reconciler.run` is in the executor. -/
  | running
  /-- It has its result, and may refresh the watcher. -/
  | ran (result : ReconcileResult)
  /-- The result is recorded, and the states are on their way to the store. -/
  | saving
  | done
  deriving DecidableEq, Repr

/-- The stages with the operation lock. -/
def Stage.holds : Stage → Bool
  | .waiting => false
  | .done => false
  | _ => true

/-- An admitted action. -/
structure ActionTask where
  runtime : Nat
  patchId : Text
  action : Action
  stage : Stage := .waiting
  deriving DecidableEq, Repr

/-- Who calls `async_action`. -/
inductive Kind where
  | service
  /-- `schedule` -/
  | background
  /-- `PatchWatcher._check` -/
  | check
  deriving DecidableEq, Repr

inductive CallerStage where
  | created
  /-- It awaits an action, behind a shield. -/
  | awaiting (task : Nat)
  | ended
  deriving DecidableEq, Repr

structure Caller where
  kind : Kind
  runtime : Nat
  patchId : Text
  action : Action
  stage : CallerStage := .created
  deriving DecidableEq, Repr

/-! ## Runtimes -/

structure PatchWatcher where
  /-- The patches with a debounce timer. -/
  pending : Finset Text := ∅
  /-- The check of each patch. -/
  running : Dict Text Nat := ∅
  dirty : Finset Text := ∅
  refreshTasks : Finset Nat := ∅
  closed : Bool := false

/-- `PatchManagerRuntime`, as far as its tasks go. -/
structure Runtime where
  /-- The patches that `_validate_current` accepts. -/
  current : Finset Text
  suppressReapply : Finset Text
  watcher : PatchWatcher := {}
  busy : Finset Text := ∅
  admitted : Finset Nat := ∅
  background : Finset Nat := ∅
  workers : Finset Nat := ∅
  closing : Bool := false
  closed : Bool := false
  /-- The call of `async_close` that has `_close_lock`. -/
  closeLock : Option Nat := none

namespace Runtime

def modifyWatcher (runtime : Runtime) (f : PatchWatcher → PatchWatcher) :
    Runtime :=
  { runtime with watcher := f runtime.watcher }

/-- `_debounce` -/
def debounce (runtime : Runtime) (patchId : Text) : Runtime :=
  if runtime.watcher.closed ∨ patchId ∈ runtime.suppressReapply then runtime
  else if patchId ∈ runtime.watcher.running ∨ patchId ∈ runtime.busy then
    runtime.modifyWatcher fun watcher =>
      { watcher with pending := watcher.pending.erase patchId, dirty := insert patchId watcher.dirty }
  else
    runtime.modifyWatcher fun watcher => { watcher with pending := insert patchId watcher.pending }

/-- `action_complete` -/
def actionComplete (runtime : Runtime) (patchId : Text) : Runtime :=
  if patchId ∉ runtime.watcher.running ∧ patchId ∈ runtime.watcher.dirty then
    debounce (runtime.modifyWatcher fun watcher =>
      { watcher with dirty := watcher.dirty.erase patchId }) patchId
  else runtime

/-- `handle_event` for a file, where its paths are the targets of `patchIds`. -/
def handleEvent (runtime : Runtime) (patchIds : List Text) : Runtime :=
  if runtime.watcher.closed ∨ runtime.closing then runtime else patchIds.foldl debounce runtime

/-- The `finally` of `_execute_action`. -/
def actionFinished (runtime : Runtime) (task : Nat) (patchId : Text) :
    Runtime :=
  actionComplete { runtime with
    admitted := runtime.admitted.erase task
    busy := runtime.busy.erase patchId } patchId

/-- `_fire` takes the timer out. -/
def timerFired (runtime : Runtime) (patchId : Text) : Runtime :=
  runtime.modifyWatcher fun watcher => { watcher with pending := watcher.pending.erase patchId }

def markDirty (runtime : Runtime) (patchId : Text) : Runtime :=
  runtime.modifyWatcher fun watcher => { watcher with dirty := insert patchId watcher.dirty }

/-- `_fire` has created the task of `_check`. -/
def checkCreated (runtime : Runtime) (patchId : Text) (index : Nat) : Runtime :=
  runtime.modifyWatcher fun watcher =>
    { watcher with running := watcher.running.insert patchId index }

/-- The `finally` of `_check`. -/
def checkFinished (runtime : Runtime) (patchId : Text) : Runtime :=
  actionComplete (runtime.modifyWatcher fun watcher =>
    { watcher with running := watcher.running.erase patchId }) patchId

end Runtime

/-! ## Teardown -/

/-- Where a call of `async_close` is. -/
inductive CloseStage where
  /-- It waits for `_close_lock`. -/
  | waiting
  /-- `watcher.async_close`, until the observer has stopped. -/
  | stopping
  /-- `watcher.async_close` awaits the checks and the refreshes. -/
  | joining (checks refreshes : Finset Nat)
  | draining (admitted background : Finset Nat)
  | reaping (workers : Finset Nat)
  /-- It waits for the operation lock. -/
  | locking
  | saving
  | returned
  | raised
  deriving DecidableEq

/-- The stages with `_close_lock`. -/
def CloseStage.holds : CloseStage → Bool
  | .waiting => false
  | .returned => false
  | .raised => false
  | _ => true

structure Close where
  runtime : Nat
  stage : CloseStage := .waiting
  deriving DecidableEq

/-! ## The loop -/

/-- Who has the operation lock. -/
inductive Owner where
  | action (task : Nat)
  | close (call : Nat)
  /-- `configuration_guard`, a save without a runtime, or `async_read_patch`. -/
  | guard
  deriving DecidableEq, Repr

/-- What a runtime leaves behind. -/
inductive Entry where
  /-- `Reconciler.run` has written the target. -/
  | wrote (task : Nat)
  | recorded (task : Nat) (result : ReconcileResult)
  /-- `store.save` has written the states, for an action or a call of `async_close`. -/
  | saved (owner : Owner)
  deriving DecidableEq, Repr

structure Loop where
  runtimes : Nat → Runtime
  actions : List ActionTask := []
  callers : List Caller := []
  closes : List Close := []
  lock : Option Owner := none
  log : List Entry := []

inductive Move where
  /-- A service or an entity calls `async_action`. -/
  | call (runtime : Nat) (patchId : Text) (action : Action)
  | schedule (runtime : Nat) (patchId : Text)
  /-- `async_action`, up to the await of its action. -/
  | start (caller : Nat)
  /-- The action of a caller is over. -/
  | resume (caller : Nat)
  | cancel (caller : Nat)
  /-- An action takes the lock. -/
  | begin (task : Nat)
  | prepared (task : Nat)
  /-- The `try` block ends with a result, and a revert turns `auto_apply` off. -/
  | returned (task : Nat) (result : ReconcileResult) (update : Update)
  | write (task : Nat)
  | recorded (task : Nat)
  | saved (task : Nat)
  /-- An exception ends the action. -/
  | raised (task : Nat)
  | event (runtime : Nat) (patchIds : List Text)
  /-- A directory comes, goes or moves. -/
  | directoryEvent (runtime refresh : Nat)
  | refreshed (runtime refresh : Nat)
  /-- `_publish_root` for a root that is back. -/
  | recovered (runtime : Nat) (patchIds : List Text)
  /-- A timer runs `_fire`, with its check at once or later. -/
  | fire (runtime : Nat) (patchId : Text) (eager : Bool)
  /-- `run_io` of anyone but an action. -/
  | submit (runtime worker : Nat)
  | complete (runtime worker : Nat)
  | guard
  | unguard
  /-- The entry changes. -/
  | edit (runtime : Nat) (current : Finset Text)
  /-- An unload begins, or Home Assistant refuses it. -/
  | setClosing (runtime : Nat) (closing : Bool)
  | close (runtime : Nat)
  | enter (call : Nat)
  | stopped (call : Nat)
  | joined (call : Nat)
  | drained (call : Nat)
  | reaped (call : Nat)
  | relock (call : Nat)
  | closeSaved (call : Nat)
  | closeRaised (call : Nat)
  deriving DecidableEq

namespace Loop

/-- Runtimes that are set up, and no tasks. -/
def idle (current suppressReapply : Nat → Finset Text) : Loop where
  runtimes r := { current := current r, suppressReapply := suppressReapply r }

variable (loop : Loop)

def modify (runtime : Nat) (f : Runtime → Runtime) : Loop :=
  { loop with runtimes := Function.update loop.runtimes runtime (f (loop.runtimes runtime)) }

def addCaller (caller : Caller) : Loop := { loop with callers := loop.callers ++ [caller] }

def setAction (task : Nat) (stage : Stage) : Loop :=
  { loop with actions := loop.actions.modify task fun action => { action with stage := stage } }

def setCaller (caller : Nat) (stage : CallerStage) : Loop :=
  { loop with callers := loop.callers.modify caller fun c => { c with stage := stage } }

def setClose (call : Nat) (stage : CloseStage) : Loop :=
  { loop with closes := loop.closes.modify call fun close => { close with stage := stage } }

/-- An action is over, and the lock is free. -/
def finish (task : Nat) (action : ActionTask) : Loop :=
  { loop.setAction task .done with lock := none }.modify action.runtime
    (·.actionFinished task action.patchId)

/-- A caller is over. A check that has never run has no `finally`. -/
def endCaller (index : Nat) (caller : Caller) (ran : Bool) : Loop :=
  let loop := loop.setCaller index .ended
  match caller.kind with
  | .service => loop
  | .background => loop.modify caller.runtime fun runtime =>
      { runtime with background := runtime.background.erase index }
  | .check => if ran then loop.modify caller.runtime (·.checkFinished caller.patchId) else loop

/-- A new task of `_execute_action`. -/
def admitAction (action : ActionTask) : Loop :=
  { loop with actions := loop.actions ++ [action] }.modify action.runtime fun runtime =>
    { runtime with admitted := insert loop.actions.length runtime.admitted }

/-- `async_action`, up to the await. -/
def asyncAction (index : Nat) (caller : Caller) : Loop :=
  let runtime := loop.runtimes caller.runtime
  if runtime.closing ∨ caller.patchId ∉ runtime.current ∨
      (caller.action = .reconcile ∧ caller.patchId ∈ runtime.suppressReapply) then
    loop.endCaller index caller true
  else
    (loop.admitAction ⟨caller.runtime, caller.patchId, caller.action, .waiting⟩).setCaller index
      (.awaiting loop.actions.length)

/-- `_execute_action` with the lock, up to its first await. -/
def executeAction (task : Nat) (action : ActionTask) : Loop :=
  if action.patchId ∈ (loop.runtimes action.runtime).current then
    ({ loop with lock := some (.action task) }.setAction task .preparing).modify action.runtime
      fun runtime => { runtime with busy := insert action.patchId runtime.busy }
  else loop.finish task action

/-- What follows the `try` block of `_execute_action`. -/
def conclude (task : Nat) (action : ActionTask) (result : ReconcileResult) (update : Update) :
    Loop :=
  if action.action = .revert ∧ result.inspection.status ≠ .securityError then
    match update with
    | .done => (loop.setAction task (.ran result)).modify action.runtime fun runtime =>
        { runtime with suppressReapply := runtime.suppressReapply.erase action.patchId }
    | .failed => (loop.setAction task (.ran (unavailableResult result))).modify action.runtime
        fun runtime => { runtime with suppressReapply := insert action.patchId runtime.suppressReapply }
    | .raised => loop.finish task action
  else loop.setAction task (.ran result)

/-- `_fire` -/
def fire (runtime : Nat) (patchId : Text) (eager : Bool) : Loop :=
  let loop := loop.modify runtime (·.timerFired patchId)
  let state := loop.runtimes runtime
  if state.watcher.closed ∨ state.closing then loop
  else if patchId ∈ state.busy then loop.modify runtime (·.markDirty patchId)
  else
    let index := loop.callers.length
    let caller : Caller := ⟨.check, runtime, patchId, .reconcile, .created⟩
    let loop := loop.addCaller caller
    let loop := if eager then loop.asyncAction index caller else loop
    loop.modify runtime (·.checkCreated patchId index)

def ended (index : Nat) : Bool := (loop.callers[index]?).any (·.stage = .ended)

def isDone (task : Nat) : Bool := (loop.actions[task]?).any (·.stage = .done)

/-- One step of an action with the lock. -/
def advance (task : Nat) (f : ActionTask → Option Loop) : Option Loop := do
  let action ← loop.actions[task]?
  if action.stage.holds then f action else none

/-- One step of a call of `async_close` with `_close_lock`. -/
def advanceClose (call : Nat) (f : Close → Option Loop) : Option Loop := do
  let close ← loop.closes[call]?
  if close.stage.holds then f close else none

/-- `_close_lock` is free again. -/
def leave (call : Nat) (close : Close) (stage : CloseStage) : Loop :=
  (loop.setClose call stage).modify close.runtime fun runtime => { runtime with closeLock := none }

/-- One move, where it can be made. -/
def step : Move → Option Loop
  | .call runtime patchId action =>
    some (loop.addCaller ⟨.service, runtime, patchId, action, .created⟩)
  | .schedule runtime patchId =>
    if (loop.runtimes runtime).closing ∨ patchId ∈ (loop.runtimes runtime).suppressReapply then none
    else
      let index := loop.callers.length
      some ((loop.addCaller ⟨.background, runtime, patchId, .reconcile, .created⟩).modify runtime
        fun runtime => { runtime with background := insert index runtime.background })
  | .start index => do
    let caller ← loop.callers[index]?
    if caller.stage = .created then some (loop.asyncAction index caller) else none
  | .resume index => do
    let caller ← loop.callers[index]?
    match caller.stage with
    | .awaiting task => if loop.isDone task then some (loop.endCaller index caller true) else none
    | _ => none
  | .cancel index => do
    let caller ← loop.callers[index]?
    match caller.stage with
    | .created => some (loop.endCaller index caller false)
    | .awaiting _ => some (loop.endCaller index caller true)
    | .ended => none
  | .begin task => do
    let action ← loop.actions[task]?
    if action.stage = .waiting ∧ loop.lock = none then some (loop.executeAction task action) else none
  | .prepared task => loop.advance task fun action =>
    if action.stage = .preparing then some (loop.setAction task .running) else none
  | .returned task result update => loop.advance task fun action =>
    if action.stage = .preparing ∨ action.stage = .running then
      some (loop.conclude task action result update)
    else none
  | .write task => loop.advance task fun action =>
    if action.stage = .running then some { loop with log := loop.log ++ [.wrote task] } else none
  | .recorded task => loop.advance task fun action =>
    match action.stage with
    | .ran result =>
      some { loop.setAction task .saving with log := loop.log ++ [.recorded task result] }
    | _ => none
  | .saved task => loop.advance task fun action =>
    if action.stage = .saving then
      some ({ loop with log := loop.log ++ [Entry.saved (.action task)] }.finish task action)
    else none
  | .raised task => loop.advance task fun action => some (loop.finish task action)
  | .event runtime patchIds => some (loop.modify runtime (·.handleEvent patchIds))
  | .directoryEvent runtime refresh =>
    let state := loop.runtimes runtime
    if state.watcher.closed ∨ state.closing ∨ refresh ∈ state.watcher.refreshTasks then none
    else some (loop.modify runtime (·.modifyWatcher fun watcher =>
      { watcher with refreshTasks := insert refresh watcher.refreshTasks }))
  | .refreshed runtime refresh =>
    some (loop.modify runtime (·.modifyWatcher fun watcher =>
      { watcher with refreshTasks := watcher.refreshTasks.erase refresh }))
  | .recovered runtime patchIds =>
    some (loop.modify runtime fun state => patchIds.foldl Runtime.debounce state)
  | .fire runtime patchId eager =>
    if patchId ∈ (loop.runtimes runtime).watcher.pending then some (loop.fire runtime patchId eager)
    else none
  | .submit runtime worker =>
    some (loop.modify runtime fun state => { state with workers := insert worker state.workers })
  | .complete runtime worker =>
    some (loop.modify runtime fun state => { state with workers := state.workers.erase worker })
  | .guard => if loop.lock = none then some { loop with lock := some .guard } else none
  | .unguard => if loop.lock = some .guard then some { loop with lock := none } else none
  | .edit runtime current =>
    some (loop.modify runtime fun state => { state with current := current })
  | .setClosing runtime closing =>
    some (loop.modify runtime fun state => { state with closing := closing })
  | .close runtime =>
    let close : Close := ⟨runtime, .waiting⟩
    some ({ loop with closes := loop.closes ++ [close] }.modify runtime fun state =>
      { state with closing := true })
  | .enter call => do
    let close ← loop.closes[call]?
    let state := loop.runtimes close.runtime
    if close.stage ≠ .waiting ∨ state.closeLock ≠ none then none
    else if state.closed then some (loop.setClose call .returned)
    else some ((loop.setClose call .stopping).modify close.runtime fun state =>
      { state with
        closeLock := some call
        watcher := { state.watcher with closed := true, pending := ∅, dirty := ∅ } })
  | .stopped call => loop.advanceClose call fun close =>
    let watcher := (loop.runtimes close.runtime).watcher
    if close.stage = .stopping then
      some (loop.setClose call (.joining (watcher.running.entries.map (·.2)).toFinset
        watcher.refreshTasks))
    else none
  | .joined call => loop.advanceClose call fun close =>
    let state := loop.runtimes close.runtime
    match close.stage with
    | .joining checks refreshes =>
      if (∀ check ∈ checks, loop.ended check) ∧
          ∀ refresh ∈ refreshes, refresh ∉ state.watcher.refreshTasks then
        some (loop.setClose call (.draining state.admitted state.background))
      else none
    | _ => none
  | .drained call => loop.advanceClose call fun close =>
    match close.stage with
    | .draining admitted background =>
      if (∀ task ∈ admitted, loop.isDone task) ∧ ∀ caller ∈ background, loop.ended caller then
        some (loop.setClose call (.reaping (loop.runtimes close.runtime).workers))
      else none
    | _ => none
  | .reaped call => loop.advanceClose call fun close =>
    match close.stage with
    | .reaping workers =>
      if ∀ worker ∈ workers, worker ∉ (loop.runtimes close.runtime).workers then
        some (loop.setClose call .locking)
      else none
    | _ => none
  | .relock call => loop.advanceClose call fun close =>
    if close.stage = .locking ∧ loop.lock = none then
      some { loop.setClose call .saving with lock := some (.close call) }
    else none
  | .closeSaved call => loop.advanceClose call fun close =>
    if close.stage = .saving then
      some ({ loop.leave call close .returned with
        lock := none
        log := loop.log ++ [Entry.saved (.close call)] }.modify close.runtime fun state =>
          { state with closed := true })
    else none
  | .closeRaised call => loop.advanceClose call fun close =>
    let lock := if close.stage = .saving then none else loop.lock
    some { loop.leave call close .raised with lock := lock }

end Loop

end Hapatchy.Tasks
