import Hapatchy.Tasks.Teardown
import Hapatchy.Lib.Traces

/-!
# Cancellation

A caller waits for its action behind a shield, so what becomes of the action is
a matter of the action's own moves and of the edits of its runtime's entry.
-/

namespace Hapatchy.Tasks

/-! ## Moves -/

/-- The action that moves. -/
def Move.task : Move → Option Nat
  | .begin task => some task
  | .prepared task => some task
  | .returned task _ _ => some task
  | .write task => some task
  | .recorded task => some task
  | .saved task => some task
  | .raised task => some task
  | _ => none

/-- The moves that an action of `runtime` depends on. -/
def Move.concerns (task runtime : Nat) : Move → Bool
  | .edit r _ => r = runtime
  | move => move.task = some task

/-- What the action leaves behind. -/
def Entry.isOf (task : Nat) : Entry → Bool
  | .wrote i => i = task
  | .recorded i _ => i = task
  | .saved owner => owner = .action task

namespace Runtime

variable (runtime : Runtime) (patchId : Text)

@[simp] theorem current_modifyWatcher (f : PatchWatcher → PatchWatcher) :
    (runtime.modifyWatcher f).current = runtime.current := rfl

@[simp] theorem current_debounce : (runtime.debounce patchId).current = runtime.current := by
  unfold debounce
  split
  · rfl
  · split <;> rfl

@[simp] theorem current_debounces (patchIds : List Text) :
    (patchIds.foldl debounce runtime).current = runtime.current := by
  induction patchIds generalizing runtime with
  | nil => rfl
  | cons q patchIds ih => rw [List.foldl_cons, ih, current_debounce]

@[simp] theorem current_actionComplete :
    (runtime.actionComplete patchId).current = runtime.current := by
  unfold actionComplete
  split
  · rw [current_debounce, current_modifyWatcher]
  · rfl

@[simp] theorem current_handleEvent (patchIds : List Text) :
    (runtime.handleEvent patchIds).current = runtime.current := by
  unfold handleEvent
  split
  · rfl
  · exact current_debounces runtime patchIds

@[simp] theorem current_actionFinished (task : Nat) :
    (runtime.actionFinished task patchId).current = runtime.current :=
  current_actionComplete _ patchId

@[simp] theorem current_checkFinished :
    (runtime.checkFinished patchId).current = runtime.current :=
  current_actionComplete _ patchId

end Runtime

namespace Loop

open Hapatchy.Tasks.Runtime

variable {loop after : Loop}

/-! ## What a move leaves alone -/

/-- What the actions that are there have become, and the definitions, are as they were. -/
structure Calm (loop after : Loop) : Prop where
  log : after.log = loop.log
  actions : ∀ (i : Nat) (a : ActionTask), loop.actions[i]? = some a → after.actions[i]? = some a
  current : ∀ r, (after.runtimes r).current = (loop.runtimes r).current

theorem Calm.trans {last : Loop} (h : Calm loop after) (h' : Calm after last) : Calm loop last :=
  ⟨h'.log.trans h.log, fun i a ha => h'.actions i a (h.actions i a ha), fun r =>
    (h'.current r).trans (h.current r)⟩

theorem calm_modify {f : Runtime → Runtime} (runtime : Nat)
    (h : ∀ state, (f state).current = state.current) : Calm loop (loop.modify runtime f) :=
  ⟨rfl, fun _ _ => id, modify_field (g := Runtime.current) h⟩

/-- The callers, the calls of `async_close` and the lock are of no account. -/
theorem calm_of_eq (hlog : after.log = loop.log) (hactions : after.actions = loop.actions)
    (hruntimes : after.runtimes = loop.runtimes) : Calm loop after := by
  refine ⟨hlog, fun i a ha => ?_, fun r => ?_⟩
  · rw [hactions, ha]
  · rw [hruntimes]

theorem calm_addCaller (caller : Caller) : Calm loop (loop.addCaller caller) := calm_of_eq rfl rfl rfl

theorem calm_setClose (call : Nat) (stage : CloseStage) : Calm loop (loop.setClose call stage) :=
  calm_of_eq rfl rfl rfl

theorem calm_leave (call : Nat) (close : Close) (stage : CloseStage) :
    Calm loop (loop.leave call close stage) := by
  unfold leave
  exact (calm_setClose ..).trans (calm_modify _ fun _ => rfl)

theorem calm_endCaller (index : Nat) (caller : Caller) (ran : Bool) :
    Calm loop (loop.endCaller index caller ran) := by
  have hset : Calm loop (loop.setCaller index .ended) := calm_of_eq rfl rfl rfl
  unfold endCaller
  cases caller.kind <;> simp only
  case service => exact hset
  case background => exact hset.trans (calm_modify _ fun _ => rfl)
  case check =>
    split
    · exact hset.trans (calm_modify _ fun _ => current_checkFinished ..)
    · exact hset

theorem calm_admitAction (action : ActionTask) : Calm loop (loop.admitAction action) := by
  refine ⟨rfl, fun i a ha => ?_, modify_field (g := Runtime.current) (by intro _; rfl)⟩
  exact (List.getElem?_append_left (List.getElem?_eq_some_iff.mp ha).1).trans ha

theorem calm_asyncAction (index : Nat) (caller : Caller) :
    Calm loop (loop.asyncAction index caller) := by
  unfold asyncAction
  simp only
  split
  · exact calm_endCaller ..
  · exact (calm_admitAction _).trans (calm_of_eq rfl rfl rfl)

theorem calm_fire (runtime : Nat) (patchId : Text) (eager : Bool) :
    Calm loop (loop.fire runtime patchId eager) := by
  have htimer : Calm loop (loop.modify runtime (·.timerFired patchId)) :=
    calm_modify _ fun _ => rfl
  unfold fire
  simp only
  split
  · exact htimer
  · split
    · exact htimer.trans (calm_modify _ fun _ => rfl)
    · refine (htimer.trans ?_).trans (calm_modify _ fun _ => rfl)
      split
      · exact (calm_addCaller _).trans (calm_asyncAction ..)
      · exact calm_of_eq rfl rfl rfl

/-- What a move writes to the log. -/
def entries (loop : Loop) : Move → List Entry
  | .write task => [.wrote task]
  | .recorded task =>
    match loop.actions[task]?.map ActionTask.stage with
    | some (Stage.ran result) => [.recorded task result]
    | _ => []
  | .saved task => [.saved (.action task)]
  | .closeSaved call => [.saved (.close call)]
  | _ => []

/-- What a move leaves alone. -/
structure Told (loop : Loop) (move : Move) (after : Loop) : Prop where
  log : after.log = loop.log ++ loop.entries move
  actions : ∀ (i : Nat) (a : ActionTask), loop.actions[i]? = some a → move.task ≠ some i →
    after.actions[i]? = some a
  current : ∀ r, (∀ ids, move ≠ .edit r ids) → (after.runtimes r).current = (loop.runtimes r).current

theorem Calm.told {move : Move} (h : Calm loop after) (hentries : loop.entries move = []) :
    Told loop move after :=
  ⟨by rw [hentries, List.append_nil, h.log], fun i a ha _ => h.actions i a ha, fun r _ => h.current r⟩

/-- A move of an action. -/
theorem told_action {move : Move} {task : Nat} {stage : Stage} (hmove : move.task = some task)
    (hlog : after.log = loop.log ++ loop.entries move)
    (hactions : after.actions = (loop.setAction task stage).actions)
    (hcurrent : ∀ r, (after.runtimes r).current = (loop.runtimes r).current) :
    Told loop move after := by
  refine ⟨hlog, fun i a ha hne => ?_, fun r _ => hcurrent r⟩
  rw [hmove] at hne
  rw [hactions]
  exact (List.getElem?_modify_ne _ _ fun h => hne (congrArg some h)).trans ha

theorem current_finish (task : Nat) (action : ActionTask) (r : Nat) :
    ((loop.finish task action).runtimes r).current = (loop.runtimes r).current :=
  modify_field (g := Runtime.current) (fun _ => current_actionFinished ..) r

theorem current_conclude (task : Nat) (action : ActionTask) (result : ReconcileResult)
    (update : Update) (r : Nat) :
    ((loop.conclude task action result update).runtimes r).current = (loop.runtimes r).current := by
  unfold conclude
  split
  · cases update with
    | done => exact modify_field (g := Runtime.current) (by intro _; rfl) r
    | failed => exact modify_field (g := Runtime.current) (by intro _; rfl) r
    | raised => exact current_finish ..
  · rfl

/-- What `conclude` makes of the action. -/
def concluded (action : ActionTask) (result : ReconcileResult) (update : Update) : Stage :=
  if action.action = .revert ∧ result.inspection.status ≠ .securityError then
    match update with
    | .done => .ran result
    | .failed => .ran (unavailableResult result)
    | .raised => .done
  else .ran result

theorem actions_conclude (task : Nat) (action : ActionTask) (result : ReconcileResult)
    (update : Update) : (loop.conclude task action result update).actions =
      (loop.setAction task (concluded action result update)).actions := by
  unfold conclude concluded
  split
  · cases update <;> rfl
  · rfl

theorem log_conclude (task : Nat) (action : ActionTask) (result : ReconcileResult)
    (update : Update) : (loop.conclude task action result update).log = loop.log := by
  unfold conclude
  split
  · cases update <;> rfl
  · rfl

/-- What `executeAction` makes of the action. -/
def executed (loop : Loop) (action : ActionTask) : Stage :=
  if action.patchId ∈ (loop.runtimes action.runtime).current then .preparing else .done

theorem actions_executeAction (task : Nat) (action : ActionTask) :
    (loop.executeAction task action).actions =
      (loop.setAction task (loop.executed action)).actions := by
  unfold executeAction executed
  split <;> rfl

theorem log_executeAction (task : Nat) (action : ActionTask) :
    (loop.executeAction task action).log = loop.log := by
  unfold executeAction
  split <;> rfl

theorem current_executeAction (task : Nat) (action : ActionTask) (r : Nat) :
    ((loop.executeAction task action).runtimes r).current = (loop.runtimes r).current := by
  unfold executeAction
  split
  · exact modify_field (g := Runtime.current) (by intro _; rfl) r
  · exact current_finish ..

/-- Every move tells in the log what it has done, and acts on its own action. -/
theorem told {move : Move} (h : loop.step move = some after) : Told loop move after := by
  cases move with
  | call runtime patchId action =>
    cases h
    exact (calm_addCaller _).told rfl
  | schedule runtime patchId =>
    unfold step at h
    simp only at h
    split at h
    · cases h
    · cases h
      exact Calm.told ((calm_addCaller _).trans (calm_modify _ fun _ => rfl)) rfl
  | start index =>
    obtain ⟨caller, -, h⟩ := Option.bind_eq_some_iff.mp h
    split at h
    · cases h
      exact (calm_asyncAction ..).told rfl
    · cases h
  | resume index =>
    obtain ⟨caller, -, h⟩ := Option.bind_eq_some_iff.mp h
    split at h
    · split at h
      · cases h
        exact (calm_endCaller ..).told rfl
      · cases h
    · cases h
  | cancel index =>
    obtain ⟨caller, -, h⟩ := Option.bind_eq_some_iff.mp h
    split at h
    · cases h
      exact (calm_endCaller ..).told rfl
    · cases h
      exact (calm_endCaller ..).told rfl
    · cases h
  | begin task =>
    obtain ⟨action, -, h⟩ := Option.bind_eq_some_iff.mp h
    split at h
    · cases h
      refine told_action rfl ?_ (actions_executeAction task action) (current_executeAction task action)
      exact (log_executeAction task action).trans (List.append_nil _).symm
    · cases h
  | prepared task =>
    obtain ⟨action, -, -, h⟩ := advance_eq_some.mp h
    split at h
    · cases h
      exact told_action rfl (List.append_nil _).symm rfl fun _ => rfl
    · cases h
  | returned task result update =>
    obtain ⟨action, -, -, h⟩ := advance_eq_some.mp h
    split at h
    · cases h
      refine told_action rfl ?_ (actions_conclude task action result update)
        (current_conclude task action result update)
      exact (log_conclude task action result update).trans (List.append_nil _).symm
    · cases h
  | write task =>
    obtain ⟨action, hfound, hholds, h⟩ := advance_eq_some.mp h
    split at h
    · cases h
      exact ⟨rfl, fun _ _ ha _ => ha, fun _ _ => rfl⟩
    · cases h
  | recorded task =>
    obtain ⟨action, hfound, hholds, h⟩ := advance_eq_some.mp h
    dsimp only at h
    split at h
    · rename_i result hstage
      cases h
      refine told_action rfl ?_ rfl fun _ => rfl
      simp only [entries, hfound, Option.map_some, hstage]
    · cases h
  | saved task =>
    obtain ⟨action, hfound, hholds, h⟩ := advance_eq_some.mp h
    split at h
    · cases h
      exact told_action rfl rfl rfl (current_finish task action)
    · cases h
  | raised task =>
    obtain ⟨action, hfound, hholds, h⟩ := advance_eq_some.mp h
    cases h
    exact told_action rfl (List.append_nil _).symm rfl (current_finish task action)
  | event runtime patchIds =>
    cases h
    exact (calm_modify _ fun _ => current_handleEvent ..).told rfl
  | directoryEvent runtime refresh =>
    unfold step at h
    simp only at h
    split at h
    · cases h
    · cases h
      exact Calm.told (calm_modify _ fun _ => rfl) rfl
  | refreshed runtime refresh =>
    cases h
    exact Calm.told (calm_modify _ fun _ => rfl) rfl
  | recovered runtime patchIds =>
    cases h
    exact (calm_modify _ fun _ => current_debounces ..).told rfl
  | fire runtime patchId eager =>
    unfold step at h
    simp only at h
    split at h
    · cases h
      exact (calm_fire runtime patchId eager).told rfl
    · cases h
  | submit runtime worker =>
    cases h
    exact Calm.told (calm_modify _ fun _ => rfl) rfl
  | complete runtime worker =>
    cases h
    exact Calm.told (calm_modify _ fun _ => rfl) rfl
  | guard =>
    unfold step at h
    simp only at h
    split at h
    · cases h
      exact Calm.told (calm_of_eq rfl rfl rfl) rfl
    · cases h
  | unguard =>
    unfold step at h
    simp only at h
    split at h
    · cases h
      exact Calm.told (calm_of_eq rfl rfl rfl) rfl
    · cases h
  | edit runtime current =>
    cases h
    refine ⟨(List.append_nil _).symm, fun _ _ ha _ => ha, fun r hr => ?_⟩
    rw [modify_of_ne]
    rintro rfl
    exact hr current rfl
  | setClosing runtime closing =>
    cases h
    exact Calm.told (calm_modify _ fun _ => rfl) rfl
  | close runtime =>
    cases h
    exact Calm.told ⟨rfl, fun _ _ => id, modify_field (g := Runtime.current) (by intro _; rfl)⟩ rfl
  | enter call =>
    obtain ⟨close, -, h⟩ := Option.bind_eq_some_iff.mp h
    simp only at h
    split at h
    · cases h
    · split at h
      · cases h
        exact Calm.told (calm_of_eq rfl rfl rfl) rfl
      · cases h
        exact Calm.told ((calm_setClose ..).trans (calm_modify _ fun _ => rfl)) rfl
  | stopped call =>
    obtain ⟨close, -, -, h⟩ := advanceClose_eq_some.mp h
    dsimp only at h
    split at h
    · cases h
      exact (calm_setClose ..).told rfl
    · cases h
  | joined call =>
    obtain ⟨close, -, -, h⟩ := advanceClose_eq_some.mp h
    dsimp only at h
    split at h
    · split at h
      · cases h
        exact (calm_setClose ..).told rfl
      · cases h
    · cases h
  | drained call =>
    obtain ⟨close, -, -, h⟩ := advanceClose_eq_some.mp h
    split at h
    · split at h
      · cases h
        exact (calm_setClose ..).told rfl
      · cases h
    · cases h
  | reaped call =>
    obtain ⟨close, -, -, h⟩ := advanceClose_eq_some.mp h
    split at h
    · split at h
      · cases h
        exact (calm_setClose ..).told rfl
      · cases h
    · cases h
  | relock call =>
    obtain ⟨close, -, -, h⟩ := advanceClose_eq_some.mp h
    dsimp only at h
    split at h
    · cases h
      exact Calm.told (calm_of_eq rfl rfl rfl) rfl
    · cases h
  | closeSaved call =>
    obtain ⟨close, -, -, h⟩ := advanceClose_eq_some.mp h
    dsimp only at h
    split at h
    · cases h
      refine ⟨rfl, fun _ _ ha _ => ha, fun r _ => ?_⟩
      refine (modify_field (g := Runtime.current) (by intro _; rfl) r).trans ?_
      exact (calm_leave call close .returned).current r
    · cases h
  | closeRaised call =>
    obtain ⟨close, -, -, h⟩ := advanceClose_eq_some.mp h
    cases h
    exact Calm.told ((calm_leave ..).trans (calm_of_eq rfl rfl rfl)) rfl

/-! ## What becomes of an action -/

/-- Where an action is, what it has left behind, and the definitions of its runtime. -/
def fate (loop : Loop) (task runtime : Nat) : Option ActionTask × List Entry × Finset Text :=
  (loop.actions[task]?, loop.log.filter (Entry.isOf task), (loop.runtimes runtime).current)

theorem fate_eq_iff {loop' : Loop} {task r : Nat} : loop.fate task r = loop'.fate task r ↔
    loop.actions[task]? = loop'.actions[task]? ∧
      loop.log.filter (Entry.isOf task) = loop'.log.filter (Entry.isOf task) ∧
      (loop.runtimes r).current = (loop'.runtimes r).current := by
  unfold fate
  rw [Prod.mk.injEq, Prod.mk.injEq]

theorem task_of_concerns {move : Move} {task r : Nat} (h : move.concerns task r = true)
    (hedit : ∀ ids, move ≠ .edit r ids) : move.task = some task := by
  cases move with
  | edit runtime ids =>
    unfold Move.concerns at h
    rw [decide_eq_true_eq] at h
    subst h
    exact absurd rfl (hedit ids)
  | _ => exact of_decide_eq_true h

theorem filter_entries {move : Move} {task : Nat} (h : move.task ≠ some task) :
    (loop.entries move).filter (Entry.isOf task) = [] := by
  rw [List.filter_eq_nil_iff]
  intro entry hentry
  have hne {i : Nat} (hi : move.task = some i) : ¬ i = task := fun heq => h (heq ▸ hi)
  cases move with
  | write i =>
    cases List.mem_singleton.mp hentry
    simpa [Entry.isOf] using hne rfl
  | recorded i =>
    unfold entries at hentry
    simp only at hentry
    split at hentry
    · cases List.mem_singleton.mp hentry
      simpa [Entry.isOf] using hne rfl
    · cases hentry
  | saved i =>
    cases List.mem_singleton.mp hentry
    simpa [Entry.isOf] using hne rfl
  | closeSaved call =>
    cases List.mem_singleton.mp hentry
    simp [Entry.isOf]
  | _ => cases hentry

/-- The other moves do not matter to an action. -/
theorem fate_skip {move : Move} {task r : Nat} {a : ActionTask} (h : loop.step move = some after)
    (hfound : loop.actions[task]? = some a) (hmove : move.concerns task r = false) :
    after.fate task r = loop.fate task r := by
  have htold := told h
  have htask : move.task ≠ some task := by
    cases move with
    | edit => nofun
    | _ => exact of_decide_eq_false hmove
  rw [fate_eq_iff]
  refine ⟨(htold.actions task a hfound htask).trans hfound.symm, ?_, htold.current r ?_⟩
  · rw [htold.log, List.filter_append, filter_entries htask, List.append_nil]
  · rintro ids rfl
    simp [Move.concerns] at hmove

theorem setAction_self {task : Nat} {action : ActionTask} {stage : Stage}
    (h : loop.actions[task]? = some action) :
    (loop.setAction task stage).actions[task]? = some { action with stage := stage } := by
  unfold setAction
  rw [List.getElem?_modify_eq, h]
  rfl

/-- A move of an action depends on the action and the definitions, and to begin it needs the lock. -/
theorem step_own {move : Move} {task : Nat} (hmove : move.task = some task)
    (h : loop.step move = some after) : ∃ action stage, loop.actions[task]? = some action ∧
      (action.stage = .waiting → loop.lock = none) ∧ stage ≠ .waiting ∧
      after.actions[task]? = some { action with stage := stage } ∧
      ∀ loop' : Loop, loop'.actions[task]? = some action →
        (loop'.runtimes action.runtime).current = (loop.runtimes action.runtime).current →
        (action.stage = .waiting → loop'.lock = none) →
        ∃ after', loop'.step move = some after' ∧
          after'.actions[task]? = some { action with stage := stage } := by
  have hnever {action : ActionTask} (hholds : action.stage.holds = true) :
      action.stage = .waiting → loop.lock = none := by
    intro hwaiting
    rw [hwaiting] at hholds
    cases hholds
  cases move with
  | begin i =>
    cases hmove
    obtain ⟨action, hfound, h⟩ := Option.bind_eq_some_iff.mp h
    split at h
    · rename_i hready
      cases h
      refine ⟨action, loop.executed action, hfound, fun _ => hready.2, ?_, ?_, ?_⟩
      · unfold executed
        split <;> nofun
      · rw [actions_executeAction]
        exact setAction_self hfound
      · intro loop' hfound' hcurrent hlock
        refine ⟨loop'.executeAction task action, ?_, ?_⟩
        · unfold step
          simp only [hfound', Option.bind_eq_bind, Option.bind_some]
          rw [if_pos ⟨hready.1, hlock hready.1⟩]
        · rw [actions_executeAction, setAction_self hfound']
          unfold executed
          rw [hcurrent]
    · cases h
  | prepared i =>
    cases hmove
    obtain ⟨action, hfound, hholds, h⟩ := advance_eq_some.mp h
    split at h
    · rename_i hstage
      cases h
      refine ⟨action, .running, hfound, hnever hholds, nofun, setAction_self hfound, ?_⟩
      intro loop' hfound' _ _
      exact ⟨_, advance_eq_some.mpr ⟨action, hfound', hholds, if_pos hstage⟩, setAction_self hfound'⟩
    · cases h
  | returned i result update =>
    cases hmove
    obtain ⟨action, hfound, hholds, h⟩ := advance_eq_some.mp h
    split at h
    · rename_i hstage
      cases h
      refine ⟨action, concluded action result update, hfound, hnever hholds, ?_, ?_, ?_⟩
      · unfold concluded
        split
        · cases update <;> nofun
        · nofun
      · rw [actions_conclude]
        exact setAction_self hfound
      · intro loop' hfound' _ _
        refine ⟨_, advance_eq_some.mpr ⟨action, hfound', hholds, if_pos hstage⟩, ?_⟩
        rw [actions_conclude]
        exact setAction_self hfound'
    · cases h
  | write i =>
    cases hmove
    obtain ⟨action, hfound, hholds, h⟩ := advance_eq_some.mp h
    split at h
    · rename_i hstage
      cases h
      refine ⟨action, action.stage, hfound, hnever hholds, ?_, hfound, ?_⟩
      · rw [hstage]
        nofun
      · intro loop' hfound' _ _
        exact ⟨_, advance_eq_some.mpr ⟨action, hfound', hholds, if_pos hstage⟩, hfound'⟩
    · cases h
  | recorded i =>
    cases hmove
    obtain ⟨action, hfound, hholds, h⟩ := advance_eq_some.mp h
    dsimp only at h
    split at h
    · rename_i result hstage
      cases h
      refine ⟨action, .saving, hfound, hnever hholds, nofun, setAction_self hfound, ?_⟩
      intro loop' hfound' _ _
      refine ⟨{ loop'.setAction task .saving with log := loop'.log ++ [.recorded task result] },
        advance_eq_some.mpr ⟨action, hfound', hholds, ?_⟩, setAction_self hfound'⟩
      simp only [hstage]
    · cases h
  | saved i =>
    cases hmove
    obtain ⟨action, hfound, hholds, h⟩ := advance_eq_some.mp h
    split at h
    · rename_i hstage
      cases h
      refine ⟨action, .done, hfound, hnever hholds, nofun, setAction_self hfound, ?_⟩
      intro loop' hfound' _ _
      exact ⟨_, advance_eq_some.mpr ⟨action, hfound', hholds, if_pos hstage⟩, setAction_self hfound'⟩
    · cases h
  | raised i =>
    cases hmove
    obtain ⟨action, hfound, hholds, h⟩ := advance_eq_some.mp h
    cases h
    refine ⟨action, .done, hfound, hnever hholds, nofun, setAction_self hfound, ?_⟩
    intro loop' hfound' _ _
    exact ⟨_, advance_eq_some.mpr ⟨action, hfound', hholds, rfl⟩, setAction_self hfound'⟩
  | _ => cases hmove

/-! ## The lock -/

/-- Who has the lock will give it back. -/
def Owned (loop : Loop) : Prop :=
  match loop.lock with
  | some (.action i) => ∃ a, loop.actions[i]? = some a ∧ a.stage.holds = true
  | some (.close c) => ∃ cl, loop.closes[c]? = some cl ∧ cl.stage = .saving
  | _ => True

theorem owned_of_free (h : loop.lock = none ∨ loop.lock = some .guard) : Owned loop := by
  unfold Owned
  obtain h | h := h <;> rw [h] <;> trivial

theorem owned_of_action {i : Nat} {a : ActionTask} (hlock : loop.lock = some (.action i))
    (ha : loop.actions[i]? = some a) (hholds : a.stage.holds = true) : Owned loop := by
  unfold Owned
  rw [hlock]
  exact ⟨a, ha, hholds⟩

theorem owned_of_close {c : Nat} {cl : Close} (hlock : loop.lock = some (.close c))
    (hcl : loop.closes[c]? = some cl) (hsaving : cl.stage = .saving) : Owned loop := by
  unfold Owned
  rw [hlock]
  exact ⟨cl, hcl, hsaving⟩

/-- The lock stays with its owner, and the owner keeps its stage. -/
theorem Owned.keep (h : Owned loop) (hlock : after.lock = loop.lock)
    (hactions : ∀ (i : Nat) (a : ActionTask), loop.lock = some (.action i) →
      loop.actions[i]? = some a → a.stage.holds = true →
      ∃ b, after.actions[i]? = some b ∧ b.stage.holds = true)
    (hcloses : ∀ (c : Nat) (cl : Close), loop.lock = some (.close c) → loop.closes[c]? = some cl →
      cl.stage = .saving → after.closes[c]? = some cl) : Owned after := by
  unfold Owned at h
  split at h
  · rename_i i howner
    obtain ⟨a, ha, hholds⟩ := h
    obtain ⟨b, hb, hholds⟩ := hactions i a howner ha hholds
    exact owned_of_action (hlock.trans howner) hb hholds
  · rename_i c howner
    obtain ⟨cl, hcl, hsaving⟩ := h
    exact owned_of_close (hlock.trans howner) (hcloses c cl howner hcl hsaving) hsaving
  · rename_i hnobody hnoclose
    refine owned_of_free ?_
    rw [hlock]
    cases hl : loop.lock with
    | none => exact Or.inl rfl
    | some owner =>
      cases owner with
      | action i => exact absurd hl (hnobody i)
      | close c => exact absurd hl (hnoclose c)
      | guard => exact Or.inr rfl

theorem Owned.congr (h : Owned loop) (hlock : after.lock = loop.lock)
    (hactions : after.actions = loop.actions) (hcloses : after.closes = loop.closes) :
    Owned after :=
  h.keep hlock (fun _ a _ ha hholds => ⟨a, hactions ▸ ha, hholds⟩) fun _ _ _ hcl _ => hcloses ▸ hcl

theorem setClose_of_ne {call c : Nat} {stage : CloseStage} (h : c ≠ call) :
    (loop.setClose call stage).closes[c]? = loop.closes[c]? :=
  List.getElem?_modify_ne _ _ (Ne.symm h)

theorem setClose_self {call : Nat} {close : Close} {stage : CloseStage}
    (h : loop.closes[call]? = some close) :
    (loop.setClose call stage).closes[call]? = some { close with stage := stage } := by
  unfold setClose
  rw [List.getElem?_modify_eq, h]
  rfl

/-- A call of `async_close` without the lock moves. -/
theorem Owned.setClose (h : Owned loop) {call : Nat} {close : Close} {stage : CloseStage}
    (hfound : loop.closes[call]? = some close) (hstage : close.stage ≠ .saving)
    (hlock : after.lock = loop.lock) (hactions : after.actions = loop.actions)
    (hcloses : after.closes = (loop.setClose call stage).closes) : Owned after := by
  refine h.keep hlock (fun _ a _ ha hholds => ⟨a, hactions ▸ ha, hholds⟩) fun c cl _ hcl hsaving => ?_
  rw [hcloses, setClose_of_ne, hcl]
  rintro rfl
  cases hfound.symm.trans hcl
  exact hstage hsaving

theorem Waited.unlocked {close : Close} {stage : CloseStage} (h : Waited loop close stage) :
    close.stage ≠ .saving := by
  cases h with
  | joining hstage => rw [hstage]; nofun
  | draining _ hunlocked => exact hunlocked
  | reaping hstage _ => rw [hstage]; nofun
  | locking hstage => rw [hstage]; nofun

theorem Stepped.owned (h : Stepped loop after) (hloop : Owned loop) : Owned after := by
  cases h with
  | quiet hquiet => exact hloop.congr hquiet.lock hquiet.actions hquiet.closes
  | admitted hstage hadmission hquiet =>
    refine hloop.keep hquiet.lock (fun i a _ ha hholds => ⟨a, ?_, hholds⟩) fun c cl _ hcl _ => ?_
    · rw [hquiet.actions]
      exact (List.getElem?_append_left (List.getElem?_eq_some_iff.mp ha).1).trans ha
    · rw [hquiet.closes]
      exact hcl
  | began hfound hstage hfree hquiet =>
    rename_i task action
    have hpreparing : after.actions[task]? = some { action with stage := .preparing } := by
      rw [hquiet.actions]
      exact setAction_self hfound
    exact owned_of_action hquiet.lock hpreparing rfl
  | advanced hfound hholds hnext hquiet =>
    rename_i task action stage
    refine hloop.keep hquiet.lock (fun i a _ ha hi => ?_) fun c cl _ hcl _ => ?_
    · rw [hquiet.actions]
      by_cases hne : i = task
      · subst hne
        exact ⟨_, setAction_self ha, hnext⟩
      · exact ⟨a, (List.getElem?_modify_ne _ _ (Ne.symm hne)).trans ha, hi⟩
    · rw [hquiet.closes]
      exact hcl
  | finished hfound hholds hquiet => exact owned_of_free (Or.inl hquiet.lock)
  | guard hbefore hnext => exact owned_of_free hnext
  | closing => exact hloop.congr rfl rfl rfl
  | called =>
    refine hloop.keep rfl (fun i a _ ha hholds => ⟨a, ha, hholds⟩) fun c cl _ hcl _ => ?_
    exact (List.getElem?_append_left (List.getElem?_eq_some_iff.mp hcl).1).trans hcl
  | entered hfound hstage hfree hopen => exact hloop.setClose hfound (by rw [hstage]; nofun) rfl rfl rfl
  | late hfound hstage hclosed => exact hloop.setClose hfound (by rw [hstage]; nofun) rfl rfl rfl
  | waited hfound hwaited => exact hloop.setClose hfound hwaited.unlocked rfl rfl rfl
  | relocked hfound hstage hfree => exact owned_of_close rfl (setClose_self hfound) rfl
  | returned hfound hstage hquiet => exact owned_of_free (Or.inl hquiet.lock)
  | raised hfound hholds hquiet =>
    rename_i call close
    by_cases hsaving : close.stage = .saving
    · refine owned_of_free (Or.inl ?_)
      rw [hquiet.lock]
      exact if_pos hsaving
    · refine hloop.setClose hfound hsaving ?_ hquiet.actions hquiet.closes
      rw [hquiet.lock]
      exact if_neg hsaving

/-- The lock comes free without a move of the actions that wait. -/
theorem exists_free (howned : Owned loop) {task : Nat} {action : ActionTask} (r : Nat)
    (hfound : loop.actions[task]? = some action) (hwaiting : action.stage = .waiting) :
    ∃ moves free, Traces.after Loop.step loop moves = some free ∧
      moves.filter (Move.concerns task r) = [] ∧ free.lock = none := by
  unfold Owned at howned
  split at howned
  · rename_i i hlock
    obtain ⟨a, ha, hholds⟩ := howned
    have hne : i ≠ task := by
      rintro rfl
      cases hfound.symm.trans ha
      rw [hwaiting] at hholds
      cases hholds
    refine ⟨[.raised i], loop.finish i a, ?_, ?_, rfl⟩
    · refine Traces.after_cons.mpr ⟨_, advance_eq_some.mpr ⟨a, ha, hholds, rfl⟩, rfl⟩
    · simp [Move.concerns, Move.task, hne]
  · rename_i c hlock
    obtain ⟨cl, hcl, hsaving⟩ := howned
    refine ⟨[.closeRaised c], _, Traces.after_cons.mpr ⟨_, advanceClose_eq_some.mpr
      ⟨cl, hcl, by rw [hsaving]; rfl, rfl⟩, rfl⟩, ?_, if_pos hsaving⟩
    simp [Move.concerns, Move.task]
  · rename_i hnobody hnoclose
    cases hl : loop.lock with
    | none => exact ⟨[], loop, rfl, rfl, hl⟩
    | some owner =>
      cases owner with
      | action i => exact absurd hl (hnobody i)
      | close c => exact absurd hl (hnoclose c)
      | guard =>
        refine ⟨[.unguard], { loop with lock := none }, ?_, ?_, rfl⟩
        · exact Traces.after_cons.mpr ⟨_, if_pos hl, rfl⟩
        · simp [Move.concerns, Move.task]

/-! ## Fates -/

theorem keeps_action {move : Move} {i : Nat} {a : ActionTask} (h : loop.step move = some after)
    (ha : loop.actions[i]? = some a) :
    ∃ b, after.actions[i]? = some b ∧ b.runtime = a.runtime := by
  by_cases hmove : move.task = some i
  · obtain ⟨action, stage, hfound, -, -, hafter, -⟩ := step_own hmove h
    cases hfound.symm.trans ha
    exact ⟨_, hafter, rfl⟩
  · exact ⟨a, (told h).actions i a ha hmove, rfl⟩

/-- The action is there, and if it waits, the lock is free. -/
structure Ready (task runtime : Nat) (loop : Loop) : Prop where
  action : ∃ a, loop.actions[task]? = some a ∧ a.runtime = runtime
  lock : ∀ a, loop.actions[task]? = some a → a.stage = .waiting → loop.lock = none

/-- A move that concerns an action takes two loops where it has the same fate to two such loops. -/
theorem fate_step {move : Move} {task r : Nat} {loop' : Loop}
    (hfate : loop.fate task r = loop'.fate task r) (hready : Ready task r loop')
    (hmove : move.concerns task r = true) (h : loop.step move = some after) :
    ∃ after', loop'.step move = some after' ∧ after.fate task r = after'.fate task r ∧
      Ready task r after' := by
  obtain ⟨hactions, hlog, hcurrent⟩ := fate_eq_iff.mp hfate
  obtain ⟨a, ha, hruntime⟩ := hready.action
  by_cases hedit : ∃ ids, move = .edit r ids
  · obtain ⟨ids, rfl⟩ := hedit
    cases h
    refine ⟨_, rfl, fate_eq_iff.mpr ⟨hactions, hlog, ?_⟩, hready.action, hready.lock⟩
    rw [modify_self, modify_self]
  · have htask := task_of_concerns hmove fun ids hids => hedit ⟨ids, hids⟩
    obtain ⟨action, stage, hfound, -, hstage, hafter, hown⟩ := step_own htask h
    cases (hactions.symm.trans hfound).symm.trans ha
    have hcurrent' : (loop'.runtimes a.runtime).current = (loop.runtimes a.runtime).current := by
      rw [hruntime, hcurrent]
    obtain ⟨after', hstep, hafter'⟩ := hown loop' ha hcurrent' (hready.lock a ha)
    have htold := told h
    have htold' := told hstep
    have hnoedit (ids : Finset Text) : move ≠ .edit r ids := fun hids => hedit ⟨ids, hids⟩
    have hentries : loop.entries move = loop'.entries move := by
      cases move with
      | recorded i =>
        cases htask
        simp only [entries, hactions]
      | _ => rfl
    refine ⟨after', hstep, fate_eq_iff.mpr ⟨hafter.trans hafter'.symm, ?_, ?_⟩,
      ⟨⟨_, hafter', hruntime⟩, fun b hb hwaiting => ?_⟩⟩
    · rw [htold.log, htold'.log, List.filter_append, List.filter_append, hlog, hentries]
    · rw [htold.current r hnoedit, htold'.current r hnoedit, hcurrent]
    · cases hafter'.symm.trans hb
      exact absurd hwaiting hstage

/-- The moves that concern the action make a run of their own. -/
theorem fate_run {task r : Nat} {loop' last : Loop} {moves : List Move}
    (hfate : loop.fate task r = loop'.fate task r) (hready : Ready task r loop')
    (h : Traces.after Loop.step loop moves = some last) :
    ∃ last', Traces.after Loop.step loop' (moves.filter (Move.concerns task r)) = some last' := by
  induction moves generalizing loop loop' with
  | nil => exact ⟨loop', rfl⟩
  | cons move moves ih =>
    obtain ⟨after, hstep, hrest⟩ := Traces.after_cons.mp h
    cases hmove : move.concerns task r with
    | true =>
      obtain ⟨after', hstep', hfate', hready'⟩ := fate_step hfate hready hmove hstep
      obtain ⟨last', hlast'⟩ := ih hfate' hready' hrest
      refine ⟨last', ?_⟩
      rw [List.filter_cons_of_pos hmove]
      exact Traces.after_cons.mpr ⟨after', hstep', hlast'⟩
    | false =>
      obtain ⟨a, ha, -⟩ := hready.action
      have hfound := (fate_eq_iff.mp hfate).1.trans ha
      rw [List.filter_cons_of_neg (by rw [hmove]; nofun)]
      exact ih ((fate_skip hstep hfound hmove).trans hfate) hready hrest

/-- What becomes of an action in a run is a matter of the moves that concern it. -/
theorem fate_eq {task r : Nat} {loop' last last' : Loop} {moves moves' : List Move} {a : ActionTask}
    (hfate : loop.fate task r = loop'.fate task r) (hfound : loop.actions[task]? = some a)
    (hruntime : a.runtime = r) (h : Traces.after Loop.step loop moves = some last)
    (h' : Traces.after Loop.step loop' moves' = some last')
    (hmoves : moves.filter (Move.concerns task r) = moves'.filter (Move.concerns task r)) :
    last.fate task r = last'.fate task r := by
  refine Traces.view_eq (f := fun s => s.fate task r)
    (I := fun s => ∃ b, s.actions[task]? = some b ∧ b.runtime = r) ?_ ?_ ?_ ⟨a, hfound, hruntime⟩
    ⟨a, (fate_eq_iff.mp hfate).1.symm.trans hfound, hruntime⟩ hfate h h' hmoves
  · rintro s move t ⟨b, hb, hr⟩ hstep
    obtain ⟨d, hd, hsame⟩ := keeps_action hstep hb
    exact ⟨d, hd, hsame.trans hr⟩
  · rintro s move t ⟨b, hb, hr⟩ hstep hmove
    exact fate_skip hstep hb hmove
  · rintro s s' move t t' - ⟨b, hb, hr⟩ hsame hstep hstep' hmove
    -- The move is made from `s'`, so the lock is free there where the move needs it.
    by_cases hedit : ∃ ids, move = .edit r ids
    · obtain ⟨ids, rfl⟩ := hedit
      obtain ⟨hactions, hlog, -⟩ := fate_eq_iff.mp hsame
      cases hstep
      cases hstep'
      refine fate_eq_iff.mpr ⟨hactions, hlog, ?_⟩
      rw [modify_self, modify_self]
    · have htask := task_of_concerns hmove fun ids hids => hedit ⟨ids, hids⟩
      obtain ⟨action, -, hown, hlock, -⟩ := step_own htask hstep'
      have hready : Ready task r s' := by
        refine ⟨⟨b, hb, hr⟩, fun d hd hwaiting => ?_⟩
        cases hown.symm.trans hd
        exact hlock hwaiting
      obtain ⟨u, hu, hfates, -⟩ := fate_step hsame hready hmove hstep
      cases hu.symm.trans hstep'
      exact hfates

/-! ## Silence -/

/-- The runtime that has left an entry. -/
def runtimeOf (loop : Loop) : Entry → Option Nat
  | .wrote i => (loop.actions[i]?).map (·.runtime)
  | .recorded i _ => (loop.actions[i]?).map (·.runtime)
  | .saved (.action i) => (loop.actions[i]?).map (·.runtime)
  | .saved (.close c) => (loop.closes[c]?).map (·.runtime)
  | .saved .guard => none

/-- A call of `async_close` that moves has not returned. -/
theorem kept_setClose {call c : Nat} {close cl : Close} {stage : CloseStage}
    (hfound : loop.closes[call]? = some close) (hstage : close.stage ≠ .returned)
    (hcl : loop.closes[c]? = some cl) : ∃ d, (loop.setClose call stage).closes[c]? = some d ∧
      d.runtime = cl.runtime ∧ (cl.stage = .returned → d.stage = .returned) := by
  by_cases hc : c = call
  · subst hc
    cases hfound.symm.trans hcl
    exact ⟨_, setClose_self hfound, rfl, fun h => absurd h hstage⟩
  · exact ⟨cl, (setClose_of_ne hc).trans hcl, rfl, id⟩

theorem ne_returned_of_holds {stage : CloseStage} (h : stage.holds = true) : stage ≠ .returned := by
  rintro rfl
  cases h

theorem Stepped.kept (h : Stepped loop after) {c : Nat} {cl : Close}
    (hcl : loop.closes[c]? = some cl) : ∃ d, after.closes[c]? = some d ∧
      d.runtime = cl.runtime ∧ (cl.stage = .returned → d.stage = .returned) := by
  have hsame (hcloses : after.closes = loop.closes) : ∃ d, after.closes[c]? = some d ∧
      d.runtime = cl.runtime ∧ (cl.stage = .returned → d.stage = .returned) :=
    ⟨cl, by rw [hcloses, hcl], rfl, id⟩
  cases h with
  | quiet hquiet => exact hsame hquiet.closes
  | admitted _ _ hquiet => exact hsame hquiet.closes
  | began _ _ _ hquiet => exact hsame hquiet.closes
  | advanced _ _ _ hquiet => exact hsame hquiet.closes
  | finished _ _ hquiet => exact hsame hquiet.closes
  | guard | closing => exact hsame rfl
  | called =>
    exact ⟨cl, (List.getElem?_append_left (List.getElem?_eq_some_iff.mp hcl).1).trans hcl, rfl, id⟩
  | entered hfound hstage => exact kept_setClose hfound (by rw [hstage]; nofun) hcl
  | late hfound hstage => exact kept_setClose hfound (by rw [hstage]; nofun) hcl
  | waited hfound hwaited =>
    refine kept_setClose hfound ?_ hcl
    cases hwaited with
    | joining hstage => rw [hstage]; nofun
    | draining hholds _ => exact ne_returned_of_holds hholds
    | reaping hstage _ => rw [hstage]; nofun
    | locking hstage => rw [hstage]; nofun
  | relocked hfound hstage => exact kept_setClose hfound (by rw [hstage]; nofun) hcl
  | returned hfound hstage hquiet =>
    rw [hquiet.closes]
    exact kept_setClose hfound (by rw [hstage]; nofun) hcl
  | raised hfound hholds hquiet =>
    rw [hquiet.closes]
    exact kept_setClose hfound (ne_returned_of_holds hholds) hcl

/-- What an action leaves is of its runtime, for good. -/
theorem runtimeOf_mono {move : Move} {entry : Entry} {r : Nat} (h : loop.step move = some after)
    (hstepped : Stepped loop after) (hentry : loop.runtimeOf entry = some r) :
    after.runtimeOf entry = some r := by
  have haction {i : Nat} (hi : (loop.actions[i]?).map (·.runtime) = some r) :
      (after.actions[i]?).map (·.runtime) = some r := by
    obtain ⟨a, ha, rfl⟩ := Option.map_eq_some_iff.mp hi
    obtain ⟨b, hb, hruntime⟩ := keeps_action h ha
    rw [hb, Option.map_some, hruntime]
  cases entry with
  | wrote i => exact haction hentry
  | recorded i result => exact haction hentry
  | saved owner =>
    cases owner with
    | action i => exact haction hentry
    | close c =>
      obtain ⟨cl, hcl, rfl⟩ := Option.map_eq_some_iff.mp hentry
      obtain ⟨d, hd, hruntime, -⟩ := hstepped.kept hcl
      exact Option.map_eq_some_iff.mpr ⟨d, hd, hruntime⟩
    | guard => cases hentry

/-- An entry is of an action that is not over, or of a save of `async_close`. -/
theorem entries_owned {move : Move} {entry : Entry} (h : loop.step move = some after)
    (hentry : entry ∈ loop.entries move) :
    (∃ (i : Nat) (a : ActionTask), loop.actions[i]? = some a ∧ a.stage ≠ .done ∧
      loop.runtimeOf entry = some a.runtime) ∨
    ∃ (c : Nat) (cl : Close), loop.closes[c]? = some cl ∧ cl.stage = .saving ∧
      loop.runtimeOf entry = some cl.runtime := by
  cases move with
  | write i =>
    cases List.mem_singleton.mp hentry
    obtain ⟨a, ha, hholds, -⟩ := advance_eq_some.mp h
    exact Or.inl ⟨i, a, ha, ne_done_of_holds hholds, Option.map_eq_some_iff.mpr ⟨a, ha, rfl⟩⟩
  | recorded i =>
    obtain ⟨a, ha, hholds, -⟩ := advance_eq_some.mp h
    unfold entries at hentry
    simp only at hentry
    split at hentry
    · cases List.mem_singleton.mp hentry
      exact Or.inl ⟨i, a, ha, ne_done_of_holds hholds, Option.map_eq_some_iff.mpr ⟨a, ha, rfl⟩⟩
    · cases hentry
  | saved i =>
    cases List.mem_singleton.mp hentry
    obtain ⟨a, ha, hholds, -⟩ := advance_eq_some.mp h
    exact Or.inl ⟨i, a, ha, ne_done_of_holds hholds, Option.map_eq_some_iff.mpr ⟨a, ha, rfl⟩⟩
  | closeSaved c =>
    cases List.mem_singleton.mp hentry
    obtain ⟨cl, hcl, -, h⟩ := advanceClose_eq_some.mp h
    dsimp only at h
    split at h
    · rename_i hsaving
      exact Or.inr ⟨c, cl, hcl, hsaving, Option.map_eq_some_iff.mpr ⟨cl, hcl, rfl⟩⟩
    · cases h
  | _ => cases hentry

/-- What every run keeps where no unload is refused. -/
structure Sound (loop : Loop) : Prop where
  locked : Locked loop
  owned : Owned loop
  admitted : Admitted loop
  closing : Closing loop

theorem sound_idle (current suppressReapply : Nat → Finset Text) :
    Sound (idle current suppressReapply) := by
  refine ⟨⟨fun i a ha => ?_, fun c cl hcl => ?_⟩, owned_of_free (Or.inl rfl), fun i a ha => ?_,
    ⟨fun c cl hcl => ?_, fun c cl hcl => ?_, fun c cl hcl => ?_, fun r hr => ?_, fun c cl hcl => ?_⟩⟩
  · cases ha
  · cases hcl
  · cases ha
  · cases hcl
  · cases hcl
  · cases hcl
  · cases hr
  · cases hcl

theorem Sound.step (h : Sound loop) (hstep : Stepped loop after) : Sound after :=
  ⟨hstep.locked h.locked, hstep.owned h.owned, hstep.admission h.admitted,
    hstep.torndown h.admitted h.closing⟩

/-- The runtime is closed, and has left nothing since the log was `log`. -/
structure Silent (r : Nat) (log : List Entry) (loop : Loop) : Prop where
  sound : Sound loop
  closed : (loop.runtimes r).closed = true
  log : ∃ newer, loop.log = log ++ newer ∧
    ∀ entry ∈ newer, ∃ r', loop.runtimeOf entry = some r' ∧ r' ≠ r

theorem Silent.step {r : Nat} {log : List Entry} {move : Move} {call : Nat} {close : Close}
    (h : Silent r log loop) (hfound : loop.closes[call]? = some close) (hruntime : close.runtime = r)
    (hreturned : close.stage = .returned) (hstep : loop.step move = some after)
    (hstepped : Stepped loop after) : Silent r log after := by
  have hsound := h.sound.step hstepped
  obtain ⟨d, hd, hsame, hstays⟩ := hstepped.kept hfound
  obtain ⟨-, hdrained, hnone⟩ := h.sound.closing.closed r h.closed
  obtain ⟨newer, hlog, hnewer⟩ := h.log
  refine ⟨hsound, ?_, newer ++ loop.entries move, ?_, fun entry hentry => ?_⟩
  · rw [← hruntime, ← hsame]
    exact hsound.closing.returned call d hd (hstays hreturned)
  · rw [(told hstep).log, hlog, List.append_assoc]
  · obtain hentry | hentry := List.mem_append.mp hentry
    · obtain ⟨r', hr', hne⟩ := hnewer entry hentry
      exact ⟨r', runtimeOf_mono hstep hstepped hr', hne⟩
    · obtain ⟨i, a, ha, hundone, hof⟩ | ⟨c, cl, hcl, hsaving, hof⟩ := entries_owned hstep hentry
      · refine ⟨a.runtime, runtimeOf_mono hstep hstepped hof, ?_⟩
        intro hr
        exact hundone (hdrained i a ha hr)
      · refine ⟨cl.runtime, runtimeOf_mono hstep hstepped hof, ?_⟩
        rintro rfl
        have hheld := h.sound.closing.entered c cl hcl (by rw [hsaving]; rfl)
        rw [hnone] at hheld
        cases hheld

/-! ## Runs -/

/-- What can become of the action in a run from `loop` can become of it in a run from `after`, and
does where its own moves are the same. -/
def Fates (task runtime : Nat) (loop after : Loop) : Prop :=
  ∀ later last, Traces.after Loop.step loop later = some last →
    (∃ later' last', Traces.after Loop.step after later' = some last' ∧
      later'.filter (Move.concerns task runtime) = later.filter (Move.concerns task runtime)) ∧
    ∀ later' last', Traces.after Loop.step after later' = some last' →
      later'.filter (Move.concerns task runtime) = later.filter (Move.concerns task runtime) →
      last'.fate task runtime = last.fate task runtime

theorem fates_of_fate {task r : Nat} {a : ActionTask} (howned : Owned after)
    (hfound : loop.actions[task]? = some a) (hruntime : a.runtime = r)
    (hfate : loop.fate task r = after.fate task r) : Fates task r loop after := by
  intro later last hrun
  have hfound' : after.actions[task]? = some a := (fate_eq_iff.mp hfate).1.symm.trans hfound
  refine ⟨?_, fun later' last' hrun' hmoves =>
    (fate_eq hfate hfound hruntime hrun hrun' hmoves.symm).symm⟩
  by_cases hwaiting : a.stage = .waiting
  · obtain ⟨moves, free, hfree, hnone, hlock⟩ := exists_free howned r hfound' hwaiting
    have hstart : Traces.after Loop.step after [] = some after := rfl
    have hsame : after.fate task r = free.fate task r :=
      fate_eq rfl hfound' hruntime hstart hfree (by rw [hnone, List.filter_nil])
    have hready : Ready task r free :=
      ⟨⟨a, (fate_eq_iff.mp hsame).1.symm.trans hfound', hruntime⟩, fun _ _ _ => hlock⟩
    obtain ⟨last', hlast'⟩ := fate_run (hfate.trans hsame) hready hrun
    refine ⟨moves ++ later.filter (Move.concerns task r), last',
      Traces.after_append.mpr ⟨free, hfree, hlast'⟩, ?_⟩
    rw [List.filter_append, hnone, List.nil_append, List.filter_filter]
    simp only [Bool.and_self]
  · have hready : Ready task r after := by
      refine ⟨⟨a, hfound', hruntime⟩, fun b hb hb' => ?_⟩
      cases hfound'.symm.trans hb
      exact absurd hb' hwaiting
    obtain ⟨last', hlast'⟩ := fate_run hfate hready hrun
    refine ⟨later.filter (Move.concerns task r), last', hlast', ?_⟩
    rw [List.filter_filter]
    simp only [Bool.and_self]

/-- No unload is refused. -/
def Unrefused (moves : List Move) : Prop := ∀ r, Move.setClosing r false ∉ moves

theorem stepped_of_mem {moves : List Move} {move : Move} (h : Unrefused moves) (hmem : move ∈ moves)
    (hstep : loop.step move = some after) : Stepped loop after := by
  refine stepped hstep ?_
  rintro r rfl
  exact h r hmem

theorem sound_of_run {final : Loop} {moves : List Move} (h : Sound loop) (hmoves : Unrefused moves)
    (hrun : Traces.after Loop.step loop moves = some final) : Sound final :=
  Traces.invariant (P := fun s _ t => Stepped s t) (fun _ _ _ hs _ hstep => hs.step hstep) h
    ((Traces.every_of_forall_mem fun _ => id).mono
      fun _ _ _ hstep hmem => stepped_of_mem hmoves hmem hstep) hrun

theorem fate_cancel {caller : Nat} {cancelled : Loop}
    (h : loop.step (.cancel caller) = some cancelled) : Quiet loop cancelled ∧ Calm loop cancelled := by
  obtain ⟨c, -, h⟩ := Option.bind_eq_some_iff.mp h
  split at h
  · cases h
    exact ⟨quiet_endCaller .., calm_endCaller ..⟩
  · cases h
    exact ⟨quiet_endCaller .., calm_endCaller ..⟩
  · cases h

/-- At most one `Reconciler.run` is in progress; a cancelled caller changes nothing for the actions;
and after `async_close` of a runtime has returned, no action of it is in progress and it leaves
nothing. -/
theorem teardown_drains {current suppressReapply : Nat → Finset Text} {final : Loop}
    {moves : List Move} (hmoves : Unrefused moves)
    (hrun : Traces.after Loop.step (idle current suppressReapply) moves = some final) :
    (∀ (i j : Nat) (a b : ActionTask), final.actions[i]? = some a → final.actions[j]? = some b →
      a.stage = .running → b.stage = .running → i = j) ∧
    (∀ caller cancelled, final.step (.cancel caller) = some cancelled →
      cancelled.actions = final.actions ∧ cancelled.log = final.log ∧ cancelled.lock = final.lock ∧
      ∀ (task : Nat) (a : ActionTask), final.actions[task]? = some a →
        Fates task a.runtime final cancelled ∧ Fates task a.runtime cancelled final) ∧
    ∀ (call : Nat) (close : Close), final.closes[call]? = some close → close.stage = .returned →
      ∀ later last, Unrefused later → Traces.after Loop.step final later = some last →
        (∀ (i : Nat) (a : ActionTask), last.actions[i]? = some a → a.runtime = close.runtime →
          a.stage = .done) ∧
        ∃ newer, last.log = final.log ++ newer ∧
          ∀ entry ∈ newer, last.runtimeOf entry ≠ some close.runtime := by
  have hsound := sound_of_run (sound_idle current suppressReapply) hmoves hrun
  refine ⟨fun i j a b ha hb hi hj => ?_, fun caller cancelled hcancel => ?_,
    fun call close hfound hreturned later last hlater hlast => ?_⟩
  · have hlock := hsound.locked.holds i a ha (by rw [hi]; rfl)
    have hlock' := hsound.locked.holds j b hb (by rw [hj]; rfl)
    cases hlock.symm.trans hlock'
    rfl
  · obtain ⟨hquiet, hcalm⟩ := fate_cancel hcancel
    refine ⟨hquiet.actions, hcalm.log, hquiet.lock, fun task a ha => ?_⟩
    have hfate : final.fate task a.runtime = cancelled.fate task a.runtime := by
      rw [fate_eq_iff, hquiet.actions, hcalm.log, hcalm.current]
      exact ⟨rfl, rfl, rfl⟩
    have howned := hsound.owned.congr hquiet.lock hquiet.actions hquiet.closes
    have hfound : cancelled.actions[task]? = some a := hquiet.actions ▸ ha
    exact ⟨fates_of_fate howned ha rfl hfate, fates_of_fate hsound.owned hfound rfl hfate.symm⟩
  · have hsilent : Silent close.runtime final.log last ∧ ∃ cl, last.closes[call]? = some cl ∧
        cl.runtime = close.runtime ∧ cl.stage = .returned := by
      have hnow : Silent close.runtime final.log final :=
        ⟨hsound, hsound.closing.returned call close hfound hreturned, [],
          (List.append_nil _).symm, List.forall_mem_nil _⟩
      refine Traces.invariant (P := fun _ move _ => move ∈ later)
        (I := fun s => Silent close.runtime final.log s ∧ ∃ cl, s.closes[call]? = some cl ∧
          cl.runtime = close.runtime ∧ cl.stage = .returned) (fun s move t hs hstep hmem => ?_)
        ⟨hnow, close, hfound, rfl, hreturned⟩ (Traces.every_of_forall_mem fun _ => id) hlast
      obtain ⟨hs, cl, hcl, hruntime, hdone⟩ := hs
      have hstepped := stepped_of_mem hlater hmem hstep
      obtain ⟨d, hd, hsame, hstays⟩ := hstepped.kept hcl
      exact ⟨hs.step hcl hruntime hdone hstep hstepped, d, hd, hsame.trans hruntime, hstays hdone⟩
    obtain ⟨hsilent, -⟩ := hsilent
    obtain ⟨-, hdrained, -⟩ := hsilent.sound.closing.closed _ hsilent.closed
    obtain ⟨newer, hlog, hnewer⟩ := hsilent.log
    refine ⟨hdrained, newer, hlog, fun entry hentry => ?_⟩
    obtain ⟨r', hr', hne⟩ := hnewer entry hentry
    rw [hr']
    exact fun h => hne (Option.some_inj.mp h)

/-- The caller is cancelled and the runtime closes while the action is in the executor. -/
theorem teardown_drains_cancelled : ∃ final, Traces.after Loop.step (idle (fun _ => {['p']}) fun _ => ∅)
    [.call 0 ['p'] .apply, .start 0, .begin 0, .prepared 0, .cancel 0, .close 0, .write 0, .raised 0,
      .enter 0, .stopped 0, .joined 0, .drained 0, .reaped 0, .relock 0, .closeSaved 0] = some final ∧
    ∀ (i : Nat) (a : ActionTask), final.actions[i]? = some a → a.runtime = 0 → a.stage = .done := by
  have hrun : (Traces.after Loop.step (idle (fun _ => {['p']}) fun _ => ∅)
      [.call 0 ['p'] .apply, .start 0, .begin 0, .prepared 0, .cancel 0, .close 0, .write 0, .raised 0,
        .enter 0, .stopped 0, .joined 0, .drained 0, .reaped 0, .relock 0, .closeSaved 0]).map
          (·.closes) = some [⟨0, .returned⟩] := by decide +kernel
  obtain ⟨final, hfinal, hcloses⟩ := Option.map_eq_some_iff.mp hrun
  have hmoves : Unrefused [.call 0 ['p'] .apply, .start 0, .begin 0, .prepared 0, .cancel 0, .close 0,
      .write 0, .raised 0, .enter 0, .stopped 0, .joined 0, .drained 0, .reaped 0, .relock 0,
      .closeSaved 0] := by
    intro r
    simp
  have hclosed : final.closes[0]? = some ⟨0, .returned⟩ := by rw [hcloses]; rfl
  exact ⟨final, hfinal, ((teardown_drains hmoves hfinal).2.2 0 _ hclosed rfl [] final
    (fun _ => List.not_mem_nil) rfl).1⟩

end Loop

end Hapatchy.Tasks
