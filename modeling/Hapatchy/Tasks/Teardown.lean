import Hapatchy.Tasks

/-!
# Teardown

After `async_close` nothing of a runtime is left: an action is in `_admitted`
from its creation to its end, and none is created once `closing` is set.
-/

namespace Hapatchy.Tasks

/-! ## Runtimes -/

namespace Runtime

variable {runtime runtime' : Runtime} {patchId : Text}

/-- What teardown looks at is the same. -/
structure Keeps (runtime runtime' : Runtime) : Prop where
  admitted : runtime'.admitted = runtime.admitted
  closing : runtime'.closing = runtime.closing
  closed : runtime'.closed = runtime.closed
  closeLock : runtime'.closeLock = runtime.closeLock

theorem Keeps.refl : Keeps runtime runtime := ⟨rfl, rfl, rfl, rfl⟩

theorem Keeps.trans {runtime'' : Runtime} (h : Keeps runtime runtime')
    (h' : Keeps runtime' runtime'') : Keeps runtime runtime'' :=
  ⟨h'.admitted.trans h.admitted, h'.closing.trans h.closing, h'.closed.trans h.closed,
    h'.closeLock.trans h.closeLock⟩

theorem keeps_modifyWatcher (f : PatchWatcher → PatchWatcher) :
    Keeps runtime (runtime.modifyWatcher f) := ⟨rfl, rfl, rfl, rfl⟩

theorem keeps_debounce : Keeps runtime (runtime.debounce patchId) := by
  unfold debounce
  split
  · exact .refl
  · split <;> exact keeps_modifyWatcher _

theorem keeps_debounces (patchIds : List Text) : Keeps runtime (patchIds.foldl debounce runtime) := by
  induction patchIds generalizing runtime with
  | nil => exact .refl
  | cons patchId patchIds ih => exact keeps_debounce.trans ih

theorem keeps_actionComplete : Keeps runtime (runtime.actionComplete patchId) := by
  unfold actionComplete
  split
  · exact (keeps_modifyWatcher _).trans keeps_debounce
  · exact .refl

theorem keeps_handleEvent (patchIds : List Text) : Keeps runtime (runtime.handleEvent patchIds) := by
  unfold handleEvent
  split
  · exact .refl
  · exact keeps_debounces patchIds

theorem keeps_actionFinished {task : Nat} :
    Keeps { runtime with admitted := runtime.admitted.erase task }
      (runtime.actionFinished task patchId) := by
  have hbusy : Keeps { runtime with admitted := runtime.admitted.erase task }
      { runtime with
        admitted := runtime.admitted.erase task
        busy := runtime.busy.erase patchId } := ⟨rfl, rfl, rfl, rfl⟩
  exact hbusy.trans keeps_actionComplete

theorem keeps_checkFinished : Keeps runtime (runtime.checkFinished patchId) :=
  (keeps_modifyWatcher _).trans keeps_actionComplete

end Runtime

namespace Loop

open Hapatchy.Tasks.Runtime

variable {loop after : Loop}

/-! ## Steps -/

/-- Nothing that teardown looks at has changed. -/
structure Quiet (loop after : Loop) : Prop where
  actions : after.actions = loop.actions
  closes : after.closes = loop.closes
  lock : after.lock = loop.lock
  runtimes : ∀ r, Runtime.Keeps (loop.runtimes r) (after.runtimes r)

theorem Quiet.refl : Quiet loop loop := ⟨rfl, rfl, rfl, fun _ => .refl⟩

theorem Quiet.trans {last : Loop} (h : Quiet loop after) (h' : Quiet after last) : Quiet loop last :=
  ⟨h'.actions.trans h.actions, h'.closes.trans h.closes, h'.lock.trans h.lock,
    fun r => (h.runtimes r).trans (h'.runtimes r)⟩

theorem modify_self (runtime : Nat) (f : Runtime → Runtime) :
    (loop.modify runtime f).runtimes runtime = f (loop.runtimes runtime) := Function.update_self ..

theorem modify_of_ne {runtime r : Nat} (f : Runtime → Runtime)
    (h : r ≠ runtime) : (loop.modify runtime f).runtimes r = loop.runtimes r :=
  Function.update_of_ne h ..

theorem quiet_modify {runtime : Nat} {f : Runtime → Runtime}
    (h : Runtime.Keeps (loop.runtimes runtime) (f (loop.runtimes runtime))) :
    Quiet loop (loop.modify runtime f) := by
  refine ⟨rfl, rfl, rfl, fun r => ?_⟩
  by_cases hr : r = runtime
  · subst hr
    rw [modify_self]
    exact h
  · rw [modify_of_ne f hr]
    exact .refl

theorem quiet_callers (callers : List Caller) : Quiet loop { loop with callers := callers } :=
  ⟨rfl, rfl, rfl, fun _ => .refl⟩

theorem quiet_log (log : List Entry) : Quiet loop { loop with log := log } :=
  ⟨rfl, rfl, rfl, fun _ => .refl⟩

theorem quiet_endCaller (index : Nat) (caller : Caller) (ran : Bool) :
    Quiet loop (loop.endCaller index caller ran) := by
  have hset : Quiet loop (loop.setCaller index .ended) := quiet_callers _
  unfold endCaller
  cases caller.kind <;> simp only
  case service => exact hset
  case background => exact hset.trans (quiet_modify ⟨rfl, rfl, rfl, rfl⟩)
  case check =>
    split
    · exact hset.trans (quiet_modify keeps_checkFinished)
    · exact hset

/-- A call of `async_close` goes on to `stage`. -/
inductive Waited (loop : Loop) (close : Close) : CloseStage → Prop
  | joining {checks refreshes : Finset Nat} (stage : close.stage = .stopping) :
      Waited loop close (.joining checks refreshes)
  | draining {background : Finset Nat} (holds : close.stage.holds) (unlocked : close.stage ≠ .saving) :
      Waited loop close (.draining (loop.runtimes close.runtime).admitted background)
  | reaping {admitted background workers : Finset Nat}
      (stage : close.stage = .draining admitted background)
      (done : ∀ task ∈ admitted, loop.isDone task) : Waited loop close (.reaping workers)
  | locking {workers : Finset Nat} (stage : close.stage = .reaping workers) :
      Waited loop close .locking

/-- What a move does, as far as teardown looks at it. -/
inductive Stepped (loop : Loop) : Loop → Prop
  | quiet {after : Loop} (quiet : Quiet loop after) : Stepped loop after
  | admitted {after : Loop} {action : ActionTask} (stage : action.stage = .waiting)
      (admission : (loop.runtimes action.runtime).closing = false)
      (quiet : Quiet (loop.admitAction action) after) : Stepped loop after
  | began {after : Loop} {task : Nat} {action : ActionTask} (found : loop.actions[task]? = some action)
      (stage : action.stage = .waiting) (free : loop.lock = none)
      (quiet : Quiet ({ loop with lock := some (.action task) }.setAction task .preparing) after) :
      Stepped loop after
  | advanced {after : Loop} {task : Nat} {action : ActionTask} {stage : Stage}
      (found : loop.actions[task]? = some action) (holds : action.stage.holds) (next : stage.holds)
      (quiet : Quiet (loop.setAction task stage) after) : Stepped loop after
  | finished {after : Loop} {task : Nat} {action : ActionTask}
      (found : loop.actions[task]? = some action)
      (holds : action.stage.holds ∨ action.stage = .waiting ∧ loop.lock = none)
      (quiet : Quiet ({ loop.setAction task .done with lock := none }.modify action.runtime
        fun runtime => { runtime with admitted := runtime.admitted.erase task }) after) :
      Stepped loop after
  | guard {owner : Option Owner} (before : loop.lock = none ∨ loop.lock = some .guard)
      (next : owner = none ∨ owner = some .guard) : Stepped loop { loop with lock := owner }
  | closing {runtime : Nat} :
      Stepped loop (loop.modify runtime fun state => { state with closing := true })
  | called {runtime : Nat} :
      Stepped loop ({ loop with closes := loop.closes ++ [Close.mk runtime .waiting] }.modify runtime
        fun state => { state with closing := true })
  | entered {call : Nat} {close : Close} {f : Runtime → PatchWatcher}
      (found : loop.closes[call]? = some close) (stage : close.stage = .waiting)
      (free : (loop.runtimes close.runtime).closeLock = none)
      (opened : (loop.runtimes close.runtime).closed = false) :
      Stepped loop ((loop.setClose call .stopping).modify close.runtime fun state =>
        { state with closeLock := some call, watcher := f state })
  | late {call : Nat} {close : Close} (found : loop.closes[call]? = some close)
      (stage : close.stage = .waiting) (closed : (loop.runtimes close.runtime).closed = true) :
      Stepped loop (loop.setClose call .returned)
  | waited {call : Nat} {close : Close} {stage : CloseStage} (found : loop.closes[call]? = some close)
      (waited : Waited loop close stage) : Stepped loop (loop.setClose call stage)
  | relocked {call : Nat} {close : Close} (found : loop.closes[call]? = some close)
      (stage : close.stage = .locking) (free : loop.lock = none) :
      Stepped loop { loop.setClose call .saving with lock := some (.close call) }
  | returned {after : Loop} {call : Nat} {close : Close} (found : loop.closes[call]? = some close)
      (stage : close.stage = .saving)
      (quiet : Quiet ({ loop.setClose call .returned with lock := none }.modify close.runtime
        fun state => { state with closeLock := none, closed := true }) after) : Stepped loop after
  | raised {after : Loop} {call : Nat} {close : Close} (found : loop.closes[call]? = some close)
      (holds : close.stage.holds)
      (quiet : Quiet ({ loop.setClose call .raised with
        lock := if close.stage = CloseStage.saving then none else loop.lock }.modify close.runtime
          fun state => { state with closeLock := none }) after) : Stepped loop after

theorem Quiet.admitAction (h : Quiet loop after) (action : ActionTask) :
    Quiet (loop.admitAction action) (after.admitAction action) := by
  refine ⟨?_, h.closes, h.lock, fun r => ?_⟩
  · exact congrArg (· ++ [action]) h.actions
  · have hr := h.runtimes r
    unfold Loop.admitAction
    rw [h.actions]
    by_cases hruntime : r = action.runtime
    · subst hruntime
      rw [modify_self, modify_self]
      exact ⟨congrArg (insert loop.actions.length) hr.admitted, hr.closing, hr.closed, hr.closeLock⟩
    · rw [modify_of_ne _ hruntime, modify_of_ne _ hruntime]
      exact hr

/-- A call of `async_action` from `middle`, which comes from `loop`, with all that follows. -/
theorem stepped_asyncAction {middle : Loop} {index : Nat} {caller : Caller}
    (hmiddle : Quiet loop middle) (hafter : Quiet (middle.asyncAction index caller) after) :
    Stepped loop after := by
  unfold asyncAction at hafter
  simp only at hafter
  split at hafter
  · exact .quiet ((hmiddle.trans (quiet_endCaller ..)).trans hafter)
  · rename_i hadmitted
    refine @Stepped.admitted _ _ ⟨caller.runtime, caller.patchId, caller.action, .waiting⟩ rfl ?_
      (((hmiddle.admitAction _).trans (quiet_callers _)).trans hafter)
    rw [← (hmiddle.runtimes caller.runtime).closing]
    simpa using fun h => hadmitted (Or.inl h)

theorem quiet_finish (task : Nat) (action : ActionTask) :
    Quiet ({ loop.setAction task .done with lock := none }.modify action.runtime fun runtime =>
      { runtime with admitted := runtime.admitted.erase task }) (loop.finish task action) := by
  refine ⟨rfl, rfl, rfl, fun r => ?_⟩
  unfold finish
  by_cases hr : r = action.runtime
  · subst hr
    rw [modify_self, modify_self]
    exact keeps_actionFinished
  · rw [modify_of_ne _ hr, modify_of_ne _ hr]
    exact .refl

/-- The end of an action, with all that follows. -/
theorem stepped_finish {task : Nat} {action : ActionTask} (hfound : loop.actions[task]? = some action)
    (hholds : action.stage.holds ∨ action.stage = .waiting ∧ loop.lock = none)
    (hafter : Quiet (loop.finish task action) after) : Stepped loop after :=
  .finished hfound hholds ((quiet_finish task action).trans hafter)

theorem advance_eq_some {task : Nat} {f : ActionTask → Option Loop} :
    loop.advance task f = some after ↔
      ∃ action, loop.actions[task]? = some action ∧ action.stage.holds ∧ f action = some after := by
  unfold advance
  rw [Option.bind_eq_bind, Option.bind_eq_some_iff]
  refine exists_congr fun action => and_congr_right fun _ => ?_
  rw [Option.ite_none_right_eq_some]

theorem advanceClose_eq_some {call : Nat} {f : Close → Option Loop} :
    loop.advanceClose call f = some after ↔
      ∃ close, loop.closes[call]? = some close ∧ close.stage.holds ∧ f close = some after := by
  unfold advanceClose
  rw [Option.bind_eq_bind, Option.bind_eq_some_iff]
  refine exists_congr fun close => and_congr_right fun _ => ?_
  rw [Option.ite_none_right_eq_some]

theorem stepped_fire (runtime : Nat) (patchId : Text) (eager : Bool) :
    Stepped loop (loop.fire runtime patchId eager) := by
  unfold fire
  simp only
  split
  · exact .quiet (quiet_modify (keeps_modifyWatcher _))
  · split
    · exact .quiet ((quiet_modify (keeps_modifyWatcher _)).trans (quiet_modify (keeps_modifyWatcher _)))
    · split
      · exact stepped_asyncAction ((quiet_modify (keeps_modifyWatcher _)).trans (quiet_callers _))
          (quiet_modify (keeps_modifyWatcher _))
      · exact .quiet (((quiet_modify (keeps_modifyWatcher _)).trans (quiet_callers _)).trans
          (quiet_modify (keeps_modifyWatcher _)))

theorem stepped {move : Move} (h : loop.step move = some after)
    (hmove : ∀ r, move ≠ .setClosing r false) : Stepped loop after := by
  cases move with
  | call runtime patchId action =>
    cases h
    exact .quiet (quiet_callers _)
  | schedule runtime patchId =>
    unfold step at h
    simp only at h
    split at h
    · cases h
    · cases h
      exact .quiet ((quiet_callers _).trans (quiet_modify ⟨rfl, rfl, rfl, rfl⟩))
  | start index =>
    obtain ⟨caller, -, h⟩ := Option.bind_eq_some_iff.mp h
    split at h
    · cases h
      exact stepped_asyncAction .refl .refl
    · cases h
  | resume index =>
    obtain ⟨caller, -, h⟩ := Option.bind_eq_some_iff.mp h
    split at h
    · split at h
      · cases h
        exact .quiet (quiet_endCaller ..)
      · cases h
    · cases h
  | cancel index =>
    obtain ⟨caller, -, h⟩ := Option.bind_eq_some_iff.mp h
    split at h
    · cases h
      exact .quiet (quiet_endCaller ..)
    · cases h
      exact .quiet (quiet_endCaller ..)
    · cases h
  | begin task =>
    obtain ⟨action, hfound, h⟩ := Option.bind_eq_some_iff.mp h
    split at h
    · rename_i hwaiting
      cases h
      unfold executeAction
      split
      · exact .began hfound hwaiting.1 hwaiting.2 (quiet_modify ⟨rfl, rfl, rfl, rfl⟩)
      · exact stepped_finish hfound (Or.inr hwaiting) .refl
    · cases h
  | prepared task =>
    obtain ⟨action, hfound, hholds, h⟩ := advance_eq_some.mp h
    split at h
    · cases h
      exact .advanced hfound hholds rfl .refl
    · cases h
  | returned task result update =>
    obtain ⟨action, hfound, hholds, h⟩ := advance_eq_some.mp h
    split at h
    · cases h
      unfold conclude
      split
      · cases update with
        | done => exact .advanced hfound hholds rfl (quiet_modify ⟨rfl, rfl, rfl, rfl⟩)
        | failed => exact .advanced hfound hholds rfl (quiet_modify ⟨rfl, rfl, rfl, rfl⟩)
        | raised => exact stepped_finish hfound (Or.inl hholds) .refl
      · exact .advanced hfound hholds rfl .refl
    · cases h
  | write task =>
    obtain ⟨action, hfound, hholds, h⟩ := advance_eq_some.mp h
    split at h
    · cases h
      exact .quiet (quiet_log _)
    · cases h
  | recorded task =>
    obtain ⟨action, hfound, hholds, h⟩ := advance_eq_some.mp h
    dsimp only at h
    split at h
    · cases h
      exact .advanced hfound hholds rfl (quiet_log _)
    · cases h
  | saved task =>
    obtain ⟨action, hfound, hholds, h⟩ := advance_eq_some.mp h
    split at h
    · cases h
      exact stepped_finish hfound (Or.inl hholds) (quiet_log _)
    · cases h
  | raised task =>
    obtain ⟨action, hfound, hholds, h⟩ := advance_eq_some.mp h
    cases h
    exact stepped_finish hfound (Or.inl hholds) .refl
  | event runtime patchIds =>
    cases h
    exact .quiet (quiet_modify (keeps_handleEvent patchIds))
  | directoryEvent runtime refresh =>
    unfold step at h
    simp only at h
    split at h
    · cases h
    · cases h
      exact .quiet (quiet_modify (keeps_modifyWatcher _))
  | refreshed runtime refresh =>
    cases h
    exact .quiet (quiet_modify (keeps_modifyWatcher _))
  | recovered runtime patchIds =>
    cases h
    exact .quiet (quiet_modify (keeps_debounces patchIds))
  | fire runtime patchId eager =>
    unfold step at h
    simp only at h
    split at h
    · cases h
      exact stepped_fire runtime patchId eager
    · cases h
  | submit runtime worker =>
    cases h
    exact .quiet (quiet_modify ⟨rfl, rfl, rfl, rfl⟩)
  | complete runtime worker =>
    cases h
    exact .quiet (quiet_modify ⟨rfl, rfl, rfl, rfl⟩)
  | guard =>
    unfold step at h
    simp only at h
    split at h
    · rename_i hfree
      cases h
      exact .guard (Or.inl hfree) (Or.inr rfl)
    · cases h
  | unguard =>
    unfold step at h
    simp only at h
    split at h
    · rename_i hguard
      cases h
      exact .guard (Or.inr hguard) (Or.inl rfl)
    · cases h
  | edit runtime current =>
    cases h
    exact .quiet (quiet_modify ⟨rfl, rfl, rfl, rfl⟩)
  | setClosing runtime closing =>
    cases closing with
    | false => exact absurd rfl (hmove runtime)
    | true =>
      cases h
      exact .closing
  | close runtime =>
    cases h
    exact .called
  | enter call =>
    obtain ⟨close, hfound, h⟩ := Option.bind_eq_some_iff.mp h
    simp only at h
    split at h
    · cases h
    · rename_i henter
      rw [not_or, not_not, not_not] at henter
      split at h
      · rename_i hclosed
        cases h
        exact .late hfound henter.1 hclosed
      · rename_i hopen
        cases h
        exact .entered hfound henter.1 henter.2 (by simpa using hopen)
  | stopped call =>
    obtain ⟨close, hfound, hholds, h⟩ := advanceClose_eq_some.mp h
    dsimp only at h
    split at h
    · rename_i hstage
      cases h
      exact .waited hfound (.joining hstage)
    · cases h
  | joined call =>
    obtain ⟨close, hfound, hholds, h⟩ := advanceClose_eq_some.mp h
    dsimp only at h
    split at h
    · rename_i checks refreshes hstage
      split at h
      · cases h
        refine .waited hfound (.draining hholds ?_)
        rw [hstage]
        nofun
      · cases h
    · cases h
  | drained call =>
    obtain ⟨close, hfound, hholds, h⟩ := advanceClose_eq_some.mp h
    split at h
    · rename_i admitted background hstage
      split at h
      · rename_i hdone
        cases h
        exact .waited hfound (.reaping hstage hdone.1)
      · cases h
    · cases h
  | reaped call =>
    obtain ⟨close, hfound, hholds, h⟩ := advanceClose_eq_some.mp h
    split at h
    · rename_i workers hstage
      split at h
      · cases h
        exact .waited hfound (.locking hstage)
      · cases h
    · cases h
  | relock call =>
    obtain ⟨close, hfound, hholds, h⟩ := advanceClose_eq_some.mp h
    dsimp only at h
    split at h
    · rename_i hlocking
      cases h
      exact .relocked hfound hlocking.1 hlocking.2
    · cases h
  | closeSaved call =>
    obtain ⟨close, hfound, hholds, h⟩ := advanceClose_eq_some.mp h
    dsimp only at h
    split at h
    · rename_i hsaving
      cases h
      refine .returned hfound hsaving ⟨rfl, rfl, rfl, fun r => ?_⟩
      by_cases hr : r = close.runtime
      · subst hr
        simp only [leave, modify, Function.update_self]
        exact ⟨rfl, rfl, rfl, rfl⟩
      · simp only [leave, modify, Function.update_of_ne hr]
        exact .refl
    · cases h
  | closeRaised call =>
    obtain ⟨close, hfound, hholds, h⟩ := advanceClose_eq_some.mp h
    cases h
    exact .raised hfound hholds .refl

/-! ## Actions -/

theorem setAction_some {task i : Nat} {stage : Stage} {b : ActionTask}
    (h : (loop.setAction task stage).actions[i]? = some b) : ∃ a, loop.actions[i]? = some a ∧
      b.runtime = a.runtime ∧ (i = task ∧ b.stage = stage ∨ i ≠ task ∧ b = a) := by
  unfold setAction at h
  by_cases hi : i = task
  · subst hi
    rw [List.getElem?_modify_eq] at h
    obtain ⟨a, ha, rfl⟩ := Option.map_eq_some_iff.mp h
    exact ⟨a, ha, rfl, Or.inl ⟨rfl, rfl⟩⟩
  · rw [List.getElem?_modify_ne _ _ (Ne.symm hi)] at h
    exact ⟨b, h, rfl, Or.inr ⟨hi, rfl⟩⟩

theorem setClose_some {call c : Nat} {stage : CloseStage} {d : Close}
    (h : (loop.setClose call stage).closes[c]? = some d) : ∃ cl, loop.closes[c]? = some cl ∧
      d.runtime = cl.runtime ∧ (c = call ∧ d.stage = stage ∨ c ≠ call ∧ d = cl) := by
  unfold setClose at h
  by_cases hc : c = call
  · subst hc
    rw [List.getElem?_modify_eq] at h
    obtain ⟨cl, hcl, rfl⟩ := Option.map_eq_some_iff.mp h
    exact ⟨cl, hcl, rfl, Or.inl ⟨rfl, rfl⟩⟩
  · rw [List.getElem?_modify_ne _ _ (Ne.symm hc)] at h
    exact ⟨d, h, rfl, Or.inr ⟨hc, rfl⟩⟩

theorem append_some {α : Type} {l : List α} {a b : α} {i : Nat} (h : (l ++ [a])[i]? = some b) :
    l[i]? = some b ∨ i = l.length ∧ b = a := by
  rw [List.getElem?_append] at h
  split at h
  · exact Or.inl h
  · obtain ⟨hi, hb⟩ := List.getElem?_eq_some_iff.mp h
    rw [List.getElem_singleton] at hb
    rw [List.length_singleton] at hi
    exact Or.inr ⟨by omega, hb.symm⟩

theorem ne_done_of_holds {stage : Stage} (h : stage.holds) : stage ≠ .done := by
  rintro rfl
  cases h

/-- An action that is not over was not over before, or is new in a runtime that is not closing. -/
theorem Stepped.undone (h : Stepped loop after) {i : Nat} {b : ActionTask}
    (hb : after.actions[i]? = some b) (hundone : b.stage ≠ .done) :
    (∃ a, loop.actions[i]? = some a ∧ b.runtime = a.runtime ∧ a.stage ≠ .done) ∨
      i = loop.actions.length ∧ (loop.runtimes b.runtime).closing = false := by
  have hsame (hactions : after.actions = loop.actions) :
      ∃ a, loop.actions[i]? = some a ∧ b.runtime = a.runtime ∧ a.stage ≠ .done :=
    ⟨b, hactions ▸ hb, rfl, hundone⟩
  -- The action that moves was not over.
  have hset {task : Nat} {action : ActionTask} {stage : Stage}
      (hfound : loop.actions[task]? = some action) (hstage : action.stage ≠ .done)
      (hactions : after.actions = (loop.setAction task stage).actions) :
      ∃ a, loop.actions[i]? = some a ∧ b.runtime = a.runtime ∧ a.stage ≠ .done := by
    rw [hactions] at hb
    obtain ⟨a, ha, hruntime, ⟨rfl, -⟩ | ⟨-, rfl⟩⟩ := setAction_some hb
    · cases hfound.symm.trans ha
      exact ⟨action, ha, hruntime, hstage⟩
    · exact ⟨b, ha, rfl, hundone⟩
  cases h with
  | quiet hquiet => exact Or.inl (hsame hquiet.actions)
  | admitted hstage hadmission hquiet =>
    rw [hquiet.actions] at hb
    obtain hold | ⟨hi, rfl⟩ := append_some hb
    · exact Or.inl ⟨b, hold, rfl, hundone⟩
    · exact Or.inr ⟨hi, hadmission⟩
  | began hfound hstage hfree hquiet =>
    refine Or.inl (hset hfound ?_ hquiet.actions)
    rw [hstage]
    nofun
  | advanced hfound hholds hnext hquiet =>
    exact Or.inl (hset hfound (ne_done_of_holds hholds) hquiet.actions)
  | finished hfound hholds hquiet =>
    refine Or.inl (hset hfound ?_ hquiet.actions)
    obtain hholds | ⟨hwaiting, -⟩ := hholds
    · exact ne_done_of_holds hholds
    · rw [hwaiting]
      nofun
  | guard | closing | called | entered | late | waited | relocked => exact Or.inl (hsame rfl)
  | returned hfound hstage hquiet => exact Or.inl (hsame hquiet.actions)
  | raised hfound hholds hquiet => exact Or.inl (hsame hquiet.actions)

/-- An action that has the lock, or has a save of a closing runtime that has it. -/
structure Locked (loop : Loop) : Prop where
  holds : ∀ i a, loop.actions[i]? = some a → a.stage.holds → loop.lock = some (.action i)
  saving : ∀ c cl, loop.closes[c]? = some cl → cl.stage = .saving → loop.lock = some (.close c)

theorem Locked.congr (h : Locked loop) (hactions : after.actions = loop.actions)
    (hcloses : after.closes = loop.closes) (hlock : after.lock = loop.lock) : Locked after := by
  constructor
  · rw [hactions, hlock]
    exact h.holds
  · rw [hcloses, hlock]
    exact h.saving

theorem Quiet.locked (h : Quiet loop after) (hloop : Locked loop) : Locked after :=
  hloop.congr h.actions h.closes h.lock

/-- Nobody that the lock is for has it. -/
theorem Locked.nobody (h : Locked loop) (hlock : ∀ i, loop.lock ≠ some (.action i))
    (hclose : ∀ c, loop.lock ≠ some (.close c)) :
    (∀ (i : Nat) (a : ActionTask), loop.actions[i]? = some a → ¬ a.stage.holds) ∧
      ∀ (c : Nat) (cl : Close), loop.closes[c]? = some cl → cl.stage ≠ .saving :=
  ⟨fun i a ha hholds => hlock i (h.holds i a ha hholds), fun c cl hcl hsaving =>
    hclose c (h.saving c cl hcl hsaving)⟩

theorem Stepped.locked (h : Stepped loop after) (hloop : Locked loop) : Locked after := by
  cases h with
  | quiet hquiet => exact hquiet.locked hloop
  | admitted hstage hadmission hquiet =>
    refine hquiet.locked ⟨fun i a ha hholds => ?_, hloop.saving⟩
    obtain hold | ⟨-, rfl⟩ := append_some ha
    · exact hloop.holds i a hold hholds
    · rw [hstage] at hholds
      cases hholds
  | began hfound hstage hfree hquiet =>
    obtain ⟨hnobody, hnosave⟩ := hloop.nobody (by rw [hfree]; nofun) (by rw [hfree]; nofun)
    refine hquiet.locked ⟨fun i a ha hholds => ?_, fun c cl hcl hsaving =>
      absurd hsaving (hnosave c cl hcl)⟩
    obtain ⟨b, hb, -, ⟨rfl, -⟩ | ⟨-, rfl⟩⟩ := setAction_some ha
    · rfl
    · exact absurd hholds (hnobody i a hb)
  | advanced hfound hholds hnext hquiet =>
    refine hquiet.locked ⟨fun i a ha hi => ?_, hloop.saving⟩
    obtain ⟨b, hb, -, ⟨rfl, -⟩ | ⟨-, rfl⟩⟩ := setAction_some ha
    · exact hloop.holds i _ hfound hholds
    · exact hloop.holds i a hb hi
  | finished hfound hholds hquiet =>
    rename_i task action
    have hlock : loop.lock = some (.action task) ∨ loop.lock = none := by
      obtain hholds | ⟨-, hfree⟩ := hholds
      · exact Or.inl (hloop.holds task action hfound hholds)
      · exact Or.inr hfree
    refine hquiet.locked ⟨fun i a ha hi => ?_, fun c cl hcl hsaving => ?_⟩
    · obtain ⟨b, hb, -, ⟨-, hdone⟩ | ⟨hne, rfl⟩⟩ := setAction_some ha
      · rw [hdone] at hi
        cases hi
      · have hi := hloop.holds i a hb hi
        obtain hlock | hlock := hlock
        · rw [hlock] at hi
          cases hi
          exact absurd rfl hne
        · rw [hlock] at hi
          cases hi
    · have hc := hloop.saving c cl hcl hsaving
      obtain hlock | hlock := hlock
      · rw [hlock] at hc
        cases hc
      · rw [hlock] at hc
        cases hc
  | guard hbefore hnext =>
    obtain ⟨hnobody, hnosave⟩ := hloop.nobody
      (by obtain h | h := hbefore <;> rw [h] <;> nofun) (by obtain h | h := hbefore <;> rw [h] <;> nofun)
    exact ⟨fun i a ha hholds => absurd hholds (hnobody i a ha), fun c cl hcl hsaving =>
      absurd hsaving (hnosave c cl hcl)⟩
  | closing => exact hloop.congr rfl rfl rfl
  | called =>
    refine ⟨hloop.holds, fun c cl hcl hsaving => ?_⟩
    obtain hold | ⟨-, rfl⟩ := append_some hcl
    · exact hloop.saving c cl hold hsaving
    · cases hsaving
  | entered hfound hstage hfree hopen =>
    refine ⟨hloop.holds, fun c cl hcl hsaving => ?_⟩
    obtain ⟨d, hd, -, ⟨-, hstage⟩ | ⟨-, rfl⟩⟩ := setClose_some hcl
    · rw [hstage] at hsaving
      cases hsaving
    · exact hloop.saving c cl hd hsaving
  | late hfound hstage hclosed =>
    refine ⟨hloop.holds, fun c cl hcl hsaving => ?_⟩
    obtain ⟨d, hd, -, ⟨-, hstage⟩ | ⟨-, rfl⟩⟩ := setClose_some hcl
    · rw [hstage] at hsaving
      cases hsaving
    · exact hloop.saving c cl hd hsaving
  | waited hfound hwaited =>
    refine ⟨hloop.holds, fun c cl hcl hsaving => ?_⟩
    obtain ⟨d, hd, -, ⟨-, hstage⟩ | ⟨-, rfl⟩⟩ := setClose_some hcl
    · rw [hsaving] at hstage
      subst hstage
      cases hwaited
    · exact hloop.saving c cl hd hsaving
  | relocked hfound hstage hfree =>
    obtain ⟨hnobody, hnosave⟩ := hloop.nobody (by rw [hfree]; nofun) (by rw [hfree]; nofun)
    refine ⟨fun i a ha hholds => absurd hholds (hnobody i a ha), fun c cl hcl hsaving => ?_⟩
    obtain ⟨d, hd, -, ⟨rfl, -⟩ | ⟨-, rfl⟩⟩ := setClose_some hcl
    · rfl
    · exact absurd hsaving (hnosave c cl hd)
  | returned hfound hstage hquiet =>
    rename_i call close
    have hlock := hloop.saving call close hfound hstage
    refine hquiet.locked ⟨fun i a ha hholds => ?_, fun c cl hcl hsaving => ?_⟩
    · have hi := hloop.holds i a ha hholds
      rw [hlock] at hi
      cases hi
    · obtain ⟨d, hd, -, ⟨-, hreturned⟩ | ⟨hne, rfl⟩⟩ := setClose_some hcl
      · rw [hreturned] at hsaving
        cases hsaving
      · have hc := hloop.saving c cl hd hsaving
        rw [hlock] at hc
        cases hc
        exact absurd rfl hne
  | raised hfound hholds hquiet =>
    rename_i call close
    refine hquiet.locked ⟨fun i a ha hi => ?_, fun c cl hcl hsaving => ?_⟩
    · have hi := hloop.holds i a ha hi
      simp only [modify]
      split
      · rename_i hstage
        rw [hloop.saving call close hfound hstage] at hi
        cases hi
      · exact hi
    · obtain ⟨d, hd, -, ⟨-, hraised⟩ | ⟨hne, rfl⟩⟩ := setClose_some hcl
      · rw [hraised] at hsaving
        cases hsaving
      · have hc := hloop.saving c cl hd hsaving
        simp only [modify]
        split
        · rename_i hstage
          rw [hloop.saving call close hfound hstage] at hc
          cases hc
          exact absurd rfl hne
        · exact hc

/-- Every action that is not over is in `_admitted`. -/
def Admitted (loop : Loop) : Prop :=
  ∀ (i : Nat) (a : ActionTask), loop.actions[i]? = some a → a.stage ≠ .done →
    i ∈ (loop.runtimes a.runtime).admitted

/-- A field that `f` leaves alone. -/
theorem modify_field {α : Type} {g : Runtime → α} {f : Runtime → Runtime} {runtime : Nat}
    (h : ∀ state, g (f state) = g state) (r : Nat) :
    g ((loop.modify runtime f).runtimes r) = g (loop.runtimes r) := by
  by_cases hr : r = runtime
  · subst hr
    rw [modify_self, h]
  · rw [modify_of_ne f hr]

theorem Quiet.admitted (h : Quiet loop after) (hloop : Admitted loop) : Admitted after := by
  intro i a ha hundone
  rw [(h.runtimes a.runtime).admitted]
  exact hloop i a (h.actions ▸ ha) hundone

theorem Admitted.same (hloop : Admitted loop) (hactions : after.actions = loop.actions)
    (h : ∀ r, (after.runtimes r).admitted = (loop.runtimes r).admitted) : Admitted after := by
  intro i a ha hundone
  rw [h a.runtime]
  exact hloop i a (hactions ▸ ha) hundone

theorem Admitted.setAction {task : Nat} {stage : Stage} {action : ActionTask} (hloop : Admitted loop)
    (hfound : loop.actions[task]? = some action) (hstage : action.stage ≠ .done) :
    Admitted (loop.setAction task stage) := by
  intro i b hb hundone
  obtain ⟨a, ha, hruntime, ⟨rfl, -⟩ | ⟨-, rfl⟩⟩ := setAction_some hb
  · cases hfound.symm.trans ha
    rw [hruntime]
    exact hloop i action hfound hstage
  · exact hloop i b ha hundone

theorem Stepped.admission (h : Stepped loop after) (hloop : Admitted loop) : Admitted after := by
  cases h with
  | quiet hquiet => exact hquiet.admitted hloop
  | admitted hstage hadmission hquiet =>
    rename_i action
    refine hquiet.admitted fun i a ha hundone => ?_
    unfold admitAction
    by_cases hr : a.runtime = action.runtime
    · rw [hr, modify_self, Finset.mem_insert]
      obtain hold | ⟨hi, -⟩ := append_some ha
      · exact Or.inr (hr ▸ hloop i a hold hundone)
      · exact Or.inl hi
    · rw [modify_of_ne _ hr]
      obtain hold | ⟨-, rfl⟩ := append_some ha
      · exact hloop i a hold hundone
      · exact absurd rfl hr
  | began hfound hstage hfree hquiet =>
    refine hquiet.admitted ?_
    have hset : Admitted (loop.setAction _ .preparing) :=
      hloop.setAction hfound (by rw [hstage]; nofun)
    exact hset.same rfl fun _ => rfl
  | advanced hfound hholds hnext hquiet =>
    exact hquiet.admitted (hloop.setAction hfound (ne_done_of_holds hholds))
  | finished hfound hholds hquiet =>
    rename_i task action
    refine hquiet.admitted fun i b hb hundone => ?_
    obtain ⟨a, ha, -, ⟨-, hdone⟩ | ⟨hne, rfl⟩⟩ := setAction_some hb
    · exact absurd hdone hundone
    · have hi := hloop i b ha hundone
      by_cases hr : b.runtime = action.runtime
      · rw [hr, modify_self]
        exact Finset.mem_erase.mpr ⟨hne, hr ▸ hi⟩
      · rw [modify_of_ne _ hr]
        exact hi
  | guard => exact hloop.same rfl fun _ => rfl
  | closing => exact hloop.same rfl (modify_field fun _ => rfl)
  | called => exact hloop.same rfl (modify_field fun _ => rfl)
  | entered => exact hloop.same rfl (modify_field fun _ => rfl)
  | late => exact hloop.same rfl fun _ => rfl
  | waited => exact hloop.same rfl fun _ => rfl
  | relocked => exact hloop.same rfl fun _ => rfl
  | returned hfound hstage hquiet =>
    exact hquiet.admitted (hloop.same rfl (modify_field fun _ => rfl))
  | raised hfound hholds hquiet =>
    exact hquiet.admitted (hloop.same rfl (modify_field fun _ => rfl))

/-! ## Closing -/

/-- No action of the runtime is in progress. -/
def Drained (loop : Loop) (r : Nat) : Prop :=
  ∀ (i : Nat) (a : ActionTask), loop.actions[i]? = some a → a.runtime = r → a.stage = .done

/-- The call of `async_close` waits for all actions that are left, or there are none. -/
def Drains (loop : Loop) (close : Close) : Prop :=
  match close.stage with
  | .draining admitted _ => ∀ (i : Nat) (a : ActionTask), loop.actions[i]? = some a →
      a.runtime = close.runtime → a.stage ≠ .done → i ∈ admitted
  | .reaping _ => Drained loop close.runtime
  | .locking => Drained loop close.runtime
  | .saving => Drained loop close.runtime
  | _ => True

/-- What the calls of `async_close` that are `closes` have achieved. -/
structure Closing (loop : Loop) : Prop where
  closing : ∀ (c : Nat) (cl : Close), loop.closes[c]? = some cl →
    (loop.runtimes cl.runtime).closing = true
  entered : ∀ (c : Nat) (cl : Close), loop.closes[c]? = some cl → cl.stage.holds →
    (loop.runtimes cl.runtime).closeLock = some c
  drains : ∀ (c : Nat) (cl : Close), loop.closes[c]? = some cl → Drains loop cl
  closed : ∀ r, (loop.runtimes r).closed = true → (loop.runtimes r).closing = true ∧
    Drained loop r ∧ (loop.runtimes r).closeLock = none
  returned : ∀ (c : Nat) (cl : Close), loop.closes[c]? = some cl → cl.stage = .returned →
    (loop.runtimes cl.runtime).closed = true

theorem modify_closing {runtime r : Nat} {f : Runtime → Runtime}
    (hf : ∀ state, state.closing = true → (f state).closing = true)
    (h : (loop.runtimes r).closing = true) : ((loop.modify runtime f).runtimes r).closing = true := by
  by_cases heq : r = runtime
  · subst heq
    rw [modify_self]
    exact hf _ h
  · rw [modify_of_ne f heq]
    exact h

theorem Stepped.closing_mono (h : Stepped loop after) {r : Nat}
    (hr : (loop.runtimes r).closing = true) : (after.runtimes r).closing = true := by
  cases h with
  | quiet hquiet => rw [(hquiet.runtimes r).closing, hr]
  | admitted hstage hadmission hquiet =>
    rw [(hquiet.runtimes r).closing]
    unfold admitAction
    exact modify_closing (fun _ h => h) hr
  | began hfound hstage hfree hquiet =>
    rw [(hquiet.runtimes r).closing]
    exact hr
  | advanced hfound hholds hnext hquiet =>
    rw [(hquiet.runtimes r).closing]
    exact hr
  | finished hfound hholds hquiet =>
    rw [(hquiet.runtimes r).closing]
    exact modify_closing (fun _ h => h) hr
  | guard | late | waited | relocked => exact hr
  | closing => exact modify_closing (fun _ _ => rfl) hr
  | called => exact modify_closing (fun _ _ => rfl) hr
  | entered => exact modify_closing (fun _ h => h) hr
  | returned hfound hstage hquiet =>
    rw [(hquiet.runtimes r).closing]
    exact modify_closing (fun _ h => h) hr
  | raised hfound hholds hquiet =>
    rw [(hquiet.runtimes r).closing]
    exact modify_closing (fun _ h => h) hr

theorem Stepped.undone_of_closing (h : Stepped loop after) {r i : Nat} {b : ActionTask}
    (hr : (loop.runtimes r).closing = true) (hb : after.actions[i]? = some b) (hruntime : b.runtime = r)
    (hundone : b.stage ≠ .done) :
    ∃ a, loop.actions[i]? = some a ∧ a.runtime = r ∧ a.stage ≠ .done := by
  obtain ⟨a, ha, hsame, hstage⟩ | ⟨-, hopen⟩ := h.undone hb hundone
  · exact ⟨a, ha, hsame.symm.trans hruntime, hstage⟩
  · rw [hruntime, hr] at hopen
    cases hopen

/-- A closing runtime stays drained. -/
theorem Stepped.drained (h : Stepped loop after) {r : Nat} (hr : (loop.runtimes r).closing = true)
    (hdrained : Drained loop r) : Drained after r := by
  intro i b hb hruntime
  by_contra hundone
  obtain ⟨a, ha, hsame, hstage⟩ := h.undone_of_closing hr hb hruntime hundone
  exact hstage (hdrained i a ha hsame)

theorem Stepped.drains (h : Stepped loop after) {close : Close}
    (hr : (loop.runtimes close.runtime).closing = true) (hdrains : Drains loop close) :
    Drains after close := by
  unfold Drains at hdrains ⊢
  split at hdrains
  · intro i b hb hruntime hundone
    obtain ⟨a, ha, hsame, hstage⟩ := h.undone_of_closing hr hb hruntime hundone
    exact hdrains i a ha hsame hstage
  · exact h.drained hr hdrains
  · exact h.drained hr hdrains
  · exact h.drained hr hdrains
  · trivial

theorem Closing.same (hloop : Closing loop) (h : Stepped loop after)
    (hcloses : after.closes = loop.closes)
    (hlock : ∀ r, (after.runtimes r).closeLock = (loop.runtimes r).closeLock)
    (hclosed : ∀ r, (after.runtimes r).closed = (loop.runtimes r).closed) : Closing after := by
  constructor
  · intro c cl hcl
    exact h.closing_mono (hloop.closing c cl (hcloses ▸ hcl))
  · intro c cl hcl hholds
    rw [hlock]
    exact hloop.entered c cl (hcloses ▸ hcl) hholds
  · intro c cl hcl
    rw [hcloses] at hcl
    exact h.drains (hloop.closing c cl hcl) (hloop.drains c cl hcl)
  · intro r hr
    rw [hclosed] at hr
    obtain ⟨hclosing, hdrained, hnone⟩ := hloop.closed r hr
    exact ⟨h.closing_mono hclosing, h.drained hclosing hdrained, (hlock r).trans hnone⟩
  · intro c cl hcl hreturned
    rw [hclosed]
    exact hloop.returned c cl (hcloses ▸ hcl) hreturned

/-- A new call of `async_close`. -/
theorem Closing.call (hloop : Closing loop) (h : Stepped loop after) {runtime : Nat}
    (hcloses : after.closes = loop.closes ++ [⟨runtime, .waiting⟩])
    (hclosing : (after.runtimes runtime).closing = true)
    (hlock : ∀ r, (after.runtimes r).closeLock = (loop.runtimes r).closeLock)
    (hclosed : ∀ r, (after.runtimes r).closed = (loop.runtimes r).closed) : Closing after := by
  constructor
  · intro c cl hcl
    obtain hold | ⟨-, rfl⟩ := append_some (hcloses ▸ hcl)
    · exact h.closing_mono (hloop.closing c cl hold)
    · exact hclosing
  · intro c cl hcl hholds
    obtain hold | ⟨-, rfl⟩ := append_some (hcloses ▸ hcl)
    · rw [hlock]
      exact hloop.entered c cl hold hholds
    · cases hholds
  · intro c cl hcl
    obtain hold | ⟨-, rfl⟩ := append_some (hcloses ▸ hcl)
    · exact h.drains (hloop.closing c cl hold) (hloop.drains c cl hold)
    · trivial
  · intro r hr
    rw [hclosed] at hr
    obtain ⟨hclosing, hdrained, hnone⟩ := hloop.closed r hr
    exact ⟨h.closing_mono hclosing, h.drained hclosing hdrained, (hlock r).trans hnone⟩
  · intro c cl hcl hreturned
    obtain hold | ⟨-, rfl⟩ := append_some (hcloses ▸ hcl)
    · rw [hclosed]
      exact hloop.returned c cl hold hreturned
    · cases hreturned

/-- A call of `async_close` moves to `stage`. -/
theorem Closing.moves (hloop : Closing loop) (h : Stepped loop after) {call : Nat} {close : Close}
    {stage : CloseStage} (hfound : loop.closes[call]? = some close)
    (hcloses : after.closes = (loop.setClose call stage).closes)
    (hentered : stage.holds → (after.runtimes close.runtime).closeLock = some call)
    (hothers : ∀ c cl, c ≠ call → loop.closes[c]? = some cl → cl.stage.holds →
      (after.runtimes cl.runtime).closeLock = some c)
    (hdrains : Drains after ⟨close.runtime, stage⟩)
    (hclosed : ∀ r, (after.runtimes r).closed = true → (after.runtimes r).closeLock = none ∧
      ((loop.runtimes r).closed = true ∨ r = close.runtime ∧ Drained after r))
    (hmono : ∀ r, (loop.runtimes r).closed = true → (after.runtimes r).closed = true)
    (hreturned : stage = .returned → (after.runtimes close.runtime).closed = true) :
    Closing after := by
  constructor
  · intro c d hd
    rw [hcloses] at hd
    obtain ⟨cl, hcl, hruntime, -⟩ := setClose_some hd
    rw [hruntime]
    exact h.closing_mono (hloop.closing c cl hcl)
  · intro c d hd hholds
    rw [hcloses] at hd
    obtain ⟨cl, hcl, hruntime, ⟨rfl, hstage⟩ | ⟨hne, rfl⟩⟩ := setClose_some hd
    · cases hfound.symm.trans hcl
      rw [hruntime]
      exact hentered (hstage ▸ hholds)
    · exact hothers c d hne hcl hholds
  · intro c d hd
    rw [hcloses] at hd
    obtain ⟨cl, hcl, hruntime, ⟨rfl, hstage⟩ | ⟨hne, rfl⟩⟩ := setClose_some hd
    · cases hfound.symm.trans hcl
      obtain ⟨runtime, stage'⟩ := d
      subst hruntime hstage
      exact hdrains
    · exact h.drains (hloop.closing c d hcl) (hloop.drains c d hcl)
  · intro r hr
    obtain ⟨hnone, hold | ⟨rfl, hdrained⟩⟩ := hclosed r hr
    · obtain ⟨hclosing, hdrained, -⟩ := hloop.closed r hold
      exact ⟨h.closing_mono hclosing, h.drained hclosing hdrained, hnone⟩
    · exact ⟨h.closing_mono (hloop.closing call close hfound), hdrained, hnone⟩
  · intro c d hd hdone
    rw [hcloses] at hd
    obtain ⟨cl, hcl, hruntime, ⟨rfl, hstage⟩ | ⟨hne, rfl⟩⟩ := setClose_some hd
    · cases hfound.symm.trans hcl
      rw [hruntime]
      exact hreturned (hstage.symm.trans hdone)
    · exact hmono _ (hloop.returned c d hcl hdone)

/-- A call that waits has achieved what it waited for. -/
theorem Waited.drains {close : Close} {stage : CloseStage} (h : Waited loop close stage)
    (hadmitted : Admitted loop) (hdrains : Drains loop close) :
    close.stage.holds ∧ Drains loop ⟨close.runtime, stage⟩ := by
  cases h with
  | joining hstage => exact ⟨by rw [hstage]; rfl, trivial⟩
  | draining hholds _ =>
    refine ⟨hholds, fun i a ha hruntime hundone => ?_⟩
    rw [← hruntime]
    exact hadmitted i a ha hundone
  | reaping hstage hdone =>
    refine ⟨by rw [hstage]; rfl, fun i a ha hruntime => ?_⟩
    by_contra hundone
    unfold Drains at hdrains
    rw [hstage] at hdrains
    have hdone := hdone i (hdrains i a ha hruntime hundone)
    unfold isDone at hdone
    rw [ha, Option.any_some, decide_eq_true_eq] at hdone
    exact hundone hdone
  | locking hstage =>
    unfold Drains at hdrains
    rw [hstage] at hdrains
    exact ⟨by rw [hstage]; rfl, hdrains⟩

theorem Stepped.torndown (h : Stepped loop after) (hadmitted : Admitted loop)
    (hloop : Closing loop) : Closing after := by
  have hstep := h
  cases h with
  | quiet hquiet =>
    exact hloop.same hstep hquiet.closes (fun r => (hquiet.runtimes r).closeLock) fun r =>
      (hquiet.runtimes r).closed
  | admitted hstage hadmission hquiet =>
    refine hloop.same hstep hquiet.closes (fun r => ?_) fun r => ?_
    · rw [(hquiet.runtimes r).closeLock]
      exact modify_field (g := Runtime.closeLock) (by intro _; rfl) r
    · rw [(hquiet.runtimes r).closed]
      exact modify_field (g := Runtime.closed) (by intro _; rfl) r
  | began hfound hstage hfree hquiet =>
    exact hloop.same hstep hquiet.closes (fun r => (hquiet.runtimes r).closeLock) fun r =>
      (hquiet.runtimes r).closed
  | advanced hfound hholds hnext hquiet =>
    exact hloop.same hstep hquiet.closes (fun r => (hquiet.runtimes r).closeLock) fun r =>
      (hquiet.runtimes r).closed
  | finished hfound hholds hquiet =>
    refine hloop.same hstep hquiet.closes (fun r => ?_) fun r => ?_
    · rw [(hquiet.runtimes r).closeLock]
      exact modify_field (g := Runtime.closeLock) (by intro _; rfl) r
    · rw [(hquiet.runtimes r).closed]
      exact modify_field (g := Runtime.closed) (by intro _; rfl) r
  | guard => exact hloop.same hstep rfl (fun _ => rfl) fun _ => rfl
  | closing => exact hloop.same hstep rfl (modify_field fun _ => rfl) (modify_field fun _ => rfl)
  | called =>
    refine hloop.call hstep rfl ?_ (fun r => ?_) fun r => ?_
    · rw [modify_self]
    · exact modify_field (g := Runtime.closeLock) (by intro _; rfl) r
    · exact modify_field (g := Runtime.closed) (by intro _; rfl) r
  | entered hfound hstage hfree hopen =>
    rename_i call close f
    refine hloop.moves hstep hfound rfl (fun _ => ?_) (fun c cl hne hcl hholds => ?_) trivial
      (fun r hr => ?_) (fun r hr => ?_) nofun
    · rw [modify_self]
    · have hc := hloop.entered c cl hcl hholds
      by_cases hruntime : cl.runtime = close.runtime
      · rw [hruntime, hfree] at hc
        cases hc
      · rw [modify_of_ne _ hruntime]
        exact hc
    · by_cases hruntime : r = close.runtime
      · rw [hruntime, modify_self] at hr
        exact absurd (hr.symm.trans hopen) nofun
      · rw [modify_of_ne _ hruntime] at hr ⊢
        exact ⟨(hloop.closed r hr).2.2, Or.inl hr⟩
    · by_cases hruntime : r = close.runtime
      · rw [hruntime, hopen] at hr
        cases hr
      · rw [modify_of_ne _ hruntime]
        exact hr
  | late hfound hstage hclosed =>
    refine hloop.moves hstep hfound rfl nofun (fun c cl _ hcl => hloop.entered c cl hcl) trivial
      (fun r hr => ⟨(hloop.closed r hr).2.2, Or.inl hr⟩) (fun _ => id) fun _ => hclosed
  | waited hfound hwaited =>
    rename_i call close stage
    obtain ⟨hholds, hdrains⟩ := hwaited.drains hadmitted (hloop.drains call close hfound)
    refine hloop.moves hstep hfound rfl (fun _ => hloop.entered call close hfound hholds)
      (fun c cl _ hcl => hloop.entered c cl hcl) ?_
      (fun r hr => ⟨(hloop.closed r hr).2.2, Or.inl hr⟩) (fun _ => id) ?_
    · exact hdrains
    · rintro rfl
      cases hwaited
  | relocked hfound hstage hfree =>
    rename_i call close
    have hdrains := hloop.drains call close hfound
    unfold Drains at hdrains
    rw [hstage] at hdrains
    refine hloop.moves hstep hfound rfl (fun _ => hloop.entered call close hfound (by rw [hstage]; rfl))
      (fun c cl _ hcl => hloop.entered c cl hcl) hdrains
      (fun r hr => ⟨(hloop.closed r hr).2.2, Or.inl hr⟩) (fun _ => id) nofun
  | returned hfound hstage hquiet =>
    rename_i call close
    have hheld := hloop.entered call close hfound (by rw [hstage]; rfl)
    have hdrained : Drained after close.runtime := by
      have hdrains := hloop.drains call close hfound
      unfold Drains at hdrains
      rw [hstage] at hdrains
      exact hstep.drained (hloop.closing call close hfound) hdrains
    refine hloop.moves hstep hfound hquiet.closes nofun (fun c cl hne hcl hholds => ?_) trivial
      (fun r hr => ?_) (fun r hr => ?_) fun _ => ?_
    · have hc := hloop.entered c cl hcl hholds
      rw [(hquiet.runtimes _).closeLock]
      by_cases hruntime : cl.runtime = close.runtime
      · rw [hruntime, hheld] at hc
        exact absurd (Option.some_inj.mp hc).symm hne
      · rw [modify_of_ne _ hruntime]
        exact hc
    · rw [(hquiet.runtimes r).closed] at hr
      rw [(hquiet.runtimes r).closeLock]
      by_cases hruntime : r = close.runtime
      · rw [hruntime, modify_self]
        exact ⟨rfl, Or.inr ⟨rfl, hdrained⟩⟩
      · rw [modify_of_ne _ hruntime] at hr ⊢
        exact ⟨(hloop.closed r hr).2.2, Or.inl hr⟩
    · rw [(hquiet.runtimes r).closed]
      by_cases hruntime : r = close.runtime
      · rw [hruntime, modify_self]
      · rw [modify_of_ne _ hruntime]
        exact hr
    · rw [(hquiet.runtimes _).closed, modify_self]
  | raised hfound hholds hquiet =>
    rename_i call close
    have hheld := hloop.entered call close hfound hholds
    have hclosed (r : Nat) : (after.runtimes r).closed = (loop.runtimes r).closed := by
      rw [(hquiet.runtimes r).closed]
      exact modify_field (g := Runtime.closed) (by intro _; rfl) r
    refine hloop.moves hstep hfound hquiet.closes nofun (fun c cl hne hcl hholds => ?_) trivial
      (fun r hr => ?_) (fun r hr => ?_) nofun
    · have hc := hloop.entered c cl hcl hholds
      rw [(hquiet.runtimes _).closeLock]
      by_cases hruntime : cl.runtime = close.runtime
      · rw [hruntime, hheld] at hc
        exact absurd (Option.some_inj.mp hc).symm hne
      · rw [modify_of_ne _ hruntime]
        exact hc
    · rw [hclosed] at hr
      have hnone := (hloop.closed r hr).2.2
      refine ⟨?_, Or.inl hr⟩
      rw [(hquiet.runtimes r).closeLock]
      by_cases hruntime : r = close.runtime
      · rw [hruntime, modify_self]
      · rw [modify_of_ne _ hruntime]
        exact hnone
    · rw [hclosed]
      exact hr

end Loop

end Hapatchy.Tasks
