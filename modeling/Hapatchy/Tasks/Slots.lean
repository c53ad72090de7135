import Hapatchy.Tasks.Debounce

/-!
# Slots

A patch has a slot in `_running`, which its check frees when it ends. `_fire`
fills the slot after it has created the task of the check, so a check that
ends where it is created leaves its slot behind.
-/

namespace Hapatchy.Tasks

/-! ## Runtimes -/

namespace Runtime

variable (runtime : Runtime) (patchId : Text)

@[simp] theorem running_debounce :
    (runtime.debounce patchId).watcher.running = runtime.watcher.running := by
  unfold debounce
  split
  · rfl
  · split <;> rfl

@[simp] theorem running_debounces (patchIds : List Text) :
    (patchIds.foldl debounce runtime).watcher.running = runtime.watcher.running := by
  induction patchIds generalizing runtime with
  | nil => rfl
  | cons q patchIds ih => rw [List.foldl_cons, ih, running_debounce]

@[simp] theorem running_actionComplete :
    (runtime.actionComplete patchId).watcher.running = runtime.watcher.running := by
  unfold actionComplete
  split
  · rw [running_debounce]
    rfl
  · rfl

@[simp] theorem running_handleEvent (patchIds : List Text) :
    (runtime.handleEvent patchIds).watcher.running = runtime.watcher.running := by
  unfold handleEvent
  split
  · rfl
  · exact running_debounces runtime patchIds

@[simp] theorem running_actionFinished (task : Nat) :
    (runtime.actionFinished task patchId).watcher.running = runtime.watcher.running :=
  running_actionComplete _ patchId

@[simp] theorem running_checkFinished :
    (runtime.checkFinished patchId).watcher.running = runtime.watcher.running.erase patchId :=
  running_actionComplete _ patchId

end Runtime

namespace Loop

open Hapatchy.Tasks.Runtime

variable {loop after : Loop} {r : Nat} {p : Text}

/-! ## Moves without callers -/

/-- The moves that are about a caller, or call `async_close`. -/
def Move.calls : Move → Bool
  | .call .. | .schedule .. | .start _ | .resume _ | .cancel _ | .fire .. | .close _ => true
  | _ => false

/-- The callers, the slots and the calls of `async_close` are as they were. -/
structure Still (loop after : Loop) : Prop where
  callers : after.callers = loop.callers
  running : ∀ r, (after.runtimes r).watcher.running = (loop.runtimes r).watcher.running
  closes : after.closes.map Close.runtime = loop.closes.map Close.runtime

theorem Still.trans {last : Loop} (h : Still loop after) (h' : Still after last) : Still loop last :=
  ⟨h'.callers.trans h.callers, fun r => (h'.running r).trans (h.running r), h'.closes.trans h.closes⟩

theorem running_modify {runtime : Nat} {f : Runtime → Runtime}
    (h : ∀ state, (f state).watcher.running = state.watcher.running) (r : Nat) :
    ((loop.modify runtime f).runtimes r).watcher.running = (loop.runtimes r).watcher.running :=
  modify_field (g := fun state => state.watcher.running) h r

theorem still_modify {f : Runtime → Runtime} (runtime : Nat)
    (h : ∀ state, (f state).watcher.running = state.watcher.running) :
    Still loop (loop.modify runtime f) :=
  ⟨rfl, running_modify h, rfl⟩

theorem still_of_eq (hcallers : after.callers = loop.callers) (hruntimes : after.runtimes = loop.runtimes)
    (hcloses : after.closes = loop.closes) : Still loop after := by
  refine ⟨hcallers, fun r => ?_, ?_⟩
  · rw [hruntimes]
  · rw [hcloses]

/-- A runtime changes, and what callers do not see. -/
theorem still_base {base : Loop} {runtime : Nat} {f : Runtime → Runtime}
    (hcallers : base.callers = loop.callers) (hruntimes : base.runtimes = loop.runtimes)
    (hcloses : base.closes = loop.closes)
    (h : ∀ state, (f state).watcher.running = state.watcher.running) :
    Still loop (base.modify runtime f) :=
  (still_of_eq hcallers hruntimes hcloses).trans (still_modify runtime h)

theorem still_setClose (call : Nat) (stage : CloseStage) : Still loop (loop.setClose call stage) := by
  refine ⟨rfl, fun _ => rfl, ?_⟩
  unfold setClose
  apply List.ext_getElem?
  intro i
  by_cases hi : call = i
  · subst hi
    rw [List.getElem?_map, List.getElem?_map, List.getElem?_modify_eq]
    cases loop.closes[call]? <;> rfl
  · rw [List.getElem?_map, List.getElem?_map, List.getElem?_modify_ne _ _ hi]

theorem still_leave (call : Nat) (close : Close) (stage : CloseStage) :
    Still loop (loop.leave call close stage) :=
  (still_setClose call stage).trans (still_modify _ fun _ => rfl)

theorem still_finish (task : Nat) (action : ActionTask) : Still loop (loop.finish task action) := by
  unfold finish
  exact still_base rfl rfl rfl fun _ => running_actionFinished ..

theorem still_conclude (task : Nat) (action : ActionTask) (result : ReconcileResult)
    (update : Update) : Still loop (loop.conclude task action result update) := by
  unfold conclude
  split
  · cases update with
    | done => exact still_base rfl rfl rfl fun _ => rfl
    | failed => exact still_base rfl rfl rfl fun _ => rfl
    | raised => exact still_finish ..
  · exact still_of_eq rfl rfl rfl

theorem still_executeAction (task : Nat) (action : ActionTask) :
    Still loop (loop.executeAction task action) := by
  unfold executeAction
  split
  · exact still_base rfl rfl rfl fun _ => rfl
  · exact still_finish ..

theorem still {move : Move} (h : loop.step move = some after) (hmove : Move.calls move = false) :
    Still loop after := by
  cases move with
  | call => cases hmove
  | schedule => cases hmove
  | start => cases hmove
  | resume => cases hmove
  | cancel => cases hmove
  | fire => cases hmove
  | close => cases hmove
  | begin task =>
    obtain ⟨action, -, h⟩ := Option.bind_eq_some_iff.mp h
    split at h
    · cases h
      exact still_executeAction task action
    · cases h
  | prepared task =>
    obtain ⟨action, -, -, h⟩ := advance_eq_some.mp h
    split at h
    · cases h
      exact still_of_eq rfl rfl rfl
    · cases h
  | returned task result update =>
    obtain ⟨action, -, -, h⟩ := advance_eq_some.mp h
    split at h
    · cases h
      exact still_conclude task action result update
    · cases h
  | write task =>
    obtain ⟨action, -, -, h⟩ := advance_eq_some.mp h
    split at h
    · cases h
      exact still_of_eq rfl rfl rfl
    · cases h
  | recorded task =>
    obtain ⟨action, -, -, h⟩ := advance_eq_some.mp h
    dsimp only at h
    split at h
    · cases h
      exact still_of_eq rfl rfl rfl
    · cases h
  | saved task =>
    obtain ⟨action, -, -, h⟩ := advance_eq_some.mp h
    split at h
    · cases h
      have hlogged : Still loop { loop with log := loop.log ++ [Entry.saved (.action task)] } :=
        still_of_eq rfl rfl rfl
      exact hlogged.trans (still_finish task action)
    · cases h
  | raised task =>
    obtain ⟨action, -, -, h⟩ := advance_eq_some.mp h
    cases h
    exact still_finish task action
  | event runtime patchIds =>
    cases h
    exact still_modify _ fun _ => running_handleEvent ..
  | directoryEvent runtime refresh =>
    unfold step at h
    simp only at h
    split at h
    · cases h
    · cases h
      exact still_modify _ fun _ => rfl
  | refreshed runtime refresh =>
    cases h
    exact still_modify _ fun _ => rfl
  | recovered runtime patchIds =>
    cases h
    exact still_modify _ fun _ => running_debounces ..
  | submit runtime worker =>
    cases h
    exact still_modify _ fun _ => rfl
  | complete runtime worker =>
    cases h
    exact still_modify _ fun _ => rfl
  | guard =>
    unfold step at h
    simp only at h
    split at h
    · cases h
      exact still_of_eq rfl rfl rfl
    · cases h
  | unguard =>
    unfold step at h
    simp only at h
    split at h
    · cases h
      exact still_of_eq rfl rfl rfl
    · cases h
  | edit runtime current =>
    cases h
    exact still_modify _ fun _ => rfl
  | setClosing runtime closing =>
    cases h
    exact still_modify _ fun _ => rfl
  | enter call =>
    obtain ⟨close, -, h⟩ := Option.bind_eq_some_iff.mp h
    simp only at h
    split at h
    · cases h
    · split at h
      · cases h
        exact still_setClose ..
      · cases h
        exact (still_setClose ..).trans (still_modify _ fun _ => rfl)
  | stopped call =>
    obtain ⟨close, -, -, h⟩ := advanceClose_eq_some.mp h
    dsimp only at h
    split at h
    · cases h
      exact still_setClose ..
    · cases h
  | joined call =>
    obtain ⟨close, -, -, h⟩ := advanceClose_eq_some.mp h
    dsimp only at h
    split at h
    · split at h
      · cases h
        exact still_setClose ..
      · cases h
    · cases h
  | drained call =>
    obtain ⟨close, -, -, h⟩ := advanceClose_eq_some.mp h
    split at h
    · split at h
      · cases h
        exact still_setClose ..
      · cases h
    · cases h
  | reaped call =>
    obtain ⟨close, -, -, h⟩ := advanceClose_eq_some.mp h
    split at h
    · split at h
      · cases h
        exact still_setClose ..
      · cases h
    · cases h
  | relock call =>
    obtain ⟨close, -, -, h⟩ := advanceClose_eq_some.mp h
    split at h
    · cases h
      exact (still_setClose ..).trans (still_of_eq rfl rfl rfl)
    · cases h
  | closeSaved call =>
    obtain ⟨close, -, -, h⟩ := advanceClose_eq_some.mp h
    split at h
    · cases h
      exact (still_leave call close .returned).trans (still_base rfl rfl rfl fun _ => rfl)
    · cases h
  | closeRaised call =>
    obtain ⟨close, -, -, h⟩ := advanceClose_eq_some.mp h
    cases h
    exact (still_leave call close .raised).trans (still_of_eq rfl rfl rfl)

/-! ## Eager tasks -/

/-- A move of a loop where a task runs up to its first `await` where it is created. -/
inductive EagerMove where
  /-- Any move, with a check at once if it is a timer. -/
  | move (move : Move)
  /-- A timer runs `_fire`, and the action of its check raises before its first `await`. -/
  | fireRaised (runtime : Nat) (patchId : Text)
  deriving DecidableEq

/-- `_fire` where the executor refuses the first job of the action. -/
def fireRaised (loop : Loop) (runtime : Nat) (patchId : Text) : Option Loop := do
  let fired := loop.modify runtime (·.timerFired patchId)
  let state := fired.runtimes runtime
  if patchId ∉ (loop.runtimes runtime).watcher.pending ∨ state.watcher.closed ∨ state.closing ∨
      patchId ∈ state.busy then none
  else
    let index := loop.callers.length
    let caller : Caller := ⟨.check, runtime, patchId, .reconcile, .created⟩
    let called := (fired.addCaller caller).asyncAction index caller
    let begun ← called.step (.begin loop.actions.length)
    let raised ← begun.step (.raised loop.actions.length)
    let ended ← raised.step (.resume index)
    some (ended.modify runtime (·.checkCreated patchId index))

def stepEager (loop : Loop) : EagerMove → Option Loop
  | .move (.fire _ _ false) => none
  | .move move => loop.step move
  | .fireRaised runtime patchId => loop.fireRaised runtime patchId

/-! ## Slots -/

/-- A patch is in `_running` only while its check is not over. -/
def Slots (loop : Loop) : Prop :=
  ∀ r p i, (loop.runtimes r).watcher.running.lookup p = some i →
    ∃ caller, loop.callers[i]? = some caller ∧ caller.stage ≠ .ended

/-- A timer that starts a check starts one whose action is admitted, and runs. -/
def Admits (loop : Loop) : EagerMove → Prop
  | .move (.fire r p _) =>
    let state := loop.runtimes r
    state.watcher.closed ∨ state.closing ∨ p ∈ state.busy ∨
      (p ∈ state.current ∧ p ∉ state.suppressReapply)
  | .fireRaised _ _ => False
  | _ => True

instance (move : EagerMove) : Decidable (Admits loop move) := by
  unfold Admits
  split <;> infer_instance

/-- The slots are those of checks that wait for their actions. -/
structure Slotted (loop : Loop) : Prop where
  running : ∀ r p i, (loop.runtimes r).watcher.running.lookup p = some i →
    ∃ caller, loop.callers[i]? = some caller ∧ caller.kind = .check ∧ caller.runtime = r ∧
      caller.patchId = p ∧ caller.stage ≠ .ended
  checks : ∀ (i : Nat) (caller : Caller), loop.callers[i]? = some caller → caller.kind = .check →
    caller.stage ≠ .created

theorem Slotted.slots (h : Slotted loop) : Slots loop := by
  intro r p i hi
  obtain ⟨caller, hcaller, -, -, -, hstage⟩ := h.running r p i hi
  exact ⟨caller, hcaller, hstage⟩

theorem Slotted.still (h : Slotted loop) (hstill : Still loop after) : Slotted after := by
  constructor
  · intro r p i hi
    rw [hstill.running] at hi
    rw [hstill.callers]
    exact h.running r p i hi
  · rw [hstill.callers]
    exact h.checks

/-- A caller that is no check is new. -/
theorem Slotted.append (h : Slotted loop) {caller : Caller} (hkind : caller.kind ≠ .check)
    (hcallers : after.callers = loop.callers ++ [caller])
    (hrunning : ∀ r, (after.runtimes r).watcher.running = (loop.runtimes r).watcher.running) :
    Slotted after := by
  constructor
  · intro r p i hi
    rw [hrunning] at hi
    obtain ⟨c, hc, hrest⟩ := h.running r p i hi
    refine ⟨c, ?_, hrest⟩
    rw [hcallers, List.getElem?_append_left (List.getElem?_eq_some_iff.mp hc).1, hc]
  · intro i c hc hcheck
    obtain hold | ⟨-, rfl⟩ := append_some (hcallers ▸ hc)
    · exact h.checks i c hold hcheck
    · exact absurd hcheck hkind

/-- A caller is over, and frees its slot. -/
theorem Slotted.endCaller (h : Slotted loop) {index : Nat} {caller : Caller} {ran : Bool}
    (hfound : loop.callers[index]? = some caller) (hran : caller.kind = .check → ran = true) :
    Slotted (loop.endCaller index caller ran) := by
  have hcallers := (endCaller_eq loop index caller ran).1
  constructor
  · intro r p i hi
    have hslot : (loop.runtimes r).watcher.running.lookup p = some i ∧
        ¬ (caller.kind = .check ∧ caller.runtime = r ∧ caller.patchId = p) := by
      unfold Loop.endCaller at hi
      cases hkind : caller.kind with
      | service =>
        rw [hkind] at hi
        exact ⟨hi, nofun⟩
      | background =>
        rw [hkind] at hi
        rw [running_modify] at hi
        · exact ⟨hi, nofun⟩
        · exact fun _ => rfl
      | check =>
        rw [hkind, hran hkind] at hi
        by_cases hr : r = caller.runtime
        · subst hr
          dsimp only at hi
          rw [if_pos rfl, modify_self, running_checkFinished] at hi
          by_cases hp : p = caller.patchId
          · subst hp
            rw [AList.lookup_erase] at hi
            cases hi
          · rw [AList.lookup_erase_ne hp] at hi
            exact ⟨hi, fun hown => hp hown.2.2.symm⟩
        · dsimp only at hi
          rw [if_pos rfl, modify_of_ne _ hr] at hi
          exact ⟨hi, fun hown => hr hown.2.1.symm⟩
    obtain ⟨hi, hother⟩ := hslot
    obtain ⟨c, hc, hkind, hruntime, hpatch, hstage⟩ := h.running r p i hi
    refine ⟨c, ?_, hkind, hruntime, hpatch, hstage⟩
    rw [hcallers, setCaller_of_ne ?_, hc]
    rintro rfl
    cases hfound.symm.trans hc
    exact hother ⟨hkind, hruntime, hpatch⟩
  · intro i c hc hcheck
    rw [hcallers] at hc
    obtain ⟨d, hd, ⟨-, rfl⟩ | ⟨-, rfl⟩⟩ := setCaller_some hc
    · nofun
    · exact h.checks i c hd hcheck

/-- A caller that is no check calls `async_action`. -/
theorem Slotted.asyncAction (h : Slotted loop) {index : Nat} {caller : Caller}
    (hfound : loop.callers[index]? = some caller) (hkind : caller.kind ≠ .check) :
    Slotted (loop.asyncAction index caller) := by
  unfold Loop.asyncAction
  simp only
  split
  · exact h.endCaller hfound fun hcheck => absurd hcheck hkind
  · constructor
    · intro r p i hi
      have hrunning : (loop.runtimes r).watcher.running.lookup p = some i := by
        unfold setCaller admitAction at hi
        rw [running_modify] at hi
        · exact hi
        · exact fun _ => rfl
      obtain ⟨c, hc, hcheck, hrest⟩ := h.running r p i hrunning
      refine ⟨c, (setCaller_of_ne ?_).trans hc, hcheck, hrest⟩
      rintro rfl
      cases hfound.symm.trans hc
      exact hkind hcheck
    · intro i c hc hcheck
      obtain ⟨d, hd, ⟨-, rfl⟩ | ⟨-, rfl⟩⟩ := setCaller_some hc
      · nofun
      · exact h.checks i c hd hcheck

/-! ## Timers -/

/-- A check takes its slot and waits for its action. -/
theorem Slotted.started (h : Slotted loop) {task : Nat}
    (hcallers : after.callers = loop.callers ++ [⟨.check, r, p, .reconcile, .awaiting task⟩])
    (hself : (after.runtimes r).watcher.running =
      (loop.runtimes r).watcher.running.insert p loop.callers.length)
    (hother : ∀ q, q ≠ r → (after.runtimes q).watcher.running = (loop.runtimes q).watcher.running) :
    Slotted after := by
  have hkeep {q : Nat} {k : Text} {i : Nat} (hi : (loop.runtimes q).watcher.running.lookup k = some i) :
      ∃ caller, after.callers[i]? = some caller ∧ caller.kind = .check ∧ caller.runtime = q ∧
        caller.patchId = k ∧ caller.stage ≠ .ended := by
    obtain ⟨c, hc, hrest⟩ := h.running q k i hi
    refine ⟨c, ?_, hrest⟩
    rw [hcallers, List.getElem?_append_left (List.getElem?_eq_some_iff.mp hc).1, hc]
  constructor
  · intro q k i hi
    by_cases hq : q = r
    · subst hq
      rw [hself] at hi
      by_cases hk : k = p
      · subst hk
        rw [AList.lookup_insert] at hi
        cases hi
        refine ⟨⟨.check, q, k, .reconcile, .awaiting task⟩, ?_, rfl, rfl, rfl, nofun⟩
        rw [hcallers]
        exact List.getElem?_concat_length ..
      · rw [AList.lookup_insert_ne hk] at hi
        exact hkeep hi
    · rw [hother q hq] at hi
      exact hkeep hi
  · intro i c hc hcheck
    obtain hold | ⟨-, rfl⟩ := append_some (hcallers ▸ hc)
    · exact h.checks i c hold hcheck
    · nofun

theorem Slotted.fire (h : Slotted loop) (hadmits : Admits loop (.move (.fire r p true))) :
    Slotted (loop.fire r p true) := by
  have hfired : (loop.modify r (·.timerFired p)).runtimes r = (loop.runtimes r).timerFired p :=
    modify_self ..
  have htimer : Still loop (loop.modify r (·.timerFired p)) := still_modify _ fun _ => rfl
  unfold Loop.fire
  dsimp only
  rw [hfired]
  split
  · exact h.still htimer
  · rename_i hopen
    split
    · exact h.still (htimer.trans (still_modify _ fun _ => rfl))
    · rename_i hidle
      obtain ⟨hcurrent, hsuppressed⟩ : p ∈ (loop.runtimes r).current ∧
          p ∉ (loop.runtimes r).suppressReapply := by
        obtain hclosed | hclosing | hbusy | hadmitted := hadmits
        · exact absurd (Or.inl hclosed) hopen
        · exact absurd (Or.inr hclosing) hopen
        · exact absurd hbusy hidle
        · exact hadmitted
      rw [if_pos rfl]
      unfold Loop.asyncAction
      have hcreated : ((loop.modify r (·.timerFired p)).addCaller
          ⟨.check, r, p, .reconcile, .created⟩).runtimes r = (loop.runtimes r).timerFired p := hfired
      simp only
      rw [hcreated, if_neg (by
        rintro (hclosing | hnot | ⟨-, hsuppress⟩)
        · exact hopen (Or.inr hclosing)
        · exact hnot hcurrent
        · exact hsuppressed hsuppress)]
      refine @Slotted.started _ _ r p h loop.actions.length ?_ ?_ ?_
      · exact modify_concat loop.callers ⟨.check, r, p, .reconcile, .created⟩ fun c =>
          { c with stage := .awaiting loop.actions.length }
      · rw [modify_self]
        unfold checkCreated modifyWatcher setCaller Loop.admitAction
        rw [modify_self, hcreated]
        rfl
      · intro q hq
        rw [modify_of_ne _ hq]
        unfold setCaller Loop.admitAction
        rw [modify_of_ne _ hq]
        exact htimer.running q

/-- A slot whose check is over. -/
theorem not_slots_of_ended {i : Nat}
    (hslot : (loop.runtimes r).watcher.running.lookup p = some i)
    (hended : ∃ caller, loop.callers[i]? = some caller ∧ caller.stage = .ended) : ¬ Slots loop := by
  intro h
  obtain ⟨caller, hcaller, hended⟩ := hended
  obtain ⟨c, hc, hstage⟩ := h r p i hslot
  cases hcaller.symm.trans hc
  exact hstage hended

theorem lookup_checkCreated (index : Nat) :
    ((loop.modify r (·.checkCreated p index)).runtimes r).watcher.running.lookup p = some index := by
  rw [modify_self]
  exact AList.lookup_insert ..

/-- A check that is refused where it is created leaves its slot behind. -/
theorem not_slots_fire (h : ¬ Admits loop (.move (.fire r p true))) :
    ¬ Slots (loop.fire r p true) := by
  have hfired : (loop.modify r (·.timerFired p)).runtimes r = (loop.runtimes r).timerFired p :=
    modify_self ..
  unfold Admits at h
  dsimp only at h
  simp only [not_or] at h
  obtain ⟨hclosed, hclosing, hbusy, hrefused⟩ := h
  have hopen : ¬ (((loop.runtimes r).timerFired p).watcher.closed ∨
      ((loop.runtimes r).timerFired p).closing) := not_or.mpr ⟨hclosed, hclosing⟩
  have hidle : p ∉ ((loop.runtimes r).timerFired p).busy := hbusy
  unfold Loop.fire
  dsimp only
  rw [hfired, if_neg hopen, if_neg hidle, if_pos rfl]
  unfold Loop.asyncAction
  have hcreated : ((loop.modify r (·.timerFired p)).addCaller
      ⟨.check, r, p, .reconcile, .created⟩).runtimes r = (loop.runtimes r).timerFired p := hfired
  simp only
  rw [hcreated, if_pos ?_]
  · refine not_slots_of_ended (lookup_checkCreated _) ⟨⟨.check, r, p, .reconcile, .ended⟩, ?_, rfl⟩
    have hcallers := (endCaller_eq ((loop.modify r (·.timerFired p)).addCaller
      ⟨.check, r, p, .reconcile, .created⟩) loop.callers.length
        ⟨.check, r, p, .reconcile, .created⟩ true).1
    exact (congrArg (·[loop.callers.length]?) hcallers).trans
      (@setCaller_self _ _ _ ⟨.check, r, p, .reconcile, .created⟩ (List.getElem?_concat_length ..))
  · by_cases hcurrent : p ∈ (loop.runtimes r).current
    · exact Or.inr (Or.inr ⟨trivial, not_not.mp fun hnot => hrefused ⟨hcurrent, hnot⟩⟩)
    · exact Or.inr (Or.inl hcurrent)

theorem not_slots_fireRaised (h : loop.fireRaised r p = some after) : ¬ Slots after := by
  unfold fireRaised at h
  simp only at h
  split at h
  · cases h
  · obtain ⟨begun, -, h⟩ := Option.bind_eq_some_iff.mp h
    obtain ⟨raised, -, h⟩ := Option.bind_eq_some_iff.mp h
    obtain ⟨ended, hresume, h⟩ := Option.bind_eq_some_iff.mp h
    cases h
    obtain ⟨caller, hcaller, hresume⟩ := Option.bind_eq_some_iff.mp hresume
    split at hresume
    · split at hresume
      · cases hresume
        refine not_slots_of_ended (lookup_checkCreated _) ⟨{ caller with stage := .ended }, ?_, rfl⟩
        have hcallers := (endCaller_eq raised loop.callers.length caller true).1
        exact (congrArg (·[loop.callers.length]?) hcallers).trans (setCaller_self hcaller)
      · cases hresume
    · cases hresume

/-! ## Runs -/

theorem Slotted.step {move : EagerMove} (h : Slotted loop) (hstep : loop.stepEager move = some after)
    (hadmits : Admits loop move) : Slotted after := by
  cases move with
  | fireRaised => exact hadmits.elim
  | move move =>
    cases hcalls : Move.calls move with
    | false =>
      have hmove : loop.step move = some after := by
        cases move <;> first | exact hstep | cases hcalls
      exact h.still (Loop.still hmove hcalls)
    | true =>
      cases move with
      | call runtime patchId action =>
        cases hstep
        have hkind : (Caller.mk .service runtime patchId action .created).kind ≠ .check := nofun
        exact h.append hkind rfl fun _ => rfl
      | schedule runtime patchId =>
        unfold stepEager Loop.step at hstep
        simp only at hstep
        split at hstep
        · cases hstep
        · cases hstep
          have hkind : (Caller.mk .background runtime patchId .reconcile .created).kind ≠ .check :=
            nofun
          exact h.append hkind rfl
            (modify_field (g := fun state => state.watcher.running) (by intro _; rfl))
      | start index =>
        obtain ⟨caller, hfound, hstep⟩ := Option.bind_eq_some_iff.mp hstep
        split at hstep
        · rename_i hcreated
          cases hstep
          exact h.asyncAction hfound fun hcheck => h.checks index caller hfound hcheck hcreated
        · cases hstep
      | resume index =>
        obtain ⟨caller, hfound, hstep⟩ := Option.bind_eq_some_iff.mp hstep
        split at hstep
        · split at hstep
          · cases hstep
            exact h.endCaller hfound fun _ => rfl
          · cases hstep
        · cases hstep
      | cancel index =>
        obtain ⟨caller, hfound, hstep⟩ := Option.bind_eq_some_iff.mp hstep
        split at hstep
        · rename_i hcreated
          cases hstep
          exact h.endCaller hfound fun hcheck =>
            absurd hcreated (h.checks index caller hfound hcheck)
        · cases hstep
          exact h.endCaller hfound fun _ => rfl
        · cases hstep
      | fire runtime patchId eager =>
        cases eager with
        | false => cases hstep
        | true =>
          unfold stepEager Loop.step at hstep
          simp only at hstep
          split at hstep
          · cases hstep
            exact h.fire hadmits
          · cases hstep
      | close runtime =>
        cases hstep
        constructor
        · intro r p i hi
          rw [running_modify] at hi
          · exact h.running r p i hi
          · exact fun _ => rfl
        · exact h.checks
      | _ => cases hcalls

theorem not_slots {move : EagerMove} (hstep : loop.stepEager move = some after)
    (hrefused : ¬ Admits loop move) : ¬ Slots after := by
  cases move with
  | fireRaised runtime patchId => exact not_slots_fireRaised hstep
  | move move =>
    cases move with
    | fire runtime patchId eager =>
      cases eager with
      | false => cases hstep
      | true =>
        unfold stepEager Loop.step at hstep
        simp only at hstep
        split at hstep
        · cases hstep
          exact not_slots_fire hrefused
        · cases hstep
    | _ => exact absurd trivial hrefused

theorem slotted_idle (current suppressReapply : Nat → Finset Text) :
    Slotted (idle current suppressReapply) := by
  constructor
  · intro r p i hi
    cases hi
  · intro i caller hi
    cases hi

/-- In a run, a patch is in `_running` only while its check is not over, exactly if every timer
that starts a check starts one that is admitted. -/
theorem slots_iff_admits {current suppressReapply : Nat → Finset Text} {moves : List EagerMove} :
    Traces.Every stepEager (fun _ _ t => Slots t) (idle current suppressReapply) moves ↔
      Traces.Every stepEager (fun s move _ => Admits s move) (idle current suppressReapply) moves := by
  constructor
  · intro h
    apply h.mono
    intro s move t hstep hslots
    by_contra hrefused
    exact not_slots hstep hrefused hslots
  · intro h
    refine Traces.every_of_invariant (I := Slotted) (fun _ _ _ hs hstep hadmits =>
      hs.step hstep hadmits) ?_ (slotted_idle current suppressReapply) h
    intro s move t hs hstep hadmits
    exact (hs.step hstep hadmits).slots

/-- A revert that writes the target. -/
def revertResult : ReconcileResult := ⟨⟨.applicable, none, none, none⟩, [], none, true, none⟩

/-- A timer is on its way when a revert cannot persist `auto_apply`. The next revert can, and then
there is an event. -/
def suppressedMoves : List EagerMove := [
  .move (.event 0 [['p']]), .move (.call 0 ['p'] .revert), .move (.start 0), .move (.begin 0),
  .move (.prepared 0), .move (.returned 0 revertResult .failed), .move (.recorded 0),
  .move (.saved 0), .move (.fire 0 ['p'] true), .move (.call 0 ['p'] .revert), .move (.start 2),
  .move (.begin 1), .move (.prepared 1), .move (.returned 1 revertResult .done),
  .move (.recorded 1), .move (.saved 1), .move (.event 0 [['p']])]

/-- The check of the timer is refused where it is created. From then on the patch is running, and an
event makes it dirty but starts no timer. -/
theorem slot_left_behind : ∃ final,
    Traces.after stepEager (idle (fun _ => {['p']}) fun _ => ∅) suppressedMoves = some final ∧
      ¬ Slots final ∧ (final.runtimes 0).watcher.dirty = {['p']} ∧
      (final.runtimes 0).watcher.pending = ∅ := by
  have hrun : (Traces.after stepEager (idle (fun _ => {['p']}) fun _ => ∅) suppressedMoves).map
      (fun final => ((final.runtimes 0).watcher.running.lookup ['p'], final.callers[1]?,
        (final.runtimes 0).watcher.dirty, (final.runtimes 0).watcher.pending)) =
      some (some 1, some ⟨.check, 0, ['p'], .reconcile, .ended⟩, {['p']}, ∅) := by decide +kernel
  obtain ⟨final, hfinal, hview⟩ := Option.map_eq_some_iff.mp hrun
  simp only [Prod.mk.injEq] at hview
  obtain ⟨hslot, hcaller, hdirty, hpending⟩ := hview
  exact ⟨final, hfinal, not_slots_of_ended hslot ⟨_, hcaller, rfl⟩, hdirty, hpending⟩

end Loop

end Hapatchy.Tasks
