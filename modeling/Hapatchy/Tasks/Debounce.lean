import Hapatchy.Tasks.Teardown

/-!
# Debounce

An event on a patch leads to a reconcile that takes the lock later: until
then the patch is pending, dirty, or its check waits for the lock.
-/

namespace Hapatchy.Tasks

/-! ## Runtimes -/

namespace Runtime

variable {runtime runtime' : Runtime} {p q : Text}

/-- The watcher takes events on `p`. -/
def Open (p : Text) (runtime : Runtime) : Prop :=
  runtime.watcher.closed = false ∧ p ∉ runtime.suppressReapply

/-- A dirty patch will be looked at again, and a pending one is not being checked. -/
structure Tidy (p : Text) (runtime : Runtime) : Prop where
  dirty : p ∈ runtime.watcher.dirty → p ∈ runtime.watcher.running ∨ p ∈ runtime.busy
  pending : p ∈ runtime.watcher.pending → p ∉ runtime.watcher.running

def Kept (p : Text) (runtime : Runtime) : Prop :=
  p ∈ runtime.watcher.pending ∨ p ∈ runtime.watcher.dirty

/-- For `p`, nothing has changed. -/
structure Same (p : Text) (runtime runtime' : Runtime) : Prop where
  pending : p ∈ runtime'.watcher.pending ↔ p ∈ runtime.watcher.pending
  dirty : p ∈ runtime'.watcher.dirty ↔ p ∈ runtime.watcher.dirty
  running : runtime'.watcher.running.lookup p = runtime.watcher.running.lookup p
  busy : p ∈ runtime'.busy ↔ p ∈ runtime.busy
  closed : runtime'.watcher.closed = runtime.watcher.closed
  suppressed : p ∈ runtime'.suppressReapply ↔ p ∈ runtime.suppressReapply

theorem Same.refl : Same p runtime runtime := ⟨.rfl, .rfl, rfl, .rfl, rfl, .rfl⟩

theorem Same.trans {runtime'' : Runtime} (h : Same p runtime runtime')
    (h' : Same p runtime' runtime'') : Same p runtime runtime'' :=
  ⟨h'.pending.trans h.pending, h'.dirty.trans h.dirty, h'.running.trans h.running,
    h'.busy.trans h.busy, h'.closed.trans h.closed, h'.suppressed.trans h.suppressed⟩

theorem mem_running : p ∈ runtime.watcher.running ↔ (runtime.watcher.running.lookup p).isSome :=
  AList.lookup_isSome.symm

theorem Same.mem_running (h : Same p runtime runtime') :
    p ∈ runtime'.watcher.running ↔ p ∈ runtime.watcher.running := by
  rw [Runtime.mem_running, Runtime.mem_running, h.running]

theorem Same.isOpen (h : Same p runtime runtime') (hopen : Open p runtime) : Open p runtime' :=
  ⟨h.closed.trans hopen.1, fun hp => hopen.2 (h.suppressed.mp hp)⟩

theorem Same.tidy (h : Same p runtime runtime') (htidy : Tidy p runtime) : Tidy p runtime' := by
  constructor
  · rw [h.dirty, h.mem_running, h.busy]
    exact htidy.dirty
  · rw [h.pending, h.mem_running]
    exact htidy.pending

theorem Same.kept (h : Same p runtime runtime') (hkept : Kept p runtime) : Kept p runtime' := by
  unfold Kept
  rw [h.pending, h.dirty]
  exact hkept

theorem same_debounce (h : p ≠ q) : Same p runtime (runtime.debounce q) := by
  unfold debounce
  split
  · exact .refl
  · split
    · refine ⟨?_, ?_, rfl, .rfl, rfl, .rfl⟩
      · simp [modifyWatcher, h]
      · simp [modifyWatcher, h]
    · refine ⟨?_, .rfl, rfl, .rfl, rfl, .rfl⟩
      simp [modifyWatcher, h]

theorem same_actionComplete (h : p ≠ q) : Same p runtime (runtime.actionComplete q) := by
  have herase : Same p runtime (runtime.modifyWatcher fun watcher =>
      { watcher with dirty := watcher.dirty.erase q }) := by
    refine ⟨.rfl, ?_, rfl, .rfl, rfl, .rfl⟩
    simp [modifyWatcher, h]
  unfold actionComplete
  split
  · exact herase.trans (same_debounce h)
  · exact .refl

theorem same_actionFinished {task : Nat} (h : p ≠ q) :
    Same p runtime (runtime.actionFinished task q) := by
  have herase : Same p runtime { runtime with
      admitted := runtime.admitted.erase task
      busy := runtime.busy.erase q } := by
    refine ⟨.rfl, .rfl, rfl, ?_, rfl, .rfl⟩
    simp [h]
  exact herase.trans (same_actionComplete h)

theorem same_checkFinished (h : p ≠ q) : Same p runtime (runtime.checkFinished q) := by
  have herase : Same p runtime (runtime.modifyWatcher fun watcher =>
      { watcher with running := watcher.running.erase q }) :=
    ⟨.rfl, .rfl, AList.lookup_erase_ne h, .rfl, rfl, .rfl⟩
  exact herase.trans (same_actionComplete h)

/-- What `_debounce` does for its patch. -/
structure Settled (p : Text) (runtime runtime' : Runtime) : Prop where
  isOpen : Open p runtime'
  tidy : Tidy p runtime'
  running : runtime'.watcher.running.lookup p = runtime.watcher.running.lookup p

theorem settled_debounce (runtime : Runtime) (hopen : Open p runtime)
    (hdirty : p ∈ runtime.watcher.dirty → p ∈ runtime.watcher.running ∨ p ∈ runtime.busy) :
    Settled p runtime (runtime.debounce p) ∧ Kept p (runtime.debounce p) := by
  unfold debounce
  rw [if_neg (by rw [hopen.1]; simpa using hopen.2)]
  split
  · rename_i hbusy
    refine ⟨⟨hopen, ⟨fun _ => hbusy, fun h => ?_⟩, rfl⟩, Or.inr (Finset.mem_insert_self ..)⟩
    exact absurd rfl (Finset.mem_erase.mp h).1
  · rename_i hidle
    rw [not_or] at hidle
    exact ⟨⟨hopen, ⟨hdirty, fun _ => hidle.1⟩, rfl⟩, Or.inl (Finset.mem_insert_self ..)⟩

theorem settled_actionComplete (runtime : Runtime) (hopen : Open p runtime)
    (hpending : p ∈ runtime.watcher.pending → p ∉ runtime.watcher.running) :
    Settled p runtime (runtime.actionComplete p) ∧
      (Kept p runtime → Kept p (runtime.actionComplete p)) := by
  unfold actionComplete
  split
  · -- The dirty patch gets its timer, or is dirty again.
    obtain ⟨hsettled, hkept⟩ := settled_debounce (runtime.modifyWatcher fun watcher =>
      { watcher with dirty := watcher.dirty.erase p }) hopen fun h => absurd rfl (Finset.mem_erase.mp h).1
    exact ⟨⟨hsettled.isOpen, hsettled.tidy, hsettled.running⟩, fun _ => hkept⟩
  · rename_i hno
    refine ⟨⟨hopen, ⟨fun h => Or.inl ?_, hpending⟩, rfl⟩, id⟩
    by_contra hrunning
    exact hno ⟨hrunning, h⟩

theorem settled_actionFinished {task : Nat} (hopen : Open p runtime) (htidy : Tidy p runtime) :
    Settled p runtime (runtime.actionFinished task q) ∧
      (Kept p runtime → Kept p (runtime.actionFinished task q)) := by
  by_cases h : p = q
  · subst h
    unfold actionFinished
    obtain ⟨hsettled, hkept⟩ := settled_actionComplete { runtime with
      admitted := runtime.admitted.erase task
      busy := runtime.busy.erase p } hopen htidy.pending
    exact ⟨⟨hsettled.isOpen, hsettled.tidy, hsettled.running⟩, hkept⟩
  · have hsame : Same p runtime (runtime.actionFinished task q) := same_actionFinished h
    exact ⟨⟨hsame.isOpen hopen, hsame.tidy htidy, hsame.running⟩, hsame.kept⟩

/-- The end of a check of `p`. -/
theorem settled_checkFinished (hopen : Open p runtime) :
    Open p (runtime.checkFinished p) ∧ Tidy p (runtime.checkFinished p) ∧
      (runtime.checkFinished p).watcher.running.lookup p = none ∧
      (Kept p runtime → Kept p (runtime.checkFinished p)) := by
  obtain ⟨hsettled, hkept⟩ := settled_actionComplete (runtime.modifyWatcher fun watcher =>
    { watcher with running := watcher.running.erase p }) hopen fun _ h =>
      absurd rfl (AList.mem_erase.mp h).1
  exact ⟨hsettled.isOpen, hsettled.tidy, hsettled.running.trans (AList.lookup_erase ..), hkept⟩

theorem settled_debounces (patchIds : List Text) (hopen : Open p runtime) (htidy : Tidy p runtime) :
    Settled p runtime (patchIds.foldl debounce runtime) ∧
      (Kept p runtime ∨ p ∈ patchIds → Kept p (patchIds.foldl debounce runtime)) := by
  induction patchIds generalizing runtime with
  | nil => exact ⟨⟨hopen, htidy, rfl⟩, fun h => h.resolve_right (List.not_mem_nil)⟩
  | cons q patchIds ih =>
    rw [List.foldl_cons]
    by_cases h : p = q
    · subst h
      obtain ⟨hsettled, hkept⟩ := settled_debounce runtime hopen htidy.dirty
      obtain ⟨hrest, hrestKept⟩ := ih hsettled.isOpen hsettled.tidy
      exact ⟨⟨hrest.isOpen, hrest.tidy, hrest.running.trans hsettled.running⟩, fun _ =>
        hrestKept (Or.inl hkept)⟩
    · have hsame : Same p runtime (runtime.debounce q) := same_debounce h
      obtain ⟨hrest, hrestKept⟩ := ih (hsame.isOpen hopen) (hsame.tidy htidy)
      refine ⟨⟨hrest.isOpen, hrest.tidy, hrest.running.trans hsame.running⟩, fun hp => hrestKept ?_⟩
      obtain hkept | hmem := hp
      · exact Or.inl (hsame.kept hkept)
      · exact Or.inr ((List.mem_cons.mp hmem).resolve_left h)

end Runtime

namespace Loop

open Hapatchy.Tasks.Runtime

variable {loop after : Loop} {r : Nat} {p : Text}

/-! ## Checks -/

/-- The caller is a check of `p` that is not over. -/
structure Checks (r : Nat) (p : Text) (caller : Caller) : Prop where
  kind : caller.kind = .check
  runtime : caller.runtime = r
  patchId : caller.patchId = p
  stage : caller.stage ≠ .ended

/-- The caller awaits its own action. -/
def Linked (loop : Loop) (caller : Caller) : Prop :=
  ∀ t, caller.stage = .awaiting t → ∃ a, loop.actions[t]? = some a ∧ a.runtime = caller.runtime ∧
    a.patchId = caller.patchId ∧ a.action = caller.action

/-- The action of the caller has not taken the lock. -/
def Unentered (loop : Loop) (caller : Caller) : Prop :=
  caller.stage = .created ∨ ∃ t a, caller.stage = .awaiting t ∧ loop.actions[t]? = some a ∧
    a.stage = .waiting

/-- The runtime serves the patch. -/
structure Serving (r : Nat) (p : Text) (loop : Loop) : Prop where
  closing : (loop.runtimes r).closing = false
  current : p ∈ (loop.runtimes r).current
  suppressed : p ∉ (loop.runtimes r).suppressReapply

instance (r : Nat) (p : Text) (caller : Caller) : Decidable (Checks r p caller) :=
  decidable_of_iff (caller.kind = .check ∧ caller.runtime = r ∧ caller.patchId = p ∧
    caller.stage ≠ .ended) ⟨fun h => ⟨h.1, h.2.1, h.2.2.1, h.2.2.2⟩, fun h => ⟨h.1, h.2, h.3, h.4⟩⟩

instance (r : Nat) (p : Text) (loop : Loop) : Decidable (Serving r p loop) :=
  decidable_of_iff ((loop.runtimes r).closing = false ∧ p ∈ (loop.runtimes r).current ∧
    p ∉ (loop.runtimes r).suppressReapply) ⟨fun h => ⟨h.1, h.2.1, h.2.2⟩, fun h => ⟨h.1, h.2, h.3⟩⟩

structure Watching (r : Nat) (p : Text) (loop : Loop) : Prop where
  closed : (loop.runtimes r).watcher.closed = false
  tidy : Tidy p (loop.runtimes r)
  closes : ∀ (c : Nat) (cl : Close), loop.closes[c]? = some cl → cl.runtime ≠ r
  running : ∀ i, (loop.runtimes r).watcher.running.lookup p = some i →
    ∃ caller, loop.callers[i]? = some caller ∧ Checks r p caller ∧ caller.action = .reconcile
  check : ∀ (i : Nat) (caller : Caller), loop.callers[i]? = some caller → Checks r p caller →
    (loop.runtimes r).watcher.running.lookup p = some i
  linked : ∀ (i : Nat) (caller : Caller), loop.callers[i]? = some caller → Linked loop caller

/-- The event is still to be looked at. -/
def Owed (r : Nat) (p : Text) (loop : Loop) : Prop :=
  Runtime.Kept p (loop.runtimes r) ∨ ∃ i caller, (loop.runtimes r).watcher.running.lookup p = some i ∧
    loop.callers[i]? = some caller ∧ Unentered loop caller

/-- Every action stays the same but for its stage. -/
def Grows (loop after : Loop) : Prop :=
  ∀ (t : Nat) (a : ActionTask), loop.actions[t]? = some a → ∃ b, after.actions[t]? = some b ∧
    b.runtime = a.runtime ∧ b.patchId = a.patchId ∧ b.action = a.action

theorem grows_of_eq (h : after.actions = loop.actions) : Grows loop after :=
  fun _ a ha => ⟨a, h ▸ ha, rfl, rfl, rfl⟩

theorem Grows.linked {caller : Caller} (h : Grows loop after) (hlinked : Linked loop caller) :
    Linked after caller := by
  intro t ht
  obtain ⟨a, ha, hruntime, hpatch, haction⟩ := hlinked t ht
  obtain ⟨b, hb, hruntime', hpatch', haction'⟩ := h t a ha
  exact ⟨b, hb, hruntime'.trans hruntime, hpatch'.trans hpatch, haction'.trans haction⟩

theorem grows_setAction {task : Nat} {stage : Stage} : Grows loop (loop.setAction task stage) := by
  intro t a ha
  unfold setAction
  by_cases ht : task = t
  · subst ht
    rw [List.getElem?_modify_eq, ha]
    exact ⟨_, rfl, rfl, rfl, rfl⟩
  · rw [List.getElem?_modify_ne _ _ ht]
    exact ⟨a, ha, rfl, rfl, rfl⟩

theorem waiting_setAction {task t : Nat} {stage : Stage} {a : ActionTask} (hne : t ≠ task)
    (ha : loop.actions[t]? = some a) : (loop.setAction task stage).actions[t]? = some a := by
  unfold setAction
  rw [List.getElem?_modify_ne _ _ (Ne.symm hne)]
  exact ha

/-- The watcher is in order after the step, and what it owes it still owes. -/
def Follows (r : Nat) (p : Text) (loop after : Loop) : Prop :=
  Watching r p after ∧ (Owed r p loop → Owed r p after)

/-- The check of the patch awaits `task`. -/
def Awaited (r : Nat) (p : Text) (loop : Loop) (task : Nat) : Prop :=
  ∃ i caller, (loop.runtimes r).watcher.running.lookup p = some i ∧
    loop.callers[i]? = some caller ∧ caller.stage = .awaiting task

/-- A step that leaves the callers alone. -/
theorem Watching.frame (h : Watching r p loop) (hcallers : after.callers = loop.callers)
    (hcloses : ∀ (c : Nat) (cl : Close), after.closes[c]? = some cl → cl.runtime ≠ r)
    (hclosed : (after.runtimes r).watcher.closed = false) (htidy : Tidy p (after.runtimes r))
    (hrunning : (after.runtimes r).watcher.running.lookup p =
      (loop.runtimes r).watcher.running.lookup p) (hgrows : Grows loop after) : Watching r p after := by
  refine ⟨hclosed, htidy, hcloses, fun i hi => ?_, fun i caller hi hchecks => ?_,
    fun i caller hi => ?_⟩
  · rw [hcallers]
    exact h.running i (hrunning ▸ hi)
  · rw [hrunning]
    exact h.check i caller (hcallers ▸ hi) hchecks
  · exact hgrows.linked (h.linked i caller (hcallers ▸ hi))

theorem Owed.frame (h : Owed r p loop) (hcallers : after.callers = loop.callers)
    (hrunning : (after.runtimes r).watcher.running.lookup p =
      (loop.runtimes r).watcher.running.lookup p)
    (hkept : Runtime.Kept p (loop.runtimes r) → Runtime.Kept p (after.runtimes r))
    (hwaiting : ∀ t a, Awaited r p loop t → loop.actions[t]? = some a → a.stage = .waiting →
      ∃ b, after.actions[t]? = some b ∧ b.stage = .waiting) : Owed r p after := by
  obtain hold | ⟨i, caller, hi, hcaller, hunentered⟩ := h
  · exact Or.inl (hkept hold)
  · refine Or.inr ⟨i, caller, hrunning.trans hi, hcallers ▸ hcaller, ?_⟩
    obtain hcreated | ⟨t, a, hstage, ha, hfirst⟩ := hunentered
    · exact Or.inl hcreated
    · obtain ⟨b, hb, hsecond⟩ := hwaiting t a ⟨i, caller, hi, hcaller, hstage⟩ ha hfirst
      exact Or.inr ⟨t, b, hstage, hb, hsecond⟩

theorem Watching.follows (h : Watching r p loop) (hcallers : after.callers = loop.callers)
    (hcloses : ∀ (c : Nat) (cl : Close), after.closes[c]? = some cl → cl.runtime ≠ r)
    (hclosed : (after.runtimes r).watcher.closed = false) (htidy : Tidy p (after.runtimes r))
    (hrunning : (after.runtimes r).watcher.running.lookup p =
      (loop.runtimes r).watcher.running.lookup p)
    (hkept : Runtime.Kept p (loop.runtimes r) → Runtime.Kept p (after.runtimes r)) (hgrows : Grows loop after)
    (hwaiting : ∀ t a, Awaited r p loop t → loop.actions[t]? = some a → a.stage = .waiting →
      ∃ b, after.actions[t]? = some b ∧ b.stage = .waiting) : Follows r p loop after :=
  ⟨h.frame hcallers hcloses hclosed htidy hrunning hgrows, fun howed =>
    howed.frame hcallers hrunning hkept hwaiting⟩

/-- A step that changes nothing for the patch. -/
theorem Watching.follows_same (h : Watching r p loop) (hcallers : after.callers = loop.callers)
    (hactions : after.actions = loop.actions)
    (hcloses : ∀ (c : Nat) (cl : Close), after.closes[c]? = some cl → cl.runtime ≠ r)
    (hsame : Same p (loop.runtimes r) (after.runtimes r)) : Follows r p loop after :=
  h.follows hcallers hcloses (hsame.closed.trans h.closed) (hsame.tidy h.tidy) hsame.running
    hsame.kept (grows_of_eq hactions) fun _ a _ ha hstage => ⟨a, hactions ▸ ha, hstage⟩

/-- The runtime becomes another one, which is the same for `p`. -/
theorem same_modify {base : Loop} {runtime : Nat} {f : Runtime → Runtime}
    (hbase : base.runtimes = loop.runtimes)
    (h : runtime = r → Same p (loop.runtimes r) (f (loop.runtimes r))) :
    Same p (loop.runtimes r) ((base.modify runtime f).runtimes r) := by
  by_cases hr : r = runtime
  · subst hr
    rw [modify_self, hbase]
    exact h rfl
  · rw [modify_of_ne f hr, hbase]
    exact .refl

/-- What a check of the patch awaits is a reconcile of the patch. -/
theorem Watching.awaited (h : Watching r p loop) {task : Nat} {action : ActionTask}
    (hawaited : Awaited r p loop task) (hfound : loop.actions[task]? = some action) :
    action.runtime = r ∧ action.patchId = p ∧ action.action = .reconcile := by
  obtain ⟨i, caller, hi, hcaller, hstage⟩ := hawaited
  obtain ⟨caller', hcaller', hchecks, hreconcile⟩ := h.running i hi
  cases hcaller.symm.trans hcaller'
  obtain ⟨b, hb, hruntime, hpatch, haction⟩ := h.linked i caller hcaller task hstage
  cases hfound.symm.trans hb
  exact ⟨hruntime.trans hchecks.runtime, hpatch.trans hchecks.patchId, haction.trans hreconcile⟩

/-! ## Steps -/

theorem Watching.finish (h : Watching r p loop) (hserving : Serving r p loop) {task : Nat}
    {action : ActionTask} (hfound : loop.actions[task]? = some action)
    (hstage : action.stage.holds ∨ ¬ (action.runtime = r ∧ action.patchId = p)) :
    Follows r p loop (loop.finish task action) := by
  have hopen : Open p (loop.runtimes r) := ⟨h.closed, hserving.suppressed⟩
  have hwatcher : Settled p (loop.runtimes r) ((loop.finish task action).runtimes r) ∧
      (Runtime.Kept p (loop.runtimes r) → Runtime.Kept p ((loop.finish task action).runtimes r)) := by
    unfold Loop.finish
    by_cases hr : r = action.runtime
    · subst hr
      rw [modify_self]
      exact settled_actionFinished hopen h.tidy
    · rw [modify_of_ne _ hr]
      exact ⟨⟨hopen, h.tidy, rfl⟩, id⟩
  obtain ⟨hsettled, hkept⟩ := hwatcher
  refine h.follows rfl h.closes hsettled.isOpen.1 hsettled.tidy hsettled.running hkept
    grows_setAction fun t a hawaited ha hwaiting => ⟨a, waiting_setAction ?_ ha, hwaiting⟩
  -- The check does not wait for the action that is over.
  rintro rfl
  cases hfound.symm.trans ha
  obtain hholds | hother := hstage
  · rw [hwaiting] at hholds
    cases hholds
  · obtain ⟨hruntime, hpatch, -⟩ := h.awaited hawaited ha
    exact hother ⟨hruntime, hpatch⟩

/-- An action with the lock goes on. -/
theorem Watching.setAction (h : Watching r p loop) {task : Nat} {action : ActionTask} {stage : Stage}
    (hfound : loop.actions[task]? = some action) (hholds : action.stage.holds)
    (hcallers : after.callers = loop.callers) (hcloses : after.closes = loop.closes)
    (hactions : after.actions = (loop.setAction task stage).actions)
    (hwatcher : (after.runtimes r).watcher = (loop.runtimes r).watcher)
    (hbusy : (after.runtimes r).busy = (loop.runtimes r).busy) : Follows r p loop after := by
  refine h.follows hcallers (hcloses ▸ h.closes) (hwatcher ▸ h.closed) ?_ (hwatcher ▸ rfl) ?_ ?_ ?_
  · constructor
    · rw [hwatcher, hbusy]
      exact h.tidy.dirty
    · rw [hwatcher]
      exact h.tidy.pending
  · unfold Runtime.Kept
    rw [hwatcher]
    exact id
  · intro t a ha
    obtain ⟨b, hb, hsame⟩ := grows_setAction t a ha
    exact ⟨b, hactions ▸ hb, hsame⟩
  · intro t a _ ha hwaiting
    refine ⟨a, hactions ▸ waiting_setAction ?_ ha, hwaiting⟩
    rintro rfl
    cases hfound.symm.trans ha
    rw [hwaiting] at hholds
    cases hholds

theorem setCaller_of_ne {index i : Nat} {stage : CallerStage} (h : i ≠ index) :
    (loop.setCaller index stage).callers[i]? = loop.callers[i]? :=
  List.getElem?_modify_ne _ _ (Ne.symm h)

theorem setCaller_self {index : Nat} {stage : CallerStage} {caller : Caller}
    (h : loop.callers[index]? = some caller) :
    (loop.setCaller index stage).callers[index]? = some { caller with stage := stage } := by
  unfold setCaller
  rw [List.getElem?_modify_eq, h]
  rfl

theorem setCaller_some {index i : Nat} {stage : CallerStage} {d : Caller}
    (h : (loop.setCaller index stage).callers[i]? = some d) : ∃ caller,
      loop.callers[i]? = some caller ∧
        (i = index ∧ d = { caller with stage := stage } ∨ i ≠ index ∧ d = caller) := by
  by_cases hi : i = index
  · subst hi
    unfold setCaller at h
    rw [List.getElem?_modify_eq] at h
    obtain ⟨caller, hcaller, rfl⟩ := Option.map_eq_some_iff.mp h
    exact ⟨caller, hcaller, Or.inl ⟨rfl, rfl⟩⟩
  · rw [setCaller_of_ne hi] at h
    exact ⟨d, h, Or.inr ⟨hi, rfl⟩⟩

/-- A caller of another patch, or of another kind, is over. -/
theorem Watching.endOther (h : Watching r p loop) {index : Nat} {caller : Caller}
    (hfound : loop.callers[index]? = some caller) (hother : ¬ Checks r p caller)
    (hcallers : after.callers = (loop.setCaller index .ended).callers)
    (hactions : after.actions = loop.actions) (hcloses : after.closes = loop.closes)
    (hsame : Same p (loop.runtimes r) (after.runtimes r)) : Follows r p loop after := by
  have hkeep {i : Nat} {d : Caller} (hi : loop.callers[i]? = some d) (hd : Checks r p d) :
      after.callers[i]? = some d := by
    rw [hcallers, setCaller_of_ne ?_, hi]
    rintro rfl
    cases hfound.symm.trans hi
    exact hother hd
  refine ⟨⟨hsame.closed.trans h.closed, hsame.tidy h.tidy, hcloses ▸ h.closes, fun i hi => ?_,
    fun i d hd hchecks => ?_, fun i d hd => ?_⟩, ?_⟩
  · obtain ⟨d, hd, hchecks, haction⟩ := h.running i (hsame.running ▸ hi)
    exact ⟨d, hkeep hd hchecks, hchecks, haction⟩
  · rw [hsame.running]
    obtain ⟨d', hd', ⟨-, rfl⟩ | ⟨-, rfl⟩⟩ := setCaller_some (hcallers ▸ hd)
    · exact absurd rfl hchecks.stage
    · exact h.check i d hd' hchecks
  · obtain ⟨d', hd', ⟨-, rfl⟩ | ⟨-, rfl⟩⟩ := setCaller_some (hcallers ▸ hd)
    · nofun
    · exact (grows_of_eq hactions).linked (h.linked i d hd')
  · rintro (hold | ⟨i, d, hi, hd, hunentered⟩)
    · exact Or.inl (hsame.kept hold)
    · obtain ⟨d', hd', hchecks, -⟩ := h.running i hi
      cases hd.symm.trans hd'
      refine Or.inr ⟨i, d, hsame.running.trans hi, hkeep hd hchecks, ?_⟩
      unfold Unentered
      rw [hactions]
      exact hunentered

/-- The check of the patch is over, and its action had taken the lock. -/
theorem Watching.endCheck (h : Watching r p loop) (hserving : Serving r p loop) {index : Nat}
    {caller : Caller} (hfound : loop.callers[index]? = some caller) (hchecks : Checks r p caller)
    (hentered : ¬ Unentered loop caller) : Follows r p loop (loop.endCaller index caller true) := by
  have hafter : loop.endCaller index caller true =
      (loop.setCaller index .ended).modify r (·.checkFinished p) := by
    unfold endCaller
    rw [hchecks.kind, hchecks.runtime, hchecks.patchId]
    rfl
  rw [hafter]
  obtain ⟨hopen, htidy, hnone, hkept⟩ := settled_checkFinished (p := p)
    (⟨h.closed, hserving.suppressed⟩ : Open p (loop.runtimes r))
  have hrunning := h.check index caller hfound hchecks
  have hruntime : ((loop.setCaller index .ended).modify r (·.checkFinished p)).runtimes r =
      (loop.runtimes r).checkFinished p := modify_self ..
  refine ⟨⟨?_, ?_, h.closes, fun i hi => ?_, fun i d hd hd' => ?_, fun i d hd => ?_⟩, ?_⟩
  · rw [hruntime]
    exact hopen.1
  · rw [hruntime]
    exact htidy
  · rw [hruntime, hnone] at hi
    cases hi
  · obtain ⟨d', hbefore, ⟨-, rfl⟩ | ⟨hne, rfl⟩⟩ := setCaller_some hd
    · exact absurd rfl hd'.stage
    · have hsame := h.check i d hbefore hd'
      rw [hrunning] at hsame
      exact absurd (Option.some_inj.mp hsame).symm hne
  · obtain ⟨d', hbefore, ⟨-, rfl⟩ | ⟨-, rfl⟩⟩ := setCaller_some hd
    · nofun
    · exact h.linked i d hbefore
  · rintro (hold | ⟨i, d, hi, hd, hunentered⟩)
    · refine Or.inl ?_
      rw [hruntime]
      exact hkept hold
    · rw [hrunning] at hi
      cases hi
      cases hfound.symm.trans hd
      exact absurd hunentered hentered

theorem same_endCaller (loop : Loop) (index : Nat) {caller : Caller} {ran : Bool}
    (h : ran = true → caller.kind = .check → caller.runtime = r → p ≠ caller.patchId) :
    Same p (loop.runtimes r) ((loop.endCaller index caller ran).runtimes r) := by
  unfold endCaller
  cases hkind : caller.kind
  case service => exact .refl
  case background => exact same_modify rfl fun _ => ⟨.rfl, .rfl, rfl, .rfl, rfl, .rfl⟩
  case check =>
    dsimp only
    split
    · rename_i hran
      exact same_modify rfl fun hr => same_checkFinished (h hran hkind hr)
    · exact .refl

theorem endCaller_eq (loop : Loop) (index : Nat) (caller : Caller) (ran : Bool) :
    (loop.endCaller index caller ran).callers = (loop.setCaller index .ended).callers ∧
      (loop.endCaller index caller ran).actions = loop.actions ∧
      (loop.endCaller index caller ran).closes = loop.closes := by
  unfold endCaller
  cases caller.kind
  case service => exact ⟨rfl, rfl, rfl⟩
  case background => exact ⟨rfl, rfl, rfl⟩
  case check => cases ran <;> exact ⟨rfl, rfl, rfl⟩

/-- A caller is over. -/
theorem Watching.endCaller (h : Watching r p loop) (hserving : Serving r p loop) {index : Nat}
    {caller : Caller} {ran : Bool} (hfound : loop.callers[index]? = some caller)
    (hstage : caller.stage ≠ .ended)
    (hentered : Checks r p caller → ran = true ∧ ¬ Unentered loop caller) :
    Follows r p loop (loop.endCaller index caller ran) := by
  by_cases hchecks : Checks r p caller
  · obtain ⟨rfl, hlocked⟩ := hentered hchecks
    exact h.endCheck hserving hfound hchecks hlocked
  · obtain ⟨hcallers, hactions, hcloses⟩ := endCaller_eq loop index caller ran
    exact h.endOther hfound hchecks hcallers hactions hcloses (same_endCaller loop index
      fun _ hkind hruntime hpatch => hchecks ⟨hkind, hruntime, hpatch.symm, hstage⟩)

/-- A new caller, that is no check of the patch. -/
theorem Watching.append (h : Watching r p loop) {caller : Caller} (hcreated : caller.stage = .created)
    (hother : ¬ Checks r p caller) (hcallers : after.callers = loop.callers ++ [caller])
    (hactions : after.actions = loop.actions) (hcloses : after.closes = loop.closes)
    (hsame : Same p (loop.runtimes r) (after.runtimes r)) : Follows r p loop after := by
  have hkeep {i : Nat} {d : Caller} (hi : loop.callers[i]? = some d) :
      after.callers[i]? = some d := by
    rw [hcallers, List.getElem?_append_left (List.getElem?_eq_some_iff.mp hi).1, hi]
  refine ⟨⟨hsame.closed.trans h.closed, hsame.tidy h.tidy, hcloses ▸ h.closes, fun i hi => ?_,
    fun i d hd hchecks => ?_, fun i d hd => ?_⟩, ?_⟩
  · obtain ⟨d, hd, hrest⟩ := h.running i (hsame.running ▸ hi)
    exact ⟨d, hkeep hd, hrest⟩
  · rw [hsame.running]
    obtain hold | ⟨-, rfl⟩ := append_some (hcallers ▸ hd)
    · exact h.check i d hold hchecks
    · exact absurd hchecks hother
  · obtain hold | ⟨-, rfl⟩ := append_some (hcallers ▸ hd)
    · exact (grows_of_eq hactions).linked (h.linked i d hold)
    · intro t ht
      rw [hcreated] at ht
      cases ht
  · rintro (hold | ⟨i, d, hi, hd, hunentered⟩)
    · exact Or.inl (hsame.kept hold)
    · refine Or.inr ⟨i, d, hsame.running.trans hi, hkeep hd, ?_⟩
      unfold Unentered
      rw [hactions]
      exact hunentered

theorem grows_admitAction (loop : Loop) (action : ActionTask) : Grows loop (loop.admitAction action) := by
  intro t a ha
  refine ⟨a, ?_, rfl, rfl, rfl⟩
  exact (List.getElem?_append_left (List.getElem?_eq_some_iff.mp ha).1).trans ha

theorem admit_new (loop : Loop) (action : ActionTask) :
    (loop.admitAction action).actions[loop.actions.length]? = some action :=
  List.getElem?_concat_length ..

/-- A caller whose action is admitted. -/
theorem Watching.admitAction (h : Watching r p loop) {index : Nat} {caller : Caller}
    (hfound : loop.callers[index]? = some caller) (hcreated : caller.stage = .created) :
    Follows r p loop ((loop.admitAction ⟨caller.runtime, caller.patchId, caller.action, .waiting⟩).setCaller
      index (.awaiting loop.actions.length)) := by
  have hsame : Same p (loop.runtimes r)
      ((loop.admitAction ⟨caller.runtime, caller.patchId, caller.action, .waiting⟩).runtimes r) :=
    same_modify rfl fun _ => ⟨.rfl, .rfl, rfl, .rfl, rfl, .rfl⟩
  have hgrows := grows_admitAction loop ⟨caller.runtime, caller.patchId, caller.action, .waiting⟩
  have hnew := admit_new loop ⟨caller.runtime, caller.patchId, caller.action, .waiting⟩
  refine ⟨⟨hsame.closed.trans h.closed, hsame.tidy h.tidy, h.closes, fun i hi => ?_,
    fun i d hd hchecks => ?_, fun i d hd => ?_⟩, ?_⟩
  · obtain ⟨d, hd, hchecks, haction⟩ := h.running i (hsame.running ▸ hi)
    by_cases hi : i = index
    · subst hi
      cases hfound.symm.trans hd
      exact ⟨_, setCaller_self hfound, ⟨hchecks.kind, hchecks.runtime, hchecks.patchId, nofun⟩, haction⟩
    · exact ⟨d, (setCaller_of_ne hi).trans hd, hchecks, haction⟩
  · refine hsame.running.trans ?_
    obtain ⟨d', hd', ⟨rfl, rfl⟩ | ⟨-, rfl⟩⟩ := setCaller_some hd
    · refine h.check i d' hd' ⟨hchecks.kind, hchecks.runtime, hchecks.patchId, ?_⟩
      cases hfound.symm.trans hd'
      rw [hcreated]
      nofun
    · exact h.check i d hd' hchecks
  · obtain ⟨d', hd', ⟨rfl, rfl⟩ | ⟨-, rfl⟩⟩ := setCaller_some hd
    · cases hfound.symm.trans hd'
      rintro t ⟨⟩
      exact ⟨_, hnew, rfl, rfl, rfl⟩
    · exact hgrows.linked (h.linked i d hd')
  · rintro (hold | ⟨i, d, hi, hd, hunentered⟩)
    · exact Or.inl (hsame.kept hold)
    · by_cases hindex : i = index
      · subst hindex
        exact Or.inr ⟨i, _, hsame.running.trans hi, setCaller_self hfound,
          Or.inr ⟨_, _, rfl, hnew, rfl⟩⟩
      · refine Or.inr ⟨i, d, hsame.running.trans hi, (setCaller_of_ne hindex).trans hd, ?_⟩
        obtain hcreated | ⟨t, a, hstage, ha, hwaiting⟩ := hunentered
        · exact Or.inl hcreated
        · refine Or.inr ⟨t, a, hstage, ?_, hwaiting⟩
          exact (List.getElem?_append_left (List.getElem?_eq_some_iff.mp ha).1).trans ha

/-- The runtime admits what a check of the patch calls for. -/
theorem asyncAction_eq (hserving : Serving r p loop) (index : Nat) {caller : Caller}
    (hruntime : caller.runtime = r) (hpatch : caller.patchId = p) :
    loop.asyncAction index caller =
      (loop.admitAction ⟨caller.runtime, caller.patchId, caller.action, .waiting⟩).setCaller index
        (.awaiting loop.actions.length) := by
  subst hruntime hpatch
  unfold asyncAction
  simp only
  rw [if_neg]
  rintro (h | h | h)
  · rw [hserving.closing] at h
    cases h
  · exact h hserving.current
  · exact hserving.suppressed h.2

theorem Watching.asyncAction (h : Watching r p loop) (hserving : Serving r p loop) {index : Nat}
    {caller : Caller} (hfound : loop.callers[index]? = some caller)
    (hcreated : caller.stage = .created) : Follows r p loop (loop.asyncAction index caller) := by
  by_cases hpatch : caller.runtime = r ∧ caller.patchId = p
  · rw [asyncAction_eq hserving index hpatch.1 hpatch.2]
    exact h.admitAction hfound hcreated
  · unfold Loop.asyncAction
    simp only
    split
    · refine h.endCaller hserving hfound (by rw [hcreated]; nofun) fun hchecks => ?_
      exact absurd ⟨hchecks.runtime, hchecks.patchId⟩ hpatch
    · exact h.admitAction hfound hcreated

theorem Follows.trans {last : Loop} (h : Follows r p loop after) (h' : Follows r p after last) :
    Follows r p loop last := ⟨h'.1, h'.2 ∘ h.2⟩

/-- The timer of the patch starts its check. -/
theorem Watching.started (h : Watching r p loop)
    (hpending : p ∈ (loop.runtimes r).watcher.pending) {caller : Caller} (hchecks : Checks r p caller)
    (haction : caller.action = .reconcile) (hcallers : after.callers = loop.callers ++ [caller])
    (hlinked : Linked after caller) (hunentered : Unentered after caller) (hgrows : Grows loop after)
    (hcloses : after.closes = loop.closes)
    (hwatcher : (after.runtimes r).watcher =
      (((loop.runtimes r).timerFired p).checkCreated p loop.callers.length).watcher) :
    Watching r p after ∧ Owed r p after := by
  have hrunning : (after.runtimes r).watcher.running.lookup p = some loop.callers.length := by
    rw [hwatcher]
    exact AList.lookup_insert ..
  have hnew : after.callers[loop.callers.length]? = some caller := by
    rw [hcallers]
    exact List.getElem?_concat_length ..
  refine ⟨⟨hwatcher ▸ h.closed, ⟨fun _ => Or.inl ?_, fun hp => ?_⟩, hcloses ▸ h.closes, fun i hi => ?_,
    fun i d hd hd' => ?_, fun i d hd => ?_⟩, Or.inr ⟨_, caller, hrunning, hnew, hunentered⟩⟩
  · rw [mem_running, hrunning]
    rfl
  · rw [hwatcher] at hp
    exact absurd rfl (Finset.mem_erase.mp hp).1
  · rw [hrunning] at hi
    cases hi
    exact ⟨caller, hnew, hchecks, haction⟩
  · obtain hold | ⟨rfl, rfl⟩ := append_some (hcallers ▸ hd)
    · -- There was no check of the patch while its timer ran.
      have hsome := h.check i d hold hd'
      exact absurd (mem_running.mpr (by rw [hsome]; rfl)) (h.tidy.pending hpending)
    · exact hrunning
  · obtain hold | ⟨rfl, rfl⟩ := append_some (hcallers ▸ hd)
    · exact hgrows.linked (h.linked i d hold)
    · exact hlinked

/-- The timer of the patch finds an action on it. -/
theorem Watching.dirtied (h : Watching r p loop) (hbusy : p ∈ (loop.runtimes r).busy)
    (hcallers : after.callers = loop.callers) (hactions : after.actions = loop.actions)
    (hcloses : after.closes = loop.closes)
    (hruntime : after.runtimes r = ((loop.runtimes r).timerFired p).markDirty p) :
    Watching r p after ∧ Owed r p after := by
  have hkept : Runtime.Kept p (after.runtimes r) := by
    rw [hruntime]
    exact Or.inr (Finset.mem_insert_self ..)
  refine ⟨(h.follows hcallers (hcloses ▸ h.closes) ?_ ⟨fun _ => Or.inr ?_, fun hp => ?_⟩ ?_
    (fun _ => hkept) (grows_of_eq hactions) fun _ a _ ha hw => ⟨a, hactions ▸ ha, hw⟩).1, Or.inl hkept⟩
  · rw [hruntime]
    exact h.closed
  · rw [hruntime]
    exact hbusy
  · rw [hruntime] at hp
    exact absurd rfl (Finset.mem_erase.mp hp).1
  · rw [hruntime]
    rfl

theorem Serving.congr (h : Serving r p loop)
    (hclosing : (after.runtimes r).closing = (loop.runtimes r).closing)
    (hcurrent : (after.runtimes r).current = (loop.runtimes r).current)
    (hsuppressed : (after.runtimes r).suppressReapply = (loop.runtimes r).suppressReapply) :
    Serving r p after :=
  ⟨hclosing.trans h.closing, hcurrent ▸ h.current, hsuppressed ▸ h.suppressed⟩

theorem modify_concat {α : Type} (l : List α) (a : α) (f : α → α) :
    (l ++ [a]).modify l.length f = l ++ [f a] := by
  induction l with
  | nil => rfl
  | cons b l ih =>
    rw [List.cons_append, List.length_cons, List.modify_succ_cons, ih]
    rfl

/-- The check that the timer has created runs at once. -/
theorem Watching.startedEager (h : Watching r p loop) (hserving : Serving r p loop)
    (hpending : p ∈ (loop.runtimes r).watcher.pending) {created : Loop}
    (hcallers : created.callers = loop.callers ++ [⟨.check, r, p, .reconcile, .created⟩])
    (hactions : created.actions = loop.actions) (hcloses : created.closes = loop.closes)
    (hruntime : created.runtimes r = (loop.runtimes r).timerFired p)
    (hafter : after = (created.asyncAction loop.callers.length
      ⟨.check, r, p, .reconcile, .created⟩).modify r (·.checkCreated p loop.callers.length)) :
    Watching r p after ∧ Owed r p after := by
  have hcreated : Serving r p created := by
    refine hserving.congr ?_ ?_ ?_ <;> rw [hruntime] <;> rfl
  rw [asyncAction_eq hcreated _ rfl rfl] at hafter
  subst hafter
  have hnew := admit_new created ⟨r, p, .reconcile, .waiting⟩
  have hchecks : Checks r p ⟨.check, r, p, .reconcile, .awaiting created.actions.length⟩ :=
    ⟨rfl, rfl, rfl, nofun⟩
  refine h.started hpending hchecks rfl ?_ ?_ ?_ ?_ hcloses ?_
  · have hset := modify_concat loop.callers ⟨.check, r, p, .reconcile, .created⟩ fun c =>
      { c with stage := .awaiting created.actions.length }
    rw [← hcallers] at hset
    exact hset
  · rintro t ⟨⟩
    exact ⟨_, hnew, rfl, rfl, rfl⟩
  · exact Or.inr ⟨_, _, rfl, hnew, rfl⟩
  · intro t a ha
    exact grows_admitAction created _ t a (hactions ▸ ha)
  · rw [modify_self]
    have hadmits : ((created.admitAction ⟨r, p, .reconcile, .waiting⟩).runtimes r).watcher =
        (created.runtimes r).watcher := by
      unfold Loop.admitAction
      rw [modify_self]
    unfold checkCreated modifyWatcher
    exact congrArg (fun watcher : PatchWatcher =>
      { watcher with running := watcher.running.insert p loop.callers.length })
      (hadmits.trans (congrArg Runtime.watcher hruntime))

theorem Watching.fireOwn (h : Watching r p loop) (hserving : Serving r p loop)
    (hpending : p ∈ (loop.runtimes r).watcher.pending) (eager : Bool) :
    Watching r p (loop.fire r p eager) ∧ Owed r p (loop.fire r p eager) := by
  have hfired : (loop.modify r (·.timerFired p)).runtimes r = (loop.runtimes r).timerFired p :=
    modify_self ..
  unfold fire
  dsimp only
  rw [hfired, if_neg (by simp [timerFired, modifyWatcher, h.closed, hserving.closing])]
  split
  · rename_i hbusy
    refine h.dirtied hbusy rfl rfl rfl ?_
    rw [modify_self, hfired]
  · cases eager with
    | false =>
      have hchecks : Checks r p ⟨.check, r, p, .reconcile, .created⟩ := ⟨rfl, rfl, rfl, nofun⟩
      refine h.started hpending hchecks rfl rfl (fun t ht => ?_) (Or.inl rfl) (grows_of_eq rfl) rfl ?_
      · cases ht
      rw [if_neg (by nofun), modify_self]
      exact congrArg (fun runtime : Runtime => (runtime.checkCreated p loop.callers.length).watcher)
        hfired
    | true =>
      rw [if_pos rfl]
      refine h.startedEager hserving hpending ?_ ?_ ?_ ?_ rfl
      · rfl
      · rfl
      · rfl
      · exact hfired

theorem same_timerFired {runtime : Runtime} {q : Text} (h : p ≠ q) :
    Same p runtime (runtime.timerFired q) := by
  refine ⟨?_, .rfl, rfl, .rfl, rfl, .rfl⟩
  simp [timerFired, modifyWatcher, h]

theorem same_markDirty {runtime : Runtime} {q : Text} (h : p ≠ q) :
    Same p runtime (runtime.markDirty q) := by
  refine ⟨.rfl, ?_, rfl, .rfl, rfl, .rfl⟩
  simp [markDirty, modifyWatcher, h]

theorem same_checkCreated {runtime : Runtime} {q : Text} {index : Nat} (h : p ≠ q) :
    Same p runtime (runtime.checkCreated q index) :=
  ⟨.rfl, .rfl, AList.lookup_insert_ne h, .rfl, rfl, .rfl⟩

theorem Watching.modifySame (h : Watching r p loop) {runtime : Nat} {f : Runtime → Runtime}
    (hsame : runtime = r → Same p (loop.runtimes r) (f (loop.runtimes r))) :
    Follows r p loop (loop.modify runtime f) :=
  h.follows_same rfl rfl h.closes (same_modify rfl hsame)

/-- Events on some patches. -/
theorem Watching.modifySettled (h : Watching r p loop) {runtime : Nat} {f : Runtime → Runtime}
    (hsettled : runtime = r → Settled p (loop.runtimes r) (f (loop.runtimes r)) ∧
      (Runtime.Kept p (loop.runtimes r) → Runtime.Kept p (f (loop.runtimes r)))) :
    Follows r p loop (loop.modify runtime f) := by
  by_cases hr : runtime = r
  · subst hr
    obtain ⟨hsettled, hkept⟩ := hsettled rfl
    refine h.follows rfl h.closes ?_ ?_ ?_ ?_ (grows_of_eq rfl) fun _ a _ ha hw => ⟨a, ha, hw⟩
    · rw [modify_self]
      exact hsettled.isOpen.1
    · rw [modify_self]
      exact hsettled.tidy
    · rw [modify_self]
      exact hsettled.running
    · rw [modify_self]
      exact hkept
  · exact h.modifySame fun hruntime => absurd hruntime hr

/-- A timer of another patch. -/
theorem Watching.fireOther (h : Watching r p loop) (hserving : Serving r p loop) {runtime : Nat}
    {q : Text} (hother : ¬ (runtime = r ∧ q = p)) (eager : Bool) :
    Follows r p loop (loop.fire runtime q eager) := by
  have hne (hruntime : runtime = r) : p ≠ q := fun hpatch => hother ⟨hruntime, hpatch.symm⟩
  have hchecks : ¬ Checks r p ⟨.check, runtime, q, .reconcile, .created⟩ :=
    fun hchecks => hother ⟨hchecks.runtime, hchecks.patchId⟩
  have hfired := h.modifySame (f := (·.timerFired q)) fun hr => same_timerFired (hne hr)
  have hserving' : Serving r p (loop.modify runtime (·.timerFired q)) :=
    hserving.congr (modify_field (g := Runtime.closing) (by intro _; rfl) r)
      (modify_field (g := Runtime.current) (by intro _; rfl) r)
      (modify_field (g := Runtime.suppressReapply) (by intro _; rfl) r)
  unfold fire
  dsimp only
  generalize loop.modify runtime (·.timerFired q) = fired at hfired hserving' ⊢
  split
  · exact hfired
  · split
    · exact hfired.trans (hfired.1.modifySame fun hr => same_markDirty (hne hr))
    · have hadded : Follows r p fired
          (fired.addCaller ⟨.check, runtime, q, .reconcile, .created⟩) :=
        hfired.1.append rfl hchecks rfl rfl rfl .refl
      cases eager with
      | false =>
        exact (hfired.trans hadded).trans (hadded.1.modifySame fun hr => same_checkCreated (hne hr))
      | true =>
        have hadding : Serving r p (fired.addCaller ⟨.check, runtime, q, .reconcile, .created⟩) :=
          hserving'.congr rfl rfl rfl
        have hstarted := hadded.1.asyncAction hadding (List.getElem?_concat_length ..) rfl
        exact ((hfired.trans hadded).trans hstarted).trans
          (hstarted.1.modifySame fun hr => same_checkCreated (hne hr))

/-- A reconcile of the patch takes the lock. -/
def Enters (r : Nat) (p : Text) (loop : Loop) (move : Move) (after : Loop) : Prop :=
  ∃ task action, move = .begin task ∧ loop.actions[task]? = some action ∧ action.runtime = r ∧
    action.patchId = p ∧ action.action = .reconcile ∧ after.lock = some (.action task)

/-- An action takes the lock. -/
theorem Watching.begins (h : Watching r p loop) {task : Nat} {action : ActionTask}
    (hfound : loop.actions[task]? = some action) (hcallers : after.callers = loop.callers)
    (hcloses : after.closes = loop.closes)
    (hactions : after.actions = (loop.setAction task .preparing).actions)
    (hwatcher : (after.runtimes r).watcher = (loop.runtimes r).watcher)
    (hbusy : p ∈ (loop.runtimes r).busy → p ∈ (after.runtimes r).busy)
    (hlock : after.lock = some (.action task)) :
    Watching r p after ∧ (Owed r p loop → Enters r p loop (.begin task) after ∨ Owed r p after) := by
  refine ⟨h.frame hcallers (hcloses ▸ h.closes) (hwatcher ▸ h.closed) ⟨?_, ?_⟩ (hwatcher ▸ rfl) ?_,
    fun howed => ?_⟩
  · rw [hwatcher]
    exact fun hp => (h.tidy.dirty hp).imp_right hbusy
  · rw [hwatcher]
    exact h.tidy.pending
  · intro t a ha
    obtain ⟨b, hb, hsame⟩ := grows_setAction t a ha
    exact ⟨b, hactions ▸ hb, hsame⟩
  · by_cases hown : action.runtime = r ∧ action.patchId = p ∧ action.action = .reconcile
    · exact Or.inl ⟨task, action, rfl, hfound, hown.1, hown.2.1, hown.2.2, hlock⟩
    · refine Or.inr (howed.frame hcallers (hwatcher ▸ rfl) ?_ fun t a hawaited ha hwaiting =>
        ⟨a, hactions ▸ waiting_setAction ?_ ha, hwaiting⟩)
      · unfold Runtime.Kept
        rw [hwatcher]
        exact id
      · rintro rfl
        exact hown (h.awaited hawaited hfound)

theorem Watching.executeAction (h : Watching r p loop) (hserving : Serving r p loop) {task : Nat}
    {action : ActionTask} (hfound : loop.actions[task]? = some action) :
    Watching r p (loop.executeAction task action) ∧ (Owed r p loop →
      Enters r p loop (.begin task) (loop.executeAction task action) ∨
        Owed r p (loop.executeAction task action)) := by
  unfold Loop.executeAction
  split
  · refine h.begins hfound rfl rfl rfl ?_ ?_ rfl
    · exact modify_field (g := Runtime.watcher) (by intro _; rfl) r
    · intro hp
      by_cases hr : r = action.runtime
      · subst hr
        rw [modify_self]
        exact Finset.mem_insert_of_mem hp
      · rw [modify_of_ne _ hr]
        exact hp
  · rename_i hcurrent
    have hother : ¬ (action.runtime = r ∧ action.patchId = p) := by
      rintro ⟨rfl, rfl⟩
      exact hcurrent hserving.current
    obtain ⟨hwatching, howed⟩ := h.finish hserving hfound (Or.inr hother)
    exact ⟨hwatching, Or.inr ∘ howed⟩

/-- What the runtime owes, it has done or still owes. -/
def Keeps (r : Nat) (p : Text) (loop : Loop) (move : Move) (after : Loop) : Prop :=
  Watching r p after ∧ (Owed r p loop → Enters r p loop move after ∨ Owed r p after)

theorem Follows.keeps {move : Move} (h : Follows r p loop after) : Keeps r p loop move after :=
  ⟨h.1, Or.inr ∘ h.2⟩

theorem leave_of_ne {call : Nat} {close : Close} {stage : CloseStage} (h : r ≠ close.runtime) :
    (loop.leave call close stage).runtimes r = loop.runtimes r := modify_of_ne _ h

/-- A step of a call of `async_close`, which is of another runtime. -/
theorem Watching.closeStep (h : Watching r p loop) {call : Nat} {close : Close} {stage : CloseStage}
    (hfound : loop.closes[call]? = some close) (hcallers : after.callers = loop.callers)
    (hactions : after.actions = loop.actions)
    (hcloses : after.closes = (loop.setClose call stage).closes)
    (hruntimes : r ≠ close.runtime → after.runtimes r = loop.runtimes r) : Follows r p loop after := by
  have hne : r ≠ close.runtime := (h.closes call close hfound).symm
  refine h.follows_same hcallers hactions (fun c d hd => ?_) ?_
  · obtain ⟨cl, hcl, hruntime, -⟩ := setClose_some (hcloses ▸ hd)
    rw [hruntime]
    exact h.closes c cl hcl
  · rw [hruntimes hne]
    exact .refl

theorem Watching.step {move : Move} (h : Watching r p loop) (hserving : Serving r p loop)
    (hafter : Serving r p after)
    (hcancel : ∀ i caller, move = .cancel i → loop.callers[i]? = some caller → ¬ Checks r p caller)
    (hstep : loop.step move = some after) : Keeps r p loop move after := by
  have hopen : Open p (loop.runtimes r) := ⟨h.closed, hserving.suppressed⟩
  cases move with
  | call runtime patchId action =>
    cases hstep
    have hother : ¬ Checks r p ⟨.service, runtime, patchId, action, .created⟩ :=
      fun hchecks => nomatch hchecks.kind
    exact Follows.keeps (h.append rfl hother rfl rfl rfl .refl)
  | schedule runtime patchId =>
    unfold Loop.step at hstep
    simp only at hstep
    split at hstep
    · cases hstep
    · cases hstep
      have hother : ¬ Checks r p ⟨.background, runtime, patchId, .reconcile, .created⟩ :=
        fun hchecks => nomatch hchecks.kind
      refine Follows.keeps (h.append rfl hother rfl rfl rfl ?_)
      exact same_modify rfl fun _ => ⟨.rfl, .rfl, rfl, .rfl, rfl, .rfl⟩
  | start index =>
    obtain ⟨caller, hfound, hstep⟩ := Option.bind_eq_some_iff.mp hstep
    split at hstep
    · rename_i hcreated
      cases hstep
      exact Follows.keeps (h.asyncAction hserving hfound hcreated)
    · cases hstep
  | resume index =>
    obtain ⟨caller, hfound, hstep⟩ := Option.bind_eq_some_iff.mp hstep
    split at hstep
    · rename_i task hstage
      split at hstep
      · rename_i hdone
        cases hstep
        refine Follows.keeps (h.endCaller hserving hfound (by rw [hstage]; nofun) fun _ => ⟨rfl, ?_⟩)
        rintro (hcreated | ⟨t, a, hawaiting, ha, hwaiting⟩)
        · exact absurd (hstage.symm.trans hcreated) nofun
        · cases hstage.symm.trans hawaiting
          unfold isDone at hdone
          rw [ha, Option.any_some, decide_eq_true_eq, hwaiting] at hdone
          cases hdone
      · cases hstep
    · cases hstep
  | cancel index =>
    obtain ⟨caller, hfound, hstep⟩ := Option.bind_eq_some_iff.mp hstep
    have hother := hcancel index caller rfl hfound
    split at hstep
    · rename_i hstage
      cases hstep
      exact Follows.keeps (h.endCaller hserving hfound (by rw [hstage]; nofun) fun hc => absurd hc hother)
    · rename_i hstage
      cases hstep
      exact Follows.keeps (h.endCaller hserving hfound (by rw [hstage]; nofun) fun hc => absurd hc hother)
    · cases hstep
  | begin task =>
    obtain ⟨action, hfound, hstep⟩ := Option.bind_eq_some_iff.mp hstep
    split at hstep
    · cases hstep
      exact h.executeAction hserving hfound
    · cases hstep
  | prepared task =>
    obtain ⟨action, hfound, hholds, hstep⟩ := advance_eq_some.mp hstep
    split at hstep
    · cases hstep
      exact Follows.keeps (h.setAction hfound hholds rfl rfl rfl rfl rfl)
    · cases hstep
  | returned task result update =>
    obtain ⟨action, hfound, hholds, hstep⟩ := advance_eq_some.mp hstep
    split at hstep
    · cases hstep
      unfold conclude
      split
      · cases update with
        | done =>
          exact Follows.keeps (h.setAction hfound hholds rfl rfl rfl
            (modify_field (g := Runtime.watcher) (by intro _; rfl) r)
            (modify_field (g := Runtime.busy) (by intro _; rfl) r))
        | failed =>
          exact Follows.keeps (h.setAction hfound hholds rfl rfl rfl
            (modify_field (g := Runtime.watcher) (by intro _; rfl) r)
            (modify_field (g := Runtime.busy) (by intro _; rfl) r))
        | raised => exact Follows.keeps (h.finish hserving hfound (Or.inl hholds))
      · exact Follows.keeps (h.setAction hfound hholds rfl rfl rfl rfl rfl)
    · cases hstep
  | write task =>
    obtain ⟨action, hfound, hholds, hstep⟩ := advance_eq_some.mp hstep
    split at hstep
    · cases hstep
      exact Follows.keeps (h.follows_same rfl rfl h.closes .refl)
    · cases hstep
  | recorded task =>
    obtain ⟨action, hfound, hholds, hstep⟩ := advance_eq_some.mp hstep
    dsimp only at hstep
    split at hstep
    · cases hstep
      exact Follows.keeps (h.setAction hfound hholds rfl rfl rfl rfl rfl)
    · cases hstep
  | saved task =>
    obtain ⟨action, hfound, hholds, hstep⟩ := advance_eq_some.mp hstep
    split at hstep
    · cases hstep
      have hlogged : Follows r p loop { loop with log := loop.log ++ [Entry.saved (.action task)] } :=
        h.follows_same rfl rfl h.closes .refl
      have hserving' : Serving r p { loop with log := loop.log ++ [Entry.saved (.action task)] } :=
        hserving.congr rfl rfl rfl
      exact Follows.keeps (hlogged.trans (hlogged.1.finish hserving' hfound (Or.inl hholds)))
    · cases hstep
  | raised task =>
    obtain ⟨action, hfound, hholds, hstep⟩ := advance_eq_some.mp hstep
    cases hstep
    exact Follows.keeps (h.finish hserving hfound (Or.inl hholds))
  | event runtime patchIds =>
    cases hstep
    refine Follows.keeps (h.modifySettled fun _ => ?_)
    unfold handleEvent
    split
    · exact ⟨⟨hopen, h.tidy, rfl⟩, id⟩
    · obtain ⟨hsettled, hkept⟩ := settled_debounces patchIds hopen h.tidy
      exact ⟨hsettled, fun hp => hkept (Or.inl hp)⟩
  | directoryEvent runtime refresh =>
    unfold Loop.step at hstep
    simp only at hstep
    split at hstep
    · cases hstep
    · cases hstep
      exact Follows.keeps (h.modifySame fun _ => ⟨.rfl, .rfl, rfl, .rfl, rfl, .rfl⟩)
  | refreshed runtime refresh =>
    cases hstep
    exact Follows.keeps (h.modifySame fun _ => ⟨.rfl, .rfl, rfl, .rfl, rfl, .rfl⟩)
  | recovered runtime patchIds =>
    cases hstep
    obtain ⟨hsettled, hkept⟩ := settled_debounces patchIds hopen h.tidy
    exact Follows.keeps (h.modifySettled fun _ => ⟨hsettled, fun hp => hkept (Or.inl hp)⟩)
  | fire runtime q eager =>
    unfold Loop.step at hstep
    simp only at hstep
    split at hstep
    · rename_i hpending
      cases hstep
      by_cases hown : runtime = r ∧ q = p
      · obtain ⟨rfl, rfl⟩ := hown
        obtain ⟨hwatching, howed⟩ := h.fireOwn hserving hpending eager
        exact ⟨hwatching, fun _ => Or.inr howed⟩
      · exact Follows.keeps (h.fireOther hserving hown eager)
    · cases hstep
  | submit runtime worker =>
    cases hstep
    exact Follows.keeps (h.modifySame fun _ => ⟨.rfl, .rfl, rfl, .rfl, rfl, .rfl⟩)
  | complete runtime worker =>
    cases hstep
    exact Follows.keeps (h.modifySame fun _ => ⟨.rfl, .rfl, rfl, .rfl, rfl, .rfl⟩)
  | guard =>
    unfold Loop.step at hstep
    simp only at hstep
    split at hstep
    · cases hstep
      exact Follows.keeps (h.follows_same rfl rfl h.closes .refl)
    · cases hstep
  | unguard =>
    unfold Loop.step at hstep
    simp only at hstep
    split at hstep
    · cases hstep
      exact Follows.keeps (h.follows_same rfl rfl h.closes .refl)
    · cases hstep
  | edit runtime current =>
    cases hstep
    exact Follows.keeps (h.modifySame fun _ => ⟨.rfl, .rfl, rfl, .rfl, rfl, .rfl⟩)
  | setClosing runtime closing =>
    cases hstep
    exact Follows.keeps (h.modifySame fun _ => ⟨.rfl, .rfl, rfl, .rfl, rfl, .rfl⟩)
  | close runtime =>
    cases hstep
    refine Follows.keeps (h.follows_same rfl rfl (fun c cl hcl => ?_) (same_modify rfl fun _ =>
      ⟨.rfl, .rfl, rfl, .rfl, rfl, .rfl⟩))
    obtain hold | ⟨-, rfl⟩ := append_some hcl
    · exact h.closes c cl hold
    · rintro rfl
      have hclosing := hafter.closing
      rw [modify_self] at hclosing
      cases hclosing
  | enter call =>
    obtain ⟨close, hfound, hstep⟩ := Option.bind_eq_some_iff.mp hstep
    simp only at hstep
    split at hstep
    · cases hstep
    · split at hstep
      · cases hstep
        exact Follows.keeps (h.closeStep hfound rfl rfl rfl fun _ => rfl)
      · cases hstep
        exact Follows.keeps (h.closeStep hfound rfl rfl rfl fun hne => modify_of_ne _ hne)
  | stopped call =>
    obtain ⟨close, hfound, -, hstep⟩ := advanceClose_eq_some.mp hstep
    dsimp only at hstep
    split at hstep
    · cases hstep
      exact Follows.keeps (h.closeStep hfound rfl rfl rfl fun _ => rfl)
    · cases hstep
  | joined call =>
    obtain ⟨close, hfound, -, hstep⟩ := advanceClose_eq_some.mp hstep
    dsimp only at hstep
    split at hstep
    · split at hstep
      · cases hstep
        exact Follows.keeps (h.closeStep hfound rfl rfl rfl fun _ => rfl)
      · cases hstep
    · cases hstep
  | drained call =>
    obtain ⟨close, hfound, -, hstep⟩ := advanceClose_eq_some.mp hstep
    split at hstep
    · split at hstep
      · cases hstep
        exact Follows.keeps (h.closeStep hfound rfl rfl rfl fun _ => rfl)
      · cases hstep
    · cases hstep
  | reaped call =>
    obtain ⟨close, hfound, -, hstep⟩ := advanceClose_eq_some.mp hstep
    split at hstep
    · split at hstep
      · cases hstep
        exact Follows.keeps (h.closeStep hfound rfl rfl rfl fun _ => rfl)
      · cases hstep
    · cases hstep
  | relock call =>
    obtain ⟨close, hfound, -, hstep⟩ := advanceClose_eq_some.mp hstep
    split at hstep
    · cases hstep
      exact Follows.keeps (h.closeStep hfound rfl rfl rfl fun _ => rfl)
    · cases hstep
  | closeSaved call =>
    obtain ⟨close, hfound, -, hstep⟩ := advanceClose_eq_some.mp hstep
    split at hstep
    · cases hstep
      refine Follows.keeps (h.closeStep hfound rfl rfl rfl fun hne => ?_)
      rw [modify_of_ne _ hne]
      exact leave_of_ne hne
    · cases hstep
  | closeRaised call =>
    obtain ⟨close, hfound, -, hstep⟩ := advanceClose_eq_some.mp hstep
    cases hstep
    exact Follows.keeps (h.closeStep hfound rfl rfl rfl fun hne => leave_of_ne hne)

/-! ## Runs -/

/-- The runtime serves the patch before and after the step, which does not cancel its check. -/
structure Serves (r : Nat) (p : Text) (loop : Loop) (move : Move) (after : Loop) : Prop where
  before : Serving r p loop
  after : Serving r p after
  check : ∀ i caller, move = .cancel i → loop.callers[i]? = some caller → ¬ Checks r p caller

/-- The move does not cancel the check of the patch. -/
def spares (r : Nat) (p : Text) (loop : Loop) : Move → Bool
  | .cancel i => (loop.callers[i]?).all fun caller => !decide (Checks r p caller)
  | _ => true

instance (r : Nat) (p : Text) (loop : Loop) (move : Move) (after : Loop) :
    Decidable (Serves r p loop move after) :=
  decidable_of_iff (Serving r p loop ∧ Serving r p after ∧ spares r p loop move) <| by
    constructor
    · rintro ⟨hbefore, hafter, hspares⟩
      refine ⟨hbefore, hafter, ?_⟩
      rintro i caller rfl hcaller
      rw [spares, hcaller] at hspares
      simpa using hspares
    · rintro ⟨hbefore, hafter, hcheck⟩
      refine ⟨hbefore, hafter, ?_⟩
      cases move with
      | cancel i =>
        rw [spares]
        cases hcaller : loop.callers[i]? with
        | none => rfl
        | some caller => simpa using hcheck i caller rfl hcaller
      | _ => rfl

theorem watching_idle (current suppressReapply : Nat → Finset Text) :
    Watching r p (idle current suppressReapply) := by
  refine ⟨rfl, ⟨fun h => ?_, fun h => ?_⟩, fun c cl hcl => ?_, fun i hi => ?_, fun i caller hi => ?_,
    fun i caller hi => ?_⟩
  · exact absurd h (Finset.notMem_empty _)
  · exact absurd h (Finset.notMem_empty _)
  · cases hcl
  · cases hi
  · cases hi
  · cases hi

theorem watching_of_run {loop final : Loop} {moves : List Move} (h : Watching r p loop)
    (hserves : Traces.Every Loop.step (Serves r p) loop moves)
    (hrun : Traces.after Loop.step loop moves = some final) : Watching r p final :=
  Traces.invariant (fun _ _ _ hs hstep hl => (hs.step hl.before hl.after hl.check hstep).1) h hserves
    hrun

/-- An event makes the patch pending or dirty. -/
theorem owed_event (h : Watching r p loop) (hserving : Serving r p loop) {patchIds : List Text}
    (hmem : p ∈ patchIds) (hstep : loop.step (.event r patchIds) = some after) : Owed r p after := by
  cases hstep
  refine Or.inl ?_
  rw [modify_self]
  unfold handleEvent
  rw [if_neg (by simp [h.closed, hserving.closing])]
  exact (settled_debounces patchIds ⟨h.closed, hserving.suppressed⟩ h.tidy).2 (Or.inr hmem)

/-- While the runtime serves the patch: a dirty patch is running or busy, a pending one is not
running, and after an event the patch is pending, dirty, or its check has not entered its locked
section, until a reconcile of it has. -/
theorem events_survive {current suppressReapply : Nat → Finset Text} {final : Loop}
    {moves : List Move}
    (hserves : Traces.Every Loop.step (Serves r p) (idle current suppressReapply) moves)
    (hrun : Traces.after Loop.step (idle current suppressReapply) moves = some final) :
    (p ∈ (final.runtimes r).watcher.dirty →
      p ∈ (final.runtimes r).watcher.running ∨ p ∈ (final.runtimes r).busy) ∧
    ¬ (p ∈ (final.runtimes r).watcher.pending ∧ p ∈ (final.runtimes r).watcher.running) ∧
    ∀ before patchIds later seen, moves = before ++ .event r patchIds :: later → p ∈ patchIds →
      Traces.after Loop.step (idle current suppressReapply) (before ++ [.event r patchIds]) =
        some seen →
      ¬ Traces.Every Loop.step (fun s move t => ¬ Enters r p s move t) seen later ∨
        Owed r p final := by
  have hfinal := watching_of_run (watching_idle current suppressReapply) hserves hrun
  refine ⟨hfinal.tidy.dirty, fun h => hfinal.tidy.pending h.1 h.2, ?_⟩
  rintro before patchIds later seen rfl hmem hseen
  rw [or_iff_not_imp_left, not_not]
  intro hnever
  rw [Traces.every_append] at hserves
  obtain ⟨loop, hloop, hrest⟩ := Traces.after_append.mp hrun
  obtain ⟨seen', hevent, hlater⟩ := Traces.after_cons.mp hrest
  obtain ⟨loop', hloop', hevent'⟩ := Traces.after_append.mp hseen
  cases hloop.symm.trans hloop'
  obtain ⟨seen'', hevent', hend⟩ := Traces.after_cons.mp hevent'
  cases hend
  cases hevent.symm.trans hevent'
  have hwatching := watching_of_run (watching_idle current suppressReapply) hserves.1 hloop
  obtain ⟨hserve, hserves⟩ := hserves.2 loop hloop seen hevent
  have howed := owed_event hwatching hserve.before hmem hevent
  obtain ⟨-, howed⟩ := Traces.invariant (I := fun s => Watching r p s ∧ Owed r p s)
    (fun s l t hs hstep hl => by
      obtain ⟨hwatching, howed⟩ := hs.1.step hl.1.before hl.1.after hl.1.check hstep
      exact ⟨hwatching, (howed hs.2).resolve_left hl.2⟩)
    ⟨(hwatching.step hserve.before hserve.after hserve.check hevent).1, howed⟩
    (hserves.and hnever) hlater
  exact howed

/-- The event comes while a manual action on the patch has the lock. -/
theorem events_survive_busy : ∃ final, Traces.after Loop.step (idle (fun _ => {['p']}) fun _ => ∅)
      [.call 0 ['p'] .apply, .start 0, .begin 0, .event 0 [['p']], .raised 0, .fire 0 ['p'] false] =
        some final ∧ Owed 0 ['p'] final := by
  have hrun : (Traces.after Loop.step (idle (fun _ => {['p']}) fun _ => ∅)
      [.call 0 ['p'] .apply, .start 0, .begin 0, .event 0 [['p']], .raised 0,
        .fire 0 ['p'] false]).isSome := by decide +kernel
  have hseen : (Traces.after Loop.step (idle (fun _ => {['p']}) fun _ => ∅)
      ([.call 0 ['p'] .apply, .start 0, .begin 0] ++ [.event 0 [['p']]])).isSome := by decide +kernel
  obtain ⟨final, hfinal⟩ := Option.isSome_iff_exists.mp hrun
  obtain ⟨seen, hseen⟩ := Option.isSome_iff_exists.mp hseen
  have hserves : Traces.Every Loop.step (Serves 0 ['p']) (idle (fun _ => {['p']}) fun _ => ∅)
      [.call 0 ['p'] .apply, .start 0, .begin 0, .event 0 [['p']], .raised 0,
        .fire 0 ['p'] false] := by decide +kernel
  refine ⟨final, hfinal, ((events_survive hserves hfinal).2.2 _ _ [.raised 0, .fire 0 ['p'] false]
    seen rfl (List.mem_singleton_self _) hseen).resolve_left fun h => h ?_⟩
  intro s _
  refine ⟨?_, fun t _ => ⟨?_, trivial⟩⟩
  · rintro ⟨_, _, hmove, -⟩
    cases hmove
  · rintro ⟨_, _, hmove, -⟩
    cases hmove

end Loop

end Hapatchy.Tasks
