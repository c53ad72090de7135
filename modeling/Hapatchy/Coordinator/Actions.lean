import Hapatchy.Coordinator.Rechecks
import Hapatchy.Reconciler.Outcome

/-!
# What a move does

One case for each kind of move, with all that it leaves. An action ends with a
result, with an exception that is no `PatchError`, or it awaits its next job.
-/

open Effects Prog

namespace Hapatchy

/-- Moves that leave the runtime, the files and the store alone. -/
def Move.Beside : Move → Prop
  | .save _ _ => True
  | .acquire _ => True
  | .drafted _ => True
  | .abandon => True
  | .commit _ => True
  | .update _ _ => True
  | .remove _ => True
  | .setRetention _ => True
  | _ => False

namespace System

variable {env : Env} {reconciler : Reconciler} {system after : System} {held : Held}
  {runtime : PatchManagerRuntime} {patchId : Text}

/-! ## Actions -/

/-- The reason that the state of a patch gives, or the stored one while nothing is set up. -/
def lastError (system : System) (patchId : Text) : Option Reason :=
  match system.runtime with
  | some runtime => (runtime.states.lookup patchId).bind PatchRuntimeState.lastError
  | none => (system.store.bind (AList.lookup patchId)).bind StateStore.Item.lastError

/-- What an action does with its result. -/
inductive Concludes (env : Env) (system : System) (runtime : PatchManagerRuntime) (held : Held)
    (result : ReconcileResult) (update : Update) : System → Prop
  | settled (denied : held.action = .revert → result.inspection.status = .securityError) :
      Concludes env system runtime held result update (system.settle env runtime held result)
  | raised (revert : held.action = .revert) (allowed : result.inspection.status ≠ .securityError)
      (lost : update = .raised ∨ held.patchId ∉ system.subentries ∨
        runtime.definitions.lookup held.patchId = none) :
      Concludes env system runtime held result update (system.release runtime)
  | disarmed {previous : PatchDefinition} (revert : held.action = .revert)
      (allowed : result.inspection.status ≠ .securityError) (done : update = .done)
      (present : held.patchId ∈ system.subentries)
      (lookup : runtime.definitions.lookup held.patchId = some previous) :
      Concludes env system runtime held result update
        ({ system with subentries := system.subentries.insert held.patchId previous.disarmed
            }.recordAndSave env
          { runtime with
            definitions := runtime.definitions.insert held.patchId previous.disarmed
            suppressReapply := runtime.suppressReapply.filter (· ≠ held.patchId) } held result)
  | gated {previous : PatchDefinition} (revert : held.action = .revert)
      (allowed : result.inspection.status ≠ .securityError) (failed : update = .failed)
      (present : held.patchId ∈ system.subentries)
      (lookup : runtime.definitions.lookup held.patchId = some previous) :
      Concludes env system runtime held result update
        (system.recordAndSave env
          { runtime with suppressReapply := held.patchId :: runtime.suppressReapply } held
          (unavailableResult result))

theorem settle_of_allowed {result : ReconcileResult}
    (h : result.inspection.status ≠ .securityError) :
    system.settle env runtime held result = system.recordAndSave env runtime held result := by
  unfold settle
  rw [haDenied_of_ne h]
  exact if_neg Bool.false_ne_true

theorem concludes (system : System) (runtime : PatchManagerRuntime) (held : Held)
    (result : ReconcileResult) (update : Update) :
    Concludes env system runtime held result update
      (system.conclude env runtime held result update) := by
  unfold conclude
  split
  · rename_i hrevert
    unfold disableAutoApply
    cases hlookup : runtime.definitions.lookup held.patchId with
    | none => exact .raised hrevert.1 hrevert.2 (Or.inr (Or.inr hlookup))
    | some previous =>
      cases update with
      | done =>
        by_cases hpresent : held.patchId ∈ system.subentries
        · simp only [hpresent, if_true, settle_of_allowed hrevert.2]
          exact .disarmed hrevert.1 hrevert.2 rfl hpresent hlookup
        · simp only [hpresent, if_false]
          exact .raised hrevert.1 hrevert.2 (Or.inr (Or.inl hpresent))
      | failed =>
        by_cases hpresent : held.patchId ∈ system.subentries
        · have hallowed : (unavailableResult result).inspection.status ≠ .securityError :=
            Status.noConfusion
          simp only [hpresent, if_true, settle_of_allowed hallowed]
          exact .gated hrevert.1 hrevert.2 rfl hpresent hlookup
        · simp only [hpresent, if_false]
          exact .raised hrevert.1 hrevert.2 (Or.inr (Or.inl hpresent))
      | raised => exact .raised hrevert.1 hrevert.2 (Or.inl rfl)
  · rename_i hkept
    exact .settled fun hrevert => by_contra fun hallowed => hkept ⟨hrevert, hallowed⟩

@[simp] theorem world_settle {result : ReconcileResult} :
    (system.settle env runtime held result).world = system.world := by
  unfold settle
  split <;> rfl

theorem Concludes.world {result : ReconcileResult} {update : Update}
    (h : Concludes env system runtime held result update after) : after.world = system.world := by
  cases h with
  | settled => exact world_settle
  | _ => rfl

/-- The result that an action has in a move, and the world then. -/
inductive Ends (env : Env) (reconciler : Reconciler) (system : System)
    (runtime : PatchManagerRuntime) (held : Held) :
    Move → Update → ReconcileResult → World → Prop
  | checked {update : Update} {result : ReconcileResult} {world : World} {out : Except Exc Unit}
      (phase : held.phase = .checking)
      (check : reconciler.policy.checkDefinition env held.definition system.world = (out, world))
      (failed : failure held out = some result) :
      Ends env reconciler system runtime held (.checked update) update result world
  | loaded {source : Except Exc Bytes} {update : Update} {result : ReconcileResult}
      (phase : held.phase = .loading) (failed : failure held (loadSource source) = some result) :
      Ends env reconciler system runtime held (.loaded source update) update result system.world
  | ran {update : Update} {source : Bytes} {result : ReconcileResult} {world : World}
      {out : Except Exc ReconcileResult} (phase : held.phase = .running source)
      (run : run env reconciler (job runtime held source) held.pending system.world = (out, world))
      (returned : out = .ok result ∨ failure held out = some result) :
      Ends env reconciler system runtime held (.ran update) update result world

/-- An exception that is no `PatchError` ends the action, and the world then. -/
inductive Breaks (env : Env) (reconciler : Reconciler) (system : System)
    (runtime : PatchManagerRuntime) (held : Held) : Move → World → Prop
  | checked {update : Update} {e : Exc} {world : World} (phase : held.phase = .checking)
      (check : reconciler.policy.checkDefinition env held.definition system.world =
        (.error e, world)) :
      Breaks env reconciler system runtime held (.checked update) world
  | loaded {source : Except Exc Bytes} {update : Update} (phase : held.phase = .loading) :
      Breaks env reconciler system runtime held (.loaded source update) system.world
  | ran {update : Update} {source : Bytes} {e : Exc} {world : World}
      (phase : held.phase = .running source)
      (run : run env reconciler (job runtime held source) held.pending system.world =
        (.error e, world)) :
      Breaks env reconciler system runtime held (.ran update) world

/-- What a move of the action that holds the lock leaves. -/
inductive Acts (env : Env) (reconciler : Reconciler) (system : System)
    (runtime : PatchManagerRuntime) (held : Held) : Move → System → Prop
  | checked {update : Update} {world : World} (phase : held.phase = .checking)
      (check : reconciler.policy.checkDefinition env held.definition system.world =
        (.ok (), world)) :
      Acts env reconciler system runtime held (.checked update)
        ({ system with world := world }.withRuntime
          { runtime with holder := some { held with phase := .loading } })
  | loaded {out : Except Exc Bytes} {source : Bytes} {update : Update}
      (phase : held.phase = .loading) (load : loadSource out = .ok source) :
      Acts env reconciler system runtime held (.loaded out update)
        (system.withRuntime { runtime with holder := some { held with phase := .running source } })
  | concluded {move : Move} {update : Update} {result : ReconcileResult} {world : World}
      {after : System} (ends : Ends env reconciler system runtime held move update result world)
      (concludes : Concludes env { system with world := world } runtime held result update after) :
      Acts env reconciler system runtime held move after
  | raised {move : Move} {world : World}
      (breaks : Breaks env reconciler system runtime held move world) :
      Acts env reconciler system runtime held move
        ({ system with world := world }.release runtime)
  | refreshed {result : ReconcileResult} (phase : held.phase = .refreshing result) :
      Acts env reconciler system runtime held (.refreshed true)
        (system.recordAndSave env runtime held result)
  | unrefreshed {result : ReconcileResult} (phase : held.phase = .refreshing result) :
      Acts env reconciler system runtime held (.refreshed false) (system.release runtime)
  | saved {returned : Bool} {items : Dict Text StateStore.Item} (phase : held.phase = .saving items) :
      Acts env reconciler system runtime held (.saved returned)
        ({ system with store := if returned then some items else system.store }.release runtime)

theorem failure_eq_some {α : Type} {out : Except Exc α} {result : ReconcileResult}
    (h : failure held out = some result) : ∃ e error, out = .error e ∧ e.patchError? = some error ∧
      result = failedResult held.pending error := by
  cases out with
  | ok a => cases h
  | error e =>
    obtain ⟨error, herror, rfl⟩ := Option.map_eq_some_iff.mp h
    exact ⟨e, error, rfl, herror, rfl⟩

/-- The outcome of a job: what follows it, a failure, or an exception that is no `PatchError`. -/
theorem continueWith_cases {α : Type} (env : Env) (system : System) (runtime : PatchManagerRuntime)
    (held : Held) (out : Except Exc α) (update : Update) (next : α → System) :
    (∃ a, out = .ok a ∧ system.continueWith env runtime held out update next = next a) ∨
      (∃ result, failure held out = some result ∧
        system.continueWith env runtime held out update next =
          system.conclude env runtime held result update) ∨
      (∃ e, out = .error e ∧ e.patchError? = none ∧
        system.continueWith env runtime held out update next = system.release runtime) := by
  cases out with
  | ok a => exact Or.inl ⟨a, rfl, rfl⟩
  | error e =>
    cases herror : e.patchError? with
    | some error =>
      refine Or.inr (Or.inl ⟨failedResult held.pending error, ?_, ?_⟩)
      · unfold failure
        simp only [herror, Option.map_some]
      · unfold continueWith
        simp only [herror]
    | none =>
      refine Or.inr (Or.inr ⟨e, rfl, herror, ?_⟩)
      unfold continueWith
      simp only [herror]

theorem checkDefinition_unreplaced {definition : PatchDefinition} {out : Except Exc Unit}
    {w w' : World} (h : reconciler.policy.checkDefinition env definition w = (out, w')) :
    ∃ new, w'.log = w.log ++ new ∧ replacements new = [] := by
  have hchecks : Does env Looks (reconciler.policy.checkDefinition env definition) :=
    PathPolicy.does_checkDefinition.mono fun _ => PathPolicy.Checks.looks
  exact (Steps.looked (hchecks.of_eq h)).2

/-- A run that raises what is no `PatchError` has replaced nothing. -/
theorem run_unreplaced {job : Job} {pendingDurability : Bool} {e : Exc} {w w' : World}
    (h : run env reconciler job pendingDurability w = (.error e, w')) :
    ∃ new, w'.log = w.log ++ new ∧ replacements new = [] := by
  cases henabled : job.definition.enabled with
  | false =>
    obtain ⟨-, result, ⟨⟩, -⟩ := run_disabled henabled h
  | true =>
    generalize hout : (Except.error e : Except Exc ReconcileResult) = out at h
    cases run_outcome henabled h with
    | raised hnone => exact hnone
    | kept => cases hout
    | unsynced => cases hout
    | synced => cases hout

theorem Breaks.unreplaced {move : Move} {world : World}
    (h : Breaks env reconciler system runtime held move world) :
    ∃ new, world.log = system.world.log ++ new ∧ replacements new = [] := by
  cases h with
  | checked hphase hcheck => exact checkDefinition_unreplaced hcheck
  | loaded => exact ⟨[], (List.append_nil _).symm, rfl⟩
  | ran hphase hrun => exact run_unreplaced hrun

theorem acts_checked {update : Update} (hruntime : system.runtime = some runtime)
    (hheld : runtime.holder = some held)
    (h : system.step env reconciler (.checked update) = some after) :
    Acts env reconciler system runtime held (.checked update) after := by
  obtain ⟨runtime', hruntime', h⟩ := Option.bind_eq_some_iff.mp h
  cases hruntime.symm.trans hruntime'
  obtain ⟨held', hheld', h⟩ := Option.bind_eq_some_iff.mp h
  cases hheld.symm.trans hheld'
  split at h
  · cases h
  · rename_i hphase
    have hphase := not_not.mp hphase
    obtain ⟨out, world, hout⟩ : ∃ out world,
        reconciler.policy.checkDefinition env held.definition system.world = (out, world) :=
      ⟨_, _, rfl⟩
    rw [hout] at h
    cases h
    rcases continueWith_cases env { system with world := world } runtime held out update fun _ =>
        { system with world := world }.withRuntime
          { runtime with holder := some { held with phase := .loading } } with
      ⟨_, rfl, heq⟩ | ⟨result, hfailed, heq⟩ | ⟨e, rfl, -, heq⟩
    · exact heq ▸ Acts.checked hphase hout
    · exact heq ▸ Acts.concluded (.checked hphase hout hfailed) (concludes ..)
    · exact heq ▸ Acts.raised (.checked hphase hout)

theorem acts_loaded {source : Except Exc Bytes} {update : Update}
    (hruntime : system.runtime = some runtime) (hheld : runtime.holder = some held)
    (h : system.step env reconciler (.loaded source update) = some after) :
    Acts env reconciler system runtime held (.loaded source update) after := by
  obtain ⟨runtime', hruntime', h⟩ := Option.bind_eq_some_iff.mp h
  cases hruntime.symm.trans hruntime'
  obtain ⟨held', hheld', h⟩ := Option.bind_eq_some_iff.mp h
  cases hheld.symm.trans hheld'
  split at h
  · cases h
  · rename_i hphase
    have hphase := not_not.mp hphase
    cases h
    rcases continueWith_cases env system runtime held (loadSource source) update fun source =>
        system.withRuntime { runtime with holder := some { held with phase := .running source } } with
      ⟨data, hload, heq⟩ | ⟨result, hfailed, heq⟩ | ⟨e, -, -, heq⟩
    · exact heq ▸ Acts.loaded hphase hload
    · exact heq ▸ Acts.concluded (.loaded hphase hfailed) (concludes ..)
    · have hraised : Acts env reconciler system runtime held (.loaded source update)
          ({ system with world := system.world }.release runtime) := .raised (.loaded hphase)
      exact heq ▸ hraised

theorem acts_ran {update : Update} (hruntime : system.runtime = some runtime)
    (hheld : runtime.holder = some held)
    (h : system.step env reconciler (.ran update) = some after) :
    Acts env reconciler system runtime held (.ran update) after := by
  obtain ⟨runtime', hruntime', h⟩ := Option.bind_eq_some_iff.mp h
  cases hruntime.symm.trans hruntime'
  obtain ⟨held', hheld', h⟩ := Option.bind_eq_some_iff.mp h
  cases hheld.symm.trans hheld'
  split at h
  · rename_i source hphase
    obtain ⟨out, world, hrun⟩ : ∃ out world, run env reconciler (job runtime held source)
        held.pending system.world = (out, world) := ⟨_, _, rfl⟩
    rw [hrun] at h
    cases h
    rcases continueWith_cases env { system with world := world } runtime held out update fun result =>
        { system with world := world }.conclude env runtime held result update with
      ⟨result, hok, heq⟩ | ⟨result, hfailed, heq⟩ | ⟨e, rfl, -, heq⟩
    · exact heq ▸ Acts.concluded (.ran hphase hrun (Or.inl hok)) (concludes ..)
    · exact heq ▸ Acts.concluded (.ran hphase hrun (Or.inr hfailed)) (concludes ..)
    · exact heq ▸ Acts.raised (.ran hphase hrun)
  · cases h

theorem acts_refreshed {returned : Bool} (hruntime : system.runtime = some runtime)
    (hheld : runtime.holder = some held)
    (h : system.step env reconciler (.refreshed returned) = some after) :
    Acts env reconciler system runtime held (.refreshed returned) after := by
  obtain ⟨runtime', hruntime', h⟩ := Option.bind_eq_some_iff.mp h
  cases hruntime.symm.trans hruntime'
  obtain ⟨held', hheld', h⟩ := Option.bind_eq_some_iff.mp h
  cases hheld.symm.trans hheld'
  split at h
  · rename_i result hphase
    cases returned with
    | true =>
      cases h
      exact .refreshed hphase
    | false =>
      cases h
      exact .unrefreshed hphase
  · cases h

theorem acts_saved {returned : Bool} (hruntime : system.runtime = some runtime)
    (hheld : runtime.holder = some held)
    (h : system.step env reconciler (.saved returned) = some after) :
    Acts env reconciler system runtime held (.saved returned) after := by
  obtain ⟨runtime', hruntime', h⟩ := Option.bind_eq_some_iff.mp h
  cases hruntime.symm.trans hruntime'
  obtain ⟨held', hheld', h⟩ := Option.bind_eq_some_iff.mp h
  cases hheld.symm.trans hheld'
  split at h
  · rename_i items hphase
    have hsaved : Acts env reconciler system runtime held (.saved returned) _ := .saved hphase
    cases returned with
    | true =>
      cases h
      exact hsaved
    | false =>
      cases h
      exact hsaved
  · cases h

/-! ## Moves -/

/-- What a move finds and what it leaves. -/
inductive Moves (env : Env) (reconciler : Reconciler) (system : System) : Move → System → Prop
  | request {runtime : PatchManagerRuntime} {patchId : Text} {action : Action}
      (running : system.runtime = some runtime)
      (admitted : action = .reconcile → patchId ∉ runtime.suppressReapply) :
      Moves env reconciler system (.request patchId action) (system.withRuntime
        { runtime with waiting := runtime.waiting ++ [(patchId, action)] })
  | began {runtime : PatchManagerRuntime} {index : Nat} {patchId : Text} {action : Action}
      (running : system.runtime = some runtime)
      (waits : runtime.waiting[index]? = some (patchId, action)) (unlocked : system.unlocked) :
      Moves env reconciler system (.begin index)
        (system.begin runtime patchId action (runtime.waiting.eraseIdx index))
  | acted {runtime : PatchManagerRuntime} {held : Held} {move : Move} {after : System}
      (running : system.runtime = some runtime) (holder : runtime.holder = some held)
      (acts : Acts env reconciler system runtime held move after) :
      Moves env reconciler system move after
  | watched {runtime : PatchManagerRuntime} {patchId : Text} {available : Bool}
      (running : system.runtime = some runtime) :
      Moves env reconciler system (.watchAvailable patchId available)
        (system.withRuntime (runtime.watchAvailable patchId available))
  | denied {runtime : PatchManagerRuntime} {patchId : Text} {reason : Reason}
      (running : system.runtime = some runtime) (known : reason ∈ watchReasons) :
      Moves env reconciler system (.watchDenied patchId reason)
        (system.withRuntime (runtime.watchDenied patchId reason))
  | closing {runtime : PatchManagerRuntime} {closing : Bool}
      (running : system.runtime = some runtime) :
      Moves env reconciler system (.setClosing closing)
        (system.withRuntime { runtime with closing := closing })
  | closed {runtime : PatchManagerRuntime} {stopped : Bool}
      (running : system.runtime = some runtime) (drained : runtime.waiting = [])
      (unlocked : system.unlocked) :
      Moves env reconciler system (.close stopped) { system with
        store := some (StateStore.save runtime.states)
        restartRequired := if stopped then [] else system.restartRequired
        runtime := none }
  | loaded {runtime : PatchManagerRuntime} {data : Option (Dict Text StateStore.Item)}
      (unloaded : system.runtime = none)
      (make : PatchManagerRuntime.make system.subentries system.backupRetention = .ok runtime) :
      Moves env reconciler system (.setup data) { system with
        runtime := some (runtime.asyncLoad system.restartRequired data)
        generation := system.generation + 1 }
  | beside {move : Move} {after : System} (beside : move.Beside)
      (runtime : after.runtime = system.runtime) (world : after.world = system.world)
      (store : after.store = system.store)
      (kept : (∀ p, move ≠ .commit p) → (∀ p d, move ≠ .update p d) → (∀ p, move ≠ .remove p) →
        after.subentries = system.subentries) :
      Moves env reconciler system move after

/-- An action that takes the lock, with what it has found. -/
structure Begun (system : System) (runtime : PatchManagerRuntime) (held : Held) : Prop where
  valid : runtime.validateCurrent system.subentries system.backupRetention held.patchId = .ok ()
  definition : runtime.definitions.lookup held.patchId = some held.definition
  enabled : held.definition.enabled = true
  pending : ∃ state, runtime.states.lookup held.patchId = some state ∧
    held.pending = decide (state.lastError = some .durabilityUnconfirmed)
  phase : held.phase = .checking

theorem begin_cases (system : System) (runtime : PatchManagerRuntime) (patchId : Text)
    (action : Action) (waiting : List (Text × Action)) :
    system.begin runtime patchId action waiting =
        system.release { runtime with waiting := waiting } ∨
      ∃ held, system.begin runtime patchId action waiting =
          system.withRuntime { runtime with waiting := waiting, holder := some held } ∧
        held.patchId = patchId ∧ held.action = action ∧ Begun system runtime held := by
  unfold begin
  simp only
  split
  · rename_i hvalid hdefinition hstate
    split
    · exact Or.inl rfl
    · rename_i henabled
      exact Or.inr ⟨_, rfl, rfl, rfl, hvalid, hdefinition, by simpa using henabled,
        ⟨_, hstate, rfl⟩, rfl⟩
  · exact Or.inl rfl

theorem commitSave_beside {save : Save} (h : system.commitSave save patchId = some after) :
    after.runtime = system.runtime ∧ after.world = system.world ∧ after.store = system.store := by
  unfold commitSave at h
  cases horiginal : save.original with
  | some original =>
    simp only [horiginal] at h
    split at h <;> cases h <;> exact ⟨rfl, rfl, rfl⟩
  | none =>
    simp only [horiginal] at h
    split at h <;> cases h
    exact ⟨rfl, rfl, rfl⟩

theorem lookup_modifyState (runtime : PatchManagerRuntime) (p : Text)
    (f : PatchRuntimeState → PatchRuntimeState) (patchId : Text) :
    (runtime.modifyState p f).states.lookup patchId =
      (runtime.states.lookup patchId).map fun state => if patchId = p then f state else state :=
  Dict.lookup_mapValues ..

/-- A setup restores the state of a patch from what is stored for it. -/
theorem load_of_make {data : Dict Text StateStore.Item} {item : StateStore.Item}
    (hmake : PatchManagerRuntime.make system.subentries system.backupRetention = .ok runtime)
    (hpresent : patchId ∈ system.subentries) (hitem : data.lookup patchId = some item) :
    ∃ state, (StateStore.load runtime.states (some data)).lookup patchId =
      some (StateStore.restore state item) := by
  obtain ⟨definition, hdefinition⟩ :=
    Option.isSome_iff_exists.mp (AList.lookup_isSome.mpr hpresent)
  unfold PatchManagerRuntime.make at hmake
  simp only at hmake
  split at hmake
  · cases hmake
  · split at hmake
    · cases hmake
    · cases hmake
      unfold StateStore.load
      simp only [Dict.lookup_mapValues, hdefinition, Option.map_some, Option.bind_some, hitem]
      exact ⟨_, rfl⟩

theorem moves {move : Move} (h : system.step env reconciler move = some after) :
    Moves env reconciler system move after := by
  cases move with
  | request patchId action =>
    obtain ⟨runtime, hruntime, h⟩ := Option.bind_eq_some_iff.mp h
    split at h
    · cases h
    · split at h
      · cases h
      · split at h
        · cases h
        · rename_i hadmitted
          cases h
          exact .request hruntime fun haction hsuppressed => hadmitted ⟨haction, hsuppressed⟩
  | begin index =>
    obtain ⟨runtime, hruntime, h⟩ := Option.bind_eq_some_iff.mp h
    obtain ⟨⟨patchId, action⟩, hindex, h⟩ := Option.bind_eq_some_iff.mp h
    simp only at h
    split at h
    · cases h
    · rename_i hunlocked
      cases h
      exact .began hruntime hindex (by simpa using hunlocked)
  | checked update =>
    obtain ⟨runtime, hruntime, hrest⟩ := Option.bind_eq_some_iff.mp h
    obtain ⟨held, hheld, -⟩ := Option.bind_eq_some_iff.mp hrest
    exact .acted hruntime hheld (acts_checked hruntime hheld h)
  | loaded source update =>
    obtain ⟨runtime, hruntime, hrest⟩ := Option.bind_eq_some_iff.mp h
    obtain ⟨held, hheld, -⟩ := Option.bind_eq_some_iff.mp hrest
    exact .acted hruntime hheld (acts_loaded hruntime hheld h)
  | ran update =>
    obtain ⟨runtime, hruntime, hrest⟩ := Option.bind_eq_some_iff.mp h
    obtain ⟨held, hheld, -⟩ := Option.bind_eq_some_iff.mp hrest
    exact .acted hruntime hheld (acts_ran hruntime hheld h)
  | refreshed returned =>
    obtain ⟨runtime, hruntime, hrest⟩ := Option.bind_eq_some_iff.mp h
    obtain ⟨held, hheld, -⟩ := Option.bind_eq_some_iff.mp hrest
    exact .acted hruntime hheld (acts_refreshed hruntime hheld h)
  | saved returned =>
    obtain ⟨runtime, hruntime, hrest⟩ := Option.bind_eq_some_iff.mp h
    obtain ⟨held, hheld, -⟩ := Option.bind_eq_some_iff.mp hrest
    exact .acted hruntime hheld (acts_saved hruntime hheld h)
  | watchAvailable patchId available =>
    obtain ⟨runtime, hruntime, h⟩ := Option.bind_eq_some_iff.mp h
    cases h
    exact .watched hruntime
  | watchDenied patchId reason =>
    obtain ⟨runtime, hruntime, h⟩ := Option.bind_eq_some_iff.mp h
    split at h
    · cases h
    · rename_i hknown
      cases h
      exact .denied hruntime (not_not.mp hknown)
  | setClosing closing =>
    obtain ⟨runtime, hruntime, h⟩ := Option.bind_eq_some_iff.mp h
    cases h
    exact .closing hruntime
  | close stopped =>
    obtain ⟨runtime, hruntime, h⟩ := Option.bind_eq_some_iff.mp h
    split at h
    · cases h
    · rename_i hidle
      cases h
      rw [not_or, not_or, not_not] at hidle
      exact .closed hruntime hidle.2.1 (by simpa using hidle.2.2)
  | setup data =>
    unfold step at h
    simp only at h
    split at h
    · rename_i runtime hnone hmake
      cases h
      exact .loaded hnone hmake
    · cases h
  | save original definition =>
    cases h
    exact .beside trivial rfl rfl rfl fun _ _ _ => rfl
  | acquire index =>
    obtain ⟨save, -, h⟩ := Option.bind_eq_some_iff.mp h
    split at h
    · cases h
    · cases h
      exact .beside trivial rfl rfl rfl fun _ _ _ => rfl
  | drafted source =>
    obtain ⟨save, -, h⟩ := Option.bind_eq_some_iff.mp h
    split at h
    · cases h
    · cases h
      exact .beside trivial rfl rfl rfl fun _ _ _ => rfl
  | abandon =>
    obtain ⟨save, -, h⟩ := Option.bind_eq_some_iff.mp h
    cases h
    exact .beside trivial rfl rfl rfl fun _ _ _ => rfl
  | commit patchId =>
    obtain ⟨save, -, h⟩ := Option.bind_eq_some_iff.mp h
    split at h
    · cases h
    · obtain ⟨hruntime, hworld, hstore⟩ := commitSave_beside h
      exact .beside trivial hruntime hworld hstore fun hcommit => absurd rfl (hcommit _)
  | update patchId definition =>
    unfold step at h
    simp only at h
    split at h
    · cases h
      exact .beside trivial rfl rfl rfl fun _ hupdate => absurd rfl (hupdate _ _)
    · cases h
  | remove patchId =>
    cases h
    exact .beside trivial rfl rfl rfl fun _ _ hremove => absurd rfl (hremove _)
  | setRetention retention =>
    cases h
    exact .beside trivial rfl rfl rfl fun _ _ _ => rfl

end System

end Hapatchy
