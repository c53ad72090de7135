import Hapatchy.Coordinator.Actions

/-!
# Reverts

A revert that has replaced its target turns `auto_apply` off, or it suppresses
the patch until `auto_apply` can be turned off. From then on no reconcile puts
the patch back.
-/

open Effects Prog

namespace Hapatchy

namespace System

variable {env : Env} {reconciler : Reconciler} {system after : System} {held : Held}
  {runtime : PatchManagerRuntime} {patchId : Text}

/-- `_suppress_reapply` has the patch. -/
def Suppressed (system : System) (patchId : Text) : Prop :=
  ∃ runtime, system.runtime = some runtime ∧ patchId ∈ runtime.suppressReapply

/-- `auto_apply` is off, in the entry and in the runtime. -/
structure Disarmed (system : System) (patchId : Text) : Prop where
  stored : ∃ definition, system.stored patchId = some definition ∧ definition.autoApply = false
  definition : ∃ definition, system.definition patchId = some definition ∧
    definition.autoApply = false

/-- A reconcile of the patch is not to apply it. -/
def Stopped (system : System) (patchId : Text) : Prop :=
  system.Disarmed patchId ∨ system.Suppressed patchId

/-- From `system` to `after`, some target was replaced. -/
def Replaces (system after : System) : Prop :=
  ∃ new, after.world.log = system.world.log ++ new ∧ replacements new ≠ []

/-- `async_update_subentry` returns, or raises what `_execute_action` expects, for a subentry that is
there. -/
structure Persists (system : System) (runtime : PatchManagerRuntime) (patchId : Text)
    (update : Update) : Prop where
  controlled : update ≠ .raised
  present : patchId ∈ system.subentries
  known : patchId ∈ runtime.definitions

/-! ## The end of a revert -/

theorem not_replaces {new : List Event} (hlog : after.world.log = system.world.log ++ new)
    (hnone : replacements new = []) : ¬ system.Replaces after := by
  rintro ⟨new', hlog', hsome⟩
  obtain rfl := List.append_cancel_left (hlog.symm.trans hlog')
  exact hsome hnone

theorem stopped_of_runtime (hruntime : system.runtime = some runtime) :
    system.Stopped patchId ↔ (∃ definition, system.stored patchId = some definition ∧
        definition.autoApply = false) ∧ (∃ definition, runtime.definitions.lookup patchId =
          some definition ∧ definition.autoApply = false) ∨ patchId ∈ runtime.suppressReapply := by
  have hdefinition := congrFun (definition_of_runtime hruntime) patchId
  constructor
  · rintro (⟨hstored, hrunning⟩ | ⟨runtime', hruntime', hsuppressed⟩)
    · exact Or.inl ⟨hstored, hdefinition ▸ hrunning⟩
    · cases hruntime.symm.trans hruntime'
      exact Or.inr hsuppressed
  · rintro (⟨hstored, hrunning⟩ | hsuppressed)
    · exact Or.inl ⟨hstored, hdefinition.symm ▸ hrunning⟩
    · exact Or.inr ⟨runtime, hruntime, hsuppressed⟩

/-- Of an action that does not change the configuration. -/
theorem stopped_congr {runtime' : PatchManagerRuntime} (hruntime : system.runtime = some runtime)
    (hafter : after.runtime = some runtime') (hsubentries : after.subentries = system.subentries)
    (hdefinitions : runtime'.definitions = runtime.definitions)
    (hsuppress : runtime'.suppressReapply = runtime.suppressReapply) :
    after.Stopped patchId ↔ system.Stopped patchId := by
  rw [stopped_of_runtime hruntime, stopped_of_runtime hafter, hdefinitions, hsuppress,
    stored_congr hsubentries]

theorem stopped_settle {result : ReconcileResult} (hruntime : system.runtime = some runtime) :
    (system.settle env runtime held result).Stopped patchId ↔ system.Stopped patchId := by
  unfold settle
  split
  · exact stopped_congr hruntime rfl rfl rfl rfl
  · exact stopped_congr hruntime rfl rfl rfl rfl

/-- A run that replaces its target ends with a denial just when it is denied after its commit. -/
theorem securityError_iff_denied {job : Job} {pendingDurability : Bool} {result : ReconcileResult}
    {new : List Event} {w w' : World}
    (h : run env reconciler job pendingDurability w = (.ok result, w'))
    (hlog : w'.log = w.log ++ new) (hreplaced : replacements new ≠ []) :
    result.inspection.status = .securityError ↔
      Denied env reconciler job 2 (begun env job w pendingDurability) := by
  have hnone {new' : List Event} (hlog' : w'.log = w.log ++ new') : replacements new' ≠ [] := by
    obtain rfl := List.append_cancel_left (hlog.symm.trans hlog')
    exact hreplaced
  cases henabled : job.definition.enabled with
  | false =>
    obtain ⟨hsame, -⟩ := run_disabled henabled h
    exact absurd rfl (hnone (hsame.trans (List.append_nil _).symm))
  | true =>
    constructor
    · intro hstatus
      generalize hout : (Except.ok result : Except Exc ReconcileResult) = out at h
      cases run_outcome henabled h with
      | raised => cases hout
      | kept hunreplaced =>
        obtain ⟨new', hlog', hnil⟩ := hunreplaced
        exact absurd hnil (hnone hlog')
      | unsynced hlog' hallowed =>
        cases hout
        exact absurd hstatus hallowed
      | synced hlog' hconfirmed hdenied =>
        cases hout
        exact hdenied hstatus
    · intro hdenied
      obtain ⟨result', w'', hattempts, hstatus, -⟩ := attempts_denied begun_mutated hdenied
      rw [run_eq_attempts henabled, hattempts] at h
      cases h
      exact hstatus

section Ran

variable {update : Update} {source : Bytes} (hruntime : system.runtime = some runtime)
  (hheld : runtime.holder = some held) (hphase : held.phase = .running source)
  (hrevert : held.action = .revert)
  (hstep : system.step env reconciler (.ran update) = some after) (hreplaces : system.Replaces after)

include hruntime hheld hphase hrevert hstep hreplaces

/-- The run of a revert that has replaced its target returns. Its status decides whether the patch
is to be stopped. -/
theorem ran_revert : ∃ result,
    run env reconciler (job runtime held source) held.pending system.world =
      (.ok result, after.world) ∧
    (result.inspection.status = .securityError ↔ Denied env reconciler (job runtime held source) 2
      (begun env (job runtime held source) system.world held.pending)) ∧
    (after.Stopped held.patchId ↔ system.Stopped held.patchId ∨
      (result.inspection.status ≠ .securityError ∧
        Persists system runtime held.patchId update)) := by
  have hacts := acts_ran hruntime hheld hstep
  cases hacts with
  | raised hbreaks =>
    obtain ⟨new, hlog, hnil⟩ := hbreaks.unreplaced
    exact absurd hreplaces (not_replaces hlog hnil)
  | concluded hends hconcludes =>
    rename_i update' result world
    cases hends with
    | ran hphase' hrun hreturned =>
      cases hphase.symm.trans hphase'
      obtain ⟨new, hlog, hsome⟩ := hreplaces
      rw [hconcludes.world] at hlog
      have hresult : _ = Except.ok result := hreturned.resolve_right fun hfailed => by
        obtain ⟨e, -, rfl, -⟩ := failure_eq_some hfailed
        obtain ⟨new', hlog', hnil⟩ := run_unreplaced hrun
        obtain rfl := List.append_cancel_left (hlog.symm.trans hlog')
        exact hsome hnil
      rw [hresult] at hrun
      refine ⟨result, by rw [hrun, hconcludes.world], securityError_iff_denied hrun hlog hsome, ?_⟩
      have hbase : ({ system with world := world } : System).Stopped held.patchId ↔
          system.Stopped held.patchId :=
        stopped_congr hruntime hruntime rfl rfl rfl
      have hreleased : (System.release { system with world := world } runtime).Stopped
          held.patchId ↔ system.Stopped held.patchId := stopped_congr hruntime rfl rfl rfl rfl
      have hbound : ({ system with world := world } : System).runtime = some runtime := hruntime
      cases hconcludes with
      | settled hsecurity =>
        rw [stopped_settle hbound, hbase]
        exact ⟨Or.inl, fun h => h.resolve_right fun hallowed => hallowed.1 (hsecurity hrevert)⟩
      | raised revert hallowed hlost =>
        rw [hreleased]
        refine ⟨Or.inl, fun h => h.resolve_right fun ⟨_, hpersists⟩ => ?_⟩
        rcases hlost with hraised | habsent | hunknown
        · exact hpersists.controlled hraised
        · exact habsent hpersists.present
        · exact AList.lookup_eq_none.mp hunknown hpersists.known
      | disarmed revert hallowed hdone hpresent hlookup =>
        rename_i previous
        refine ⟨fun _ => Or.inr ⟨hallowed, ?_, hpresent, ?_⟩, fun _ => ?_⟩
        · rw [hdone]
          exact Update.noConfusion
        · exact AList.lookup_isSome.mp (by rw [hlookup]; rfl)
        · refine (stopped_of_runtime rfl).mpr (Or.inl ⟨⟨previous.disarmed, ?_, rfl⟩,
            previous.disarmed, ?_, rfl⟩)
          · exact AList.lookup_insert ..
          · exact AList.lookup_insert ..
      | gated revert hallowed hfailed hpresent hlookup =>
        refine ⟨fun _ => Or.inr ⟨hallowed, ?_, hpresent, ?_⟩, fun _ => ?_⟩
        · rw [hfailed]
          exact Update.noConfusion
        · exact AList.lookup_isSome.mp (by rw [hlookup]; rfl)
        · exact (stopped_of_runtime rfl).mpr (Or.inr (List.mem_cons_self ..))

end Ran

/-! ## The end of the action -/

/-- The action refreshes the watcher and saves. -/
inductive Finishes : Move → Prop
  | refreshed (returned : Bool) : Finishes (.refreshed returned)
  | saved (returned : Bool) : Finishes (.saved returned)

theorem stopped_finish {move : Move} (hfinishes : Finishes move)
    (hstep : system.step env reconciler move = some after) :
    after.Stopped patchId ↔ system.Stopped patchId := by
  have hacted {runtime : PatchManagerRuntime} {held : Held}
      (hruntime : system.runtime = some runtime)
      (hacts : Acts env reconciler system runtime held move after) :
      after.Stopped patchId ↔ system.Stopped patchId := by
    cases hacts with
    | refreshed => exact stopped_congr hruntime rfl rfl rfl rfl
    | unrefreshed => exact stopped_congr hruntime rfl rfl rfl rfl
    | saved => exact stopped_congr hruntime rfl rfl rfl rfl
    | raised hbreaks => cases hfinishes <;> cases hbreaks
    | concluded hends => cases hfinishes <;> cases hends
    | _ => cases hfinishes
  cases hfinishes with
  | refreshed =>
    cases moves hstep with
    | acted hruntime hheld hacts => exact hacted hruntime hacts
    | beside hbeside => exact hbeside.elim
  | saved =>
    cases moves hstep with
    | acted hruntime hheld hacts => exact hacted hruntime hacts
    | beside hbeside => exact hbeside.elim

theorem stopped_finishes {moves : List Move} (hfinishes : ∀ move ∈ moves, Finishes move)
    (hrun : Traces.after (System.step env reconciler) system moves = some after) :
    after.Stopped patchId ↔ system.Stopped patchId := by
  induction moves generalizing system with
  | nil =>
    cases hrun
    exact Iff.rfl
  | cons move moves ih =>
    obtain ⟨next, hstep, hrest⟩ := Traces.after_cons.mp hrun
    obtain ⟨hmove, hmoves⟩ := List.forall_mem_cons.mp hfinishes
    exact (ih hmoves hrest).trans (stopped_finish hmove hstep)

/-- No move of an action touches the queue. -/
theorem Acts.waiting {move : Move} (h : Acts env reconciler system runtime held move after) :
    ∃ runtime', after.runtime = some runtime' ∧ runtime'.waiting = runtime.waiting := by
  cases h with
  | concluded hends hconcludes =>
    cases hconcludes with
    | settled =>
      unfold settle
      split
      · exact ⟨_, rfl, rfl⟩
      · exact ⟨_, rfl, rfl⟩
    | _ => exact ⟨_, rfl, rfl⟩
  | _ => exact ⟨_, rfl, rfl⟩

/-- Nobody edits the subentry; the runtime is only closed while its state gives the gate, if it is
suppressed; and a setup finds what was stored. -/
def Kept (patchId : Text) (system : System) (move : Move) (after : System) : Prop :=
  Unedited patchId system move after ∧
    match move with
    | .close _ => system.Suppressed patchId →
        system.lastError patchId = some .revertMetadataUnavailable
    | .setup data => data = system.store
    | _ => True

/-- A reconcile of the patch replaces nothing. -/
def Unapplied (patchId : Text) (system : System) (_move : Move) (after : System) : Prop :=
  ∀ held, system.holder = some held → held.patchId = patchId → held.action = .reconcile →
    ¬ system.Replaces after

/-- `auto_apply` is off, so a reconcile of the patch has nothing to apply. -/
structure Idle (patchId : Text) (system : System) : Prop where
  stored : ∃ definition, system.stored patchId = some definition ∧ definition.autoApply = false
  definition : ∀ definition, system.definition patchId = some definition →
    definition.autoApply = false
  holder : ∀ held, system.holder = some held → held.patchId = patchId →
    held.action = .reconcile → held.definition.autoApply = false

/-- No reconcile of the patch is admitted, waits or has the lock. -/
structure Shut (patchId : Text) (system : System) : Prop where
  present : patchId ∈ system.subentries
  runtime : ∃ runtime, system.runtime = some runtime ∧ patchId ∈ runtime.suppressReapply ∧
    (patchId, .reconcile) ∉ runtime.waiting ∧
    ∀ held, runtime.holder = some held → held.patchId = patchId → held.action ≠ .reconcile

/-- Nothing is set up, and what is stored suppresses the patch at the next setup. -/
structure Gated (patchId : Text) (system : System) : Prop where
  present : patchId ∈ system.subentries
  unloaded : system.runtime = none
  gate : system.lastError patchId = some .revertMetadataUnavailable

def Barred (patchId : Text) (system : System) : Prop :=
  Idle patchId system ∨ Shut patchId system ∨ Gated patchId system

theorem mem_subentries_of_stored (h : after.stored patchId = system.stored patchId)
    (hpresent : patchId ∈ system.subentries) : patchId ∈ after.subentries := by
  unfold stored at h
  rw [← AList.lookup_isSome] at hpresent ⊢
  rwa [h]

/-- The definition does not change, and no other action takes the lock. -/
theorem Idle.congr (h : Idle patchId system) (hstored : after.stored patchId = system.stored patchId)
    (hdefinition : after.definition patchId = system.definition patchId)
    (hholder : ∀ held, after.holder = some held → ∃ before, system.holder = some before ∧
      before.patchId = held.patchId ∧ before.action = held.action ∧
      before.definition = held.definition) : Idle patchId after := by
  refine ⟨hstored.symm ▸ h.stored, hdefinition.symm ▸ h.definition, fun held hheld hp ha => ?_⟩
  obtain ⟨before, hbefore, hpatch, haction, hsame⟩ := hholder held hheld
  rw [← hsame]
  exact h.holder before hbefore (hpatch.trans hp) (haction.trans ha)

/-- What a move of the action that holds the lock leaves of the runtime and of the entry, if the
action does not end a revert of the patch. -/
structure Carries (patchId : Text) (system : System) (runtime : PatchManagerRuntime) (held : Held)
    (after : System) : Prop where
  stored : after.stored patchId = system.stored patchId
  runtime : ∃ runtime', after.runtime = some runtime' ∧
    runtime'.definitions.lookup patchId = runtime.definitions.lookup patchId ∧
    runtime'.waiting = runtime.waiting ∧
    (patchId ∈ runtime.suppressReapply → patchId ∈ runtime'.suppressReapply) ∧
    ∀ held', runtime'.holder = some held' → held'.patchId = held.patchId ∧
      held'.action = held.action ∧ held'.definition = held.definition

theorem carries_settle {result : ReconcileResult} :
    Carries patchId system runtime held (system.settle env runtime held result) := by
  have hheld {phase : Phase} (held' : Held) (h : some { held with phase := phase } = some held') :
      held'.patchId = held.patchId ∧ held'.action = held.action ∧
        held'.definition = held.definition := by
    cases h
    exact ⟨rfl, rfl, rfl⟩
  unfold settle
  split
  · exact ⟨rfl, _, rfl, rfl, rfl, id, hheld⟩
  · exact ⟨rfl, _, rfl, rfl, rfl, id, hheld⟩

theorem carries_release : Carries patchId system runtime held (system.release runtime) :=
  ⟨rfl, _, rfl, rfl, rfl, id, fun _ h => by cases h⟩

/-- A move of an action turns `auto_apply` of the patch off, or it leaves the configuration of the
patch as it is. -/
theorem Acts.carries {move : Move} (h : Acts env reconciler system runtime held move after)
    (patchId : Text) :
    (held.patchId = patchId ∧ held.action = .revert ∧ ∃ definition : PatchDefinition,
        definition.autoApply = false ∧ after.stored patchId = some definition ∧
        after.definition patchId = some definition ∧
        ∀ held', after.holder = some held' → held'.action = .revert) ∨
      Carries patchId system runtime held after := by
  have hheld {phase : Phase} (held' : Held) (h : some { held with phase := phase } = some held') :
      held'.patchId = held.patchId ∧ held'.action = held.action ∧
        held'.definition = held.definition := by
    cases h
    exact ⟨rfl, rfl, rfl⟩
  cases h with
  | checked => exact Or.inr ⟨rfl, _, rfl, rfl, rfl, id, hheld⟩
  | loaded => exact Or.inr ⟨rfl, _, rfl, rfl, rfl, id, hheld⟩
  | raised => exact Or.inr ⟨rfl, _, rfl, rfl, rfl, id, fun _ h => by cases h⟩
  | refreshed => exact Or.inr ⟨rfl, _, rfl, rfl, rfl, id, hheld⟩
  | unrefreshed => exact Or.inr carries_release
  | saved => exact Or.inr ⟨rfl, _, rfl, rfl, rfl, id, fun _ h => by cases h⟩
  | concluded hends hconcludes =>
    rename_i update result world
    cases hconcludes with
    | settled =>
      have hsettled : Carries patchId { system with world := world } runtime held
          (System.settle env { system with world := world } runtime held result) := carries_settle
      exact Or.inr ⟨hsettled.stored, hsettled.runtime⟩
    | raised => exact Or.inr ⟨rfl, _, rfl, rfl, rfl, id, fun _ h => by cases h⟩
    | gated =>
      exact Or.inr ⟨rfl, _, rfl, rfl, rfl, fun h => List.mem_cons_of_mem _ h, hheld⟩
    | disarmed hrevert hallowed hdone hpresent hlookup =>
      rename_i previous
      by_cases hpatch : held.patchId = patchId
      · subst hpatch
        refine Or.inl ⟨rfl, hrevert, previous.disarmed, rfl, AList.lookup_insert .., ?_, ?_⟩
        · exact (congrFun (definition_of_runtime rfl) _).trans (AList.lookup_insert ..)
        · intro held' h
          cases h
          exact hrevert
      · refine Or.inr ⟨AList.lookup_insert_ne (Ne.symm hpatch), _, rfl,
          AList.lookup_insert_ne (Ne.symm hpatch), rfl, fun h => ?_, hheld⟩
        exact List.mem_filter.mpr ⟨h, by simpa using Ne.symm hpatch⟩

theorem stored_beside {move : Move} (hunedited : Unedited patchId system move after)
    (hkept : (∀ p, move ≠ .commit p) → (∀ p d, move ≠ .update p d) → (∀ p, move ≠ .remove p) →
      after.subentries = system.subentries) : after.stored patchId = system.stored patchId := by
  cases move with
  | commit => exact hunedited
  | update => exact hunedited
  | remove => exact hunedited
  | _ => exact congrFun (stored_congr (hkept (fun _ => nofun) (fun _ _ => nofun) fun _ => nofun)) _

/-- A setup finds the gate that was stored. -/
theorem suppressed_of_setup {runtime : PatchManagerRuntime}
    (hmake : PatchManagerRuntime.make system.subentries system.backupRetention = .ok runtime)
    (hunloaded : system.runtime = none)
    (hgate : system.lastError patchId = some .revertMetadataUnavailable)
    (hpresent : patchId ∈ system.subentries) (restart : List Text) :
    patchId ∈ (runtime.asyncLoad restart system.store).suppressReapply := by
  unfold lastError at hgate
  rw [hunloaded] at hgate
  obtain ⟨item, hitem, herror⟩ := Option.bind_eq_some_iff.mp hgate
  obtain ⟨data, hdata, hitem⟩ := Option.bind_eq_some_iff.mp hitem
  obtain ⟨state, hloaded⟩ := load_of_make hmake hpresent hitem
  rw [hdata]
  have hrestored : (StateStore.restore state item).lastError =
      some .revertMetadataUnavailable := by
    unfold StateStore.restore
    rw [herror]
    rfl
  unfold PatchManagerRuntime.asyncLoad
  refine List.mem_append_right _ (List.mem_filter.mpr ⟨?_, ?_⟩)
  · rw [← AList.mem_keys, ← AList.lookup_isSome, hloaded]
    rfl
  · rw [hloaded, Option.any_some, hrestored]
    rfl

theorem Idle.step {move : Move} (h : Idle patchId system)
    (hstep : system.step env reconciler move = some after)
    (hunedited : Unedited patchId system move after) : Idle patchId after := by
  cases moves hstep with
  | request hruntime =>
    refine h.congr rfl (congrFun (definition_of_runtime hruntime) _).symm fun held hheld => ?_
    exact ⟨held, (holder_of_runtime hruntime).trans hheld, rfl, rfl, rfl⟩
  | began hruntime hwaits hunlocked =>
    rename_i runtime index p action
    obtain heq | ⟨held, heq, -, -, hbegun⟩ :=
      begin_cases system runtime p action (runtime.waiting.eraseIdx index)
    · rw [heq]
      refine h.congr rfl (congrFun (definition_of_runtime hruntime) _).symm fun held hheld => ?_
      cases hheld
    · rw [heq]
      have hdefinition := congrFun (definition_of_runtime hruntime) patchId
      refine ⟨h.stored, fun d hd => h.definition d (hdefinition.trans hd), fun held' hheld' hp _ => ?_⟩
      cases hheld'
      refine h.definition _ (hdefinition.trans ?_)
      rw [← hp]
      exact hbegun.definition
  | acted hruntime hheld hacts =>
    rcases hacts.carries patchId with ⟨-, -, d, hd, hstored, hdefinition, hrevert⟩ | hcarries
    · refine ⟨⟨d, hstored, hd⟩, fun d' hd' => ?_, fun held' hheld' _ haction => ?_⟩
      · cases hdefinition.symm.trans hd'
        exact hd
      · cases (hrevert held' hheld').symm.trans haction
    · obtain ⟨runtime', hruntime', hdefinitions, -, -, hholder⟩ := hcarries.runtime
      refine h.congr hcarries.stored ?_ fun held' hheld' => ?_
      · rw [definition_of_runtime hruntime', definition_of_runtime hruntime]
        exact hdefinitions
      · rw [holder_of_runtime hruntime'] at hheld'
        obtain ⟨hp, ha, hd⟩ := hholder held' hheld'
        exact ⟨_, (holder_of_runtime hruntime).trans hheld, hp.symm, ha.symm, hd.symm⟩
  | watched hruntime =>
    refine h.congr rfl (congrFun (definition_of_runtime hruntime) _).symm fun held hheld => ?_
    exact ⟨held, (holder_of_runtime hruntime).trans hheld, rfl, rfl, rfl⟩
  | denied hruntime =>
    refine h.congr rfl (congrFun (definition_of_runtime hruntime) _).symm fun held hheld => ?_
    exact ⟨held, (holder_of_runtime hruntime).trans hheld, rfl, rfl, rfl⟩
  | closing hruntime =>
    refine h.congr rfl (congrFun (definition_of_runtime hruntime) _).symm fun held hheld => ?_
    exact ⟨held, (holder_of_runtime hruntime).trans hheld, rfl, rfl, rfl⟩
  | closed =>
    refine ⟨h.stored, fun d hd => ?_, fun held hheld => ?_⟩
    · cases hd
    · cases hheld
  | loaded hunloaded hmake =>
    obtain ⟨hdefinitions, hnone, -⟩ := make_ok hmake
    refine ⟨h.stored, fun d hd => ?_, fun held hheld => ?_⟩
    · obtain ⟨definition, hstored, hoff⟩ := h.stored
      have hlookup : system.stored patchId = some d := by
        rw [← hd]
        exact (congrArg (AList.lookup patchId) hdefinitions).symm
      cases hstored.symm.trans hlookup
      exact hoff
    · cases hnone.symm.trans hheld
  | beside hbeside hruntime hworld hstore hsubentries =>
    refine h.congr (stored_beside hunedited hsubentries)
      (congrFun (definition_congr hruntime) _) fun held hheld => ?_
    exact ⟨held, (holder_congr hruntime) ▸ hheld, rfl, rfl, rfl⟩

theorem Shut.step {move : Move} (h : Shut patchId system)
    (hstep : system.step env reconciler move = some after)
    (hkept : Kept patchId system move after) : Barred patchId after := by
  obtain ⟨hunedited, hkept⟩ := hkept
  obtain ⟨hpresent, runtime, hrunning, hsuppressed, hwaiting, hholder⟩ := h
  cases moves hstep with
  | request hruntime hadmitted =>
    cases hrunning.symm.trans hruntime
    refine Or.inr (Or.inl ⟨hpresent, _, rfl, hsuppressed, fun hmem => ?_, hholder⟩)
    rcases List.mem_append.mp hmem with hmem | hmem
    · exact hwaiting hmem
    · cases List.mem_singleton.mp hmem
      exact hadmitted rfl hsuppressed
  | began hruntime hwaits hunlocked =>
    cases hrunning.symm.trans hruntime
    rename_i index p action
    have hqueue : (patchId, Action.reconcile) ∉ runtime.waiting.eraseIdx index :=
      fun hmem => hwaiting (List.mem_of_mem_eraseIdx hmem)
    obtain heq | ⟨held, heq, hp, ha, -⟩ :=
      begin_cases system runtime p action (runtime.waiting.eraseIdx index)
    · rw [heq]
      exact Or.inr (Or.inl ⟨hpresent, _, rfl, hsuppressed, hqueue, fun held hheld => by cases hheld⟩)
    · rw [heq]
      refine Or.inr (Or.inl ⟨hpresent, _, rfl, hsuppressed, hqueue, fun held' hheld' hpatch haction => ?_⟩)
      cases hheld'
      refine hwaiting ?_
      rw [← hpatch, ← haction, hp, ha]
      exact List.mem_of_getElem? hwaits
  | acted hruntime hheld hacts =>
    cases hrunning.symm.trans hruntime
    rcases hacts.carries patchId with ⟨-, -, d, hd, hstored, hdefinition, hrevert⟩ | hcarries
    · refine Or.inl ⟨⟨d, hstored, hd⟩, fun d' hd' => ?_, fun held' hheld' _ haction => ?_⟩
      · cases hdefinition.symm.trans hd'
        exact hd
      · cases (hrevert held' hheld').symm.trans haction
    · obtain ⟨runtime', hruntime', -, hqueue, hsuppress, hholder'⟩ := hcarries.runtime
      refine Or.inr (Or.inl ⟨mem_subentries_of_stored hcarries.stored hpresent, runtime', hruntime',
        hsuppress hsuppressed, hqueue ▸ hwaiting, fun held' hheld' hpatch haction => ?_⟩)
      obtain ⟨hp, ha, -⟩ := hholder' held' hheld'
      exact hholder _ hheld (hp.symm.trans hpatch) (ha.symm.trans haction)
  | watched hruntime =>
    cases hrunning.symm.trans hruntime
    exact Or.inr (Or.inl ⟨hpresent, _, rfl, hsuppressed, hwaiting, hholder⟩)
  | denied hruntime =>
    cases hrunning.symm.trans hruntime
    exact Or.inr (Or.inl ⟨hpresent, _, rfl, hsuppressed, hwaiting, hholder⟩)
  | closing hruntime =>
    cases hrunning.symm.trans hruntime
    exact Or.inr (Or.inl ⟨hpresent, _, rfl, hsuppressed, hwaiting, hholder⟩)
  | closed hruntime =>
    cases hrunning.symm.trans hruntime
    refine Or.inr (Or.inr ⟨hpresent, rfl, ?_⟩)
    have hgate := hkept ⟨_, hrunning, hsuppressed⟩
    unfold lastError at hgate ⊢
    rw [hrunning] at hgate
    obtain ⟨state, hstate, herror⟩ := Option.bind_eq_some_iff.mp hgate
    simp only [Option.bind_some]
    unfold StateStore.save
    rw [Dict.lookup_mapValues, hstate]
    exact herror
  | loaded hunloaded => cases hunloaded.symm.trans hrunning
  | beside hbeside hruntime hworld hstore hsubentries =>
    exact Or.inr (Or.inl ⟨mem_subentries_of_stored (stored_beside hunedited hsubentries) hpresent,
      runtime, hruntime.trans hrunning, hsuppressed, hwaiting, hholder⟩)

theorem Gated.step {move : Move} (h : Gated patchId system)
    (hstep : system.step env reconciler move = some after)
    (hkept : Kept patchId system move after) : Barred patchId after := by
  obtain ⟨hunedited, hkept⟩ := hkept
  obtain ⟨hpresent, hunloaded, hgate⟩ := h
  have hrunning {runtime : PatchManagerRuntime} (h : system.runtime = some runtime) : False := by
    cases hunloaded.symm.trans h
  cases moves hstep with
  | request hruntime => exact (hrunning hruntime).elim
  | began hruntime => exact (hrunning hruntime).elim
  | acted hruntime => exact (hrunning hruntime).elim
  | watched hruntime => exact (hrunning hruntime).elim
  | denied hruntime => exact (hrunning hruntime).elim
  | closing hruntime => exact (hrunning hruntime).elim
  | closed hruntime => exact (hrunning hruntime).elim
  | loaded _ hmake =>
    obtain ⟨-, hnone, hqueue⟩ := make_ok hmake
    have hdata : _ = system.store := hkept
    rw [hdata]
    refine Or.inr (Or.inl ⟨hpresent, _, rfl,
      suppressed_of_setup hmake hunloaded hgate hpresent _, fun hmem => ?_, fun held hheld => ?_⟩)
    · have hmem' : (patchId, Action.reconcile) ∈ ([] : List (Text × Action)) := hqueue ▸ hmem
      exact absurd hmem' List.not_mem_nil
    · cases hnone.symm.trans hheld
  | beside hbeside hruntime hworld hstore hsubentries =>
    refine Or.inr (Or.inr ⟨mem_subentries_of_stored (stored_beside hunedited hsubentries) hpresent,
      hruntime.trans hunloaded, ?_⟩)
    unfold lastError at hgate ⊢
    rw [hruntime, hstore]
    exact hgate

/-- While a patch is barred, no reconcile of it replaces anything. -/
theorem Barred.unapplied {move : Move} (h : Barred patchId system)
    (hstep : system.step env reconciler move = some after) : Unapplied patchId system move after := by
  rintro held hheld hpatch haction
  obtain ⟨runtime, hruntime, hholder⟩ := Option.bind_eq_some_iff.mp hheld
  have hidle : held.definition.autoApply = false := by
    rcases h with hidle | hshut | hgated
    · exact hidle.holder held hheld hpatch haction
    · obtain ⟨-, runtime', hruntime', -, -, hnone⟩ := hshut
      cases hruntime.symm.trans hruntime'
      exact absurd haction (hnone held hholder hpatch)
    · cases hgated.unloaded.symm.trans hruntime
  have hsame {next : System} (hworld : next.world = system.world) : ¬ system.Replaces next :=
    not_replaces (by rw [hworld, List.append_nil]) rfl
  have hunreplaced {next : System} {world : World} (hworld : next.world = world)
      (hnone : ∃ new, world.log = system.world.log ++ new ∧ replacements new = []) :
      ¬ system.Replaces next := by
    obtain ⟨new, hlog, hnil⟩ := hnone
    exact not_replaces (by rw [hworld, hlog]) hnil
  cases moves hstep with
  | acted hruntime' hheld' hacts =>
    cases hruntime.symm.trans hruntime'
    cases hholder.symm.trans hheld'
    cases hacts with
    | checked hphase hcheck => exact hunreplaced rfl (checkDefinition_unreplaced hcheck)
    | raised hbreaks => exact hunreplaced rfl hbreaks.unreplaced
    | concluded hends hconcludes =>
      cases hends with
      | checked hphase hcheck =>
        exact hunreplaced hconcludes.world (checkDefinition_unreplaced hcheck)
      | loaded => exact hsame hconcludes.world
      | ran hphase hrun =>
        refine hunreplaced hconcludes.world (Steps.unreplacing ((does_idle fun inspection => ?_).of_eq hrun))
        change outputForAction held.definition inspection held.action = none
        rw [haction, outputForAction, hidle]
        exact if_neg Bool.false_ne_true
    | _ => exact hsame rfl
  | began =>
    refine hsame ?_
    unfold begin
    simp only
    split
    · split <;> rfl
    · rfl
  | beside hbeside hruntime' hworld => exact hsame hworld
  | _ => exact hsame rfl

theorem Barred.step {move : Move} (h : Barred patchId system)
    (hstep : system.step env reconciler move = some after)
    (hkept : Kept patchId system move after) : Barred patchId after := by
  rcases h with hidle | hshut | hgated
  · exact Or.inl (hidle.step hstep hkept.1)
  · exact hshut.step hstep hkept
  · exact hgated.step hstep hkept

theorem Barred.stays {moves : List Move} (h : Barred patchId system)
    (hkept : Traces.Every (System.step env reconciler) (Kept patchId) system moves) :
    Traces.Every (System.step env reconciler) (Unapplied patchId) system moves :=
  Traces.every_of_invariant (fun _ _ _ h hstep hkept => Barred.step h hstep hkept)
    (fun _ _ _ h hstep _ => h.unapplied hstep) h hkept

/-- The action that has ended a revert was no reconcile, and none has the lock. -/
theorem Acts.no_reconcile {move : Move} (h : Acts env reconciler system runtime held move after)
    (hrevert : held.action = .revert) (held' : Held) (hheld' : after.holder = some held') :
    held'.action ≠ .reconcile := by
  intro haction
  rcases h.carries held.patchId with ⟨-, -, -, -, -, -, hreverts⟩ | hcarries
  · cases (hreverts held' hheld').symm.trans haction
  · obtain ⟨runtime', hruntime', -, -, -, hsame⟩ := hcarries.runtime
    rw [holder_of_runtime hruntime'] at hheld'
    obtain ⟨-, hsame, -⟩ := hsame held' hheld'
    cases (hsame.symm.trans haction).symm.trans hrevert

/-- After a revert that leaves the patch stopped, no reconcile of the patch replaces anything: until
somebody edits its subentry, or a runtime is closed with another state than the gate. -/
theorem reverted_stays {moves : List Move} {update : Update}
    (hheld : system.holder = some held) (hrevert : held.action = .revert)
    (hstep : system.step env reconciler (.ran update) = some after)
    (hstopped : after.Stopped held.patchId) (hpresent : held.patchId ∈ after.subentries)
    (hqueue : after.Suppressed held.patchId → ∀ runtime, system.runtime = some runtime →
      (held.patchId, .reconcile) ∉ runtime.waiting)
    (hkept : Traces.Every (System.step env reconciler) (Kept held.patchId) after moves) :
    Traces.Every (System.step env reconciler) (Unapplied held.patchId) after moves := by
  obtain ⟨runtime, hruntime, hholder⟩ := Option.bind_eq_some_iff.mp hheld
  have hacts := acts_ran hruntime hholder hstep
  refine Barred.stays ?_ hkept
  rcases hstopped with hdisarmed | hsuppressed
  · obtain ⟨definition, hdefinition, hoff⟩ := hdisarmed.definition
    refine Or.inl ⟨hdisarmed.stored, fun d hd => ?_, fun held' hheld' _ haction => ?_⟩
    · cases hdefinition.symm.trans hd
      exact hoff
    · exact absurd haction (hacts.no_reconcile hrevert held' hheld')
  · obtain ⟨runtime', hruntime', hmem⟩ := hsuppressed
    refine Or.inr (Or.inl ⟨hpresent, runtime', hruntime', hmem, ?_, fun held' hheld' _ => ?_⟩)
    · have hwaiting : runtime'.waiting = runtime.waiting := by
        rcases hacts.waiting with ⟨runtime'', hruntime'', hwaiting⟩
        cases hruntime'.symm.trans hruntime''
        exact hwaiting
      rw [hwaiting]
      exact hqueue ⟨runtime', hruntime', hmem⟩ runtime hruntime
    · exact hacts.no_reconcile hrevert held' ((holder_of_runtime hruntime').trans hheld')

/-- Once a revert has suppressed its patch, no reconcile of the patch replaces anything: if none is
waiting then, nobody edits the subentry, a runtime that suppresses the patch is closed with the gate
as its last error, and setups find what was stored. -/
theorem gate_holds {moves : List Move} (hheld : system.holder = some held)
    (hrevert : held.action = .revert) (hsuppressed : system.Suppressed held.patchId)
    (hpresent : held.patchId ∈ system.subentries)
    (hqueue : ∀ runtime, system.runtime = some runtime →
      (held.patchId, .reconcile) ∉ runtime.waiting)
    (hkept : Traces.Every (System.step env reconciler) (Kept held.patchId) system moves) :
    Traces.Every (System.step env reconciler) (Unapplied held.patchId) system moves := by
  obtain ⟨runtime, hruntime, hmem⟩ := hsuppressed
  refine Barred.stays (Or.inr (Or.inl ⟨hpresent, runtime, hruntime, hmem, hqueue runtime hruntime,
    fun held' hheld' _ haction => ?_⟩)) hkept
  cases hheld.symm.trans ((holder_of_runtime hruntime).trans hheld')
  cases hrevert.symm.trans haction

/-! ## A revert that cannot be persisted -/

instance : Decidable (system.Suppressed patchId) :=
  inferInstanceAs (Decidable (∃ runtime ∈ system.runtime, patchId ∈ runtime.suppressReapply))

instance : Decidable (system.Disarmed patchId) :=
  decidable_of_iff ((∃ definition ∈ system.stored patchId, definition.autoApply = false) ∧
    ∃ definition ∈ system.definition patchId, definition.autoApply = false)
    ⟨fun h => ⟨h.1, h.2⟩, fun h => ⟨h.stored, h.definition⟩⟩

instance : Decidable (system.Stopped patchId) :=
  inferInstanceAs (Decidable (system.Disarmed patchId ∨ system.Suppressed patchId))

def armedDefinition : PatchDefinition := { steadyDefinition with autoApply := true }

/-- An entry with one patch that is applied, and applied again by itself. -/
def armedSystem : System where
  world := steadyWorld (Utf8.encode "y\n".toList)
  subentries := AList.singleton ['p'] armedDefinition
  backupRetention := 5

def armedRun (moves : List Move) : Option System :=
  Traces.after (step steadyEnv (steadyReconciler exchangeHunks)) armedSystem moves

/-- An action, up to its result. -/
def actionMoves (action : Action) : List Move :=
  [.request ['p'] action, .begin 0, .checked .done, .loaded (.ok (exchangeJob ['1']).source) .done]

/-- The runtime is closed. -/
def closeMoves : List Move := [.setClosing true, .close false]

/-- What comes before the end of the revert. -/
def revertMoves : List Move := .setup none :: actionMoves .revert

/-- The bytes of the target. -/
def targetBytes (system : System) : Option Bytes :=
  (system.world.fs.lookup [['f'], ['g']]).map Node.data

theorem log_of_ran {update : Update} (hruntime : system.runtime = some runtime)
    (hheld : runtime.holder = some held)
    (hstep : system.step env reconciler (.ran update) = some after) :
    ∃ new, after.world.log = system.world.log ++ new := by
  cases acts_ran hruntime hheld hstep with
  | raised hbreaks =>
    obtain ⟨new, hlog, -⟩ := hbreaks.unreplaced
    exact ⟨new, hlog⟩
  | concluded hends hconcludes =>
    cases hends with
    | ran hphase hrun =>
      obtain ⟨new, hlog, -⟩ := Steps.log (does_writes.of_eq hrun)
      rw [hconcludes.world]
      exact ⟨new, hlog⟩

/-- A revert of the armed patch that replaces its target, in any environment where it does. -/
theorem armed_reverting (env : Env) (update : Update) {stopped : Bool}
    (hstart : (Traces.after (step env (steadyReconciler exchangeHunks)) armedSystem
        revertMoves).map (fun system =>
      (system.holder.map fun held =>
        (held.patchId, held.action, decide (held.phase = .running (exchangeJob ['1']).source)),
        decide (system.Stopped ['p']), (replacements system.world.log).length)) =
      some (some (['p'], .revert, true), false, 0))
    (hafter : (Traces.after (step env (steadyReconciler exchangeHunks)) armedSystem
        (revertMoves ++ [.ran update])).map (fun after =>
      (decide (after.Stopped ['p']), (replacements after.world.log).length)) = some (stopped, 1)) :
    ∃ system after runtime held,
      Traces.after (step env (steadyReconciler exchangeHunks)) armedSystem revertMoves =
        some system ∧
      system.runtime = some runtime ∧ runtime.holder = some held ∧ held.patchId = ['p'] ∧
      held.phase = .running (exchangeJob ['1']).source ∧ held.action = .revert ∧
      ¬ system.Stopped ['p'] ∧
      system.step env (steadyReconciler exchangeHunks) (.ran update) = some after ∧
      system.Replaces after ∧ decide (after.Stopped ['p']) = stopped := by
  obtain ⟨after, hreached, hafter⟩ := Option.map_eq_some_iff.mp hafter
  obtain ⟨system, hsystem, hrest⟩ := Traces.after_append.mp hreached
  obtain ⟨_, hstep, hend⟩ := Traces.after_cons.mp hrest
  cases hend
  rw [hsystem, Option.map_some, Option.some_inj, Prod.mk.injEq, Prod.mk.injEq,
    decide_eq_false_iff_not] at hstart
  obtain ⟨hholder, hrunning, hnone⟩ := hstart
  obtain ⟨held, hheld, hsame⟩ := Option.map_eq_some_iff.mp hholder
  obtain ⟨runtime, hruntime, hheld⟩ := Option.bind_eq_some_iff.mp hheld
  rw [Prod.mk.injEq, Prod.mk.injEq, decide_eq_true_eq] at hsame
  obtain ⟨hpatch, hrevert, hphase⟩ := hsame
  obtain ⟨hafter, hone⟩ := Prod.mk.inj hafter
  obtain ⟨new, hlog⟩ := log_of_ran hruntime hheld hstep
  have hreplaces : system.Replaces after := by
    refine ⟨new, hlog, fun hnil => ?_⟩
    rw [hlog, replacements_append, hnil, List.append_nil, hnone] at hone
    cases hone
  exact ⟨system, after, runtime, held, hsystem, hruntime, hheld, hpatch, hphase, hrevert, hrunning,
    hstep, hreplaces, hafter⟩

/-- Another program links the target a second time. -/
def linkTarget (fs : Fs) : Fs :=
  match fs.lookup [['f'], ['g']] with
  | some node => fs.put [['f'], ['g']] (some { node with nlink := 2 })
  | none => fs

/-- `steadyEnv`, where the target is linked while it is read again after the commit. -/
def linkedEnv : Env := { steadyEnv with
  interfere := fun n => if n = 125 then some linkTarget else none }

/-- What is done once the runtime is set up again. -/
def againMoves (action : Action) : List Move := actionMoves action ++ [.ran .done]

/-- The armed patch is reverted, saved, set up again, and acted on. -/
theorem armed_reloaded (update : Update) (action : Action)
    (hrun : ((armedRun (revertMoves ++ .ran update :: .saved true :: closeMoves)).bind fun closed =>
        Traces.after (step steadyEnv (steadyReconciler exchangeHunks)) closed
          (.setup closed.store :: againMoves action)).map targetBytes =
      some (some (Utf8.encode "x\n".toList))) :
    ∃ system after closed final, armedRun revertMoves = some system ∧
      system.step steadyEnv (steadyReconciler exchangeHunks) (.ran update) = some after ∧
      armedRun (revertMoves ++ [.ran update]) = some after ∧
      Traces.after (step steadyEnv (steadyReconciler exchangeHunks)) after
        (.saved true :: closeMoves) = some closed ∧
      Traces.after (step steadyEnv (steadyReconciler exchangeHunks)) closed
        (.setup closed.store :: againMoves action) = some final ∧
      final.targetBytes = some (Utf8.encode "x\n".toList) := by
  obtain ⟨final, hfinal, htarget⟩ := Option.map_eq_some_iff.mp hrun
  obtain ⟨closed, hclose, hfinal⟩ := Option.bind_eq_some_iff.mp hfinal
  obtain ⟨system, hsystem, hrest⟩ := Traces.after_append.mp hclose
  obtain ⟨after, hstep, hlater⟩ := Traces.after_cons.mp hrest
  exact ⟨system, after, closed, final, hsystem, hstep,
    Traces.after_append.mpr ⟨system, hsystem, Traces.after_cons.mpr ⟨after, hstep, rfl⟩⟩, hlater,
    hfinal, htarget⟩

/-- Nobody edits the patch then, and the runtime is closed with the gate. -/
theorem armed_kept {after closed : System} {update : Update} (action : Action)
    (hafter : armedRun (revertMoves ++ [.ran update]) = some after)
    (hlater : Traces.after (step steadyEnv (steadyReconciler exchangeHunks)) after
      (.saved true :: closeMoves) = some closed)
    (hgate : (armedRun (revertMoves ++ .ran update :: .saved true :: [.setClosing true])).all
      fun closing => decide (closing.Suppressed ['p'] →
        closing.lastError ['p'] = some .revertMetadataUnavailable)) :
    Traces.Every (step steadyEnv (steadyReconciler exchangeHunks)) (Kept ['p']) after
      (.saved true :: closeMoves ++ (.setup closed.store :: againMoves action)) := by
  intro saved hsaved
  refine ⟨⟨trivial, trivial⟩, fun closing hclosing => ⟨⟨trivial, trivial⟩, fun next hnext =>
    ⟨⟨trivial, ?_⟩, fun _ _ => ⟨⟨trivial, ?_⟩, ?_⟩⟩⟩⟩
  · obtain ⟨system, hsystem, hrest⟩ := Traces.after_append.mp hafter
    obtain ⟨_, hstep, hend⟩ := Traces.after_cons.mp hrest
    cases hend
    have hclosing' : armedRun (revertMoves ++ .ran update :: .saved true :: [.setClosing true]) =
        some closing :=
      Traces.after_append.mpr ⟨system, hsystem, Traces.after_cons.mpr ⟨after, hstep,
        Traces.after_cons.mpr ⟨saved, hsaved, Traces.after_cons.mpr ⟨closing, hclosing, rfl⟩⟩⟩⟩
    rw [hclosing', Option.all_some] at hgate
    exact of_decide_eq_true hgate
  · have hnext' : Traces.after (step steadyEnv (steadyReconciler exchangeHunks)) after
        (.saved true :: closeMoves) = some next :=
      Traces.after_cons.mpr ⟨saved, hsaved, Traces.after_cons.mpr ⟨closing, hclosing,
        Traces.after_cons.mpr ⟨next, hnext, rfl⟩⟩⟩
    cases hlater.symm.trans hnext'
    rfl
  · have hothers : ∀ move ∈ againMoves action, ∀ s t, Kept ['p'] s move t := by
      simp only [againMoves, actionMoves, List.cons_append, List.nil_append, List.mem_cons,
        List.not_mem_nil, or_false]
      rintro move (rfl | rfl | rfl | rfl | rfl) s t <;> exact ⟨trivial, trivial⟩
    exact Traces.every_of_mem hothers

/-- The revert is saved, the runtime is set up again, and a reconcile of the patch runs. -/
theorem reverted_stays_refreshed : ∃ system after closed final,
    armedRun revertMoves = some system ∧
    system.step steadyEnv (steadyReconciler exchangeHunks) (.ran .done) = some after ∧
    Traces.after (step steadyEnv (steadyReconciler exchangeHunks)) after
      (.saved true :: closeMoves) = some closed ∧
    Traces.after (step steadyEnv (steadyReconciler exchangeHunks)) closed
      (.setup closed.store :: againMoves .reconcile) = some final ∧
    final.targetBytes = some (Utf8.encode "x\n".toList) ∧
    Traces.Every (step steadyEnv (steadyReconciler exchangeHunks)) (Unapplied ['p']) after
      (.saved true :: closeMoves ++ (.setup closed.store :: againMoves .reconcile)) := by
  have hstart : (armedRun revertMoves).map (fun system =>
      system.holder.map fun held => (held.patchId, held.action)) = some (some (['p'], .revert)) := by
    decide +kernel
  have hstopped : (armedRun (revertMoves ++ [.ran .done])).map (fun after =>
      (decide (after.Disarmed ['p']), decide (after.Suppressed ['p']),
        decide (['p'] ∈ after.subentries))) = some (true, false, true) := by decide +kernel
  obtain ⟨system, after, closed, final, hsystem, hstep, hafter, hlater, hfinal, htarget⟩ :=
    armed_reloaded .done .reconcile (by decide +kernel)
  have hkept := armed_kept .reconcile hafter hlater (by decide +kernel)
  rw [hsystem, Option.map_some, Option.some_inj] at hstart
  obtain ⟨held, hheld, hsame⟩ := Option.map_eq_some_iff.mp hstart
  obtain ⟨hpatch, hrevert⟩ := Prod.mk.inj hsame
  rw [hafter, Option.map_some, Option.some_inj, Prod.mk.injEq, Prod.mk.injEq, decide_eq_true_eq,
    decide_eq_false_iff_not, decide_eq_true_eq] at hstopped
  obtain ⟨hdisarmed, hunsuppressed, hpresent⟩ := hstopped
  refine ⟨system, after, closed, final, hsystem, hstep, hlater, hfinal, htarget, ?_⟩
  rw [← hpatch] at hdisarmed hunsuppressed hpresent hkept ⊢
  exact reverted_stays hheld hrevert hstep (Or.inl hdisarmed) hpresent
    (fun h => absurd h hunsuppressed) hkept

/-- The gate is saved, the runtime is set up again, and the patch is refreshed. -/
theorem gate_holds_refreshed : ∃ after closed final,
    armedRun (revertMoves ++ [.ran .failed]) = some after ∧
    Traces.after (step steadyEnv (steadyReconciler exchangeHunks)) after
      (.saved true :: closeMoves) = some closed ∧
    Traces.after (step steadyEnv (steadyReconciler exchangeHunks)) closed
      (.setup closed.store :: againMoves .refreshSource) = some final ∧
    final.targetBytes = some (Utf8.encode "x\n".toList) ∧
    Traces.Every (step steadyEnv (steadyReconciler exchangeHunks)) (Unapplied ['p']) after
      (.saved true :: closeMoves ++ (.setup closed.store :: againMoves .refreshSource)) := by
  have hgated : (armedRun (revertMoves ++ [.ran .failed])).map (fun after =>
      (after.holder.map fun held => (held.patchId, held.action), decide (after.Suppressed ['p']),
        decide (['p'] ∈ after.subentries))) = some (some (['p'], .revert), true, true) := by
    decide +kernel
  have hqueue : (armedRun (revertMoves ++ [.ran .failed])).map (fun after =>
      after.runtime.map PatchManagerRuntime.waiting) = some (some []) := by decide +kernel
  obtain ⟨system, after, closed, final, -, -, hafter, hlater, hfinal, htarget⟩ :=
    armed_reloaded .failed .refreshSource (by decide +kernel)
  have hkept := armed_kept .refreshSource hafter hlater (by decide +kernel)
  rw [hafter, Option.map_some, Option.some_inj, Prod.mk.injEq, Prod.mk.injEq, decide_eq_true_eq,
    decide_eq_true_eq] at hgated
  rw [hafter, Option.map_some, Option.some_inj] at hqueue
  obtain ⟨hholder, hsuppressed, hpresent⟩ := hgated
  obtain ⟨held, hheld, hsame⟩ := Option.map_eq_some_iff.mp hholder
  obtain ⟨hpatch, hrevert⟩ := Prod.mk.inj hsame
  obtain ⟨runtime, hruntime, hwaiting⟩ := Option.map_eq_some_iff.mp hqueue
  refine ⟨after, closed, final, hafter, hlater, hfinal, htarget, ?_⟩
  rw [← hpatch] at hsuppressed hpresent hkept ⊢
  refine gate_holds hheld hrevert hsuppressed hpresent (fun r hr => ?_) hkept
  cases hruntime.symm.trans hr
  rw [hwaiting]
  exact List.not_mem_nil

/-- The target of the armed patch is as it was, and the source cannot be read for some time. -/
def restoredSystem : System := { armedSystem with world := steadyWorld (Utf8.encode "x\n".toList) }

def unavailable : Except Exc Bytes := .error (.patch ⟨.sourceUnavailable, .sourceError⟩)

def restoredRun (moves : List Move) : Option System :=
  Traces.after (step steadyEnv (steadyReconciler exchangeHunks)) restoredSystem moves

/-- A revert that cannot turn `auto_apply` off. -/
def suppressMoves : List Move :=
  [.setup none, .request ['p'] .revert, .begin 0, .checked .done, .loaded unavailable .failed]

/-- A refresh of the patch is recorded over the gate, and the runtime is closed. -/
def forgettingMoves : List Move :=
  [.saved true, .request ['p'] .refreshSource, .begin 0, .checked .done, .loaded unavailable .done,
    .saved true] ++ closeMoves

/-- The next setup does not suppress the patch, and a reconcile puts it back. -/
theorem gate_forgotten : ∃ gated closed reconciling final held,
    restoredRun suppressMoves = some gated ∧ gated.Suppressed ['p'] ∧
    (∃ definition ∈ gated.stored ['p'], definition.autoApply = true) ∧
    gated.lastError ['p'] = some .revertMetadataUnavailable ∧
    gated.runtime.map PatchManagerRuntime.waiting = some [] ∧
    Traces.after (step steadyEnv (steadyReconciler exchangeHunks)) gated forgettingMoves =
      some closed ∧
    Traces.after (step steadyEnv (steadyReconciler exchangeHunks)) closed
      (.setup closed.store :: actionMoves .reconcile) = some reconciling ∧
    reconciling.holder = some held ∧ held.patchId = ['p'] ∧ held.action = .reconcile ∧
    reconciling.step steadyEnv (steadyReconciler exchangeHunks) (.ran .done) = some final ∧
    reconciling.Replaces final := by
  have hgated : (restoredRun suppressMoves).map (fun gated => (decide (gated.Suppressed ['p']),
      gated.lastError ['p'])) = some (true, some .revertMetadataUnavailable) := by decide +kernel
  have hqueue : (restoredRun suppressMoves).map (fun gated =>
      gated.runtime.map PatchManagerRuntime.waiting) = some (some []) := by decide +kernel
  have harmed : (restoredRun suppressMoves).map (fun gated =>
      (gated.stored ['p']).map PatchDefinition.autoApply) = some (some true) := by decide +kernel
  have hheld : ((restoredRun (suppressMoves ++ forgettingMoves)).bind fun closed =>
      Traces.after (step steadyEnv (steadyReconciler exchangeHunks)) closed
        (.setup closed.store :: actionMoves .reconcile)).map (fun reconciling =>
          (reconciling.holder.map fun held => (held.patchId, held.action),
            (replacements reconciling.world.log).length)) =
      some (some (['p'], .reconcile), 0) := by decide +kernel
  have hwritten : ((restoredRun (suppressMoves ++ forgettingMoves)).bind fun closed =>
      Traces.after (step steadyEnv (steadyReconciler exchangeHunks)) closed
        (.setup closed.store :: againMoves .reconcile)).map (fun final =>
          (replacements final.world.log).length) = some 1 := by decide +kernel
  obtain ⟨final, hfinal, hone⟩ := Option.map_eq_some_iff.mp hwritten
  obtain ⟨closed, hclosed, hfinal⟩ := Option.bind_eq_some_iff.mp hfinal
  obtain ⟨gated, hgate, hlater⟩ := Traces.after_append.mp hclosed
  rw [againMoves, ← List.cons_append] at hfinal
  obtain ⟨reconciling, hreconciling, hran⟩ := Traces.after_append.mp hfinal
  obtain ⟨_, hran, hend⟩ := Traces.after_cons.mp hran
  cases hend
  rw [hclosed, Option.bind_some, hreconciling, Option.map_some, Option.some_inj,
    Prod.mk.injEq] at hheld
  obtain ⟨hholder, hnone⟩ := hheld
  obtain ⟨held, hheld, hsame⟩ := Option.map_eq_some_iff.mp hholder
  obtain ⟨hpatch, haction⟩ := Prod.mk.inj hsame
  have hgate' : restoredRun suppressMoves = some gated := hgate
  rw [hgate', Option.map_some, Option.some_inj, Prod.mk.injEq, decide_eq_true_eq] at hgated
  rw [hgate', Option.map_some, Option.some_inj] at harmed hqueue
  obtain ⟨hsuppressed, herror⟩ := hgated
  obtain ⟨runtime, hruntime, hrunning⟩ := Option.bind_eq_some_iff.mp hheld
  obtain ⟨new, hlog⟩ := log_of_ran hruntime hrunning hran
  refine ⟨gated, closed, reconciling, final, held, hgate, hsuppressed,
    Option.map_eq_some_iff.mp harmed, herror, hqueue, hlater, hreconciling, hheld, hpatch, haction,
    hran, new, hlog, fun hnil => ?_⟩
  rw [hlog, replacements_append, hnil, List.append_nil, hnone] at hone
  cases hone

end System

end Hapatchy
