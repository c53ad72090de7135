import Hapatchy.Coordinator.Actions
import Hapatchy.SafeIo.Quiet

/-!
# Unconfirmed durability

The reason `durability_unconfirmed` is a debt: only an action that has synced
the directory of its target may write another reason over it.
-/

open Effects Prog

namespace Hapatchy

variable {env : Env} {reconciler : Reconciler}

/-! ## Runs -/

section

variable {job : Job}

theorem not_unclosed_of_quiet {later : Nat} {w : World} (h : env.Quiet) :
    ¬ Unclosed env reconciler job later w := by
  rintro ⟨parsed, target, t, out, u, e, v, -, -, hexit, -⟩
  obtain ⟨v', hok, -⟩ := (goes_exit h : Goes (target.exit env) u.fs () u.fs) u rfl
  cases hexit.symm.trans hok

/-- How a run ends that is to confirm the durability of its target, if every directory is closed. -/
theorem run_pending {result : ReconcileResult} {w w' : World} (henabled : job.definition.enabled = true)
    (h : run env reconciler job true w = (.ok result, w'))
    (hclosed : ¬ Unclosed env reconciler job 2 (begun env job w true)) :
    Confirmed env reconciler job 2 (begun env job w true) ∨
      result.inspection.status = .securityError ∨ result.inspection = .unconfirmed := by
  generalize hout : (Except.ok result : Except Exc ReconcileResult) = out at h
  cases run_outcome henabled h with
  | raised => cases hout
  | kept hnone hpending =>
    cases hout
    rcases hpending rfl with hconfirmed | hunclosed | hreported
    · exact Or.inl hconfirmed
    · exact absurd hunclosed hclosed
    · exact Or.inr hreported
  | unsynced hlog hallowed hreported =>
    cases hout
    exact Or.inr (Or.inr (hreported.resolve_left hclosed))
  | synced hlog hconfirmed => exact Or.inl (hconfirmed rfl)

/-- How a run ends that leaves its target unsynced, if every directory is closed. -/
theorem run_unsynced {pendingDurability : Bool} {out : Except Exc ReconcileResult} {new : List Event}
    {w w' : World} (h : run env reconciler job pendingDurability w = (out, w'))
    (hlog : w'.log = w.log ++ new) (hunsynced : Unsynced job new)
    (hclosed : ¬ Unclosed env reconciler job 2 (begun env job w pendingDurability)) :
    ∃ result, out = .ok result ∧ result.inspection = .unconfirmed := by
  have hsome {new' : List Event} (hlog' : w'.log = w.log ++ new') : replacements new' ≠ [] := by
    obtain rfl := List.append_cancel_left (hlog.symm.trans hlog')
    exact hunsynced.replaced
  cases henabled : job.definition.enabled with
  | false =>
    obtain ⟨hsame, -⟩ := run_disabled henabled h
    exact absurd rfl (hsome (hsame.trans (List.append_nil _).symm))
  | true =>
    cases run_outcome henabled h with
    | raised hnone =>
      obtain ⟨new', hlog', hnil⟩ := hnone
      exact absurd hnil (hsome hlog')
    | kept hnone =>
      obtain ⟨new', hlog', hnil⟩ := hnone
      exact absurd hnil (hsome hlog')
    | unsynced _ _ hreported => exact ⟨_, rfl, hreported.resolve_left hclosed⟩
    | synced hsynced =>
      obtain ⟨new', hlog', hsynced⟩ := hsynced
      obtain rfl := List.append_cancel_left (hlog.symm.trans hlog')
      exact absurd hunsynced hsynced.not_unsynced

end

namespace System

variable {system after : System} {held : Held} {runtime : PatchManagerRuntime} {patchId : Text}

/-! ## Debts -/

/-- The durability of the target of the patch is unconfirmed. -/
def Unconfirmed (system : System) (patchId : Text) : Prop :=
  system.lastError patchId = some .durabilityUnconfirmed

/-- A run of the patch that the move ends has confirmed the durability of its target. -/
def Confirming (env : Env) (reconciler : Reconciler) (patchId : Text) (system : System)
    (move : Move) : Prop :=
  ∃ runtime held source update, move = .ran update ∧ system.runtime = some runtime ∧
    runtime.holder = some held ∧ held.patchId = patchId ∧ held.phase = .running source ∧
    Confirmed env reconciler (job runtime held source) 2
      (begun env (job runtime held source) system.world held.pending)

/-- A run of the patch that the move ends has replaced its target, and has not synced it then. -/
def Unsyncing (patchId : Text) (system : System) (move : Move) (after : System) : Prop :=
  ∃ runtime held source update new, move = .ran update ∧ system.runtime = some runtime ∧
    runtime.holder = some held ∧ held.patchId = patchId ∧ held.phase = .running source ∧
    after.world.log = system.world.log ++ new ∧ Unsynced (job runtime held source) new

/-- No debt of the patch is forgotten, while its subentry is there, and a new one is recorded. -/
structure Remembers (env : Env) (reconciler : Reconciler) (patchId : Text) (system : System)
    (move : Move) (after : System) : Prop where
  kept : system.Unconfirmed patchId → after.Unconfirmed patchId ∨
    Confirming env reconciler patchId system move ∨ patchId ∉ after.subentries
  recorded : Unsyncing patchId system move after → after.Unconfirmed patchId

/-- The save that an action of the patch awaits has a debt. -/
def SavesDebt (patchId : Text) (system : System) : Prop :=
  ∃ held items item, system.holder = some held ∧ held.patchId = patchId ∧
    held.phase = .saving items ∧ items.lookup patchId = some item ∧
    item.lastError = some .durabilityUnconfirmed

/-- A new debt is also on its way into the store. -/
structure Records (env : Env) (reconciler : Reconciler) (patchId : Text) (system : System)
    (move : Move) (after : System) : Prop extends
    Remembers env reconciler patchId system move after where
  saved : Unsyncing patchId system move after → SavesDebt patchId after

/-- A setup finds what was stored, a run of the patch closes its directories while a debt is open, and
a revert of the patch that leaves one open can turn `auto_apply` off. -/
structure Careful (env : Env) (reconciler : Reconciler) (patchId : Text) (system : System)
    (move : Move) (_after : System) : Prop where
  stored : ∀ data, move = .setup data → data = system.store
  closes : ∀ runtime held source update, move = .ran update → system.runtime = some runtime →
    runtime.holder = some held → held.patchId = patchId → held.phase = .running source →
    ¬ Unclosed env reconciler (job runtime held source) 2
      (begun env (job runtime held source) system.world held.pending)
  persists : ∀ runtime held update result world, system.runtime = some runtime →
    runtime.holder = some held → held.patchId = patchId → held.action = .revert →
    Ends env reconciler system runtime held move update result world →
    result.inspection = .unconfirmed →
    update = .done ∧ patchId ∈ system.subentries ∧ patchId ∈ runtime.definitions

/-- `Careful`, where a revert leaves a debt open if it began with one that its run has not confirmed,
or if its run has not synced what it replaced. -/
structure Persistent (env : Env) (reconciler : Reconciler) (patchId : Text) (system : System)
    (move : Move) (after : System) : Prop where
  stored : ∀ data, move = .setup data → data = system.store
  closes : ∀ runtime held source update, move = .ran update → system.runtime = some runtime →
    runtime.holder = some held → held.patchId = patchId → held.phase = .running source →
    ¬ Unclosed env reconciler (job runtime held source) 2
      (begun env (job runtime held source) system.world held.pending)
  persists : ∀ runtime held update, system.runtime = some runtime →
    runtime.holder = some held → held.patchId = patchId → held.action = .revert →
    (move = .checked update ∨ (∃ source, move = .loaded source update) ∨ move = .ran update) →
    (held.pending = true ∧ ¬ Confirming env reconciler patchId system move ∨
      Unsyncing patchId system move after) →
    update = .done ∧ patchId ∈ system.subentries ∧ patchId ∈ runtime.definitions

/-- What `Careful` and `Persistent` have in common. -/
structure Prudent (env : Env) (reconciler : Reconciler) (patchId : Text) (system : System)
    (move : Move) (after : System) : Prop where
  stored : ∀ data, move = .setup data → data = system.store
  closes : ∀ runtime held source update, move = .ran update → system.runtime = some runtime →
    runtime.holder = some held → held.patchId = patchId → held.phase = .running source →
    ¬ Unclosed env reconciler (job runtime held source) 2
      (begun env (job runtime held source) system.world held.pending)
  persists : ∀ runtime held update result world, system.runtime = some runtime →
    runtime.holder = some held → held.patchId = patchId → held.action = .revert →
    Ends env reconciler system runtime held move update result world →
    result.inspection = .unconfirmed →
    (held.pending = true ∧ ¬ Confirming env reconciler patchId system move ∨
      Unsyncing patchId system move after) →
    update = .done ∧ patchId ∈ system.subentries ∧ patchId ∈ runtime.definitions

theorem Careful.prudent {move : Move} (h : Careful env reconciler patchId system move after) :
    Prudent env reconciler patchId system move after :=
  ⟨h.stored, h.closes, fun runtime held update result world hruntime hheld hpatch hrevert hends
    hunconfirmed _ => h.persists runtime held update result world hruntime hheld hpatch hrevert hends
      hunconfirmed⟩

theorem Persistent.prudent {move : Move} (h : Persistent env reconciler patchId system move after) :
    Prudent env reconciler patchId system move after := by
  refine ⟨h.stored, h.closes, fun runtime held update result world hruntime hheld hpatch hrevert hends
    _ hopen => h.persists runtime held update hruntime hheld hpatch hrevert ?_ hopen⟩
  cases hends with
  | checked => exact Or.inl rfl
  | loaded => exact Or.inr (Or.inl ⟨_, rfl⟩)
  | ran => exact Or.inr (Or.inr rfl)

/-- What an action that holds the lock knows of its patch. -/
structure Informed (runtime : PatchManagerRuntime) (held : Held) : Prop where
  enabled : held.definition.enabled = true
  pending : ∃ state, runtime.states.lookup held.patchId = some state ∧
    ((∀ items, held.phase ≠ .saving items) → state.lastError = some .durabilityUnconfirmed → held.pending = true)
  denied : ∀ result, held.phase = .refreshing result → haDenied result = true

/-- Whoever holds the lock knows of the debt of its patch. -/
def Attentive (system : System) : Prop :=
  ∀ runtime held, system.runtime = some runtime → runtime.holder = some held →
    Informed runtime held

/-! ## Records -/

theorem recordResult_unconfirmed {result : ReconcileResult} {checkedAt : Text}
    {state : PatchRuntimeState} (h : result.inspection = .unconfirmed) :
    (recordResult held result checkedAt state).lastError = some .durabilityUnconfirmed := by
  have hdenied : haDenied result = false := haDenied_of_ne (by rw [h]; exact Status.noConfusion)
  unfold recordResult lossReported
  rw [hdenied, h]
  simp [PatchInspection.unconfirmed]

theorem recordResult_denied {result : ReconcileResult} {checkedAt : Text}
    {state : PatchRuntimeState} (hpending : held.pending = true)
    (hstatus : result.inspection.status = .securityError)
    (hstate : state.lastError = some .durabilityUnconfirmed) :
    (recordResult held result checkedAt state).lastError = some .durabilityUnconfirmed := by
  unfold recordResult
  split
  · exact hstate
  · exact if_pos ⟨hpending, hstatus⟩

theorem unconfirmed_of_runtime (hruntime : system.runtime = some runtime) :
    system.Unconfirmed patchId ↔ ∃ state, runtime.states.lookup patchId = some state ∧
      state.lastError = some .durabilityUnconfirmed := by
  unfold Unconfirmed lastError
  rw [hruntime]
  exact Option.bind_eq_some_iff

theorem unconfirmed_congr {runtime' : PatchManagerRuntime} (hruntime : system.runtime = some runtime)
    (hafter : after.runtime = some runtime') (hstates : runtime'.states = runtime.states) :
    after.Unconfirmed patchId ↔ system.Unconfirmed patchId := by
  rw [unconfirmed_of_runtime hruntime, unconfirmed_of_runtime hafter, hstates]

/-- The states after a result is recorded. -/
theorem unconfirmed_recordAndSave {result : ReconcileResult} :
    (system.recordAndSave env runtime held result).Unconfirmed patchId ↔
      ∃ state, runtime.states.lookup patchId = some state ∧
        (if patchId = held.patchId then
            recordResult held result (isoformat (env.now system.world.step)) state
          else state).lastError = some .durabilityUnconfirmed := by
  rw [unconfirmed_of_runtime rfl]
  unfold PatchManagerRuntime.modifyState
  simp only [Dict.lookup_mapValues, Option.map_eq_some_iff]
  constructor
  · rintro ⟨state, ⟨before, hbefore, rfl⟩, herror⟩
    exact ⟨before, hbefore, herror⟩
  · rintro ⟨state, hstate, herror⟩
    exact ⟨_, ⟨state, hstate, rfl⟩, herror⟩

theorem unconfirmed_settle {result : ReconcileResult} (hruntime : system.runtime = some runtime)
    (hne : patchId ≠ held.patchId) :
    (system.settle env runtime held result).Unconfirmed patchId ↔ system.Unconfirmed patchId := by
  unfold settle
  split
  · exact unconfirmed_congr hruntime rfl rfl
  · rw [unconfirmed_recordAndSave, unconfirmed_of_runtime hruntime]
    simp only [if_neg hne]

/-- An action leaves the reasons of the other patches as they are. -/
theorem Concludes.unconfirmed_of_ne {result : ReconcileResult} {update : Update}
    (h : Concludes env system runtime held result update after)
    (hruntime : system.runtime = some runtime) (hne : patchId ≠ held.patchId) :
    after.Unconfirmed patchId ↔ system.Unconfirmed patchId := by
  cases h with
  | settled => exact unconfirmed_settle hruntime hne
  | raised => exact unconfirmed_congr hruntime rfl rfl
  | disarmed =>
    rw [unconfirmed_recordAndSave, unconfirmed_of_runtime hruntime]
    simp only [if_neg hne]
  | gated =>
    rw [unconfirmed_recordAndSave, unconfirmed_of_runtime hruntime]
    simp only [if_neg hne]

/-- A result with an open debt is recorded with it. -/
theorem Concludes.unconfirmed {result : ReconcileResult} {update : Update}
    (h : Concludes env system runtime held result update after) {state : PatchRuntimeState}
    (hstate : runtime.states.lookup held.patchId = some state)
    (hopen : result.inspection = .unconfirmed ∨ held.pending = true ∧
      result.inspection.status = .securityError ∧ state.lastError = some .durabilityUnconfirmed)
    (hpersists : held.action = .revert → result.inspection = .unconfirmed →
      update = .done ∧ held.patchId ∈ system.subentries ∧ held.patchId ∈ runtime.definitions) :
    after.Unconfirmed held.patchId := by
  have hrecorded : (recordResult held result (isoformat (env.now system.world.step)) state).lastError =
      some .durabilityUnconfirmed := by
    rcases hopen with hopen | ⟨hpending, hstatus, herror⟩
    · exact recordResult_unconfirmed hopen
    · exact recordResult_denied hpending hstatus herror
  have hopen' (hallowed : result.inspection.status ≠ .securityError) :
      result.inspection = .unconfirmed := hopen.resolve_right fun h => hallowed h.2.1
  cases h with
  | settled =>
    unfold settle
    split
    · rename_i hdenied
      rw [unconfirmed_of_runtime rfl]
      refine ⟨state, hstate, ?_⟩
      rcases hopen with hopen | ⟨-, -, herror⟩
      · rw [haDenied_of_ne (by rw [hopen]; exact Status.noConfusion)] at hdenied
        cases hdenied
      · exact herror
    · exact unconfirmed_recordAndSave.mpr ⟨state, hstate, by rw [if_pos rfl]; exact hrecorded⟩
  | raised hrevert hallowed hlost =>
    obtain ⟨hdone, hpresent, hknown⟩ := hpersists hrevert (hopen' hallowed)
    rcases hlost with hraised | habsent | hunknown
    · cases hdone.symm.trans hraised
    · exact absurd hpresent habsent
    · exact absurd hknown (AList.lookup_eq_none.mp hunknown)
  | disarmed =>
    exact unconfirmed_recordAndSave.mpr ⟨state, hstate, by rw [if_pos rfl]; exact hrecorded⟩
  | gated hrevert hallowed hfailed =>
    obtain ⟨hdone, -⟩ := hpersists hrevert (hopen' hallowed)
    cases hdone.symm.trans hfailed

theorem savesDebt_recordAndSave {result : ReconcileResult} {state : PatchRuntimeState}
    (hstate : runtime.states.lookup held.patchId = some state)
    (hunconfirmed : result.inspection = .unconfirmed) :
    SavesDebt held.patchId (system.recordAndSave env runtime held result) := by
  have hrecorded : (recordResult held result (isoformat (env.now system.world.step)) state).lastError =
      some .durabilityUnconfirmed := recordResult_unconfirmed hunconfirmed
  have hstored : ∃ item, (StateStore.save (runtime.modifyState held.patchId (recordResult held result
      (isoformat (env.now system.world.step)))).states).lookup held.patchId = some item ∧
      item.lastError = some .durabilityUnconfirmed := by
    unfold StateStore.save
    rw [Dict.lookup_mapValues, lookup_modifyState, hstate, Option.map_some, if_pos rfl]
    exact ⟨_, rfl, hrecorded⟩
  obtain ⟨item, hitem, herror⟩ := hstored
  exact ⟨{ held with phase := .saving _ }, _, item, rfl, rfl, rfl, hitem, herror⟩

/-- A result with an open debt is saved with it. -/
theorem Concludes.savesDebt {result : ReconcileResult} {update : Update}
    (h : Concludes env system runtime held result update after) {state : PatchRuntimeState}
    (hstate : runtime.states.lookup held.patchId = some state)
    (hunconfirmed : result.inspection = .unconfirmed)
    (hpersists : held.action = .revert →
      update = .done ∧ held.patchId ∈ system.subentries ∧ held.patchId ∈ runtime.definitions) :
    SavesDebt held.patchId after := by
  cases h with
  | settled =>
    rw [settle_of_allowed (by rw [hunconfirmed]; exact Status.noConfusion)]
    exact savesDebt_recordAndSave hstate hunconfirmed
  | raised hrevert hallowed hlost =>
    obtain ⟨hdone, hpresent, hknown⟩ := hpersists hrevert
    rcases hlost with hraised | habsent | hunknown
    · cases hdone.symm.trans hraised
    · exact absurd hpresent habsent
    · exact absurd hknown (AList.lookup_eq_none.mp hunknown)
  | disarmed => exact savesDebt_recordAndSave hstate hunconfirmed
  | gated hrevert hallowed hfailed =>
    obtain ⟨hdone, -⟩ := hpersists hrevert
    cases hdone.symm.trans hfailed

/-- A failure of an action with a debt is a denial, or leaves the debt open. -/
theorem failedResult_pending {error : PatchError} (hpending : held.pending = true) :
    (failedResult held.pending error).inspection.status = .securityError ∨
      (failedResult held.pending error).inspection = .unconfirmed := by
  unfold failedResult
  rw [hpending]
  by_cases h : error.status = .securityError
  · exact Or.inl (by simp [h])
  · exact Or.inr (by simp [h, PatchInspection.unconfirmed])

/-- A run that raises has raised no `PatchError`. -/
theorem run_failure {job : Job} {pendingDurability : Bool} {out : Except Exc ReconcileResult}
    {result : ReconcileResult} {w w' : World} (henabled : job.definition.enabled = true)
    (h : run env reconciler job pendingDurability w = (out, w')) :
    ¬ failure held out = some result := by
  intro hfailed
  obtain ⟨e, error, rfl, herror, -⟩ := failure_eq_some hfailed
  generalize hout : (Except.error e : Except Exc ReconcileResult) = out at h
  cases run_outcome henabled h with
  | raised =>
    cases hout
    cases herror
  | kept => cases hout
  | unsynced => cases hout
  | synced => cases hout

/-- An action with a debt confirms it, or ends with a denial or with the debt still open. -/
theorem Ends.opens {move : Move} {update : Update} {result : ReconcileResult} {world : World}
    (h : Ends env reconciler system runtime held move update result world)
    (hruntime : system.runtime = some runtime) (hheld : runtime.holder = some held)
    (henabled : held.definition.enabled = true) (hpending : held.pending = true)
    (hcloses : ∀ source update, move = .ran update → held.phase = .running source →
      ¬ Unclosed env reconciler (job runtime held source) 2
        (begun env (job runtime held source) system.world held.pending)) :
    Confirming env reconciler held.patchId system move ∨
      result.inspection.status = .securityError ∨ result.inspection = .unconfirmed := by
  have hfailed {α : Type} {out : Except Exc α} (hfailed : failure held out = some result) :
      result.inspection.status = .securityError ∨ result.inspection = .unconfirmed := by
    obtain ⟨e, error, -, -, rfl⟩ := failure_eq_some hfailed
    exact failedResult_pending hpending
  cases h with
  | checked hphase hcheck hfailure => exact Or.inr (hfailed hfailure)
  | loaded hphase hfailure => exact Or.inr (hfailed hfailure)
  | ran hphase hrun hreturned =>
    rename_i source out
    obtain rfl : out = .ok result := hreturned.resolve_right (run_failure henabled hrun)
    have hclosed := hcloses source update rfl hphase
    rw [hpending] at hrun hclosed
    rcases run_pending henabled hrun hclosed with hconfirmed | hopen
    · exact Or.inl ⟨runtime, held, source, update, rfl, hruntime, hheld, rfl, hphase,
        by rw [hpending]; exact hconfirmed⟩
    · exact Or.inr hopen

/-! ## Moves -/

theorem Ends.phase {move : Move} {update : Update} {result : ReconcileResult} {world : World}
    (h : Ends env reconciler system runtime held move update result world) :
    ∀ items, held.phase ≠ .saving items := by
  intro items hsaving
  cases h with
  | checked hphase => cases hphase.symm.trans hsaving
  | loaded hphase => cases hphase.symm.trans hsaving
  | ran hphase => cases hphase.symm.trans hsaving

theorem attentive_of_none (h : ∀ runtime, system.runtime = some runtime → runtime.holder = none) :
    system.Attentive := by
  intro runtime held hruntime hheld
  cases (h runtime hruntime).symm.trans hheld

theorem attentive_recordAndSave {result : ReconcileResult} (hinformed : Informed runtime held)
    {base : System} {runtime' : PatchManagerRuntime} (hstates : runtime'.states = runtime.states) :
    (base.recordAndSave env runtime' held result).Attentive := by
  intro next held' hnext hheld'
  obtain ⟨state, hstate, -⟩ := hinformed.pending
  cases hnext
  cases hheld'
  have hlookup := lookup_modifyState runtime' held.patchId
    (recordResult held result (isoformat (env.now base.world.step))) held.patchId
  rw [hstates, hstate, Option.map_some] at hlookup
  exact ⟨hinformed.enabled, ⟨_, hlookup, fun h => absurd rfl (h _)⟩, fun result' h => by cases h⟩

/-- The action goes on, or its result is recorded. -/
theorem attentive_settle {result : ReconcileResult} (hinformed : Informed runtime held)
    (hphase : ∀ items, held.phase ≠ .saving items) {base : System} {runtime' : PatchManagerRuntime}
    (hstates : runtime'.states = runtime.states) :
    (base.settle env runtime' held result).Attentive := by
  unfold settle
  split
  · rename_i hdenied
    intro next held' hnext hheld'
    obtain ⟨state, hstate, hpending⟩ := hinformed.pending
    cases hnext
    cases hheld'
    have hlookup : runtime'.states.lookup held.patchId = some state := hstates ▸ hstate
    refine ⟨hinformed.enabled, ⟨state, hlookup, fun _ => hpending hphase⟩, fun result' h => ?_⟩
    cases h
    exact hdenied
  · exact attentive_recordAndSave hinformed hstates

theorem Acts.attentive {move : Move} (h : Acts env reconciler system runtime held move after)
    (hinformed : Informed runtime held) : after.Attentive := by
  have hreleased {base : System} : (base.release runtime).Attentive :=
    attentive_of_none fun next hnext => by
      cases hnext
      rfl
  have hawaits {base : System} {phase : Phase} (hphase : ∀ items, held.phase ≠ .saving items)
      (hnext : ∀ result, phase ≠ .refreshing result) :
      (base.withRuntime { runtime with holder := some { held with phase := phase } }).Attentive := by
    intro next held' hnext' hheld'
    cases hnext'
    cases hheld'
    obtain ⟨state, hstate, hpending⟩ := hinformed.pending
    exact ⟨hinformed.enabled, ⟨state, hstate, fun _ => hpending hphase⟩,
      fun result h => absurd h (hnext result)⟩
  cases h with
  | checked hphase =>
    exact hawaits (fun _ h => by cases hphase.symm.trans h) fun _ => Phase.noConfusion
  | loaded hphase =>
    exact hawaits (fun _ h => by cases hphase.symm.trans h) fun _ => Phase.noConfusion
  | raised => exact hreleased
  | refreshed => exact attentive_recordAndSave hinformed rfl
  | unrefreshed => exact hreleased
  | saved => exact hreleased
  | concluded hends hconcludes =>
    cases hconcludes with
    | settled => exact attentive_settle hinformed hends.phase rfl
    | raised => exact hreleased
    | disarmed => exact attentive_recordAndSave hinformed rfl
    | gated => exact attentive_recordAndSave hinformed rfl

theorem attentive_step {move : Move} (h : system.Attentive)
    (hstep : system.step env reconciler move = some after) : after.Attentive := by
  cases moves hstep with
  | request hruntime =>
    intro runtime held hafter hheld
    cases hafter
    obtain ⟨henabled, hpending, hdenied⟩ := h _ held hruntime hheld
    exact ⟨henabled, hpending, hdenied⟩
  | began hruntime =>
    rename_i runtime index p action hwaits hunlocked
    obtain heq | ⟨held, heq, -, -, hbegun⟩ :=
      begin_cases system runtime p action (runtime.waiting.eraseIdx index)
    · rw [heq]
      exact attentive_of_none fun next hnext => by
        cases hnext
        rfl
    · rw [heq]
      intro next held' hnext hheld'
      cases hnext
      cases hheld'
      obtain ⟨state, hstate, hpending⟩ := hbegun.pending
      refine ⟨hbegun.enabled, ⟨state, hstate, fun _ herror => ?_⟩, fun result hphase => ?_⟩
      · rw [hpending]
        exact decide_eq_true herror
      · cases hbegun.phase.symm.trans hphase
  | acted hruntime hheld hacts => exact hacts.attentive (h _ _ hruntime hheld)
  | watched hruntime =>
    intro runtime held hafter hheld
    cases hafter
    obtain ⟨henabled, ⟨state, hstate, hpending⟩, hdenied⟩ := h _ held hruntime hheld
    refine ⟨henabled, ⟨_, (lookup_modifyState ..).trans (by rw [hstate]; rfl), fun hphase herror => ?_⟩,
      hdenied⟩
    refine hpending hphase ?_
    split at herror
    · exact herror
    · exact herror
  | denied hruntime hknown =>
    intro runtime held hafter hheld
    cases hafter
    obtain ⟨henabled, ⟨state, hstate, hpending⟩, hdenied⟩ := h _ held hruntime hheld
    refine ⟨henabled, ⟨_, (lookup_modifyState ..).trans (by rw [hstate]; rfl), fun hphase herror => ?_⟩,
      hdenied⟩
    refine hpending hphase ?_
    split at herror
    · by_contra hne
      simp only [ne_eq, hne, not_false_eq_true, if_true, Option.some_inj] at herror
      rw [herror] at hknown
      exact absurd hknown (by decide)
    · exact herror
  | closing hruntime =>
    intro runtime held hafter hheld
    cases hafter
    obtain ⟨henabled, hpending, hdenied⟩ := h _ held hruntime hheld
    exact ⟨henabled, hpending, hdenied⟩
  | closed => exact attentive_of_none fun next hnext => by cases hnext
  | loaded hunloaded hmake =>
    refine attentive_of_none fun next hnext => ?_
    cases hnext
    exact (make_ok hmake).2.1
  | beside hbeside hruntime =>
    intro runtime held hafter hheld
    exact h runtime held (hruntime.symm.trans hafter) hheld

/-- An action keeps the debts of the other patches, and that of its own unless it has confirmed it. -/
theorem Acts.kept {move : Move} (h : Acts env reconciler system runtime held move after)
    (hruntime : system.runtime = some runtime) (hheld : runtime.holder = some held)
    (hinformed : Informed runtime held) (hprudent : Prudent env reconciler patchId system move after)
    (hdebt : system.Unconfirmed patchId) :
    after.Unconfirmed patchId ∨ Confirming env reconciler patchId system move := by
  by_cases hconfirming : Confirming env reconciler patchId system move
  · exact Or.inr hconfirming
  have hsame {runtime' : PatchManagerRuntime} (hafter : after.runtime = some runtime')
      (hstates : runtime'.states = runtime.states) : after.Unconfirmed patchId :=
    (unconfirmed_congr hruntime hafter hstates).mpr hdebt
  have hdebt' := hdebt
  obtain ⟨state, hstate, herror⟩ := (unconfirmed_of_runtime hruntime).mp hdebt
  obtain ⟨henabled, ⟨own, hown, hpending⟩, hdenied⟩ := hinformed
  cases h with
  | checked => exact Or.inl (hsame rfl rfl)
  | loaded => exact Or.inl (hsame rfl rfl)
  | raised => exact Or.inl (hsame rfl rfl)
  | unrefreshed => exact Or.inl (hsame rfl rfl)
  | saved => exact Or.inl (hsame rfl rfl)
  | refreshed hphase =>
    refine Or.inl (unconfirmed_recordAndSave.mpr ⟨state, hstate, ?_⟩)
    split
    · rename_i hpatch
      subst hpatch
      cases hown.symm.trans hstate
      have hsecurity : haDenied _ = true := hdenied _ hphase
      unfold haDenied at hsecurity
      rw [Bool.and_eq_true, decide_eq_true_eq] at hsecurity
      refine recordResult_denied (hpending (fun _ h => ?_) herror) hsecurity.1 herror
      cases hphase.symm.trans h
    · exact herror
  | concluded hends hconcludes =>
    rename_i update result world
    have hbase : ({ system with world := world } : System).runtime = some runtime := hruntime
    by_cases hpatch : patchId = held.patchId
    · subst hpatch
      cases hown.symm.trans hstate
      have hpending := hpending hends.phase herror
      rcases hends.opens hruntime hheld henabled hpending fun source update hmove hphase =>
        hprudent.closes runtime held source update hmove hruntime hheld rfl hphase with
        hconfirmed | hopen
      · exact absurd hconfirmed hconfirming
      · refine Or.inl (hconcludes.unconfirmed hstate ?_ fun hrevert hunconfirmed =>
          hprudent.persists runtime held update result world hruntime hheld rfl hrevert hends
            hunconfirmed (Or.inl ⟨hpending, hconfirming⟩))
        exact hopen.symm.imp_right fun hstatus => ⟨hpending, hstatus, herror⟩
    · exact Or.inl ((hconcludes.unconfirmed_of_ne hbase hpatch).mpr hdebt)

/-- A run that leaves its target unsynced is recorded with that, and saved with it. -/
theorem Acts.recorded {move : Move} (h : Acts env reconciler system runtime held move after)
    (hruntime : system.runtime = some runtime) (hheld : runtime.holder = some held)
    (hinformed : Informed runtime held) (hprudent : Prudent env reconciler patchId system move after)
    (hunsyncing : Unsyncing patchId system move after) :
    after.Unconfirmed patchId ∧ SavesDebt patchId after := by
  have hunsyncing' := hunsyncing
  obtain ⟨runtime', held', source, update, new, rfl, hruntime', hheld', rfl, hphase, hlog,
    hunsynced⟩ := hunsyncing
  cases hruntime.symm.trans hruntime'
  cases hheld.symm.trans hheld'
  obtain ⟨state, hstate, -⟩ := hinformed.pending
  cases h with
  | raised hbreaks =>
    obtain ⟨new', hlog', hnil⟩ := hbreaks.unreplaced
    obtain rfl := List.append_cancel_left (hlog.symm.trans hlog')
    exact absurd hnil hunsynced.replaced
  | concluded hends hconcludes =>
    have hends' := hends
    cases hends with
    | ran hphase' hrun hreturned =>
      cases hphase.symm.trans hphase'
      rw [hconcludes.world] at hlog
      have hclosed := hprudent.closes runtime held source update rfl hruntime hheld rfl hphase
      obtain ⟨result, rfl, hunconfirmed⟩ := run_unsynced hrun hlog hunsynced hclosed
      cases hreturned.resolve_right (run_failure hinformed.enabled hrun)
      have hpersists (hrevert : held.action = .revert) := hprudent.persists runtime held update _ _
        hruntime hheld rfl hrevert hends' hunconfirmed (Or.inr hunsyncing')
      exact ⟨hconcludes.unconfirmed hstate (Or.inl hunconfirmed) fun hrevert _ => hpersists hrevert,
        hconcludes.savesDebt hstate hunconfirmed hpersists⟩

/-- A setup finds the debt that was stored. -/
theorem unconfirmed_of_setup {runtime : PatchManagerRuntime} {item : StateStore.Item}
    {data : Dict Text StateStore.Item} {restart : List Text}
    (hmake : PatchManagerRuntime.make system.subentries system.backupRetention = .ok runtime)
    (hpresent : patchId ∈ system.subentries) (hitem : data.lookup patchId = some item)
    (herror : item.lastError = some .durabilityUnconfirmed) :
    ∃ state, (runtime.asyncLoad restart (some data)).states.lookup patchId = some state ∧
      state.lastError = some .durabilityUnconfirmed := by
  obtain ⟨hdefinitions, -⟩ := make_ok hmake
  obtain ⟨definition, hdefinition⟩ :=
    Option.isSome_iff_exists.mp (AList.lookup_isSome.mpr hpresent)
  obtain ⟨state, hstate⟩ := load_of_make hmake hpresent hitem
  have hgated : (StateStore.restore state item).lastError = some .durabilityUnconfirmed := by
    unfold StateStore.restore
    rw [herror]
    rfl
  unfold PatchManagerRuntime.asyncLoad
  simp only [Dict.lookup_mapValues, hstate, Option.map_some, hdefinitions, hdefinition]
  refine ⟨_, rfl, ?_⟩
  unfold PatchManagerRuntime.loadedState
  simp only [hgated, Option.any_some]
  have hgate : decide (Reason.durabilityUnconfirmed ∈ StateStore.gates) = true := rfl
  rw [hgate]
  split
  · rename_i h
    exact absurd h.2.2 (by simp)
  · split
    · rfl
    · rfl

theorem records_step {move : Move} (h : system.Attentive)
    (hstep : system.step env reconciler move = some after)
    (hprudent : Prudent env reconciler patchId system move after) :
    Records env reconciler patchId system move after := by
  have hidle (hran : ∀ update, move ≠ .ran update) (hkept : system.Unconfirmed patchId →
      after.Unconfirmed patchId ∨ patchId ∉ after.subentries) :
      Records env reconciler patchId system move after := by
    have hnot : ¬ Unsyncing patchId system move after := by
      rintro ⟨-, -, -, update, -, hmove, -⟩
      exact absurd hmove (hran update)
    exact ⟨⟨fun hdebt => (hkept hdebt).imp_right Or.inr, fun h => absurd h hnot⟩,
      fun h => absurd h hnot⟩
  have hsame {runtime runtime' : PatchManagerRuntime} (hruntime : system.runtime = some runtime)
      (hafter : after.runtime = some runtime') (hstates : runtime'.states = runtime.states) :
      system.Unconfirmed patchId → after.Unconfirmed patchId ∨ patchId ∉ after.subentries :=
    fun hdebt => Or.inl ((unconfirmed_congr hruntime hafter hstates).mpr hdebt)
  cases moves hstep with
  | request hruntime => exact hidle (fun _ => Move.noConfusion) (hsame hruntime rfl rfl)
  | began hruntime =>
    rename_i runtime index p action hwaits hunlocked
    refine hidle (fun _ => Move.noConfusion) ?_
    obtain heq | ⟨held, heq, -⟩ :=
      begin_cases system runtime p action (runtime.waiting.eraseIdx index)
    · exact hsame hruntime (congrArg System.runtime heq) rfl
    · exact hsame hruntime (congrArg System.runtime heq) rfl
  | acted hruntime hheld hacts =>
    have hinformed := h _ _ hruntime hheld
    have hrecorded := hacts.recorded hruntime hheld hinformed hprudent
    exact ⟨⟨fun hdebt => (hacts.kept hruntime hheld hinformed hprudent hdebt).imp_right Or.inl,
      fun hunsyncing => (hrecorded hunsyncing).1⟩, fun hunsyncing => (hrecorded hunsyncing).2⟩
  | watched hruntime =>
    refine hidle (fun _ => Move.noConfusion) fun hdebt => Or.inl ?_
    obtain ⟨state, hstate, herror⟩ := (unconfirmed_of_runtime hruntime).mp hdebt
    refine (unconfirmed_of_runtime rfl).mpr ⟨_, (lookup_modifyState ..).trans (by rw [hstate]; rfl), ?_⟩
    split
    · exact herror
    · exact herror
  | denied hruntime =>
    refine hidle (fun _ => Move.noConfusion) fun hdebt => Or.inl ?_
    obtain ⟨state, hstate, herror⟩ := (unconfirmed_of_runtime hruntime).mp hdebt
    refine (unconfirmed_of_runtime rfl).mpr ⟨_, (lookup_modifyState ..).trans (by rw [hstate]; rfl), ?_⟩
    split
    · simp only [herror, ne_eq, not_true_eq_false, if_false]
    · exact herror
  | closing hruntime => exact hidle (fun _ => Move.noConfusion) (hsame hruntime rfl rfl)
  | closed hruntime =>
    refine hidle (fun _ => Move.noConfusion) fun hdebt => Or.inl ?_
    obtain ⟨state, hstate, herror⟩ := (unconfirmed_of_runtime hruntime).mp hdebt
    unfold Unconfirmed lastError
    simp only [Option.bind_some]
    unfold StateStore.save
    rw [Dict.lookup_mapValues, hstate]
    exact herror
  | loaded hunloaded hmake =>
    refine hidle (fun _ => Move.noConfusion) fun hdebt => ?_
    by_cases hpresent : patchId ∈ system.subentries
    · refine Or.inl ((unconfirmed_of_runtime rfl).mpr ?_)
      unfold Unconfirmed lastError at hdebt
      rw [hunloaded] at hdebt
      obtain ⟨item, hitem, herror⟩ := Option.bind_eq_some_iff.mp hdebt
      obtain ⟨data, hdata, hitem⟩ := Option.bind_eq_some_iff.mp hitem
      rw [hprudent.stored _ rfl, hdata]
      exact unconfirmed_of_setup hmake hpresent hitem herror
    · exact Or.inr hpresent
  | beside hbeside hruntime hworld hstore =>
    refine hidle (fun update hmove => ?_) fun hdebt => Or.inl ?_
    · rw [hmove] at hbeside
      exact hbeside
    · unfold Unconfirmed lastError at hdebt ⊢
      rw [hruntime, hstore]
      exact hdebt

theorem records_of_unloaded {moves : List Move} (hsystem : system.runtime = none)
    (hprudent : Traces.Every (System.step env reconciler) (Prudent env reconciler patchId) system
      moves) :
    Traces.Every (System.step env reconciler) (Records env reconciler patchId) system moves := by
  refine Traces.every_of_invariant (fun _ _ _ h hstep _ => attentive_step h hstep)
    (fun _ _ _ h hstep hprudent => records_step h hstep hprudent) ?_ hprudent
  refine attentive_of_none fun runtime hruntime => ?_
  cases hsystem.symm.trans hruntime

/-- Whatever fails and whoever acts, no debt is forgotten and every new one is recorded: if runs with
an open debt close their directories, their reverts are persisted, and setups find what was stored. -/
theorem durability_remembered {moves : List Move} (hsystem : system.runtime = none)
    (hcareful : Traces.Every (System.step env reconciler) (Careful env reconciler patchId) system
      moves) :
    Traces.Every (System.step env reconciler) (Remembers env reconciler patchId) system moves := by
  exact (records_of_unloaded hsystem (hcareful.mono fun _ _ _ _ h => h.prudent)).mono
    fun _ _ _ _ h => h.toRemembers

/-- `durability_remembered`, where only what a revert began with and what its run has left unsynced
have to be persisted, and where every new debt is also saved. -/
theorem debts_kept {moves : List Move} (hsystem : system.runtime = none)
    (hpersistent : Traces.Every (System.step env reconciler) (Persistent env reconciler patchId)
      system moves) :
    Traces.Every (System.step env reconciler) (Records env reconciler patchId) system moves :=
  records_of_unloaded hsystem (hpersistent.mono fun _ _ _ _ h => h.prudent)

/-- What is stored of a patch whose target was not synced. -/
def indebted : Dict Text StateStore.Item :=
  AList.singleton ['p'] { lastError := some .durabilityUnconfirmed }

/-- An entry with one patch that exchanges `x` for `y`, and a debt. -/
def indebtedSystem : System where
  world := steadyWorld (Utf8.encode "x\n".toList)
  subentries := AList.singleton ['p'] steadyDefinition
  backupRetention := 5
  store := some indebted

/-- The patch is applied. -/
def repayMoves : List Move :=
  [.setup (some indebted), .request ['p'] .apply, .begin 0, .checked .done,
    .loaded (.ok (exchangeJob ['1']).source) .done, .ran .done]

theorem repaid_run : ∃ final,
    Traces.after (System.step steadyEnv (steadyReconciler exchangeHunks)) indebtedSystem repayMoves =
      some final ∧ final.lastError ['p'] = none := by
  have hrun : (Traces.after (System.step steadyEnv (steadyReconciler exchangeHunks)) indebtedSystem
      repayMoves).map (·.lastError ['p']) = some none := by decide +kernel
  exact Option.map_eq_some_iff.mp hrun

/-- In that run no directory fails to close, setups find what was stored, and nothing is reverted. -/
theorem repaid_every {P : System → Move → System → Prop}
    (h : ∀ s l t, (∀ data, l = .setup data → data = s.store) →
      (∀ job w, ¬ Unclosed steadyEnv (steadyReconciler exchangeHunks) job 2 w) →
      (∀ runtime held, s.runtime = some runtime → runtime.holder = some held →
        held.action ≠ .revert) → P s l t) :
    Traces.Every (System.step steadyEnv (steadyReconciler exchangeHunks)) P indebtedSystem
      repayMoves := by
  have hactions : Traces.Every (System.step steadyEnv (steadyReconciler exchangeHunks))
      (fun s _ _ => s.holder.all fun held => held.action ≠ .revert) indebtedSystem repayMoves := by
    decide +kernel
  have hquiet : steadyEnv.Quiet := ⟨fun _ => rfl, fun _ => rfl⟩
  have hstep {s t : System} {l : Move} (hstored : ∀ data, l = .setup data → data = s.store)
      (haction : s.holder.all fun held => held.action ≠ .revert) : P s l t := by
    refine h s l t hstored (fun _ _ => not_unclosed_of_quiet hquiet) ?_
    intro runtime held hruntime hheld
    rw [holder_of_runtime hruntime, hheld] at haction
    simpa using haction
  intro s hs
  obtain ⟨haction, hactions⟩ := hactions s hs
  refine ⟨hstep (fun data h => by cases h; rfl) haction, ?_⟩
  have hsetups : Traces.Every (System.step steadyEnv (steadyReconciler exchangeHunks))
      (fun _ l _ => ∀ data, l ≠ .setup data) s repayMoves.tail :=
    Traces.every_of_forall_mem fun l hl data h => by
      subst h
      simp [repayMoves] at hl
  apply (hactions.and hsetups).mono
  rintro s l t - ⟨haction, hsetup⟩
  exact hstep (fun data hl => absurd hl (hsetup data)) haction

theorem durability_remembered_repaid : ∃ final,
    Traces.after (System.step steadyEnv (steadyReconciler exchangeHunks)) indebtedSystem repayMoves =
      some final ∧
    final.lastError ['p'] = none ∧
    Traces.Every (System.step steadyEnv (steadyReconciler exchangeHunks))
      (Remembers steadyEnv (steadyReconciler exchangeHunks) ['p']) indebtedSystem repayMoves := by
  obtain ⟨final, hfinal, herror⟩ := repaid_run
  refine ⟨final, hfinal, herror, durability_remembered rfl (repaid_every ?_)⟩
  refine fun s l t hstored hclosed hrevert => ⟨hstored, fun _ _ _ _ _ _ _ _ _ => hclosed _ _, ?_⟩
  exact fun runtime held _ _ _ hruntime hheld _ haction =>
    absurd haction (hrevert runtime held hruntime hheld)

theorem debts_kept_repaid : ∃ final,
    Traces.after (System.step steadyEnv (steadyReconciler exchangeHunks)) indebtedSystem repayMoves =
      some final ∧
    final.lastError ['p'] = none ∧
    Traces.Every (System.step steadyEnv (steadyReconciler exchangeHunks))
      (Records steadyEnv (steadyReconciler exchangeHunks) ['p']) indebtedSystem repayMoves := by
  obtain ⟨final, hfinal, herror⟩ := repaid_run
  refine ⟨final, hfinal, herror, debts_kept rfl (repaid_every ?_)⟩
  refine fun s l t hstored hclosed hrevert => ⟨hstored, fun _ _ _ _ _ _ _ _ _ => hclosed _ _, ?_⟩
  exact fun runtime held _ hruntime hheld _ haction =>
    absurd haction (hrevert runtime held hruntime hheld)

/-- A revert of the patch, whose source cannot be read. -/
def forgetMoves : List Move :=
  [.setup (some indebted), .request ['p'] .revert, .begin 0, .checked .done]

/-- The gate of a revert that cannot be persisted is written over the debt. -/
theorem debt_forgotten : ∃ reverting after,
    Traces.after (System.step steadyEnv (steadyReconciler exchangeHunks)) indebtedSystem forgetMoves =
      some reverting ∧ reverting.Unconfirmed ['p'] ∧
    reverting.step steadyEnv (steadyReconciler exchangeHunks)
      (.loaded (.error (.patch ⟨.sourceUnavailable, .sourceError⟩)) .failed) = some after ∧
    ¬ Records steadyEnv (steadyReconciler exchangeHunks) ['p'] reverting
      (.loaded (.error (.patch ⟨.sourceUnavailable, .sourceError⟩)) .failed) after := by
  have hopen : (Traces.after (System.step steadyEnv (steadyReconciler exchangeHunks)) indebtedSystem
      forgetMoves).map (·.lastError ['p']) = some (some .durabilityUnconfirmed) := by decide +kernel
  have hgated : (Traces.after (System.step steadyEnv (steadyReconciler exchangeHunks)) indebtedSystem
      (forgetMoves ++ [.loaded (.error (.patch ⟨.sourceUnavailable, .sourceError⟩)) .failed])).map
        (fun after => (after.lastError ['p'], decide (['p'] ∈ after.subentries))) =
      some (some .revertMetadataUnavailable, true) := by decide +kernel
  obtain ⟨after, hafter, hgated⟩ := Option.map_eq_some_iff.mp hgated
  obtain ⟨reverting, hreverting, hlast⟩ := Traces.after_append.mp hafter
  obtain ⟨_, hstep, hend⟩ := Traces.after_cons.mp hlast
  cases hend
  obtain ⟨hgate, hpresent⟩ := Prod.mk.inj hgated
  rw [hreverting, Option.map_some, Option.some_inj] at hopen
  refine ⟨reverting, after, hreverting, hopen, hstep, fun hrecords => ?_⟩
  rcases hrecords.kept hopen with hkept | ⟨-, -, -, update, hmove, -⟩ | habsent
  · cases hgate.symm.trans hkept
  · cases hmove
  · exact habsent (of_decide_eq_true hpresent)

end System

end Hapatchy
