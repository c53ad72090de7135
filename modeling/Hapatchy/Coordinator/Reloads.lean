import Hapatchy.Backup.Retention
import Hapatchy.Coordinator.Reverts
import Hapatchy.Reconciler.Digests

/-!
# What a reload keeps

Whatever is stored, a runtime holds only times and digests that `_restore`
accepts. So what `async_close` saves is what the next setup finds.
-/

open Effects Prog

namespace Hapatchy

/-! ## Times and digests -/

/-- `sha256(…).hexdigest()` -/
def Env.Hex (env : Env) : Prop := ∀ data, StateStore.isSha256 (env.sha256 data) = true

theorem digit_padded {width n : Nat} : ∀ c ∈ padded width n, c.isDigit = true := by
  intro c h
  rcases List.mem_append.mp h with h | h
  · rw [List.eq_of_mem_replicate h]
    rfl
  · exact Nat.isDigit_of_mem_toDigits (by decide) (by decide) h

/-- The characters of `[0-9T:.+Z-]`. -/
theorem timestamp_padded {width n : Nat} : (padded width n).all (fun c =>
    ('0' ≤ c && c ≤ '9') || c ∈ ['T', ':', '.', '+', 'Z', '-']) = true := by
  rw [List.all_eq_true]
  intro c h
  have hdigit : (decide ('0' ≤ c) && decide (c ≤ '9')) = true := digit_padded c h
  rw [hdigit, Bool.true_or]

theorem isTimestamp_isoformat (now : Timestamp) : StateStore.isTimestamp (isoformat now) = true := by
  obtain ⟨⟨hyear, hyear'⟩, hmonth, hday, hhour, hminute, hsecond, hmicro⟩ := now.valid
  unfold StateStore.isTimestamp isoformat
  rw [Bool.and_eq_true, Bool.and_eq_true, decide_eq_true_eq, decide_eq_true_eq]
  refine ⟨?_, ?_⟩
  · split
    · simp (disch := omega) [length_padded]
    · simp (disch := omega) [length_padded]
  · simp only [List.all_append, timestamp_padded, Bool.true_and, Bool.and_true]
    split
    · decide
    · simp only [List.all_cons, timestamp_padded]
      decide

/-! ## Sound states -/

/-- The times and the digests are those that `_restore` takes. -/
structure PatchRuntimeState.Sound (state : PatchRuntimeState) : Prop where
  lastCheckedAt : ∀ t, state.lastCheckedAt = some t → StateStore.isTimestamp t = true
  lastAppliedAt : ∀ t, state.lastAppliedAt = some t → StateStore.isTimestamp t = true
  targetSha256 : ∀ t, state.targetSha256 = some t → StateStore.isSha256 t = true
  patchSha256 : ∀ t, state.patchSha256 = some t → StateStore.isSha256 t = true

variable {env : Env} {reconciler : Reconciler} {state : PatchRuntimeState} {held : Held}

theorem checked_sound {check : Text → Bool} {value current : Option Text}
    (h : ∀ t, current = some t → check t = true) :
    ∀ t, StateStore.checked check value current = some t → check t = true := by
  intro t ht
  unfold StateStore.checked at ht
  split at ht
  · split at ht
    · cases ht
      assumption
    · exact h t ht
  · exact h t ht

/-- A value that passes its check is taken back. -/
theorem checked_same {check : Text → Bool} {value : Option Text}
    (h : ∀ t, value = some t → check t = true) : StateStore.checked check value none = value := by
  cases value with
  | none => rfl
  | some t =>
    unfold StateStore.checked
    simp only [h t rfl, if_true]

theorem PatchRuntimeState.Sound.restore (h : state.Sound) (item : StateStore.Item) :
    (StateStore.restore state item).Sound where
  lastCheckedAt := checked_sound h.lastCheckedAt
  lastAppliedAt := checked_sound h.lastAppliedAt
  targetSha256 := checked_sound h.targetSha256
  patchSha256 := checked_sound h.patchSha256

theorem PatchRuntimeState.Sound.loaded (h : state.Sound) {restart : List Text} {patchId : Text}
    {definition : PatchDefinition} :
    (PatchManagerRuntime.loadedState restart patchId definition state).Sound := by
  unfold PatchManagerRuntime.loadedState
  simp only
  split
  · exact ⟨h.lastCheckedAt, h.lastAppliedAt, h.targetSha256, fun _ ht => by cases ht⟩
  · split
    · exact ⟨h.lastCheckedAt, h.lastAppliedAt, h.targetSha256, h.patchSha256⟩
    · exact ⟨h.lastCheckedAt, h.lastAppliedAt, h.targetSha256, h.patchSha256⟩

theorem PatchRuntimeState.Sound.record (h : state.Sound) (hhex : env.Hex) {result : ReconcileResult}
    (hresult : Digested env result.sourceSha256 result.targetSha256) (now : Timestamp) :
    (recordResult held result (isoformat now) state).Sound := by
  have hstamp : ∀ t, some (isoformat now) = some t → StateStore.isTimestamp t = true := by
    intro t ht
    cases ht
    exact isTimestamp_isoformat now
  unfold recordResult
  split
  · exact h
  · refine ⟨hstamp, fun t ht => ?_, fun t ht => ?_, fun t ht => ?_⟩
    · simp only at ht
      split at ht
      · exact hstamp t ht
      · exact h.lastAppliedAt t ht
    · obtain ⟨data, rfl⟩ := hresult.target t ht
      exact hhex data
    · simp only at ht
      split at ht
      · cases ht
      · rename_i hsource
        cases ht
        obtain ⟨data, hdata⟩ := hresult.source.resolve_left hsource
        rw [hdata]
        exact hhex data

/-! ## Sound runtimes -/

/-- The states are sound, and a patch may need a restart if Home Assistant's data says so. -/
def PatchManagerRuntime.Sound (restart : List Text) (runtime : PatchManagerRuntime) : Prop :=
  ∀ p state, runtime.states.lookup p = some state →
    state.Sound ∧ (state.restartMayBeRequired = true ↔ p ∈ restart)

theorem PatchManagerRuntime.Sound.modify {restart : List Text} {runtime : PatchManagerRuntime}
    (h : runtime.Sound restart) {p : Text} {f : PatchRuntimeState → PatchRuntimeState}
    (hsound : ∀ state : PatchRuntimeState, state.Sound → (f state).Sound)
    (hrestart : ∀ state, (f state).restartMayBeRequired = state.restartMayBeRequired) :
    (runtime.modifyState p f).Sound restart := by
  intro q state hstate
  rw [System.lookup_modifyState] at hstate
  obtain ⟨before, hbefore, rfl⟩ := Option.map_eq_some_iff.mp hstate
  obtain ⟨hstateSound, hiff⟩ := h q before hbefore
  split
  · exact ⟨hsound before hstateSound, by rw [hrestart]; exact hiff⟩
  · exact ⟨hstateSound, hiff⟩

/-- The runtime of a new setup. -/
theorem make_eq {runtime : PatchManagerRuntime} {subentries : Dict Text PatchDefinition}
    {retention : Nat} (h : PatchManagerRuntime.make subentries retention = .ok runtime) :
    runtime.holder = none ∧ runtime.suppressReapply = [] ∧ runtime.definitions = subentries ∧
      runtime.states = Dict.mapValues (fun _ definition =>
        { status := if definition.enabled then .unknown else .disabled }) subentries := by
  unfold PatchManagerRuntime.make at h
  simp only at h
  split at h
  · cases h
  · split at h
    · cases h
    · cases h
      exact ⟨rfl, rfl, rfl, rfl⟩

theorem PatchManagerRuntime.Sound.load {restart : List Text} {runtime : PatchManagerRuntime}
    {subentries : Dict Text PatchDefinition} {retention : Nat}
    (hmake : PatchManagerRuntime.make subentries retention = .ok runtime)
    (data : Option (Dict Text StateStore.Item)) : (runtime.asyncLoad restart data).Sound restart := by
  obtain ⟨-, -, hdefinitions, hstates⟩ := make_eq hmake
  intro p state hstate
  unfold PatchManagerRuntime.asyncLoad StateStore.load at hstate
  simp only [hstates, hdefinitions, Dict.lookup_mapValues, Option.map_map,
    Option.map_eq_some_iff] at hstate
  obtain ⟨definition, hdefinition, rfl⟩ := hstate
  have hfresh : PatchRuntimeState.Sound
      { status := if definition.enabled then .unknown else .disabled } := by
    constructor <;> exact fun _ ht => by cases ht
  have hrestart (state : PatchRuntimeState) :
      (PatchManagerRuntime.loadedState restart p definition state).restartMayBeRequired =
        decide (p ∈ restart) := by
    unfold PatchManagerRuntime.loadedState
    simp only
    split
    · rfl
    · split
      · rfl
      · rfl
  simp only [Function.comp_apply, hdefinition]
  refine ⟨?_, by rw [hrestart, decide_eq_true_eq]⟩
  split
  · exact (hfresh.restore _).loaded
  · exact hfresh.loaded

namespace System

variable {system after : System} {runtime : PatchManagerRuntime}

/-- The runtime is sound, and so is a result that waits to be recorded. -/
structure Sound (env : Env) (system : System) : Prop where
  runtime : ∀ runtime, system.runtime = some runtime → runtime.Sound system.restartRequired
  refreshing : ∀ held result, system.holder = some held → held.phase = .refreshing result →
    Digested env result.sourceSha256 result.targetSha256

theorem sound_of_none (h : system.runtime = none) : system.Sound env := by
  refine ⟨fun runtime hruntime => ?_, fun held result hheld => ?_⟩
  · cases h.symm.trans hruntime
  · unfold holder at hheld
    rw [h] at hheld
    cases hheld

theorem sound_of_runtime (hafter : after.runtime = some runtime)
    (hsound : runtime.Sound after.restartRequired)
    (hrefreshing : ∀ held result, runtime.holder = some held → held.phase = .refreshing result →
      Digested env result.sourceSha256 result.targetSha256) : after.Sound env := by
  refine ⟨fun runtime' hruntime' => ?_, fun held result hheld => ?_⟩
  · cases hafter.symm.trans hruntime'
    exact hsound
  · rw [holder_of_runtime hafter] at hheld
    exact hrefreshing held result hheld

theorem sound_recordAndSave {result : ReconcileResult} (hhex : env.Hex)
    (h : runtime.Sound system.restartRequired)
    (hresult : Digested env result.sourceSha256 result.targetSha256) :
    (system.recordAndSave env runtime held result).Sound env := by
  refine sound_of_runtime rfl (fun p state hstate => ?_) fun held' told hheld hphase => ?_
  · have hstate := (lookup_modifyState ..).symm.trans hstate
    obtain ⟨before, hbefore, rfl⟩ := Option.map_eq_some_iff.mp hstate
    obtain ⟨hsound, hiff⟩ := h p before hbefore
    have hmem (needed : Bool) : p ∈ (if needed then system.restartRequired ++ [held.patchId] else
        system.restartRequired) ↔ p ∈ system.restartRequired ∨ (p = held.patchId ∧ needed = true) := by
      cases needed <;> simp
    have hrequired := hmem (result.mutated && decide (".py".toList <:+ held.definition.targetPath) &&
      !(runtime.states.lookup held.patchId).any (lossReported result))
    unfold recordAndSave
    simp only
    rw [hrequired]
    split
    · rename_i hp
      subst hp
      refine ⟨hsound.record hhex hresult _, ?_⟩
      rw [hbefore, Option.any_some, ← hiff]
      unfold recordResult
      split
      · rename_i hloss
        simp [hloss]
      · rename_i hloss
        simp [Bool.eq_false_iff.mpr hloss]
    · rename_i hp
      exact ⟨hsound, by simp [hp, hiff]⟩
  · cases hheld
    cases hphase

theorem sound_settle {result : ReconcileResult} (hhex : env.Hex)
    (h : runtime.Sound system.restartRequired)
    (hresult : Digested env result.sourceSha256 result.targetSha256) :
    (system.settle env runtime held result).Sound env := by
  unfold settle
  split
  · refine sound_of_runtime rfl h fun held' told hheld hphase => ?_
    cases hheld
    cases hphase
    exact hresult
  · exact sound_recordAndSave hhex h hresult

theorem sound_release (h : runtime.Sound system.restartRequired) :
    (system.release runtime).Sound env :=
  sound_of_runtime rfl h fun _ _ hheld => by cases hheld

theorem Concludes.sound {result : ReconcileResult} {update : Update} (hhex : env.Hex)
    (h : Concludes env system runtime held result update after)
    (hsound : runtime.Sound system.restartRequired)
    (hresult : Digested env result.sourceSha256 result.targetSha256) : after.Sound env := by
  cases h with
  | settled => exact sound_settle hhex hsound hresult
  | raised => exact sound_release hsound
  | disarmed => exact sound_recordAndSave hhex hsound hresult
  | gated => exact sound_recordAndSave hhex hsound hresult

theorem failure_digested {α : Type} {out : Except Exc α} {result : ReconcileResult}
    (h : failure held out = some result) : Digested env result.sourceSha256 result.targetSha256 := by
  obtain ⟨_, error, -, -, rfl⟩ := failure_eq_some h
  unfold failedResult
  split
  exact ⟨Or.inl rfl, fun _ ht => by cases ht⟩

theorem Ends.digested {move : Move} {update : Update} {result : ReconcileResult} {world : World}
    (h : Ends env reconciler system runtime held move update result world) :
    Digested env result.sourceSha256 result.targetSha256 := by
  cases h with
  | checked _ _ hfailed => exact failure_digested hfailed
  | loaded _ hfailed => exact failure_digested hfailed
  | ran _ hrun hreturned =>
    rcases hreturned with rfl | hfailed
    · exact run_digested hrun
    · exact failure_digested hfailed

theorem restartRequired_commitSave {save : Save} {patchId : Text}
    (h : system.commitSave save patchId = some after) :
    after.restartRequired = system.restartRequired := by
  unfold commitSave at h
  cases horiginal : save.original with
  | some original =>
    simp only [horiginal] at h
    split at h <;> cases h <;> rfl
  | none =>
    simp only [horiginal] at h
    split at h <;> cases h
    rfl

/-- Moves beside the runtime leave Home Assistant's data alone. -/
theorem restartRequired_beside {move : Move} (hbeside : move.Beside)
    (hstep : system.step env reconciler move = some after) :
    after.restartRequired = system.restartRequired := by
  unfold step at hstep
  cases move with
  | save =>
    cases hstep
    rfl
  | acquire =>
    obtain ⟨save, -, hstep⟩ := Option.bind_eq_some_iff.mp hstep
    split at hstep <;> cases hstep
    rfl
  | drafted =>
    obtain ⟨save, -, hstep⟩ := Option.bind_eq_some_iff.mp hstep
    split at hstep <;> cases hstep
    rfl
  | abandon =>
    obtain ⟨save, -, hstep⟩ := Option.bind_eq_some_iff.mp hstep
    cases hstep
    rfl
  | commit =>
    obtain ⟨save, -, hstep⟩ := Option.bind_eq_some_iff.mp hstep
    split at hstep
    · cases hstep
    · exact restartRequired_commitSave hstep
  | update =>
    simp only at hstep
    split at hstep <;> cases hstep
    rfl
  | remove =>
    cases hstep
    rfl
  | setRetention =>
    cases hstep
    rfl
  | _ => exact hbeside.elim

theorem Sound.withRuntime {runtime' : PatchManagerRuntime} (h : system.Sound env)
    (hruntime : system.runtime = some runtime) (hafter : after.runtime = some runtime')
    (hsound : runtime'.Sound after.restartRequired) (hholder : runtime'.holder = runtime.holder) :
    after.Sound env := by
  refine sound_of_runtime hafter hsound fun held result hheld => ?_
  rw [hholder] at hheld
  exact h.refreshing held result ((holder_of_runtime hruntime).trans hheld)

theorem sound_step {move : Move} (hhex : env.Hex) (h : system.Sound env)
    (hstep : system.step env reconciler move = some after) : after.Sound env := by
  cases moves hstep with
  | request hruntime =>
    have hsound := h.runtime _ hruntime
    exact h.withRuntime hruntime rfl hsound rfl
  | @began runtime index patchId action hruntime =>
    have hsound := h.runtime _ hruntime
    rcases begin_cases system runtime patchId action (runtime.waiting.eraseIdx index) with
      heq | ⟨held, heq, -, -, hbegun⟩
    · rw [heq]
      exact sound_release hsound
    · rw [heq]
      refine sound_of_runtime rfl hsound fun held' result hheld hphase => ?_
      cases hheld
      rw [hbegun.phase] at hphase
      cases hphase
  | acted hruntime hheld hacts =>
    have hsound := h.runtime _ hruntime
    cases hacts with
    | checked =>
      refine sound_of_runtime rfl hsound fun held' result hheld hphase => ?_
      cases hheld
      cases hphase
    | loaded =>
      refine sound_of_runtime rfl hsound fun held' result hheld hphase => ?_
      cases hheld
      cases hphase
    | concluded hends hconcludes => exact hconcludes.sound hhex hsound hends.digested
    | raised => exact sound_release hsound
    | refreshed hphase => exact sound_recordAndSave hhex hsound (h.refreshing _ _ ((holder_of_runtime hruntime).trans hheld) hphase)
    | unrefreshed => exact sound_release hsound
    | saved => exact sound_release hsound
  | watched hruntime =>
    refine h.withRuntime hruntime rfl ((h.runtime _ hruntime).modify (fun state hstate => ?_)
      fun _ => rfl) rfl
    exact ⟨hstate.lastCheckedAt, hstate.lastAppliedAt, hstate.targetSha256, hstate.patchSha256⟩
  | denied hruntime =>
    refine h.withRuntime hruntime rfl ((h.runtime _ hruntime).modify (fun state hstate => ?_)
      fun _ => rfl) rfl
    exact ⟨hstate.lastCheckedAt, hstate.lastAppliedAt, hstate.targetSha256, hstate.patchSha256⟩
  | closing hruntime =>
    have hsound := h.runtime _ hruntime
    exact h.withRuntime hruntime rfl hsound rfl
  | closed => exact sound_of_none rfl
  | loaded hunloaded hmake =>
    refine sound_of_runtime rfl (PatchManagerRuntime.Sound.load hmake _) fun held result hheld => ?_
    obtain ⟨hnone, -⟩ := make_eq hmake
    cases hnone.symm.trans hheld
  | beside hbeside hruntime =>
    refine ⟨fun runtime hafter => ?_, fun held result hheld => ?_⟩
    · rw [restartRequired_beside hbeside hstep]
      exact h.runtime runtime (hruntime ▸ hafter)
    · rw [holder_congr hruntime] at hheld
      exact h.refreshing held result hheld

/-! ## Close and setup -/

/-- What a reload makes of the state of a patch. -/
structure Restored (definition : PatchDefinition) (stopped : Bool)
    (before after : PatchRuntimeState) : Prop where
  lastCheckedAt : after.lastCheckedAt = before.lastCheckedAt
  lastAppliedAt : after.lastAppliedAt = before.lastAppliedAt
  targetSha256 : after.targetSha256 = before.targetSha256
  patchSha256 : after.patchSha256 =
    if after.lastError = some .sourceHashRequired then none else before.patchSha256
  lastError : after.lastError =
    if before.lastError.any (· ∈ StateStore.gates) then before.lastError
    else if definition.sourceType = "url".toList ∧ definition.sourceSha256 = none then
      some .sourceHashRequired
    else none
  status : after.status =
    if !definition.enabled then .disabled
    else if after.lastError = none then .unknown
    else if after.lastError = some .sourceHashRequired then .sourceError
    else .applyError
  restart : after.restartMayBeRequired = (before.restartMayBeRequired && !stopped)

theorem restored {before : PatchRuntimeState} {definition : PatchDefinition} {restart : List Text}
    {patchId : Text} {stopped : Bool} (hsound : before.Sound)
    (hrestart : decide (patchId ∈ restart) = (before.restartMayBeRequired && !stopped)) :
    Restored definition stopped before
      (PatchManagerRuntime.loadedState restart patchId definition
        (StateStore.restore { status := if definition.enabled then .unknown else .disabled }
          ⟨before.lastCheckedAt, before.lastAppliedAt, before.targetSha256, before.patchSha256,
            before.lastError⟩)) := by
  have hrestored : StateStore.restore
      { status := if definition.enabled then .unknown else .disabled }
      ⟨before.lastCheckedAt, before.lastAppliedAt, before.targetSha256, before.patchSha256,
        before.lastError⟩ =
      { status := if definition.enabled then .unknown else .disabled
        lastCheckedAt := before.lastCheckedAt
        lastAppliedAt := before.lastAppliedAt
        targetSha256 := before.targetSha256
        patchSha256 := before.patchSha256
        lastError := if before.lastError.any (· ∈ StateStore.gates) then before.lastError
          else none } := by
    unfold StateStore.restore
    simp only [checked_same hsound.lastCheckedAt, checked_same hsound.lastAppliedAt,
      checked_same hsound.targetSha256, checked_same hsound.patchSha256]
    cases herror : before.lastError with
    | none => rfl
    | some reason => simp
  rw [hrestored]
  unfold PatchManagerRuntime.loadedState
  simp only [hrestart]
  -- Whether the source is an address without a digest.
  obtain ⟨unpinned, hunpinned⟩ : ∃ unpinned : Bool, unpinned = true ↔
      definition.sourceType = "url".toList ∧ definition.sourceSha256 = none :=
    ⟨decide _, decide_eq_true_iff⟩
  have hne {reason : Reason} (hgate : reason ∈ StateStore.gates) : reason ≠ .sourceHashRequired := by
    rintro rfl
    exact absurd hgate (by decide)
  cases herror : before.lastError with
  | none =>
    constructor <;> simp only [← and_assoc, ← hunpinned, herror] <;> cases unpinned <;>
      cases henabled : definition.enabled <;> simp
  | some reason =>
    by_cases hgate : reason ∈ StateStore.gates
    · constructor <;> simp only [← and_assoc, ← hunpinned, herror] <;> cases unpinned <;>
        cases henabled : definition.enabled <;> simp [hgate, hne hgate]
    · constructor <;> simp only [← and_assoc, ← hunpinned, herror] <;> cases unpinned <;>
        cases henabled : definition.enabled <;> simp [hgate]

/-- While nothing is set up, what is stored stays. -/
theorem unloaded_step {move : Move} (h : system.runtime = none)
    (hstep : system.step env reconciler move = some after) (hmove : ∀ data, move ≠ .setup data) :
    after.runtime = none ∧ after.store = system.store ∧
      after.restartRequired = system.restartRequired := by
  cases moves hstep with
  | request hruntime => cases h.symm.trans hruntime
  | began hruntime => cases h.symm.trans hruntime
  | acted hruntime => cases h.symm.trans hruntime
  | watched hruntime => cases h.symm.trans hruntime
  | denied hruntime => cases h.symm.trans hruntime
  | closing hruntime => cases h.symm.trans hruntime
  | closed hruntime => cases h.symm.trans hruntime
  | loaded => exact absurd rfl (hmove _)
  | beside hbeside hruntime _ hstore =>
    exact ⟨hruntime.trans h, hstore, restartRequired_beside hbeside hstep⟩

/-- The state that a setup makes of what was saved, and whether it suppresses the patch. -/
theorem asyncLoad_save {runtime loaded : PatchManagerRuntime} {subentries : Dict Text PatchDefinition}
    {retention : Nat} {p : Text} {before : PatchRuntimeState} {definition : PatchDefinition}
    (restart : List Text)
    (hmake : PatchManagerRuntime.make subentries retention = .ok loaded)
    (hbefore : runtime.states.lookup p = some before)
    (hdefinition : subentries.lookup p = some definition) :
    (loaded.asyncLoad restart (some (StateStore.save runtime.states))).states.lookup p =
        some (PatchManagerRuntime.loadedState restart p definition
          (StateStore.restore { status := if definition.enabled then .unknown else .disabled }
            ⟨before.lastCheckedAt, before.lastAppliedAt, before.targetSha256, before.patchSha256,
              before.lastError⟩)) ∧
      (p ∈ (loaded.asyncLoad restart (some (StateStore.save runtime.states))).suppressReapply ↔
        before.lastError = some .revertMetadataUnavailable) := by
  obtain ⟨-, hsuppressed, hdefinitions, hstates⟩ := make_eq hmake
  have hloaded : (StateStore.load loaded.states (some (StateStore.save runtime.states))).lookup p =
      some (StateStore.restore { status := if definition.enabled then .unknown else .disabled }
        ⟨before.lastCheckedAt, before.lastAppliedAt, before.targetSha256, before.patchSha256,
          before.lastError⟩) := by
    unfold StateStore.load StateStore.save
    simp only [hstates, Dict.lookup_mapValues, hdefinition, Option.map_some, Option.bind_some, hbefore]
  refine ⟨?_, ?_⟩
  · unfold PatchManagerRuntime.asyncLoad
    simp only [Dict.lookup_mapValues, hloaded, Option.map_some, hdefinitions, hdefinition]
  · unfold PatchManagerRuntime.asyncLoad
    simp only [hsuppressed, List.nil_append, List.mem_filter, hloaded, Option.any_some,
      decide_eq_true_eq]
    rw [← AList.mem_keys, ← AList.lookup_isSome, hloaded]
    unfold StateStore.restore
    cases before.lastError with
    | none => simp
    | some reason =>
      by_cases hgate : reason ∈ StateStore.gates
      · simp [hgate]
      · simp only [hgate, if_false]
        have hne : reason ≠ .revertMetadataUnavailable := by
          rintro rfl
          exact hgate (by decide)
        simp [hne]

theorem closed_eq {stopped : Bool} (h : system.step env reconciler (.close stopped) = some after) :
    ∃ runtime, system.runtime = some runtime ∧
      after.store = some (StateStore.save runtime.states) ∧
      after.restartRequired = (if stopped then [] else system.restartRequired) ∧
      after.runtime = none := by
  obtain ⟨runtime, hruntime, h⟩ := Option.bind_eq_some_iff.mp h
  split at h
  · cases h
  · cases h
    exact ⟨runtime, hruntime, rfl, rfl, rfl⟩

theorem loaded_eq {data : Option (Dict Text StateStore.Item)}
    (h : system.step env reconciler (.setup data) = some after) :
    ∃ runtime, PatchManagerRuntime.make system.subentries system.backupRetention = .ok runtime ∧
      after.runtime = some (runtime.asyncLoad system.restartRequired data) := by
  unfold step at h
  simp only at h
  split at h
  · rename_i runtime _ hmake
    cases h
    exact ⟨runtime, hmake, rfl⟩
  · cases h

/-- In every run from an unloaded entry: what a close has saved is what the next setup restores, with
the times, the digests, the gates and the restarts as they were. -/
theorem reload_restores {moves between : List Move} {opened closed idle reopened : System}
    {stopped : Bool} {p : Text} {before : PatchRuntimeState} {definition : PatchDefinition}
    (hhex : env.Hex) (hsystem : system.runtime = none)
    (hrun : Traces.after (System.step env reconciler) system moves = some opened)
    (hclose : opened.step env reconciler (.close stopped) = some closed)
    (hbetween : Traces.after (System.step env reconciler) closed between = some idle)
    (hunloaded : ∀ move ∈ between, ∀ data, move ≠ .setup data)
    (hsetup : idle.step env reconciler (.setup idle.store) = some reopened)
    (hbefore : opened.state p = some before) (hdefinition : reopened.definition p = some definition) :
    (∃ after, reopened.state p = some after ∧ Restored definition stopped before after) ∧
      (reopened.Suppressed p ↔ before.lastError = some .revertMetadataUnavailable) := by
  have hsound : opened.Sound env := Traces.invariant (P := fun _ _ _ => True)
    (fun _ _ _ h hstep _ => sound_step hhex h hstep) (sound_of_none hsystem)
    (Traces.every_of_forall_mem (R := fun _ => True) fun _ _ => trivial) hrun
  obtain ⟨runtime, hruntime, hsaved, hrestart, hclosed⟩ := closed_eq hclose
  -- Until the setup, what the close has left stays.
  obtain ⟨hidle, hstore, hrequired⟩ := Traces.invariant (P := fun _ move _ => ∀ data, move ≠ .setup data)
    (I := fun s => s.runtime = none ∧ s.store = closed.store ∧
      s.restartRequired = closed.restartRequired)
    (fun s move t h hstep hmove => by
      obtain ⟨hnone, hstore, hrequired⟩ := unloaded_step h.1 hstep hmove
      exact ⟨hnone, hstore.trans h.2.1, hrequired.trans h.2.2⟩) ⟨hclosed, rfl, rfl⟩
    (Traces.every_of_forall_mem hunloaded) hbetween
  rw [state_of_runtime hruntime] at hbefore
  obtain ⟨hstate, hmark⟩ := hsound.runtime runtime hruntime p before hbefore
  obtain ⟨loaded, hmake, hreopened⟩ := loaded_eq hsetup
  obtain ⟨-, -, hdefinitions, -⟩ := make_eq hmake
  have hstored : idle.subentries.lookup p = some definition := by
    rw [← hdefinitions, ← hdefinition, definition_of_runtime hreopened]
    rfl
  obtain ⟨hafter, hsuppressed⟩ :=
    asyncLoad_save idle.restartRequired hmake hbefore hstored
  rw [hstore, hsaved] at hreopened
  refine ⟨⟨_, (state_of_runtime hreopened).trans hafter, restored hstate ?_⟩, ?_⟩
  · rw [hrequired, hrestart]
    cases stopped with
    | true => simp
    | false =>
      rw [Bool.not_false, Bool.and_true, Bool.eq_iff_iff, decide_eq_true_eq]
      exact hmark.symm
  · rw [← hsuppressed]
    constructor
    · rintro ⟨runtime', hruntime', hmem⟩
      cases hreopened.symm.trans hruntime'
      exact hmem
    · exact fun hmem => ⟨_, hreopened, hmem⟩

/-! ## A gate that is reloaded -/

def hexEnv : Env := { steadyEnv with sha256 := fun _ => List.replicate 64 'a' }

theorem hexEnv_hex : hexEnv.Hex := by
  intro data
  change StateStore.isSha256 (List.replicate 64 'a') = true
  decide

/-- What is stored of a patch whose revert could not be persisted. -/
def gatedData : Dict Text StateStore.Item :=
  AList.singleton ['p'] {
    lastCheckedAt := some "2026-01-01T00:00:00+00:00".toList
    targetSha256 := some (List.replicate 64 'b')
    lastError := some .revertMetadataUnavailable }

def gatedMoves : List Move := [.setup (some gatedData), .watchAvailable ['p'] false, .setClosing true]

theorem reload_restores_gated : ∃ opened closed idle reopened before definition,
    Traces.after (step hexEnv (steadyReconciler exchangeHunks)) armedSystem gatedMoves =
      some opened ∧
    opened.step hexEnv (steadyReconciler exchangeHunks) (.close false) = some closed ∧
    Traces.after (step hexEnv (steadyReconciler exchangeHunks)) closed [.setRetention 3] = some idle ∧
    idle.step hexEnv (steadyReconciler exchangeHunks) (.setup idle.store) = some reopened ∧
    opened.state ['p'] = some before ∧ before.lastError = some .revertMetadataUnavailable ∧
    (∃ after, reopened.state ['p'] = some after ∧ Restored definition false before after) ∧
    reopened.Suppressed ['p'] := by
  have hrun : ((Traces.after (step hexEnv (steadyReconciler exchangeHunks)) armedSystem
      gatedMoves).bind fun opened =>
        (opened.step hexEnv (steadyReconciler exchangeHunks) (.close false)).bind fun closed =>
          (Traces.after (step hexEnv (steadyReconciler exchangeHunks)) closed [.setRetention 3]).bind
            fun idle => (idle.step hexEnv (steadyReconciler exchangeHunks) (.setup idle.store)).map
              fun reopened => ((opened.state ['p']).map PatchRuntimeState.lastError,
                (reopened.definition ['p']).isSome)) =
      some (some (some .revertMetadataUnavailable), true) := by decide +kernel
  obtain ⟨opened, hopened, hrun⟩ := Option.bind_eq_some_iff.mp hrun
  obtain ⟨closed, hclosed, hrun⟩ := Option.bind_eq_some_iff.mp hrun
  obtain ⟨idle, hidle, hrun⟩ := Option.bind_eq_some_iff.mp hrun
  obtain ⟨reopened, hreopened, hrun⟩ := Option.map_eq_some_iff.mp hrun
  obtain ⟨hstate, hdefinition⟩ := Prod.mk.inj hrun
  obtain ⟨before, hbefore, herror⟩ := Option.map_eq_some_iff.mp hstate
  obtain ⟨definition, hdefinition⟩ := Option.isSome_iff_exists.mp hdefinition
  obtain ⟨hrestored, hsuppressed⟩ := reload_restores hexEnv_hex rfl hopened hclosed hidle
    (by
      intro move hmove data
      rw [List.mem_singleton] at hmove
      subst hmove
      exact Move.noConfusion) hreopened hbefore hdefinition
  exact ⟨opened, closed, idle, reopened, before, definition, hopened, hclosed, hidle, hreopened,
    hbefore, herror, hrestored, hsuppressed.mpr herror⟩

end System

end Hapatchy
