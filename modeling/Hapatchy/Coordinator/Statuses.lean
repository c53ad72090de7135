import Hapatchy.Coordinator.Reverts
import Hapatchy.Reconciler.Inspected

/-!
# What a state says

A state without an error is that of a patch that nobody has inspected, or it
shows an inspection of the target as it is now: as long as nobody else writes
the targets, and each revert gets to its record.
-/

open Effects Prog

namespace Hapatchy

/-- The path of the target. -/
def PatchDefinition.target (definition : PatchDefinition) : Path := definition.targetPath.splitOn '/'

theorem PatchDefinition.target_inj {d e : PatchDefinition} :
    d.target = e.target ↔ d.targetPath = e.targetPath := by
  constructor
  · intro h
    have hjoin (x : PatchDefinition) : ['/'].intercalate x.target = x.targetPath :=
      List.intercalate_splitOn ..
    rw [← hjoin d, ← hjoin e, h]
  · intro h
    unfold target
    rw [h]

namespace System

variable {env : Env} {reconciler : Reconciler} {system after : System} {held : Held}
  {runtime : PatchManagerRuntime} {patchId : Text}

/-- `state` shows an inspection of the target as it is in `fs`, with the digests of the source and of
the target. -/
structure Accurate (env : Env) (reconciler : Reconciler) (fs : Fs) (definition : PatchDefinition)
    (state : PatchRuntimeState) : Prop where
  external : ¬ Internal definition.target
  inspected : ∃ source parsed data,
    PatchEngine.parse reconciler.fromstring source definition.targetPath = .ok parsed ∧
    fs.bytes definition.target = some data ∧ state.patchSha256.getD [] = env.sha256 source ∧
    state.targetSha256 = some (env.sha256 data) ∧
    state.status = (PatchEngine.inspect parsed data).status

/-- Without an error, the state shows that nobody has inspected the target, or it is accurate. -/
def Truthful (env : Env) (reconciler : Reconciler) (fs : Fs) (definition : PatchDefinition)
    (state : PatchRuntimeState) : Prop :=
  state.lastError = none → state.status = .unknown ∨ state.status = .disabled ∨
    Accurate env reconciler fs definition state

/-! ## What an action leaves -/

/-- The definitions keep their targets, and the action keeps its patch and its definition. -/
structure Follows (runtime : PatchManagerRuntime) (held : Held) (after : System) : Prop where
  targets : ∀ p, (after.definition p).map PatchDefinition.targetPath =
    (runtime.definitions.lookup p).map PatchDefinition.targetPath
  holder : ∀ held', after.holder = some held' → held'.patchId = held.patchId ∧
    held'.definition = held.definition

theorem follows_of_runtime {runtime' : PatchManagerRuntime} (hafter : after.runtime = some runtime')
    (htargets : ∀ p, (runtime'.definitions.lookup p).map PatchDefinition.targetPath =
      (runtime.definitions.lookup p).map PatchDefinition.targetPath)
    (hholder : ∀ held', runtime'.holder = some held' → held'.patchId = held.patchId ∧
      held'.definition = held.definition) : Follows runtime held after := by
  refine ⟨fun p => ?_, fun held' h => hholder held' ?_⟩
  · rw [definition_of_runtime hafter, htargets]
  · rwa [holder_of_runtime hafter] at h

theorem holder_await {phase : Phase} (held' : Held)
    (h : some { held with phase := phase } = some held') :
    held'.patchId = held.patchId ∧ held'.definition = held.definition := by
  cases h
  exact ⟨rfl, rfl⟩

theorem Concludes.follows {result : ReconcileResult} {update : Update}
    (h : Concludes env system runtime held result update after) : Follows runtime held after := by
  cases h with
  | settled =>
    unfold settle
    split
    · exact follows_of_runtime rfl (fun _ => rfl) holder_await
    · exact follows_of_runtime rfl (fun _ => rfl) holder_await
  | raised => exact follows_of_runtime rfl (fun _ => rfl) fun _ h => by cases h
  | @disarmed previous _ _ _ _ hlookup =>
    refine follows_of_runtime rfl (fun p => ?_) holder_await
    by_cases hp : p = held.patchId
    · subst hp
      have hinsert : (runtime.definitions.insert held.patchId previous.disarmed).lookup
          held.patchId = some previous.disarmed := AList.lookup_insert ..
      have hmap := congrArg (Option.map PatchDefinition.targetPath) hinsert
      rw [hlookup]
      exact hmap
    · exact congrArg (Option.map PatchDefinition.targetPath) (AList.lookup_insert_ne hp)
  | gated => exact follows_of_runtime rfl (fun _ => rfl) holder_await

theorem Acts.follows {move : Move} (h : Acts env reconciler system runtime held move after) :
    Follows runtime held after := by
  cases h with
  | checked => exact follows_of_runtime rfl (fun _ => rfl) holder_await
  | loaded => exact follows_of_runtime rfl (fun _ => rfl) holder_await
  | concluded _ hconcludes => exact hconcludes.follows
  | raised => exact follows_of_runtime rfl (fun _ => rfl) fun _ h => by cases h
  | refreshed => exact follows_of_runtime rfl (fun _ => rfl) holder_await
  | unrefreshed => exact follows_of_runtime rfl (fun _ => rfl) fun _ h => by cases h
  | saved => exact follows_of_runtime rfl (fun _ => rfl) fun _ h => by cases h

/-- The states after an action: those before it, or with `result` recorded for its patch. -/
def Notes (runtime : PatchManagerRuntime) (held : Held) (result : ReconcileResult) (after : System) :
    Prop :=
  ∃ checkedAt, ∀ p, after.state p = (runtime.states.lookup p).map fun state =>
    if p = held.patchId then recordResult held result checkedAt state else state

theorem notes_recordAndSave {base : System} {runtime' : PatchManagerRuntime}
    (hstates : runtime'.states = runtime.states) (result : ReconcileResult) :
    Notes runtime held result (base.recordAndSave env runtime' held result) := by
  refine ⟨isoformat (env.now base.world.step), fun p => ?_⟩
  rw [← hstates]
  exact Dict.lookup_mapValues ..

theorem Concludes.notes {result : ReconcileResult} {update : Update}
    (h : Concludes env system runtime held result update after) :
    Notes runtime held result after ∨ Notes runtime held (unavailableResult result) after ∨
      ((∀ p, after.state p = runtime.states.lookup p) ∧ (haDenied result = true ∨
        held.action = .revert ∧ (update = .raised ∨ held.patchId ∉ system.subentries ∨
          runtime.definitions.lookup held.patchId = none))) := by
  cases h with
  | settled =>
    unfold settle
    split
    · rename_i hdenied
      exact Or.inr (Or.inr ⟨fun _ => rfl, Or.inl hdenied⟩)
    · exact Or.inl (notes_recordAndSave rfl result)
  | raised hrevert _ hlost => exact Or.inr (Or.inr ⟨fun _ => rfl, Or.inr ⟨hrevert, hlost⟩⟩)
  | disarmed => exact Or.inl (notes_recordAndSave rfl result)
  | gated => exact Or.inr (Or.inl (notes_recordAndSave rfl _))

/-! ## What a result is worth -/

/-- What the world and the result of an action are worth: other targets stay, a result without a
reason is an inspection of the target, and the target stays if Home Assistant does not permit it. -/
structure Conveys (env : Env) (reconciler : Reconciler) (definition : PatchDefinition)
    (w world : World) (result : ReconcileResult) : Prop where
  beside : ∀ p, env.Leaves p → ¬ Internal p → p ≠ definition.target →
    world.fs.bytes p = w.fs.bytes p
  shows : result.inspection.reason = none → ¬ Internal definition.target ∧
    ∃ job : Job, job.definition = definition ∧ Shows env reconciler job world.fs result
  denied : haDenied result = true → ¬ Internal definition.target →
    world.fs.bytes definition.target = w.fs.bytes definition.target

theorem Conveys.unavailable {definition : PatchDefinition} {w world : World}
    {result : ReconcileResult} (h : Conveys env reconciler definition w world result) :
    Conveys env reconciler definition w world (unavailableResult result) := by
  refine ⟨h.beside, fun hreason => ?_, fun hdenied => ?_⟩
  · cases hreason
  · cases hdenied

/-- A result with a reason, after steps that only look. -/
theorem conveys_of_looks {definition : PatchDefinition} {w world : World} {result : ReconcileResult}
    (hsteps : Steps env Looks w world) (hleaves : env.Leaves definition.target)
    (hreason : result.inspection.reason ≠ none) :
    Conveys env reconciler definition w world result :=
  ⟨fun _ hp _ _ => hsteps.looks_bytes hp.spares, fun h => absurd h hreason,
    fun _ _ => hsteps.looks_bytes hleaves.spares⟩

theorem failedResult_reason (pending : Bool) (error : PatchError) :
    (failedResult pending error).inspection.reason ≠ none := by
  unfold failedResult
  split
  exact Option.some_ne_none _

theorem failure_reason {α : Type} {out : Except Exc α} {result : ReconcileResult}
    (h : failure held out = some result) : result.inspection.reason ≠ none := by
  obtain ⟨_, error, -, -, rfl⟩ := failure_eq_some h
  exact failedResult_reason held.pending error

theorem Ends.conveys {move : Move} {update : Update} {result : ReconcileResult} {world : World}
    (h : Ends env reconciler system runtime held move update result world)
    (henabled : held.definition.enabled = true) (hleaves : env.Leaves held.definition.target) :
    Conveys env reconciler held.definition system.world world result := by
  have hchecks : Does env Looks (reconciler.policy.checkDefinition env held.definition) :=
    PathPolicy.does_checkDefinition.mono fun _ => PathPolicy.Checks.looks
  cases h with
  | checked _ hcheck hfailed =>
    exact conveys_of_looks (hchecks.of_eq hcheck) hleaves (failure_reason hfailed)
  | loaded _ hfailed => exact conveys_of_looks .refl hleaves (failure_reason hfailed)
  | ran _ hrun hreturned =>
    rename_i source out
    have hbeside (p : Path) (hp : env.Leaves p) (hexternal : ¬ Internal p)
        (hne : p ≠ held.definition.target) : world.fs.bytes p = system.world.fs.bytes p :=
      run_beside hrun hp hexternal hne
    have hkept (hnone : ∃ new, world.log = system.world.log ++ new ∧ replacements new = [])
        (hexternal : ¬ Internal held.definition.target) :
        world.fs.bytes held.definition.target = system.world.fs.bytes held.definition.target := by
      obtain ⟨new, hlog, hsame, -⟩ :=
        Steps.target_bytes (does_writes.of_eq hrun) hleaves hexternal
      obtain ⟨new', hlog', hnone⟩ := hnone
      obtain rfl := List.append_cancel_left (hlog.symm.trans hlog')
      exact hsame hnone
    rcases hreturned with rfl | hfailed
    · rcases run_shows henabled hleaves hrun with ⟨hexternal, hshows⟩ | ⟨hreason, hdenied⟩
      · refine ⟨hbeside, fun _ => ⟨hexternal, _, rfl, hshows⟩, fun hhaDenied _ => ?_⟩
        obtain ⟨-, parsed, data, -, -, -, hinspection⟩ := hshows
        unfold haDenied at hhaDenied
        rw [hinspection, Bool.and_eq_true, decide_eq_true_eq] at hhaDenied
        exact absurd hhaDenied.1 (inspect_status parsed data)
      · refine ⟨hbeside, fun h => absurd h hreason, fun hhaDenied => hkept (hdenied ?_)⟩
        unfold haDenied at hhaDenied
        rw [Bool.and_eq_true, decide_eq_true_eq, decide_eq_true_eq] at hhaDenied
        exact hhaDenied.2
    · obtain ⟨_, _, rfl, -⟩ := failure_eq_some hfailed
      exact ⟨hbeside, fun h => absurd h (failure_reason hfailed), fun _ => hkept (run_unreplaced hrun)⟩

theorem Truthful.congr {fs fs' : Fs} {d d' : PatchDefinition} {state : PatchRuntimeState}
    (h : Truthful env reconciler fs d state) (htarget : d'.targetPath = d.targetPath)
    (hbytes : ¬ Internal d.target → fs'.bytes d.target = fs.bytes d.target) :
    Truthful env reconciler fs' d' state := by
  have hpath : d'.target = d.target := PatchDefinition.target_inj.mpr htarget
  intro herror
  refine (h herror).imp_right (Or.imp_right fun haccurate => ?_)
  obtain ⟨hexternal, source, parsed, data, hparsed, hdata, hrest⟩ := haccurate
  refine ⟨hpath ▸ hexternal, source, parsed, data, htarget ▸ hparsed, ?_, hrest⟩
  rw [hpath, hbytes hexternal, hdata]

/-- A result that is recorded keeps the state of its patch truthful. -/
theorem Truthful.record {w world : World} {d d' : PatchDefinition} {state : PatchRuntimeState}
    {result : ReconcileResult} {checkedAt : Text} (h : Truthful env reconciler w.fs d state)
    (htarget : d.targetPath = held.definition.targetPath) (htarget' : d'.targetPath = d.targetPath)
    (hconveys : Conveys env reconciler held.definition w world result) :
    Truthful env reconciler world.fs d' (recordResult held result checkedAt state) := by
  have hpath : d.target = held.definition.target := PatchDefinition.target_inj.mpr htarget
  unfold recordResult
  split
  · rename_i hloss
    unfold lossReported at hloss
    rw [Bool.and_eq_true, Bool.and_eq_true] at hloss
    refine h.congr htarget' fun hexternal => ?_
    rw [hpath] at hexternal ⊢
    exact hconveys.denied hloss.1.1 hexternal
  · intro herror
    simp only at herror
    split at herror
    · cases herror
    obtain ⟨hexternal, job, hjob, hsource, parsed, data, hparsed, hbytes, hdigest, hinspection⟩ :=
      hconveys.shows herror
    have hpath' : d'.target = held.definition.target :=
      PatchDefinition.target_inj.mpr (htarget'.trans htarget)
    refine Or.inr (Or.inr ⟨hpath' ▸ hexternal, job.source, parsed, data, ?_, ?_, ?_, hdigest, ?_⟩)
    · rw [htarget', htarget, ← hjob]
      exact hparsed
    · rw [hpath', ← hbytes, ← hjob]
      rfl
    · simp only
      split
      · rename_i hnil
        rw [← hsource, hnil]
        rfl
      · exact hsource
    · simp only [hinspection]

/-! ## Runs -/

/-- Nobody else writes a target that a setup finds, and each revert gets to its record. -/
def Sheltered (env : Env) (system : System) (move : Move) (_after : System) : Prop :=
  match move with
  | .setup _ => ∀ p d, system.stored p = some d → env.Leaves d.target
  | .ran update => ∀ held, system.holder = some held → held.action = .revert →
      update ≠ .raised ∧ held.patchId ∈ system.subentries
  | _ => True

/-- The states are truthful, no two patches of the runtime have one target, and the action that holds
the lock has the target of its patch. -/
structure Observed (env : Env) (reconciler : Reconciler) (system : System) : Prop where
  leaves : ∀ p d, system.definition p = some d → env.Leaves d.target
  unique : ∀ p q d e, system.definition p = some d → system.definition q = some e →
    d.targetPath = e.targetPath → p = q
  enabled : ∀ held, system.holder = some held → held.definition.enabled = true
  target : ∀ held, system.holder = some held →
    (system.definition held.patchId).map PatchDefinition.targetPath =
      some held.definition.targetPath
  refused : ∀ held result, system.holder = some held → held.phase = .refreshing result →
    result.inspection.reason ≠ none
  truthful : ∀ p d state, system.definition p = some d → system.state p = some state →
    Truthful env reconciler system.world.fs d state

theorem observed_of_none (h : system.runtime = none) : Observed env reconciler system := by
  have hdefinition (p : Text) : system.definition p = none := by
    unfold definition
    rw [h]
    rfl
  have hholder : system.holder = none := by
    unfold holder
    rw [h]
    rfl
  refine ⟨fun p d hd => ?_, fun p q d e hd => ?_, fun held hheld => ?_, fun held hheld => ?_,
    fun held result hheld => ?_, fun p d state hd => ?_⟩
  · cases (hdefinition p).symm.trans hd
  · cases (hdefinition p).symm.trans hd
  · cases hholder.symm.trans hheld
  · cases hholder.symm.trans hheld
  · cases hholder.symm.trans hheld
  · cases (hdefinition p).symm.trans hd

/-- The definitions and the holder stay, and so do the states and the files. -/
theorem Observed.congr (h : Observed env reconciler system) (hruntime : after.runtime = system.runtime)
    (hworld : after.world = system.world) : Observed env reconciler after := by
  have hdefinition := definition_congr hruntime
  have hholder := holder_congr hruntime
  have hstate (p : Text) : after.state p = system.state p := by
    unfold state
    rw [hruntime]
  refine ⟨?_, ?_, ?_, ?_, ?_, ?_⟩
  · rw [hdefinition]
    exact h.leaves
  · rw [hdefinition]
    exact h.unique
  · rw [hholder]
    exact h.enabled
  · rw [hholder, hdefinition]
    exact h.target
  · rw [hholder]
    exact h.refused
  · intro p d state
    rw [hdefinition, hstate, hworld]
    exact h.truthful p d state

theorem Follows.definition (h : Follows runtime held after) {p : Text} {d : PatchDefinition}
    (hd : after.definition p = some d) :
    ∃ d', runtime.definitions.lookup p = some d' ∧ d'.targetPath = d.targetPath := by
  have htarget := h.targets p
  rw [hd, Option.map_some, eq_comm, Option.map_eq_some_iff] at htarget
  exact htarget

/-- An action keeps what is observed, if it keeps the states truthful. -/
theorem Observed.follows (h : Observed env reconciler system)
    (hruntime : system.runtime = some runtime) (hheld : runtime.holder = some held)
    (hfollows : Follows runtime held after)
    (hrefused : ∀ held' result, after.holder = some held' → held'.phase = .refreshing result →
      result.inspection.reason ≠ none)
    (htruthful : ∀ p d d' state, after.definition p = some d →
      runtime.definitions.lookup p = some d' → d'.targetPath = d.targetPath →
      after.state p = some state → Truthful env reconciler after.world.fs d state) :
    Observed env reconciler after := by
  have hdefinition (p : Text) : system.definition p = runtime.definitions.lookup p :=
    congrFun (definition_of_runtime hruntime) p
  have hholder : system.holder = some held := (holder_of_runtime hruntime).trans hheld
  refine ⟨fun p d hd => ?_, fun p q d e hd he htarget => ?_, fun held' hheld' => ?_,
    fun held' hheld' => ?_, hrefused, fun p d state hd hstate => ?_⟩
  · obtain ⟨d', hd', hsame⟩ := hfollows.definition hd
    rw [← PatchDefinition.target_inj.mpr hsame]
    exact h.leaves p d' ((hdefinition p).trans hd')
  · obtain ⟨d', hd', hsame⟩ := hfollows.definition hd
    obtain ⟨e', he', hsame'⟩ := hfollows.definition he
    refine h.unique p q d' e' ((hdefinition p).trans hd') ((hdefinition q).trans he') ?_
    rw [hsame, hsame', htarget]
  · rw [(hfollows.holder held' hheld').2]
    exact h.enabled held hholder
  · rw [(hfollows.holder held' hheld').1, (hfollows.holder held' hheld').2, hfollows.targets,
      ← h.target held hholder, hdefinition]
  · obtain ⟨d', hd', hsame⟩ := hfollows.definition hd
    exact htruthful p d d' state hd hd' hsame hstate

theorem Concludes.refused {result : ReconcileResult} {update : Update}
    (h : Concludes env system runtime held result update after) (held' : Held)
    (result' : ReconcileResult) (hheld : after.holder = some held')
    (hphase : held'.phase = .refreshing result') : result'.inspection.reason ≠ none := by
  cases h with
  | settled =>
    unfold settle at hheld
    split at hheld
    · rename_i hdenied
      cases hheld
      cases hphase
      unfold haDenied at hdenied
      rw [Bool.and_eq_true, decide_eq_true_eq, decide_eq_true_eq] at hdenied
      rw [hdenied.2]
      exact Option.some_ne_none _
    · cases hheld
      cases hphase
  | raised => cases hheld
  | disarmed =>
    cases hheld
    cases hphase
  | gated =>
    cases hheld
    cases hphase

theorem Observed.acted {move : Move} (h : Observed env reconciler system)
    (hruntime : system.runtime = some runtime) (hheld : runtime.holder = some held)
    (hacts : Acts env reconciler system runtime held move after)
    (hsheltered : Sheltered env system move after) : Observed env reconciler after := by
  have hdefinition (p : Text) : system.definition p = runtime.definitions.lookup p :=
    congrFun (definition_of_runtime hruntime) p
  have hstate (p : Text) : system.state p = runtime.states.lookup p := state_of_runtime hruntime
  have hholder : system.holder = some held := (holder_of_runtime hruntime).trans hheld
  have hleaves : env.Leaves held.definition.target := by
    obtain ⟨d, hd, htarget⟩ := Option.map_eq_some_iff.mp (h.target held hholder)
    rw [← PatchDefinition.target_inj.mpr htarget]
    exact h.leaves held.patchId d hd
  have hbefore {p : Text} {d' : PatchDefinition} {state : PatchRuntimeState}
      (hd' : runtime.definitions.lookup p = some d') (hs : runtime.states.lookup p = some state) :
      Truthful env reconciler system.world.fs d' state :=
    h.truthful p d' state ((hdefinition p).trans hd') ((hstate p).trans hs)
  -- The states stay, and so do the targets.
  have hsame {next : System} (hfollows : Follows runtime held next)
      (hrefused : ∀ held' result, next.holder = some held' → held'.phase = .refreshing result →
        result.inspection.reason ≠ none)
      (hstates : ∀ p, next.state p = runtime.states.lookup p)
      (hbytes : ∀ p, env.Leaves p → ¬ Internal p → next.world.fs.bytes p = system.world.fs.bytes p) :
      Observed env reconciler next := by
    refine h.follows hruntime hheld hfollows hrefused fun p d d' state _ hd' htarget hs => ?_
    rw [hstates] at hs
    refine (hbefore hd' hs).congr htarget.symm fun hexternal => hbytes _ ?_ hexternal
    exact h.leaves p d' ((hdefinition p).trans hd')
  -- A result is recorded for the patch of the action.
  have hrecorded {next : System} {result : ReconcileResult} {world : World}
      (hfollows : Follows runtime held next)
      (hrefused : ∀ held' result, next.holder = some held' → held'.phase = .refreshing result →
        result.inspection.reason ≠ none)
      (hworld : next.world = world)
      (hconveys : Conveys env reconciler held.definition system.world world result)
      (hnotes : Notes runtime held result next) : Observed env reconciler next := by
    refine h.follows hruntime hheld hfollows hrefused fun p d d' state hd hd' htarget hs => ?_
    obtain ⟨checkedAt, hstates⟩ := hnotes
    rw [hstates, Option.map_eq_some_iff] at hs
    obtain ⟨state', hs', rfl⟩ := hs
    have htruthful := hbefore hd' hs'
    have hheldTarget := h.target held hholder
    rw [hworld]
    by_cases hp : p = held.patchId
    · subst hp
      rw [if_pos rfl]
      rw [hdefinition, hd', Option.map_some, Option.some_inj] at hheldTarget
      exact htruthful.record hheldTarget htarget.symm hconveys
    · rw [if_neg hp]
      refine htruthful.congr htarget.symm fun hexternal => hconveys.beside _ ?_ hexternal ?_
      · exact h.leaves p d' ((hdefinition p).trans hd')
      · intro hpath
        obtain ⟨e, he, hetarget⟩ := Option.map_eq_some_iff.mp hheldTarget
        refine hp (h.unique p held.patchId d' e ((hdefinition p).trans hd') he ?_)
        rw [PatchDefinition.target_inj.mp hpath, hetarget]
  have hfollows := hacts.follows
  have hlooks {world : World} (hsteps : Steps env Looks system.world world) (p : Path)
      (hp : env.Leaves p) (_ : ¬ Internal p) : world.fs.bytes p = system.world.fs.bytes p :=
    hsteps.looks_bytes hp.spares
  have hchecks : Does env Looks (reconciler.policy.checkDefinition env held.definition) :=
    PathPolicy.does_checkDefinition.mono fun _ => PathPolicy.Checks.looks
  cases hacts with
  | checked hphase hcheck =>
    refine hsame hfollows (fun held' result hh hp => ?_) (fun _ => rfl) (hlooks (hchecks.of_eq hcheck))
    cases hh
    cases hp
  | loaded =>
    refine hsame hfollows (fun held' result hh hp => ?_) (fun _ => rfl) fun _ _ _ => rfl
    cases hh
    cases hp
  | concluded hends hconcludes =>
    have hconveys := hends.conveys (h.enabled held hholder) hleaves
    rcases hconcludes.notes with hnotes | hnotes | ⟨hstates, hlost⟩
    · exact hrecorded hfollows hconcludes.refused hconcludes.world hconveys hnotes
    · exact hrecorded hfollows hconcludes.refused hconcludes.world hconveys.unavailable hnotes
    · refine hsame hfollows hconcludes.refused hstates fun p hp hexternal => ?_
      rw [hconcludes.world]
      by_cases hpath : p = held.definition.target
      · subst hpath
        rcases hlost with hdenied | ⟨hrevert, hlost⟩
        · exact hconveys.denied hdenied hexternal
        · cases hends with
          | checked _ hcheck => exact hlooks (hchecks.of_eq hcheck) _ hp hexternal
          | loaded => rfl
          | ran =>
            obtain ⟨hupdate, hpresent⟩ := hsheltered held hholder hrevert
            rcases hlost with hraised | habsent | hunknown
            · exact absurd hraised hupdate
            · exact absurd hpresent habsent
            · have htarget := h.target held hholder
              rw [hdefinition, hunknown] at htarget
              cases htarget
      · exact hconveys.beside p hp hexternal hpath
  | raised hbreaks =>
    refine hsame hfollows (fun held' result hh => by cases hh) (fun _ => rfl) fun p hp hexternal => ?_
    cases hbreaks with
    | checked _ hcheck => exact hlooks (hchecks.of_eq hcheck) p hp hexternal
    | loaded => rfl
    | ran _ hrun =>
      by_cases hpath : p = held.definition.target
      · subst hpath
        obtain ⟨new, hlog, hkept, -⟩ := Steps.target_bytes (does_writes.of_eq hrun) hp hexternal
        obtain ⟨new', hlog', hnone⟩ := run_unreplaced hrun
        obtain rfl := List.append_cancel_left (hlog.symm.trans hlog')
        exact hkept hnone
      · exact run_beside hrun hp hexternal hpath
  | @refreshed result hphase =>
    have hreason := h.refused held result hholder hphase
    exact hrecorded hfollows (fun held' result' hh hp => by
      cases hh
      cases hp) rfl (conveys_of_looks .refl hleaves hreason) (notes_recordAndSave rfl result)
  | unrefreshed =>
    exact hsame hfollows (fun held' result hh => by cases hh) (fun _ => rfl) fun _ _ _ => rfl
  | saved =>
    exact hsame hfollows (fun held' result hh => by cases hh) (fun _ => rfl) fun _ _ _ => rfl

/-- The definitions stay, and what each state says is still so. -/
theorem Observed.withRuntime {runtime' : PatchManagerRuntime} (h : Observed env reconciler system)
    (hruntime : system.runtime = some runtime) (hafter : after.runtime = some runtime')
    (hworld : after.world = system.world) (hdefinitions : runtime'.definitions = runtime.definitions)
    (hholder : ∀ held, runtime'.holder = some held → held.definition.enabled = true ∧
      (runtime.definitions.lookup held.patchId).map PatchDefinition.targetPath =
        some held.definition.targetPath ∧
      ∀ result, held.phase = .refreshing result → result.inspection.reason ≠ none)
    (hstates : ∀ p state', runtime'.states.lookup p = some state' →
      ∃ state, runtime.states.lookup p = some state ∧ ∀ d,
        Truthful env reconciler system.world.fs d state →
          Truthful env reconciler system.world.fs d state') :
    Observed env reconciler after := by
  have hdefinition (p : Text) : after.definition p = system.definition p := by
    rw [definition_of_runtime hruntime, definition_of_runtime hafter, hdefinitions]
  refine ⟨fun p d hd => ?_, fun p q d e hd he => ?_, fun held hheld => ?_, fun held hheld => ?_,
    fun held result hheld hphase => ?_, fun p d state' hd hs => ?_⟩
  · exact h.leaves p d (hdefinition p ▸ hd)
  · exact h.unique p q d e (hdefinition p ▸ hd) (hdefinition q ▸ he)
  · rw [holder_of_runtime hafter] at hheld
    exact (hholder held hheld).1
  · rw [holder_of_runtime hafter] at hheld
    rw [hdefinition, definition_of_runtime hruntime]
    exact (hholder held hheld).2.1
  · rw [holder_of_runtime hafter] at hheld
    exact (hholder held hheld).2.2 result hphase
  · rw [state_of_runtime hafter] at hs
    obtain ⟨state, hstate, htruthful⟩ := hstates p state' hs
    rw [hworld]
    exact htruthful d (h.truthful p d state (hdefinition p ▸ hd)
      ((state_of_runtime hruntime).trans hstate))

theorem Observed.holder_kept (h : Observed env reconciler system)
    (hruntime : system.runtime = some runtime) (held : Held) (hheld : runtime.holder = some held) :
    held.definition.enabled = true ∧
      (runtime.definitions.lookup held.patchId).map PatchDefinition.targetPath =
        some held.definition.targetPath ∧
      ∀ result, held.phase = .refreshing result → result.inspection.reason ≠ none := by
  have hholder : system.holder = some held := (holder_of_runtime hruntime).trans hheld
  refine ⟨h.enabled held hholder, ?_, fun result => h.refused held result hholder⟩
  have htarget := h.target held hholder
  rwa [definition_of_runtime hruntime] at htarget

/-- Nobody has inspected the patch since its setup. -/
def Fresh (state : PatchRuntimeState) : Prop := state.status = .unknown ∨ state.status = .disabled

theorem loadedState_status {restart : List Text} {definition : PatchDefinition}
    {state : PatchRuntimeState} (h : Fresh state)
    (herror : (PatchManagerRuntime.loadedState restart patchId definition state).lastError = none) :
    Fresh (PatchManagerRuntime.loadedState restart patchId definition state) := by
  unfold PatchManagerRuntime.loadedState at herror ⊢
  simp only at herror ⊢
  split at herror
  · cases herror
  · rename_i hhash
    rw [if_neg hhash]
    split at herror
    · rename_i hgated
      have hnone : state.lastError = none := herror
      rw [hnone] at hgated
      cases hgated
    · rename_i hgated
      rw [if_neg hgated]
      exact h

/-- A state that is restored has an error, or nobody has inspected its patch since. -/
theorem truthful_asyncLoad {subentries : Dict Text PatchDefinition} {retention : Nat}
    {restart : List Text} {data : Option (Dict Text StateStore.Item)} {state : PatchRuntimeState}
    {fs : Fs} {definition : PatchDefinition}
    (hmake : PatchManagerRuntime.make subentries retention = .ok runtime)
    (hstate : (runtime.asyncLoad restart data).states.lookup patchId = some state) :
    Truthful env reconciler fs definition state := by
  have hfresh (state : PatchRuntimeState) (h : runtime.states.lookup patchId = some state) :
      Fresh state := by
    unfold PatchManagerRuntime.make at hmake
    simp only at hmake
    split at hmake
    · cases hmake
    · split at hmake
      · cases hmake
      · cases hmake
        rw [Dict.lookup_mapValues] at h
        obtain ⟨definition, -, rfl⟩ := Option.map_eq_some_iff.mp h
        unfold Fresh
        simp only
        split
        · exact Or.inl rfl
        · exact Or.inr rfl
  intro herror
  suffices hfreshly : Fresh state from hfreshly.imp_right Or.inl
  unfold PatchManagerRuntime.asyncLoad StateStore.load at hstate
  simp only [Dict.lookup_mapValues, Option.map_map] at hstate
  obtain ⟨before, hbefore, rfl⟩ := Option.map_eq_some_iff.mp hstate
  have hbefore := hfresh before hbefore
  simp only [Function.comp_apply] at herror ⊢
  have hrestored : ∀ item, Fresh (StateStore.restore before item) := fun _ => hbefore
  split at herror
  · rename_i definition hdefinition
    refine loadedState_status ?_ herror
    split
    · exact hrestored _
    · exact hbefore
  · split
    · exact hrestored _
    · exact hbefore

theorem observed_loaded {data : Option (Dict Text StateStore.Item)} {generation : Nat}
    (hmake : PatchManagerRuntime.make system.subentries system.backupRetention = .ok runtime)
    (hleaves : ∀ p d, system.stored p = some d → env.Leaves d.target) :
    Observed env reconciler { system with
      runtime := some (runtime.asyncLoad system.restartRequired data), generation := generation } := by
  obtain ⟨hdefinitions, hnobody, -⟩ := make_ok hmake
  have hstored (p : Text) : ({ system with
      runtime := some (runtime.asyncLoad system.restartRequired data), generation := generation } :
        System).definition p = system.stored p := by
    rw [definition_of_runtime rfl]
    exact congrArg (AList.lookup p) hdefinitions
  have hholder : ({ system with
      runtime := some (runtime.asyncLoad system.restartRequired data), generation := generation } :
        System).holder = none := hnobody
  have hnodup : (system.subentries.entries.map fun entry => entry.2.targetPath).Nodup := by
    unfold PatchManagerRuntime.make at hmake
    simp only at hmake
    split at hmake
    · cases hmake
    · rename_i h
      exact not_not.mp h
  refine ⟨fun p d hd => ?_, fun p q d e hd he htarget => ?_, fun held hheld => ?_,
    fun held hheld => ?_, fun held result hheld => ?_, fun p d state _ hs => ?_⟩
  · exact hleaves p d (hstored p ▸ hd)
  · rw [hstored] at hd he
    have hsame := List.inj_on_of_nodup_map hnodup (AList.mem_lookup_iff.mp hd)
      (AList.mem_lookup_iff.mp he) htarget
    exact (Sigma.mk.inj hsame).1
  · cases hholder.symm.trans hheld
  · cases hholder.symm.trans hheld
  · cases hholder.symm.trans hheld
  · exact truthful_asyncLoad hmake hs

theorem Observed.step {move : Move} (h : Observed env reconciler system)
    (hstep : system.step env reconciler move = some after)
    (hsheltered : Sheltered env system move after) : Observed env reconciler after := by
  cases moves hstep with
  | request hruntime =>
    refine h.withRuntime hruntime rfl rfl rfl ?_ fun _ state hs => ⟨state, hs, fun _ => id⟩
    exact fun held hheld => h.holder_kept hruntime held hheld
  | @began runtime index patchId action hruntime =>
    rcases begin_cases system runtime patchId action (runtime.waiting.eraseIdx index) with
      heq | ⟨held, heq, -, -, hbegun⟩
    · rw [heq]
      exact h.withRuntime hruntime rfl rfl rfl (fun held hheld => by cases hheld) fun _ state hs =>
        ⟨state, hs, fun _ => id⟩
    · rw [heq]
      refine h.withRuntime hruntime rfl rfl rfl (fun held' hheld => ?_) fun _ state hs =>
        ⟨state, hs, fun _ => id⟩
      cases hheld
      refine ⟨hbegun.enabled, ?_, fun result hphase => ?_⟩
      · rw [hbegun.definition, Option.map_some]
      · cases hbegun.phase.symm.trans hphase
  | acted hruntime hheld hacts => exact h.acted hruntime hheld hacts hsheltered
  | @watched runtime patchId available hruntime =>
    refine h.withRuntime hruntime rfl rfl rfl (fun held => h.holder_kept hruntime held)
      fun p state' hs => ?_
    obtain ⟨state, hstate, rfl⟩ := Option.map_eq_some_iff.mp ((lookup_modifyState ..).symm.trans hs)
    refine ⟨state, hstate, fun d htruthful => ?_⟩
    split
    · intro herror
      refine (htruthful herror).imp_right (Or.imp_right fun haccurate => ?_)
      exact ⟨haccurate.external, haccurate.inspected⟩
    · exact htruthful
  | @denied runtime patchId reason hruntime =>
    refine h.withRuntime hruntime rfl rfl rfl (fun held => h.holder_kept hruntime held)
      fun p state' hs => ?_
    obtain ⟨state, hstate, rfl⟩ := Option.map_eq_some_iff.mp ((lookup_modifyState ..).symm.trans hs)
    refine ⟨state, hstate, fun d htruthful => ?_⟩
    split
    · intro herror
      simp only at herror
      split at herror
      · cases herror
      · rename_i hdurability
        rw [not_not.mp hdurability] at herror
        cases herror
    · exact htruthful
  | closing hruntime =>
    refine h.withRuntime hruntime rfl rfl rfl ?_ fun _ state hs => ⟨state, hs, fun _ => id⟩
    exact fun held hheld => h.holder_kept hruntime held hheld
  | closed => exact observed_of_none rfl
  | loaded _ hmake => exact observed_loaded hmake hsheltered
  | beside _ hruntime hworld => exact h.congr hruntime hworld

theorem steady_leaves : steadyEnv.Leaves armedDefinition.target := by
  refine ⟨Env.Calm.spares fun _ => rfl, fun n h => ?_⟩
  have hne : armedDefinition.target.getLast? ≠ some (tempName steadyHex) := by decide +kernel
  exact hne h

/-- A revert that cannot be persisted, and a refresh of its patch up to its end. -/
def refreshMoves : List Move :=
  revertMoves ++ .ran .failed :: .saved true :: actionMoves .refreshSource

theorem sheltered_refreshed : Traces.Every (step steadyEnv (steadyReconciler exchangeHunks))
    (Sheltered steadyEnv) armedSystem (refreshMoves ++ [.ran .done]) := by
  have hreverting : (armedRun revertMoves).map (fun system =>
      (system.holder.map Held.patchId, decide (['p'] ∈ system.subentries))) =
        some (some ['p'], true) := by decide +kernel
  have hrefreshing : (armedRun refreshMoves).map (fun system => system.holder.map Held.action) =
      some (some .refreshSource) := by decide +kernel
  refine Traces.every_append.mpr ⟨Traces.every_append.mpr ⟨?_, fun system hsystem => ?_⟩,
    fun system hsystem => ?_⟩
  · refine fun _ _ => ⟨fun p d hd => ?_, fun _ _ => ⟨trivial, fun _ _ => ⟨trivial, fun _ _ =>
      ⟨trivial, fun _ _ => ⟨trivial, trivial⟩⟩⟩⟩⟩
    have hmem : p ∈ armedSystem.subentries := AList.lookup_isSome.mp (Option.isSome_of_eq_some hd)
    obtain rfl : p = ['p'] := List.mem_singleton.mp hmem
    obtain rfl : armedDefinition = d := Option.some_inj.mp hd
    exact steady_leaves
  · rw [show armedRun revertMoves = some system from hsystem, Option.map_some, Option.some_inj,
      Prod.mk.injEq, decide_eq_true_eq] at hreverting
    refine fun _ _ => ⟨fun held hheld _ => ⟨Update.noConfusion, ?_⟩, fun _ _ => ⟨trivial, fun _ _ =>
      ⟨trivial, fun _ _ => ⟨trivial, fun _ _ => ⟨trivial, fun _ _ => ⟨trivial, trivial⟩⟩⟩⟩⟩⟩
    rw [hheld, Option.map_some, Option.some_inj] at hreverting
    rw [hreverting.1]
    exact hreverting.2
  · rw [show armedRun refreshMoves = some system from hsystem, Option.map_some,
      Option.some_inj] at hrefreshing
    refine fun _ _ => ⟨fun held hheld hrevert => ?_, trivial⟩
    rw [hheld, Option.map_some, Option.some_inj, hrevert] at hrefreshing
    cases hrefreshing

end System

end Hapatchy
