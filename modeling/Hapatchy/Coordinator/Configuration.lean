import Hapatchy.Coordinator

/-!
# What a move does to the configuration

Whatever an action does, its part in the configuration is small: at most the
write with which a revert turns `auto_apply` off.
-/

open Effects Prog

namespace Hapatchy

variable {env : Env} {reconciler : Reconciler}

/-- A revert in this phase has not written `auto_apply` yet. -/
def Phase.Early : Phase → Prop
  | .checking => True
  | .loading => True
  | .running _ => True
  | _ => False

instance : DecidablePred Phase.Early
  | .checking => isTrue trivial
  | .loading => isTrue trivial
  | .running _ => isTrue trivial
  | .refreshing _ => isFalse id
  | .saving _ => isFalse id

namespace System

variable {system after : System} {runtime : PatchManagerRuntime} {held : Held}

/-! ## Actions -/

/-- The write with which a revert of `held` has turned `auto_apply` off. -/
structure Wrote (system : System) (runtime : PatchManagerRuntime) (held : Held) (after : System)
    (runtime' : PatchManagerRuntime) : Prop where
  revert : held.action = .revert
  early : held.phase.Early
  late : ∀ held', runtime'.holder = some held' → ¬ held'.phase.Early
  present : held.patchId ∈ system.subentries
  write : ∃ previous, runtime.definitions.lookup held.patchId = some previous ∧
    after.subentries = system.subentries.insert held.patchId { previous with autoApply := false } ∧
    runtime'.definitions = runtime.definitions.insert held.patchId { previous with autoApply := false }

/-- What the action that holds the lock has done to the configuration. -/
structure Acted (system : System) (runtime : PatchManagerRuntime) (held : Held) (after : System) :
    Prop where
  saving : after.saving = system.saving
  runtime : ∃ runtime', after.runtime = some runtime' ∧
    (runtime'.holder = none ∨ ∃ phase, runtime'.holder = some { held with phase := phase } ∧
      (phase.Early → held.phase.Early)) ∧
    ((after.subentries = system.subentries ∧ runtime'.definitions = runtime.definitions) ∨
      Wrote system runtime held after runtime')

theorem Acted.congr {system' : System} (h : Acted system' runtime held after)
    (hsaving : system'.saving = system.saving)
    (hsubentries : system'.subentries = system.subentries) : Acted system runtime held after := by
  obtain ⟨hafter, runtime', hruntime, hholder, hquiet | hwrote⟩ := h
  · exact ⟨hafter.trans hsaving, runtime', hruntime, hholder,
      Or.inl ⟨hquiet.1.trans hsubentries, hquiet.2⟩⟩
  · obtain ⟨hrevert, hearly, hlate, hpresent, previous, hlookup, hsub, hdefinitions⟩ := hwrote
    rw [hsubentries] at hpresent hsub
    exact ⟨hafter.trans hsaving, runtime', hruntime, hholder,
      Or.inr ⟨hrevert, hearly, hlate, hpresent, previous, hlookup, hsub, hdefinitions⟩⟩

theorem acted_world (world : World) (h : Acted { system with world := world } runtime held after) :
    Acted system runtime held after := h.congr rfl rfl

theorem acted_release : Acted system runtime held (system.release runtime) where
  saving := rfl
  runtime := ⟨_, rfl, Or.inl rfl, Or.inl ⟨rfl, rfl⟩⟩

theorem acted_await {phase : Phase} (h : phase.Early → held.phase.Early) : Acted system runtime held
    (system.withRuntime { runtime with holder := some { held with phase := phase } }) where
  saving := rfl
  runtime := ⟨_, rfl, Or.inr ⟨phase, rfl, h⟩, Or.inl ⟨rfl, rfl⟩⟩

/-- After the result, the action refreshes the watcher or saves. -/
theorem settle_eq (env : Env) (system : System) (runtime : PatchManagerRuntime) (held : Held)
    (result : ReconcileResult) :
    (system.settle env runtime held result).saving = system.saving ∧
      (system.settle env runtime held result).subentries = system.subentries ∧
      ∃ runtime' phase, (system.settle env runtime held result).runtime = some runtime' ∧
        runtime'.holder = some { held with phase := phase } ∧ ¬ phase.Early ∧
        runtime'.definitions = runtime.definitions := by
  unfold settle
  split
  · exact ⟨rfl, rfl, _, _, rfl, rfl, id, rfl⟩
  · exact ⟨rfl, rfl, _, _, rfl, rfl, id, rfl⟩

theorem acted_settle (result : ReconcileResult) (suppressReapply : List Text) :
    Acted system runtime held (system.settle env { runtime with suppressReapply := suppressReapply }
      held result) := by
  obtain ⟨hsaving, hsubentries, runtime', phase, hruntime, hholder, hlate, hdefinitions⟩ :=
    settle_eq env system { runtime with suppressReapply := suppressReapply } held result
  exact ⟨hsaving, runtime', hruntime, Or.inr ⟨phase, hholder, fun h => absurd h hlate⟩,
    Or.inl ⟨hsubentries, hdefinitions⟩⟩

theorem acted_conclude (hearly : held.phase.Early) (result : ReconcileResult) (update : Update) :
    Acted system runtime held (system.conclude env runtime held result update) := by
  unfold conclude
  split
  · rename_i hrevert
    unfold disableAutoApply
    cases hlookup : runtime.definitions.lookup held.patchId with
    | none => exact acted_release
    | some previous =>
      cases update with
      | done =>
        by_cases hpresent : held.patchId ∈ system.subentries
        · simp only [hpresent, if_true]
          obtain ⟨hsaving, hsubentries, runtime', phase, hruntime, hholder, hlate, hdefinitions⟩ :=
            settle_eq env { system with
                subentries := system.subentries.insert held.patchId { previous with autoApply := false } }
              { runtime with
                definitions := runtime.definitions.insert held.patchId { previous with autoApply := false }
                suppressReapply := runtime.suppressReapply.filter (· ≠ held.patchId) } held result
          refine ⟨hsaving, runtime', hruntime, Or.inr ⟨phase, hholder, fun h => absurd h hlate⟩,
            Or.inr ⟨hrevert.1, hearly, ?_, hpresent, previous, hlookup, hsubentries, hdefinitions⟩⟩
          intro held' hheld'
          cases hholder.symm.trans hheld'
          exact hlate
        · simp only [hpresent, if_false]
          exact acted_release
      | failed =>
        by_cases hpresent : held.patchId ∈ system.subentries
        · simp only [hpresent, if_true]
          exact acted_settle ..
        · simp only [hpresent, if_false]
          exact acted_release
      | raised => exact acted_release
  · exact acted_settle result runtime.suppressReapply

theorem acted_continueWith {α : Type} {next : α → System} (hearly : held.phase.Early)
    (out : Except Exc α) (update : Update) (hnext : ∀ a, Acted system runtime held (next a)) :
    Acted system runtime held (system.continueWith env runtime held out update next) := by
  unfold continueWith
  split
  · exact hnext _
  · split
    · exact acted_conclude hearly _ _
    · exact acted_release

/-! ## Moves -/

/-- The action that holds the lock. -/
def holder (system : System) : Option Held := system.runtime.bind PatchManagerRuntime.holder

/-- The definition of `patchId` that the runtime has. -/
def definition (system : System) (patchId : Text) : Option PatchDefinition :=
  system.runtime.bind fun runtime => runtime.definitions.lookup patchId

/-- The definition of `patchId` that Home Assistant stores. -/
def stored (system : System) (patchId : Text) : Option PatchDefinition :=
  system.subentries.lookup patchId

/-- What a move does to the configuration, and to those who hold the lock. -/
inductive Changed (system : System) : Move → System → Prop
  | quiet {move : Move} {after : System} (subentries : after.subentries = system.subentries)
      (saving : after.saving = system.saving)
      (running : after.runtime.isSome = system.runtime.isSome)
      (holder : after.holder = system.holder)
      (definition : after.definition = system.definition) : Changed system move after
  | began {index : Nat} {after : System} (running : system.runtime.isSome)
      (unlocked : system.unlocked) (subentries : after.subentries = system.subentries) (saving : after.saving = system.saving)
      (definition : after.definition = system.definition)
      (holder : after.holder = none ∨ after.holder.isSome ∧ system.definition = system.stored) :
      Changed system (.begin index) after
  | acted {move : Move} {after : System} {runtime : PatchManagerRuntime} {held : Held}
      (loaded : system.runtime = some runtime) (holder : runtime.holder = some held)
      (acted : Acted system runtime held after) : Changed system move after
  | closed {stopped : Bool} {after : System} (subentries : after.subentries = system.subentries)
      (saving : after.saving = system.saving) (runtime : after.runtime = none) :
      Changed system (.close stopped) after
  | loaded {data : Option (Dict Text StateStore.Item)} {after : System}
      (subentries : after.subentries = system.subentries) (saving : after.saving = system.saving)
      (holder : after.holder = none) (definition : after.definition = system.stored) :
      Changed system (.setup data) after
  | acquired {index : Nat} {after : System} (unlocked : system.unlocked)
      (subentries : after.subentries = system.subentries) (runtime : after.runtime = system.runtime)
      (saving : ∀ save, after.saving = some save → system.checkSave save) :
      Changed system (.acquire index) after
  | drafted {source : Text} {after : System} {save : Save} (held : system.saving = some save)
      (subentries : after.subentries = system.subentries) (runtime : after.runtime = system.runtime)
      (saving : after.saving =
        some { save with definition := { save.definition with source := source } }) :
      Changed system (.drafted source) after
  | ended {move : Move} {after : System} (subentries : after.subentries = system.subentries)
      (runtime : after.runtime = system.runtime) (saving : after.saving = none) :
      Changed system move after
  | committed {patchId : Text} {after : System} {save : Save} (held : system.saving = some save)
      (runtime : after.runtime = system.runtime) (saving : after.saving = none)
      (subentries : ∃ q, (∀ original, save.original = some original →
          q = original.patchId ∧ q ∈ system.subentries) ∧
        (save.original = none → q ∉ system.subentries) ∧
        after.subentries = system.subentries.insert q { save.definition with patchId := q }) :
      Changed system (.commit patchId) after
  | updated {patchId : Text} {definition : PatchDefinition} {after : System}
      (runtime : after.runtime = system.runtime) (saving : after.saving = system.saving)
      (subentries : after.subentries = system.subentries.insert patchId definition) :
      Changed system (.update patchId definition) after
  | removed {patchId : Text} {after : System} (runtime : after.runtime = system.runtime)
      (saving : after.saving = system.saving)
      (subentries : after.subentries = system.subentries.erase patchId) :
      Changed system (.remove patchId) after

theorem holder_of_runtime (hruntime : system.runtime = some runtime) :
    system.holder = runtime.holder := by
  unfold holder
  rw [hruntime]
  rfl

theorem definition_of_runtime (hruntime : system.runtime = some runtime) :
    system.definition = runtime.definitions.lookup := by
  unfold definition
  rw [hruntime]
  rfl

/-- A runtime with the same definitions and the same holder. -/
theorem changed_withRuntime {runtime' : PatchManagerRuntime} {move : Move}
    (hruntime : system.runtime = some runtime) (hholder : runtime'.holder = runtime.holder)
    (hdefinitions : runtime'.definitions = runtime.definitions) :
    Changed system move (system.withRuntime runtime') := by
  refine .quiet rfl rfl ?_ ?_ ?_
  · rw [hruntime]
    rfl
  · rw [holder_of_runtime hruntime]
    exact hholder
  · rw [definition_of_runtime hruntime]
    exact congrArg (fun definitions p => AList.lookup p definitions) hdefinitions

/-- An action that takes the lock has seen the runtime agree with the entry. -/
theorem matchesEntry_of_validateCurrent {patchId : Text}
    (h : runtime.validateCurrent system.subentries system.backupRetention patchId = .ok ()) :
    runtime.matchesEntry system.subentries system.backupRetention := by
  unfold PatchManagerRuntime.validateCurrent at h
  split at h
  · cases h
  · split at h
    · cases h
    · split at h
      · cases h
      · split at h
        · cases h
        · rename_i hmatches
          simpa using hmatches

theorem lookup_of_matchesEntry
    (h : runtime.matchesEntry system.subentries system.backupRetention) :
    runtime.definitions.lookup = system.stored := by
  unfold PatchManagerRuntime.matchesEntry at h
  rw [Bool.and_eq_true, decide_eq_true_eq, Dict.same_iff] at h
  exact funext h.1

/-- An action that takes the lock gets it, or is over. -/
theorem begin_eq (system : System) (runtime : PatchManagerRuntime) (patchId : Text) (action : Action) (waiting : List (Text × Action)) :
    system.begin runtime patchId action waiting =
        system.release { runtime with waiting := waiting } ∨
      ∃ held, system.begin runtime patchId action waiting =
          system.withRuntime { runtime with waiting := waiting, holder := some held } ∧
        held.patchId = patchId ∧ held.action = action ∧ held.phase = .checking ∧
        runtime.definitions.lookup = system.stored := by
  unfold begin
  simp only
  split
  · rename_i hvalid hdefinition hstate
    split
    · exact Or.inl rfl
    · refine Or.inr ⟨_, rfl, rfl, rfl, rfl, ?_⟩
      have hmatches := matchesEntry_of_validateCurrent hvalid
      exact lookup_of_matchesEntry hmatches
  · exact Or.inl rfl

theorem changed_begin {index : Nat} (hruntime : system.runtime = some runtime)
    (hunlocked : system.unlocked) (patchId : Text) (action : Action)
    (waiting : List (Text × Action)) :
    Changed system (.begin index) (system.begin runtime patchId action waiting) := by
  have hrunning : system.runtime.isSome := by
    rw [hruntime]
    rfl
  obtain heq | ⟨held, heq, -, -, -, hlookup⟩ := begin_eq system runtime patchId action waiting
  · rw [heq]
    exact .began hrunning hunlocked rfl rfl (definition_of_runtime hruntime).symm (Or.inl rfl)
  · rw [heq]
    refine .began hrunning hunlocked rfl rfl (definition_of_runtime hruntime).symm (Or.inr ⟨rfl, ?_⟩)
    rw [definition_of_runtime hruntime, hlookup]

theorem changed_commitSave {save : Save} {patchId : Text} (hsaving : system.saving = some save)
    (h : system.commitSave save patchId = some after) : Changed system (.commit patchId) after := by
  unfold commitSave at h
  cases horiginal : save.original with
  | some original =>
    simp only [horiginal] at h
    split at h
    · cases h
      exact .ended rfl rfl rfl
    · rename_i hpresent
      cases h
      refine .committed hsaving rfl rfl ⟨original.patchId, ?_, ?_, rfl⟩
      · rintro original' h
        cases horiginal.symm.trans h
        exact ⟨rfl, not_not.mp hpresent⟩
      · rw [horiginal]
        nofun
  | none =>
    simp only [horiginal] at h
    split at h
    · cases h
    · rename_i habsent
      cases h
      refine .committed hsaving rfl rfl ⟨patchId, ?_, fun _ => habsent, rfl⟩
      rw [horiginal]
      nofun

theorem make_ok {subentries : Dict Text PatchDefinition} {retention : Nat}
    (h : PatchManagerRuntime.make subentries retention = .ok runtime) :
    runtime.definitions = subentries ∧ runtime.holder = none ∧ runtime.waiting = [] := by
  unfold PatchManagerRuntime.make at h
  simp only at h
  split at h
  · cases h
  · split at h
    · cases h
    · cases h
      exact ⟨rfl, rfl, rfl⟩

theorem changed {move : Move} (h : system.step env reconciler move = some after) :
    Changed system move after := by
  cases move with
  | request patchId action =>
    obtain ⟨runtime, hruntime, h⟩ := Option.bind_eq_some_iff.mp h
    split at h
    · cases h
    · split at h
      · cases h
      · split at h
        · cases h
        · cases h
          exact changed_withRuntime hruntime rfl rfl
  | begin index =>
    obtain ⟨runtime, hruntime, h⟩ := Option.bind_eq_some_iff.mp h
    obtain ⟨⟨patchId, action⟩, hindex, h⟩ := Option.bind_eq_some_iff.mp h
    simp only at h
    split at h
    · cases h
    · rename_i hunlocked
      cases h
      exact changed_begin hruntime (by simpa using hunlocked) ..
  | checked update =>
    obtain ⟨runtime, hruntime, h⟩ := Option.bind_eq_some_iff.mp h
    obtain ⟨held, hheld, h⟩ := Option.bind_eq_some_iff.mp h
    split at h
    · cases h
    · rename_i hphase
      have hearly : held.phase.Early := by
        rw [not_not.mp hphase]
        trivial
      cases h
      exact .acted hruntime hheld (acted_world _ (acted_continueWith hearly _ update fun _ =>
        acted_await fun _ => hearly))
  | loaded source update =>
    obtain ⟨runtime, hruntime, h⟩ := Option.bind_eq_some_iff.mp h
    obtain ⟨held, hheld, h⟩ := Option.bind_eq_some_iff.mp h
    split at h
    · cases h
    · rename_i hphase
      have hearly : held.phase.Early := by
        rw [not_not.mp hphase]
        trivial
      cases h
      exact .acted hruntime hheld (acted_continueWith hearly _ update fun _ =>
        acted_await fun _ => hearly)
  | ran update =>
    obtain ⟨runtime, hruntime, h⟩ := Option.bind_eq_some_iff.mp h
    obtain ⟨held, hheld, h⟩ := Option.bind_eq_some_iff.mp h
    simp only at h
    split at h
    · rename_i source hphase
      have hearly : held.phase.Early := by
        rw [hphase]
        trivial
      cases h
      exact .acted hruntime hheld (acted_world _ (acted_continueWith hearly _ update fun result =>
        acted_conclude hearly result update))
    · cases h
  | refreshed returned =>
    obtain ⟨runtime, hruntime, h⟩ := Option.bind_eq_some_iff.mp h
    obtain ⟨held, hheld, h⟩ := Option.bind_eq_some_iff.mp h
    split at h
    · split at h
      · cases h
        exact .acted hruntime hheld
          ⟨rfl, _, rfl, Or.inr ⟨.saving _, rfl, False.elim⟩, Or.inl ⟨rfl, rfl⟩⟩
      · cases h
        exact .acted hruntime hheld acted_release
    · cases h
  | saved returned =>
    obtain ⟨runtime, hruntime, h⟩ := Option.bind_eq_some_iff.mp h
    obtain ⟨held, hheld, h⟩ := Option.bind_eq_some_iff.mp h
    split at h
    · cases h
      refine .acted hruntime hheld (acted_release.congr ?_ ?_)
      · split <;> rfl
      · split <;> rfl
    · cases h
  | watchAvailable patchId available =>
    obtain ⟨runtime, hruntime, h⟩ := Option.bind_eq_some_iff.mp h
    cases h
    exact changed_withRuntime hruntime rfl rfl
  | watchDenied patchId reason =>
    obtain ⟨runtime, hruntime, h⟩ := Option.bind_eq_some_iff.mp h
    split at h
    · cases h
    · cases h
      exact changed_withRuntime hruntime rfl rfl
  | setClosing closing =>
    obtain ⟨runtime, hruntime, h⟩ := Option.bind_eq_some_iff.mp h
    cases h
    exact changed_withRuntime hruntime rfl rfl
  | close stopped =>
    obtain ⟨runtime, hruntime, h⟩ := Option.bind_eq_some_iff.mp h
    split at h
    · cases h
    · cases h
      exact .closed rfl rfl rfl
  | setup data =>
    unfold step at h
    simp only at h
    split at h
    · rename_i runtime hnone hmake
      cases h
      obtain ⟨hdefinitions, hholder, -⟩ := make_ok hmake
      refine .loaded rfl rfl hholder ?_
      exact congrArg (fun definitions p => AList.lookup p definitions) hdefinitions
    · cases h
  | save original definition =>
    cases h
    exact .quiet rfl rfl rfl rfl rfl
  | acquire index =>
    obtain ⟨save, hsave, h⟩ := Option.bind_eq_some_iff.mp h
    split at h
    · cases h
    · rename_i hunlocked
      cases h
      refine .acquired (by simpa using hunlocked) rfl rfl ?_
      intro save' h
      simp only at h
      split at h
      · rename_i hcheck
        cases h
        exact hcheck
      · cases h
  | drafted source =>
    obtain ⟨save, hsave, h⟩ := Option.bind_eq_some_iff.mp h
    split at h
    · cases h
    · cases h
      exact .drafted hsave rfl rfl rfl
  | abandon =>
    obtain ⟨save, hsave, h⟩ := Option.bind_eq_some_iff.mp h
    cases h
    exact .ended rfl rfl rfl
  | commit patchId =>
    obtain ⟨save, hsave, h⟩ := Option.bind_eq_some_iff.mp h
    split at h
    · cases h
    · exact changed_commitSave hsave h
  | update patchId definition =>
    unfold step at h
    simp only at h
    split at h
    · cases h
      exact .updated rfl rfl rfl
    · cases h
  | remove patchId =>
    cases h
    exact .removed rfl rfl rfl
  | setRetention retention =>
    cases h
    exact .quiet rfl rfl rfl rfl rfl

/-! ## Reverts -/

/-- A revert of `patchId` has the lock, and has not written `auto_apply` yet. -/
def Reverting (system : System) (patchId : Text) : Prop :=
  ∃ held, system.holder = some held ∧ held.patchId = patchId ∧ held.action = .revert ∧
    held.phase.Early

instance (system : System) (patchId : Text) : Decidable (system.Reverting patchId) :=
  match h : system.holder with
  | none => isFalse fun ⟨_, hheld, _⟩ => by
      rw [h] at hheld
      cases hheld
  | some held =>
    decidable_of_iff (held.patchId = patchId ∧ held.action = .revert ∧ held.phase.Early)
      ⟨fun hheld => ⟨held, h, hheld⟩, fun ⟨held', hheld', hrevert⟩ => by
        cases h.symm.trans hheld'
        exact hrevert⟩

/-- No native update changes the definition of a patch during its revert. -/
def Apart (system : System) : Move → Prop
  | .update patchId definition =>
    system.Reverting patchId → system.stored patchId = some definition
  | _ => True

instance (system : System) : DecidablePred system.Apart
  | .update patchId definition =>
    inferInstanceAs (Decidable (system.Reverting patchId → system.stored patchId = some definition))
  | .request .. | .begin _ | .checked _ | .loaded .. | .ran _ | .refreshed _ | .saved _
  | .watchAvailable .. | .watchDenied .. | .setClosing _ | .close _ | .setup _ | .save .. | .acquire _
  | .drafted _ | .abandon | .commit _ | .remove _ | .setRetention _ => isTrue trivial

/-- One party has the lock, and what a revert is to write back is what is stored. -/
structure Orderly (system : System) : Prop where
  alone : system.saving.isSome → system.holder = none
  current : ∀ patchId, system.Reverting patchId →
    system.stored patchId = none ∨ system.stored patchId = system.definition patchId

theorem holder_of_unlocked (h : system.unlocked) : system.holder = none ∧ system.saving = none := by
  unfold unlocked at h
  rw [Bool.and_eq_true, Option.isNone_iff_eq_none, Option.isNone_iff_eq_none] at h
  exact h.symm

theorem not_reverting_of_none {patchId : Text} (h : system.holder = none) :
    ¬ system.Reverting patchId := by
  rintro ⟨held, hheld, -⟩
  rw [h] at hheld
  cases hheld

theorem orderly_of_none (h : system.holder = none) : system.Orderly :=
  ⟨fun _ => h, fun _ hreverting => absurd hreverting (not_reverting_of_none h)⟩

theorem holder_congr (h : after.runtime = system.runtime) : after.holder = system.holder :=
  congrArg (fun runtime => runtime.bind PatchManagerRuntime.holder) h

theorem definition_congr (h : after.runtime = system.runtime) :
    after.definition = system.definition :=
  congrArg (fun runtime patchId => runtime.bind fun runtime => runtime.definitions.lookup patchId) h

theorem reverting_congr {patchId : Text} (h : after.holder = system.holder) :
    after.Reverting patchId ↔ system.Reverting patchId := by
  unfold Reverting
  rw [h]

/-- An action does not get back before its write. -/
theorem Acted.reverting {patchId : Text} (hacted : Acted system runtime held after)
    (hruntime : system.runtime = some runtime) (hheld : runtime.holder = some held)
    (h : after.Reverting patchId) : system.Reverting patchId ∧
      after.stored = system.stored ∧ after.definition = system.definition := by
  obtain ⟨held', hheld', hpatchId, hrevert, hearly⟩ := h
  obtain ⟨-, runtime', hruntime', hholder, hquiet | hwrote⟩ := hacted
  · rw [holder_of_runtime hruntime'] at hheld'
    obtain hnone | ⟨phase, hphase, hback⟩ := hholder
    · rw [hnone] at hheld'
      cases hheld'
    · rw [hphase] at hheld'
      cases hheld'
      refine ⟨⟨held, ?_, hpatchId, hrevert, hback hearly⟩, ?_, ?_⟩
      · rw [holder_of_runtime hruntime, hheld]
      · exact congrArg (fun subentries p => AList.lookup p subentries) hquiet.1
      · rw [definition_of_runtime hruntime, definition_of_runtime hruntime', hquiet.2]
  · rw [holder_of_runtime hruntime'] at hheld'
    exact absurd hearly (hwrote.late held' hheld')

theorem stored_congr (h : after.subentries = system.subentries) : after.stored = system.stored :=
  congrArg (fun subentries p => AList.lookup p subentries) h

theorem reverting_of_holder {patchId : Text} (hruntime : system.runtime = some runtime)
    (hheld : runtime.holder = some held) (hpatch : held.patchId = patchId)
    (hrevert : held.action = .revert) (hearly : held.phase.Early) : system.Reverting patchId :=
  ⟨held, by rw [holder_of_runtime hruntime, hheld], hpatch, hrevert, hearly⟩

/-- A revert writes back what is stored, without `auto_apply`. -/
theorem Wrote.stored {runtime' : PatchManagerRuntime}
    (hwrote : Wrote system runtime held after runtime') (hsystem : system.Orderly)
    (hruntime : system.runtime = some runtime) (hheld : runtime.holder = some held) :
    ∃ previous, system.stored held.patchId = some previous ∧
      after.stored held.patchId = some { previous with autoApply := false } ∧
      ∀ p, p ≠ held.patchId → after.stored p = system.stored p := by
  obtain ⟨previous, hprevious, hsubentries, -⟩ := hwrote.write
  refine ⟨previous, ?_, ?_, fun p hp => ?_⟩
  · obtain hnone | hsame := hsystem.current held.patchId
      (reverting_of_holder hruntime hheld rfl hwrote.revert hwrote.early)
    · exact absurd hwrote.present (AList.lookup_eq_none.mp hnone)
    · rw [hsame, definition_of_runtime hruntime]
      exact hprevious
  · unfold System.stored
    rw [hsubentries]
    exact AList.lookup_insert ..
  · unfold System.stored
    rw [hsubentries, AList.lookup_insert_ne hp]

theorem Changed.orderly {move : Move} (h : Changed system move after) (hsystem : system.Orderly)
    (hapart : system.Apart move) : after.Orderly := by
  cases h with
  | quiet hsubentries hsaving hrunning hholder hdefinition =>
    refine ⟨fun h => ?_, fun p hp => ?_⟩
    · rw [hholder]
      exact hsystem.alone (hsaving ▸ h)
    · unfold stored
      rw [hsubentries, hdefinition]
      exact hsystem.current p ((reverting_congr hholder).mp hp)
  | began hrunning hunlocked hsubentries hsaving hdefinition hholder =>
    refine ⟨fun h => ?_, fun p hp => Or.inr ?_⟩
    · rw [hsaving, (holder_of_unlocked hunlocked).2] at h
      cases h
    · obtain hnone | ⟨-, hsame⟩ := hholder
      · exact absurd hp (not_reverting_of_none hnone)
      · rw [hdefinition, hsame]
        unfold stored
        rw [hsubentries]
  | acted hruntime hheld hacted =>
    refine ⟨fun h => ?_, fun p hp => ?_⟩
    · rw [hacted.saving] at h
      have hnone := hsystem.alone h
      rw [holder_of_runtime hruntime, hheld] at hnone
      cases hnone
    · obtain ⟨hreverting, hstored, hdefinition⟩ := hacted.reverting hruntime hheld hp
      rw [hstored, hdefinition]
      exact hsystem.current p hreverting
  | closed hsubentries hsaving hruntime =>
    refine orderly_of_none ?_
    unfold holder
    rw [hruntime]
    rfl
  | loaded hsubentries hsaving hholder hdefinition => exact orderly_of_none hholder
  | acquired hunlocked hsubentries hruntime hsaving =>
    exact orderly_of_none ((holder_congr hruntime).trans (holder_of_unlocked hunlocked).1)
  | drafted hsave hsubentries hruntime hsaving =>
    refine orderly_of_none ((holder_congr hruntime).trans (hsystem.alone ?_))
    rw [hsave]
    rfl
  | ended hsubentries hruntime hsaving =>
    refine ⟨fun h => ?_, fun p hp => ?_⟩
    · rw [hsaving] at h
      cases h
    · unfold stored
      rw [hsubentries, definition_congr hruntime]
      exact hsystem.current p ((reverting_congr (holder_congr hruntime)).mp hp)
  | committed hsave hruntime hsaving hsubentries =>
    refine orderly_of_none ((holder_congr hruntime).trans (hsystem.alone ?_))
    rw [hsave]
    rfl
  | updated hruntime hsaving hsubentries =>
    rename_i patchId definition
    refine ⟨fun h => ?_, fun p hp => ?_⟩
    · rw [holder_congr hruntime]
      exact hsystem.alone (hsaving ▸ h)
    · have hreverting := (reverting_congr (holder_congr hruntime)).mp hp
      have hsame : after.stored p = system.stored p := by
        unfold stored
        rw [hsubentries]
        by_cases hpatch : p = patchId
        · subst hpatch
          rw [AList.lookup_insert]
          exact (hapart hreverting).symm
        · exact AList.lookup_insert_ne hpatch
      rw [hsame, definition_congr hruntime]
      exact hsystem.current p hreverting
  | removed hruntime hsaving hsubentries =>
    rename_i patchId
    refine ⟨fun h => ?_, fun p hp => ?_⟩
    · rw [holder_congr hruntime]
      exact hsystem.alone (hsaving ▸ h)
    · rw [definition_congr hruntime]
      unfold stored
      rw [hsubentries]
      by_cases hpatch : p = patchId
      · subst hpatch
        exact Or.inl (AList.lookup_erase ..)
      · rw [AList.lookup_erase_ne hpatch]
        exact hsystem.current p ((reverting_congr (holder_congr hruntime)).mp hp)

end System

end Hapatchy
