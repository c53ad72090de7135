import Hapatchy.Coordinator.Configuration
import Hapatchy.Reconciler.Report

/-!
# Native edits

An action that takes the lock after Home Assistant has edited its subentry
does nothing. A revert that has it already writes its own copy back.
-/

open Effects Prog

namespace Hapatchy

variable {env : Env} {reconciler : Reconciler}

/-- A definition but for `auto_apply`. -/
def PatchDefinition.disarmed (definition : PatchDefinition) : PatchDefinition :=
  { definition with autoApply := false }

/-- Home Assistant updates the subentry of `patchId`, or removes it. -/
def Move.native (patchId : Text) : Option PatchDefinition → Move
  | some definition => .update patchId definition
  | none => .remove patchId

namespace System

variable {system after : System} {move : Move} {patchId : Text}

/-- Neither Home Assistant nor a patch flow edits the subentry of `patchId`. -/
def Unedited (patchId : Text) (system : System) (move : Move) (after : System) : Prop :=
  match move with
  | .update _ _ => after.stored patchId = system.stored patchId
  | .remove _ => after.stored patchId = system.stored patchId
  | .commit _ => after.stored patchId = system.stored patchId
  | _ => True

/-- An action on `patchId` that takes the lock is over, and has done nothing. -/
def Refuses (patchId : Text) (system : System) (move : Move) (after : System) : Prop :=
  ∀ index action runtime, move = .begin index → system.runtime = some runtime →
    runtime.waiting[index]? = some (patchId, action) →
    after.world = system.world ∧ after.subentries = system.subentries ∧
      after.runtime = some
        { runtime with waiting := runtime.waiting.eraseIdx index, holder := none }

/-- The runtime has another definition of `patchId` than the entry, and no revert is about to
write it. -/
structure Outdated (patchId : Text) (system : System) : Prop where
  differs : system.runtime.isSome → system.definition patchId ≠ system.stored patchId
  absent : system.Reverting patchId → system.stored patchId = none

/-! ## One move -/

theorem Changed.disarmed (h : Changed system move after) (hsystem : system.Orderly)
    (hunedited : Unedited patchId system move after) :
    (after.stored patchId).map PatchDefinition.disarmed =
      (system.stored patchId).map PatchDefinition.disarmed := by
  cases h with
  | quiet hsubentries => rw [stored_congr hsubentries]
  | began hrunning hunlocked hsubentries => rw [stored_congr hsubentries]
  | acted hruntime hheld hacted =>
    obtain ⟨-, runtime', hruntime', hholder, hquiet | hwrote⟩ := hacted
    · rw [stored_congr hquiet.1]
    · rename_i runtime held
      obtain ⟨previous, hstored, hwritten, hother⟩ := hwrote.stored hsystem hruntime hheld
      by_cases hpatch : patchId = held.patchId
      · rw [hpatch, hstored, hwritten]
        rfl
      · rw [hother patchId hpatch]
  | closed hsubentries => rw [stored_congr hsubentries]
  | loaded hsubentries => rw [stored_congr hsubentries]
  | acquired hunlocked hsubentries => rw [stored_congr hsubentries]
  | drafted hsave hsubentries => rw [stored_congr hsubentries]
  | ended hsubentries => rw [stored_congr hsubentries]
  | committed => exact congrArg _ hunedited
  | updated => exact congrArg _ hunedited
  | removed => exact congrArg _ hunedited

theorem Outdated.congr (h : Outdated patchId system) (hruntime : after.runtime = system.runtime)
    (hstored : after.stored patchId = system.stored patchId) : Outdated patchId after := by
  refine ⟨fun hrunning => ?_, fun hreverting => ?_⟩
  · rw [definition_congr hruntime, hstored]
    exact h.differs (hruntime ▸ hrunning)
  · rw [hstored]
    exact h.absent ((reverting_congr (holder_congr hruntime)).mp hreverting)

theorem Changed.outdated (h : Changed system move after) (hsystem : Outdated patchId system)
    (hunedited : Unedited patchId system move after) (hsetup : ∀ data, move ≠ .setup data) :
    Outdated patchId after := by
  cases h with
  | quiet hsubentries hsaving hrunning hholder hdefinition =>
    refine ⟨fun h => ?_, fun h => ?_⟩
    · rw [hdefinition, stored_congr hsubentries]
      exact hsystem.differs (hrunning ▸ h)
    · rw [stored_congr hsubentries]
      exact hsystem.absent ((reverting_congr hholder).mp h)
  | began hrunning hunlocked hsubentries hsaving hdefinition hholder =>
    refine ⟨fun _ => ?_, fun h => ?_⟩
    · rw [hdefinition, stored_congr hsubentries]
      exact hsystem.differs hrunning
    · obtain hnone | ⟨-, hsame⟩ := hholder
      · exact absurd h (not_reverting_of_none hnone)
      · exact absurd (congrFun hsame patchId) (hsystem.differs hrunning)
  | acted hruntime hheld hacted =>
    rename_i runtime held
    have hrunning : system.runtime.isSome := by
      rw [hruntime]
      rfl
    refine ⟨fun _ => ?_, fun h => ?_⟩
    · obtain ⟨-, runtime', hruntime', hholder, hquiet | hwrote⟩ := hacted
      · rw [definition_of_runtime hruntime', hquiet.2, stored_congr hquiet.1,
          ← definition_of_runtime hruntime]
        exact hsystem.differs hrunning
      · obtain ⟨previous, hprevious, hsubentries, hdefinitions⟩ := hwrote.write
        have hpatch : patchId ≠ held.patchId := by
          rintro rfl
          have hnone := hsystem.absent
            (reverting_of_holder hruntime hheld rfl hwrote.revert hwrote.early)
          exact absurd hwrote.present (AList.lookup_eq_none.mp hnone)
        have hstored : after.stored patchId = system.stored patchId := by
          unfold stored
          rw [hsubentries, AList.lookup_insert_ne hpatch]
        have hdefinition : after.definition patchId = system.definition patchId :=
          calc after.definition patchId = runtime'.definitions.lookup patchId :=
                congrFun (definition_of_runtime hruntime') patchId
            _ = runtime.definitions.lookup patchId := by
                rw [hdefinitions, AList.lookup_insert_ne hpatch]
            _ = system.definition patchId := (congrFun (definition_of_runtime hruntime) patchId).symm
        rw [hdefinition, hstored]
        exact hsystem.differs hrunning
    · obtain ⟨hreverting, hstored, -⟩ := hacted.reverting hruntime hheld h
      rw [hstored]
      exact hsystem.absent hreverting
  | closed hsubentries hsaving hruntime =>
    refine ⟨fun h => ?_, fun h => ?_⟩
    · rw [hruntime] at h
      cases h
    · refine absurd h (not_reverting_of_none ?_)
      unfold holder
      rw [hruntime]
      rfl
  | loaded => exact absurd rfl (hsetup _)
  | acquired hunlocked hsubentries hruntime hsaving =>
    exact hsystem.congr hruntime (congrFun (stored_congr hsubentries) patchId)
  | drafted hsave hsubentries hruntime hsaving =>
    exact hsystem.congr hruntime (congrFun (stored_congr hsubentries) patchId)
  | ended hsubentries hruntime hsaving =>
    exact hsystem.congr hruntime (congrFun (stored_congr hsubentries) patchId)
  | committed hsave hruntime hsaving hsubentries => exact hsystem.congr hruntime hunedited
  | updated hruntime hsaving hsubentries => exact hsystem.congr hruntime hunedited
  | removed hruntime hsaving hsubentries => exact hsystem.congr hruntime hunedited

/-- An outdated runtime refuses its actions at the lock. -/
theorem Outdated.refuses (h : Outdated patchId system)
    (hstep : system.step env reconciler move = some after) : Refuses patchId system move after := by
  rintro index action runtime rfl hruntime hindex
  unfold step at hstep
  rw [hruntime] at hstep
  simp only [Option.bind_eq_bind, Option.bind_some, hindex] at hstep
  split at hstep
  · cases hstep
  · cases hstep
    obtain heq | ⟨held, -, -, -, -, hlookup⟩ := begin_eq system runtime patchId action
      (runtime.waiting.eraseIdx index)
    · rw [heq]
      exact ⟨rfl, rfl, rfl⟩
    · refine absurd ?_ (h.differs (by rw [hruntime]; rfl))
      rw [definition_of_runtime hruntime, hlookup]

/-! ## The edit -/

theorem stored_native {new : Option PatchDefinition}
    (h : system.step env reconciler (.native patchId new) = some after) :
    after.runtime = system.runtime ∧ after.stored patchId = new := by
  cases new with
  | none =>
    cases h
    exact ⟨rfl, AList.lookup_erase ..⟩
  | some definition =>
    unfold step Move.native at h
    simp only at h
    split at h
    · cases h
      exact ⟨rfl, AList.lookup_insert ..⟩
    · cases h

theorem outdated_native {new : Option PatchDefinition} (hsystem : system.Orderly)
    (hapart : system.Apart (.native patchId new))
    (hnew : system.runtime.isSome → system.definition patchId ≠ new)
    (h : system.step env reconciler (.native patchId new) = some after) :
    Outdated patchId after := by
  obtain ⟨hruntime, hstored⟩ := stored_native h
  refine ⟨fun hrunning => ?_, fun hreverting => ?_⟩
  · rw [definition_congr hruntime, hstored]
    exact hnew (hruntime ▸ hrunning)
  · rw [hstored]
    cases new with
    | none => rfl
    | some definition =>
      have hbefore := (reverting_congr (holder_congr hruntime)).mp hreverting
      have hsame : system.stored patchId = some definition := hapart hbefore
      have hbefore' := hbefore
      obtain ⟨held, hheld, -⟩ := hbefore
      obtain ⟨runtime, hsystemRuntime, -⟩ := Option.bind_eq_some_iff.mp hheld
      have hrunning : system.runtime.isSome := by
        rw [hsystemRuntime]
        rfl
      obtain hnone | hcurrent := hsystem.current patchId hbefore'
      · rw [hsame] at hnone
        cases hnone
      · exact absurd (hcurrent.symm.trans hsame) (hnew hrunning)

/-! ## Runs -/

theorem orderly_of_run {start : System} {moves : List Move} (hstart : start.runtime = none)
    (hapart : Traces.Every (step env reconciler) (fun s l _ => s.Apart l) start moves)
    (hrun : Traces.after (step env reconciler) start moves = some system) : system.Orderly := by
  have hnone : start.holder = none := by
    unfold holder
    rw [hstart]
    rfl
  exact Traces.invariant (fun s l t hs hstep hl => (changed hstep).orderly hs hl)
    (orderly_of_none hnone) hapart hrun

/-- If native updates keep away from reverts, no action acts on or overwrites a native edit: of the
actions that take the lock after it, and of those that have it already. -/
theorem native_edits_survive {start before after final : System} {earlier later : List Move}
    {patchId : Text} {new : Option PatchDefinition} (hstart : start.runtime = none)
    (hearlier : Traces.after (step env reconciler) start earlier = some before)
    (hnative : before.step env reconciler (.native patchId new) = some after)
    (hlater : Traces.after (step env reconciler) after later = some final)
    (hapart : Traces.Every (step env reconciler) (fun s l _ => s.Apart l) start
      (earlier ++ .native patchId new :: later))
    (hunedited : Traces.Every (step env reconciler) (Unedited patchId) after later) :
    ((before.runtime.isSome → before.definition patchId ≠ new) → (∀ data, .setup data ∉ later) →
      Traces.Every (step env reconciler) (Refuses patchId) after later) ∧
    (final.stored patchId).map PatchDefinition.disarmed = new.map PatchDefinition.disarmed := by
  rw [Traces.every_append] at hapart
  have hbefore := orderly_of_run hstart hapart.1 hearlier
  obtain ⟨hedit, hapart⟩ := hapart.2 before hearlier after hnative
  constructor
  · intro hnew hsetup
    have hsetups : Traces.Every (step env reconciler) (fun _ l _ => ∀ data, l ≠ .setup data) after
        later := Traces.every_of_forall_mem fun l hl data h => hsetup data (h ▸ hl)
    exact Traces.every_of_invariant
      (fun s l t hs hstep hl => (changed hstep).outdated hs hl.1 hl.2)
      (fun s l t hs hstep _ => hs.refuses hstep)
      (outdated_native hbefore hedit hnew hnative) (hunedited.and hsetups)
  · have hafter := (changed hnative).orderly hbefore hedit
    obtain ⟨-, hsame⟩ := Traces.invariant
      (I := fun s => s.Orderly ∧
        (s.stored patchId).map PatchDefinition.disarmed = new.map PatchDefinition.disarmed)
      (fun s l t hs hstep hl => ⟨(changed hstep).orderly hs.1 hl.1,
        ((changed hstep).disarmed hs.1 hl.2).trans hs.2⟩)
      ⟨hafter, by rw [(stored_native hnative).2]⟩ (hapart.and hunedited) hlater
    exact hsame

/-- An entry with one patch, that is not set up. -/
def steadySystem : System where
  world := steadyWorld []
  subentries := AList.singleton steadyDefinition.patchId steadyDefinition
  backupRetention := 5

def renamedDefinition : PatchDefinition := { steadyDefinition with name := ['m'] }

/-- The system after `moves`. -/
def steadyRun (moves : List Move) : Option System :=
  Traces.after (step steadyEnv (steadyReconciler [])) steadySystem moves

/-- A queued revert, and a native update before it has the lock. -/
theorem native_edits_survive_queued : ∃ after final,
    steadyRun [.setup none, .request ['p'] .revert, .update ['p'] renamedDefinition] = some after ∧
    after.step steadyEnv (steadyReconciler []) (.begin 0) = some final ∧
    final.world = after.world ∧ final.subentries = after.subentries ∧
    (final.stored ['p']).map PatchDefinition.disarmed = some renamedDefinition.disarmed := by
  have hrun : (steadyRun ([.setup none, .request ['p'] .revert] ++
      [.native ['p'] (some renamedDefinition), .begin 0])).isSome := by decide +kernel
  have hadmitted : (steadyRun [.setup none, .request ['p'] .revert]).map (fun system =>
      (system.definition ['p'], system.runtime.map (·.waiting))) =
      some (some steadyDefinition, some [(['p'], .revert)]) := by decide +kernel
  obtain ⟨final, hfinal⟩ := Option.isSome_iff_exists.mp hrun
  obtain ⟨before, hbefore, hrest⟩ := Traces.after_append.mp hfinal
  obtain ⟨after, hnative, hlater⟩ := Traces.after_cons.mp hrest
  obtain ⟨final', hbegin, hend⟩ := Traces.after_cons.mp hlater
  cases hend
  unfold steadyRun at hadmitted
  rw [hbefore, Option.map_some, Option.some_inj, Prod.mk.injEq] at hadmitted
  obtain ⟨hdefinition, hwaiting⟩ := hadmitted
  obtain ⟨hrefuses, hsurvives⟩ := native_edits_survive rfl hbefore hnative hlater
    (by decide +kernel) fun t _ => ⟨trivial, trivial⟩
  obtain ⟨runtime, hruntime, hqueue⟩ := Option.map_eq_some_iff.mp hwaiting
  have hrenamed : before.definition ['p'] ≠ some renamedDefinition := by
    rw [hdefinition]
    decide
  obtain ⟨hworld, hsubentries, -⟩ := (hrefuses (fun _ => hrenamed) (by simp) final hbegin).1 0 .revert
    runtime rfl ((stored_native hnative).1.trans hruntime) (by rw [hqueue]; rfl)
  refine ⟨after, final, ?_, hbegin, hworld, hsubentries, hsurvives⟩
  exact Traces.after_append.mpr ⟨before, hbefore, Traces.after_cons.mpr ⟨after, hnative, rfl⟩⟩

/-- A native update of the name comes while a revert reads its source, which is gone. The revert
puts the name back. -/
theorem revert_overwrites_update :
    let moves := [.setup none, .request ['p'] .revert, .begin 0, .checked .done,
      .update ['p'] renamedDefinition]
    (steadyRun moves).map (·.stored ['p']) = some (some renamedDefinition) ∧
    (steadyRun (moves ++ [.loaded (.error (.patch ⟨.sourceUnavailable, .sourceError⟩)) .done,
      .saved true])).map (fun system => (system.stored ['p'], system.unlocked)) =
      some (some steadyDefinition.disarmed, true) := by
  decide +kernel

end System

end Hapatchy
