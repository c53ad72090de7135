import Hapatchy.ConfigFlow
import Hapatchy.Coordinator.Statuses
import Hapatchy.Validation.Specs

/-!
# What a save under the lock does

Each of its moves looks at files or stores a revision, and is then a move of
the system. While it holds the lock, no action touches a target.
-/

open Effects Prog

namespace Hapatchy

open Difflib (GroupedOpcodes)

variable {env : Env} {grouped : GroupedOpcodes} {reconciler : Reconciler} {network : Network}
  {w w' : World} {p : Path}

/-! ## Files -/

/-- Steps that look, verify or store a revision. -/
def Unobtrusive : Label → Prop
  | .call => True
  | .check _ => True
  | .verify => True
  | .edit p => Internal p
  | .sync _ => True
  | _ => False

theorem Publishes.unobtrusive {l : Label} (h : Publishes l) : Unobtrusive l := by
  cases l with
  | edit p => exact h
  | call => trivial
  | sync p => trivial
  | _ => exact h.elim

theorem NoEdit.unobtrusive {l : Label} (h : NoEdit l) : Unobtrusive l := by
  cases l with
  | call => trivial
  | check _ => trivial
  | verify => trivial
  | _ => exact h.elim

theorem Steps.unobtrusive_bytes (h : Steps env Unobtrusive w w') (hspares : env.Spares p)
    (hp : ¬ Internal p) : w'.fs.bytes p = w.fs.bytes p :=
  h.bytes hspares hp fun _ _ => False.elim

theorem does_checkDefinition_unobtrusive {policy : PathPolicy} {definition : PatchDefinition} :
    Does env Unobtrusive (policy.checkDefinition env definition) :=
  does_checkDefinition_noEdit.mono fun _ => NoEdit.unobtrusive

theorem does_loadPatch {L : Label → Prop} (hcall : L .call) {definition : PatchDefinition} :
    Does env L (loadPatch env network definition) := by
  have hfetches : Does env L (fetchSource env network definition) := does_fetchSource hcall
  intro w
  have hrun := hfetches w
  unfold loadPatch
  split
  rename_i out t hfetch
  rw [hfetch] at hrun
  exact hrun

theorem does_inspectTarget_unobtrusive {policy : PathPolicy} {fromstring : PatchEngine.Fromstring}
    {definition : PatchDefinition} {raw : Bytes} :
    FlowIo.Does env Unobtrusive (inspectTarget env policy fromstring definition raw) :=
  Runs.mono does_inspectTarget fun _ _ ⟨l, hl, hstep⟩ => ⟨l, (Looks.noEdit hl).unobtrusive, hstep⟩

theorem does_verifySaveTarget {definition : PatchDefinition} {flow : Flow env grouped reconciler} :
    FlowIo.Does env Unobtrusive (flow.verifySaveTarget definition) := by
  cases flow with
  | forms draft => exact runs_below does_checkDefinition_unobtrusive
  | editor edit =>
    exact Runs.mono does_verifyEditableSnapshot fun _ _ ⟨l, hl, hstep⟩ =>
      ⟨l, NoEdit.unobtrusive hl, hstep⟩

/-! ## The lock -/

namespace System

variable {system after : System} {runtime : PatchManagerRuntime} {held : Held}

/-- An action and a save do not have the lock at once. -/
def OneHolder (system : System) : Prop := system.saving.isSome → system.holder = none

theorem Concludes.saving {result : ReconcileResult} {update : Update}
    (h : Concludes env system runtime held result update after) : after.saving = system.saving := by
  cases h with
  | settled =>
    unfold settle
    split <;> rfl
  | _ => rfl

theorem Acts.saving {move : Hapatchy.Move} (h : Acts env reconciler system runtime held move after) :
    after.saving = system.saving := by
  cases h with
  | concluded _ hconcludes => exact hconcludes.saving
  | _ => rfl

/-- Only a save lets the lock go that a save has. -/
theorem saving_kept {move : Hapatchy.Move} (hmove : move.ofSave = false)
    (h : system.step env reconciler move = some after) : after.saving = system.saving := by
  cases moves h with
  | @began runtime index patchId action =>
    rcases begin_cases system runtime patchId action (runtime.waiting.eraseIdx index) with
      heq | ⟨held, heq, -⟩
    · rw [heq]
      rfl
    · rw [heq]
      rfl
  | acted _ _ hacts => exact hacts.saving
  | beside hbeside =>
    cases move with
    | save original definition =>
      cases h
      rfl
    | update patchId definition =>
      simp only [step] at h
      split at h
      · cases h
        rfl
      · cases h
    | remove patchId =>
      cases h
      rfl
    | setRetention retention =>
      cases h
      rfl
    | acquire index => cases hmove
    | drafted source => cases hmove
    | abandon => cases hmove
    | commit patchId => cases hmove
    | _ => exact hbeside.elim
  | _ => rfl

/-- While a save has the lock, no action touches a file. -/
theorem world_saving {move : Hapatchy.Move} (hsystem : system.OneHolder)
    (hsaving : system.saving.isSome) (h : system.step env reconciler move = some after) :
    after.world = system.world := by
  cases moves h with
  | began _ _ hunlocked =>
    rw [(holder_of_unlocked hunlocked).2] at hsaving
    cases hsaving
  | acted hruntime hheld =>
    have hnone := hsystem hsaving
    rw [holder_of_runtime hruntime, hheld] at hnone
    cases hnone
  | beside _ _ hworld => exact hworld
  | _ => rfl

theorem commit_saving {patchId : Text} (h : system.step env reconciler (.commit patchId) = some after) :
    after.saving = none := by
  obtain ⟨save, -, h⟩ := Option.bind_eq_some_iff.mp h
  split at h
  · cases h
  unfold commitSave at h
  cases horiginal : save.original with
  | some original =>
    simp only [horiginal] at h
    split at h <;> cases h <;> rfl
  | none =>
    simp only [horiginal] at h
    split at h
    · cases h
    · cases h
      rfl

theorem commit_world {patchId : Text} (h : system.step env reconciler (.commit patchId) = some after) :
    after.world = system.world := by
  cases moves h with
  | acted _ _ hacts =>
    cases hacts with
    | concluded hends => cases hends
    | raised hbreaks => cases hbreaks
  | beside _ _ hworld => exact hworld

theorem Changed.oneHolder {move : Hapatchy.Move} (h : Changed system move after)
    (hsystem : system.OneHolder) : after.OneHolder := by
  intro hsaving
  cases h with
  | quiet _ hsame _ hholder =>
    rw [hholder]
    exact hsystem (hsame ▸ hsaving)
  | began _ hunlocked _ hsame =>
    rw [hsame, (holder_of_unlocked hunlocked).2] at hsaving
    cases hsaving
  | acted hruntime hheld hacted =>
    rw [hacted.saving] at hsaving
    have hnone := hsystem hsaving
    rw [holder_of_runtime hruntime, hheld] at hnone
    cases hnone
  | closed _ _ hruntime =>
    unfold holder
    rw [hruntime]
    rfl
  | loaded _ _ hholder => exact hholder
  | acquired hunlocked _ hruntime =>
    exact (holder_congr hruntime).trans (holder_of_unlocked hunlocked).1
  | drafted hsave _ hruntime =>
    refine (holder_congr hruntime).trans (hsystem ?_)
    rw [hsave]
    rfl
  | ended _ _ hnone =>
    rw [hnone] at hsaving
    cases hsaving
  | committed _ _ hnone =>
    rw [hnone] at hsaving
    cases hsaving
  | updated hruntime hsame =>
    rw [holder_congr hruntime]
    exact hsystem (hsame ▸ hsaving)
  | removed hruntime hsame =>
    rw [holder_congr hruntime]
    exact hsystem (hsame ▸ hsaving)

end System

/-! ## What a save can do -/

namespace Session

variable {session after : Session env grouped reconciler}
  {publishing : Publishing env grouped reconciler} {save : Save}

/-- What is after an await. -/
inductive Advances (network : Network) (session : Session env grouped reconciler)
    (publishing : Publishing env grouped reconciler) (save : Save) :
    Session env grouped reconciler → Prop
  | ended {world : World} (steps : Steps env Unobtrusive session.system.world world) :
      Advances network session publishing save (session.inWorld world).finish
  | checked {original : PatchDefinition} {world : World}
      (await : publishing.await = .checking original)
      (run : reconciler.policy.checkDefinition env original session.system.world = (.ok (), world)) :
      Advances network session publishing save
        ((session.inWorld world).goOn publishing (.loading original))
  | loaded {original : PatchDefinition} {raw : Bytes} {world : World}
      (await : publishing.await = .loading original)
      (run : loadPatch env network original session.system.world = (.ok raw, world)) :
      Advances network session publishing save
        ((session.inWorld world).goOn publishing (.inspecting original raw))
  | inspected {original : PatchDefinition} {raw : Bytes} {result : PatchInspection} {world : World}
      (await : publishing.await = .inspecting original raw)
      (run : inspectTarget env reconciler.policy reconciler.fromstring original raw
        session.system.world = (.ok result, world))
      (unapplied : result.status ≠ .applied) :
      Advances network session publishing save ((session.inWorld world).goOn publishing .verifying)
  | verified {world : World} (await : publishing.await = .verifying)
      (run : publishing.flow.verifySaveTarget publishing.definition session.system.world =
        (.ok (), world)) :
      Advances network session publishing save ((session.inWorld world).goOn publishing
        (if publishing.definition.sourceType = "managed".toList then .storing else .reverifying))
  | stored {draft : Bytes} {source : Text} {world : World} (await : publishing.await = .storing)
      (drafted : publishing.flow.draft = some draft)
      (run : ManagedPatchStore.saveRevision env draft session.system.world = (.ok source, world)) :
      Advances network session publishing save
        ((session.inWorld world).drafted publishing save source)

theorem awaitJob_cases {α : Type} {m : FlowIo α} (session : Session env grouped reconciler)
    {next : α → Session env grouped reconciler → Session env grouped reconciler}
    (hdoes : FlowIo.Does env Unobtrusive m) :
    (∃ world, Steps env Unobtrusive session.system.world world ∧
        session.awaitJob m next = (session.inWorld world).finish) ∨
      ∃ a world, m session.system.world = (.ok a, world) ∧
        session.awaitJob m next = next a (session.inWorld world) := by
  unfold awaitJob
  split
  · rename_i a world hrun
    exact Or.inr ⟨a, world, hrun, rfl⟩
  · rename_i e world hrun
    exact Or.inl ⟨world, hdoes.of_eq hrun, rfl⟩

theorem proceed_advances (h : session.proceed network publishing save = some after) :
    Advances network session publishing save after := by
  have hended {world : World} (hsteps : Steps env Unobtrusive session.system.world world)
      (heq : after = (session.inWorld world).finish) : Advances network session publishing save after :=
    heq ▸ .ended hsteps
  unfold proceed at h
  cases hawait : publishing.await with
  | checking original =>
    simp only [hawait, Option.some.injEq] at h
    rcases awaitJob_cases session (runs_below does_checkDefinition_unobtrusive) with
      ⟨world, hsteps, heq⟩ | ⟨a, world, hrun, heq⟩
    · exact hended hsteps (h.symm.trans heq)
    · rw [← h, heq]
      exact .checked hawait (below_ok_iff.mp hrun)
  | loading original =>
    simp only [hawait, Option.some.injEq] at h
    rcases awaitJob_cases session (runs_below (does_loadPatch trivial)) with
      ⟨world, hsteps, heq⟩ | ⟨raw, world, hrun, heq⟩
    · exact hended hsteps (h.symm.trans heq)
    · rw [← h, heq]
      exact .loaded hawait (below_ok_iff.mp hrun)
  | inspecting original raw =>
    simp only [hawait, Option.some.injEq] at h
    rcases awaitJob_cases session does_inspectTarget_unobtrusive with
      ⟨world, hsteps, heq⟩ | ⟨result, world, hrun, heq⟩
    · exact hended hsteps (h.symm.trans heq)
    · rw [← h, heq]
      unfold sourceChecked
      split
      · exact .ended (does_inspectTarget_unobtrusive.of_eq hrun)
      · rename_i hunapplied
        exact .inspected hawait hrun (not_or.mp hunapplied).2
  | verifying =>
    simp only [hawait, Option.some.injEq] at h
    rcases awaitJob_cases session does_verifySaveTarget with
      ⟨world, hsteps, heq⟩ | ⟨a, world, hrun, heq⟩
    · exact hended hsteps (h.symm.trans heq)
    · rw [← h, heq]
      exact .verified hawait hrun
  | storing =>
    simp only [hawait] at h
    cases hdraft : publishing.flow.draft with
    | none =>
      rw [hdraft] at h
      cases h
      have hnone : Steps env Unobtrusive session.system.world session.system.world := .refl
      exact .ended hnone
    | some draft =>
      rw [hdraft] at h
      have hdoes : Does env Unobtrusive (ManagedPatchStore.saveRevision env draft) :=
        ManagedPatchStore.does_saveRevision.mono fun _ => Publishes.unobtrusive
      rcases awaitJob_cases session (runs_below hdoes) with
        ⟨world, hsteps, heq⟩ | ⟨source, world, hrun, heq⟩
      · exact hended hsteps ((Option.some_inj.mp h).symm.trans heq)
      · rw [← Option.some_inj.mp h, heq]
        exact .stored hawait hdraft (below_ok_iff.mp hrun)
  | reverifying =>
    simp only [hawait, reduceCtorEq] at h

/-- What `_save` does after its last await: it ends, or it publishes. -/
theorem publish_cases {patchId : Text} (h : session.step network (.publish patchId) = some after) :
    ∃ publishing save world, session.publishing = some publishing ∧
      session.system.saving = some save ∧ publishing.await = .reverifying ∧
      Steps env Unobtrusive session.system.world world ∧
      (after = (session.inWorld world).finish ∨
        (publishing.flow.verifySaveTarget publishing.definition session.system.world =
            (.ok (), world) ∧ after.publishing = none ∧
          (session.system.inWorld world).step env reconciler (.commit patchId) =
            some after.system)) := by
  obtain ⟨publishing, hpublishing, h⟩ := Option.bind_eq_some_iff.mp h
  obtain ⟨save, hsave, h⟩ := Option.bind_eq_some_iff.mp h
  split at h
  · cases h
  rename_i hawait
  split at h
  · rename_i e world hrun
    cases h
    exact ⟨publishing, save, world, hpublishing, hsave, not_not.mp hawait,
      does_verifySaveTarget.of_eq hrun, Or.inl rfl⟩
  · rename_i world hrun
    refine ⟨publishing, save, world, hpublishing, hsave, not_not.mp hawait,
      does_verifySaveTarget.of_eq hrun, ?_⟩
    unfold publish at h
    split at h
    · cases h
      exact Or.inl rfl
    · rename_i hopen
      have hopen : ¬ (!(session.system.inWorld world).guardOpen save) = true := hopen
      obtain ⟨system, hcommit, rfl⟩ := Option.map_eq_some_iff.mp h
      refine Or.inr ⟨hrun, rfl, ?_⟩
      change ((session.system.inWorld world).saving.bind fun save =>
        if !(session.system.inWorld world).guardOpen save then none
        else (session.system.inWorld world).commitSave save patchId) = some system
      have hsaving : (session.system.inWorld world).saving = some save := hsave
      rw [hsaving, Option.bind_some, if_neg hopen]
      exact hcommit

/-! ## Sessions over the system -/

/-- A session knows the save that has the lock. -/
structure Aligned (session : Session env grouped reconciler) : Prop where
  idle : session.publishing = none → session.system.saving = none
  saving : ∀ publishing, session.publishing = some publishing → ∃ save,
    session.system.saving = some save ∧ save.definition = publishing.definition ∧
      publishing.flow.fits save
  managed : ∀ publishing, session.publishing = some publishing → publishing.await = .storing →
    publishing.definition.sourceType = "managed".toList

/-- The moves of the system that a move of the session can be. -/
def Move.Makes : Move env grouped reconciler → Hapatchy.Move → Prop
  | .system move, move' => move.ofSave = false ∧ move' = move
  | .acquire index _, move' => move' = .acquire index
  | .proceed, move' => move' = .abandon ∨ ∃ source, move' = .drafted source
  | .publish patchId, move' => move' = .abandon ∨ move' = .commit patchId
  | .cancel, move' => move' = .abandon

theorem firstAwait_ne_storing : firstAwait save ≠ .storing := by
  unfold firstAwait
  split <;> exact Await.noConfusion

theorem finish_step (session : Session env grouped reconciler)
    (hsave : session.system.saving = some save) :
    session.system.step env reconciler .abandon = some session.finish.system := by
  change (session.system.saving.bind fun _ => some { session.system with saving := none }) = _
  rw [hsave]
  rfl

theorem fits_draft {definition : PatchDefinition} {flow : Flow env grouped reconciler} {draft : Bytes}
    (hfits : flow.fits save) (hdefinition : save.definition = definition)
    (hmanaged : definition.sourceType = "managed".toList) (hdraft : flow.draft = some draft) :
    env.sha256 draft = definition.source := by
  subst hdefinition
  cases flow with
  | forms draft' =>
    cases hdraft
    unfold Flow.fits at hfits
    rw [Bool.or_eq_true, decide_eq_true_eq] at hfits
    rcases hfits with hother | hdigest
    · exact absurd hmanaged hother
    · simpa using hdigest
  | editor edit =>
    cases hdraft
    unfold Flow.fits at hfits
    rw [Bool.and_eq_true, decide_eq_true_eq, decide_eq_true_eq] at hfits
    rw [hfits.2]
    rfl

/-- Storing the draft leaves the definition, which has its digest already. -/
theorem drafted_eq {draft : Bytes} {source : Text} {world : World}
    (hfits : publishing.flow.fits save) (hdefinition : save.definition = publishing.definition)
    (hmanaged : publishing.definition.sourceType = "managed".toList)
    (hdraft : publishing.flow.draft = some draft)
    (hrun : ManagedPatchStore.saveRevision env draft w = (.ok source, world)) :
    { save with definition := { save.definition with source := source } } = save := by
  have hsource : source = save.definition.source := by
    rw [ManagedPatchStore.saveRevision_ok hrun, hdefinition]
    exact fits_draft hfits hdefinition hmanaged hdraft
  rw [hsource]

theorem Advances.system (h : Advances network session publishing save after)
    (hsession : session.Aligned) (hpublishing : session.publishing = some publishing)
    (hsave : session.system.saving = some save) :
    ∃ world, Steps env Unobtrusive session.system.world world ∧
      (after.system = session.system.inWorld world ∧
          (∃ await, after.publishing = some { publishing with await := await } ∧
            (await = .storing → publishing.definition.sourceType = "managed".toList)) ∨
        after = (session.inWorld world).finish) := by
  obtain ⟨save', hsave', hdefinition, hfits⟩ := hsession.saving publishing hpublishing
  cases hsave.symm.trans hsave'
  cases h with
  | ended hsteps => exact ⟨_, hsteps, Or.inr rfl⟩
  | checked _ hrun =>
    exact ⟨_, does_checkDefinition_unobtrusive.of_eq hrun, Or.inl ⟨rfl, _, rfl, Await.noConfusion⟩⟩
  | loaded _ hrun =>
    exact ⟨_, (does_loadPatch trivial).of_eq hrun, Or.inl ⟨rfl, _, rfl, Await.noConfusion⟩⟩
  | inspected _ hrun =>
    exact ⟨_, does_inspectTarget_unobtrusive.of_eq hrun, Or.inl ⟨rfl, _, rfl, Await.noConfusion⟩⟩
  | verified _ hrun =>
    refine ⟨_, does_verifySaveTarget.of_eq hrun, Or.inl ⟨rfl, _, rfl, fun h => ?_⟩⟩
    split at h
    · assumption
    · cases h
  | stored hawait hdraft hrun =>
    have hmanaged := hsession.managed publishing hpublishing hawait
    refine ⟨_, (ManagedPatchStore.does_saveRevision.mono fun _ => Publishes.unobtrusive).of_eq hrun,
      Or.inl ⟨?_, _, rfl, Await.noConfusion⟩⟩
    change ({ session.system with world := _, saving := some _ } : System) = _
    rw [drafted_eq hfits hdefinition hmanaged hdraft hrun, ← hsave]
    rfl

/-- A move of a session looks at files or stores a revision. Then it is a move of the system, or the
save only awaits something else. -/
theorem step_refines {move : Move env grouped reconciler} (hsession : session.Aligned)
    (h : session.step network move = some after) :
    ∃ world, Steps env Unobtrusive session.system.world world ∧
      (after.system = session.system.inWorld world ∨ ∃ move', move.Makes move' ∧
        (session.system.inWorld world).step env reconciler move' = some after.system) := by
  cases move with
  | system move =>
    simp only [step] at h
    split at h
    · cases h
    · rename_i hmove
      obtain ⟨system, hstep, rfl⟩ := Option.map_eq_some_iff.mp h
      exact ⟨_, .refl, Or.inr ⟨move, ⟨Bool.eq_false_iff.mpr hmove, rfl⟩, hstep⟩⟩
  | acquire index flow =>
    obtain ⟨save, -, h⟩ := Option.bind_eq_some_iff.mp h
    split at h
    · cases h
    · obtain ⟨system, hstep, h⟩ := Option.bind_eq_some_iff.mp h
      cases h
      exact ⟨_, .refl, Or.inr ⟨_, rfl, hstep⟩⟩
  | proceed =>
    obtain ⟨publishing, hpublishing, h⟩ := Option.bind_eq_some_iff.mp h
    obtain ⟨save, hsave, h⟩ := Option.bind_eq_some_iff.mp h
    obtain ⟨world, hsteps, ⟨heq, -⟩ | rfl⟩ :=
      (proceed_advances h).system hsession hpublishing hsave
    · exact ⟨world, hsteps, Or.inl heq⟩
    · exact ⟨world, hsteps, Or.inr ⟨_, Or.inl rfl, finish_step (session.inWorld world) hsave⟩⟩
  | publish patchId =>
    obtain ⟨publishing, save, world, hpublishing, hsave, -, hsteps, rfl | ⟨-, -, hcommit⟩⟩ :=
      publish_cases h
    · exact ⟨world, hsteps, Or.inr ⟨_, Or.inl rfl, finish_step (session.inWorld world) hsave⟩⟩
    · exact ⟨world, hsteps, Or.inr ⟨_, Or.inr rfl, hcommit⟩⟩
  | cancel =>
    obtain ⟨publishing, hpublishing, h⟩ := Option.bind_eq_some_iff.mp h
    obtain ⟨save, hsave, -⟩ := hsession.saving publishing hpublishing
    cases h
    exact ⟨_, .refl, Or.inr ⟨_, rfl, finish_step session hsave⟩⟩

theorem step_aligned {move : Move env grouped reconciler} (hsession : session.Aligned)
    (h : session.step network move = some after) : after.Aligned := by
  have hover {system : System} (hsaving : system.saving = none) :
      (⟨system, none⟩ : Session env grouped reconciler).Aligned := by
    refine ⟨fun _ => hsaving, ?_, ?_⟩
    · intro publishing h
      cases h
    · intro publishing h
      cases h
  cases move with
  | system move =>
    simp only [step] at h
    split at h
    · cases h
    · rename_i hmove
      obtain ⟨system, hstep, rfl⟩ := Option.map_eq_some_iff.mp h
      have hsame : system.saving = session.system.saving :=
        System.saving_kept (Bool.eq_false_iff.mpr hmove) hstep
      refine ⟨fun hnone => hsame.trans (hsession.idle hnone), ?_, hsession.managed⟩
      intro publishing hpublishing
      rw [hsame]
      exact hsession.saving publishing hpublishing
  | acquire index flow =>
    obtain ⟨save, hwaits, h⟩ := Option.bind_eq_some_iff.mp h
    split at h
    · cases h
    rename_i hfits
    obtain ⟨system, hstep, h⟩ := Option.bind_eq_some_iff.mp h
    cases h
    obtain ⟨save', hwaits', hstep⟩ := Option.bind_eq_some_iff.mp hstep
    cases hwaits.symm.trans hwaits'
    split at hstep
    · cases hstep
    · cases hstep
      cases hcheck : session.system.checkSave save with
      | false => exact hover rfl
      | true =>
        refine ⟨?_, ?_, ?_⟩
        · intro hnone
          cases hnone
        · intro publishing hpublishing
          cases hpublishing
          exact ⟨save, rfl, rfl, by simpa using hfits⟩
        · intro publishing hpublishing hawait
          cases hpublishing
          exact absurd hawait firstAwait_ne_storing
  | proceed =>
    obtain ⟨publishing, hpublishing, h⟩ := Option.bind_eq_some_iff.mp h
    obtain ⟨save, hsave, h⟩ := Option.bind_eq_some_iff.mp h
    obtain ⟨world, -, ⟨heq, await, hafter, hmanaged⟩ | rfl⟩ :=
      (proceed_advances h).system hsession hpublishing hsave
    · refine ⟨?_, ?_, ?_⟩
      · intro hnone
        cases hafter.symm.trans hnone
      · intro publishing' h'
        cases hafter.symm.trans h'
        rw [heq]
        exact hsession.saving publishing hpublishing
      · intro publishing' h'
        cases hafter.symm.trans h'
        exact hmanaged
    · exact hover rfl
  | publish patchId =>
    obtain ⟨publishing, save, world, -, -, -, -, rfl | ⟨-, hnone, hcommit⟩⟩ := publish_cases h
    · exact hover rfl
    · obtain ⟨system, publishing'⟩ := after
      cases hnone
      exact hover (System.commit_saving hcommit)
  | cancel =>
    obtain ⟨publishing, -, h⟩ := Option.bind_eq_some_iff.mp h
    cases h
    exact hover rfl

end Session

end Hapatchy
