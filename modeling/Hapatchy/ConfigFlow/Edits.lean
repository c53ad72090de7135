import Hapatchy.ConfigFlow.Changes
import Hapatchy.Coordinator.Versions
import Hapatchy.PatchBuilder.Complete

/-!
# Edits

What the file editor has shown of a target and what was typed there are the
two versions of the patch that it publishes.
-/

open Effects Prog

namespace Hapatchy

open Difflib (GroupedOpcodes)
open PatchBuilder PatchEngine

variable {env : Env} {grouped : GroupedOpcodes} {reconciler : Reconciler} {network : Network}

/-! ## Drafts -/

namespace PatchBuilder

variable {fromstring : Fromstring} {original edited raw : Bytes} {before after target : Text}

/-- The loop returns no candidate that it has not checked. -/
theorem rounds_leads {fuel context : Nat} (h : rounds grouped fromstring original edited before after
    target fuel context = some (.ok raw)) :
    leadsThereAndBack fromstring original edited target raw = .ok true := by
  induction fuel generalizing context with
  | zero => cases h
  | succ fuel ih =>
    unfold rounds at h
    simp only at h
    split at h
    · cases h
    split at h
    · cases h
    · rename_i hleads
      cases h
      exact hleads
    · split at h
      · cases h
      · exact ih h

theorem buildPatch_leads (h : buildPatch grouped fromstring original edited target = some (.ok raw)) :
    leadsThereAndBack fromstring original edited target raw = .ok true := by
  unfold buildPatch at h
  split at h
  · cases h
  · exact rounds_leads h

end PatchBuilder

/-- The shown and the typed text are the two versions of the draft. -/
theorem Edit.versions (edit : Edit env grouped reconciler) :
    ∃ parsed, ∃ versions : Versions parsed,
      parse reconciler.fromstring edit.draft edit.definition.targetPath = .ok parsed ∧
        versions.original = edit.snapshot.data ∧ versions.patched = edit.edited := by
  obtain ⟨parsed, hparse, -, hforward, -, hreverse⟩ :=
    leadsThereAndBack_eq_true.mp (buildPatch_leads edit.built)
  exact ⟨parsed, ⟨edit.snapshot.data, edit.edited, hforward, hreverse⟩, hparse, rfl, rfl⟩

theorem Edit.edited_eq (edit : Edit env grouped reconciler) : edit.edited = Utf8.encode edit.text := by
  have hencoded := edit.encoded
  unfold encodeEditorInput at hencoded
  split at hencoded
  · cases hencoded
  · simp only at hencoded
    split at hencoded
    · cases hencoded
    · exact (Except.ok.inj hencoded).symm

/-! ## The patch of a stored definition -/

namespace System

variable {system after : System} {patchId : Text} {definition : PatchDefinition}

/-- The patch `patchId` is as `definition` says, and so are the actions on its target. -/
structure Bound (env : Env) (network : Network) (patchId : Text) (definition : PatchDefinition) (system : System) :
    Prop where
  exclusive : system.Exclusive
  provided : system.Provided env network
  stored : (system.stored patchId).map PatchDefinition.disarmed = some definition.disarmed
  pinned : ∀ held, system.holder = some held → held.definition.target = definition.target →
    held.definition.sourceSha256 = definition.sourceSha256

theorem Bound.inWorld {world : World} (h : system.Bound env network patchId definition) :
    (system.inWorld world).Bound env network patchId definition :=
  ⟨h.exclusive.inWorld, h.provided, h.stored, h.pinned⟩

/-- The only patch with the target of `definition` has its digest. -/
theorem Bound.digest {q : Text} {d : PatchDefinition} (h : system.Bound env network patchId definition)
    (hstored : system.stored q = some d) (htarget : d.target = definition.target) :
    d.sourceSha256 = definition.sourceSha256 := by
  obtain ⟨e, he, hsame⟩ := Option.map_eq_some_iff.mp h.stored
  have hpath : e.disarmed.targetPath = definition.disarmed.targetPath := by rw [hsame]
  have hdigest : e.disarmed.sourceSha256 = definition.disarmed.sourceSha256 := by rw [hsame]
  obtain rfl : q = patchId := by
    apply h.exclusive.unique q patchId d e hstored he
    exact (PatchDefinition.target_inj.mp htarget).trans hpath.symm
  cases hstored.symm.trans he
  exact hdigest

theorem Bound.pinned_step {move : Hapatchy.Move} (h : system.Bound env network patchId definition)
    (hstep : system.step env reconciler move = some after) :
    ∀ held, after.holder = some held → held.definition.target = definition.target →
      held.definition.sourceSha256 = definition.sourceSha256 := by
  intro held hheld htarget
  cases moves hstep with
  | @began runtime index q action =>
    rcases begin_cases system runtime q action (runtime.waiting.eraseIdx index) with
      heq | ⟨held', heq, -, -, hbegun⟩
    · rw [heq] at hheld
      cases hheld
    · rw [heq] at hheld
      cases hheld
      have hmatches := matchesEntry_of_validateCurrent hbegun.valid
      have hstored : system.stored held.patchId = some held.definition := by
        rw [← lookup_of_matchesEntry hmatches]
        exact hbegun.definition
      exact h.digest hstored htarget
  | acted hruntime hholder hacts =>
    have hsame := (hacts.follows.holder held hheld).2
    rw [hsame] at htarget ⊢
    exact h.pinned _ ((holder_of_runtime hruntime).trans hholder) htarget
  | request hruntime => exact h.pinned held ((holder_of_runtime hruntime).trans hheld) htarget
  | watched hruntime => exact h.pinned held ((holder_of_runtime hruntime).trans hheld) htarget
  | denied hruntime => exact h.pinned held ((holder_of_runtime hruntime).trans hheld) htarget
  | closing hruntime => exact h.pinned held ((holder_of_runtime hruntime).trans hheld) htarget
  | closed => cases hheld
  | loaded _ hmake =>
    have hnone := (make_eq hmake).1
    cases hnone.symm.trans hheld
  | beside _ hruntime =>
    rw [holder_congr hruntime] at hheld
    exact h.pinned held hheld htarget

theorem Bound.step {move : Hapatchy.Move} (h : system.Bound env network patchId definition)
    (hstep : system.step env reconciler move = some after)
    (hnative : ∀ p d, move ≠ .update p d) (hfetches : Fetches env network system move after)
    (hunedited : Unedited patchId system move after) : after.Bound env network patchId definition := by
  have hchanged := changed hstep
  refine ⟨hchanged.exclusive h.exclusive hnative, provided_step h.provided hstep hfetches, ?_,
    h.pinned_step hstep⟩
  rw [hchanged.disarmed h.exclusive.orderly hunedited]
  exact h.stored

/-- A pinned patch is always parsed as the source with its digest. -/
theorem Bound.sourced {move : Hapatchy.Move} {source : Bytes} {parsed : ParsedPatch}
    (h : system.Bound env network patchId definition) (hsha : Function.Injective env.sha256)
    (hdigest : definition.sourceSha256 = some (env.sha256 source))
    (hparse : parse reconciler.fromstring source definition.targetPath = .ok parsed) :
    Sourced reconciler definition.target parsed system move after := by
  intro held source' hheld hphase htarget parsed' hparsed
  obtain ⟨_, _, hfetch⟩ := h.provided held source' hheld hphase
  have hsupplied := fetchSource_ok hfetch
  have hpinned := (h.pinned held hheld htarget).trans hdigest
  obtain rfl : source' = source := hsha (hsupplied.pinned _ hpinned)
  rw [PatchDefinition.target_inj.mp htarget, hparse] at hparsed
  cases hparsed
  rfl

/-- The moves of a save leave the files alone. -/
theorem ofSave_world {move : Hapatchy.Move} (hmove : move.ofSave = true)
    (h : system.step env reconciler move = some after) : after.world = system.world := by
  cases moves h with
  | acted _ _ hacts =>
    cases hacts with
    | concluded hends => cases hends <;> cases hmove
    | raised hbreaks => cases hbreaks <;> cases hmove
    | _ => cases hmove
  | beside _ _ hworld => exact hworld
  | _ => cases hmove

theorem commit_runtime (h : system.step env reconciler (.commit patchId) = some after) :
    after.runtime = system.runtime := by
  cases moves h with
  | acted _ _ hacts =>
    cases hacts with
    | concluded hends => cases hends
    | raised hbreaks => cases hbreaks
  | beside _ hruntime => exact hruntime

theorem commit_new {save : Save} (hsave : system.saving = some save) (hnew : save.original = none)
    (h : system.step env reconciler (.commit patchId) = some after) :
    after.stored patchId = some { save.definition with patchId := patchId } := by
  obtain ⟨save', hsave', h⟩ := Option.bind_eq_some_iff.mp h
  cases hsave.symm.trans hsave'
  split at h
  · cases h
  unfold commitSave at h
  simp only [hnew] at h
  split at h
  · cases h
  · cases h
    exact AList.lookup_insert ..

end System

namespace Session

variable {session after : Session env grouped reconciler} {patchId : Text}
  {definition : PatchDefinition} {T : Path}

/-- Sources are what the client reads. -/
def Fetches (network : Network) (session : Session env grouped reconciler)
    (move : Move env grouped reconciler) (after : Session env grouped reconciler) : Prop :=
  ∀ move', move = .system move' → System.Fetches env network session.system move' after.system

/-- Nobody removes the patch `patchId` or publishes another definition of it. -/
def Unedited (patchId : Text) (session : Session env grouped reconciler)
    (move : Move env grouped reconciler) (after : Session env grouped reconciler) : Prop :=
  (∀ move', move = .system move' → System.Unedited patchId session.system move' after.system) ∧
    ∀ p, move = .publish p → after.system.stored patchId = session.system.stored patchId

/-- The action on `T` that has run, and whether its patch is applied by itself. -/
def ranAt (T : Path) (session : Session env grouped reconciler) :
    Move env grouped reconciler → Option (Bool × Action)
  | .system move => System.ranAt T session.system move
  | _ => none

/-- A save leaves the files of the user alone. -/
theorem step_steps {move : Move env grouped reconciler} (hsession : session.Aligned)
    (h : session.step network move = some after) (hmove : ∀ m, move ≠ .system m) :
    Steps env Unobtrusive session.system.world after.system.world := by
  obtain ⟨world, hsteps, heq | ⟨move', hmakes, hstep⟩⟩ := step_refines hsession h
  · rw [heq]
    exact hsteps
  · obtain ⟨hsave, -⟩ := hmakes.eq_or_ofSave.resolve_left (hmove move')
    rw [System.ofSave_world hsave hstep]
    exact hsteps

theorem step_bound {move : Move env grouped reconciler} (hsession : session.Aligned)
    (hbound : session.system.Bound env network patchId definition)
    (h : session.step network move = some after) (hflows : FlowsOnly session move after)
    (hfetches : Fetches network session move after) (hunedited : Unedited patchId session move after) :
    after.system.Bound env network patchId definition := by
  obtain ⟨world, -, heq | ⟨move', hmakes, hstep⟩⟩ := step_refines hsession h
  · rw [heq]
    exact hbound.inWorld
  · apply hbound.inWorld.step hstep (hmakes.not_update hflows)
    · rintro held out update hheld rfl
      obtain rfl | ⟨hsave, -⟩ := hmakes.eq_or_ofSave
      · exact hfetches _ rfl held out update hheld rfl
      · cases hsave
    · obtain rfl | ⟨hsave, hcommit⟩ := hmakes.eq_or_ofSave
      · exact hunedited.1 _ rfl
      · cases move' with
        | commit p => exact hunedited.2 p (hcommit p rfl)
        | update => cases hsave
        | remove => cases hsave
        | _ => trivial

/-- The save of an edit that publishes it finds the text in the target that the editor has shown. -/
theorem publish_edit {edit : Edit env grouped reconciler}
    {publishing : Publishing env grouped reconciler} (hsha : Function.Injective env.sha256)
    (hspares : env.Spares edit.definition.target) (hsession : session.Aligned) (hpublishing : session.publishing = some publishing)
    (hflow : publishing.flow = .editor edit)
    (h : session.step network (.publish patchId) = some after)
    (hpublished : after.system.stored patchId ≠ session.system.stored patchId) :
    after.system.world.fs.bytes edit.definition.target = some edit.snapshot.data ∧
      ¬ Internal edit.definition.target ∧ after.system.holder = session.system.holder ∧
      session.system.saving.isSome ∧
      after.system.stored patchId = some { edit.definition with patchId := patchId } := by
  obtain ⟨publishing', save, world, hpublishing', hsave, -, -, hafter⟩ := publish_cases h
  cases hpublishing.symm.trans hpublishing'
  rcases hafter with rfl | ⟨hverify, -, hcommit⟩
  · exact absurd rfl hpublished
  obtain ⟨save', hsave', hdefinition, hfits⟩ := hsession.saving publishing hpublishing
  cases hsave.symm.trans hsave'
  rw [hflow] at hverify hfits
  unfold Flow.fits at hfits
  rw [Bool.and_eq_true, decide_eq_true_eq, decide_eq_true_eq] at hfits
  obtain ⟨hnew, hedit⟩ := hfits
  rw [← hdefinition, hedit] at hverify
  obtain ⟨hbytes, hexternal⟩ := verifyEditableSnapshot_ok hspares hsha edit.read hverify
  have hsaving : (session.system.inWorld world).saving = some save := hsave
  have hstored := System.commit_new hsaving hnew hcommit
  rw [hedit] at hstored
  rw [System.commit_world hcommit]
  have hruntime := System.commit_runtime hcommit
  have hholder : after.system.holder = (session.system.inWorld world).holder :=
    System.holder_congr hruntime
  exact ⟨hbytes, hexternal, hholder, hsave ▸ rfl, hstored⟩

/-- A run of flows from an unloaded entry. -/
theorem reached_exclusive {start : Session env grouped reconciler}
    {moves : List (Move env grouped reconciler)} (hruntime : start.system.runtime = none)
    (hpublishing : start.publishing = none) (hsaving : start.system.saving = none)
    (hunique : start.system.UniqueTargets) (hflows : ∀ p d, .system (.update p d) ∉ moves)
    (hrun : Traces.after (step network) start moves = some session) :
    session.Aligned ∧ session.system.Exclusive :=
  Traces.invariant (I := fun session => session.Aligned ∧ session.system.Exclusive)
    (fun _ _ _ h hstep hflows => ⟨step_aligned h.1 hstep, exclusive_step h.1 h.2 hstep hflows⟩)
    ⟨idle_aligned hpublishing hsaving, idle_exclusive hruntime hsaving hunique⟩
    (every_flowsOnly hflows) hrun

section

variable (hcalm : env.Calm) (hsha : Function.Injective env.sha256)

include hcalm hsha

theorem holds_move {parsed : ParsedPatch} {versions : Versions parsed} {version : Version}
    {move : Move env grouped reconciler} (hleaves : env.Leaves T) (hexternal : ¬ Internal T)
    (hsession : session.Aligned) (hholds : System.Holds T versions session.system version)
    (h : session.step network move = some after)
    (hsourced : ∀ m, move = .system m →
      System.Sourced reconciler T parsed session.system m after.system) :
    System.Holds T versions after.system version ∨ ∃ ran, ranAt T session move = some ran ∧
      System.Holds T versions after.system (version.after ran.1 ran.2) := by
  by_cases hmove : ∃ m, move = .system m
  · obtain ⟨m, rfl⟩ := hmove
    simp only [step] at h
    split at h
    · cases h
    obtain ⟨system, hstep, rfl⟩ := Option.map_eq_some_iff.mp h
    exact System.holds_step hcalm hsha hleaves hexternal hholds hstep (hsourced m rfl)
  · have hsteps := step_steps hsession h fun m hm => hmove ⟨m, hm⟩
    exact Or.inl ((hsteps.unobtrusive_bytes hcalm.spares hexternal).trans hholds)

/-- The text that the editor has shown is in the target when the edit is published. In every run from
there without other programs, as long as nobody removes the patch or publishes another definition of it,
the target holds the shown text or the typed one, each as a whole: as the actions make it that have
taken their effect. -/
theorem edit_simulated {start published final : Session env grouped reconciler}
    {earlier later : List (Move env grouped reconciler)} {edit : Edit env grouped reconciler}
    (hleaves : env.Leaves edit.definition.target) (hruntime : start.system.runtime = none)
    (hpublishing : start.publishing = none) (hsaving : start.system.saving = none)
    (hunique : start.system.UniqueTargets)
    (hearlier : Traces.after (step network) start earlier = some session)
    (hflow : session.publishing.map Publishing.flow = some (.editor edit))
    (hpublish : session.step network (.publish patchId) = some published)
    (hpublished : published.system.stored patchId ≠ session.system.stored patchId)
    (hlater : Traces.after (step network) published later = some final)
    (hflows : ∀ p d, .system (.update p d) ∉ earlier ++ later)
    (hfetches : Traces.Every (step network) (Fetches network) published later)
    (hunedited : Traces.Every (step network) (Unedited patchId) published later) :
    ∃ parsed, ∃ versions : Versions parsed, versions.original = edit.snapshot.data ∧
      versions.patched = Utf8.encode edit.text ∧
      System.Holds edit.definition.target versions published.system .original ∧
      ∃ ran : List (Bool × Action),
        ran.Sublist (Traces.offers (step network) (ranAt edit.definition.target) published later) ∧
        System.Holds edit.definition.target versions final.system
          (ran.foldl (fun version x => version.after x.1 x.2) .original) := by
  obtain ⟨parsed, versions, hparse, horiginal, hpatched⟩ := edit.versions
  obtain ⟨publishing, hpublishing', hflow⟩ := Option.map_eq_some_iff.mp hflow
  have hbefore : ∀ p d, .system (.update p d) ∉ earlier := by
    intro p d h
    exact hflows p d (List.mem_append_left _ h)
  have hafter : ∀ p d, .system (.update p d) ∉ later := by
    intro p d h
    exact hflows p d (List.mem_append_right _ h)
  obtain ⟨hsession, hexclusive⟩ :=
    reached_exclusive hruntime hpublishing hsaving hunique hbefore hearlier
  obtain ⟨hbytes, hexternal, hholder, hlocked, hstored⟩ :=
    publish_edit hsha hcalm.spares hsession hpublishing' hflow hpublish hpublished
  have hnobody : published.system.holder = none := hholder.trans (hexclusive.orderly.alone hlocked)
  have haligned : published.Aligned := step_aligned hsession hpublish
  have hbound : published.system.Bound env network patchId { edit.definition with patchId := patchId } := by
    refine ⟨exclusive_step hsession hexclusive hpublish ?_, ?_, ?_, ?_⟩
    · intro p d h
      cases h
    · intro held source hheld
      cases hnobody.symm.trans hheld
    · rw [hstored]
      rfl
    · intro held hheld
      cases hnobody.symm.trans hheld
  have hholds : System.Holds edit.definition.target versions published.system .original := by
    unfold System.Holds Versions.bytes
    rw [horiginal]
    exact hbytes
  have hsourced : Traces.Every (step network) (fun session move after => session.Aligned ∧
      ∀ m, move = .system m → System.Sourced reconciler edit.definition.target parsed session.system m
        after.system) published later :=
    Traces.every_of_invariant
      (I := fun session => session.Aligned ∧
        session.system.Bound env network patchId { edit.definition with patchId := patchId })
      (fun _ _ _ h hstep hmeets => ⟨step_aligned h.1 hstep,
        step_bound h.1 h.2 hstep hmeets.1 hmeets.2.1 hmeets.2.2⟩)
      (fun _ _ _ h _ _ => ⟨h.1, fun _ _ => h.2.sourced hsha rfl hparse⟩) ⟨haligned, hbound⟩
      ((every_flowsOnly hafter).and (hfetches.and hunedited))
  refine ⟨parsed, versions, horiginal, hpatched.trans edit.edited_eq, hholds, ?_⟩
  exact Traces.simulated (R := fun session => System.Holds edit.definition.target versions session.system)
    (fun _ _ _ _ h hstep hsourced =>
      holds_move hcalm hsha hleaves hexternal hsourced.1 h hstep hsourced.2) hholds hsourced hlater

end

/-! ## One letter -/

def typedGrouped : GroupedOpcodes := fun _ _ _ => [[⟨.replace, 0, 1, 0, 1⟩]]

def typedDraft : Bytes :=
  Utf8.encode "--- a/f/g\n+++ b/f/g\n@@ -1 +1 @@\n-x\n+y\n".toList

/-- The draft has a digest that a revision can have. -/
def typedEnv : Env := { steadyEnv with
  sha256 := fun data =>
    if data = typedDraft then List.replicate 64 'a' else 'z' :: steadyEnv.sha256 data }

def typedEdit : Edit typedEnv typedGrouped (steadyReconciler exchangeHunks) where
  base := { steadyDefinition with sourceType := "managed".toList }
  snapshot :=
    let data := Utf8.encode "x\n".toList
    ⟨data, typedEnv.sha256 data, (steadyFile data).stat⟩
  text := "y\n".toList
  edited := Utf8.encode "y\n".toList
  draft := typedDraft
  managed := rfl
  read := rfl
  encoded := by decide +kernel
  built := by decide +kernel

def typedSession : Session typedEnv typedGrouped (steadyReconciler exchangeHunks) where
  system := {
    world := steadyWorld (Utf8.encode "x\n".toList)
    subentries := ∅
    backupRetention := 5 }

def typedMoves : List (Move typedEnv typedGrouped (steadyReconciler exchangeHunks)) :=
  [.system (.save none typedEdit.definition), .acquire 0 (.editor typedEdit), .proceed, .proceed]

/-- A setup, and an action that finds the draft in the managed store. -/
def loadingMoves : List (Move typedEnv typedGrouped (steadyReconciler exchangeHunks)) :=
  [.system (.setup none), .system (.request ['p'] .apply), .system (.begin 0),
    .system (.checked .done)]

def appliedMoves : List (Move typedEnv typedGrouped (steadyReconciler exchangeHunks)) :=
  loadingMoves ++ [.system (.loaded (.ok typedDraft) .done), .system (.ran .done)]

theorem typed_injective : Function.Injective typedEnv.sha256 := by
  intro a b h
  unfold typedEnv at h
  simp only at h
  split at h
  · split at h
    · simp only [*]
    · cases h
  · split at h
    · cases h
    · exact steady_injective (List.cons.inj h).2

theorem typed_leaves : typedEnv.Leaves typedEdit.definition.target :=
  ⟨Env.Calm.spares fun _ => rfl, System.steady_leaves.fresh⟩

theorem typed_unedited {published : Session typedEnv typedGrouped (steadyReconciler exchangeHunks)} :
    Traces.Every (step System.pinnedNetwork) (Unedited ['p']) published appliedMoves := by
  have hmoves : ∀ move ∈ appliedMoves, ∃ m, move = .system m ∧
      ∀ system after, System.Unedited ['p'] system m after := by
    simp [appliedMoves, loadingMoves, System.Unedited]
  apply Traces.every_of_mem
  intro move hmove session after
  obtain ⟨m, rfl, hunedited⟩ := hmoves move hmove
  refine ⟨?_, ?_⟩
  · rintro move' ⟨⟩
    exact hunedited _ _
  · rintro p ⟨⟩

theorem typed_fetches {published : Session typedEnv typedGrouped (steadyReconciler exchangeHunks)}
    (h : Traces.after (step System.pinnedNetwork) typedSession (typedMoves ++ [.publish ['p']]) =
      some published) :
    Traces.Every (step System.pinnedNetwork) (Fetches System.pinnedNetwork) published appliedMoves := by
  have hfetched : ((Traces.after (step System.pinnedNetwork) typedSession
      (typedMoves ++ [.publish ['p']])).map fun session => (fetchSource typedEnv System.pinnedNetwork
        { typedEdit.definition with patchId := ['p'] } session.system.world).1.toOption) =
      some (some typedDraft) := by decide +kernel
  have hloading : (Traces.after (step System.pinnedNetwork) typedSession
      (typedMoves ++ [.publish ['p']] ++ loadingMoves)).map (fun session =>
        session.system.holder.map Held.definition) =
      some (some { typedEdit.definition with patchId := ['p'] }) := by decide +kernel
  have hmoves : ∀ move ∈ loadingMoves, ∃ m, move = .system m ∧ ∀ out update, m ≠ .loaded out update := by
    simp [loadingMoves]
  refine Traces.every_append.mpr ⟨?_, fun session hsession next hnext => ⟨?_, fun _ _ => ⟨?_, trivial⟩⟩⟩
  · apply Traces.every_of_mem
    intro move hmove session after
    obtain ⟨m, rfl, hother⟩ := hmoves move hmove
    rintro move' ⟨⟩ held out update - hloaded
    exact absurd hloaded (hother out update)
  · intro move' heq held out update hheld hloaded
    cases heq
    cases hloaded
    rw [Traces.after_append.mpr ⟨published, h, hsession⟩, Option.map_some, Option.some_inj, hheld,
      Option.map_some, Option.some_inj] at hloading
    rw [h, Option.map_some, Option.some_inj] at hfetched
    rw [hloading]
    rcases hfetch : fetchSource typedEnv System.pinnedNetwork
      { typedEdit.definition with patchId := ['p'] } published.system.world with ⟨_ | source, w'⟩
    · rw [hfetch] at hfetched
      cases hfetched
    · rw [hfetch] at hfetched
      cases hfetched
      exact ⟨_, _, hfetch⟩
  · rintro move' ⟨⟩ held out update - ⟨⟩

theorem edit_simulated_typed : ∃ published final,
    Traces.after (step System.pinnedNetwork) typedSession (typedMoves ++ [.publish ['p']]) =
      some published ∧
    Traces.after (step System.pinnedNetwork) published appliedMoves = some final ∧
    final.system.world.fs.bytes typedEdit.definition.target = some (Utf8.encode "y\n".toList) ∧
    ∃ parsed, ∃ versions : Versions parsed, versions.original = Utf8.encode "x\n".toList ∧
      versions.patched = Utf8.encode "y\n".toList ∧
      System.Holds typedEdit.definition.target versions published.system .original ∧
      ∃ ran : List (Bool × Action),
        ran.Sublist (Traces.offers (step System.pinnedNetwork) (ranAt typedEdit.definition.target)
          published appliedMoves) ∧
        System.Holds typedEdit.definition.target versions final.system
          (ran.foldl (fun version x => version.after x.1 x.2) .original) := by
  have hrun : (Traces.after (step System.pinnedNetwork) typedSession
      (typedMoves ++ [.publish ['p']] ++ appliedMoves)).map (fun final =>
        final.system.world.fs.bytes typedEdit.definition.target) =
      some (some (Utf8.encode "y\n".toList)) := by decide +kernel
  have hflow : (Traces.after (step System.pinnedNetwork) typedSession typedMoves).map (fun session =>
      (session.publishing.map Publishing.flow, session.system.stored ['p'])) =
      some (some (.editor typedEdit), none) := by decide +kernel
  have hstored : (Traces.after (step System.pinnedNetwork) typedSession
      (typedMoves ++ [.publish ['p']])).map (fun session => (session.system.stored ['p']).isSome) =
      some true := by decide +kernel
  obtain ⟨final, hfinal, hbytes⟩ := Option.map_eq_some_iff.mp hrun
  obtain ⟨published, hpublished, hlater⟩ := Traces.after_append.mp hfinal
  obtain ⟨session, hsession, hlast⟩ := Traces.after_append.mp hpublished
  obtain ⟨published', hpublish, hend⟩ := Traces.after_cons.mp hlast
  cases hend
  rw [hsession, Option.map_some, Option.some_inj] at hflow
  obtain ⟨hflow, hnone⟩ := Prod.mk.inj hflow
  rw [hpublished, Option.map_some, Option.some_inj] at hstored
  refine ⟨published, final, hpublished, hlater, hbytes, ?_⟩
  apply edit_simulated (fun _ => rfl) typed_injective typed_leaves rfl rfl rfl _ hsession hflow
    hpublish _ hlater _ (typed_fetches hpublished) typed_unedited
  · intro p q d e hp
    cases hp
  · intro hsame
    rw [hsame, hnone] at hstored
    cases hstored
  · simp [typedMoves, appliedMoves, loadingMoves]

end Session

end Hapatchy
