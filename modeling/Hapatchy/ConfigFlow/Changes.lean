import Hapatchy.ConfigFlow.Steps
import Hapatchy.Coordinator.Flows
import Hapatchy.Coordinator.Sources

/-!
# Changes of a source or a target

A save that gives a patch another source or another target publishes it only
where the patch is not applied.
-/

open Effects Prog

namespace Hapatchy

open Difflib (GroupedOpcodes)
open PatchEngine (Fromstring)

variable {env : Env} {grouped : GroupedOpcodes} {reconciler : Reconciler} {network : Network}

/-- The client has read `raw` for the definition, when the files of the user were as in `fs`. -/
def ReadIn (env : Env) (network : Network) (definition : PatchDefinition) (raw : Bytes) (fs : Fs) :
    Prop :=
  ∃ w w', fetchSource env network definition w = (.ok raw, w') ∧
    ∀ p, ¬ Internal p → fs.bytes p = w.fs.bytes p

theorem ReadIn.congr {definition : PatchDefinition} {raw : Bytes} {fs fs' : Fs}
    (h : ReadIn env network definition raw fs)
    (hbytes : ∀ p, ¬ Internal p → fs'.bytes p = fs.bytes p) :
    ReadIn env network definition raw fs' := by
  obtain ⟨w, w', hfetch, hsame⟩ := h
  exact ⟨w, w', hfetch, fun p hp => (hbytes p hp).trans (hsame p hp)⟩

/-- The source of the patch has been read, and it is not applied in `fs`, where its target may be
missing. -/
def Unapplied (env : Env) (network : Network) (fromstring : Fromstring) (original : PatchDefinition)
    (fs : Fs) : Prop :=
  ∃ raw parsed, ReadIn env network original raw fs ∧
    PatchEngine.parse fromstring raw original.targetPath = .ok parsed ∧
    (fs.Missing original.target ∨ ∃ data, fs.bytes original.target = some data ∧
      (PatchEngine.inspect parsed data).status ≠ .applied)

theorem Fs.bytes_eq_none {fs : Fs} {p : Path} : fs.bytes p = none ↔ fs.lookup p = none :=
  Option.map_eq_none_iff

/-- It stays so while the files of the user stay as they are. -/
theorem Unapplied.congr {fromstring : Fromstring} {original : PatchDefinition} {fs fs' : Fs}
    (h : Unapplied env network fromstring original fs) (hexternal : ¬ Internal original.target)
    (hbytes : ∀ p, ¬ Internal p → fs'.bytes p = fs.bytes p) :
    Unapplied env network fromstring original fs' := by
  obtain ⟨raw, parsed, hread, hparse, hmissing | ⟨data, hdata, hstatus⟩⟩ := h
  · obtain ⟨q, hq, hnone⟩ := hmissing
    refine ⟨raw, parsed, hread.congr hbytes, hparse, Or.inl ⟨q, hq, ?_⟩⟩
    have hinternal : ¬ Internal q := fun h => hexternal (h.trans hq)
    rw [← Fs.bytes_eq_none, hbytes q hinternal, Fs.bytes_eq_none]
    exact hnone
  · refine ⟨raw, parsed, hread.congr hbytes, hparse, Or.inr ⟨data, ?_, hstatus⟩⟩
    rw [hbytes _ hexternal]
    exact hdata

namespace Session

variable {session after : Session env grouped reconciler}

/-- What a save has found out when it awaits `await`. -/
def Justified (env : Env) (network : Network) (reconciler : Reconciler) (fs : Fs) (save : Save) : Await → Prop
  | .checking original => changedFrom save = some original
  | .loading original => changedFrom save = some original
  | .inspecting original raw => changedFrom save = some original ∧
    ReadIn env network original raw fs
  | .verifying => ∀ original, changedFrom save = some original →
    ¬ Internal original.target ∧ Unapplied env network reconciler.fromstring original fs
  | .storing => ∀ original, changedFrom save = some original →
    ¬ Internal original.target ∧ Unapplied env network reconciler.fromstring original fs
  | .reverifying => ∀ original, changedFrom save = some original →
    ¬ Internal original.target ∧ Unapplied env network reconciler.fromstring original fs

theorem Justified.congr {fs fs' : Fs} {save : Save} {await : Await}
    (h : Justified env network reconciler fs save await)
    (hbytes : ∀ p, ¬ Internal p → fs'.bytes p = fs.bytes p) :
    Justified env network reconciler fs' save await := by
  have hkept (h : ∀ original, changedFrom save = some original →
      ¬ Internal original.target ∧ Unapplied env network reconciler.fromstring original fs) :
      ∀ original, changedFrom save = some original →
        ¬ Internal original.target ∧ Unapplied env network reconciler.fromstring original fs' := by
    intro original horiginal
    obtain ⟨hexternal, hunapplied⟩ := h original horiginal
    exact ⟨hexternal, hunapplied.congr hexternal hbytes⟩
  cases await with
  | checking original => exact h
  | loading original => exact h
  | inspecting original raw => exact ⟨h.1, h.2.congr hbytes⟩
  | verifying => exact hkept h
  | storing => exact hkept h
  | reverifying => exact hkept h

theorem justified_firstAwait {fs : Fs} {save : Save} :
    Justified env network reconciler fs save (firstAwait save) := by
  unfold firstAwait
  cases hchanged : changedFrom save with
  | none =>
    intro original horiginal
    cases hchanged.symm.trans horiginal
  | some original => exact hchanged

structure Cautious (network : Network) (session : Session env grouped reconciler) : Prop where
  aligned : session.Aligned
  alone : session.system.OneHolder
  justified : ∀ publishing save, session.publishing = some publishing →
    session.system.saving = some save →
    Justified env network reconciler session.system.world.fs save publishing.await

theorem loadPatch_ok {definition : PatchDefinition} {raw : Bytes} {w w' : World}
    (h : loadPatch env network definition w = (.ok raw, w')) :
    fetchSource env network definition w = (.ok raw, w') := by
  unfold loadPatch at h
  split at h
  rename_i out t hfetch
  obtain ⟨hload, rfl⟩ := Prod.mk.inj h
  rw [System.loadSource_ok hload] at hfetch
  exact hfetch

/-! ## Runs -/

section

variable (hcalm : env.Calm)

include hcalm

/-- What a save awaits next is justified by what it has awaited. -/
theorem Advances.justified (hhonest : env.Honest)
    {publishing : Publishing env grouped reconciler} {save : Save}
    (h : Advances network session publishing save after)
    (hjustified : Justified env network reconciler session.system.world.fs save publishing.await)
    (hsave : after.system.saving = some save) :
    ∀ publishing', after.publishing = some publishing' →
      Justified env network reconciler after.system.world.fs save publishing'.await := by
  -- Only looks, and revisions that are stored, come between.
  have hkept {world : World} (hsteps : Steps env Unobtrusive session.system.world world) :
      ∀ p, ¬ Internal p → world.fs.bytes p = session.system.world.fs.bytes p :=
    fun p hp => hsteps.unobtrusive_bytes hcalm.spares hp
  intro publishing' hpublishing'
  cases h with
  | ended => cases hpublishing'
  | checked hawait =>
    cases hpublishing'
    rw [hawait] at hjustified
    exact hjustified
  | @loaded original _ _ hawait hrun =>
    cases hpublishing'
    rw [hawait] at hjustified
    have hloads : Does env Unobtrusive (loadPatch env network original) := does_loadPatch trivial
    exact ⟨hjustified, _, _, loadPatch_ok hrun, hkept (hloads.of_eq hrun)⟩
  | @inspected original raw result world hawait hrun hstatus =>
    cases hpublishing'
    rw [hawait] at hjustified
    obtain ⟨hchanged, hread⟩ := hjustified
    intro original' horiginal'
    cases hchanged.symm.trans horiginal'
    obtain ⟨hexternal, parsed, hparse, hfound⟩ := inspectTarget_ok hcalm.spares hrun
    refine ⟨hexternal, raw, parsed,
      hread.congr (hkept (does_inspectTarget_unobtrusive.of_eq hrun)), hparse, ?_⟩
    rcases hfound with ⟨data, hdata, rfl⟩ | ⟨-, hmissing⟩
    · exact Or.inr ⟨data, hdata, hstatus⟩
    · exact Or.inl (hmissing hcalm hhonest)
  | verified hawait hrun =>
    cases hpublishing'
    rw [hawait] at hjustified
    have hlater := Justified.congr hjustified (hkept (does_verifySaveTarget.of_eq hrun))
    simp only
    split
    · exact hlater
    · exact hlater
  | stored hawait hdraft hrun =>
    cases hpublishing'
    rw [hawait] at hjustified
    exact Justified.congr hjustified (hkept
      ((ManagedPatchStore.does_saveRevision.mono fun _ => Publishes.unobtrusive).of_eq hrun))

theorem cautious_step (hhonest : env.Honest) {move : Move env grouped reconciler}
    (hsession : session.Cautious network) (h : session.step network move = some after) : after.Cautious network := by
  have haligned := step_aligned hsession.aligned h
  have halone : after.system.OneHolder := by
    obtain ⟨world, -, heq | ⟨move', -, hstep⟩⟩ := step_refines hsession.aligned h
    · rw [heq]
      exact hsession.alone
    · exact (System.changed hstep).oneHolder hsession.alone
  refine ⟨haligned, halone, ?_⟩
  intro publishing' save' hpublishing' hsave'
  cases move with
  | system move =>
    simp only [step] at h
    split at h
    · cases h
    · rename_i hmove
      obtain ⟨system, hstep, rfl⟩ := Option.map_eq_some_iff.mp h
      have hsaving : system.saving = session.system.saving :=
        System.saving_kept (Bool.eq_false_iff.mpr hmove) hstep
      have hsave : session.system.saving = some save' := hsaving.symm.trans hsave'
      have hworld : system.world = session.system.world :=
        System.world_saving hsession.alone (hsave ▸ rfl) hstep
      have hjustified := hsession.justified publishing' save' hpublishing' hsave
      change Justified env network reconciler system.world.fs save' publishing'.await
      rw [hworld]
      exact hjustified
  | acquire index flow =>
    obtain ⟨save, -, h⟩ := Option.bind_eq_some_iff.mp h
    split at h
    · cases h
    obtain ⟨system, -, h⟩ := Option.bind_eq_some_iff.mp h
    cases h
    obtain ⟨save, hsave, rfl⟩ := Option.map_eq_some_iff.mp hpublishing'
    cases hsave.symm.trans hsave'
    exact justified_firstAwait
  | proceed =>
    obtain ⟨publishing, hpublishing, h⟩ := Option.bind_eq_some_iff.mp h
    obtain ⟨save, hsave, h⟩ := Option.bind_eq_some_iff.mp h
    have hadvances := proceed_advances h
    obtain ⟨world, -, ⟨heq, -⟩ | rfl⟩ := hadvances.system hsession.aligned hpublishing hsave
    · have hsame : after.system.saving = some save := by
        rw [heq]
        exact hsave
      obtain rfl : save = save' := Option.some_inj.mp (hsame.symm.trans hsave')
      exact hadvances.justified hcalm hhonest (hsession.justified publishing save hpublishing hsave)
        hsame publishing' hpublishing'
    · cases hpublishing'
  | publish patchId =>
    obtain ⟨publishing, save, world, -, -, -, -, rfl | ⟨-, hnone, -⟩⟩ := publish_cases h
    · cases hpublishing'
    · cases hnone.symm.trans hpublishing'
  | cancel =>
    obtain ⟨publishing, -, h⟩ := Option.bind_eq_some_iff.mp h
    cases h
    cases hpublishing'

/-- A save publishes another source or target only where the patch of its flow is not applied. -/
theorem publish_unapplied {patchId : Text} {save : Save} {original : PatchDefinition}
    (hsession : session.Cautious network) (h : session.step network (.publish patchId) = some after)
    (hsave : session.system.saving = some save) (hchanged : changedFrom save = some original) :
    Unapplied env network reconciler.fromstring original after.system.world.fs := by
  obtain ⟨publishing, save', world, hpublishing, hsave', hawait, hsteps, hafter⟩ := publish_cases h
  cases hsave.symm.trans hsave'
  have hjustified := hsession.justified publishing save hpublishing hsave
  rw [hawait] at hjustified
  obtain ⟨hexternal, hunapplied⟩ := hjustified original hchanged
  have hworld : after.system.world = world := by
    rcases hafter with rfl | ⟨-, -, hcommit⟩
    · rfl
    · exact System.commit_world hcommit
  rw [hworld]
  exact hunapplied.congr hexternal fun p hp => hsteps.unobtrusive_bytes hcalm.spares hp

end

/-! ## Stored definitions -/

end Session

/-- What a patch is made of, and where it belongs. -/
def PatchDefinition.origin (definition : PatchDefinition) : Text × Text × Text :=
  (definition.sourceType, definition.source, definition.targetPath)

namespace System

variable {system after : System}

theorem Exclusive.inWorld {world : World} (h : system.Exclusive) : (system.inWorld world).Exclusive :=
  ⟨⟨h.orderly.alone, h.orderly.current⟩, h.unique, fun save hsave =>
    ⟨(h.vetted save hsave).original, (h.vetted save hsave).target⟩⟩

/-- Only a commit or a native update gives a patch another source or target. -/
theorem Changed.origin {move : Move} {patchId : Text} {d e : PatchDefinition}
    (h : Changed system move after) (hsystem : system.Orderly) (hcommit : ∀ p, move ≠ .commit p)
    (hnative : ∀ p d, move ≠ .update p d) (hd : system.stored patchId = some d)
    (he : after.stored patchId = some e) : e.origin = d.origin := by
  have hsame (hsubentries : after.subentries = system.subentries) : e.origin = d.origin := by
    rw [stored_congr hsubentries, hd] at he
    rw [Option.some_inj.mp he]
  cases h with
  | quiet hsubentries => exact hsame hsubentries
  | began _ _ hsubentries => exact hsame hsubentries
  | acted hruntime hheld hacted =>
    obtain ⟨-, runtime', -, -, hquiet | hwrote⟩ := hacted
    · exact hsame hquiet.1
    · rename_i runtime held
      obtain ⟨previous, hprevious, hwritten, hother⟩ := hwrote.stored hsystem hruntime hheld
      by_cases hpatch : patchId = held.patchId
      · subst hpatch
        cases hprevious.symm.trans hd
        cases hwritten.symm.trans he
        rfl
      · rw [hother patchId hpatch, hd] at he
        rw [Option.some_inj.mp he]
  | closed hsubentries => exact hsame hsubentries
  | loaded hsubentries => exact hsame hsubentries
  | acquired _ hsubentries => exact hsame hsubentries
  | drafted _ hsubentries => exact hsame hsubentries
  | ended hsubentries => exact hsame hsubentries
  | committed => exact absurd rfl (hcommit _)
  | updated => exact absurd rfl (hnative _ _)
  | @removed gone _ _ _ hsubentries =>
    unfold stored at hd he
    rw [hsubentries] at he
    by_cases hpatch : patchId = gone
    · subst hpatch
      rw [AList.lookup_erase] at he
      cases he
    · rw [AList.lookup_erase_ne hpatch, hd] at he
      rw [Option.some_inj.mp he]

/-- A commit that gives a patch another source or target is of the definition that was stored. -/
theorem commit_changed {patchId q : Text} {d e : PatchDefinition} {save : Save}
    (hsystem : system.Exclusive) (hsave : system.saving = some save)
    (h : system.step env reconciler (.commit patchId) = some after) (hd : system.stored q = some d)
    (he : after.stored q = some e) (hchanged : e.origin ≠ d.origin) :
    changedFrom save = some d := by
  have hother (hsame : after.stored q = system.stored q) : changedFrom save = some d := by
    rw [hsame, hd] at he
    rw [Option.some_inj.mp he] at hchanged
    exact absurd rfl hchanged
  obtain ⟨save', hsave', h⟩ := Option.bind_eq_some_iff.mp h
  cases hsave.symm.trans hsave'
  split at h
  · cases h
  unfold commitSave at h
  cases horiginal : save.original with
  | none =>
    simp only [horiginal] at h
    split at h
    · cases h
    rename_i habsent
    cases h
    have hne : q ≠ patchId := by
      rintro rfl
      exact habsent (AList.lookup_isSome.mp (by rw [stored] at hd; rw [hd]; rfl))
    exact hother (AList.lookup_insert_ne hne)
  | some original =>
    simp only [horiginal] at h
    split at h
    · cases h
      exact hother rfl
    cases h
    by_cases hq : q = original.patchId
    · subst hq
      obtain hnone | hstored := (hsystem.vetted save hsave).original original horiginal
      · cases hnone.symm.trans hd
      cases hstored.symm.trans hd
      unfold stored at he
      rw [AList.lookup_insert] at he
      cases he
      unfold changedFrom
      rw [horiginal, Option.filter_some_pos]
      exact decide_eq_true hchanged
    · exact hother (AList.lookup_insert_ne hq)

end System

namespace Session

variable {session after : Session env grouped reconciler}

/-- A patch gets another source or another target only where it is not applied. -/
def Reverted (network : Network) (session : Session env grouped reconciler) (_move : Move env grouped reconciler)
    (after : Session env grouped reconciler) : Prop :=
  ∀ patchId d e, session.system.stored patchId = some d → after.system.stored patchId = some e →
    e.origin ≠ d.origin → Unapplied env network reconciler.fromstring d after.system.world.fs

/-- Home Assistant updates no subentry by itself. -/
def FlowsOnly (_session : Session env grouped reconciler) (move : Move env grouped reconciler)
    (_after : Session env grouped reconciler) : Prop := ∀ p d, move ≠ .system (.update p d)

/-- What a move makes of the system is that move, or a step of the save. -/
theorem Move.Makes.eq_or_ofSave {move : Move env grouped reconciler} {move' : Hapatchy.Move}
    (h : move.Makes move') : move = .system move' ∨
      (move'.ofSave = true ∧ ∀ patchId, move' = .commit patchId → move = .publish patchId) := by
  cases move with
  | system move => exact Or.inl (congrArg _ h.2.symm)
  | acquire index =>
    obtain rfl : move' = .acquire index := h
    exact Or.inr ⟨rfl, fun _ => Hapatchy.Move.noConfusion⟩
  | proceed =>
    rcases h with rfl | ⟨source, rfl⟩
    · exact Or.inr ⟨rfl, fun _ => Hapatchy.Move.noConfusion⟩
    · exact Or.inr ⟨rfl, fun _ => Hapatchy.Move.noConfusion⟩
  | publish patchId =>
    rcases h with rfl | rfl
    · exact Or.inr ⟨rfl, fun _ => Hapatchy.Move.noConfusion⟩
    · refine Or.inr ⟨rfl, ?_⟩
      rintro _ ⟨⟩
      rfl
  | cancel =>
    obtain rfl : move' = .abandon := h
    exact Or.inr ⟨rfl, fun _ => Hapatchy.Move.noConfusion⟩

theorem Move.Makes.not_update {move : Move env grouped reconciler} {move' : Hapatchy.Move}
    (h : move.Makes move') (hflows : ∀ p d, move ≠ .system (.update p d)) :
    ∀ p d, move' ≠ .update p d := by
  rintro p d rfl
  obtain hsystem | ⟨hsave, -⟩ := h.eq_or_ofSave
  · exact hflows p d hsystem
  · cases hsave

theorem exclusive_step {move : Move env grouped reconciler} (haligned : session.Aligned)
    (hsession : session.system.Exclusive) (h : session.step network move = some after)
    (hflows : FlowsOnly session move after) : after.system.Exclusive := by
  obtain ⟨world, -, heq | ⟨move', hmakes, hstep⟩⟩ := step_refines haligned h
  · rw [heq]
    exact hsession.inWorld
  · exact (System.changed hstep).exclusive hsession.inWorld (hmakes.not_update hflows)

theorem reverted_step (hcalm : env.Calm) {move : Move env grouped reconciler}
    (hsession : session.Cautious network) (hexclusive : session.system.Exclusive)
    (h : session.step network move = some after) (hflows : FlowsOnly session move after) :
    session.Reverted network move after := by
  intro q d e hd he hchanged
  have hsame (hstored : after.system.stored q = session.system.stored q) :
      Unapplied env network reconciler.fromstring d after.system.world.fs := by
    rw [hstored, hd] at he
    rw [Option.some_inj.mp he] at hchanged
    exact absurd rfl hchanged
  by_cases hpublish : ∃ patchId, move = .publish patchId
  · obtain ⟨patchId, rfl⟩ := hpublish
    obtain ⟨publishing, save, world, -, hsave, -, -, rfl | ⟨-, -, hcommit⟩⟩ := publish_cases h
    · exact hsame rfl
    · have hinWorld : (session.system.inWorld world).Exclusive := hexclusive.inWorld
      apply publish_unapplied hcalm hsession h hsave
      exact System.commit_changed hinWorld hsave hcommit hd he hchanged
  · obtain ⟨world, -, heq | ⟨move', hmakes, hstep⟩⟩ := step_refines hsession.aligned h
    · apply hsame
      rw [heq]
      rfl
    · refine absurd ((System.changed hstep).origin hexclusive.inWorld.orderly ?_
        (hmakes.not_update hflows) hd he) hchanged
      rintro p rfl
      obtain rfl | ⟨-, hcommit⟩ := hmakes.eq_or_ofSave
      · cases hmakes.1
      · exact hpublish ⟨p, hcommit p rfl⟩

theorem idle_aligned (hpublishing : session.publishing = none)
    (hsaving : session.system.saving = none) : session.Aligned := by
  refine ⟨fun _ => hsaving, ?_, ?_⟩
  · intro publishing h
    cases hpublishing.symm.trans h
  · intro publishing h
    cases hpublishing.symm.trans h

theorem idle_exclusive (hruntime : session.system.runtime = none)
    (hsaving : session.system.saving = none) (hunique : session.system.UniqueTargets) :
    session.system.Exclusive := by
  have hholder : session.system.holder = none := by
    unfold System.holder
    rw [hruntime]
    rfl
  refine ⟨System.orderly_of_none hholder, hunique, ?_⟩
  intro save hsave
  cases hsaving.symm.trans hsave

theorem every_flowsOnly {moves : List (Move env grouped reconciler)}
    (hflows : ∀ p d, .system (.update p d) ∉ moves) :
    Traces.Every (Session.step network) FlowsOnly session moves := by
  apply Traces.every_of_mem
  rintro move hmove _ _ p d rfl
  exact hflows p d hmove

/-- In every run without other programs and without native updates, no patch gets another source or
another target while it is applied. -/
theorem applied_unchanged {moves : List (Move env grouped reconciler)} (hcalm : env.Calm)
    (hhonest : env.Honest) (hruntime : session.system.runtime = none)
    (hpublishing : session.publishing = none) (hsaving : session.system.saving = none)
    (hunique : session.system.UniqueTargets)
    (hflows : ∀ p d, .system (.update p d) ∉ moves) :
    Traces.Every (Session.step network) (Reverted network) session moves := by
  have hexclusive := idle_exclusive hruntime hsaving hunique
  have hcautious : session.Cautious network := by
    refine ⟨idle_aligned hpublishing hsaving, hexclusive.orderly.alone, ?_⟩
    intro publishing save h
    cases hpublishing.symm.trans h
  exact Traces.every_of_invariant (I := fun session => session.Cautious network ∧ session.system.Exclusive)
    (fun _ _ _ h hstep hflows => ⟨cautious_step hcalm hhonest h.1 hstep,
      exclusive_step h.1.aligned h.2 hstep hflows⟩)
    (fun _ _ _ h hstep hflows => reverted_step hcalm h.1 h.2 hstep hflows) ⟨hcautious, hexclusive⟩
    (every_flowsOnly hflows)

/-! ## Another address -/

theorem uniqueTargets_singleton {system : System} {patchId : Text} {definition : PatchDefinition}
    (h : system.subentries = AList.singleton patchId definition) : system.UniqueTargets := by
  have honly {q : Text} {d : PatchDefinition} (hq : system.stored q = some d) : q = patchId := by
    unfold System.stored at hq
    rw [h] at hq
    have hmem := AList.mem_lookup_iff.mp hq
    cases hmem with
    | head => rfl
    | tail _ hmem => cases hmem
  intro p q d e hp hq _
  rw [honly hp, honly hq]

/-- A patch of which the flow has another address, with the same digest. -/
def movedDefinition : PatchDefinition :=
  { System.pinnedDefinition with source := "https://example.org/q".toList }

def pinnedSession : Session steadyEnv (fun _ _ _ => []) (steadyReconciler exchangeHunks) :=
  ⟨System.pinnedSystem, none⟩

def movedMoves : List (Move steadyEnv (fun _ _ _ => []) (steadyReconciler exchangeHunks)) :=
  [.system (.setup none), .system (.save (some System.pinnedDefinition) movedDefinition),
    .acquire 0 (.forms none), .proceed, .proceed, .proceed, .proceed, .publish []]

theorem applied_unchanged_moved : ∃ after,
    Traces.after (step System.pinnedNetwork) pinnedSession movedMoves = some after ∧
    after.system.stored ['p'] = some movedDefinition ∧
    Traces.Every (step System.pinnedNetwork) (Reverted System.pinnedNetwork) pinnedSession movedMoves := by
  have hrun : (Traces.after (step System.pinnedNetwork) pinnedSession movedMoves).map
      (fun after => after.system.stored ['p']) = some (some movedDefinition) := by decide +kernel
  obtain ⟨after, hafter, hstored⟩ := Option.map_eq_some_iff.mp hrun
  refine ⟨after, hafter, hstored, ?_⟩
  apply applied_unchanged (fun _ => rfl) _ rfl rfl rfl (uniqueTargets_singleton rfl)
  · simp [movedMoves]
  · intro n fault h
    cases h

end Session

end Hapatchy
