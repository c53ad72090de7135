import Hapatchy.Coordinator.NativeEdits

/-!
# Patch flows

A save checks the entry under the operation lock and publishes before it lets
it go. Nobody else edits a subentry meanwhile, but it may be removed.
-/

open Effects Prog

namespace Hapatchy

variable {env : Env} {reconciler : Reconciler}

namespace System

variable {system after : System} {move : Move}

/-- No two patches have the same target, be they enabled or not. -/
def UniqueTargets (system : System) : Prop :=
  ∀ p q d e, system.stored p = some d → system.stored q = some e → d.targetPath = e.targetPath →
    p = q

/-- What the save has been checked against still holds, if its subentry is there. -/
structure Vetted (system : System) (save : Save) : Prop where
  original : ∀ original, save.original = some original →
    system.stored original.patchId = none ∨ system.stored original.patchId = some original
  target : ∀ q d, system.stored q = some d → some q ≠ save.original.map PatchDefinition.patchId →
    d.targetPath ≠ save.definition.targetPath

structure Exclusive (system : System) : Prop where
  orderly : system.Orderly
  unique : system.UniqueTargets
  vetted : ∀ save, system.saving = some save → system.Vetted save

/-- A save that reconfigures a subentry finds it as its flow has found it. -/
def Reconfigures (system : System) (move : Move) (_after : System) : Prop :=
  ∀ patchId save original, move = .commit patchId → system.saving = some save →
    save.original = some original → original.patchId ∈ system.subentries →
    system.stored original.patchId = some original

/-! ## Checks -/

theorem UniqueTargets.congr (h : system.UniqueTargets) (hstored : after.stored = system.stored) :
    after.UniqueTargets := by
  unfold UniqueTargets
  rw [hstored]
  exact h

theorem Vetted.congr {save : Save} (h : system.Vetted save) (hstored : after.stored = system.stored) :
    after.Vetted save := by
  constructor
  · rw [hstored]
    exact h.original
  · rw [hstored]
    exact h.target

/-- A definition with a target that nobody else has. -/
theorem UniqueTargets.insert {patchId : Text} {definition : PatchDefinition}
    (h : system.UniqueTargets) (hpatch : after.stored patchId = some definition)
    (hother : ∀ q, q ≠ patchId → after.stored q = system.stored q)
    (hfree : ∀ q d, q ≠ patchId → system.stored q = some d → d.targetPath ≠ definition.targetPath) :
    after.UniqueTargets := by
  intro p q d e hp hq htarget
  by_cases hpp : p = patchId
  · by_cases hqp : q = patchId
    · rw [hpp, hqp]
    · rw [hpp, hpatch] at hp
      cases hp
      rw [hother q hqp] at hq
      exact absurd htarget.symm (hfree q e hqp hq)
  · rw [hother p hpp] at hp
    by_cases hqp : q = patchId
    · rw [hqp, hpatch] at hq
      cases hq
      exact absurd htarget (hfree p d hpp hp)
    · rw [hother q hqp] at hq
      exact h p q d e hp hq htarget

theorem vetted_of_checkSave {save : Save} (h : system.checkSave save) : system.Vetted save := by
  unfold checkSave at h
  rw [Bool.and_eq_true, Bool.and_eq_true, Bool.and_eq_true] at h
  obtain ⟨⟨-, horiginal⟩, htarget⟩ := h
  constructor
  · intro original hsave
    rw [hsave] at horiginal
    exact Or.inr (of_decide_eq_true horiginal)
  · intro q d hq hown hsame
    rw [Bool.not_eq_true', List.any_eq_false] at htarget
    refine htarget ⟨q, d⟩ (AList.mem_lookup_iff.mp hq) ?_
    simp [hown, hsame]

/-! ## Runs -/

theorem Changed.exclusive (h : Changed system move after) (hsystem : system.Exclusive)
    (hnative : ∀ p d, move ≠ .update p d) : after.Exclusive := by
  have horderly : after.Orderly := by
    refine h.orderly hsystem.orderly ?_
    cases move with
    | update p d => exact absurd rfl (hnative p d)
    | _ => trivial
  -- Where neither the entry nor the save changes, nothing does.
  have hsame (hsubentries : after.subentries = system.subentries)
      (hsaving : after.saving = system.saving) : after.Exclusive :=
    ⟨horderly, hsystem.unique.congr (stored_congr hsubentries), fun save hsave =>
      (hsystem.vetted save (hsaving.symm.trans hsave)).congr (stored_congr hsubentries)⟩
  cases h with
  | quiet hsubentries hsaving => exact hsame hsubentries hsaving
  | began hrunning hunlocked hsubentries hsaving => exact hsame hsubentries hsaving
  | acted hruntime hheld hacted =>
    rename_i runtime held
    have hnobody : after.saving = none := by
      rw [hacted.saving]
      by_contra hsome
      have hnone := hsystem.orderly.alone (Option.isSome_iff_ne_none.mpr hsome)
      rw [holder_of_runtime hruntime, hheld] at hnone
      cases hnone
    refine ⟨horderly, ?_, fun save hsave => ?_⟩
    · obtain ⟨-, runtime', hruntime', hholder, hquiet | hwrote⟩ := hacted
      · exact hsystem.unique.congr (stored_congr hquiet.1)
      · obtain ⟨previous, hstored, hwritten, hother⟩ :=
          hwrote.stored hsystem.orderly hruntime hheld
        refine hsystem.unique.insert hwritten hother fun q d hq hstoredq htarget => ?_
        exact hq (hsystem.unique q held.patchId d previous hstoredq hstored htarget)
    · rw [hnobody] at hsave
      cases hsave
  | closed hsubentries hsaving => exact hsame hsubentries hsaving
  | loaded hsubentries hsaving => exact hsame hsubentries hsaving
  | acquired hunlocked hsubentries hruntime hsaving =>
    refine ⟨horderly, hsystem.unique.congr (stored_congr hsubentries), fun save hsave => ?_⟩
    exact (vetted_of_checkSave (hsaving save hsave)).congr (stored_congr hsubentries)
  | drafted hsave hsubentries hruntime hsaving =>
    refine ⟨horderly, hsystem.unique.congr (stored_congr hsubentries), fun save' hsave' => ?_⟩
    obtain ⟨horiginal, htarget⟩ := (hsystem.vetted _ hsave).congr (stored_congr hsubentries)
    rw [hsaving] at hsave'
    cases hsave'
    exact ⟨horiginal, htarget⟩
  | ended hsubentries hruntime hsaving =>
    refine ⟨horderly, hsystem.unique.congr (stored_congr hsubentries), fun save hsave => ?_⟩
    rw [hsaving] at hsave
    cases hsave
  | committed hsave hruntime hsaving hsubentries =>
    rename_i save
    obtain ⟨q, hown, -, hsubentries⟩ := hsubentries
    have hpatch : after.stored q = some { save.definition with patchId := q } := by
      unfold stored
      rw [hsubentries]
      exact AList.lookup_insert ..
    refine ⟨horderly, ?_, fun save hsave => ?_⟩
    · refine hsystem.unique.insert hpatch (fun p hp => ?_) fun p d hp hstored => ?_
      · unfold stored
        rw [hsubentries, AList.lookup_insert_ne hp]
      · refine (hsystem.vetted save hsave).target p d hstored ?_
        cases horiginal : save.original with
        | none => exact Option.some_ne_none p
        | some original =>
          rw [Option.map_some, ← (hown original horiginal).1]
          exact fun h => hp (Option.some_inj.mp h)
    · rw [hsaving] at hsave
      cases hsave
  | updated => exact absurd rfl (hnative _ _)
  | removed hruntime hsaving hsubentries =>
    rename_i patchId
    have hless : ∀ p d, after.stored p = some d → system.stored p = some d := by
      intro p d hp
      unfold stored at hp
      rw [hsubentries] at hp
      by_cases hpatch : p = patchId
      · rw [hpatch, AList.lookup_erase] at hp
        cases hp
      · rw [AList.lookup_erase_ne hpatch] at hp
        exact hp
    refine ⟨horderly, fun p q d e hp hq => ?_, fun save hsave => ?_⟩
    · exact hsystem.unique p q d e (hless p d hp) (hless q e hq)
    · obtain ⟨horiginal, htarget⟩ := hsystem.vetted save (hsaving.symm.trans hsave)
      refine ⟨fun original hsome => ?_, fun q d hq => htarget q d (hless q d hq)⟩
      cases hstored : after.stored original.patchId with
      | none => exact Or.inl rfl
      | some d =>
        obtain hnone | hsame := horiginal original hsome
        · rw [hless _ d hstored] at hnone
          cases hnone
        · exact Or.inr ((hless _ d hstored).symm.trans hsame)

theorem Exclusive.reconfigures (h : system.Exclusive) : Reconfigures system move after := by
  intro patchId save original _ hsave horiginal hpresent
  obtain hnone | hsame := (h.vetted save hsave).original original horiginal
  · exact absurd hpresent (AList.lookup_eq_none.mp hnone)
  · exact hsame

/-- If Home Assistant edits no subentry by itself, flows keep targets unique and lose no update. -/
theorem flows_keep_targets {start final : System} {moves : List Move}
    (hruntime : start.runtime = none) (hsaving : start.saving = none)
    (hunique : start.UniqueTargets) (hnative : ∀ p d, .update p d ∉ moves)
    (hrun : Traces.after (step env reconciler) start moves = some final) :
    final.UniqueTargets ∧ Traces.Every (step env reconciler) Reconfigures start moves := by
  have hstart : start.Exclusive := by
    refine ⟨orderly_of_none ?_, hunique, fun save hsave => ?_⟩
    · unfold holder
      rw [hruntime]
      rfl
    · rw [hsaving] at hsave
      cases hsave
  have hflows : Traces.Every (step env reconciler) (fun _ l _ => ∀ p d, l ≠ .update p d) start moves :=
    Traces.every_of_forall_mem fun l hl p d h => hnative p d (h ▸ hl)
  constructor
  · exact (Traces.invariant (fun s l t hs hstep hl => (changed hstep).exclusive hs hl) hstart hflows
      hrun).unique
  · exact Traces.every_of_invariant (fun s l t hs hstep hl => (changed hstep).exclusive hs hl)
      (fun s l t hs _ _ => hs.reconfigures) hstart hflows

/-- A flow that renames the only patch of the entry. -/
theorem flows_keep_targets_renamed : ∃ final,
    steadyRun [.setup none, .save (some steadyDefinition) renamedDefinition, .acquire 0,
      .commit ['p']] = some final ∧
    final.UniqueTargets ∧ final.stored ['p'] = some renamedDefinition := by
  have hrun : (steadyRun [.setup none, .save (some steadyDefinition) renamedDefinition, .acquire 0,
      .commit ['p']]).map (·.stored ['p']) = some (some renamedDefinition) := by decide +kernel
  obtain ⟨final, hfinal, hstored⟩ := Option.map_eq_some_iff.mp hrun
  have hunique : steadySystem.UniqueTargets := by
    have honly : ∀ p d, steadySystem.stored p = some d → p = ['p'] := by
      intro p d h
      have hmem := AList.mem_lookup_iff.mp h
      cases hmem with
      | head => rfl
      | tail _ h => cases h
    intro p q d e hp hq _
    rw [honly p d hp, honly q e hq]
  exact ⟨final, hfinal, (flows_keep_targets rfl rfl hunique (by simp) hfinal).1, hstored⟩

end System

end Hapatchy
