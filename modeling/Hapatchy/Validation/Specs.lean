import Hapatchy.Coordinator.Statuses
import Hapatchy.SafeIo.Missing
import Hapatchy.Validation

/-!
# What a validation says

It changes no file, and it says what is in the target, or that the target is
missing.
-/

open Effects Prog

namespace Hapatchy

open PatchEngine (Fromstring)
open PatchBuilder (validateEditorText)

variable {env : Env} {policy : PathPolicy} {fromstring : Fromstring} {definition : PatchDefinition}
  {w w' : World}

section Below

variable {α : Type} {m : Io α}

theorem below_ok_iff {a : α} : below m w = (.ok a, w') ↔ m w = (.ok a, w') := by
  unfold below
  split
  · rename_i b t hm
    rw [hm]
    simp only [Prod.mk.injEq, Except.ok.injEq]
  · rename_i e t hm
    rw [hm]
    constructor <;> intro h <;> cases h

theorem below_error_iff {e : FlowError} :
    below m w = (.error e, w') ↔ ∃ e', m w = (.error e', w') ∧ e = .below e' := by
  unfold below
  split
  · rename_i a t hm
    rw [hm]
    constructor
    · intro h
      cases h
    · rintro ⟨e', h, -⟩
      cases h
  · rename_i e' t hm
    rw [hm]
    constructor
    · intro h
      cases h
      exact ⟨e', rfl, rfl⟩
    · rintro ⟨_, h, rfl⟩
      cases h
      rfl

theorem runs_below {S : World → World → Prop} (h : Runs S m) : Runs S (below m) := by
  intro w
  have hrun := h w
  unfold below
  split
  · rename_i a t hm
    rw [hm] at hrun
    exact hrun
  · rename_i e t hm
    rw [hm] at hrun
    exact hrun

end Below

/-- All that `m` does is in `L`. -/
abbrev FlowIo.Does {α : Type} (env : Env) (L : Label → Prop) (m : FlowIo α) : Prop :=
  Runs (fun w w' => ∃ l, L l ∧ Step env l w w') m

theorem does_checkDefinition_noEdit : Does env NoEdit (policy.checkDefinition env definition) :=
  PathPolicy.does_checkDefinition.mono fun _ h => (PathPolicy.Checks.looks h).noEdit

theorem does_readEditableTarget : Does env NoEdit (readEditableTarget env policy definition) := by
  apply runs_bind does_checkDefinition_noEdit
  intro _
  apply does_withFile trivial
  intro target
  apply runs_bind (does_guardedRead trivial)
  intro snapshot
  apply runs_bind does_ofPatch
  intro _
  apply runs_bind does_checkDefinition_noEdit
  intro _
  exact runs_bind (does_verifySnapshot trivial trivial) fun _ => runs_pure

theorem does_verifyEditableSnapshot {expected : Snapshot} :
    FlowIo.Does env NoEdit (verifyEditableSnapshot env policy definition expected) := by
  apply runs_bind
  · apply runs_rescue (runs_below does_readEditableTarget)
    exact fun error => runs_ite (fun _ => runs_raise) fun _ => runs_raise
  · exact fun current => runs_ite (fun _ => runs_raise) fun _ => runs_pure

theorem does_inspectTarget {raw : Bytes} :
    FlowIo.Does env Looks (inspectTarget env policy fromstring definition raw) := by
  have hcheck : Does env Looks (policy.checkDefinition env definition) :=
    PathPolicy.does_checkDefinition.mono fun _ => PathPolicy.Checks.looks
  apply runs_bind (runs_below hcheck)
  intro _
  apply runs_bind (runs_below runs_lift)
  intro parsed
  apply runs_rescue
  · apply runs_bind
    · apply runs_below
      apply does_withFile trivial
      intro target
      exact runs_bind (does_guardedRead trivial) fun _ => runs_pure
    · exact fun result => runs_ite (fun _ => runs_raise) fun _ => runs_pure
  · intro error
    cases error.missing? with
    | some reason => exact runs_pure
    | none => exact runs_raise

/-! ## What they return -/

section Spared

variable (hspares : env.Spares definition.target)

include hspares

/-- A text that is read for an edit is the text of the file. -/
theorem readEditableTarget_ok {snapshot : Snapshot}
    (h : readEditableTarget env policy definition w = (.ok snapshot, w')) :
    w'.fs.bytes definition.target = some snapshot.data ∧
      snapshot.sha256 = env.sha256 snapshot.data ∧ ¬ Internal definition.target := by
  obtain ⟨_, t, -, h⟩ := bind_ok_iff.mp h
  obtain ⟨hparts, file, u, u', hpath, -, hbody, hexit⟩ := withFile_ok h
  have hspares : env.Spares file.path := hpath ▸ hspares
  obtain ⟨snapshot', v, hread, hrest⟩ := bind_ok_iff.mp hbody
  have hrest' : Does env NoEdit (do
      let _ ← ofPatch (validateEditorText snapshot'.data)
      policy.checkDefinition env definition
      file.verifySnapshot env snapshot'
      pure snapshot') := by
    apply runs_bind does_ofPatch
    intro _
    apply runs_bind does_checkDefinition_noEdit
    intro _
    exact runs_bind (does_verifySnapshot trivial trivial) fun _ => runs_pure
  have hbytes : w'.fs.bytes file.path = u.fs.bytes file.path := by
    unfold Fs.bytes
    rw [Steps.lookup (hexit.mono fun _ h => h.looks.noEdit) frame_noEdit hspares,
      Steps.lookup (hrest'.of_eq hrest) frame_noEdit hspares,
      Steps.lookup ((does_guardedRead (L := NoEdit) trivial).of_eq hread) frame_noEdit hspares]
  obtain ⟨_, _, -, hrest⟩ := bind_ok_iff.mp hrest
  obtain ⟨_, _, -, hrest⟩ := bind_ok_iff.mp hrest
  obtain ⟨_, _, -, hrest⟩ := bind_ok_iff.mp hrest
  obtain ⟨⟨⟩, -⟩ := pure_eq_iff.mp hrest
  have htarget : definition.target = file.path := hpath.symm
  rw [htarget, hbytes]
  exact ⟨read_spared hspares hread, read_sha hread, hpath ▸ internal_of_protected hparts⟩

theorem verifyEditableSnapshot_ok {expected : Snapshot} {u : Unit}
    (hsha : Function.Injective env.sha256) (hexpected : expected.sha256 = env.sha256 expected.data)
    (h : verifyEditableSnapshot env policy definition expected w = (.ok u, w')) :
    w'.fs.bytes definition.target = some expected.data ∧ ¬ Internal definition.target := by
  obtain ⟨current, t, hread, h⟩ := bind_ok_iff.mp h
  rcases rescue_eq_iff.mp hread with ⟨a, hread, ⟨⟩⟩ | ⟨e, s, -, hhandler⟩
  · obtain ⟨hbytes, hcurrent, hexternal⟩ := readEditableTarget_ok hspares (below_ok_iff.mp hread)
    split at h
    · cases (raise_eq_iff.mp h).1
    rename_i hsame
    obtain ⟨-, rfl⟩ := pure_eq_iff.mp h
    rw [not_or, not_not, not_not, hcurrent, hexpected] at hsame
    refine ⟨?_, hexternal⟩
    rw [hbytes, hsha hsame.2]
  · split at hhandler <;> cases (raise_eq_iff.mp hhandler).1

end Spared

/-! ## Inspections -/

theorem inspect_ne_missing {parsed : PatchEngine.ParsedPatch} {raw : Bytes} :
    (PatchEngine.inspect parsed raw).status ≠ .missingTarget := by
  by_cases hraw : PatchEngine.Acceptable raw maxTargetBytes
  · rw [PatchEngine.inspect_of_acceptable hraw]
    unfold PatchEngine.verdict
    split
    · exact Status.noConfusion
    · exact Status.noConfusion
    · simp only
      split <;> exact Status.noConfusion
    · simp only
      split <;> exact Status.noConfusion
  · obtain ⟨reason, h⟩ : ∃ reason, PatchEngine.inspect parsed raw =
        { status := .invalidPatch, reason := some reason } :=
      PatchEngine.inspect_of_not_acceptable hraw
    rw [h]
    exact Status.noConfusion

theorem saysMissing_of {error : Exc} {reason : Reason}
    (h : (FlowError.below error).missing? = some reason) : error.SaysMissing := by
  cases error with
  | patch error =>
    obtain ⟨reason', status⟩ := error
    cases status with
    | missingTarget => rfl
    | _ => cases h
  | _ => cases h

theorem inspectionError_missing {parsed : PatchEngine.ParsedPatch} {raw : Bytes} :
    (inspectionError (PatchEngine.inspect parsed raw)).missing? = none := by
  have hstatus : (PatchEngine.inspect parsed raw).status ≠ .missingTarget := inspect_ne_missing
  generalize PatchEngine.inspect parsed raw = result at hstatus
  obtain ⟨status, reason, forward, reverse⟩ := result
  cases reason with
  | none => rfl
  | some reason =>
    cases status with
    | missingTarget => exact absurd rfl hstatus
    | _ => rfl

/-- In a tree that nobody changes, a target is reported as missing only where it is. -/
theorem missing_of_readBlock {α : Type} {f : Snapshot → α} {e : Exc} (hcalm : env.Calm)
    (hhonest : env.Honest)
    (h : withFile env definition.targetPath false (fun file => do
      let snapshot ← file.read env
      pure (f snapshot)) w = (.error e, w'))
    (he : e.SaysMissing) : w'.fs.Missing definition.target := by
  have hcandid : Candid w.fs definition.target
      (withFile env definition.targetPath false fun file => do
        let snapshot ← file.read env
        pure (f snapshot)) := by
    apply keeps_bind_of (candid_guardedEnter hcalm hhonest rfl)
    intro file u u' hu henter
    obtain ⟨hcurrent, hparts⟩ := guardedEnter_current hcalm henter
    apply candid_ensure
    · apply keeps_bind
      · apply candid_read hcalm hhonest (hu ▸ hcurrent) _ (guardedEnter_ok henter).2
        rw [hparts]
        exact List.dropLast_prefix _
      · exact fun _ => keeps_pure
    · exact fun _ => candid_exit hcalm hhonest
  have hend := hcandid w rfl
  rw [h] at hend
  rw [hend.1]
  exact hend.2 he

/-- What a block returns that reads a target is computed from the bytes of the target. -/
theorem readBlock_ok {α : Type} {f : Snapshot → α} {a : α} (hspares : env.Spares definition.target)
    (h : withFile env definition.targetPath false (fun file => do
      let snapshot ← file.read env
      pure (f snapshot)) w = (.ok a, w')) :
    ∃ snapshot, a = f snapshot ∧ w'.fs.bytes definition.target = some snapshot.data := by
  obtain ⟨-, file, t, t', hpath, -, hbody, hexit⟩ := withFile_ok h
  have htarget : definition.target = file.path := hpath.symm
  rw [htarget] at hspares ⊢
  obtain ⟨snapshot, u, hread, hbody⟩ := bind_ok_iff.mp hbody
  obtain ⟨⟨⟩, rfl⟩ := pure_eq_iff.mp hbody
  refine ⟨snapshot, rfl, ?_⟩
  rw [Steps.looks_bytes (hexit.mono fun _ => OnlyCalls.looks) hspares,
    Steps.looks_bytes ((does_guardedRead (L := Looks) trivial).of_eq hread) hspares]
  exact read_spared hspares hread

theorem external_of_checkDefinition {u : Unit}
    (h : policy.checkDefinition env definition w = (.ok u, w')) : ¬ Internal definition.target := by
  obtain ⟨_, t, -, h⟩ := bind_ok_iff.mp h
  obtain ⟨_, t', hpath, -⟩ := bind_ok_iff.mp h
  obtain ⟨parts, t'', hparts, -⟩ := bind_ok_iff.mp hpath
  exact internal_of_protected (ofPatch_ok hparts).1

/-- An inspection is of the file that is there, or the target is missing. -/
theorem inspectTarget_ok {raw : Bytes} {result : PatchInspection}
    (hspares : env.Spares definition.target)
    (h : inspectTarget env policy fromstring definition raw w = (.ok result, w')) :
    ¬ Internal definition.target ∧ ∃ parsed, PatchEngine.parse fromstring raw definition.targetPath = .ok parsed ∧
      ((∃ data, w'.fs.bytes definition.target = some data ∧
          result = PatchEngine.inspect parsed data) ∨
        (result.status = .missingTarget ∧
          (env.Calm → env.Honest → w'.fs.Missing definition.target))) := by
  obtain ⟨_, t, hcheck, h⟩ := bind_ok_iff.mp h
  obtain ⟨parsed, t', hlift, hrest⟩ := bind_ok_iff.mp h
  obtain ⟨hparse, rfl⟩ := lift_eq_iff.mp (below_ok_iff.mp hlift)
  refine ⟨external_of_checkDefinition (below_ok_iff.mp hcheck), parsed, hparse.symm, ?_⟩
  rcases rescue_eq_iff.mp hrest with ⟨a, hfile, ⟨⟩⟩ | ⟨e, u, hfile, hhandler⟩
  · left
    obtain ⟨inspection, v, hread, hcheck⟩ := bind_ok_iff.mp hfile
    obtain ⟨snapshot, rfl, hbytes⟩ := readBlock_ok hspares (below_ok_iff.mp hread)
    split at hcheck
    · cases (raise_eq_iff.mp hcheck).1
    · obtain ⟨⟨⟩, rfl⟩ := pure_eq_iff.mp hcheck
      exact ⟨_, hbytes, rfl⟩
  · right
    cases hmissing : e.missing? with
    | none =>
      rw [hmissing] at hhandler
      cases (raise_eq_iff.mp hhandler).1
    | some reason =>
      rw [hmissing] at hhandler
      obtain ⟨⟨⟩, rfl⟩ := pure_eq_iff.mp hhandler
      refine ⟨rfl, fun hcalm hhonest => ?_⟩
      rcases bind_eq_iff.mp hfile with ⟨e', hread, ⟨⟩⟩ | ⟨inspection, v, hread, hcheck⟩
      · obtain ⟨error, hblock, rfl⟩ := below_error_iff.mp hread
        exact missing_of_readBlock hcalm hhonest hblock (saysMissing_of hmissing)
      · obtain ⟨snapshot, rfl, -⟩ := readBlock_ok hspares (below_ok_iff.mp hread)
        split at hcheck
        · obtain ⟨⟨⟩, -⟩ := raise_eq_iff.mp hcheck
          cases inspectionError_missing.symm.trans hmissing
        · cases (pure_eq_iff.mp hcheck).1

end Hapatchy
