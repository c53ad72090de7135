import Hapatchy.SafeIo.Specs

/-!
# Destination decisions

`path_policy.py`: the grants frozen at boot, source protection and the live
permission of Home Assistant.
-/

open Effects Prog

namespace Hapatchy

/-- `LoadedGrants` and the root: absolute paths are their parts. -/
structure PathPolicy where
  root : Path
  hapatchyFiles : List Text
  haExplicitDirectories : List Path
  protects : Text → Bool

namespace PathPolicy

variable (env : Env) (policy : PathPolicy)

def contained (parts directory : Path) (equal : Bool) : Bool :=
  parts.take directory.length = directory && (equal || decide (parts.length > directory.length))

/-- `grants.check_current()`: it reads files, and it raises nothing but its denial. -/
def checkCurrent : Io Unit := fun w =>
  match env.checkCurrent w.step with
  | some reason => (.error (.patch ⟨reason.val, .securityError⟩), arrive env w)
  | none => (.ok (), arrive env w)

/-- `ha_allowed`, whose exceptions count as a denial. -/
def haAllowed (path : Path) : Io Bool := fun w => (.ok (env.haAllowed w.step path), arrive env w)

def checkPath (path : Text) (directory : Bool) : Io Unit := do
  let parts ← ofPatch (relativeParts path)
  ofPatch (if directory then pure () else checkNonYamlFile path)
  if (!directory && parts.length = 1) || policy.protects path then
    raisePatch .protectedPath .securityError
  else
    let authorized :=
      if directory then policy.hapatchyFiles.any fun file => contained (file.splitOn '/') parts false
      else decide (path ∈ policy.hapatchyFiles)
    if !authorized then raisePatch .hapatchyFileNotAllowed .securityError
    else
      let absolute := policy.root ++ parts
      if !policy.haExplicitDirectories.any fun grant => contained absolute grant directory then
        raisePatch .haPathNotAllowed .securityError
      else
        let allowed ← haAllowed env absolute
        if allowed then pure () else raisePatch .haPathNotAllowed .securityError

def checkDefinition (definition : PatchDefinition) : Io Unit := do
  checkCurrent env
  policy.checkPath env definition.targetPath false
  policy.checkPath env definition.watchRoot true
  change fun w => { w with log := w.log ++ [.checked definition] }

/-! ## What a check does -/

variable {env policy}

/-- What a denial raises. -/
def Denial : Exc → Prop
  | .patch ⟨reason, status⟩ => status = .securityError ∧ reason ≠ .targetChanged
  | _ => False

theorem Denial.isPatch {e : Exc} (h : Denial e) : e.IsPatch := by
  cases e <;> trivial

/-- Steps of a check: calls, and its record. -/
def Checks (definition : PatchDefinition) : Label → Prop
  | .call => True
  | .check d => d = definition
  | _ => False

theorem Checks.looks {definition : PatchDefinition} {l : Label} (h : Checks definition l) :
    Looks l := by
  cases l <;> trivial

section Does

variable {L : Label → Prop} (h : L .call)

include h

theorem does_checkCurrent : Does env L (checkCurrent env) := by
  intro w
  rw [checkCurrent]
  split <;> exact .single ⟨_, h, .call w⟩

theorem does_haAllowed {path : Path} : Does env L (haAllowed env path) :=
  fun w => .single ⟨_, h, .call w⟩

theorem does_checkPath {path : Text} {directory : Bool} :
    Does env L (policy.checkPath env path directory) := by
  refine runs_bind does_ofPatch fun parts => runs_bind does_ofPatch fun _ => ?_
  refine runs_ite (fun _ => does_raisePatch) fun _ => runs_ite (fun _ => does_raisePatch) fun _ => ?_
  refine runs_ite (fun _ => does_raisePatch) fun _ => runs_bind (does_haAllowed h) fun allowed => ?_
  exact runs_ite (fun _ => runs_pure) fun _ => does_raisePatch

end Does

theorem does_checkDefinition {definition : PatchDefinition} :
    Does env (Checks definition) (policy.checkDefinition env definition) := by
  refine runs_bind (does_checkCurrent trivial) fun _ => runs_bind (does_checkPath trivial) fun _ => ?_
  refine runs_bind (does_checkPath trivial) fun _ => fun w => ?_
  exact .single ⟨.check definition, rfl, .check w definition⟩

theorem relativeParts_error {path : Text} {internal : Bool} {e : PatchError}
    (h : relativeParts path internal = .error e) : Denial (.patch e) := by
  rw [relativeParts] at h
  split at h
  · cases h
    exact ⟨rfl, Reason.noConfusion⟩
  split at h
  · cases h
    exact ⟨rfl, Reason.noConfusion⟩
  · cases h

theorem checkNonYamlFile_error {path : Text} {e : PatchError}
    (h : checkNonYamlFile path = .error e) : Denial (.patch e) := by
  rw [checkNonYamlFile] at h
  split at h
  · cases h
    exact ⟨rfl, Reason.noConfusion⟩
  · cases h

theorem raises_checkPath {path : Text} {directory : Bool} :
    Raises Denial (policy.checkPath env path directory) := by
  have hraise : ∀ reason, reason ≠ Reason.targetChanged →
      Raises Denial (raisePatch reason .securityError : Io Unit) :=
    fun reason hne => raises_raise ⟨rfl, hne⟩
  refine raises_bind (raises_lift fun e he => ?_) fun parts =>
    raises_bind (raises_lift fun e he => ?_) fun _ => ?_
  · obtain ⟨e', he', rfl⟩ := Results.mapError_eq_error.mp he
    exact relativeParts_error he'
  · obtain ⟨e', he', rfl⟩ := Results.mapError_eq_error.mp he
    split at he'
    · cases he'
    · exact checkNonYamlFile_error he'
  refine raises_ite (fun _ => hraise _ Reason.noConfusion) fun _ => ?_
  refine raises_ite (fun _ => hraise _ Reason.noConfusion) fun _ => ?_
  refine raises_ite (fun _ => hraise _ Reason.noConfusion) fun _ => ?_
  refine raises_bind (fun w e w' h => ?_) fun allowed => ?_
  · rw [haAllowed] at h
    cases h
  · exact raises_ite (fun _ => raises_pure) fun _ => hraise _ Reason.noConfusion

/-- A check raises denials only. -/
theorem raises_checkDefinition {definition : PatchDefinition} :
    Raises Denial (policy.checkDefinition env definition) := by
  refine raises_bind (fun w e w' h => ?_) fun _ => raises_bind raises_checkPath fun _ =>
    raises_bind raises_checkPath fun _ => raises_change
  rw [checkCurrent] at h
  split at h
  · rename_i reason _
    cases h
    refine ⟨rfl, ?_⟩
    have hmem := reason.property
    rintro heq
    simp only [heq] at hmem
    exact absurd hmem (by decide)
  · cases h

end PathPolicy

end Hapatchy
