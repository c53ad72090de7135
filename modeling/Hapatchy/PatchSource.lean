import Hapatchy.Coordinator
import Hapatchy.ManagedSource

/-!
# Sources

`patch_source.py`: the bytes of a patch, from a guarded file, from a managed
revision or from an address, and the checks that they have passed.
-/

open Effects Prog

namespace Hapatchy

open PatchEngine (maxPatchBytes)

variable (env : Env)

/-- `error.status == Status.MISSING_TARGET`, for a `PatchError`. -/
def Exc.isMissing (error : Exc) : Bool := error.patchError?.any (·.status = .missingTarget)

/-- `with GuardedFile(…) as file` -/
def withFile {α : Type} (path : Text) (internal : Bool) (body : GuardedFile → Io α) : Io α := do
  let file ← GuardedFile.enter env path internal
  ensure (body file) fun _ => file.exit env

/-! ## Managed revisions -/

namespace ManagedPatchStore

def revisionPath (revision : Text) : Text :=
  ".hapatchy/patches/".toList ++ revision ++ ".patch".toList

/-- `_read`, among the calls of a run. -/
def readRevision (revision : Text) : Io Bytes :=
  if !isRevision revision then raisePatch .invalidManagedSource .securityError
  else do
    let snapshot ← withFile env (revisionPath revision) true fun file => file.read env maxPatchBytes
    if env.sha256 snapshot.data ≠ revision then raisePatch .sourceHashMismatch .sourceError
    else pure snapshot.data

/-- `load`, among the calls of a run. -/
def loadRevision (revision : Text) : Io Bytes :=
  rescue (readRevision env revision) fun error =>
    if error.isMissing then raisePatch .managedSourceUnavailable .sourceError else raise error

end ManagedPatchStore

/-! ## Local files -/

/-- What `_local` reads of the target, or `none` where it is missing. -/
def currentTarget (path : Text) : Io (Option Snapshot) :=
  rescue
    (do
      let current ← withFile env path false fun target => target.read env
      pure (some current))
    fun error => if error.isMissing then pure none else raise error

/-- `_local` -/
def localSource (definition : PatchDefinition) : Io Bytes := do
  ofPatch (checkNonYamlFile definition.source)
  withFile env definition.source false fun source => do
    let snapshot ← source.read env maxPatchBytes
    let current ← currentTarget env definition.targetPath
    if current.any fun current => current.info.ino = snapshot.info.ino then
      raisePatch .sourceIsTarget .securityError
    else pure snapshot.data

/-! ## Addresses -/

/-- What a request comes to. `checked_url` or the resolver denies it, the connection fails or times
out, or there is a response, whose content may break off. -/
inductive Exchange where
  | denied
  | failed
  | response (status : Nat) (chunks : List Bytes) (complete : Bool)

/-- The loop over the chunks, with the parts so far. -/
def joinChunks : Bytes → List Bytes → Except Exc Bytes
  | data, [] => pure data
  | data, chunk :: chunks =>
    if data.length + chunk.length > maxPatchBytes then
      throw (.patch ⟨.sourceTooLarge, .sourceError⟩)
    else joinChunks (data ++ chunk) chunks

def Exchange.content : Exchange → Except Exc Bytes
  | .denied => throw (.patch ⟨.sourceNetworkDenied, .securityError⟩)
  | .failed => throw (.os .other)
  | .response status chunks complete =>
    if status ≠ 200 then throw (.patch ⟨.sourceHttpError, .sourceError⟩)
    else do
      let data ← joinChunks [] chunks
      if complete then pure data else throw (.os .other)

/-! ## The client -/

/-- `_verify` -/
def verifySource (data : Bytes) (expected : Option Text) : Io Bytes :=
  if expected.any (· ≠ env.sha256 data) then raisePatch .sourceHashMismatch .sourceError
  else pure data

/-- What the network gives for an address, at the call `n`. -/
abbrev Network := Nat → Text → Exchange

/-- The `try` block of `PatchSourceClient.load`. -/
def fetchSource (network : Network) (definition : PatchDefinition) : Io Bytes :=
  if definition.sourceType = "local".toList then do
    let data ← localSource env definition
    verifySource env data definition.sourceSha256
  else if definition.sourceType = "managed".toList then do
    let data ← ManagedPatchStore.loadRevision env definition.source
    verifySource env data definition.sourceSha256
  else if definition.sourceSha256 = none then raisePatch .sourceHashRequired .sourceError
  else do
    let w ← read
    let data ← lift (network w.step definition.source).content
    verifySource env data definition.sourceSha256

/-! ## What a source has passed -/

/-- The checks behind a source: its digest, its size and the path that it comes from. -/
structure Supplied (env : Env) (definition : PatchDefinition) (source : Bytes) : Prop where
  pinned : ∀ digest, definition.sourceSha256 = some digest → env.sha256 source = digest
  managed : definition.sourceType = "managed".toList → env.sha256 source = definition.source
  address : definition.sourceType ≠ "local".toList → definition.sourceType ≠ "managed".toList →
    definition.sourceSha256 ≠ none
  external : definition.sourceType = "local".toList →
    (∃ parts, relativeParts definition.source = .ok parts) ∧
      checkNonYamlFile definition.source = .ok ()
  bounded : source.length ≤ maxPatchBytes

variable {env : Env} {definition : PatchDefinition} {source : Bytes} {w w' : World}

theorem readChunks_length {handle : Handle} {limit fuel : Nat} {data out : Bytes}
    (hdata : data.length ≤ limit) (h : readChunks env handle limit fuel data w = (.ok out, w')) :
    out.length ≤ limit := by
  induction fuel generalizing data w with
  | zero =>
    obtain ⟨⟨⟩, -⟩ := pure_eq_iff.mp h
    exact hdata
  | succ fuel ih =>
    obtain ⟨chunk, t, -, h⟩ := bind_ok_iff.mp h
    split at h
    · obtain ⟨⟨⟩, -⟩ := pure_eq_iff.mp h
      exact hdata
    · split at h
      · cases (raise_eq_iff.mp h).1
      · rename_i hsize
        apply ih _ h
        rw [List.length_append]
        omega

theorem read_length {target : GuardedFile} {limit : Nat} {snapshot : Snapshot}
    (h : target.read env limit w = (.ok snapshot, w')) : snapshot.data.length ≤ limit := by
  rcases rescueOs_ok h with h | ⟨e, t, -, hhandler⟩
  · obtain ⟨_, _, -, h⟩ := bind_ok_iff.mp h
    obtain ⟨handle, _, -, h⟩ := bind_ok_iff.mp h
    obtain ⟨out, _, h, ⟨-, rfl⟩ | ⟨e, -, ⟨⟩⟩⟩ := ensure_eq_iff.mp h
    obtain ⟨before, _, -, h⟩ := bind_ok_iff.mp h
    split at h
    · cases (raise_eq_iff.mp h).1
    split at h
    · cases (raise_eq_iff.mp h).1
    obtain ⟨data, _, hdata, h⟩ := bind_ok_iff.mp h
    obtain ⟨after, _, -, h⟩ := bind_ok_iff.mp h
    split at h
    · cases (raise_eq_iff.mp h).1
    obtain ⟨⟨⟩, -⟩ := pure_eq_iff.mp h
    exact readChunks_length (Nat.zero_le _) hdata
  · cases e <;> cases (raise_eq_iff.mp hhandler).1

section Does

variable {L : Label → Prop}

theorem does_verifySource {data : Bytes} {expected : Option Text} :
    Does env L (verifySource env data expected) :=
  runs_ite (fun _ => does_raisePatch) fun _ => runs_pure

variable (hcall : L .call)

include hcall

theorem does_withFile {α : Type} {path : Text} {internal : Bool} {body : GuardedFile → Io α}
    (hbody : ∀ file, Does env L (body file)) : Does env L (withFile env path internal body) := by
  apply runs_bind (does_guardedEnter hcall)
  intro file
  apply runs_ensure (hbody file)
  intro out
  exact does_guardedExit hcall

theorem does_currentTarget {path : Text} : Does env L (currentTarget env path) := by
  apply runs_rescue
  · apply runs_bind (does_withFile hcall fun _ => does_guardedRead hcall)
    exact fun _ => runs_pure
  · intro error
    exact runs_ite (fun _ => runs_pure) fun _ => runs_raise

theorem does_localSource : Does env L (localSource env definition) := by
  apply runs_bind does_ofPatch
  intro _
  apply does_withFile hcall
  intro source
  apply runs_bind (does_guardedRead hcall)
  intro snapshot
  apply runs_bind (does_currentTarget hcall)
  intro current
  exact runs_ite (fun _ => does_raisePatch) fun _ => runs_pure

theorem does_readRevision {revision : Text} :
    Does env L (ManagedPatchStore.readRevision env revision) := by
  apply runs_ite
  · intro _
    exact does_raisePatch
  · intro _
    apply runs_bind (does_withFile hcall fun _ => does_guardedRead hcall)
    intro snapshot
    exact runs_ite (fun _ => does_raisePatch) fun _ => runs_pure

/-- Loading a source only looks. -/
theorem does_fetchSource {network : Network} : Does env L (fetchSource env network definition) := by
  apply runs_ite
  · intro _
    exact runs_bind (does_localSource hcall) fun _ => does_verifySource
  intro _
  apply runs_ite
  · intro _
    apply runs_bind
    · apply runs_rescue (does_readRevision hcall)
      intro error
      exact runs_ite (fun _ => does_raisePatch) fun _ => runs_raise
    · exact fun _ => does_verifySource
  intro _
  apply runs_ite
  · intro _
    exact does_raisePatch
  · intro _
    apply runs_bind runs_read
    intro w
    apply runs_bind runs_lift
    exact fun _ => does_verifySource

end Does

/-- A block that returns has entered its file, and it does nothing else but calls. -/
theorem withFile_ok {α : Type} {path : Text} {internal : Bool} {body : GuardedFile → Io α} {a : α}
    (h : withFile env path internal body w = (.ok a, w')) :
    relativeParts path internal = .ok (path.splitOn '/') ∧ ∃ file t t',
      file.path = path.splitOn '/' ∧ Steps env OnlyCalls w t ∧ body file t = (.ok a, t') ∧
        Steps env OnlyCalls t' w' := by
  obtain ⟨file, t, henter, h⟩ := bind_ok_iff.mp h
  obtain ⟨hparts, hpath⟩ := guardedEnter_ok henter
  obtain ⟨out, t', hbody, ⟨hexit, rfl⟩ | ⟨e, -, ⟨⟩⟩⟩ := ensure_eq_iff.mp h
  exact ⟨hparts, file, t, t', hpath, (does_guardedEnter trivial).of_eq henter, hbody,
    (does_guardedExit trivial).of_eq hexit⟩

theorem localSource_ok (h : localSource env definition w = (.ok source, w')) :
    (∃ parts, relativeParts definition.source = .ok parts) ∧
      checkNonYamlFile definition.source = .ok () ∧ source.length ≤ maxPatchBytes := by
  obtain ⟨_, t, hyaml, h⟩ := bind_ok_iff.mp h
  obtain ⟨hparts, file, u, u', -, -, hbody, -⟩ := withFile_ok h
  obtain ⟨snapshot, _, hread, hbody⟩ := bind_ok_iff.mp hbody
  obtain ⟨current, _, -, hbody⟩ := bind_ok_iff.mp hbody
  split at hbody
  · cases (raise_eq_iff.mp hbody).1
  · obtain ⟨⟨⟩, -⟩ := pure_eq_iff.mp hbody
    exact ⟨⟨_, hparts⟩, (ofPatch_ok hyaml).1, read_length hread⟩

theorem loadRevision_ok {revision : Text}
    (h : ManagedPatchStore.loadRevision env revision w = (.ok source, w')) :
    env.sha256 source = revision ∧ source.length ≤ maxPatchBytes := by
  rcases rescue_eq_iff.mp h with ⟨a, h, ⟨⟩⟩ | ⟨e, t, -, h⟩
  · unfold ManagedPatchStore.readRevision at h
    split at h
    · cases (raise_eq_iff.mp h).1
    · obtain ⟨snapshot, t, hfile, h⟩ := bind_ok_iff.mp h
      obtain ⟨-, file, u, u', -, -, hread, -⟩ := withFile_ok hfile
      split at h
      · cases (raise_eq_iff.mp h).1
      · rename_i hsame
        obtain ⟨⟨⟩, -⟩ := pure_eq_iff.mp h
        exact ⟨not_not.mp hsame, read_length hread⟩
  · split at h <;> cases (raise_eq_iff.mp h).1

theorem joinChunks_length {data out : Bytes} {chunks : List Bytes}
    (hdata : data.length ≤ maxPatchBytes) (h : joinChunks data chunks = .ok out) :
    out.length ≤ maxPatchBytes := by
  induction chunks generalizing data with
  | nil =>
    cases h
    exact hdata
  | cons chunk chunks ih =>
    unfold joinChunks at h
    split at h
    · cases h
    · apply ih _ h
      rw [List.length_append]
      omega

theorem content_length {exchange : Exchange} (h : exchange.content = .ok source) :
    source.length ≤ maxPatchBytes := by
  cases exchange with
  | denied => cases h
  | failed => cases h
  | response status chunks complete =>
    unfold Exchange.content at h
    simp only at h
    split at h
    · cases h
    · obtain ⟨data, hdata, h⟩ := Results.bind_eq_ok.mp h
      split at h <;> cases h
      exact joinChunks_length (Nat.zero_le _) hdata

theorem verifySource_ok {data : Bytes} {expected : Option Text}
    (h : verifySource env data expected w = (.ok source, w')) :
    source = data ∧ ∀ digest, expected = some digest → env.sha256 source = digest := by
  unfold verifySource at h
  split at h
  · cases (raise_eq_iff.mp h).1
  · rename_i hsame
    obtain ⟨⟨⟩, -⟩ := pure_eq_iff.mp h
    refine ⟨rfl, fun digest hdigest => ?_⟩
    rw [hdigest, Option.any_some, decide_eq_true_eq, not_not] at hsame
    exact hsame.symm

/-- Every source that is read has passed the checks of its kind. -/
theorem fetchSource_ok {network : Network}
    (h : fetchSource env network definition w = (.ok source, w')) : Supplied env definition source := by
  unfold fetchSource at h
  split at h
  · rename_i hlocal
    obtain ⟨data, t, hdata, h⟩ := bind_ok_iff.mp h
    obtain ⟨rfl, hpinned⟩ := verifySource_ok h
    obtain ⟨hparts, hyaml, hlength⟩ := localSource_ok hdata
    refine ⟨hpinned, fun hmanaged => ?_, fun hne => absurd hlocal hne, fun _ => ⟨hparts, hyaml⟩,
      hlength⟩
    exact absurd (hlocal.symm.trans hmanaged) (by decide)
  split at h
  · rename_i hlocal hmanaged
    obtain ⟨data, t, hdata, h⟩ := bind_ok_iff.mp h
    obtain ⟨rfl, hpinned⟩ := verifySource_ok h
    obtain ⟨hrevision, hlength⟩ := loadRevision_ok hdata
    exact ⟨hpinned, fun _ => hrevision, fun _ hne => absurd hmanaged hne,
      fun h => absurd h hlocal, hlength⟩
  split at h
  · cases (raise_eq_iff.mp h).1
  · rename_i hlocal hmanaged hrequired
    obtain ⟨_, t, -, h⟩ := bind_ok_iff.mp h
    obtain ⟨data, t', hdata, h⟩ := bind_ok_iff.mp h
    obtain ⟨rfl, hpinned⟩ := verifySource_ok h
    obtain ⟨hcontent, -⟩ := lift_eq_iff.mp hdata
    exact ⟨hpinned, fun h => absurd h hmanaged, fun _ _ => hrequired,
      fun h => absurd h hlocal, content_length hcontent.symm⟩

end Hapatchy
