import Hapatchy.PatchSource
import Hapatchy.Reconciler.Inspected

/-!
# Saving a revision

`ManagedPatchStore.save` among the calls of a flow. The store with many saves
side by side is in `ManagedSource`; here it counts which files a save changes.
-/

open Effects Prog

namespace Hapatchy

variable (env : Env)

/-! ## Hard links -/

/-- `os.link` of the file `source` under the free name `target`. -/
def link (source target : Path) : Io Unit := fun w =>
  let w' := arrive env w
  match env.fault w.step with
  | some fault => (.error (.os fault.error), w')
  | none =>
    match w'.fs.lookup source with
    | none => (.error (.os .fileNotFound), w')
    | some node =>
      if target ∈ w'.fs then (.error (.os .fileExists), w')
      else
        let linked := some { node with
          nlink := node.nlink + 1, ctime := (env.stamp w.step).time }
        (.ok (), (w'.edit source linked).edit target linked)

/-- What is left at `other` when the name of `node` goes. -/
def unlinked (env : Env) (n : Nat) (node : Node) (other : Path) (w : World) : World :=
  match w.fs.lookup other with
  | none => w
  | some linked =>
    if linked.ino = node.ino then
      w.edit other (some { linked with nlink := linked.nlink - 1, ctime := (env.stamp n).time })
    else w

/-- `os.unlink` of a file that may be linked to `other`. -/
def unlinkLinked (p other : Path) : Io Unit := fun w =>
  let w' := arrive env w
  match env.fault w.step with
  | some fault => (.error (.os fault.error), w')
  | none =>
    match w'.fs.lookup p with
    | none => (.error (.os .fileNotFound), w')
    | some node =>
      if node.kind = .directory then (.error (.os .other), w')
      else (.ok (), unlinked env w.step node other (w'.edit p none))

/-! ## Saving -/

namespace ManagedPatchStore

/-- `PARTS` -/
def parts : List Text := [".hapatchy".toList, "patches".toList]

/-- The `os.link` of `save`. Another save may own the digest already. -/
def linkRevision (temporary : Path) (revision : Text) (target : Path) : Io Unit :=
  rescue (link env temporary target) fun error =>
    if error = .os .fileExists then do
      let _ ← readRevision env revision
      pure ()
    else raise error

/-- The `with` block of `save` where the revision is not there yet. -/
def publishRevision (data : Bytes) (temporary revision : Text) (directory : GuardedDirectory) :
    Io Unit := do
  let p := directory.path ++ [temporary]
  let target := directory.path ++ [revision ++ ".patch".toList]
  let handle ← createExclusive env p
  ensure
    (do
      ensure
        (do
          write env p data
          fsync env p)
        fun _ => close env handle
      directory.verify env
      linkRevision env p revision target)
    fun _ => unlinkLinked env p target
  directory.verify env
  fsync env directory.path
  let _ ← readRevision env revision
  pure ()

/-- The first `_read` of `save`: whether the revision is there. -/
def revisionThere (revision : Text) : Io Bool :=
  rescue
    (do
      let _ ← readRevision env revision
      pure true)
    fun error => if error.isMissing then pure false else raise error

/-- `save` -/
def saveRevision (data : Bytes) : Io Text := do
  ofPatch (validateContent data)
  let revision := env.sha256 data
  let w ← read
  let temporary := ".pending-".toList ++ (env.uuid w.step).val
  rescueOs
    (withDirectory env parts true fun directory => do
      let there ← revisionThere env revision
      if there then do
        directory.verify env
        fsync env directory.path
      else publishRevision env data temporary revision directory)
    fun _ => raisePatch .managedSourceWriteFailed .sourceError
  pure revision

end ManagedPatchStore

/-! ## What a save changes -/

variable {env} {w w' : World} {p q : Path}

/-- Changes of files below `.hapatchy`, and no other ones. -/
def Publishes : Label → Prop
  | .call => True
  | .edit p => Internal p
  | .sync _ => True
  | _ => False

theorem does_link (hp : Internal p) (hq : Internal q) : Does env Publishes (link env p q) := by
  intro w
  have hcall : Steps env Publishes w (arrive env w) :=
    .single (l := .call) trivial (.call w)
  unfold link
  simp only
  split
  · exact hcall
  split
  · exact hcall
  split
  · exact hcall
  · exact (hcall.tail ⟨.edit p, hp, .edit ..⟩).tail ⟨.edit q, hq, .edit ..⟩

theorem does_unlinkLinked (hp : Internal p) (hq : Internal q) :
    Does env Publishes (unlinkLinked env p q) := by
  intro w
  have hcall : Steps env Publishes w (arrive env w) :=
    .single (l := .call) trivial (.call w)
  unfold unlinkLinked
  simp only
  split
  · exact hcall
  split
  · exact hcall
  split
  · exact hcall
  have hgone : Steps env Publishes w ((arrive env w).edit p none) :=
    hcall.tail ⟨.edit p, hp, .edit ..⟩
  unfold unlinked
  split
  · exact hgone
  split
  · exact hgone.tail ⟨.edit q, hq, .edit ..⟩
  · exact hgone

namespace ManagedPatchStore

theorem internal_parts : Internal parts := List.prefix_append [_] _

theorem publishes_create {part : Text} (h : q ++ [part] <+: parts) :
    Publishes (.edit (q ++ [part])) ∧ Publishes (.sync q) := by
  refine ⟨?_, trivial⟩
  cases q with
  | nil =>
    unfold parts at h
    rw [List.nil_append, List.cons_prefix_cons] at h
    rw [h.1]
    exact List.prefix_refl _
  | cons head rest =>
    unfold parts at h
    rw [List.cons_append, List.cons_prefix_cons] at h
    rw [h.1]
    exact List.prefix_append [_] _

theorem does_publishRevision {data : Bytes} {temporary revision : Text}
    {directory : GuardedDirectory} (hpath : directory.path = parts) :
    Does env Publishes (publishRevision env data temporary revision directory) := by
  have hinternal {name : Text} : Internal (directory.path ++ [name]) := by
    rw [hpath]
    exact internal_parts.append
  have hread {revision : Text} : Does env Publishes (readRevision env revision) :=
    does_readRevision trivial
  apply runs_bind (does_createExclusive trivial hinternal)
  intro handle
  apply runs_bind
  · apply runs_ensure
    · apply runs_bind
      · apply runs_ensure
        · apply runs_bind (does_write trivial hinternal)
          exact fun _ => does_fsync trivial trivial
        · exact fun _ => does_close trivial
      · intro _
        apply runs_bind (does_verify trivial)
        intro _
        apply runs_rescue (does_link hinternal hinternal)
        intro error
        apply runs_ite
        · exact fun _ => runs_bind hread fun _ => runs_pure
        · exact fun _ => runs_raise
    · exact fun _ => does_unlinkLinked hinternal hinternal
  · intro _
    apply runs_bind (does_verify trivial)
    intro _
    apply runs_bind (does_fsync trivial trivial)
    exact fun _ => runs_bind hread fun _ => runs_pure

/-- A save changes no file of the user. -/
theorem does_saveRevision {data : Bytes} : Does env Publishes (saveRevision env data) := by
  have hread {revision : Text} : Does env Publishes (readRevision env revision) :=
    does_readRevision trivial
  apply runs_bind does_ofPatch
  intro _
  apply runs_bind runs_read
  intro w
  apply runs_bind
  · apply does_rescueOs
    · apply does_withDirectory trivial
      · exact fun _ q part h => publishes_create h
      · intro directory hpath
        apply runs_bind
        · apply runs_rescue
          · exact runs_bind hread fun _ => runs_pure
          · exact fun error => runs_ite (fun _ => runs_pure) fun _ => runs_raise
        · intro there
          apply runs_ite
          · intro _
            exact runs_bind (does_verify trivial) fun _ => does_fsync trivial trivial
          · exact fun _ => does_publishRevision hpath
    · exact fun _ => does_raisePatch
  · exact fun _ => runs_pure

theorem saveRevision_ok {data : Bytes} {revision : Text}
    (h : saveRevision env data w = (.ok revision, w')) : revision = env.sha256 data := by
  obtain ⟨_, t, -, h⟩ := bind_ok_iff.mp h
  obtain ⟨w, t', -, h⟩ := bind_ok_iff.mp h
  obtain ⟨_, t'', -, h⟩ := bind_ok_iff.mp h
  obtain ⟨⟨⟩, -⟩ := pure_eq_iff.mp h
  rfl

end ManagedPatchStore

end Hapatchy
