import Hapatchy.AtomicWriter.Specs
import Hapatchy.Backup

/-!
# What a backup holds

A backup that was made is a directory with the two files, and all of it is on
disk. Backups and their removal stay below `.hapatchy`.
-/

open Effects Prog

namespace Hapatchy

variable {env : Env} {T p q : Path} {L : Label → Prop} {w w' : World} {manager : BackupManager}

/-! ## Where the manager works -/

theorem Internal.append (h : Internal p) : Internal (p ++ q) := h.trans (List.prefix_append p q)

theorem IsTarget.spares_internal (hT : IsTarget env T) (h : Internal p) : env.Spares p := by
  refine hT.alone p ?_
  rintro rfl
  exact hT.external h

theorem internal_parts : Internal manager.parts := by
  rw [Internal, BackupManager.parts]
  exact List.prefix_append [_] _

theorem Internal.sync_aside (hT : IsTarget env T) (h : Internal p) : Aside env T (.sync p) := by
  refine ⟨?_, fun htemp => htemp.external hT.external h⟩
  rintro rfl
  exact hT.external h

/-- The root is neither the target nor a temporary file of it. -/
theorem IsTarget.sync_root (hT : IsTarget env T) : Aside env T (.sync []) :=
  ⟨hT.ne_nil.symm, fun ⟨_, h⟩ => by simp at h⟩

/-- Directories that are created on the way to the backups. -/
theorem create_aside (hT : IsTarget env T) {part : Text} (h : q ++ [part] <+: manager.parts) :
    Aside env T (.edit (q ++ [part])) ∧ Aside env T (.sync q) := by
  rcases q with _ | ⟨head, rest⟩
  · refine ⟨?_, hT.sync_root⟩
    rw [BackupManager.parts, List.nil_append, List.cons_prefix_cons] at h
    rw [h.1]
    exact List.prefix_refl _
  · rw [BackupManager.parts, List.cons_append, List.cons_prefix_cons] at h
    have hq : Internal (head :: rest) := by
      rw [h.1]
      exact List.prefix_append [_] rest
    exact ⟨hq.append, hq.sync_aside hT⟩

/-! ## Writing a file -/

theorem OnlyAt.holds {l : Label} (h : OnlyAt p l) (hcall : L .call)
    (hp : L (.edit p) ∧ L (.sync p)) : L l := by
  cases l with
  | edit q =>
    cases h
    exact hp.1
  | sync q =>
    cases h
    exact hp.2
  | call => exact hcall
  | _ => exact h.elim

theorem does_writeFile {data : Bytes} : Does env (OnlyAt p) (writeFile env p data) := by
  refine runs_bind (does_createExclusive trivial rfl) fun handle =>
    runs_ensure ?_ fun _ => does_close trivial
  exact runs_bind (does_write trivial rfl) fun _ => does_fsync trivial rfl

theorem raises_writeFile {P : Exc → Prop} (hP : ∀ e, P (.os e)) {data : Bytes} :
    Raises P (writeFile env p data) :=
  raises_bind (raises_createExclusive hP) fun _ =>
    raises_ensure (raises_bind (raises_write hP) fun _ => raises_fsync hP) fun _ => raises_look hP

/-- A regular file of its own, whose bytes are on disk. -/
def DurableFile (fs : Fs) (p : Path) (data : Bytes) : Prop :=
  ∃ node names, fs.lookup p = some node ∧ node.kind = .file ∧ node.nlink = 1 ∧ node.data = data ∧
    node.synced = some (data, names)

theorem writeFile_ok {data : Bytes} {u : Unit} (henv : env.Spares p)
    (h : writeFile env p data w = (.ok u, w')) : DurableFile w'.fs p data := by
  obtain ⟨handle, t, hcreate, h⟩ := bind_ok_iff.mp h
  obtain ⟨-, -, rfl⟩ := createExclusive_ok hcreate
  obtain ⟨out, t', hbody, ⟨hclose, rfl⟩ | ⟨e, -, ⟨⟩⟩⟩ := ensure_eq_iff.mp h
  obtain ⟨_, t'', hwrite, hsync⟩ := bind_ok_iff.mp hbody
  obtain ⟨names, hnode, -, -⟩ := fsync_ok henv hsync (write_ok henv hwrite World.edit_lookup)
  obtain ⟨-, rfl⟩ := look_ok hclose
  rw [← arrive_lookup henv] at hnode
  exact ⟨_, names, hnode, rfl, rfl, rfl, rfl⟩

/-! ## A backup -/

/-- A backup under the name `name`, all of it on disk. -/
structure Preimage (fs : Fs) (parent : Path) (name : Text) (data metadata : Bytes) : Prop where
  directory : ∃ node names, fs.lookup (parent ++ [name]) = some node ∧ node.kind = .directory ∧
    node.synced = some (node.data, names) ∧ ∀ x, x ∈ names ↔ x = targetName ∨ x = metadataFile
  listing : ∀ x, (fs.lookup (parent ++ [name] ++ [x])).isSome ↔ x = targetName ∨ x = metadataFile
  target : DurableFile fs (parent ++ [name] ++ [targetName]) data
  metadata : DurableFile fs (parent ++ [name] ++ [metadataFile]) metadata
  entry : ∃ node data names, fs.lookup parent = some node ∧ node.synced = some (data, names) ∧
    name ∈ names

theorem DurableFile.congr {fs fs' : Fs} {data : Bytes} (h : DurableFile fs p data)
    (hfs : fs'.lookup p = fs.lookup p) : DurableFile fs' p data := by
  rw [DurableFile, hfs]
  exact h

theorem Preimage.congr {fs fs' : Fs} {parent : Path} {name : Text} {data metadata : Bytes}
    (h : Preimage fs parent name data metadata)
    (hfs : ∀ p, parent <+: p → fs'.lookup p = fs.lookup p) :
    Preimage fs' parent name data metadata where
  directory := by
    rw [hfs _ (List.prefix_append _ _)]
    exact h.directory
  listing x := by
    rw [hfs _ (List.append_assoc _ _ _ ▸ List.prefix_append _ _)]
    exact h.listing x
  target := h.target.congr (hfs _ (List.append_assoc _ _ _ ▸ List.prefix_append _ _))
  metadata := h.metadata.congr (hfs _ (List.append_assoc _ _ _ ▸ List.prefix_append _ _))
  entry := by
    rw [hfs _ (List.prefix_refl _)]
    exact h.entry

theorem targetName_ne : targetName ≠ metadataFile := by decide

section Create

variable {snapshot : Snapshot} {targetPath : Text} {output : Bytes} {sourceSha256 operation : Text}

variable (env manager) in
/-- The `try` block of `create`. -/
def BackupManager.createIn (name : Text) (data metadata : Bytes) : Io Unit :=
  withDirectory env manager.parts true fun parent => do
    mkdir env (parent.path ++ [name])
    withDirectory env (manager.parts ++ [name]) false fun directory => do
      writeFile env (directory.path ++ [targetName]) data
      writeFile env (directory.path ++ [metadataFile]) metadata
      directory.verify env
      fsync env directory.path
    parent.verify env
    fsync env parent.path

/-- Making a backup edits and syncs the way to the backups, and what is below the new one. -/
theorem does_createIn {name : Text} {data metadata : Bytes} (h : L .call)
    (hdirs : ∀ q part, q ++ [part] <+: manager.parts → L (.edit (q ++ [part])) ∧ L (.sync q))
    (hsync : L (.sync manager.parts))
    (hbelow : ∀ q, manager.parts ++ [name] <+: q → L (.edit q) ∧ L (.sync q)) :
    Does env L (manager.createIn env name data metadata) := by
  refine does_withDirectory h (fun _ => hdirs) fun parent hparent => ?_
  refine runs_bind (does_mkdir h (hparent ▸ (hbelow _ (List.prefix_refl _)).1)) fun _ => ?_
  refine runs_bind (does_withDirectory h (fun hc => absurd hc Bool.false_ne_true)
    fun directory hdirectory => ?_) fun _ => ?_
  · have hin : ∀ q, L (.edit (directory.path ++ q)) ∧ L (.sync (directory.path ++ q)) := fun q =>
      hbelow _ (by rw [hdirectory]; exact List.prefix_append _ _)
    have hwrite : ∀ name data, Does env L (writeFile env (directory.path ++ [name]) data) :=
      fun name _ => does_writeFile.mono fun l hl => hl.holds h (hin [name])
    refine runs_bind (hwrite _ _) fun _ => runs_bind (hwrite _ _) fun _ => ?_
    exact runs_bind (does_verify h) fun _ => does_fsync h (List.append_nil directory.path ▸ (hin []).2)
  · exact runs_bind (does_verify h) fun _ => does_fsync h (hparent ▸ hsync)

theorem does_create (h : L .call)
    (hdirs : ∀ q part, q ++ [part] <+: manager.parts → L (.edit (q ++ [part])) ∧ L (.sync q))
    (hbelow : ∀ q, manager.parts <+: q → L (.edit q) ∧ L (.sync q)) : Does env L
    (manager.create env snapshot targetPath output sourceSha256 operation) := by
  refine runs_bind runs_read fun w => runs_bind (does_rescueOs ?_ fun _ => runs_raise) fun _ =>
    runs_pure
  exact does_createIn h hdirs (hbelow _ (List.prefix_refl _)).2 fun q hq =>
    hbelow q ((List.prefix_append _ _).trans hq)

/-- Making a backup stays below `.hapatchy`. -/
theorem does_create_aside (hT : IsTarget env T) : Does env (Aside env T)
    (manager.create env snapshot targetPath output sourceSha256 operation) :=
  does_create trivial (fun _ _ h => create_aside hT h) fun _ hq =>
    ⟨internal_parts.trans hq, Internal.sync_aside hT (internal_parts.trans hq)⟩

theorem raises_create : Raises Exc.IsPatch
    (manager.create env snapshot targetPath output sourceSha256 operation) := by
  have hos : ∀ e, (fun e => Exc.IsPatch e ∨ e.IsOs) (.os e) := fun _ => Or.inr trivial
  have hpatch : ∀ e, (fun e => Exc.IsPatch e ∨ e.IsOs) (.patch e) := fun _ => Or.inl trivial
  refine raises_bind raises_read fun w => raises_bind (raises_rescueOs ?_ fun _ =>
    raises_raise trivial) fun _ => raises_pure
  refine raises_withDirectory hos hpatch fun parent => raises_bind (raises_mkdir hos) fun _ => ?_
  refine raises_bind (raises_withDirectory hos hpatch fun directory => ?_) fun _ => ?_
  · refine raises_bind (raises_writeFile hos) fun _ => raises_bind (raises_writeFile hos) fun _ => ?_
    exact raises_bind (raises_verify hos hpatch) fun _ => raises_fsync hos
  · exact raises_bind (raises_verify hos hpatch) fun _ => raises_fsync hos

/-- Steps below a directory. -/
def Below (p : Path) : Label → Prop
  | .call => True
  | .edit q => p <+: q
  | .sync q => p <+: q
  | _ => False

theorem frame_below (h : ¬ p <+: q) : Frame (Below p) q := ⟨h, h, fun _ _ => False.elim⟩

theorem does_fillBackup {directory : GuardedDirectory} {data metadata : Bytes} :
    Does env (Below directory.path) (writeFile env (directory.path ++ [targetName]) data >>= fun _ =>
      writeFile env (directory.path ++ [metadataFile]) metadata >>= fun _ =>
        directory.verify env >>= fun _ => fsync env directory.path) := by
  have hwrite : ∀ name data,
      Does env (Below directory.path) (writeFile env (directory.path ++ [name]) data) :=
    fun name data => does_writeFile.mono fun l hl => by
      cases l with
      | edit q | sync q =>
        cases hl
        exact List.prefix_append _ _
      | call => trivial
      | _ => exact hl.elim
  refine runs_bind (hwrite _ _) fun _ => runs_bind (hwrite _ _) fun _ => ?_
  exact runs_bind (does_verify trivial) fun _ => does_fsync trivial (List.prefix_refl _)

/-- What a directory holds after its two files were written. -/
theorem fillBackup_ok {directory : GuardedDirectory} {node : Node} {data metadata : Bytes}
    {u : Unit} (henv : ∀ q, directory.path <+: q → env.Spares q)
    (h : (writeFile env (directory.path ++ [targetName]) data >>= fun _ =>
      writeFile env (directory.path ++ [metadataFile]) metadata >>= fun _ =>
        directory.verify env >>= fun _ => fsync env directory.path) w = (.ok u, w'))
    (hnode : w.fs.lookup directory.path = some node) (hkind : node.kind = .directory)
    (hempty : ∀ x, w.fs.lookup (directory.path ++ [x]) = none) :
    (∃ node names, w'.fs.lookup directory.path = some node ∧ node.kind = .directory ∧
        node.synced = some (node.data, names) ∧
        ∀ x, x ∈ names ↔ x = targetName ∨ x = metadataFile) ∧
      (∀ x, (w'.fs.lookup (directory.path ++ [x])).isSome ↔ x = targetName ∨ x = metadataFile) ∧
      DurableFile w'.fs (directory.path ++ [targetName]) data ∧
      DurableFile w'.fs (directory.path ++ [metadataFile]) metadata := by
  obtain ⟨_, t₁, htarget, h⟩ := bind_ok_iff.mp h
  obtain ⟨_, t₂, hmetadata, h⟩ := bind_ok_iff.mp h
  obtain ⟨_, t₃, hverify, hsync⟩ := bind_ok_iff.mp h
  have hne : directory.path ++ [targetName] ≠ directory.path ++ [metadataFile] := by
    simpa using targetName_ne
  -- Each write is at its own file, and the rest changes no file.
  have hT : ∀ q, directory.path <+: q → q ≠ directory.path ++ [targetName] →
      t₁.fs.lookup q = w.fs.lookup q := fun q hq hqne =>
    Steps.lookup (does_writeFile.of_eq htarget) (frame_onlyAt hqne) (henv q hq)
  have hM : ∀ q, directory.path <+: q → q ≠ directory.path ++ [metadataFile] →
      t₂.fs.lookup q = t₁.fs.lookup q := fun q hq hqne =>
    Steps.lookup (does_writeFile.of_eq hmetadata) (frame_onlyAt hqne) (henv q hq)
  have hV : ∀ q, directory.path <+: q → t₃.fs.lookup q = t₂.fs.lookup q := fun q hq =>
    Steps.lookup (L := NoEdit) ((does_verify trivial).of_eq hverify) frame_noEdit (henv q hq)
  have hS : ∀ q, directory.path <+: q → q ≠ directory.path →
      w'.fs.lookup q = t₃.fs.lookup q := fun q hq hqne =>
    Steps.lookup ((does_fsync (L := OnlyAt directory.path) trivial rfl).of_eq hsync)
      (frame_onlyAt hqne) (henv q hq)
  have hchild : ∀ x, directory.path <+: directory.path ++ [x] := fun _ => List.prefix_append _ _
  have hchildne : ∀ x, directory.path ++ [x] ≠ directory.path := by simp
  have htargetFile : DurableFile t₁.fs (directory.path ++ [targetName]) data :=
    writeFile_ok (henv _ (hchild _)) htarget
  have hmetadataFile : DurableFile t₂.fs (directory.path ++ [metadataFile]) metadata :=
    writeFile_ok (henv _ (hchild _)) hmetadata
  have htargetFile' : DurableFile w'.fs (directory.path ++ [targetName]) data :=
    htargetFile.congr (by
      rw [hS _ (hchild _) (hchildne _), hV _ (hchild _), hM _ (hchild _) hne])
  have hmetadataFile' : DurableFile w'.fs (directory.path ++ [metadataFile]) metadata :=
    hmetadataFile.congr (by rw [hS _ (hchild _) (hchildne _), hV _ (hchild _)])
  have hlisting : ∀ x, (w'.fs.lookup (directory.path ++ [x])).isSome ↔
      x = targetName ∨ x = metadataFile := by
    intro x
    constructor
    · intro hx
      by_contra hother
      rw [not_or] at hother
      rw [hS _ (hchild _) (hchildne _), hV _ (hchild _), hM _ (hchild _) (by simpa using hother.2),
        hT _ (hchild _) (by simpa using hother.1), hempty] at hx
      exact Bool.false_ne_true hx
    · rintro (rfl | rfl)
      · obtain ⟨_, _, hlookup, -⟩ := htargetFile'
        rw [hlookup]
        rfl
      · obtain ⟨_, _, hlookup, -⟩ := hmetadataFile'
        rw [hlookup]
        rfl
  have hdirectory : t₃.fs.lookup directory.path = some node := by
    rw [hV _ (List.prefix_refl _), hM _ (List.prefix_refl _) (hchildne _).symm,
      hT _ (List.prefix_refl _) (hchildne _).symm, hnode]
  obtain ⟨names, hsynced, hnames, -⟩ := fsync_ok (henv _ (List.prefix_refl _)) hsync hdirectory
  exact ⟨⟨_, names, hsynced, hkind, rfl, fun x => (hnames x).trans (hlisting x)⟩, hlisting,
    htargetFile', hmetadataFile'⟩

variable (env manager snapshot targetPath output sourceSha256 operation) in
/-- The preimage that `create` leaves, with what the clock and `uuid4` gave at call `n`. -/
def PreimageAt (n : Nat) (fs : Fs) : Prop :=
  Preimage fs manager.parts (backupName (env.now n) (env.uuid n)) snapshot.data
    (env.dumps (manager.metadata env snapshot targetPath output sourceSha256 operation
      (env.now n)).json)

/-- A backup that was made is all on disk. -/
theorem create_ok {name : Text} (hT : IsTarget env T)
    (h : manager.create env snapshot targetPath output sourceSha256 operation w = (.ok name, w')) :
    PreimageAt env manager snapshot targetPath output sourceSha256 operation w.step w'.fs := by
  rw [BackupManager.create, read_bind] at h
  obtain ⟨_, t, hmake, h⟩ := bind_ok_iff.mp h
  obtain ⟨-, rfl⟩ := pure_eq_iff.mp h
  rcases rescueOs_ok hmake with hmake | ⟨_, _, -, hraise⟩
  swap
  · cases (raise_eq_iff.mp hraise).1
  obtain ⟨parent, t₁, t₂, hparent, -, hbody, hexit⟩ := withDirectory_ok (L := NoEdit) trivial hmake
  obtain ⟨_, t₃, hmkdir, hbody⟩ := bind_ok_iff.mp hbody
  obtain ⟨hnew, hempty, hthere⟩ := mkdir_ok hmkdir
  obtain ⟨_, t₄, hinner, hbody⟩ := bind_ok_iff.mp hbody
  obtain ⟨_, t₅, hverify, hsync⟩ := bind_ok_iff.mp hbody
  obtain ⟨directory, t₆, t₇, hdirectory, henter, hfill, hexit'⟩ :=
    withDirectory_ok (L := NoEdit) trivial hinner
  rw [hparent] at hnew hempty hthere hsync
  rw [List.dropLast_concat] at hthere
  have hspares : ∀ q, manager.parts <+: q → env.Spares q := fun q hq =>
    hT.spares_internal (internal_parts.trans hq)
  have hbelow : ∀ q, directory.path <+: q → manager.parts <+: q := fun q hq =>
    (hdirectory ▸ List.prefix_append _ _ : manager.parts <+: directory.path).trans hq
  -- Entering the new directory changes nothing.
  have hsame : ∀ q, manager.parts <+: q → t₆.fs.lookup q = t₃.fs.lookup q := fun q hq =>
    Steps.lookup (L := NoEdit)
      ((does_enter trivial fun h => absurd h Bool.false_ne_true).of_eq henter) frame_noEdit
      (hspares q hq)
  obtain ⟨hdir, hlisting, htarget, hmetadata⟩ := fillBackup_ok
    (fun q hq => hspares q (hbelow q hq)) hfill
    ((hsame _ (hbelow _ (List.prefix_refl _))).trans (hdirectory ▸ hnew)) rfl
    (fun x => (hsame _ (hbelow _ (List.prefix_append _ _))).trans (hdirectory ▸ hempty x))
  rw [hdirectory] at hdir hlisting htarget hmetadata
  -- From here on, only the directory above changes: its fsync has the new name.
  have hquiet : ∀ q, manager.parts <+: q → t₅.fs.lookup q = t₇.fs.lookup q := fun q hq =>
    Steps.lookup (hexit'.trans ((does_verify (L := NoEdit) trivial).of_eq hverify)) frame_noEdit
      (hspares q hq)
  have hfilled : ∀ q, manager.parts <+: q → ¬ directory.path <+: q →
      t₇.fs.lookup q = t₆.fs.lookup q := fun q hq hout =>
    Steps.lookup (does_fillBackup.of_eq hfill) (frame_below hout) (hspares q hq)
  have hparts : (t₅.fs.lookup manager.parts).isSome := by
    have hout : ¬ directory.path <+: manager.parts := by
      rw [hdirectory]
      intro hpre
      have := hpre.length_le
      rw [List.length_append, List.length_singleton] at this
      omega
    rw [hquiet _ (List.prefix_refl _), hfilled _ (List.prefix_refl _) hout,
      hsame _ (List.prefix_refl _)]
    exact hthere
  obtain ⟨node, hnode⟩ := Option.isSome_iff_exists.mp hparts
  obtain ⟨names, hsynced, hnames, -⟩ := fsync_ok (hspares _ (List.prefix_refl _)) hsync hnode
  have hlast : ∀ q, manager.parts <+: q → q ≠ manager.parts → t₂.fs.lookup q = t₇.fs.lookup q :=
    fun q hq hne => (Steps.lookup ((does_fsync (L := OnlyAt manager.parts) trivial rfl).of_eq hsync)
      (frame_onlyAt hne) (hspares q hq)).trans (hquiet q hq)
  have hname : ∀ q, manager.parts <+: manager.parts ++ [backupName (env.now w.step)
      (env.uuid w.step)] ++ q := fun q => List.append_assoc _ _ _ ▸ List.prefix_append _ _
  have hne : ∀ q, manager.parts ++ [backupName (env.now w.step) (env.uuid w.step)] ++ q ≠
      manager.parts := by simp
  have hpreimage : PreimageAt env manager snapshot targetPath output sourceSha256 operation w.step
      t₂.fs := by
    refine ⟨?_, fun x => ?_, htarget.congr (hlast _ (hname _) (hne _)),
      hmetadata.congr (hlast _ (hname _) (hne _)), ⟨_, _, names, hsynced, rfl, ?_⟩⟩
    · have := hlast _ (hname []) (hne [])
      rw [List.append_nil] at this
      rw [this]
      exact hdir
    · rw [hlast _ (hname _) (hne _)]
      exact hlisting x
    · obtain ⟨node', _, hnode', -⟩ := hdir
      have := hlast _ (hname []) (hne [])
      rw [List.append_nil] at this
      rw [hnames, this, hnode']
      rfl
  exact hpreimage.congr fun q hq => Steps.lookup hexit frame_noEdit (hspares q hq)

end Create

/-! ## Retention -/

section Prune

variable (h : L .call)

include h

theorem does_bothRegular {directory : GuardedDirectory} {names : List Text} :
    Does env L (bothRegular env directory names) := by
  induction names with
  | nil => exact runs_pure
  | cons name names ih =>
    exact runs_bind (does_lstat h) fun _ => runs_ite (fun _ => runs_pure) fun _ => ih

theorem does_anyIrregular {directory : GuardedDirectory} {names : List Text} :
    Does env L (anyIrregular env directory names) := by
  induction names with
  | nil => exact runs_pure
  | cons name names ih =>
    exact runs_bind (does_lstat h) fun _ => runs_ite (fun _ => runs_pure) fun _ => ih

variable {exhausts : Bytes → Bool}

theorem does_complete {directory : GuardedDirectory} :
    Does env L (manager.complete env directory exhausts) := by
  refine runs_bind (does_listdir h) fun names => runs_ite (fun _ => runs_pure) fun _ => ?_
  refine runs_bind (does_bothRegular h) fun regular => runs_ite (fun _ => runs_pure) fun _ => ?_
  refine runs_bind (does_openFile h) fun file => ?_
  refine runs_bind (runs_ensure (does_readAt h) fun _ => does_close h) fun raw => ?_
  exact runs_ite (fun _ => runs_pure) fun _ => runs_ite (fun _ => runs_raise) fun _ => runs_pure

omit h in
theorem does_goOn {found : Bool} {e : Exc} : Does env L (goOn found e) := by
  cases e <;> first | exact runs_pure | exact runs_raise

theorem does_isCandidate {name : Text} : Does env L (manager.isCandidate env name exhausts) := by
  refine runs_rescue (runs_bind (does_enter h fun hc => absurd hc Bool.false_ne_true)
    fun directory => ?_) fun _ => does_goOn
  refine runs_bind (runs_rescue (does_complete h) fun _ => runs_bind (does_exit h) fun _ => runs_raise)
    fun found => ?_
  exact runs_rescue (runs_bind (does_exit h) fun _ => runs_pure) fun _ => does_goOn

theorem does_completeAmong {names : List Text} :
    Does env L (manager.completeAmong env exhausts names) := by
  induction names with
  | nil => exact runs_pure
  | cons name names ih =>
    rw [BackupManager.completeAmong]
    exact runs_ite (fun _ => ih) fun _ => runs_bind (does_isCandidate h) fun _ =>
      runs_bind ih fun _ => runs_pure

theorem does_completeBackups {parent : GuardedDirectory} :
    Does env L (manager.completeBackups env parent exhausts) :=
  runs_bind (does_listdir h) fun _ => does_completeAmong h

end Prune

/-- Emptying a backup edits what is in it. -/
theorem does_emptyBackup {name : Text} (h : L .call)
    (hedit : ∀ x, L (.edit (manager.parts ++ [name] ++ [x])) ∧
      L (.unlinkFailed (manager.parts ++ [name] ++ [x]))) :
    Does env L (manager.emptyBackup env name) := by
  refine does_withDirectory h (fun hc => absurd hc Bool.false_ne_true) fun directory hdirectory => ?_
  refine runs_bind (does_listdir h) fun names => runs_ite (fun _ => runs_pure) fun _ => ?_
  refine runs_bind (does_anyIrregular h) fun irregular => runs_ite (fun _ => runs_pure) fun _ => ?_
  refine runs_bind (does_verify h) fun _ => runs_bind (runs_forM fun item _ => ?_) fun _ => runs_pure
  rw [hdirectory]
  exact does_unlink h (hedit item).1 (hedit item).2

theorem does_removeAll {parent : GuardedDirectory} {names : List Text} (h : L .call)
    (hparent : parent.path = manager.parts)
    (hedit : ∀ name ∈ names, ∀ q, manager.parts ++ [name] <+: q → L (.edit q) ∧ L (.unlinkFailed q)) :
    Does env L (manager.removeAll env parent names) := by
  induction names with
  | nil => exact runs_pure
  | cons name names ih =>
    have hname := hedit name List.mem_cons_self
    have hrest := ih fun b hb => hedit b (List.mem_cons_of_mem _ hb)
    refine runs_bind (does_emptyBackup h fun x => hname _ (List.prefix_append _ _)) fun emptied =>
      runs_ite (fun _ => ?_) fun _ => hrest
    refine runs_bind (does_verify h) fun _ => runs_bind (does_rmdir h ?_) fun _ => hrest
    exact hparent ▸ (hname _ (List.prefix_refl _)).1

/-- Pruning edits what is below the backups, and syncs their directory. -/
theorem does_prune {exhausts : Bytes → Bool} (h : L .call) (hsync : L (.sync manager.parts))
    (hedit : ∀ q, manager.parts <+: q → L (.edit q) ∧ L (.unlinkFailed q)) :
    Does env L (manager.prune env exhausts) := by
  refine does_rescueOs (does_withDirectory h (fun hc => absurd hc Bool.false_ne_true)
    fun parent hparent => ?_) fun e => ?_
  · refine runs_bind (does_completeBackups h) fun _ =>
      runs_bind (does_removeAll h hparent fun name _ q hq => ?_) fun _ =>
        does_fsync h (hparent ▸ hsync)
    exact hedit q ((List.prefix_append _ _).trans hq)
  · cases e <;> first | exact runs_pure | exact runs_raise

/-- Pruning stays below `.hapatchy`. -/
theorem does_prune_aside (hT : IsTarget env T) : Does env (Aside env T) (manager.prune env) :=
  does_prune trivial (internal_parts.sync_aside hT) fun _ hq =>
    ⟨internal_parts.trans hq, internal_parts.trans hq⟩

section Raises

variable {P : Exc → Prop} (hos : ∀ e, P (.os e))

include hos

theorem raises_bothRegular {directory : GuardedDirectory} {names : List Text} :
    Raises P (bothRegular env directory names) := by
  induction names with
  | nil => exact raises_pure
  | cons name names ih =>
    refine raises_bind (raises_look hos) fun info => ?_
    split
    · exact raises_pure
    · exact ih

theorem raises_anyIrregular {directory : GuardedDirectory} {names : List Text} :
    Raises P (anyIrregular env directory names) := by
  induction names with
  | nil => exact raises_pure
  | cons name names ih =>
    refine raises_bind (raises_look hos) fun info => ?_
    split
    · exact raises_pure
    · exact ih

variable {exhausts : Bytes → Bool} (hrecursion : ∀ raw, exhausts raw = true → P .recursion)

include hrecursion

theorem raises_complete {directory : GuardedDirectory} :
    Raises P (manager.complete env directory exhausts) := by
  refine raises_bind (raises_look hos) fun names => raises_ite (fun _ => raises_pure) fun _ => ?_
  refine raises_bind (raises_bothRegular hos) fun regular =>
    raises_ite (fun _ => raises_pure) fun _ => ?_
  refine raises_bind (raises_look hos) fun file => ?_
  refine raises_bind (raises_ensure (raises_look hos) fun _ => raises_look hos) fun raw => ?_
  exact raises_ite (fun _ => raises_pure) fun _ =>
    raises_ite (fun hraw => raises_raise (hrecursion raw hraw)) fun _ => raises_pure

omit hos hrecursion in
theorem raises_goOn {found : Bool} {e : Exc} (he : P e) : Raises P (goOn found e) := by
  cases e with
  | value | recursion => exact raises_raise he
  | _ => exact raises_pure

variable (henter : ∀ parts, Raises P (GuardedDirectory.enter env parts))

include henter

theorem raises_isCandidate {name : Text} : Raises P (manager.isCandidate env name exhausts) := by
  refine raises_rescue (Q := P) (raises_bind (henter _) fun directory => ?_) fun _ => raises_goOn
  refine raises_bind (raises_onError (raises_complete hos hrecursion) (raises_exit hos)) fun found => ?_
  exact raises_rescue (Q := P) (raises_bind (raises_exit hos) fun _ => raises_pure) fun _ => raises_goOn

theorem raises_completeAmong {names : List Text} :
    Raises P (manager.completeAmong env exhausts names) := by
  induction names with
  | nil => exact raises_pure
  | cons name names ih =>
    rw [BackupManager.completeAmong]
    exact raises_ite (fun _ => ih) fun _ => raises_bind (raises_isCandidate hos hrecursion henter)
      fun _ => raises_bind ih fun _ => raises_pure

end Raises

section Raises

variable {P : Exc → Prop} (hos : ∀ e, P (.os e)) (hpatch : ∀ e, P (.patch e))

include hos hpatch

theorem raises_emptyBackup {name : Text} : Raises P (manager.emptyBackup env name) := by
  refine raises_withDirectory hos hpatch fun directory => raises_bind (raises_look hos) fun names => ?_
  refine raises_ite (fun _ => raises_pure) fun _ => raises_bind (raises_anyIrregular hos) fun _ => ?_
  refine raises_ite (fun _ => raises_pure) fun _ => raises_bind (raises_verify hos hpatch) fun _ => ?_
  exact raises_bind (raises_forM fun _ _ => raises_unlink hos) fun _ => raises_pure

theorem raises_removeAll {parent : GuardedDirectory} {names : List Text} :
    Raises P (manager.removeAll env parent names) := by
  induction names with
  | nil => exact raises_pure
  | cons name names ih =>
    refine raises_bind (raises_emptyBackup hos hpatch) fun emptied => raises_ite (fun _ => ?_)
      fun _ => ih
    exact raises_bind (raises_verify hos hpatch) fun _ => raises_bind (raises_rmdir hos) fun _ => ih

end Raises

theorem raises_prune : Raises Exc.IsPatch (manager.prune env) := by
  have hos : ∀ e, (fun e => Exc.IsPatch e ∨ e.IsOs) (.os e) := fun _ => Or.inr trivial
  have hpatch : ∀ e, (fun e => Exc.IsPatch e ∨ e.IsOs) (.patch e) := fun _ => Or.inl trivial
  refine raises_rescueOs (raises_withDirectory hos hpatch fun parent => ?_) fun e => ?_
  · refine raises_bind (raises_bind (raises_look hos) fun _ => raises_completeAmong hos
      (fun _ h => absurd h Bool.false_ne_true) fun _ => raises_enter hos hpatch) fun _ => ?_
    exact raises_bind (raises_removeAll hos hpatch) fun _ => raises_fsync hos
  · cases e <;> first | exact raises_pure | exact raises_raise trivial

end Hapatchy
