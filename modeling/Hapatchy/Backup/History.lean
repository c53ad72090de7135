import Hapatchy.Backup.Exact
import Hapatchy.Lib.JsonText

/-!
# Histories of backups

Backups are made and pruned, every call can fail, and a process can be killed
between two of them. What was not fsynced can be lost. A backup that still
counts as complete is whole, because its bytes are on disk before its metadata
is begun, and metadata that was cut off is no JSON.
-/

open Effects Prog

namespace Hapatchy

/-! ## What `json` does -/

/-- The dictionary of `create`, as it is written. -/
def Metadata.members (metadata : Metadata) : List (Text × JsonText.Scalar) :=
  [("mode".toList, .number metadata.mode),
    ("operation".toList, .string metadata.operation),
    ("original_sha256".toList, .string metadata.originalSha256),
    ("output_sha256".toList, .string metadata.outputSha256),
    ("patch_id".toList, .string metadata.patchId),
    ("source_sha256".toList, .string metadata.sourceSha256),
    ("target_path".toList, .string metadata.targetPath),
    ("timestamp".toList, .string metadata.timestamp),
    ("version".toList, .number 1)]

/-- `json.dumps` writes the dictionary out, and of ASCII text `json.loads` reads no more than
documents. -/
structure Env.JsonModule (env : Env) : Prop where
  dumps : ∀ metadata : Metadata,
    env.dumps metadata.json = Utf8.encode (JsonText.object metadata.members)
  loads : ∀ t, (∀ c ∈ t, JsonText.Printable c) → (env.loads (Utf8.encode t)).isSome →
    JsonText.Document t

/-! ## Histories -/

/-- The same environment, where calls fail as `fault` says. -/
def Env.failing (env : Env) (fault : Nat → Option Fault) : Env := { env with fault := fault }

/-- What a `create` was given that has made its directory. -/
structure Made where
  data : Bytes
  metadata : Metadata

/-- The files, and for each directory the last `create` that has made it. -/
structure Backups where
  world : World
  made : Path → Option Made

def Backups.create (env : Env) (backups : Backups) (manager : BackupManager) (snapshot : Snapshot)
    (targetPath : Text) (output : Bytes) (sourceSha256 operation : Text) : Backups :=
  let w := backups.world
  let now := env.now w.step
  let path := manager.parts ++ [backupName now (env.uuid w.step)]
  let world := (manager.create env snapshot targetPath output sourceSha256 operation w).2
  let metadata := manager.metadata env snapshot targetPath output sourceSha256 operation now
  { world := world
    made := if path ∉ w.fs ∧ path ∈ world.fs then
        Function.update backups.made path (some ⟨snapshot.data, metadata⟩)
      else backups.made }

def Backups.prune (env : Env) (exhausts : Bytes → Bool) (backups : Backups)
    (manager : BackupManager) : Backups :=
  { backups with world := (manager.prune env exhausts backups.world).2 }

theorem Backups.prune_fs {env : Env} {exhausts : Bytes → Bool} {backups : Backups}
    {manager : BackupManager} : (backups.prune env exhausts manager).world.fs =
      (manager.prune env exhausts backups.world).2.fs := rfl

/-- The files after a crash: what was fsynced is there, and any part of what was written after it.
Entries can be lost. -/
def Torn (fs fs' : Fs) : Prop :=
  ∀ p node', fs'.lookup p = some node' → ∃ node data, fs.lookup p = some node ∧
    node' = { node with data := data } ∧ data <+: node.data ∧
    ∀ synced names, node.synced = some (synced, names) → synced <+: data

/-- A step of a history, where `json.loads` exceeds the recursion limit on the bytes of
`exhausts`. -/
inductive BackupStep (env : Env) (exhausts : Bytes → Bool) : Backups → Backups → Prop
  | create {backups : Backups} {patchId : Text} {retention : Nat} {manager : BackupManager}
      (init : BackupManager.make patchId retention = .ok manager) (fault : Nat → Option Fault)
      (snapshot : Snapshot) (sha256 : snapshot.sha256 = env.sha256 snapshot.data)
      (targetPath : Text) (output : Bytes) (sourceSha256 operation : Text) :
      BackupStep env exhausts backups (backups.create (env.failing fault) manager snapshot targetPath output
        sourceSha256 operation)
  | prune {backups : Backups} {patchId : Text} {retention : Nat} {manager : BackupManager}
      (init : BackupManager.make patchId retention = .ok manager) (fault : Nat → Option Fault) :
      BackupStep env exhausts backups (backups.prune (env.failing fault) exhausts manager)
  | crash {backups : Backups} {fs : Fs} (torn : Torn backups.world.fs fs) :
      BackupStep env exhausts backups { backups with world := { backups.world with fs := fs } }
  /-- Whoever else uses the directory leaves alone what `create` has made. -/
  | foreign {backups : Backups} {fs : Fs}
      (apart : ∀ p made, backups.made p = some made →
        ∀ q, p <+: q → fs.lookup q = backups.world.fs.lookup q) :
      BackupStep env exhausts backups { backups with world := { backups.world with fs := fs } }

/-! ## What is asked -/

variable {env : Env} {manager : BackupManager} {w w' : World} {p q : Path} {fs fs' : Fs}
  {exhausts : Bytes → Bool}

variable (env manager) in
/-- What `_complete_backups` counts. -/
def Counted (fs : Fs) (name : Text) : Prop :=
  Rooted fs manager.parts ∧ CompleteName env manager fs name

/-- The directory has what `create` was given. -/
structure Whole (env : Env) (fs : Fs) (p : Path) (made : Made) : Prop where
  target : ∃ node, fs.lookup (p ++ [targetName]) = some node ∧ node.data = made.data
  metadata : ∃ node, fs.lookup (p ++ [metadataFile]) = some node ∧
    node.data = env.dumps made.metadata.json
  sha256 : made.metadata.originalSha256 = env.sha256 made.data

variable (env manager) in
/-- No more backups count than are kept. -/
def Few (fs : Fs) : Prop :=
  ∀ l : List Text, l.Nodup → (∀ b ∈ l, Counted env manager fs b) → l.length ≤ manager.retention

variable (env manager) in
/-- Of the backups that count, those with the greatest names are left, and as many as are kept. -/
def LastLeft (fs fs' : Fs) : Prop :=
  ∃ found : List Text, found.Pairwise (· < ·) ∧ (∀ b, b ∈ found ↔ Counted env manager fs b) ∧
    ∃ before last, found = before ++ last ∧ last.length = min found.length manager.retention ∧
      ∀ b, b ∈ last ↔ Counted env manager fs' b

/-- A node but for the record of its last fsync. -/
def Node.contents (node : Node) : Node := { node with synced := none }

variable (env manager) in
/-- The last backups, all that does not count, and all of other patches are as they were. -/
structure Spared (fs fs' : Fs) : Prop where
  recent : ∀ name, Counted env manager fs name → Recent env manager fs name →
    ∀ q, manager.parts ++ [name] <+: q → fs'.lookup q = fs.lookup q
  other : ∀ q, (∀ name, manager.parts ++ [name] <+: q → ¬ Counted env manager fs name) →
    (fs'.lookup q).map Node.contents = (fs.lookup q).map Node.contents
  patches : ∀ patchId, patchId ≠ manager.patchId →
    ∀ q, [".hapatchy".toList, "backups".toList, patchId] <+: q → fs'.lookup q = fs.lookup q

/-! ## What is not edited -/

/-- What no step edits keeps its contents, while an fsync records them. -/
theorem Steps.contents {L : Label → Prop} (hsteps : Steps env L w w') (hedit : ¬ L (.edit q))
    (hreplace : ∀ source target, ¬ L (.replace source target)) (henv : env.Spares q) :
    (w'.fs.lookup q).map Node.contents = (w.fs.lookup q).map Node.contents := by
  induction hsteps with
  | refl => rfl
  | tail _ hstep ih =>
    obtain ⟨l, hl, hstep⟩ := hstep
    rw [← ih]
    cases hstep with
    | call => rw [arrive_lookup henv]
    | edit _ p x =>
      have hne : q ≠ p := by
        rintro rfl
        exact hedit hl
      rw [World.edit_lookup_ne hne]
    | sync _ p =>
      by_cases hp : q = p
      · rw [hp, Fs.lookup_put, Option.map_map]
        rfl
      · rw [Fs.lookup_put_ne hp]
    | replace _ source target => exact absurd hl (hreplace source target)
    | _ => rfl

/-- Steps that do not edit `p` itself. -/
def NotAt (p : Path) : Label → Prop
  | .call => True
  | .edit q => q ≠ p
  | .sync _ => True
  | _ => False

theorem mem_of_contents (h : (fs'.lookup q).map Node.contents = (fs.lookup q).map Node.contents)
    (hq : q ∈ fs) : q ∈ fs' := by
  rw [Fs.mem_iff] at hq ⊢
  rw [← Option.isSome_map (f := Node.contents), h, Option.isSome_map]
  exact hq

/-- Steps at `p` and at the directories above it. -/
def Above (p : Path) : Label → Prop
  | .call => True
  | .edit q => q <+: p
  | .sync q => q <+: p
  | _ => False

theorem frame_above (h : ¬ q <+: p) : Frame (Above p) q := ⟨h, h, fun _ _ => False.elim⟩

/-! ## Making a backup -/

/-- What is in the directory of a backup, whatever has failed: next to metadata, a target is whole. -/
def Begun (fs : Fs) (p : Path) (data metadata : Bytes) : Prop :=
  ∀ node, fs.lookup (p ++ [metadataFile]) = some node → node.data <+: metadata ∧
    ((fs.lookup (p ++ [targetName])).isSome → DurableFile fs (p ++ [targetName]) data)

theorem Begun.congr {data metadata : Bytes} (h : Begun fs p data metadata)
    (hfs : ∀ x, fs'.lookup (p ++ [x]) = fs.lookup (p ++ [x])) : Begun fs' p data metadata := by
  intro node hnode
  obtain ⟨hpre, hdurable⟩ := h node (hfs _ ▸ hnode)
  exact ⟨hpre, fun htarget => (hdurable (hfs _ ▸ htarget)).congr (hfs _)⟩

/-- However it ends, a write leaves a part of the bytes in a new file. -/
theorem writeFile_isPrefix {data : Bytes} {out : Except Exc Unit} (henv : env.Spares p)
    (hnone : w.fs.lookup p = none) (h : writeFile env p data w = (out, w')) :
    ∀ node, w'.fs.lookup p = some node → node.data <+: data := by
  intro node hnode
  rcases bind_eq_iff.mp h with ⟨e, hcreate, -⟩ | ⟨handle, t, hcreate, h⟩
  · rw [createExclusive_error hcreate, arrive_lookup henv, hnone] at hnode
    cases hnode
  obtain ⟨-, -, rfl⟩ := createExclusive_ok hcreate
  obtain ⟨out', t', hbody, hclose⟩ := ensure_eq_iff.mp h
  have hclosed : w'.fs.lookup p = t'.fs.lookup p := by
    rcases hclose with ⟨hclose, -⟩ | ⟨e, hclose, -⟩ <;>
      exact Steps.calls_lookup ((does_close trivial).of_eq hclose) henv
  rw [hclosed] at hnode
  rcases bind_eq_iff.mp hbody with ⟨e, hwrite, -⟩ | ⟨u, t'', hwrite, hsync⟩
  · rw [write] at hwrite
    split at hwrite
    · cases hwrite
      rw [World.edit_lookup, arrive_lookup henv, World.edit_lookup] at hnode
      cases hnode
      exact List.take_prefix _ _
    · rw [modify, alter] at hwrite
      split at hwrite
      · cases hwrite
        rw [arrive_lookup henv, World.edit_lookup] at hnode
        cases hnode
        exact List.nil_prefix
      · cases hwrite
  · have hwritten := write_ok henv hwrite World.edit_lookup
    have hsynced : (t'.fs.lookup p).map Node.data = (t''.fs.lookup p).map Node.data := by
      rw [fsync] at hsync
      split at hsync
      · cases hsync
        rw [arrive_lookup henv]
      · cases hsync
        simp only [Fs.lookup_put, arrive_lookup henv, hwritten, Option.map_some]
    rw [hwritten, hnode, Option.map_some, Option.map_some, Option.some_inj] at hsynced
    rw [hsynced]
    exact List.prefix_refl _

theorem Begun.of_none {data metadata : Bytes} (h : fs.lookup (p ++ [metadataFile]) = none) :
    Begun fs p data metadata := by
  intro node hnode
  cases h.symm.trans hnode

/-- However it ends, filling an empty directory leaves metadata only next to the whole target. -/
theorem fillBackup_begun {directory : GuardedDirectory} {data metadata : Bytes}
    {out : Except Exc Unit} (henv : ∀ q, directory.path <+: q → env.Spares q)
    (h : (writeFile env (directory.path ++ [targetName]) data >>= fun _ =>
      writeFile env (directory.path ++ [metadataFile]) metadata >>= fun _ =>
        directory.verify env >>= fun _ => fsync env directory.path) w = (out, w'))
    (hempty : ∀ x, w.fs.lookup (directory.path ++ [x]) = none) :
    Begun w'.fs directory.path data metadata := by
  have hne : directory.path ++ [metadataFile] ≠ directory.path ++ [targetName] := by
    simpa using targetName_ne.symm
  have hspares : ∀ x, env.Spares (directory.path ++ [x]) := fun x => henv _ (List.prefix_append _ _)
  have htarget {out : Except Exc Unit} {t : World}
      (hrun : writeFile env (directory.path ++ [targetName]) data w = (out, t)) :
      t.fs.lookup (directory.path ++ [metadataFile]) = none := by
    rw [Steps.lookup (does_writeFile.of_eq hrun) (frame_onlyAt hne) (hspares _)]
    exact hempty _
  rcases bind_eq_iff.mp h with ⟨e, hrun, -⟩ | ⟨_, t, hrun, h⟩
  · exact .of_none (htarget hrun)
  have hdurable := writeFile_ok (hspares _) hrun
  have hmetadata {out : Except Exc Unit} {t' : World}
      (hrun' : writeFile env (directory.path ++ [metadataFile]) metadata t = (out, t')) :
      Begun t'.fs directory.path data metadata := fun node hnode =>
    ⟨writeFile_isPrefix (hspares _) (htarget hrun) hrun' node hnode, fun _ => hdurable.congr
      (Steps.lookup (does_writeFile.of_eq hrun') (frame_onlyAt hne.symm) (hspares _))⟩
  rcases bind_eq_iff.mp h with ⟨e, hrun', -⟩ | ⟨_, t', hrun', h⟩
  · exact hmetadata hrun'
  have hrest : Does env (OnlyAt directory.path)
      (directory.verify env >>= fun _ => fsync env directory.path) :=
    runs_bind (does_verify trivial) fun _ => does_fsync trivial rfl
  exact (hmetadata hrun').congr fun x =>
    Steps.lookup (hrest.of_eq h) (frame_onlyAt (by simp)) (hspares x)

theorem fillBackup_mem (hcalm : env.Calm) {directory : GuardedDirectory} {data metadata : Bytes}
    {out : Except Exc Unit}
    (h : (writeFile env (directory.path ++ [targetName]) data >>= fun _ =>
      writeFile env (directory.path ++ [metadataFile]) metadata >>= fun _ =>
        directory.verify env >>= fun _ => fsync env directory.path) w = (out, w'))
    (hp : directory.path ∈ w.fs) : directory.path ∈ w'.fs := by
  have hwrite : ∀ x data, Does env (NotAt directory.path)
      (writeFile env (directory.path ++ [x]) data) := fun x data =>
    does_writeFile.mono fun l hl => hl.holds trivial ⟨fun h => by simp at h, trivial⟩
  have hsteps : Steps env (NotAt directory.path) w w' := by
    refine Runs.of_eq (runs_bind (hwrite _ _) fun _ => runs_bind (hwrite _ _) fun _ => ?_) h
    exact runs_bind (does_verify trivial) fun _ => does_fsync trivial trivial
  exact mem_of_contents (hsteps.contents (fun h => h rfl) (fun _ _ => id) hcalm.spares) hp

/-- Filling a new directory, from entering it to leaving it. -/
theorem enterFill_begun (hcalm : env.Calm) {data metadata : Bytes} {out : Except Exc Unit}
    (h : withDirectory env p false (fun directory => do
      writeFile env (directory.path ++ [targetName]) data
      writeFile env (directory.path ++ [metadataFile]) metadata
      directory.verify env
      fsync env directory.path) w = (out, w'))
    (hp : p ∈ w.fs) (hempty : ∀ x, w.fs.lookup (p ++ [x]) = none) :
    p ∈ w'.fs ∧ Begun w'.fs p data metadata := by
  have henters {out : Except Exc GuardedDirectory} {t : World}
      (hrun : GuardedDirectory.enter env p false w = (out, t)) : t.fs = w.fs :=
    Steps.calls_fs hcalm ((does_enter trivial fun hc => absurd hc Bool.false_ne_true).of_eq hrun)
  rcases bind_eq_iff.mp h with ⟨e, henter, -⟩ | ⟨directory, t, henter, hrun⟩
  · rw [henters henter]
    exact ⟨hp, .of_none (hempty _)⟩
  obtain ⟨out', t', hfill, hexit⟩ := ensure_eq_iff.mp hrun
  have hexited : w'.fs = t'.fs := by
    rcases hexit with ⟨hexit, -⟩ | ⟨e, hexit, -⟩ <;>
      exact Steps.calls_fs hcalm ((does_exit trivial).of_eq hexit)
  rw [← henters henter, ← enter_ok henter] at hp
  rw [← henters henter, ← enter_ok henter] at hempty
  rw [hexited, ← enter_ok henter]
  exact ⟨fillBackup_mem hcalm hfill hp, fillBackup_begun (fun _ _ => hcalm.spares) hfill hempty⟩

/-- However making a backup ends, its directory is as before, or it is new and holds metadata only next
to the whole target. -/
theorem createIn_cases (hcalm : env.Calm) {name : Text} {data metadata : Bytes}
    {out : Except Exc Unit} (h : manager.createIn env name data metadata w = (out, w')) :
    (∀ q, manager.parts ++ [name] <+: q → w'.fs.lookup q = w.fs.lookup q) ∨
      (manager.parts ++ [name] ∉ w.fs ∧ manager.parts ++ [name] ∈ w'.fs ∧
        Begun w'.fs (manager.parts ++ [name]) data metadata) := by
  have hbelow : ∀ q, manager.parts ++ [name] <+: q → ¬ q <+: manager.parts := by
    intro q hq hq'
    exact absurd (hq.trans hq').length_le (by simp)
  -- The way to the backups is above.
  have hway {out : Except Exc GuardedDirectory} {t : World}
      (hrun : GuardedDirectory.enter env manager.parts true w = (out, t)) :
      ∀ q, manager.parts ++ [name] <+: q → t.fs.lookup q = w.fs.lookup q := by
    intro q hq
    refine Steps.lookup (L := Above manager.parts) ((does_enter trivial fun _ p part hp => ?_).of_eq
      hrun) (frame_above (hbelow q hq)) hcalm.spares
    exact ⟨hp, (List.prefix_append _ _).trans hp⟩
  rcases bind_eq_iff.mp h with ⟨e, henter, -⟩ | ⟨parent, t₁, henter, h⟩
  · exact Or.inl (hway henter)
  have hparent := enter_ok henter
  obtain ⟨out₁, t₂, hbody, hexit⟩ := ensure_eq_iff.mp h
  have hexited : w'.fs = t₂.fs := by
    rcases hexit with ⟨hexit, -⟩ | ⟨e, hexit, -⟩ <;>
      exact Steps.calls_fs hcalm ((does_exit trivial).of_eq hexit)
  rw [hexited]
  rcases bind_eq_iff.mp hbody with ⟨e, hmkdir, -⟩ | ⟨_, t₃, hmkdir, hbody⟩
  · left
    intro q hq
    rw [mkdir_error hmkdir, hcalm.arrive_fs, hway henter q hq]
  -- From here on, the directory is new.
  right
  obtain ⟨hnew, hempty, -⟩ := mkdir_ok hmkdir
  have habsent := mkdir_new hmkdir
  rw [hcalm.arrive_fs] at habsent
  rw [hparent] at hnew hempty habsent
  rw [Fs.mem_iff, hway henter _ (List.prefix_refl _), ← Fs.mem_iff] at habsent
  have hmem : manager.parts ++ [name] ∈ t₃.fs := by
    rw [Fs.mem_iff, hnew]
    rfl
  rcases bind_eq_iff.mp hbody with ⟨e, hrun, -⟩ | ⟨_, t₄, hrun, hrest⟩
  · exact ⟨habsent, enterFill_begun hcalm hrun hmem hempty⟩
  obtain ⟨hmem, hbegun⟩ := enterFill_begun hcalm hrun hmem hempty
  have hdoes : Does env (Above manager.parts)
      (parent.verify env >>= fun _ => fsync env parent.path) :=
    runs_bind (does_verify trivial) fun _ => does_fsync trivial (hparent ▸ List.prefix_refl _)
  have hlast : ∀ q, manager.parts ++ [name] <+: q → t₂.fs.lookup q = t₄.fs.lookup q := fun q hq =>
    Steps.lookup (hdoes.of_eq hrest) (frame_above (hbelow q hq)) hcalm.spares
  refine ⟨habsent, ?_, hbegun.congr fun x => hlast _ (List.prefix_append _ _)⟩
  rw [Fs.mem_iff, hlast _ (List.prefix_refl _), ← Fs.mem_iff]
  exact hmem

/-- Making a backup edits nothing of other backups. -/
theorem createIn_other (henv : env.Spares q) {name : Text} {data metadata : Bytes}
    {out : Except Exc Unit} (h : manager.createIn env name data metadata w = (out, w'))
    (hlength : manager.parts.length < q.length) (hq : ¬ manager.parts ++ [name] <+: q) :
    w'.fs.lookup q = w.fs.lookup q := by
  have hdoes : Does env (fun l => Above manager.parts l ∨ Below (manager.parts ++ [name]) l)
      (manager.createIn env name data metadata) :=
    does_createIn (Or.inl trivial)
      (fun p part hp => ⟨Or.inl hp, Or.inl ((List.prefix_append _ _).trans hp)⟩)
      (Or.inl (List.prefix_refl _)) fun p hp => ⟨Or.inr hp, Or.inr hp⟩
  have habove : ¬ q <+: manager.parts := fun h => absurd h.length_le (Nat.not_le.mpr hlength)
  refine Steps.lookup (hdoes.of_eq h) ⟨?_, ?_, ?_⟩ henv
  · exact fun h => h.elim habove hq
  · exact fun h => h.elim habove hq
  · exact fun _ _ h => h.elim False.elim False.elim

section Create

variable {snapshot : Snapshot} {targetPath : Text} {output : Bytes} {sourceSha256 operation : Text}
  {out : Except Exc Text}

/-- All that `create` does, it does in its `try` block. -/
theorem create_body
    (h : manager.create env snapshot targetPath output sourceSha256 operation w = (out, w')) :
    ∃ out', manager.createIn env (backupName (env.now w.step) (env.uuid w.step)) snapshot.data
      (env.dumps (manager.metadata env snapshot targetPath output sourceSha256 operation
        (env.now w.step)).json) w = (out', w') := by
  rw [BackupManager.create, read_bind] at h
  obtain ⟨out', hrun⟩ : ∃ out', rescueOs (manager.createIn env
      (backupName (env.now w.step) (env.uuid w.step)) snapshot.data
      (env.dumps (manager.metadata env snapshot targetPath output sourceSha256 operation
        (env.now w.step)).json)) (fun _ => raisePatch .backupFailed .applyError) w = (out', w') := by
    rcases bind_eq_iff.mp h with ⟨e, hrun, -⟩ | ⟨_, t, hrun, hpure⟩
    · exact ⟨_, hrun⟩
    · obtain ⟨-, rfl⟩ := pure_eq_iff.mp hpure
      exact ⟨_, hrun⟩
  rcases rescue_eq_iff.mp hrun with ⟨u, hbody, -⟩ | ⟨e, t, hbody, hhandler⟩
  · exact ⟨_, hbody⟩
  · have ht : w' = t := by
      cases e with
      | _ => exact (raise_eq_iff.mp hhandler).2
    exact ⟨_, ht ▸ hbody⟩

end Create

/-! ## Pruning -/

/-- What is below the directory of the backups is as before, or gone. -/
def Sheds (manager : BackupManager) (w w' : World) : Prop :=
  ∀ q, manager.parts.length < q.length → w'.fs.lookup q = none ∨ w'.fs.lookup q = w.fs.lookup q

theorem Sheds.trans {w'' : World} (h : Sheds manager w w') (h' : Sheds manager w' w'') :
    Sheds manager w w'' := by
  intro q hq
  rcases h' q hq with h' | h'
  · exact Or.inl h'
  · rw [h']
    exact h q hq

theorem sheds_of_eq (h : w'.fs = w.fs) : Sheds manager w w' := by
  intro q _
  rw [h]
  exact Or.inr rfl

theorem sheds_edit : Sheds manager w (w.edit p none) := by
  intro q _
  by_cases hp : q = p
  · rw [hp, World.edit_lookup]
    exact Or.inl rfl
  · rw [World.edit_lookup_ne hp]
    exact Or.inr rfl

section Sheds

variable (hcalm : env.Calm) {α : Type} {m : Io α}

include hcalm

theorem runs_sheds_of_calls (h : Does env OnlyCalls m) : Runs (Sheds manager) m :=
  Runs.mono h fun _ _ ⟨_, hl, hstep⟩ => sheds_of_eq (Steps.calls_fs hcalm (Steps.single hl hstep))

theorem runs_sheds_unlink : Runs (Sheds manager) (unlink env p) := by
  intro w
  refine Relation.ReflTransGen.single ?_
  rw [unlink]
  split
  · exact sheds_of_eq (hcalm.arrive_fs w)
  · split
    · exact sheds_of_eq (hcalm.arrive_fs w)
    · split
      · exact sheds_of_eq (hcalm.arrive_fs w)
      · exact (sheds_of_eq (hcalm.arrive_fs w)).trans sheds_edit

theorem runs_sheds_rmdir : Runs (Sheds manager) (rmdir env p) := by
  intro w
  refine Relation.ReflTransGen.single ?_
  rcases h : rmdir env p w with ⟨e | u, w'⟩
  · exact sheds_of_eq ((congrArg World.fs (alter_error h)).trans (hcalm.arrive_fs w))
  · obtain ⟨x, hx, rfl⟩ := alter_ok h
    have hnone : x = none := by
      split at hx
      · cases hx
      · split at hx
        · exact (Results.pure_eq_ok.mp hx).symm
        · cases hx
    rw [hnone]
    exact (sheds_of_eq (hcalm.arrive_fs w)).trans sheds_edit

theorem runs_sheds_fsync : Runs (Sheds manager) (fsync env manager.parts) := by
  intro w
  refine Relation.ReflTransGen.single ?_
  rw [fsync]
  split
  · exact sheds_of_eq (hcalm.arrive_fs w)
  · intro q hq
    have hne : q ≠ manager.parts := by
      rintro rfl
      exact absurd hq (Nat.lt_irrefl _)
    right
    simp only [Fs.lookup_put_ne hne, hcalm.arrive_fs]

theorem runs_sheds_withDirectory {parts : List Text} {body : GuardedDirectory → Io α}
    (h : ∀ directory, directory.path = parts → Runs (Sheds manager) (body directory)) :
    Runs (Sheds manager) (withDirectory env parts false body) := by
  have henter : Does env OnlyCalls (GuardedDirectory.enter env parts false) :=
    does_enter trivial fun hc => absurd hc Bool.false_ne_true
  exact runs_bind_of (runs_sheds_of_calls hcalm henter) fun directory _ _ hrun =>
    runs_ensure (h directory (enter_ok hrun)) fun _ => runs_sheds_of_calls hcalm (does_exit trivial)

theorem runs_sheds_emptyBackup (name : Text) :
    Runs (Sheds manager) (manager.emptyBackup env name) := by
  refine runs_sheds_withDirectory hcalm fun directory _ => ?_
  refine runs_bind (runs_sheds_of_calls hcalm (does_listdir trivial)) fun names =>
    runs_ite (fun _ => runs_pure) fun _ => ?_
  refine runs_bind (runs_sheds_of_calls hcalm (does_anyIrregular trivial)) fun irregular =>
    runs_ite (fun _ => runs_pure) fun _ => ?_
  exact runs_bind (runs_sheds_of_calls hcalm (does_verify trivial)) fun _ =>
    runs_bind (runs_forM fun item _ => runs_sheds_unlink hcalm) fun _ => runs_pure

theorem runs_sheds_removeAll (parent : GuardedDirectory) (names : List Text) :
    Runs (Sheds manager) (manager.removeAll env parent names) := by
  induction names with
  | nil => exact runs_pure
  | cons name names ih =>
    refine runs_bind (runs_sheds_emptyBackup hcalm name) fun emptied =>
      runs_ite (fun _ => ?_) fun _ => ih
    exact runs_bind (runs_sheds_of_calls hcalm (does_verify trivial)) fun _ =>
      runs_bind (runs_sheds_rmdir hcalm) fun _ => ih

/-- Whatever fails, pruning removes files and changes none. -/
theorem prune_sheds {out : Except Exc Unit} (h : manager.prune env exhausts w = (out, w')) :
    Sheds manager w w' := by
  obtain ⟨out', hbody⟩ := prune_body h
  have hruns : Runs (Sheds manager) (withDirectory env manager.parts false fun parent => do
      let candidates ← manager.completeBackups env parent exhausts
      manager.removeAll env parent (candidates.take (candidates.length - manager.retention))
      fsync env parent.path) := by
    refine runs_sheds_withDirectory hcalm fun parent hparent => ?_
    refine runs_bind (runs_sheds_of_calls hcalm (does_completeBackups trivial)) fun candidates =>
      runs_bind (runs_sheds_removeAll hcalm parent _) fun _ => ?_
    rw [hparent]
    exact runs_sheds_fsync hcalm
  have hsteps := hruns.of_eq hbody
  clear hbody h
  induction hsteps with
  | refl => exact sheds_of_eq rfl
  | tail _ hstep ih => exact ih.trans hstep

end Sheds

theorem Begun.sheds {data metadata : Bytes} (h : Begun w.fs p data metadata)
    (hsheds : Sheds manager w w') (hp : manager.parts.length ≤ p.length) :
    Begun w'.fs p data metadata := by
  have hlength (x : Text) : manager.parts.length < (p ++ [x]).length := by
    rw [List.length_append, List.length_singleton]
    omega
  intro node hnode
  rcases hsheds _ (hlength metadataFile) with hgone | hsame
  · cases hgone.symm.trans hnode
  obtain ⟨hpre, hdurable⟩ := h node (hsame ▸ hnode)
  refine ⟨hpre, fun htarget => ?_⟩
  rcases hsheds _ (hlength targetName) with hgone | hsame
  · rw [hgone] at htarget
    cases htarget
  · exact (hdurable (hsame ▸ htarget)).congr hsame

/-- What was on disk is on disk after a crash. -/
theorem Begun.torn {data metadata : Bytes} (h : Begun fs p data metadata) (htorn : Torn fs fs') :
    Begun fs' p data metadata := by
  intro node' hnode'
  obtain ⟨node, part, hnode, rfl, hpart, -⟩ := htorn _ node' hnode'
  obtain ⟨hpre, hdurable⟩ := h node hnode
  refine ⟨hpart.trans hpre, fun htarget => ?_⟩
  obtain ⟨file', hfile'⟩ := Option.isSome_iff_exists.mp htarget
  obtain ⟨file, left, hfile, rfl, hleft, hkept⟩ := htorn _ file' hfile'
  obtain ⟨file₀, names, hfile₀, hkind, hnlink, hdata, hsynced⟩ := hdurable (by rw [hfile]; rfl)
  cases hfile.symm.trans hfile₀
  have hwhole : left = data :=
    (hdata ▸ hleft).eq_of_length_le (hkept data names hsynced).length_le
  exact ⟨_, names, hfile', hkind, hnlink, hwhole, hsynced⟩

/-! ## Runs -/

/-- The directories that `create` has made. -/
structure Sound (env : Env) (backups : Backups) (p : Path) (made : Made) : Prop where
  length : p.length = 4
  begun : Begun backups.world.fs p made.data (env.dumps made.metadata.json)
  sha256 : made.metadata.originalSha256 = env.sha256 made.data

theorem length_parts (manager : BackupManager) : manager.parts.length = 3 := rfl

theorem eq_of_prefix_append {x : Text} (hp : p <+: q ++ [x]) (hlength : p.length = q.length) :
    p = q :=
  (List.prefix_of_prefix_length_le hp (List.prefix_append _ _) hlength.le).eq_of_length hlength

theorem Sound.create {backups : Backups} {snapshot : Snapshot} {targetPath : Text} {output : Bytes}
    {sourceSha256 operation : Text} {made : Made} (hcalm : env.Calm)
    (hsha : snapshot.sha256 = env.sha256 snapshot.data)
    (h : ∀ p made, backups.made p = some made → Sound env backups p made)
    (hmade : (backups.create env manager snapshot targetPath output sourceSha256 operation).made p =
      some made) :
    Sound env (backups.create env manager snapshot targetPath output sourceSha256 operation) p
      made := by
  rcases hrun : manager.create env snapshot targetPath output sourceSha256 operation backups.world
    with ⟨out, w'⟩
  obtain ⟨out', hbody⟩ := create_body hrun
  have hcases := createIn_cases hcalm hbody
  have hlength : ∀ name, (manager.parts ++ [name]).length = 4 := fun _ => rfl
  unfold Backups.create at hmade ⊢
  simp only [hrun] at hmade ⊢
  split at hmade
  · rename_i hnew
    by_cases hp : p = manager.parts ++
        [backupName (env.now backups.world.step) (env.uuid backups.world.step)]
    · rw [hp, Function.update_self] at hmade
      cases hmade
      rw [hp]
      refine ⟨hlength _, ?_, hsha⟩
      rcases hcases with hsame | ⟨-, -, hbegun⟩
      · rw [Fs.mem_iff, Fs.mem_iff, hsame _ (List.prefix_refl _)] at hnew
        exact absurd hnew.2 hnew.1
      · exact hbegun
    · rw [Function.update_of_ne hp] at hmade
      obtain ⟨hfour, hbegun, hsha'⟩ := h p made hmade
      refine ⟨hfour, hbegun.congr fun x => createIn_other hcalm.spares hbody ?_ fun hpre => hp ?_, hsha'⟩
      · rw [length_parts, List.length_append, hfour]
        omega
      · exact (eq_of_prefix_append hpre ((hlength _).trans hfour.symm)).symm
  · rename_i hold
    obtain ⟨hfour, hbegun, hsha'⟩ := h p made hmade
    refine ⟨hfour, hbegun.congr fun x => ?_, hsha'⟩
    by_cases hp : manager.parts ++
        [backupName (env.now backups.world.step) (env.uuid backups.world.step)] <+: p ++ [x]
    · rcases hcases with hsame | ⟨habsent, hpresent, -⟩
      · exact hsame _ hp
      · exact absurd ⟨habsent, hpresent⟩ hold
    · refine createIn_other hcalm.spares hbody ?_ hp
      rw [length_parts, List.length_append, hfour]
      omega

theorem sound_step {backups after : Backups} (hcalm : env.Calm)
    (h : ∀ p made, backups.made p = some made → Sound env backups p made)
    (hstep : BackupStep env exhausts backups after) :
    ∀ p made, after.made p = some made → Sound env after p made := by
  intro p made hmade
  cases hstep with
  | create hinit fault snapshot hsha targetPath output sourceSha256 operation =>
    have hfailing : (env.failing fault).Calm := hcalm
    have hsound := Sound.create hfailing hsha (fun p made hmade =>
      let hbefore := h p made hmade
      ⟨hbefore.length, hbefore.begun, hbefore.sha256⟩) hmade
    exact ⟨hsound.length, hsound.begun, hsound.sha256⟩
  | prune hinit fault =>
    obtain ⟨hfour, hbegun, hsha⟩ := h p made hmade
    have hfailing : (env.failing fault).Calm := hcalm
    refine ⟨hfour, hbegun.sheds (prune_sheds hfailing rfl) ?_, hsha⟩
    rw [length_parts, hfour]
    decide
  | crash htorn =>
    obtain ⟨hfour, hbegun, hsha⟩ := h p made hmade
    exact ⟨hfour, hbegun.torn htorn, hsha⟩
  | foreign hapart =>
    obtain ⟨hfour, hbegun, hsha⟩ := h p made hmade
    exact ⟨hfour, hbegun.congr fun x => hapart p made hmade _ (List.prefix_append _ _), hsha⟩

theorem sound_run {start backups : Backups} (hcalm : env.Calm)
    (hstart : ∀ p, start.made p = none)
    (hrun : Relation.ReflTransGen (BackupStep env exhausts) start backups) :
    ∀ p made, backups.made p = some made → Sound env backups p made := by
  induction hrun with
  | refl =>
    intro p made hmade
    cases (hstart p).symm.trans hmade
  | tail _ hstep ih => exact sound_step hcalm ih hstep

/-- Metadata that is read as JSON was written to its end. -/
theorem Sound.whole {backups : Backups} {made : Made} {name : Text} (hjson : env.JsonModule)
    (h : Sound env backups (manager.parts ++ [name]) made)
    (hcounted : Counted env manager backups.world.fs name) :
    Whole env backups.world.fs (manager.parts ++ [name]) made := by
  obtain ⟨-, -, hcomplete⟩ := hcounted
  obtain ⟨node, hnode, -, -, -, hmatches⟩ := hcomplete.metadata
  obtain ⟨hpre, hdurable⟩ := h.begun node hnode
  have hloads : (env.loads node.data).isSome := by
    cases hnone : env.loads node.data with
    | none =>
      rw [hnone] at hmatches
      cases hmatches
    | some json => rfl
  obtain ⟨target, htarget, -⟩ := hcomplete.target
  obtain ⟨file, names, hfile, -, -, hdata, -⟩ := hdurable (by rw [htarget]; rfl)
  refine ⟨⟨file, hfile, hdata⟩, ⟨node, hnode, ?_⟩, h.sha256⟩
  rw [hjson.dumps] at hpre ⊢
  refine JsonText.eq_of_torn hpre fun t hprintable ht => hjson.loads t hprintable ?_
  rw [← ht]
  exact hloads

/-! ## One call of `prune` -/

theorem few_of_unrooted (h : ¬ Rooted fs manager.parts) : Few env manager fs := by
  intro l _ hl
  cases l with
  | nil => exact Nat.zero_le _
  | cons b l => exact absurd (hl b List.mem_cons_self).1 h

/-- What pruning leaves that changes nothing. -/
theorem lastLeft_self_iff (hquiet : env.Quiet) : LastLeft env manager fs fs ↔ Few env manager fs := by
  constructor
  · rintro ⟨found, hsorted, hall, before, last, rfl, hlength, hlast⟩ l hnodup hl
    have hsub : l ⊆ last := fun b hb => (hlast b).mpr (hl b hb)
    have hle := (List.subperm_of_subset hnodup hsub).length_le
    omega
  · intro hfew
    by_cases hrooted : Rooted fs manager.parts
    · obtain ⟨parent, hpath, -⟩ := goes_enter hquiet hrooted
      have hparsable : Parsable manager (fun _ => false) fs := fun _ _ _ _ => rfl
      obtain ⟨found, hsorted, hall, -⟩ := goes_completeBackups hquiet hrooted hparsable hpath
      have hcounted : ∀ b, b ∈ found ↔ Counted env manager fs b := fun b =>
        (hall b).trans ⟨fun hb => ⟨hrooted, hb⟩, And.right⟩
      have hnodup : found.Nodup := hsorted.imp fun {a b} hab => by
        rintro rfl
        exact List.lt_irrefl _ hab
      have hle := hfew found hnodup fun b hb => (hcounted b).mp hb
      exact ⟨found, hsorted, hcounted, [], found, rfl, by omega, hcounted⟩
    · exact ⟨[], .nil, fun b => ⟨nofun, fun hb => absurd hb.1 hrooted⟩, [], [], rfl, by simp,
        fun b => ⟨nofun, fun hb => absurd hb.1 hrooted⟩⟩

/-- When nothing fails, pruning leaves the last backups of those that count, if it can read them. -/
theorem prune_lastLeft (hquiet : env.Quiet) {out : Except Exc Unit}
    (h : manager.prune env exhausts w = (out, w')) (hrooted : Rooted w.fs manager.parts)
    (hparsable : Parsable manager exhausts w.fs) : LastLeft env manager w.fs w'.fs := by
  obtain ⟨found, hsorted, hall, hgone, hsame, hrooted'⟩ := prune_rooted hquiet h hrooted hparsable
  have hnodup : found.Nodup := hsorted.imp fun {a b} hab => by
    rintro rfl
    exact List.lt_irrefl _ hab
  have hcounted : ∀ b, b ∈ found ↔ Counted env manager w.fs b := fun b =>
    (hall b).trans ⟨fun hb => ⟨hrooted, hb⟩, And.right⟩
  refine ⟨found, hsorted, hcounted, found.take (found.length - manager.retention),
    found.drop (found.length - manager.retention), (List.take_append_drop _ _).symm, ?_, fun b => ?_⟩
  · rw [List.length_drop]
    omega
  have hsplit : b ∈ found ↔ b ∈ found.take (found.length - manager.retention) ∨
      b ∈ found.drop (found.length - manager.retention) := by
    rw [← List.mem_append, List.take_append_drop]
  have hkept (hb : b ∉ found.take (found.length - manager.retention)) :
      ∀ q, manager.parts ++ [b] <+: q → w'.fs.lookup q = w.fs.lookup q := by
    intro q hq
    refine hsame q ?_ fun c hc hbelow => hb (eq_of_below hbelow hq ▸ hc)
    rintro rfl
    exact absurd hq.length_le (by simp)
  constructor
  · intro hb
    have hapart : b ∉ found.take (found.length - manager.retention) := fun hb' =>
      (List.disjoint_take_drop hnodup le_rfl) hb' hb
    exact ⟨hrooted', ((hall b).mp (hsplit.mpr (Or.inr hb))).congr (hkept hapart)⟩
  · rintro ⟨-, hb⟩
    have hapart : b ∉ found.take (found.length - manager.retention) := by
      intro hb'
      obtain ⟨node, hnode, -⟩ := hb.2.directory
      rw [hgone b hb'] at hnode
      cases hnode
    have hbefore := (hall b).mpr (hb.congr fun q hq => (hkept hapart q hq).symm)
    exact (hsplit.mp hbefore).resolve_left hapart

/-- When nothing fails, pruning leaves the last backups of those that count just where it can read
all their metadata, or has nothing to remove. -/
theorem prune_lastLeft_iff (hquiet : env.Quiet) (w : World) :
    LastLeft env manager w.fs (manager.prune env exhausts w).2.fs ↔
      Parsable manager exhausts w.fs ∨ Few env manager w.fs := by
  have hrun : manager.prune env exhausts w = (_, (manager.prune env exhausts w).2) := rfl
  by_cases hrooted : Rooted w.fs manager.parts
  swap
  · rw [prune_unrooted hquiet.calm hrun hrooted, lastLeft_self_iff hquiet]
    exact ⟨Or.inr, fun _ => few_of_unrooted hrooted⟩
  by_cases hparsable : Parsable manager exhausts w.fs
  · exact ⟨fun _ => Or.inl hparsable, fun _ => prune_lastLeft hquiet hrun hrooted hparsable⟩
  · rw [prune_deep hquiet hrun hrooted hparsable, lastLeft_self_iff hquiet]
    exact ⟨Or.inr, fun h => h.resolve_left hparsable⟩

/-- Whatever fails, pruning spares the last backups, and all that does not count. -/
theorem prune_spared (hcalm : env.Calm) {out : Except Exc Unit}
    (h : manager.prune env exhausts w = (out, w')) : Spared env manager w.fs w'.fs := by
  obtain ⟨removed, hremoved, hsteps⟩ := prune_clears (fun _ _ => hcalm.spares) h
  refine ⟨fun name _ hrecent q hq => prune_recent (fun _ _ => hcalm.spares) h hrecent hq,
    fun q hq => ?_, fun patchId hne q hq => ?_⟩
  · by_cases hrooted : Rooted w.fs manager.parts
    · refine hsteps.contents ?_ (fun _ _ => id) hcalm.spares
      rintro ⟨name, hname, hbelow⟩
      exact hq name hbelow ⟨hrooted, (hremoved name hname).1⟩
    · rw [prune_unrooted hcalm h hrooted]
  · have hparts : ¬ manager.parts <+: q := by
      intro hbelow
      have heq := (List.prefix_of_prefix_length_le hq hbelow le_rfl).eq_of_length rfl
      simp only [BackupManager.parts, List.cons.injEq, and_true] at heq
      exact hne heq.2.2
    refine Steps.lookup hsteps ⟨?_, ?_, fun _ _ => False.elim⟩ hcalm.spares
    · rintro ⟨name, -, hbelow⟩
      exact hparts ((List.prefix_append _ _).trans hbelow)
    · rintro rfl
      exact hparts (List.prefix_refl _)

/-! ## Every history -/

theorem completeName_failing {fault : Nat → Option Fault} {name : Text} :
    CompleteName (env.failing fault) manager fs name ↔ CompleteName env manager fs name := by
  constructor
  · rintro ⟨hname, hdirectory, hlisting, htarget, hmetadata⟩
    exact ⟨hname, hdirectory, hlisting, htarget, hmetadata⟩
  · rintro ⟨hname, hdirectory, hlisting, htarget, hmetadata⟩
    exact ⟨hname, hdirectory, hlisting, htarget, hmetadata⟩

theorem counted_failing {fault : Nat → Option Fault} {name : Text} :
    Counted (env.failing fault) manager fs name ↔ Counted env manager fs name :=
  and_congr_right fun _ => completeName_failing

theorem Recent.failing {name : Text} (h : Recent env manager fs name) (fault : Nat → Option Fault) :
    Recent (env.failing fault) manager fs name := fun l hnodup hl =>
  h l hnodup fun c hc => ⟨(hl c hc).1, completeName_failing.mp (hl c hc).2⟩

theorem few_failing {fault : Nat → Option Fault} :
    Few (env.failing fault) manager fs ↔ Few env manager fs :=
  forall₂_congr fun _ _ => imp_congr_left (forall₂_congr fun _ _ => counted_failing)

theorem lastLeft_failing {fault : Nat → Option Fault} :
    LastLeft (env.failing fault) manager fs fs' ↔ LastLeft env manager fs fs' := by
  constructor
  · rintro ⟨found, hsorted, hall, before, last, hsplit, hlength, hlast⟩
    exact ⟨found, hsorted, fun b => (hall b).trans counted_failing, before, last, hsplit, hlength,
      fun b => (hlast b).trans counted_failing⟩
  · rintro ⟨found, hsorted, hall, before, last, hsplit, hlength, hlast⟩
    exact ⟨found, hsorted, fun b => (hall b).trans counted_failing.symm, before, last, hsplit, hlength,
      fun b => (hlast b).trans counted_failing.symm⟩

/-- In every history of `create` and `prune`, the backups that count are whole, and pruning spares the
last of them whatever fails. When nothing fails it leaves just those, unless `json.loads` exceeds
the recursion limit and there is something to remove. -/
theorem backups_kept {start backups : Backups} (hcalm : env.Calm) (hjson : env.JsonModule)
    (hstart : ∀ p, start.made p = none)
    (hrun : Relation.ReflTransGen (BackupStep env exhausts) start backups) :
    ∀ patchId retention manager, BackupManager.make patchId retention = .ok manager →
      (∀ name made, backups.made (manager.parts ++ [name]) = some made →
        Counted env manager backups.world.fs name →
        Whole env backups.world.fs (manager.parts ++ [name]) made) ∧
      (LastLeft env manager backups.world.fs
          (backups.prune (env.failing fun _ => none) exhausts manager).world.fs ↔
        Parsable manager exhausts backups.world.fs ∨ Few env manager backups.world.fs) ∧
      ∀ fault, Spared env manager backups.world.fs
        (backups.prune (env.failing fault) exhausts manager).world.fs := by
  intro patchId retention manager _
  refine ⟨fun name made hmade hcounted => ?_, ?_, fun fault => ?_⟩
  · exact (sound_run hcalm hstart hrun _ made hmade).whole hjson hcounted
  · have hquiet : (env.failing fun _ => none).Quiet := ⟨hcalm, fun _ => rfl⟩
    rw [← lastLeft_failing, Backups.prune_fs, prune_lastLeft_iff hquiet, few_failing]
  · have hfailing : (env.failing fault).Calm := hcalm
    have hspared : Spared (env.failing fault) manager backups.world.fs
        (backups.prune (env.failing fault) exhausts manager).world.fs := prune_spared hfailing rfl
    obtain ⟨hrecent, hother, hpatches⟩ := hspared
    exact ⟨fun name hcounted hname => hrecent name (counted_failing.mpr hcounted)
        (hname.failing fault),
      fun q hq => hother q fun name hbelow hcounted => hq name hbelow (counted_failing.mp hcounted),
      hpatches⟩

/-! ## A backup that is made -/

def jsonScalar : Json → JsonText.Scalar
  | .number value => .number value.num.natAbs
  | .string value => .string value
  | _ => .string []

/-- `json.dumps`, for objects of numbers and strings. -/
def jsonDumps : Json → Bytes
  | .object members => Utf8.encode (JsonText.object (members.map fun (key, value) =>
      (key, jsonScalar value)))
  | _ => []

def firstMetadata : Metadata where
  patchId := ['p']
  targetPath := "f/g".toList
  operation := "apply".toList
  timestamp := "2026-02-03T04:05:06.000007+00:00".toList
  sourceSha256 := ['s']
  originalSha256 := ['x', '\n']
  outputSha256 := ['y', '\n']
  mode := 0o644

/-- Nobody else acts, and no call fails by itself. -/
def firstEnv : Env where
  fault _ := none
  interfere _ := none
  stamp n := ⟨1000 + n, 0, 0, n⟩
  orphan _ := ⟨.other, [], 0, 0, 0, 0, 0, 0, 1, none⟩
  now _ := ⟨2026, 2, 3, 4, 5, 6, 7, by decide⟩
  uuid _ := ⟨List.replicate 32 'b', List.length_replicate,
    fun c hc => by rw [List.eq_of_mem_replicate hc]; decide⟩
  checkCurrent _ := none
  haAllowed _ _ := true
  sha256 data := data.map fun b => Char.ofNat b.toNat
  dumps := jsonDumps
  loads data := if data = jsonDumps firstMetadata.json then some firstMetadata.json else none

theorem firstEnv_json : firstEnv.JsonModule where
  dumps metadata := by
    have hmembers : (match metadata.json with
        | .object members => members.map fun (key, value) => (key, jsonScalar value)
        | _ => []) = metadata.members := by
      simp [Metadata.json, Metadata.members, jsonScalar]
    exact congrArg (fun entries => Utf8.encode (JsonText.object entries)) hmembers
  loads t _ hloads := by
    have hread : (if Utf8.encode t = jsonDumps firstMetadata.json then some firstMetadata.json
        else none).isSome := hloads
    split at hread
    · rename_i hbytes
      rw [Utf8.encode_injective hbytes]
      exact JsonText.document_object _
    · cases hread

def firstManager : BackupManager := ⟨['p'], 1⟩

def firstSnapshot : Snapshot where
  data := Utf8.encode "x\n".toList
  sha256 := ['x', '\n']
  info := ⟨.file, 3, 2, 5, 5, 0o644, 0, 0, 1⟩

/-- A directory of backups with a foreign file in it. -/
def firstBackups : Backups where
  world :=
    let directory (ino : Nat) : Node := ⟨.directory, [], ino, 0, 0, 0o755, 0, 0, 2, none⟩
    let parts := firstManager.parts
    { fs := AList.insert [] (directory 1) <| AList.insert (parts.take 1) (directory 2) <|
        AList.insert (parts.take 2) (directory 3) <| AList.insert parts (directory 4) <|
        AList.insert (parts ++ [['n']]) ⟨.file, [0x6e], 5, 0, 0, 0o644, 0, 0, 1, none⟩ ∅
      progress := ⟨[], false, none, false⟩ }
  made _ := none

def firstMade : Backups :=
  firstBackups.create (firstEnv.failing fun _ => none) firstManager firstSnapshot "f/g".toList
    (Utf8.encode "y\n".toList) ['s'] "apply".toList

def firstName : Text := backupName (firstEnv.now 0) (firstEnv.uuid 0)

theorem Examined.of_listing (hlisting : isBackupListing (fs.names p) = true) {directory target
    metadata : Node} (hdirectory : fs.lookup p = some directory)
    (htarget : fs.lookup (p ++ [targetName]) = some target)
    (hmetadata : fs.lookup (p ++ [metadataFile]) = some metadata)
    (hkinds : directory.kind = .directory ∧ (target.kind = .file ∧ target.nlink = 1) ∧
      metadata.kind = .file ∧ metadata.nlink = 1) (hsize : metadata.data.length ≤ 65536) :
    Examined fs p metadata.data :=
  ⟨⟨directory, hdirectory, hkinds.1⟩, fun x => by
      rw [← Fs.mem_names_iff]
      exact isBackupListing_iff.mp hlisting x,
    ⟨target, htarget, hkinds.2.1⟩, ⟨metadata, hmetadata, hkinds.2.2.1, hkinds.2.2.2, rfl⟩, hsize⟩

theorem firstMade_counted : Counted firstEnv firstManager firstMade.world.fs firstName := by
  have hway : ∀ p ∈ firstManager.parts.inits,
      (firstMade.world.fs.lookup p).any (·.kind = .directory) = true := by decide +kernel
  have hlisting : isBackupListing
      (firstMade.world.fs.names (firstManager.parts ++ [firstName])) = true := by decide +kernel
  have hfiles : (firstMade.world.fs.lookup (firstManager.parts ++ [firstName])).any
        (·.kind = .directory) = true ∧
      (firstMade.world.fs.lookup (firstManager.parts ++ [firstName] ++ [targetName])).any
        (fun node => node.kind = .file ∧ node.nlink = 1) = true ∧
      (firstMade.world.fs.lookup (firstManager.parts ++ [firstName] ++ [metadataFile])).any
        (fun node => (node.kind = .file ∧ node.nlink = 1 ∧ node.data.length ≤ 65536) ∧
          metadataMatches firstManager.patchId (firstEnv.loads node.data) = true) = true := by
    decide +kernel
  obtain ⟨hdirectory, htarget, hmetadata⟩ := hfiles
  rw [Option.any_eq_true] at hdirectory htarget hmetadata
  obtain ⟨directory, hd, hdirectory⟩ := hdirectory
  obtain ⟨target, ht, htarget⟩ := htarget
  obtain ⟨metadata, hm, hmetadata⟩ := hmetadata
  obtain ⟨⟨hkind, hnlink, hsize⟩, hmatches⟩ := of_decide_eq_true hmetadata
  have hexamined := Examined.of_listing hlisting hd ht hm ⟨of_decide_eq_true hdirectory,
    of_decide_eq_true htarget, hkind, hnlink⟩ hsize
  refine ⟨fun p hp => ?_, isBackupName_backupName _ _, hexamined.complete hmatches⟩
  have hdirectory := hway p ((List.mem_inits _ _).mpr hp)
  rw [Option.any_eq_true] at hdirectory
  obtain ⟨node, hnode, hkind⟩ := hdirectory
  exact ⟨node, hnode, of_decide_eq_true hkind⟩

/-- So many opening brackets that `json.loads` gives up. -/
def brackets : Bytes := List.replicate 60000 0x5b

def exceeds (raw : Bytes) : Bool := decide (raw = brackets)

/-- One backup is made next to a foreign file. -/
theorem backups_kept_first : ∃ made,
    firstMade.made (firstManager.parts ++ [firstName]) = some made ∧
    made.data = Utf8.encode "x\n".toList ∧
    Whole firstEnv firstMade.world.fs (firstManager.parts ++ [firstName]) made ∧
    (LastLeft firstEnv firstManager firstMade.world.fs
        (firstMade.prune (firstEnv.failing fun _ => none) exceeds firstManager).world.fs ↔
      Parsable firstManager exceeds firstMade.world.fs ∨
        Few firstEnv firstManager firstMade.world.fs) := by
  have hmade : (firstMade.made (firstManager.parts ++ [firstName])).map Made.data =
      some (Utf8.encode "x\n".toList) := by decide +kernel
  obtain ⟨made, hmade, hdata⟩ := Option.map_eq_some_iff.mp hmade
  have hinit : BackupManager.make ['p'] 1 = .ok firstManager := rfl
  have hstep : BackupStep firstEnv exceeds firstBackups firstMade := .create hinit (fun _ => none)
    firstSnapshot (by decide +kernel) "f/g".toList (Utf8.encode "y\n".toList) ['s'] "apply".toList
  have hstart : ∀ p, firstBackups.made p = none := fun _ => rfl
  obtain ⟨hwhole, hleft, -⟩ := backups_kept (fun _ => rfl) firstEnv_json hstart (.single hstep)
    ['p'] 1 firstManager hinit
  exact ⟨made, hmade, hdata, hwhole firstName made hmade firstMade_counted, hleft⟩

/-! ## Too deep a file -/

def olderName : Text := backupName ⟨2025, 2, 3, 4, 5, 6, 7, by decide⟩ (firstEnv.uuid 0)

def deepName : Text := backupName ⟨2024, 2, 3, 4, 5, 6, 7, by decide⟩ (firstEnv.uuid 0)

def foreignNode (kind : Kind) (data : Bytes) : Node := ⟨kind, data, 9, 0, 0, 0o644, 0, 0, 1, none⟩

def deepNode : Node := foreignNode .file brackets

/-- Somebody else puts a complete backup next to the first, and one with too deep a file. -/
def deepFs : Fs :=
  let older := firstManager.parts ++ [olderName]
  let deep := firstManager.parts ++ [deepName]
  AList.insert (deep ++ [metadataFile]) deepNode <|
    AList.insert (deep ++ [targetName]) (foreignNode .file []) <|
    AList.insert deep (foreignNode .directory []) <|
    AList.insert (older ++ [metadataFile]) (foreignNode .file (jsonDumps firstMetadata.json)) <|
    AList.insert (older ++ [targetName]) (foreignNode .file [0x77]) <|
    AList.insert older (foreignNode .directory []) firstMade.world.fs

def deepBackups : Backups := { firstMade with world := { firstMade.world with fs := deepFs } }

theorem deepFs_lookup {q : Path} (holder : ¬ firstManager.parts ++ [olderName] <+: q)
    (hdeep : ¬ firstManager.parts ++ [deepName] <+: q) :
    deepFs.lookup q = firstMade.world.fs.lookup q := by
  have hne {p : Path} {below : List Text} (hp : ¬ p <+: q) : q ≠ p ++ below := by
    rintro rfl
    exact hp (List.prefix_append _ _)
  have holder' : q ≠ firstManager.parts ++ [olderName] := by
    rintro rfl
    exact holder (List.prefix_refl _)
  have hdeep' : q ≠ firstManager.parts ++ [deepName] := by
    rintro rfl
    exact hdeep (List.prefix_refl _)
  rw [deepFs, AList.lookup_insert_ne (hne hdeep), AList.lookup_insert_ne (hne hdeep),
    AList.lookup_insert_ne hdeep', AList.lookup_insert_ne (hne holder),
    AList.lookup_insert_ne (hne holder), AList.lookup_insert_ne holder']

theorem deep_examined : Examined deepFs (firstManager.parts ++ [deepName]) brackets := by
  have hlisting : isBackupListing (deepFs.names (firstManager.parts ++ [deepName])) = true := by
    decide +kernel
  have hdirectory : deepFs.lookup (firstManager.parts ++ [deepName]) =
      some (foreignNode .directory []) := by
    rw [deepFs, AList.lookup_insert_ne (by simp), AList.lookup_insert_ne (by simp),
      AList.lookup_insert]
  have htarget : deepFs.lookup (firstManager.parts ++ [deepName] ++ [targetName]) =
      some (foreignNode .file []) := by
    rw [deepFs, AList.lookup_insert_ne (by decide), AList.lookup_insert]
  have hmetadata : deepFs.lookup (firstManager.parts ++ [deepName] ++ [metadataFile]) =
      some deepNode := by
    rw [deepFs, AList.lookup_insert]
  exact Examined.of_listing hlisting hdirectory htarget hmetadata ⟨rfl, ⟨rfl, rfl⟩, rfl, rfl⟩
    (List.length_replicate.le.trans (by decide))

theorem older_complete : CompleteName firstEnv firstManager deepFs olderName := by
  have hlisting : isBackupListing (deepFs.names (firstManager.parts ++ [olderName])) = true := by
    decide +kernel
  have hdirectory : deepFs.lookup (firstManager.parts ++ [olderName]) =
      some (foreignNode .directory []) := by
    rw [deepFs, AList.lookup_insert_ne (by decide), AList.lookup_insert_ne (by decide),
      AList.lookup_insert_ne (by decide), AList.lookup_insert_ne (by simp),
      AList.lookup_insert_ne (by simp), AList.lookup_insert]
  have htarget : deepFs.lookup (firstManager.parts ++ [olderName] ++ [targetName]) =
      some (foreignNode .file [0x77]) := by
    rw [deepFs, AList.lookup_insert_ne (by decide), AList.lookup_insert_ne (by decide),
      AList.lookup_insert_ne (by decide), AList.lookup_insert_ne (by decide),
      AList.lookup_insert]
  have hmetadata : deepFs.lookup (firstManager.parts ++ [olderName] ++ [metadataFile]) =
      some (foreignNode .file (jsonDumps firstMetadata.json)) := by
    rw [deepFs, AList.lookup_insert_ne (by decide), AList.lookup_insert_ne (by decide),
      AList.lookup_insert_ne (by decide), AList.lookup_insert]
  have hexamined := Examined.of_listing hlisting hdirectory htarget hmetadata
    ⟨rfl, ⟨rfl, rfl⟩, rfl, rfl⟩ (by decide +kernel)
  exact ⟨isBackupName_backupName _ _, hexamined.complete (by decide +kernel)⟩

theorem firstMade_made {p : Path} {made : Made} (h : firstMade.made p = some made) :
    p = firstManager.parts ++ [firstName] := by
  rw [firstMade, Backups.create] at h
  dsimp only at h
  split at h
  · by_contra hne
    have hne' : p ≠ firstManager.parts ++
        [backupName ((firstEnv.failing fun _ => none).now firstBackups.world.step)
          ((firstEnv.failing fun _ => none).uuid firstBackups.world.step)] := hne
    rw [Function.update_of_ne hne'] at h
    cases h
  · cases h

theorem deepBackups_history :
    Relation.ReflTransGen (BackupStep firstEnv exceeds) firstBackups deepBackups := by
  have hinit : BackupManager.make ['p'] 1 = .ok firstManager := rfl
  have hcreate : BackupStep firstEnv exceeds firstBackups firstMade := .create hinit (fun _ => none)
    firstSnapshot (by decide +kernel) "f/g".toList (Utf8.encode "y\n".toList) ['s'] "apply".toList
  have hforeign : BackupStep firstEnv exceeds firstMade deepBackups := by
    refine .foreign fun p made hmade q hq => ?_
    -- None of what is put there is below the backup that was made.
    rw [firstMade_made hmade] at hq
    refine deepFs_lookup (fun hbelow => ?_) fun hbelow => ?_
    · exact absurd (eq_of_below hbelow hq) (by decide)
    · exact absurd (eq_of_below hbelow hq) (by decide)
  exact .tail (.single hcreate) hforeign

/-- Too deep a file of somebody else keeps pruning from removing anything. -/
theorem prune_leaves_both : firstEnv.Calm ∧ firstEnv.JsonModule ∧
    (∀ p, firstBackups.made p = none) ∧
    Relation.ReflTransGen (BackupStep firstEnv exceeds) firstBackups deepBackups ∧
    BackupManager.make ['p'] 1 = .ok firstManager ∧
    ¬ LastLeft firstEnv firstManager deepBackups.world.fs
      (deepBackups.prune (firstEnv.failing fun _ => none) exceeds firstManager).world.fs := by
  refine ⟨fun _ => rfl, firstEnv_json, fun _ => rfl, deepBackups_history, rfl, fun hleft => ?_⟩
  have hquiet : firstEnv.Quiet := ⟨fun _ => rfl, fun _ => rfl⟩
  obtain ⟨hway, hfirst⟩ := firstMade_counted
  have hshort {p : Path} {name : Text} (hp : p <+: firstManager.parts) :
      ¬ firstManager.parts ++ [name] <+: p := fun hbelow =>
    absurd (hbelow.trans hp).length_le (by simp)
  have hrooted : Rooted deepFs firstManager.parts := by
    intro p hp
    rw [deepFs_lookup (hshort hp) (hshort hp)]
    exact hway p hp
  have hfirst' : CompleteName firstEnv firstManager deepFs firstName := by
    refine hfirst.congr fun q hq => deepFs_lookup (fun hbelow => ?_) fun hbelow => ?_
    · exact absurd (eq_of_below hbelow hq) (by decide)
    · exact absurd (eq_of_below hbelow hq) (by decide)
  have henv : (firstEnv.failing fun _ => none) = firstEnv := rfl
  rw [Backups.prune_fs, henv] at hleft
  rcases (prune_lastLeft_iff hquiet deepBackups.world).mp hleft with hparsable | hfew
  · have hexceeds := hparsable deepName brackets (isBackupName_backupName _ _) deep_examined
    rw [exceeds, decide_eq_false_iff_not] at hexceeds
    exact hexceeds rfl
  · have hlength := hfew [olderName, firstName] (by decide +kernel) fun b hb => by
      rcases List.mem_cons.mp hb with rfl | hb
      · exact ⟨hrooted, older_complete⟩
      · cases List.mem_singleton.mp hb
        exact ⟨hrooted, hfirst'⟩
    exact absurd hlength (by decide)

end Hapatchy
