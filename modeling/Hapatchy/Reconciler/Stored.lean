import Hapatchy.Backup.History
import Hapatchy.Reconciler.Outcome

/-!
# The backups that a run makes

An attempt makes at most one backup, right before the replacement. It is made
whole, or the run ends there without replacing anything.
-/

open Effects Prog

namespace Hapatchy

variable {env : Env} {reconciler : Reconciler} {job : Job} {w w' : World} {fs fs' : Fs}

/-! ## Elsewhere of the backups -/

/-- Steps that leave `.hapatchy` alone. -/
def Elsewhere : Label → Prop
  | .edit p => ¬ Internal p
  | .sync p => ¬ Internal p
  | .replace _ _ => False
  | _ => True

theorem frame_elsewhere {p : Path} (h : Internal p) : Frame Elsewhere p where
  edit hp := hp h
  sync hp := hp h
  replace _ _ hp := hp.elim

theorem Looks.elsewhere {l : Label} (h : Looks l) : Elsewhere l := by
  cases l with
  | call | check => trivial
  | _ => exact h.elim

theorem Steps.step_le {L : Label → Prop} (h : Steps env L w w') : w.step ≤ w'.step := by
  obtain ⟨new, -, hstep⟩ := h.step
  omega

/-! ## Backups -/

/-- A backup that a run makes: when, and of what. -/
structure Stored where
  step : Nat
  snapshot : Snapshot
  output : Bytes

/-- The clock and `uuid4` decide the name. -/
def Stored.name (env : Env) (b : Stored) : Text := backupName (env.now b.step) (env.uuid b.step)

def Stored.metadata (env : Env) (job : Job) (b : Stored) : Metadata :=
  job.manager.metadata env b.snapshot job.definition.targetPath b.output (env.sha256 job.source)
    job.operation (env.now b.step)

def Stored.path (env : Env) (job : Job) (b : Stored) : Path := job.manager.parts ++ [b.name env]

/-- The backup is there, with its two files on disk. -/
structure Stored.At (env : Env) (job : Job) (b : Stored) (fs : Fs) : Prop where
  directory : ∃ node, fs.lookup (b.path env job) = some node ∧ node.kind = .directory
  listing : ∀ x, (fs.lookup (b.path env job ++ [x])).isSome ↔ x = targetName ∨ x = metadataFile
  target : DurableFile fs (b.path env job ++ [targetName]) b.snapshot.data
  metadata : DurableFile fs (b.path env job ++ [metadataFile])
    (env.dumps (b.metadata env job).json)

theorem Stored.At.congr {b : Stored} (h : b.At env job fs)
    (hfs : ∀ q, b.path env job <+: q → fs'.lookup q = fs.lookup q) : b.At env job fs' where
  directory := by
    rw [hfs _ (List.prefix_refl _)]
    exact h.directory
  listing x := by
    rw [hfs _ (List.prefix_append _ _)]
    exact h.listing x
  target := h.target.congr (hfs _ (List.prefix_append _ _))
  metadata := h.metadata.congr (hfs _ (List.prefix_append _ _))

theorem Stored.At.of_preimage {b : Stored} (h : PreimageAt env job.manager b.snapshot
    job.definition.targetPath b.output (env.sha256 job.source) job.operation b.step fs) :
    b.At env job fs := by
  obtain ⟨node, -, hnode, hkind, -⟩ := h.directory
  exact ⟨⟨node, hnode, hkind⟩, h.listing, h.target, h.metadata⟩

/-- `_complete` reads the metadata and accepts it. -/
def Stored.Readable (env : Env) (job : Job) (b : Stored) : Prop :=
  (env.dumps (b.metadata env job).json).length ≤ 65536 ∧
    metadataMatches job.definition.patchId (env.loads (env.dumps (b.metadata env job).json)) = true

theorem Stored.readable_of_loads {b : Stored}
    (hloads : env.loads (env.dumps (b.metadata env job).json) = some (b.metadata env job).json)
    (hsize : (env.dumps (b.metadata env job).json).length ≤ 65536) : b.Readable env job := by
  refine ⟨hsize, ?_⟩
  rw [hloads]
  exact metadataMatches_json _

/-- A whole backup counts as complete just if its metadata can be read. -/
theorem Stored.At.complete_iff_readable {b : Stored} (h : b.At env job fs) :
    CompleteName env job.manager fs (b.name env) ↔ b.Readable env job := by
  obtain ⟨m, _, hm, hmkind, hmlink, hmdata, -⟩ := h.metadata
  obtain ⟨t, _, ht, htkind, htlink, -⟩ := h.target
  constructor
  · rintro ⟨-, hcomplete⟩
    obtain ⟨node, hnode, -, -, hsize, hmatches⟩ := hcomplete.metadata
    obtain rfl := Option.some_inj.mp (hm.symm.trans hnode)
    rw [hmdata] at hsize hmatches
    exact ⟨hsize, hmatches⟩
  · rintro ⟨hsize, hmatches⟩
    refine ⟨isBackupName_backupName _ _, h.directory, h.listing, ⟨t, ht, htkind, htlink⟩, m, hm,
      hmkind, hmlink, ?_, ?_⟩ <;> rw [hmdata]
    · exact hsize
    · exact hmatches

theorem Stored.At.holds {b : Stored} (h : b.At env job fs) (hreadable : b.Readable env job) :
    Holds env job.manager fs (b.name env) b.snapshot.data := by
  obtain ⟨node, _, hnode, -, -, hdata, -⟩ := h.target
  exact ⟨h.complete_iff_readable.mpr hreadable, node, hnode, hdata⟩

/-! ## What is added -/

/-- From `w` to `w'`, the backups `made` are added, and the others stay. -/
structure Stores (env : Env) (job : Job) (w w' : World) (made : List Stored) : Prop where
  step : w.step ≤ w'.step
  during : ∀ b ∈ made, w.step ≤ b.step ∧ b.step ≤ w'.step
  added : ∀ b ∈ made, w.fs.lookup (b.path env job) = none ∧ b.At env job w'.fs
  other : ∀ name, (∀ b ∈ made, name ≠ b.name env) →
    ∀ q, job.manager.parts ++ [name] <+: q → w'.fs.lookup q = w.fs.lookup q

theorem Stores.trans {w'' : World} {made made' : List Stored} (h : Stores env job w w' made)
    (h' : Stores env job w' w'' made') : Stores env job w w'' (made ++ made') := by
  -- A later backup has another name, for its directory was not there.
  have hnew : ∀ b ∈ made, ∀ b' ∈ made', b.name env ≠ b'.name env := by
    intro b hb b' hb' heq
    obtain ⟨node, hnode, -⟩ := (h.added b hb).2.directory
    have hnone := (h'.added b' hb').1
    rw [Stored.path, ← heq, ← Stored.path, hnode] at hnone
    cases hnone
  refine ⟨h.step.trans h'.step, fun b hb => ?_, fun b hb => ?_, fun name hname q hq => ?_⟩
  · have := h.step
    have := h'.step
    rcases List.mem_append.mp hb with hb | hb
    · have := h.during b hb
      omega
    · have := h'.during b hb
      omega
  · rcases List.mem_append.mp hb with hb | hb
    · obtain ⟨hnone, hat⟩ := h.added b hb
      exact ⟨hnone, hat.congr fun q hq => h'.other (b.name env) (hnew b hb) q hq⟩
    · obtain ⟨hnone, hat⟩ := h'.added b hb
      refine ⟨?_, hat⟩
      exact (h.other (b.name env) (fun b' hb' => (hnew b' hb' b hb).symm) _
        (List.prefix_refl _)).symm.trans hnone
  · rw [h'.other name (fun b hb => hname b (List.mem_append_right _ hb)) q hq,
      h.other name (fun b hb => hname b (List.mem_append_left _ hb)) q hq]

section Target

variable (hT : IsTarget env job.target)

include hT

theorem Steps.stores (h : Steps env Elsewhere w w') : Stores env job w w' [] :=
  ⟨h.step_le, by simp, by simp, fun _ _ _ hq =>
    h.lookup (frame_elsewhere (internal_parts.append.trans hq))
      (hT.spares_internal (internal_parts.append.trans hq))⟩

/-- The name was not there before, or `mkdir` had failed. -/
theorem create_new {snapshot : Snapshot} {targetPath : Text} {output : Bytes}
    {sourceSha256 operation name : Text} {manager : BackupManager}
    (h : manager.create env snapshot targetPath output sourceSha256 operation w = (.ok name, w')) :
    w.fs.lookup (manager.parts ++ [backupName (env.now w.step) (env.uuid w.step)]) = none := by
  rw [BackupManager.create, read_bind] at h
  obtain ⟨_, t, hmake, -⟩ := bind_ok_iff.mp h
  rcases rescueOs_ok hmake with hmake | ⟨_, _, -, hraise⟩
  swap
  · cases (raise_eq_iff.mp hraise).1
  obtain ⟨parent, t₁, t₂, hparent, henter, hbody, -⟩ := withDirectory_ok (L := NoEdit) trivial hmake
  obtain ⟨_, t₃, hmkdir, -⟩ := bind_ok_iff.mp hbody
  have hspares : env.Spares (manager.parts ++ [backupName (env.now w.step) (env.uuid w.step)]) :=
    hT.spares_internal internal_parts.append
  have habsent := mkdir_new hmkdir
  rw [hparent, Fs.mem_iff, arrive_lookup hspares, Option.not_isSome_iff_eq_none] at habsent
  rw [← habsent]
  -- Entering makes no more than the directories above.
  refine (Steps.lookup (L := Above manager.parts) ((does_enter trivial fun _ p part hp => ?_).of_eq
    henter) (frame_above fun hpre => ?_) hspares).symm
  · exact ⟨hp, (List.prefix_append _ _).trans hp⟩
  · exact absurd hpre.length_le (by simp)

theorem IsTarget.spares_parts {manager : BackupManager} {p : Path} (hp : p <+: manager.parts) :
    env.Spares p := by
  refine hT.alone p ?_
  rintro rfl
  obtain ⟨part, parts, heq⟩ := List.exists_cons_of_ne_nil hT.ne_nil
  rw [heq, BackupManager.parts, List.cons_prefix_cons] at hp
  refine hT.external ?_
  rw [heq, hp.1]
  exact List.prefix_append [_] parts

/-- The directories of the backups are verified once more at the end. -/
theorem create_rooted {snapshot : Snapshot} {targetPath : Text} {output : Bytes}
    {sourceSha256 operation name : Text} {manager : BackupManager}
    (h : manager.create env snapshot targetPath output sourceSha256 operation w = (.ok name, w')) :
    Rooted w'.fs manager.parts := by
  rw [BackupManager.create, read_bind] at h
  obtain ⟨_, t, hmake, hpure⟩ := bind_ok_iff.mp h
  obtain ⟨-, rfl⟩ := pure_eq_iff.mp hpure
  rcases rescueOs_ok hmake with hmake | ⟨_, _, -, hraise⟩
  swap
  · cases (raise_eq_iff.mp hraise).1
  obtain ⟨parent, t₁, t₂, hparent, henter, hbody, hexited⟩ :=
    withDirectory_ok (L := NoEdit) trivial hmake
  obtain ⟨_, t₃, -, hbody⟩ := bind_ok_iff.mp hbody
  obtain ⟨_, t₄, -, hbody⟩ := bind_ok_iff.mp hbody
  obtain ⟨_, t₅, hverify, hsync⟩ := bind_ok_iff.mp hbody
  have hspares : ∀ p, p <+: manager.parts → env.Spares p := fun p hp => hT.spares_parts hp
  obtain ⟨hparts, haligned, -⟩ := enter_current hspares henter
  have hcurrent := verify_current (hparts ▸ hspares) haligned hverify
  intro p hp
  obtain ⟨node, hnode, hkind⟩ := hcurrent.isPrefix (hparts ▸ hp)
  have hverified : Steps env NoEdit t₄ t₅ := (does_verify trivial).of_eq hverify
  rw [← hverified.lookup frame_noEdit (hspares p hp)] at hnode
  rw [hexited.lookup frame_noEdit (hspares p hp)]
  rw [hparent] at hsync
  by_cases hne : p = manager.parts
  · subst hne
    obtain ⟨names, hsynced, -⟩ := fsync_ok (hspares _ (List.prefix_refl _)) hsync hnode
    exact ⟨_, hsynced, hkind⟩
  · refine ⟨node, ?_, hkind⟩
    rw [Steps.lookup ((does_fsync (L := OnlyAt manager.parts) trivial rfl).of_eq hsync)
      (frame_onlyAt hne) (hspares p hp)]
    exact hnode

theorem Rooted.noEdit {manager : BackupManager} (h : Rooted w.fs manager.parts)
    (hsteps : Steps env NoEdit w w') : Rooted w'.fs manager.parts := by
  intro p hp
  rw [hsteps.lookup frame_noEdit (hT.spares_parts hp)]
  exact h p hp

theorem create_stores {b : Stored} {name : Text} (hstep : b.step = w.step)
    (h : job.manager.create env b.snapshot job.definition.targetPath b.output
      (env.sha256 job.source) job.operation w = (.ok name, w')) :
    Stores env job w w' [b] := by
  have hall : Does env (fun _ => True) (job.manager.create env b.snapshot
      job.definition.targetPath b.output (env.sha256 job.source) job.operation) :=
    does_create trivial (fun _ _ _ => ⟨trivial, trivial⟩) fun _ _ => ⟨trivial, trivial⟩
  have hle := Steps.step_le (hall.of_eq h)
  obtain ⟨out, hbody⟩ := create_body h
  refine ⟨hle, ?_, ?_, fun name hname q hq => ?_⟩
  · intro b' hb'
    obtain rfl := List.mem_singleton.mp hb'
    omega
  · intro b' hb'
    obtain rfl := List.mem_singleton.mp hb'
    have hnew := create_new hT h
    have hpreimage := create_ok hT h
    rw [← hstep] at hnew hpreimage
    exact ⟨hnew, .of_preimage hpreimage⟩
  · refine createIn_other (hT.spares_internal (internal_parts.append.trans hq)) hbody ?_ fun hpre => ?_
    · have := hq.length_le
      simp only [List.length_append, List.length_singleton] at this
      omega
    · refine hname b (List.mem_singleton_self b) ?_
      rw [Stored.name, hstep]
      exact eq_of_below hq hpre

end Target

/-! ## An attempt -/

/-- `run` reports it, and makes no other attempt. -/
def Exc.Final (e : Exc) : Prop := ∀ status, e.patchError? ≠ some ⟨.targetChanged, status⟩

/-- A part of an attempt: nothing is replaced, and if the run can go on from there, at most one
backup was added. Or the target is replaced right after its backup was added. -/
inductive Tries (env : Env) (job : Job) (stops : Prop) (w w' : World) : Prop
  | unreplaced {new : List Event} (log : w'.log = w.log ++ new) (none : replacements new = [])
      (made : stops ∨ ∃ made : List Stored, made.length ≤ 1 ∧ Stores env job w w' made)
  | replaced {new : List Event} {r : Replacement} {b : Stored} {t : World}
      (log : w'.log = w.log ++ new) (once : replacements new = [r]) (stores : Stores env job w t [b])
      (before : t.fs = r.before) (rooted : Rooted r.before job.manager.parts)
      (step : t.step ≤ w'.step) (sha256 : b.snapshot.sha256 = env.sha256 b.snapshot.data)
      (replaced : Replaced env job.target b.snapshot b.output
        (Backed env job b.snapshot b.output) r)

section Tries

variable {stops stops' : Prop} {t : World}

theorem Tries.imp (h : Tries env job stops w w') (himp : stops → stops') :
    Tries env job stops' w w' := by
  cases h with
  | unreplaced log none made => exact .unreplaced log none (made.imp_left himp)
  | replaced log once stores before rooted step sha256 replaced =>
    exact .replaced log once stores before rooted step sha256 replaced

variable (hT : IsTarget env job.target)

include hT

theorem Tries.of_steps (h : Steps env Elsewhere w w') : Tries env job stops w w' := by
  obtain ⟨new, hlog, hnone⟩ := h.unreplaced fun _ _ => id
  exact .unreplaced hlog hnone (Or.inr ⟨[], Nat.zero_le _, h.stores hT⟩)

theorem Tries.after (h : Tries env job stops t w') (hsteps : Steps env Elsewhere w t) :
    Tries env job stops w w' := by
  obtain ⟨a, ha, hnone⟩ := hsteps.unreplaced fun _ _ => id
  have hstores := hsteps.stores hT
  cases h with
  | @unreplaced b log none made =>
    have hlog : w'.log = w.log ++ (a ++ b) := by rw [log, ha, List.append_assoc]
    refine .unreplaced hlog (by rw [replacements_append, hnone, none, List.append_nil])
      (made.imp_right ?_)
    rintro ⟨made, hlength, h⟩
    exact ⟨made, hlength, hstores.trans h⟩
  | @replaced b _ _ _ log once stores before rooted step sha256 replaced =>
    have hlog : w'.log = w.log ++ (a ++ b) := by rw [log, ha, List.append_assoc]
    exact .replaced hlog (by rw [replacements_append, hnone, once, List.nil_append])
      (hstores.trans stores) before rooted step sha256 replaced

theorem Tries.before (h : Tries env job stops w t) (hsteps : Steps env Elsewhere t w') :
    Tries env job stops w w' := by
  obtain ⟨b, hb, hnone⟩ := hsteps.unreplaced fun _ _ => id
  cases h with
  | @unreplaced a log none made =>
    have hlog : w'.log = w.log ++ (a ++ b) := by rw [hb, log, List.append_assoc]
    refine .unreplaced hlog (by rw [replacements_append, hnone, none, List.append_nil])
      (made.imp_right ?_)
    rintro ⟨made, hlength, h⟩
    exact ⟨made, hlength, List.append_nil made ▸ h.trans (hsteps.stores hT)⟩
  | @replaced a _ _ _ log once stores before rooted step sha256 replaced =>
    have hlog : w'.log = w.log ++ (a ++ b) := by rw [hb, log, List.append_assoc]
    exact .replaced hlog (by rw [replacements_append, hnone, once, List.append_nil]) stores before
      rooted (step.trans hsteps.step_le) sha256 replaced

end Tries

section Commit

variable {target : GuardedFile} {snapshot : Snapshot} {output : Bytes} {beforeCommit : Io Unit}
  {temp : Handle}

variable (env job snapshot output) in
/-- The backup of `_replace`. -/
def storing : Io Unit := do
  let _ ← job.manager.create env snapshot job.definition.targetPath output (env.sha256 job.source)
    job.operation

theorem raises_storing : Raises Exc.IsPatch (storing env job snapshot output) :=
  raises_bind raises_create fun _ => raises_pure

variable (hT : IsTarget env job.target) (hcheck : Does env Looks beforeCommit)

include hT

theorem storing_stores {u : Unit} (h : storing env job snapshot output w = (.ok u, w')) :
    Stores env job w w' [⟨w.step, snapshot, output⟩] ∧ Rooted w'.fs job.manager.parts := by
  obtain ⟨name, t, hcreate, hpure⟩ := bind_ok_iff.mp h
  obtain ⟨-, rfl⟩ := pure_eq_iff.mp hpure
  exact ⟨create_stores hT rfl hcreate, create_rooted hT hcreate⟩

include hcheck

/-- Up to the replacement, the backup is made whole or it is what fails. -/
theorem prepare_stores {out : Except Exc Unit} (htemp : ¬ Internal temp.path)
    (h : prepare env target snapshot output (some (storing env job snapshot output)) beforeCommit
      temp w = (out, w')) :
    out = .error (.commit .backupFailed false) ∨
      ∃ made : List Stored, made.length ≤ 1 ∧ Stores env job w w' made ∧
        (out = .ok () →
          (∃ n, made = [⟨n, snapshot, output⟩]) ∧ Rooted w'.fs job.manager.parts) := by
  have hfills : Does env Elsewhere (fillTemp env temp snapshot output) :=
    does_fillTemp trivial htemp htemp
  have hrest : Does env Elsewhere (target.verifySnapshot env snapshot >>= fun _ => beforeCommit) :=
    runs_bind (does_verifySnapshot trivial trivial) fun _ => hcheck.mono fun _ => Looks.elsewhere
  rcases bind_eq_iff.mp h with ⟨e, hfill, rfl⟩ | ⟨_, t, hfill, h⟩
  · exact Or.inr ⟨[], Nat.zero_le _, Steps.stores hT (hfills.of_eq hfill), fun h => by cases h⟩
  rcases bind_eq_iff.mp h with ⟨e, hbackup, rfl⟩ | ⟨_, t', hbackup, h⟩
  · -- What `create` raises, `backup_failed` takes the place of.
    left
    rcases rescue_eq_iff.mp hbackup with ⟨_, -, ⟨⟩⟩ | ⟨e', t', hraised, hhandler⟩
    have hpatch := raises_storing _ _ _ hraised
    cases e' with
    | patch => exact (raise_eq_iff.mp hhandler).1
    | _ => exact hpatch.elim
  · have hmade : storing env job snapshot output t = (.ok (), t') := by
      rcases rescue_eq_iff.mp hbackup with ⟨_, hmade, -⟩ | ⟨e, _, -, hhandler⟩
      · exact hmade
      · cases e <;> cases (raise_eq_iff.mp hhandler).1
    obtain ⟨hstored, hrooted⟩ := storing_stores hT hmade
    have hstores := ((Steps.stores hT (hfills.of_eq hfill)).trans hstored).trans
      (Steps.stores hT (hrest.of_eq h))
    have hquiet : Does env NoEdit (target.verifySnapshot env snapshot >>= fun _ => beforeCommit) :=
      runs_bind (does_verifySnapshot trivial trivial) fun _ => hcheck.mono fun _ => Looks.noEdit
    exact Or.inr ⟨_, Nat.le_refl _, hstores, fun _ =>
      ⟨⟨t.step, rfl⟩, hrooted.noEdit hT (hquiet.of_eq h)⟩⟩

/-- A block that fails has made its backup whole, or it raises what ends the run. -/
theorem replaceBlock_stores {e : Exc} (htemp : ¬ Internal temp.path)
    (h : onError (commitErrorOnOs .commitFailed false (do
        prepare env target snapshot output (some (storing env job snapshot output)) beforeCommit temp
        replace env temp.path target.path)) (unlinkTemp env temp.path) w = (.error e, w')) :
    e.Final ∨ ∃ made : List Stored, made.length ≤ 1 ∧ Stores env job w w' made := by
  have hunlinks : Does env Elsewhere (unlinkTemp env temp.path) :=
    does_rescueOs (does_unlink trivial htemp trivial) fun e => by
      cases e <;> first | exact runs_pure | exact runs_raise
  rcases rescue_eq_iff.mp h with ⟨_, -, ⟨⟩⟩ | ⟨e', t, hbody, hcleanup⟩
  have hcleaned : Steps env Elsewhere t w' := by
    rcases bind_eq_iff.mp hcleanup with ⟨_, hunlink, -⟩ | ⟨_, t', hunlink, hraise⟩
    · exact hunlinks.of_eq hunlink
    · obtain ⟨-, rfl⟩ := raise_eq_iff.mp hraise
      exact hunlinks.of_eq hunlink
  have hmade {made : List Stored} (hlength : made.length ≤ 1) (hstores : Stores env job w t made) :
      ∃ made : List Stored, made.length ≤ 1 ∧ Stores env job w w' made :=
    ⟨made, hlength, List.append_nil made ▸ hstores.trans (Steps.stores hT hcleaned)⟩
  obtain ⟨e'', hinner⟩ := commitErrorOnOs_error hbody
  rcases bind_eq_iff.mp hinner with ⟨_, hprepare, heq⟩ | ⟨_, v, hprepare, hreplace⟩
  · cases heq
    rcases prepare_stores hT hcheck htemp hprepare with heq | ⟨made, hlength, hstores, -⟩
    swap
    · exact Or.inr (hmade hlength hstores)
    -- Only what `unlink` raises can take the place of `backup_failed`.
    cases heq
    have heq : e' = .commit .backupFailed false := by
      rw [commitErrorOnOs, rescueOs, rescue, hinner] at hbody
      exact Except.error.inj (raise_eq_iff.mp hbody).1
    have hraises : Raises Exc.Final (unlinkTemp env temp.path) :=
      raises_unlinkTemp fun _ _ h => by cases h
    rcases bind_eq_iff.mp hcleanup with ⟨e₁, hunlink, heq₁⟩ | ⟨_, _, -, hraise⟩
    · cases heq₁
      exact Or.inl (hraises _ _ _ hunlink)
    · cases (raise_eq_iff.mp hraise).1
      rw [heq]
      exact Or.inl fun status hview => by cases hview
  · rcases prepare_stores hT hcheck htemp hprepare with ⟨⟨⟩⟩ | ⟨made, hlength, hstores, -⟩
    have harrive : Steps env Elsewhere v t := by
      rw [replace_error hreplace]
      exact Steps.single (l := .call) trivial (.call v)
    exact Or.inr (hmade hlength (List.append_nil made ▸ hstores.trans (Steps.stores hT harrive)))

/-- A commit with its backup. -/
theorem commit_tries {out : Except Exc Unit} (htarget : target.path = job.target)
    (hhooks : Hooks env job.target (Backed env job snapshot output)
      (some (storing env job snapshot output)) beforeCommit)
    (hsha : snapshot.sha256 = env.sha256 snapshot.data)
    (h : commit env target snapshot output (some (storing env job snapshot output)) beforeCommit
      w = (out, w')) :
    Tries env job (∃ e, out = .error e ∧ e.Final ∧ e.Unreplaced) w w' := by
  rw [← htarget] at hhooks
  have hparent : target.parent = job.target.dropLast := by
    rw [← htarget, GuardedFile.path, List.dropLast_concat]
  have hexternal : ∀ n, ¬ Internal (target.parent ++ [tempName (env.uuid n)]) := fun n =>
    Temp.external ⟨n, by rw [hparent]⟩ hT.external
  obtain ⟨new, hsegment, hend⟩ := commit_run hhooks (htarget ▸ hT) h
  rw [commit, read_bind] at h
  have hverifies : Does env Elsewhere (commitErrorOnOs .commitFailed false
      (target.verifySnapshot env snapshot)) :=
    does_commitErrorOnOs (does_verifySnapshot trivial trivial)
  rcases bind_eq_iff.mp h with ⟨e, hverify, -⟩ | ⟨_, t₁, hverify, h⟩
  · exact .of_steps hT (hverifies.of_eq hverify)
  have hcreates : ∀ n, Does env Elsewhere (rescueOs
      (createExclusive env (target.parent ++ [tempName (env.uuid n)])) fun _ =>
        raise (.commit .commitFailed false)) := fun n =>
    does_rescueOs (does_createExclusive trivial (hexternal n)) fun _ => runs_raise
  rcases bind_eq_iff.mp h with ⟨e, hcreate, -⟩ | ⟨temp, t₂, hcreate, h⟩
  · exact .of_steps hT (hverifies.of_eq hverify |>.trans ((hcreates _).of_eq hcreate))
  have hcreated : Steps env Elsewhere w t₂ :=
    (hverifies.of_eq hverify).trans ((hcreates _).of_eq hcreate)
  have hpath : temp.path = target.parent ++ [tempName (env.uuid w.step)] := by
    rcases rescueOs_ok hcreate with hok | ⟨_, _, -, hraise⟩
    · obtain ⟨rfl, -, -⟩ := createExclusive_ok hok
      rfl
    · cases (raise_eq_iff.mp hraise).1
  have htemp : ¬ Internal temp.path := hpath ▸ hexternal _
  rw [← hpath] at h
  rcases bind_eq_iff.mp h with ⟨e, hblock, rfl⟩ | ⟨_, t₃, hblock, hsync⟩
  · obtain ⟨-, -, -, hun, -⟩ := onError_error hhooks hblock
    have hnone : replacements new = [] := by
      rcases hend with ⟨hnone, -⟩ | ⟨r, -, -, hout, -⟩
      · exact hnone
      · rcases hout with ⟨⟨⟩⟩ | hout
        cases hout
        cases hun
    refine .unreplaced hsegment.log hnone ?_
    rcases replaceBlock_stores hT hcheck htemp hblock with hfinal | ⟨made, hlength, hstores⟩
    · exact Or.inl ⟨e, rfl, hfinal, hun⟩
    · exact Or.inr ⟨made, hlength, (Steps.stores hT hcreated).trans hstores⟩
  · obtain ⟨_, v, hprepare, hreplace⟩ : ∃ u v, prepare env target snapshot output
        (some (storing env job snapshot output)) beforeCommit temp t₂ = (.ok u, v) ∧
        replace env temp.path target.path v = (.ok (), t₃) := by
      rcases rescueOs_ok (onError_ok hblock) with hbody | ⟨_, _, -, hraise⟩
      · exact bind_ok_iff.mp hbody
      · cases (raise_eq_iff.mp hraise).1
    rcases prepare_stores hT hcheck htemp hprepare with ⟨⟨⟩⟩ | ⟨made, -, hstores, hmade⟩
    obtain ⟨⟨n, rfl⟩, hrooted⟩ := hmade rfl
    obtain ⟨a, ha, -⟩ := Steps.log hcreated
    obtain ⟨b, hb, -⟩ := Steps.log ((does_prepare_filling hhooks).of_eq hprepare)
    obtain ⟨node, -, rfl⟩ := replace_ok hreplace
    have harrive : Steps env Elsewhere v (arrive env v) :=
      Steps.single (l := .call) trivial (.call v)
    have hstored := ((Steps.stores hT hcreated).trans hstores).trans (Steps.stores hT harrive)
    rw [List.nil_append, List.append_nil] at hstored
    have hsyncs : Does env Elsewhere
        (commitErrorOnOs .durabilityUnconfirmed true (fsync env target.parent)) := by
      refine does_commitErrorOnOs (does_fsync trivial fun hinternal => hT.external ?_)
      rw [hparent] at hinternal
      exact hinternal.trans (List.dropLast_prefix _)
    obtain ⟨c, hc, -⟩ := Steps.log (hsyncs.of_eq hsync)
    -- The one replacement in the log is this one.
    have hmem : ⟨target.path, (arrive env v).fs, node, (arrive env v).disturbed⟩ ∈
        replacements new := by
      rw [mem_replacements]
      have hnew : new = a ++ b ++ [.call] ++ [.replaced ⟨target.path, (arrive env v).fs, node,
          (arrive env v).disturbed⟩] ++ c := by
        refine List.append_cancel_left (hsegment.log.symm.trans ?_)
        rw [hc]
        simp only [arrive_log, hb, ha, List.append_assoc]
      rw [hnew]
      simp
    rcases hend with ⟨hnone, -⟩ | ⟨r, hone, hreplaced, -, -⟩
    · rw [hnone] at hmem
      cases hmem
    rw [hone, List.mem_singleton] at hmem
    rw [htarget] at hreplaced
    have hstep := Steps.step_le (hsyncs.of_eq hsync)
    refine .replaced hsegment.log hone hstored (by rw [← hmem]) ?_ hstep hsha hreplaced
    rw [← hmem]
    exact hrooted.noEdit hT (Steps.single (l := .call) trivial (.call v))

end Commit

section Block

variable {target : GuardedFile} {snapshot : Snapshot} {output : Bytes}
  {parsed : PatchEngine.ParsedPatch} (hT : IsTarget env job.target)
  (hrequired : backupRequired job = true) (htarget : target.path = job.target)

include hT hrequired htarget

theorem commitOutput_tries {out : Except Exc Unit}
    (hsource : w.progress.sourceSha256 = env.sha256 job.source)
    (hsha : snapshot.sha256 = env.sha256 snapshot.data)
    (h : commitOutput env reconciler job job.manager target snapshot output w = (out, w')) :
    Tries env job (∃ e, out = .error e ∧ e.Final) w w' := by
  have hhooks := replace_hooks reconciler snapshot output hT
  rw [if_pos hrequired] at hhooks
  rw [commitOutput, read_bind, hsource] at h
  simp only [if_pos hrequired] at h
  rcases rescue_eq_iff.mp h with ⟨_, hcommit, rfl⟩ | ⟨e, t, hcommit, hfailed⟩
  · refine (commit_tries hT hhooks.looks htarget hhooks hsha hcommit).imp ?_
    rintro ⟨e, hout, hfinal, -⟩
    exact ⟨e, hout, hfinal⟩
  · have htries := commit_tries hT hhooks.looks htarget hhooks hsha hcommit
    refine Tries.before hT (htries.imp ?_) ((does_commitFailed trivial trivial).of_eq hfailed)
    rintro ⟨e, heq, hfinal, hun⟩
    cases heq
    refine ⟨e, ?_, hfinal⟩
    cases e with
    | commit reason replaced =>
      cases hun
      rcases bind_eq_iff.mp hfailed with ⟨_, hrecord, -⟩ | ⟨_, u, -, hraise⟩
      · cases (change_eq_iff.mp hrecord).1
      · exact (raise_eq_iff.mp hraise).1
    | _ => exact (raise_eq_iff.mp hfailed).1

theorem replaceTarget_tries {out : Except Exc ReconcileResult} (hw : w.progress.mutated = false)
    (hsource : w.progress.sourceSha256 = env.sha256 job.source)
    (hsha : snapshot.sha256 = env.sha256 snapshot.data)
    (h : replaceTarget env reconciler job parsed target snapshot output w = (out, w')) :
    Tries env job (∃ e, out = .error e ∧ e.Final) w w' := by
  rcases bind_eq_iff.mp h with ⟨e, hmake, -⟩ | ⟨manager, _, hmake, h⟩
  · exact .of_steps hT ((does_ofPatch (L := Elsewhere)).of_eq hmake)
  obtain ⟨hmanager, rfl⟩ := ofPatch_ok hmake
  obtain rfl := make_ok hmanager
  rcases bind_eq_iff.mp h with ⟨e, hcommit, rfl⟩ | ⟨_, t, hcommit, hafter⟩
  · refine (commitOutput_tries hT hrequired htarget hsource hsha hcommit).imp ?_
    rintro ⟨e', heq, hfinal⟩
    cases heq
    exact ⟨e, rfl, hfinal⟩
  · -- Pruning comes after the replacement.
    obtain ⟨new, hsegment, -, ⟨-, -, _, ⟨⟩⟩ | ⟨r, hone, -⟩⟩ :=
      commitOutput_run hT htarget hw hsource hcommit
    have hsteps := (does_afterCommit hT).of_eq hafter
    obtain ⟨new', hsegment', hnone'⟩ := Steps.segment hsteps hT
    cases commitOutput_tries hT hrequired htarget hsource hsha hcommit with
    | unreplaced log none =>
      obtain rfl := List.append_cancel_left (log.symm.trans hsegment.log)
      rw [none] at hone
      cases hone
    | replaced log once stores before rooted step sha256 replaced =>
      exact .replaced (hsegment.trans hsegment').log
        (by
          obtain rfl := List.append_cancel_left (log.symm.trans hsegment.log)
          rw [replacements_append, hnone', once, List.append_nil])
        stores before rooted (step.trans (Steps.step_le hsteps)) sha256 replaced

theorem inspectAndReplace_tries {out : Except Exc ReconcileResult} (hw : w.progress.mutated = false)
    (hsource : w.progress.sourceSha256 = env.sha256 job.source)
    (h : inspectAndReplace env reconciler job parsed target w = (out, w')) :
    Tries env job (∃ e, out = .error e ∧ e.Final) w w' := by
  have hreads : Does env Elsewhere (readTarget env target) := by
    have hparent : ¬ Internal target.parent := fun hinternal => hT.external (by
      rw [← htarget, GuardedFile.path]
      exact hinternal.append)
    refine runs_bind (does_guardedRead trivial) fun _ => runs_bind (does_record trivial) fun _ =>
      runs_bind runs_read fun w => runs_ite (fun _ => ?_) fun _ => runs_pure
    exact runs_bind (does_confirmDurability trivial trivial hparent) fun _ =>
      runs_bind (does_record trivial) fun _ => runs_pure
  rcases bind_eq_iff.mp h with ⟨e, hread, -⟩ | ⟨snapshot, t, hread, h⟩
  · exact .of_steps hT (hreads.of_eq hread)
  refine Tries.after hT ?_ (hreads.of_eq hread)
  have hresult : ∀ {inspection error}, result inspection error t = (out, w') →
      Tries env job (∃ e, out = .error e ∧ e.Final) t w' := fun hrun =>
    .of_steps hT ((runs_bind runs_read fun _ => runs_pure :
      Does env Elsewhere (result _ _)).of_eq hrun)
  obtain ⟨hmutated, hsame⟩ := keeps_readTarget.same hread
  split at h
  · exact hresult h
  cases houtput : outputForAction job.definition (PatchEngine.inspect parsed snapshot.data)
      job.action with
  | none =>
    rw [houtput] at h
    exact hresult h
  | some output =>
    rw [houtput] at h
    exact replaceTarget_tries hT hrequired htarget (hmutated.trans hw) (hsame.trans hsource)
      (readTarget_ok hT htarget hread).1 h

end Block

theorem attempt_tries {out : Except Exc ReconcileResult} (hT : IsTarget env job.target)
    (hrequired : backupRequired job = true) (hw : w.progress.mutated = false)
    (hsource : w.progress.sourceSha256 = env.sha256 job.source)
    (h : attempt env reconciler job w = (out, w')) :
    Tries env job (∃ e, out = .error e ∧ e.Final) w w' := by
  rcases attempt_split h with ⟨_, -, -, hlooks⟩ | ⟨parsed, target, t, out', u, -, hentered, htarget,
    hblock, hexited, hout⟩
  · exact .of_steps hT (hlooks.mono fun _ => Looks.elsewhere)
  have hsame := hentered.progress id
  have htries := inspectAndReplace_tries hT hrequired htarget (by rw [hsame, hw])
    (by rw [hsame, hsource]) hblock
  refine Tries.after hT (Tries.before hT (htries.imp ?_)
    (hexited.mono fun _ h => h.looks.elsewhere)) (hentered.mono fun _ => Looks.elsewhere)
  rintro ⟨e, heq, hfinal⟩
  rcases hout with ⟨-, rfl⟩ | ⟨e', -, rfl⟩
  · exact ⟨e, heq, hfinal⟩
  · exact ⟨_, rfl, fun _ h => by cases h⟩

/-! ## A run -/

/-- The attempt of a run that replaces, and the backups that the attempts before it have made. -/
structure LastAttempt (env : Env) (reconciler : Reconciler) (job : Job) (w u w' : World)
    (later : Nat) (earlier : List Stored) (r : Replacement) : Prop where
  attempts : earlier.length ≤ later
  stores : Stores env job w u earlier
  mutated : u.progress.mutated = false
  source : u.progress.sourceSha256 = env.sha256 job.source
  attempt : ∃ out, attempt env reconciler job u = (out, w')
  replaced : ∃ new, w'.log = u.log ++ new ∧ r ∈ replacements new

section Run

variable (halone : Alone env job.target) (hsha : Function.Injective env.sha256)
  (hT : IsTarget env job.target) (hrequired : backupRequired job = true) {later : Nat}
  {result : ReconcileResult} {new : List Event} {r : Replacement}

include halone hsha hT hrequired

/-- One round: an attempt that replaced is the last one. -/
theorem round_stores {retry : Option (Io ReconcileResult)} (hw : w.progress.mutated = false)
    (hsource : w.progress.sourceSha256 = env.sha256 job.source)
    (h : rescue (attempt env reconciler job) (report retry) w = (.ok result, w')) :
    (∃ out, attempt env reconciler job w = (out, w')) ∨
      ∃ again ∈ retry, ∃ t made a, List.length made ≤ 1 ∧ Stores env job w t made ∧
        t.log = w.log ++ a ∧ replacements a = [] ∧ t.progress.mutated = false ∧
        t.progress.sourceSha256 = env.sha256 job.source ∧ again t = (.ok result, w') := by
  rcases rescue_eq_iff.mp h with ⟨_, hattempt, -⟩ | ⟨e, t, hattempt, hreport⟩
  · exact Or.inl ⟨_, hattempt⟩
  rcases attempt_raises hattempt with he | ⟨rfl, -⟩
  swap
  · cases (raise_eq_iff.mp hreport).1
  rcases report_run he hreport with ⟨rfl, -⟩ | ⟨again, hagain, ⟨⟨status, hview, -⟩, hmutated⟩, hrest⟩
  · exact Or.inl ⟨_, hattempt⟩
  obtain ⟨⟨a, hending⟩, -⟩ := attempt_run halone hsha hw hsource hattempt
  have hnone : replacements a = [] := by
    by_contra hne
    rw [hending.mutated.mpr hne] at hmutated
    cases hmutated
  refine Or.inr ⟨again, hagain, t, ?_⟩
  cases attempt_tries hT hrequired hw hsource hattempt with
  | unreplaced log none made =>
    rcases made with ⟨e', heq, hfinal⟩ | ⟨made, hlength, hstores⟩
    · cases heq
      exact absurd hview (hfinal status)
    · exact ⟨made, a, hlength, hstores, hending.segment.log, hnone, hmutated, hending.source, hrest⟩
  | replaced log once =>
    obtain rfl := List.append_cancel_left (log.symm.trans hending.segment.log)
    rw [once] at hnone
    cases hnone

/-- Each attempt before the one that replaces adds at most one backup. -/
theorem attempts_stores (hw : w.progress.mutated = false)
    (hsource : w.progress.sourceSha256 = env.sha256 job.source)
    (h : attempts env reconciler job later w = (.ok result, w')) (hlog : w'.log = w.log ++ new)
    (hr : r ∈ replacements new) :
    ∃ u earlier, LastAttempt env reconciler job w u w' later earlier r := by
  induction later generalizing w new with
  | zero =>
    rcases round_stores halone hsha hT hrequired hw hsource h with hattempt | ⟨again, ⟨⟩, -⟩
    exact ⟨w, [], Nat.zero_le _, Steps.stores hT .refl, hw, hsource, hattempt, new, hlog, hr⟩
  | succ later ih =>
    rcases round_stores halone hsha hT hrequired hw hsource h with hattempt | ⟨again, hagain, t,
      made, a, hlength, hstores, ha, hnone, hmutated, hsource', hrest⟩
    · exact ⟨w, [], Nat.zero_le _, Steps.stores hT .refl, hw, hsource, hattempt, new, hlog, hr⟩
    cases hagain
    rcases attempts_run halone hsha hmutated hsource' hrest with ⟨new', _, -, -, hending⟩ | ⟨⟨⟩, -⟩
    have hnew : new = a ++ new' := by
      refine List.append_cancel_left (hlog.symm.trans ?_)
      rw [hending.segment.log, ha, List.append_assoc]
    rw [hnew, replacements_append, hnone, List.nil_append] at hr
    obtain ⟨u, earlier, hend⟩ := ih hmutated hsource' hrest hending.segment.log hr
    refine ⟨u, made ++ earlier, ?_, hstores.trans hend.stores, hend.mutated, hend.source,
      hend.attempt, hend.replaced⟩
    have := hend.attempts
    rw [List.length_append]
    omega

end Run

/-- A run that replaces its target has entered the directory of an external one. -/
theorem run_external (halone : Alone env job.target) {pendingDurability : Bool}
    {out : Except Exc ReconcileResult} {new : List Event} {r : Replacement}
    (h : run env reconciler job pendingDurability w = (out, w')) (hlog : w'.log = w.log ++ new)
    (hr : r ∈ replacements new) : IsTarget env job.target := by
  by_cases hparts : ∃ parts, relativeParts job.definition.targetPath = .ok parts
  · obtain ⟨parts, hparts⟩ := hparts
    exact halone.isTarget hparts
  have hdoes : Does env Unreplacing (run env reconciler job pendingDurability) := by
    refine runs_run_of_attempt (does_record trivial) ?_
    refine runs_bind (PathPolicy.does_checkDefinition.mono fun l hl => ?_) fun _ =>
      runs_bind runs_lift fun parsed => runs_bind_of (does_guardedEnter trivial)
        fun target t t' henter => absurd ⟨_, (guardedEnter_ok henter).1⟩ hparts
    have hlooks := hl.looks
    cases l with
    | replace => exact hlooks.elim
    | _ => trivial
  obtain ⟨new', hlog', hnone⟩ := Steps.unreplacing (hdoes.of_eq h)
  obtain rfl := List.append_cancel_left (hlog.symm.trans hlog')
  rw [hnone] at hr
  cases hr

/-- What a run that replaces its target with a backup required has stored. -/
theorem run_stores (halone : Alone env job.target) (hsha : Function.Injective env.sha256)
    (hrequired : backupRequired job = true) {pendingDurability : Bool} {result : ReconcileResult}
    {new : List Event} {r : Replacement}
    (h : run env reconciler job pendingDurability w = (.ok result, w'))
    (hlog : w'.log = w.log ++ new) (hr : r ∈ replacements new) :
    ∃ u earlier, LastAttempt env reconciler job (begun env job w pendingDurability) u w' 2 earlier r := by
  have hT := run_external halone h hlog hr
  cases henabled : job.definition.enabled with
  | false =>
    obtain rfl : new = [] :=
      List.append_cancel_left (hlog.symm.trans ((run_disabled henabled h).1.trans (List.append_nil _).symm))
    cases hr
  | true =>
    rw [run_eq_attempts henabled] at h
    exact attempts_stores halone hsha hT hrequired rfl rfl h hlog hr

end Hapatchy
