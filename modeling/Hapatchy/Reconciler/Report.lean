import Hapatchy.Backup.Specs
import Hapatchy.PatchEngine.Errors
import Hapatchy.Reconciler

/-!
# The report of a run

Whatever call fails, a run that returns says whether the target was replaced:
at most once, by the output of the bytes that were last verified.
-/

open Effects Prog

namespace Hapatchy

variable {env : Env} {reconciler : Reconciler} {job : Job} {w w' : World}

/-! ## What a run may do -/

/-- `definition.target_path` -/
def Job.target (job : Job) : Path := job.definition.targetPath.splitOn '/'

def Job.manager (job : Job) : BackupManager := ⟨job.definition.patchId, job.retention⟩

def Job.operation (job : Job) : Text :=
  if job.action = .revert then "revert".toList else "apply".toList

/-- The action has the output `output` for a target that holds `data`. -/
def Gives (reconciler : Reconciler) (job : Job) (data output : Bytes) : Prop :=
  ∃ parsed, PatchEngine.parse reconciler.fromstring job.source job.definition.targetPath =
      .ok parsed ∧
    outputForAction job.definition (PatchEngine.inspect parsed data) job.action = some output

/-- A replacement of `node` as the action is to do it, with the backup that it needs. -/
structure Faithful (env : Env) (reconciler : Reconciler) (job : Job) (r : Replacement)
    (node : Node) : Prop where
  lookup : r.before.lookup job.target = some node
  kind : node.kind = .file ∧ r.installed.kind = .file
  output : Gives reconciler job node.data r.installed.data
  mode : r.installed.mode = node.mode
  uid : r.installed.uid = node.uid
  gid : r.installed.gid = node.gid
  backed : backupRequired job → ∃ n, PreimageAt env job.manager
    ⟨node.data, env.sha256 node.data, node.stat⟩ job.definition.targetPath r.installed.data
    (env.sha256 job.source) job.operation n r.before

/-- The action has an output, and it is for the target in `w` if nobody else acts. -/
def HasOutput (env : Env) (reconciler : Reconciler) (job : Job) (w : World) : Prop :=
  ∃ data output, Gives reconciler job data output ∧ (env.Calm →
    ∃ node, w.fs.lookup job.target = some node ∧ node.data = data)

variable (env) in
/-- Between the trees `fs` and `fs'`, the backups were pruned, or nothing happened to them, and
nobody else acted on them. -/
structure Pruned (manager : BackupManager) (fs fs' : Fs) : Prop where
  spares : ∀ p, Internal p → env.Spares p
  run : ∃ t t' : World, (t' = t ∨ ∃ out, (manager.prune env) t = (out, t')) ∧
    ∀ p, Internal p → t.fs.lookup p = fs.lookup p ∧ fs'.lookup p = t'.fs.lookup p

theorem Pruned.of_same {manager : BackupManager} {fs fs' : Fs}
    (henv : ∀ p, Internal p → env.Spares p) (h : ∀ p, Internal p → fs'.lookup p = fs.lookup p) :
    Pruned env manager fs fs' :=
  ⟨henv, ⟨fs, 0, false, [], ⟨[], false, none, false⟩⟩, _, Or.inl rfl, fun p hp => ⟨rfl, h p hp⟩⟩

theorem Pruned.congr {manager : BackupManager} {fs fs' fs₁ fs₁' : Fs} (h : Pruned env manager fs fs')
    (hfs : ∀ p, Internal p → fs₁.lookup p = fs.lookup p)
    (hfs' : ∀ p, Internal p → fs₁'.lookup p = fs'.lookup p) : Pruned env manager fs₁ fs₁' := by
  obtain ⟨henv, t, t', hrun, hsame⟩ := h
  exact ⟨henv, t, t', hrun, fun p hp =>
    ⟨(hsame p hp).1.trans (hfs p hp).symm, (hfs' p hp).trans (hsame p hp).2⟩⟩

/-- What the part of a run between `w` and `w'` has done, with the events `new`. -/
structure Ending (env : Env) (reconciler : Reconciler) (job : Job) (w w' : World)
    (new : List Event) : Prop where
  segment : Segment env job.target w w' new
  source : w'.progress.sourceSha256 = env.sha256 job.source
  mutated : w'.progress.mutated = true ↔ replacements new ≠ []
  once : (replacements new).length ≤ 1
  faithful : ∀ r ∈ replacements new, r.target = job.target ∧
    (r.disturbed = false ∨ env.Calm → ∃ node, Faithful env reconciler job r node)
  pruned : ∀ r ∈ replacements new, Pruned env job.manager r.before w'.fs
  idle : (∃ p, .changed p ∈ new) ∨ replacements new ≠ [] → HasOutput env reconciler job w

/-- An attempt that has changed nothing, and the rest of the run. -/
theorem Ending.trans {w'' : World} {a b : List Event} (h : Ending env reconciler job w w' a)
    (hnone : replacements a = []) (h' : Ending env reconciler job w' w'' b) :
    Ending env reconciler job w w'' (a ++ b) where
  segment := h.segment.trans h'.segment
  source := h'.source
  mutated := by rw [replacements_append, hnone, List.nil_append, h'.mutated]
  once := by
    rw [replacements_append, hnone, List.nil_append]
    exact h'.once
  faithful := by
    rw [replacements_append, hnone, List.nil_append]
    exact h'.faithful
  pruned := by
    rw [replacements_append, hnone, List.nil_append]
    exact h'.pruned
  idle := by
    rw [replacements_append, hnone, List.nil_append]
    intro hsome
    have hpart : ((∃ p, .changed p ∈ a) ∨ replacements a ≠ []) ∨
        (∃ p, .changed p ∈ b) ∨ replacements b ≠ [] := by
      rcases hsome with ⟨p, hp⟩ | hr
      · exact (List.mem_append.mp hp).imp (fun hp => Or.inl ⟨p, hp⟩) fun hp => Or.inl ⟨p, hp⟩
      · exact Or.inr (Or.inr hr)
    rcases hpart with ha | hb
    · exact h.idle ha
    · obtain ⟨data, output, hgives, hheld⟩ := h'.idle hb
      refine ⟨data, output, hgives, fun henv => ?_⟩
      obtain ⟨node, hnode, hdata⟩ := hheld henv
      exact ⟨node, by rw [← h.segment.kept henv.spares hnone, hnode], hdata⟩

/-! ## Steps that keep the record of the mutation -/

/-- The record of a mutation and the hash of the source stay. -/
def SameRecord (w w' : World) : Prop :=
  w'.progress.mutated = w.progress.mutated ∧ w'.progress.sourceSha256 = w.progress.sourceSha256

abbrev Keeps {α : Type} (m : Io α) : Prop := Runs SameRecord m

theorem Keeps.same {α : Type} {m : Io α} (h : Keeps m) {out : Except Exc α}
    (hrun : m w = (out, w')) : SameRecord w w' := by
  have hsteps := h.of_eq hrun
  clear hrun
  induction hsteps with
  | refl => exact ⟨rfl, rfl⟩
  | tail _ hstep ih => exact ⟨hstep.1.trans ih.1, hstep.2.trans ih.2⟩

theorem Does.keeps {α : Type} {m : Io α} (h : Does env (· ≠ .record) m) : Keeps m := by
  intro w
  refine .single ?_
  have hsame := Steps.progress (h w) fun h => h rfl
  exact ⟨by rw [hsame], by rw [hsame]⟩

theorem keeps_record {f : Progress → Progress} (h : ∀ progress,
    (f progress).mutated = progress.mutated ∧
      (f progress).sourceSha256 = progress.sourceSha256) : Keeps (record f) :=
  runs_change fun w => h w.progress

theorem does_record {L : Label → Prop} {f : Progress → Progress} (h : L .record) :
    Does env L (record f) := fun w => .single ⟨_, h, .record w f⟩

variable (env) in
/-- Steps beside `T` that edit nothing. -/
def Reading (T : Path) (l : Label) : Prop := Beside env T l ∧ ∀ p, l ≠ .edit p

theorem frame_reading {T : Path} (hT : ¬ Internal T) : Frame (Reading env T) T where
  edit := fun h => (frame_beside hT).edit h.1
  sync := fun h => (frame_beside hT).sync h.1
  replace := fun _ _ h => (frame_beside hT).replace _ _ h.1

theorem reading_record {T : Path} : Reading env T .record := ⟨Or.inr rfl, fun _ => Label.noConfusion⟩

variable (reconciler) in
/-- A part of a run that only reads. -/
theorem Ending.of_reading {α : Type} {m : Io α} {out : Except Exc α}
    (hT : IsTarget env job.target) (hdoes : Does env (Reading env job.target) m) (hkeeps : Keeps m)
    (hrun : m w = (out, w')) (hw : w.progress.mutated = false)
    (hsource : w.progress.sourceSha256 = env.sha256 job.source) :
    ∃ new, Ending env reconciler job w w' new ∧ replacements new = [] := by
  have hsteps := hdoes.of_eq hrun
  obtain ⟨new, hsegment, hnone⟩ := Steps.segment (Steps.mono hsteps fun _ h => h.1) hT
  obtain ⟨new', hlog, hall⟩ := Steps.log hsteps
  obtain rfl : new = new' := List.append_cancel_left (hsegment.log.symm.trans hlog)
  obtain ⟨hmutated, hsame⟩ := hkeeps.same hrun
  refine ⟨new, ⟨hsegment, hsame.trans hsource, ?_, ?_, ?_, ?_, ?_⟩, hnone⟩
  · rw [hmutated, hw, hnone]
    simp
  · rw [hnone]
    exact Nat.zero_le _
  · rw [hnone]
    exact fun r hr => absurd hr List.not_mem_nil
  · rw [hnone]
    exact fun r hr => absurd hr List.not_mem_nil
  · rintro (⟨p, hp⟩ | hne)
    · exact absurd rfl ((hall _ hp).2 p)
    · exact absurd hnone hne

/-! ## The replacement -/

section Replace

variable {target : GuardedFile} {snapshot : Snapshot} {output : Bytes}

theorem does_observe {L : Label → Prop} (hcall : L .call) (hrecord : L .record) :
    Does env L (observeReplacedTarget env target) := by
  refine runs_rescue (runs_bind (does_guardedRead hcall) fun _ => does_record hrecord) fun e => ?_
  cases e with
  | patch | commit => exact does_record hrecord
  | os | value | recursion => exact runs_raise

theorem keeps_read : Keeps (target.read env) :=
  Does.keeps (does_guardedRead (Label.noConfusion : Label.call ≠ .record))

theorem keeps_observe : Keeps (observeReplacedTarget env target) := by
  refine runs_rescue (runs_bind keeps_read fun _ => keeps_record fun _ => ⟨rfl, rfl⟩) fun e => ?_
  cases e with
  | patch | commit => exact keeps_record fun _ => ⟨rfl, rfl⟩
  | os | value | recursion => exact runs_raise

variable (env job snapshot output) in
/-- The backup of `snapshot` is there, where one is required. -/
def Backed (fs : Fs) : Prop := backupRequired job → ∃ n, PreimageAt env job.manager snapshot
  job.definition.targetPath output (env.sha256 job.source) job.operation n fs

theorem PreimageAt.congr {manager : BackupManager} {targetPath sourceSha256 operation : Text}
    {n : Nat} (h : PreimageAt env manager snapshot targetPath output sourceSha256 operation n w.fs)
    (hfs : ∀ p, Internal p → w'.fs.lookup p = w.fs.lookup p) :
    PreimageAt env manager snapshot targetPath output sourceSha256 operation n w'.fs :=
  Preimage.congr h fun p hp => hfs p (internal_parts.trans hp)

variable (reconciler snapshot output) in
/-- What `_replace` hands to `commit`. -/
theorem replace_hooks (hT : IsTarget env job.target) : Hooks env job.target
    (Backed env job snapshot output)
    (if backupRequired job then some (do
      let _ ← job.manager.create env snapshot job.definition.targetPath output
        (env.sha256 job.source) job.operation) else none)
    (reconciler.policy.checkDefinition env job.definition) where
  aside := by
    intro before hbefore
    split at hbefore <;> cases hbefore
    exact runs_bind (does_create_aside hT) fun _ => runs_pure
  post := by
    intro before hbefore w w' hrun hrequired
    rw [if_pos hrequired] at hbefore
    cases hbefore
    obtain ⟨name, t, hcreate, hpure⟩ := bind_ok_iff.mp hrun
    obtain ⟨-, rfl⟩ := pure_eq_iff.mp hpure
    exact ⟨_, create_ok hT hcreate⟩
  vacuous := by
    intro hnone fs hrequired
    rw [if_pos hrequired] at hnone
    cases hnone
  looks := PathPolicy.does_checkDefinition.mono fun _ => PathPolicy.Checks.looks
  denies := PathPolicy.raises_checkDefinition.mono fun _ => PathPolicy.Denial.isPatch
  stable := by
    intro w w' hsteps hbacked hrequired
    obtain ⟨n, hpreimage⟩ := hbacked hrequired
    exact ⟨n, hpreimage.congr fun p hp =>
      hsteps.lookup frame_noEdit (hT.spares_internal hp)⟩

/-- After a commit that failed, the record says what its exception says. -/
theorem commitFailed_run {out : Except Exc Unit} {e : Exc} (hw : w.progress.mutated = false)
    (h : commitFailed env target e w = (out, w')) :
    (∃ e', out = .error e') ∧
      w'.progress.sourceSha256 = w.progress.sourceSha256 ∧
      (e.Unreplaced → w'.progress.mutated = false) ∧
      ∀ reason, e = .commit reason true → w'.progress.mutated = true := by
  cases e with
  | commit reason replaced =>
    obtain ⟨_, t, hrecord, h⟩ : ∃ u t, record (fun progress => { progress with
        mutated := replaced }) w = (.ok u, t) ∧ (do
        if replaced then observeReplacedTarget env target
        raise (.commit reason replaced) : Io Unit) t = (out, w') := ⟨(), _, rfl, h⟩
    obtain ⟨-, rfl⟩ := change_eq_iff.mp hrecord
    cases replaced with
    | false =>
      obtain ⟨rfl, rfl⟩ := raise_eq_iff.mp h
      exact ⟨⟨_, rfl⟩, rfl, fun _ => rfl, fun _ h => by cases h⟩
    | true =>
      have hend : ∃ e', out = .error e' ∧ ∃ o, observeReplacedTarget env target
          { w with progress := { w.progress with mutated := true } } = (o, w') := by
        rcases bind_eq_iff.mp h with ⟨e', hobserve, rfl⟩ | ⟨_, t', hobserve, hraise⟩
        · exact ⟨e', rfl, _, hobserve⟩
        · obtain ⟨rfl, rfl⟩ := raise_eq_iff.mp hraise
          exact ⟨_, rfl, _, hobserve⟩
      obtain ⟨e', rfl, o, hobserve⟩ := hend
      obtain ⟨hmutated, hsource⟩ := keeps_observe.same hobserve
      exact ⟨⟨_, rfl⟩, hsource, fun hun => absurd hun Bool.noConfusion, fun _ _ => hmutated⟩
  | _ =>
    obtain ⟨rfl, rfl⟩ := raise_eq_iff.mp h
    exact ⟨⟨_, rfl⟩, rfl, fun _ => hw, fun _ h => by cases h⟩

theorem does_commitFailed {L : Label → Prop} {e : Exc} (hcall : L .call) (hrecord : L .record) :
    Does env L (commitFailed env target e) := by
  cases e with
  | commit reason replaced =>
    refine runs_bind (does_record hrecord) fun _ => ?_
    exact runs_ite (fun _ => runs_bind (does_observe hcall hrecord) fun _ => runs_raise) fun _ =>
      runs_raise
  | _ => exact runs_raise

/-- A commit, and what it leaves in the progress record. -/
theorem commitOutput_run {out : Except Exc Unit} (hT : IsTarget env job.target)
    (htarget : target.path = job.target) (hw : w.progress.mutated = false)
    (hsource : w.progress.sourceSha256 = env.sha256 job.source)
    (h : commitOutput env reconciler job job.manager target snapshot output w = (out, w')) :
    ∃ new, Segment env job.target w w' new ∧
      w'.progress.sourceSha256 = env.sha256 job.source ∧
      ((replacements new = [] ∧ w'.progress.mutated = false ∧ ∃ e, out = .error e) ∨
        ∃ r, replacements new = [r] ∧
          Replaced env job.target snapshot output (Backed env job snapshot output) r ∧
          (∀ p, Internal p → w'.fs.lookup p = r.before.lookup p) ∧
          (out = .ok () ∨ w'.progress.mutated = true ∧ ∃ e, out = .error e)) := by
  rw [commitOutput, read_bind, hsource] at h
  have hhooks := replace_hooks reconciler snapshot output hT
  rw [← htarget] at hT hhooks ⊢
  rcases rescue_eq_iff.mp h with ⟨_, hcommit, rfl⟩ | ⟨e, t, hcommit, hfailed⟩
  · have hsame := Steps.progress (hhooks.does_commit.of_eq hcommit) fun h => h rfl
    obtain ⟨new, hsegment, ⟨-, _, ⟨⟩, -⟩ | ⟨r, hone, hreplaced, -, hinternal⟩⟩ :=
      commit_run hhooks hT hcommit
    exact ⟨new, hsegment, by rw [hsame, hsource],
      Or.inr ⟨r, hone, hreplaced, hinternal, Or.inl rfl⟩⟩
  · have hsame := Steps.progress (hhooks.does_commit.of_eq hcommit) fun h => h rfl
    obtain ⟨hout, hsource', hun, hre⟩ := commitFailed_run (by rw [hsame, hw]) hfailed
    obtain ⟨new', hsegment', hnone'⟩ :=
      Steps.segment ((does_commitFailed (Or.inl trivial) (Or.inr rfl)).of_eq hfailed) hT
    have hobserved : ∀ p, Internal p → w'.fs.lookup p = t.fs.lookup p := fun p hp =>
      Steps.lookup ((does_commitFailed (L := fun l => l = .call ∨ l = .record) (Or.inl rfl)
        (Or.inr rfl)).of_eq hfailed) ⟨by simp, by simp, by simp⟩ (hT.spares_internal hp)
    obtain ⟨new, hsegment, ⟨hnone, e', heq, he⟩ | ⟨r, hone, hreplaced, hend, hinternal⟩⟩ :=
      commit_run hhooks hT hcommit
    · cases heq
      exact ⟨new ++ new', hsegment.trans hsegment', by rw [hsource', hsame, hsource],
        Or.inl ⟨by rw [replacements_append, hnone, hnone', List.append_nil], hun he, hout⟩⟩
    · cases hend.resolve_left (fun h => by cases h)
      exact ⟨new ++ new', hsegment.trans hsegment', by rw [hsource', hsame, hsource],
        Or.inr ⟨r, by rw [replacements_append, hone, hnone', List.append_nil], hreplaced,
          fun p hp => (hobserved p hp).trans (hinternal p hp), Or.inr ⟨hre _ rfl, hout⟩⟩⟩

theorem Replaced.faithful {r : Replacement} (hsha : Function.Injective env.sha256)
    (hsnapshot : snapshot.sha256 = env.sha256 snapshot.data)
    (hgives : Gives reconciler job snapshot.data output)
    (h : Replaced env job.target snapshot output (Backed env job snapshot output) r)
    (hq : r.disturbed = false ∨ env.Calm) : ∃ node, Faithful env reconciler job r node := by
  obtain ⟨node, hlookup, hkind, hstat, hsame⟩ := h.verified hq
  have hdata : node.data = snapshot.data := hsha (hsame.trans hsnapshot)
  have heq : snapshot = ⟨node.data, env.sha256 node.data, node.stat⟩ := by
    rw [hdata, ← hsnapshot, hstat]
  have hinstalled := h.installed
  refine ⟨node, hlookup, ⟨hkind, hinstalled.kind⟩, ?_, ?_, ?_, ?_, fun hrequired => ?_⟩
  · rw [hdata, hinstalled.data]
    exact hgives
  · rw [hinstalled.mode, ← hstat]
    rfl
  · rw [hinstalled.uid, ← hstat]
    rfl
  · rw [hinstalled.gid, ← hstat]
    rfl
  · rw [hinstalled.data, ← heq]
    exact h.hook hrequired

theorem does_afterCommit {manager : BackupManager} {parsed : PatchEngine.ParsedPatch}
    (hT : IsTarget env job.target) :
    Does env (Beside env job.target) (afterCommit env manager parsed target) := by
  have hrecord : ∀ {f}, Does env (Beside env job.target) (record f) := does_record (Or.inr rfl)
  refine runs_bind hrecord fun _ => runs_bind (does_guardedRead (Or.inl trivial)) fun current => ?_
  refine runs_bind hrecord fun _ => runs_bind ((does_prune_aside hT).mono fun _ => Or.inl) fun _ => ?_
  exact runs_bind runs_read fun _ => runs_pure

theorem afterCommit_run {manager : BackupManager} {parsed : PatchEngine.ParsedPatch}
    {out : Except Exc ReconcileResult} (hT : IsTarget env job.target)
    (h : afterCommit env manager parsed target w = (out, w')) :
    w'.progress.mutated = true ∧ w'.progress.sourceSha256 = w.progress.sourceSha256 ∧
      Pruned env manager w.fs w'.fs := by
  obtain ⟨_, t, hrecord, h⟩ : ∃ u t, record (fun progress => { progress with mutated := true }) w =
      (.ok u, t) ∧ (do
        let current ← target.read env
        record fun progress => { progress with targetSha256 := some current.sha256 }
        let inspection := PatchEngine.inspect parsed current.data
        manager.prune env
        result inspection inspection.reason : Io ReconcileResult) t = (out, w') := ⟨(), _, rfl, h⟩
  obtain ⟨-, rfl⟩ := change_eq_iff.mp hrecord
  have hprune : Keeps (manager.prune env) := Does.keeps ((does_prune_aside hT).mono fun l hl => by
    rintro rfl
    exact hl)
  have hkeeps : Keeps (target.read env >>= fun current => do
      record fun progress => { progress with targetSha256 := some current.sha256 }
      let inspection := PatchEngine.inspect parsed current.data
      manager.prune env
      result inspection inspection.reason : Io ReconcileResult) := by
    refine runs_bind keeps_read fun _ => runs_bind (keeps_record fun _ => ⟨rfl, rfl⟩) fun _ => ?_
    exact runs_bind hprune fun _ => runs_bind runs_read fun _ => runs_pure
  obtain ⟨hmutated, hsource⟩ := hkeeps.same h
  refine ⟨hmutated, hsource, ?_⟩
  have hread : ∀ {t t' : World} {out : Except Exc Snapshot},
      (target.read env : Io Snapshot) t = (out, t') →
      ∀ p, Internal p → t'.fs.lookup p = t.fs.lookup p := fun hrun p hp =>
    Steps.calls_lookup ((does_guardedRead trivial).of_eq hrun) (hT.spares_internal hp)
  rcases bind_eq_iff.mp h with ⟨e, hrun, -⟩ | ⟨current, t₁, hrun, hrest⟩
  · have hsame := hread hrun
    exact Pruned.of_same (fun p => hT.spares_internal) hsame
  obtain ⟨_, t₂, hrecord, hrest⟩ : ∃ u t₂, record
      (fun progress => { progress with targetSha256 := some current.sha256 }) t₁ = (.ok u, t₂) ∧
      (manager.prune env >>= fun _ => result (PatchEngine.inspect parsed current.data)
        (PatchEngine.inspect parsed current.data).reason) t₂ = (out, w') := ⟨(), _, rfl, hrest⟩
  obtain ⟨-, rfl⟩ := change_eq_iff.mp hrecord
  obtain ⟨out', hprune⟩ : ∃ out', (manager.prune env) _ = (out', w') := by
    rcases bind_eq_iff.mp hrest with ⟨e, hprune, -⟩ | ⟨_, t₃, hprune, hresult⟩
    · exact ⟨_, hprune⟩
    · rw [result, read_bind] at hresult
      obtain ⟨-, rfl⟩ := pure_eq_iff.mp hresult
      exact ⟨_, hprune⟩
  have hsame := hread hrun
  exact ⟨fun p => hT.spares_internal, _, w', Or.inr ⟨out', hprune⟩, fun p hp => ⟨hsame p hp, rfl⟩⟩

theorem make_ok {patchId : Text} {retention : Nat} {manager : BackupManager}
    (h : BackupManager.make patchId retention = .ok manager) : manager = ⟨patchId, retention⟩ := by
  rw [BackupManager.make] at h
  split at h
  · cases h
  split at h
  · cases h
  · exact (Results.pure_eq_ok.mp h).symm

section Commit

variable (hT : IsTarget env job.target) (htarget : target.path = job.target)
  (hsha : Function.Injective env.sha256) (hsnapshot : snapshot.sha256 = env.sha256 snapshot.data)
  (hgives : Gives reconciler job snapshot.data output)
  (hheld : env.Calm → ∃ node, w.fs.lookup job.target = some node ∧ node.data = snapshot.data)

include hsha hsnapshot hgives hheld

theorem Ending.of_commit {new : List Event} (hsegment : Segment env job.target w w' new)
    (hsource : w'.progress.sourceSha256 = env.sha256 job.source)
    (hend : replacements new = [] ∧ w'.progress.mutated = false ∨ ∃ r, replacements new = [r] ∧
      Replaced env job.target snapshot output (Backed env job snapshot output) r ∧
      w'.progress.mutated = true ∧ Pruned env job.manager r.before w'.fs) :
    Ending env reconciler job w w' new := by
  have hidle : (∃ p, .changed p ∈ new) ∨ replacements new ≠ [] → HasOutput env reconciler job w :=
    fun _ => ⟨snapshot.data, output, hgives, hheld⟩
  rcases hend with ⟨hnone, hmutated⟩ | ⟨r, hone, hreplaced, hmutated, hpruned⟩
  · exact ⟨hsegment, hsource, by simp [hmutated, hnone], by simp [hnone], by simp [hnone],
      by simp [hnone], hidle⟩
  · refine ⟨hsegment, hsource, by simp [hmutated, hone], by simp [hone], ?_, ?_, hidle⟩ <;>
      intro r' hr' <;> rw [hone, List.mem_singleton] at hr' <;> subst hr'
    · exact ⟨hreplaced.target, hreplaced.faithful hsha hsnapshot hgives⟩
    · exact hpruned

include hT htarget

theorem replaceTarget_run {parsed : PatchEngine.ParsedPatch} {out : Except Exc ReconcileResult}
    (hw : w.progress.mutated = false) (hsource : w.progress.sourceSha256 = env.sha256 job.source)
    (h : replaceTarget env reconciler job parsed target snapshot output w = (out, w')) :
    ∃ new, Ending env reconciler job w w' new := by
  rcases bind_eq_iff.mp h with ⟨e, hmake, -⟩ | ⟨manager, _, hmake, h⟩
  · obtain ⟨new, hending, -⟩ := Ending.of_reading reconciler hT runs_lift runs_lift
      hmake hw hsource
    exact ⟨new, hending⟩
  obtain ⟨hmanager, rfl⟩ := ofPatch_ok hmake
  obtain rfl := make_ok hmanager
  rcases bind_eq_iff.mp h with ⟨e, hcommit, -⟩ | ⟨_, t, hcommit, hafter⟩
  · obtain ⟨new, hsegment, hsource', hend⟩ := commitOutput_run hT htarget hw hsource hcommit
    refine ⟨new, Ending.of_commit hsha hsnapshot hgives hheld hsegment hsource' ?_⟩
    rcases hend with ⟨hnone, hmutated, -⟩ | ⟨r, hone, hreplaced, hinternal, hend⟩
    · exact Or.inl ⟨hnone, hmutated⟩
    · exact Or.inr ⟨r, hone, hreplaced, (hend.resolve_left fun h => by cases h).1,
        Pruned.of_same (fun p => hT.spares_internal) hinternal⟩
  · obtain ⟨new, hsegment, hsource', ⟨-, -, _, ⟨⟩⟩ | ⟨r, hone, hreplaced, hinternal, -⟩⟩ :=
      commitOutput_run hT htarget hw hsource hcommit
    obtain ⟨hmutated, hsame, hpruned⟩ := afterCommit_run hT hafter
    obtain ⟨new', hsegment', hnone⟩ := Steps.segment ((does_afterCommit hT).of_eq hafter) hT
    exact ⟨new ++ new', Ending.of_commit hsha hsnapshot hgives hheld (hsegment.trans hsegment')
      (hsame.trans hsource') (Or.inr ⟨r, by simp [hone, hnone], hreplaced, hmutated,
        hpruned.congr (fun p hp => (hinternal p hp).symm) fun _ _ => rfl⟩)⟩

end Commit

end Replace

/-! ## An attempt -/

section Attempt

variable {target : GuardedFile} {parsed : PatchEngine.ParsedPatch}

theorem does_confirmDurability {L : Label → Prop} {snapshot : Snapshot} (hcall : L .call)
    (hverify : L .verify) (hsync : L (.sync target.parent)) :
    Does env L (confirmDurability env target snapshot) :=
  runs_bind (does_verifySnapshot hcall hverify) fun _ =>
    does_commitErrorOnOs (does_fsync hcall hsync)

theorem keeps_readTarget : Keeps (readTarget env target) := by
  refine runs_bind keeps_read fun snapshot => runs_bind (keeps_record fun _ => ⟨rfl, rfl⟩) fun _ =>
    runs_bind runs_read fun w => runs_ite (fun _ => ?_) fun _ => runs_pure
  have hconfirm : Keeps (confirmDurability env target snapshot) :=
    Does.keeps (does_confirmDurability Label.noConfusion Label.noConfusion Label.noConfusion)
  exact runs_bind hconfirm fun _ => runs_bind (keeps_record fun _ => ⟨rfl, rfl⟩) fun _ => runs_pure

variable (hT : IsTarget env job.target) (htarget : target.path = job.target)

include htarget

theorem does_readTarget : Does env (Reading env job.target) (readTarget env target) := by
  have hcall : Reading env job.target .call := ⟨Or.inl trivial, fun _ => Label.noConfusion⟩
  have hrecord : ∀ {f}, Does env (Reading env job.target) (record f) :=
    does_record reading_record
  refine runs_bind (does_guardedRead hcall) fun snapshot => runs_bind hrecord fun _ =>
    runs_bind runs_read fun w => runs_ite (fun _ => runs_bind ?_ fun _ => runs_bind hrecord fun _ =>
      runs_pure) fun _ => runs_pure
  refine does_confirmDurability hcall ⟨Or.inl trivial, fun _ => Label.noConfusion⟩
    ⟨Or.inl ⟨?_, ?_⟩, fun _ => Label.noConfusion⟩
  all_goals rw [← htarget]
  · simp [GuardedFile.path]
  · rw [show target.parent = target.path.dropLast by rw [GuardedFile.path, List.dropLast_concat]]
    exact not_temp_dropLast

include hT

theorem readTarget_ok {snapshot : Snapshot}
    (h : readTarget env target w = (.ok snapshot, w')) :
    snapshot.sha256 = env.sha256 snapshot.data ∧ (env.Calm →
      ∃ node, w'.fs.lookup job.target = some node ∧ node.data = snapshot.data) := by
  obtain ⟨snapshot', t, hread, hrest⟩ := bind_ok_iff.mp h
  obtain ⟨_, t', -, hrest⟩ := bind_ok_iff.mp hrest
  obtain rfl : snapshot' = snapshot := by
    rw [read_bind] at hrest
    split at hrest
    · obtain ⟨_, _, -, hrest⟩ := bind_ok_iff.mp hrest
      obtain ⟨_, _, -, hrest⟩ := bind_ok_iff.mp hrest
      exact (Except.ok.inj (pure_eq_iff.mp hrest).1).symm
    · exact (Except.ok.inj (pure_eq_iff.mp hrest).1).symm
  refine ⟨read_sha hread, fun henv => ?_⟩
  have hsteps : Steps env OnlyCalls w t := (does_guardedRead trivial).of_eq hread
  obtain ⟨node, hnode⟩ := read_ok hread (Or.inr henv)
  refine ⟨node, ?_, by rw [hnode.eq]⟩
  rw [Steps.lookup ((does_readTarget htarget).of_eq h) (frame_reading hT.external) henv.spares,
    ← (hsteps.undisturbed (fun _ => OnlyCalls.looks) (Or.inr henv)).2, ← htarget]
  exact hnode.lookup

variable (hsha : Function.Injective env.sha256) {out : Except Exc ReconcileResult}

include hsha

theorem inspectAndReplace_run
    (hparsed : PatchEngine.parse reconciler.fromstring job.source job.definition.targetPath =
      .ok parsed)
    (hw : w.progress.mutated = false) (hsource : w.progress.sourceSha256 = env.sha256 job.source)
    (h : inspectAndReplace env reconciler job parsed target w = (out, w')) :
    ∃ new, Ending env reconciler job w w' new := by
  rcases bind_eq_iff.mp h with ⟨e, hread, -⟩ | ⟨snapshot, t, hread, h⟩
  · obtain ⟨new, hending, -⟩ := Ending.of_reading reconciler hT
      (does_readTarget htarget) keeps_readTarget hread hw hsource
    exact ⟨new, hending⟩
  obtain ⟨new, hending, hnone⟩ := Ending.of_reading reconciler hT
    (does_readTarget htarget) keeps_readTarget hread hw hsource
  have hmutated := (keeps_readTarget.same hread).1.trans hw
  obtain ⟨hsnapshot, hheld⟩ := readTarget_ok hT htarget hread
  have hresult : ∀ {inspection error} {t' : World}, result inspection error t = (out, t') →
      ∃ new, Ending env reconciler job t t' new := by
    intro inspection error t' hrun
    obtain ⟨new', hending', -⟩ := Ending.of_reading reconciler hT
      (runs_bind runs_read fun _ => runs_pure) (runs_bind runs_read fun _ => runs_pure) hrun
      hmutated hending.source
    exact ⟨new', hending'⟩
  have hrest : ∃ new', Ending env reconciler job t w' new' := by
    split at h
    · exact hresult h
    cases houtput : outputForAction job.definition (PatchEngine.inspect parsed snapshot.data)
        job.action with
    | none =>
      rw [houtput] at h
      exact hresult h
    | some output =>
      rw [houtput] at h
      exact replaceTarget_run hT htarget hsha hsnapshot ⟨parsed, hparsed, houtput⟩ hheld hmutated
        hending.source h
  obtain ⟨new', hending'⟩ := hrest
  exact ⟨new ++ new', hending.trans hnone hending'⟩

end Attempt

/-- Every result says what the progress record says at the end. -/
def Reports (m : Io ReconcileResult) : Prop :=
  ∀ w result w', m w = (.ok result, w') → result.mutated = w'.progress.mutated

theorem reports_result {inspection : PatchInspection} {error : Option Reason} :
    Reports (result inspection error) := by
  intro w result w' h
  rw [Hapatchy.result, read_bind] at h
  obtain ⟨⟨⟩, rfl⟩ := pure_eq_iff.mp h
  rfl

theorem reports_bind {α : Type} {m : Io α} {f : α → Io ReconcileResult}
    (hf : ∀ a, Reports (f a)) : Reports (m >>= f) := by
  intro w result w' h
  obtain ⟨a, t, -, h⟩ := bind_ok_iff.mp h
  exact hf a t result w' h

theorem reports_inspectAndReplace {parsed : PatchEngine.ParsedPatch} {target : GuardedFile} :
    Reports (inspectAndReplace env reconciler job parsed target) := by
  refine reports_bind fun snapshot => ?_
  dsimp only
  split
  · exact reports_result
  split
  · exact reports_result
  · refine reports_bind fun manager => reports_bind fun _ => reports_bind fun _ => ?_
    exact reports_bind fun current => reports_bind fun _ => reports_bind fun _ => reports_result

/-! ## A run -/

/-- What a run needs of the other programs: that they keep to the target, which no `uuid4` hits. -/
structure Alone (env : Env) (T : Path) : Prop where
  spares : ∀ p, p ≠ T → env.Spares p
  fresh : ¬ Temp env T T

theorem internal_of_protected {path : Text} {parts : List Text}
    (h : relativeParts path = .ok parts) : ¬ Internal (path.splitOn '/') := by
  obtain rfl := relativeParts_ok h
  rw [relativeParts] at h
  split at h
  · cases h
  split at h
  · cases h
  · rename_i hprotected
    rintro ⟨rest, hrest⟩
    rw [← hrest] at hprotected
    simp at hprotected

theorem Alone.isTarget (h : Alone env job.target) {parts : List Text}
    (hparts : relativeParts job.definition.targetPath = .ok parts) : IsTarget env job.target :=
  ⟨internal_of_protected hparts, List.splitOn_ne_nil _ _, h.fresh, h.spares⟩

/-- Calls and checks leave nothing but themselves. -/
theorem Steps.looks_segment (h : Alone env job.target) (hsteps : Steps env Looks w w') :
    ∃ new, Segment env job.target w w' new ∧ replacements new = [] ∧ ∀ p, .changed p ∉ new := by
  obtain ⟨new, hlog, hall⟩ := hsteps.log
  have hedit : ∀ p, .changed p ∉ new := fun p hp => hall _ hp
  have hlookup : ∀ p, env.Spares p → w'.fs.lookup p = w.fs.lookup p := fun p henv =>
    Steps.lookup (hsteps.mono fun _ => Looks.noEdit) frame_noEdit henv
  refine ⟨new, ⟨hlog, hedit _, fun p hp => Or.inl ⟨hedit p, hlookup p (h.spares p ?_)⟩,
    fun henv _ => hlookup _ henv⟩, ?_, hedit⟩
  · rintro rfl
    exact h.fresh hp
  · rw [List.eq_nil_iff_forall_not_mem]
    intro r hr
    obtain ⟨source, hs⟩ := hall _ (mem_replacements.mp hr)
    exact hs

variable (reconciler) in
theorem Ending.of_looks (h : Alone env job.target) (hsteps : Steps env Looks w w')
    (hw : w.progress.mutated = false)
    (hsource : w.progress.sourceSha256 = env.sha256 job.source) :
    ∃ new, Ending env reconciler job w w' new ∧ replacements new = [] := by
  obtain ⟨new, hsegment, hnone, hedit⟩ := Steps.looks_segment h hsteps
  have hsame := hsteps.progress id
  refine ⟨new, ⟨hsegment, by rw [hsame, hsource], by simp [hsame, hw, hnone], by simp [hnone],
    by simp [hnone], by simp [hnone], ?_⟩, hnone⟩
  rintro (⟨p, hp⟩ | hne)
  · exact absurd hp (hedit p)
  · exact absurd hnone hne

theorem Ending.then_looks {w'' : World} {a : List Event} (h : Alone env job.target)
    (hexternal : ¬ Internal job.target) (hending : Ending env reconciler job w w' a)
    (hsteps : Steps env Looks w' w'') : ∃ new, Ending env reconciler job w w'' new := by
  obtain ⟨b, hsegment, hnone, hedit⟩ := Steps.looks_segment h hsteps
  have hsame := hsteps.progress id
  have hall : replacements (a ++ b) = replacements a := by
    rw [replacements_append, hnone, List.append_nil]
  refine ⟨a ++ b, hending.segment.trans hsegment, by rw [hsame, hending.source],
    by rw [hsame, hall, hending.mutated], hall ▸ hending.once, hall ▸ hending.faithful,
    fun r hr => ?_, ?_⟩
  · refine (hending.pruned r (hall ▸ hr)).congr (fun _ _ => rfl) fun p hp => ?_
    refine Steps.lookup (hsteps.mono fun _ => Looks.noEdit) frame_noEdit (h.spares p ?_)
    rintro rfl
    exact hexternal hp
  rw [hall]
  rintro (⟨p, hp⟩ | hne)
  · exact hending.idle (Or.inl ⟨p, (List.mem_append.mp hp).resolve_right (hedit p)⟩)
  · exact hending.idle (Or.inr hne)

/-! ## What a run raises -/

/-- `run` reports it: it is no plain `ValueError`, and no `RecursionError`. -/
def Exc.Controlled : Exc → Prop
  | .value => False
  | .recursion => False
  | _ => True

theorem Exc.Controlled.ne_value {e : Exc} (h : e.Controlled) : e ≠ .value := by
  rintro rfl
  exact h

theorem Exc.IsPatch.controlled {e : Exc} (h : e.IsPatch) : e.Controlled := by
  cases e with
  | patch => trivial
  | _ => exact h.elim

theorem raises_observe {target : GuardedFile} :
    Raises Exc.Controlled (observeReplacedTarget env target) := by
  refine raises_rescue (Q := Exc.IsPatch) (raises_bind raises_guardedRead fun _ => raises_change)
    fun e he => ?_
  cases e with
  | patch => exact raises_change
  | _ => exact he.elim

theorem raises_commitFailed {target : GuardedFile} {e : Exc} (he : e.Controlled) :
    Raises Exc.Controlled (commitFailed env target e) := by
  cases e with
  | commit reason replaced =>
    exact raises_bind raises_change fun _ => raises_ite
      (fun _ => raises_bind raises_observe fun _ => raises_raise he) fun _ => raises_raise he
  | _ => exact raises_raise he

theorem raises_inspectAndReplace {parsed : PatchEngine.ParsedPatch} {target : GuardedFile} :
    Raises Exc.Controlled (inspectAndReplace env reconciler job parsed target) := by
  have hread : Raises Exc.Controlled (target.read env) :=
    raises_guardedRead.mono fun _ => Exc.IsPatch.controlled
  have hresult : ∀ {inspection error}, Raises Exc.Controlled (result inspection error) :=
    raises_bind raises_read fun _ => raises_pure
  have hprune : ∀ manager : BackupManager, Raises Exc.Controlled (manager.prune env) :=
    fun _ => raises_prune.mono fun _ => Exc.IsPatch.controlled
  refine raises_bind ?_ fun snapshot => ?_
  · refine raises_bind hread fun snapshot => raises_bind raises_change fun _ =>
      raises_bind raises_read fun w => raises_ite (fun _ => ?_) fun _ => raises_pure
    refine raises_bind (raises_bind (raises_verifySnapshot.mono fun _ => Exc.IsPatch.controlled)
      fun _ => raises_commitErrorOnOs (raises_fsync fun _ => Or.inr trivial) trivial) fun _ => ?_
    exact raises_bind raises_change fun _ => raises_pure
  have hreplace : ∀ output, Raises Exc.Controlled
      (replaceTarget env reconciler job parsed target snapshot output) := by
    intro output
    refine raises_bind (raises_ofPatch fun _ => trivial) fun manager => raises_bind
      (raises_bind raises_read fun w => raises_rescue (Q := Exc.Controlled) ?_ fun e he =>
        raises_commitFailed he) fun _ => ?_
    · refine raises_commit (fun _ => trivial) (fun _ _ => trivial) (fun _ => trivial) (fun before hbefore => ?_)
        (PathPolicy.raises_checkDefinition.mono fun _ => PathPolicy.Denial.isPatch)
      split at hbefore <;> cases hbefore
      exact raises_bind (raises_create.mono fun _ => Exc.IsPatch.controlled) fun _ => raises_pure
    · exact raises_bind raises_change fun _ => raises_bind hread fun _ => raises_bind raises_change
        fun _ => raises_bind (hprune _) fun _ => hresult
  dsimp only
  refine raises_ite (fun _ => hresult) fun _ => ?_
  cases outputForAction job.definition (PatchEngine.inspect parsed snapshot.data) job.action with
  | none => exact hresult
  | some output => exact hreplace output

/-- The attempt cannot be reported: the checks pass, and `parse` raises a plain `ValueError`. -/
def RaisesValue (env : Env) (reconciler : Reconciler) (job : Job) (w : World) : Prop :=
  (reconciler.policy.checkDefinition env job.definition w).1 = .ok () ∧
    PatchEngine.parse reconciler.fromstring job.source job.definition.targetPath = .error .value

theorem attempt_value (h : RaisesValue env reconciler job w) :
    ∃ w', attempt env reconciler job w = (.error .value, w') := by
  obtain ⟨hcheck, hparse⟩ := h
  refine ⟨(reconciler.policy.checkDefinition env job.definition w).2, ?_⟩
  rw [attempt, bind_run]
  rcases hrun : reconciler.policy.checkDefinition env job.definition w with ⟨out, t⟩
  rw [hrun] at hcheck
  simp only at hcheck
  subst hcheck
  simp only [bind_run, lift, hparse]

/-- What an attempt raises is reported, or it is what `parse` raises. -/
theorem attempt_raises {e : Exc} (h : attempt env reconciler job w = (.error e, w')) :
    e.Controlled ∨ e = .value ∧ RaisesValue env reconciler job w := by
  rcases bind_eq_iff.mp h with ⟨e', hcheck, heq⟩ | ⟨_, t, hcheck, hrest⟩
  · cases heq
    exact Or.inl (PathPolicy.raises_checkDefinition _ _ _ hcheck).isPatch.controlled
  rcases bind_eq_iff.mp hrest with ⟨e', hparse, heq⟩ | ⟨parsed, t', -, hrest⟩
  · cases heq
    obtain ⟨hparse, -⟩ := lift_eq_iff.mp hparse
    rcases PatchEngine.parse_eq_error hparse.symm with ⟨error, rfl⟩ | ⟨rfl, -⟩
    · exact Or.inl trivial
    · exact Or.inr ⟨rfl, by rw [hcheck], hparse.symm⟩
  · have hblock : Raises Exc.Controlled (GuardedFile.enter env job.definition.targetPath >>=
        fun target => ensure (inspectAndReplace env reconciler job parsed target) fun _ =>
          target.exit env) :=
      raises_bind (raises_guardedEnter.mono fun _ => Exc.IsPatch.controlled) fun target =>
        raises_ensure raises_inspectAndReplace fun _ => raises_exit fun _ => trivial
    exact Or.inl (hblock _ _ _ hrest)

/-- Where `parse` raises a plain `ValueError`, an attempt raises it, or the denial before. -/
theorem attempt_error_of_value {e : Exc}
    (hparse : PatchEngine.parse reconciler.fromstring job.source job.definition.targetPath =
      .error .value) (h : attempt env reconciler job w = (.error e, w')) :
    e = .value ∨ PathPolicy.Denial e := by
  rcases bind_eq_iff.mp h with ⟨e', hcheck, heq⟩ | ⟨_, t, -, hrest⟩
  · cases heq
    exact Or.inr (PathPolicy.raises_checkDefinition _ _ _ hcheck)
  rcases bind_eq_iff.mp hrest with ⟨e', hlift, heq⟩ | ⟨parsed, t', hlift, -⟩ <;>
    rw [hparse] at hlift <;> obtain ⟨hvalue, -⟩ := lift_eq_iff.mp hlift
  · cases heq
    exact Or.inl (Except.error.inj hvalue)
  · cases hvalue

/-- The inspection that `run` reports for an exception. -/
def reported (pendingDurability : Bool) (e : Exc) : PatchInspection :=
  match e.patchError? with
  | some error =>
    if pendingDurability ∧ error.status ≠ .securityError then
      { status := .applyError, reason := some .durabilityUnconfirmed }
    else { status := error.status, reason := some error.reason }
  | none => { status := .applyError, reason := some .filesystemError }

/-- After `e` in `w`, `run` makes one more attempt. -/
structure Retries (e : Exc) (w : World) : Prop where
  changed : ∃ status, e.patchError? = some ⟨.targetChanged, status⟩ ∧
    ¬ (w.progress.pendingDurability = true ∧ status ≠ .securityError)
  mutated : w.progress.mutated = false

/-- Of a controlled error, `run` makes a result or one more attempt. -/
theorem report_run {retry : Option (Io ReconcileResult)} {e : Exc}
    {out : Except Exc ReconcileResult} (he : e.Controlled) (h : report retry e w = (out, w')) :
    (w' = w ∧ ∃ result, out = .ok result ∧ result.mutated = w.progress.mutated ∧
        result.inspection = reported w.progress.pendingDurability e) ∨
      ∃ again ∈ retry, Retries e w ∧ again w = (out, w') := by
  have hresult : ∀ {inspection error}, result inspection error w = (out, w') →
      inspection = reported w.progress.pendingDurability e →
      w' = w ∧ ∃ result, out = .ok result ∧ result.mutated = w.progress.mutated ∧
        result.inspection = reported w.progress.pendingDurability e := by
    intro inspection error hrun hinspection
    rw [result, read_bind] at hrun
    obtain ⟨rfl, rfl⟩ := pure_eq_iff.mp hrun
    exact ⟨rfl, _, rfl, rfl, hinspection⟩
  have hcontrolled : ∀ {reason status}, e.patchError? = some ⟨reason, status⟩ →
      (w' = w ∧ ∃ result, out = .ok result ∧ result.mutated = w.progress.mutated ∧
        result.inspection = reported w.progress.pendingDurability e) ∨
      ∃ again ∈ retry, Retries e w ∧ again w = (out, w') := by
    intro reason status hview
    unfold report at h
    rw [read_bind, hview] at h
    dsimp only at h
    split at h
    · rename_i hpending
      exact Or.inl (hresult h (by rw [reported, hview]; exact (if_pos hpending).symm))
    rename_i hpending
    have hreported : (⟨status, some reason, none, none⟩ : PatchInspection) =
        reported w.progress.pendingDurability e := by
      rw [reported, hview]
      exact (if_neg hpending).symm
    cases retry with
    | none => exact Or.inl (hresult h hreported)
    | some again =>
      dsimp only at h
      split at h
      · rename_i hretry
        obtain ⟨rfl, hmutated⟩ := hretry
        exact Or.inr ⟨again, rfl, ⟨⟨status, hview, hpending⟩, by simpa using hmutated⟩, h⟩
      · exact Or.inl (hresult h hreported)
  cases e with
  | patch error => exact hcontrolled rfl
  | commit reason replaced => exact hcontrolled rfl
  | os error => exact Or.inl (hresult h rfl)
  | value | recursion => exact he.elim

section Run

variable (halone : Alone env job.target) (hsha : Function.Injective env.sha256)

include halone hsha

theorem attempt_run {out : Except Exc ReconcileResult} (hw : w.progress.mutated = false)
    (hsource : w.progress.sourceSha256 = env.sha256 job.source)
    (h : attempt env reconciler job w = (out, w')) :
    (∃ new, Ending env reconciler job w w' new) ∧
      ∀ result, out = .ok result → result.mutated = w'.progress.mutated := by
  have hlooks : ∀ {t out}, Steps env Looks w t → (∃ e, out = (.error e : Except Exc _)) →
      (∃ new, Ending env reconciler job w t new) ∧
        ∀ result : ReconcileResult, out = .ok result → result.mutated = t.progress.mutated := by
    rintro t out hsteps ⟨e, rfl⟩
    obtain ⟨new, hending, -⟩ := Ending.of_looks reconciler halone hsteps hw hsource
    exact ⟨⟨new, hending⟩, fun _ h => by cases h⟩
  have hcheck : Does env Looks (reconciler.policy.checkDefinition env job.definition) :=
    PathPolicy.does_checkDefinition.mono fun _ => PathPolicy.Checks.looks
  rcases bind_eq_iff.mp h with ⟨e, hrun, rfl⟩ | ⟨_, t₁, hrun, hafterCheck⟩
  · exact hlooks (hcheck.of_eq hrun) ⟨e, rfl⟩
  have hchecked := hcheck.of_eq hrun
  rcases bind_eq_iff.mp hafterCheck with ⟨e, hparse, rfl⟩ | ⟨parsed, t₂, hparse, hafterParse⟩
  · obtain ⟨-, rfl⟩ := lift_eq_iff.mp hparse
    exact hlooks hchecked ⟨e, rfl⟩
  obtain ⟨hparsed, rfl⟩ := lift_eq_iff.mp hparse
  have henter : Does env Looks (GuardedFile.enter env job.definition.targetPath) :=
    does_guardedEnter trivial
  rcases bind_eq_iff.mp hafterParse with ⟨e, hrun', rfl⟩ | ⟨target, t₃, hrun', hafterEnter⟩
  · exact hlooks (hchecked.trans (henter.of_eq hrun')) ⟨e, rfl⟩
  have hentered : Steps env Looks w t₃ := hchecked.trans (henter.of_eq hrun')
  obtain ⟨hparts, htarget⟩ := guardedEnter_ok hrun'
  obtain ⟨new, hending, hnone⟩ := Ending.of_looks reconciler halone hentered hw
    hsource
  have hsame := hentered.progress id
  obtain ⟨out', t₄, hbody, hexit⟩ := ensure_eq_iff.mp hafterEnter
  obtain ⟨new', hending'⟩ := inspectAndReplace_run (halone.isTarget hparts) htarget hsha
    hparsed.symm (by rw [hsame, hw]) hending.source hbody
  have hexited : Steps env Looks t₄ w' := by
    rcases hexit with ⟨hexit, -⟩ | ⟨e, hexit, -⟩ <;>
      exact (does_guardedExit (L := Looks) trivial).of_eq hexit
  refine ⟨(hending.trans hnone hending').then_looks halone
    (halone.isTarget hparts).external hexited, fun result hresult => ?_⟩
  rcases hexit with ⟨-, rfl⟩ | ⟨e, -, rfl⟩
  · subst hresult
    rw [hexited.progress id]
    exact reports_inspectAndReplace _ _ _ hbody
  · cases hresult

/-- One round: an attempt, and the report of its exception or one more attempt. -/
theorem round_run {retry : Option (Io ReconcileResult)} {out : Except Exc ReconcileResult}
    (hw : w.progress.mutated = false) (hsource : w.progress.sourceSha256 = env.sha256 job.source)
    (h : rescue (attempt env reconciler job) (report retry) w = (out, w')) :
    (∃ new result, out = .ok result ∧ result.mutated = w'.progress.mutated ∧
        Ending env reconciler job w w' new) ∨
      (out = .error .value ∧ RaisesValue env reconciler job w) ∨
      (PatchEngine.parse reconciler.fromstring job.source job.definition.targetPath ≠
          .error .value ∧
        ∃ again ∈ retry, ∃ t new, Ending env reconciler job w t new ∧
          t.progress.mutated = false ∧ again t = (out, w')) := by
  rcases rescue_eq_iff.mp h with ⟨result, hattempt, rfl⟩ | ⟨e, t, hattempt, hreport⟩
  · obtain ⟨⟨new, hending⟩, hreports⟩ := attempt_run halone hsha hw hsource hattempt
    exact Or.inl ⟨new, result, rfl, hreports result rfl, hending⟩
  · obtain ⟨⟨new, hending⟩, -⟩ := attempt_run halone hsha hw hsource hattempt
    rcases attempt_raises hattempt with he | ⟨rfl, hvalue⟩
    swap
    · exact Or.inr (Or.inl ⟨(raise_eq_iff.mp hreport).1, hvalue⟩)
    rcases report_run he hreport with ⟨rfl, result, rfl, hmutated, -⟩ | ⟨again, hagain,
      ⟨⟨status, hview, -⟩, hmutated⟩, hrest⟩
    · exact Or.inl ⟨new, result, rfl, hmutated, hending⟩
    · refine Or.inr (Or.inr ⟨fun hparse => ?_, again, hagain, t, new, hending, hmutated, hrest⟩)
      rcases attempt_error_of_value hparse hattempt with hvalue | hdenial
      · exact he.ne_value hvalue
      · cases e with
        | patch error =>
          cases hview
          exact hdenial.2 rfl
        | _ => exact hdenial

/-- How the attempts of a run end: with a report, or with what the first `parse` raises. -/
theorem attempts_run {later : Nat} {out : Except Exc ReconcileResult}
    (hw : w.progress.mutated = false) (hsource : w.progress.sourceSha256 = env.sha256 job.source)
    (h : attempts env reconciler job later w = (out, w')) :
    (∃ new result, out = .ok result ∧ result.mutated = w'.progress.mutated ∧
        Ending env reconciler job w w' new) ∨
      (out = .error .value ∧ RaisesValue env reconciler job w) := by
  induction later generalizing w with
  | zero =>
    rcases round_run halone hsha hw hsource h with hend | hvalue | ⟨-, again, hagain, -⟩
    · exact Or.inl hend
    · exact Or.inr hvalue
    · cases hagain
  | succ later ih =>
    rcases round_run halone hsha hw hsource h with hend | hvalue | ⟨hparse, again, hagain, t, new,
      hending, hmutated, hrest⟩
    · exact Or.inl hend
    · exact Or.inr hvalue
    · cases hagain
      have hnone : replacements new = [] := by
        by_contra hne
        rw [hending.mutated.mpr hne] at hmutated
        cases hmutated
      rcases ih hmutated hending.source hrest with ⟨new', result, hout, hreport, hending'⟩ | hvalue
      · exact Or.inl ⟨new ++ new', result, hout, hreport, hending.trans hnone hending'⟩
      · exact absurd hvalue.2.2 hparse

end Run

variable (env job w) in
/-- The world in which the first attempt begins. -/
def begun (pendingDurability : Bool) : World := { w with
  progress := { sourceSha256 := env.sha256 job.source, pendingDurability := pendingDurability } }

/-- What `run` is to have done when it returns `result`. -/
structure HonestReport (env : Env) (reconciler : Reconciler) (job : Job) (w w' : World)
    (result : ReconcileResult) (new : List Event) : Prop where
  log : w'.log = w.log ++ new
  mutated : result.mutated = true ↔ replacements new ≠ []
  once : (replacements new).length ≤ 1
  installed : ∀ r ∈ replacements new, r.target = job.target ∧
    (r.disturbed = false ∨ env.Calm → ∃ node, Faithful env reconciler job r node)
  untouched : .changed job.target ∉ new
  kept : env.Calm → replacements new = [] → w'.fs.lookup job.target = w.fs.lookup job.target
  cleaned : ∀ p, Temp env job.target p → .changed p ∈ new →
    w'.fs.lookup p = none ∨ .unlinkFailed p ∈ new
  idle : (∃ p, .changed p ∈ new) ∨ replacements new ≠ [] → HasOutput env reconciler job w

theorem Ending.report {new : List Event} {result : ReconcileResult} {pendingDurability : Bool}
    (h : Ending env reconciler job (begun env job w pendingDurability) w' new)
    (hresult : result.mutated = w'.progress.mutated) :
    HonestReport env reconciler job w w' result new where
  log := h.segment.log
  mutated := by rw [hresult, h.mutated]
  once := h.once
  installed := h.faithful
  untouched := h.segment.untouched
  kept henv := h.segment.kept henv.spares
  cleaned p hp hchanged := by
    rcases h.segment.temp p hp with ⟨hnot, -⟩ | hend
    · exact absurd hchanged hnot
    · exact hend
  idle := h.idle

theorem attempts_value (later : Nat) (h : RaisesValue env reconciler job w) :
    ∃ w', attempts env reconciler job later w = (.error .value, w') := by
  obtain ⟨t, hattempt⟩ := attempt_value h
  refine ⟨t, ?_⟩
  cases later <;> exact rescue_eq_iff.mpr (Or.inr ⟨_, t, hattempt, rfl⟩)

theorem run_value (h : job.definition.enabled = true) {pendingDurability : Bool}
    (hvalue : RaisesValue env reconciler job (begun env job w pendingDurability)) :
    ∃ w', run env reconciler job pendingDurability w = (.error .value, w') := by
  obtain ⟨t, ht⟩ := attempts_value 2 hvalue
  refine ⟨t, ?_⟩
  have hrun : run env reconciler job pendingDurability w =
      (if !job.definition.enabled then result { status := .disabled } (some .disabledPatch)
        else attempts env reconciler job 2) (begun env job w pendingDurability) := rfl
  rw [hrun, h, if_neg (by simp), ht]

/-- How a run ends. -/
theorem run_ending (halone : Alone env job.target) (hsha : Function.Injective env.sha256)
    {pendingDurability : Bool} {out : Except Exc ReconcileResult}
    (h : run env reconciler job pendingDurability w = (out, w')) :
    (∃ new result, out = .ok result ∧ result.mutated = w'.progress.mutated ∧
        Ending env reconciler job (begun env job w pendingDurability) w' new) ∨
      (out = .error .value ∧ job.definition.enabled = true ∧
        RaisesValue env reconciler job (begun env job w pendingDurability)) := by
  have hrun : run env reconciler job pendingDurability w =
      (if !job.definition.enabled then result { status := .disabled } (some .disabledPatch)
        else attempts env reconciler job 2) (begun env job w pendingDurability) := rfl
  cases henabled : job.definition.enabled with
  | false =>
    obtain ⟨new, hending, -⟩ := Ending.of_looks (w := begun env job w pendingDurability)
      reconciler halone .refl rfl rfl
    rw [henabled] at hrun
    cases hrun.symm.trans h
    exact Or.inl ⟨new, _, rfl, rfl, hending⟩
  | true =>
    rw [h, henabled, if_neg (by simp)] at hrun
    exact (attempts_run halone hsha rfl rfl hrun.symm).imp_right fun hvalue =>
      ⟨hvalue.1, rfl, hvalue.2⟩

def steadyTime : Timestamp := ⟨2026, 1, 2, 3, 4, 5, 6, by decide⟩

def steadyHex : Hex32 := ⟨List.replicate 32 'a', List.length_replicate,
  fun c hc => by rw [List.eq_of_mem_replicate hc]; decide⟩

/-- Nobody else acts, and no call fails. -/
def steadyEnv : Env where
  fault _ := none
  interfere _ := none
  stamp n := ⟨1000 + n, 0, 0, n⟩
  orphan _ := ⟨.other, [], 0, 0, 0, 0, 0, 0, 1, none⟩
  now _ := steadyTime
  uuid _ := steadyHex
  checkCurrent _ := none
  haAllowed _ _ := true
  sha256 data := data.map fun b => Char.ofNat b.toNat
  dumps _ := []
  loads _ := none

def steadyDirectory (ino : Nat) : Node := ⟨.directory, [], ino, 0, 0, 0o755, 0, 0, 2, none⟩

def steadyFile (data : Bytes) : Node := ⟨.file, data, 3, 5, 5, 0o644, 0, 0, 1, none⟩

/-- A root with one target, `f/g`. -/
def steadyWorld (data : Bytes) : World where
  fs := AList.insert [] (steadyDirectory 1) <| AList.insert [['f']] (steadyDirectory 2) <|
    AList.insert [['f'], ['g']] (steadyFile data) ∅
  progress := ⟨[], false, none, false⟩

def steadyDefinition : PatchDefinition where
  patchId := ['p']
  name := ['n']
  targetPath := "f/g".toList
  watchRoot := ['f']
  watchPattern := ['g']
  sourceType := "local".toList
  source := ['s']
  debounceSeconds := 1

/-- The target is granted, and `patch-ng` reads the hunks `hunks`. -/
def steadyReconciler (hunks : List (List PatchEngine.NgHunk)) : Reconciler where
  policy := ⟨[], ["f/g".toList], [[]], fun _ => false⟩
  fromstring := fun _ => some hunks

def steadyJob (source : Bytes) (action : Action) : Job := ⟨steadyDefinition, source, action, 5⟩

theorem steady_alone (source : Bytes) (action : Action) :
    Alone steadyEnv (steadyJob source action).target where
  spares := fun _ _ => Env.Calm.spares fun _ => rfl
  fresh := by
    rintro ⟨n, h⟩
    have hne : (steadyDefinition.targetPath.splitOn '/').dropLast ++ [tempName steadyHex] ≠
        steadyDefinition.targetPath.splitOn '/' := by decide +kernel
    exact hne h.symm

theorem steady_injective : Function.Injective steadyEnv.sha256 := by
  refine List.map_injective_iff.mpr fun a b h => UInt8.toNat_inj.mp ?_
  have hvalid : ∀ c : UInt8, c.toNat.isValidChar := fun c => Or.inl (by have := c.toNat_lt; omega)
  rw [Char.ofNat, Char.ofNat, dif_pos (hvalid a), dif_pos (hvalid b)] at h
  exact congrArg Char.toNat h

def exchangeHunks : List (List PatchEngine.NgHunk) :=
  [[⟨false, ["-x\n", "+y\n"].map fun line => Utf8.encode line.toList⟩]]

/-- The patch that exchanges `x` for `y`, with a count of the digits `digits`. -/
def exchangeJob (digits : Text) : Job :=
  steadyJob (Utf8.encode (PatchEngine.countText digits)) .apply

end Hapatchy
