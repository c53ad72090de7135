import Hapatchy.PatchEngine.Output
import Hapatchy.Reconciler.Stored
import Hapatchy.SafeIo.Missing

/-!
# Runs where nothing fails

With no failing call and nobody else at work, a run that has replaced its
target reads it again, and it prunes the backups.
-/

open Effects Prog

namespace Hapatchy

variable {env : Env} {reconciler : Reconciler} {job : Job} {w w' : World} {target : GuardedFile}
  {snapshot : Snapshot} {output : Bytes}

section Commit

variable {P : Fs → Prop} {beforeReplace : Option (Io Unit)} {beforeCommit : Io Unit}
  (hooks : Hooks env target.path P beforeReplace beforeCommit)

include hooks

/-- The target is the file that was filled. -/
theorem commit_filled {u : Unit} (hT : IsTarget env target.path) (hspares : env.Spares target.path)
    (h : commit env target snapshot output beforeReplace beforeCommit w = (.ok u, w')) :
    ∃ node, w'.fs.lookup target.path = some node ∧ Filled snapshot output node := by
  have hparent : target.parent = target.path.dropLast := by
    rw [GuardedFile.path, List.dropLast_concat]
  rw [commit, read_bind] at h
  have htemp : Temp env target.path (target.parent ++ [tempName (env.uuid w.step)]) :=
    ⟨w.step, by rw [hparent]⟩
  obtain ⟨_, t₁, -, h⟩ := bind_ok_iff.mp h
  obtain ⟨temp, t₂, hcreate, h⟩ := bind_ok_iff.mp h
  obtain ⟨_, t₃, hblock, hsync⟩ := bind_ok_iff.mp h
  rcases rescueOs_ok hcreate with hcreate | ⟨_, _, -, hraise⟩
  swap
  · cases (raise_eq_iff.mp hraise).1
  obtain ⟨rfl, -, rfl⟩ := createExclusive_ok hcreate
  rcases rescueOs_ok (onError_ok hblock) with hbody | ⟨_, _, -, hraise⟩
  swap
  · cases (raise_eq_iff.mp hraise).1
  obtain ⟨_, v, hprepare, hreplace⟩ := bind_ok_iff.mp hbody
  obtain ⟨⟨node, hnode, hfilled⟩, -⟩ :=
    prepare_ok hooks hT htemp hprepare World.edit_lookup rfl rfl rfl rfl
  obtain ⟨installed, hinstalled, rfl⟩ := replace_ok hreplace
  rw [arrive_lookup (htemp.spares hT), hnode] at hinstalled
  obtain rfl := Option.some_inj.mp hinstalled
  have hne : target.path ≠ target.parent := by simp [GuardedFile.path]
  refine ⟨node, ?_, hfilled⟩
  rw [Steps.lookup ((does_commitErrorOnOs (does_fsync (L := OnlyAt target.parent) trivial
    rfl)).of_eq hsync) (frame_onlyAt hne) hspares]
  exact Fs.lookup_put

/-- Nothing keeps the directory from being synced. -/
theorem commit_unreplaced (hquiet : env.Quiet) {e : Exc}
    (h : commit env target snapshot output beforeReplace beforeCommit w = (.error e, w')) :
    e.Unreplaced := by
  rw [commit, read_bind] at h
  rcases bind_eq_iff.mp h with ⟨e', hverify, heq⟩ | ⟨_, t₁, -, h⟩
  · cases heq
    exact raises_commitErrorOnOs (P := Exc.Unreplaced)
      (raises_verifySnapshot.mono fun _ he => Or.inl he.unreplaced) rfl _ _ _ hverify
  rcases bind_eq_iff.mp h with ⟨e', hcreate, heq⟩ | ⟨temp, t₂, hcreate, h⟩
  · cases heq
    refine raises_rescueOs (P := Exc.Unreplaced) (raises_createExclusive fun _ => Or.inr trivial)
      (fun _ => raises_raise ?_) _ _ _ hcreate
    rfl
  have hpath : temp.path = target.parent ++ [tempName (env.uuid w.step)] := by
    rcases rescueOs_ok hcreate with hok | ⟨_, _, -, hraise⟩
    · obtain ⟨rfl, -, -⟩ := createExclusive_ok hok
      rfl
    · cases (raise_eq_iff.mp hraise).1
  rw [← hpath] at h
  rcases bind_eq_iff.mp h with ⟨e', hblock, heq⟩ | ⟨_, t₃, -, hsync⟩
  · cases heq
    obtain ⟨-, -, -, hun, -⟩ := onError_error hooks hblock
    exact hun
  · have hgoes : Goes (commitErrorOnOs .durabilityUnconfirmed true (fsync env target.parent))
        t₃.fs () _ := goes_rescue (goes_fsync hquiet)
    obtain ⟨⟨⟩, -⟩ := hgoes.run hsync

end Commit

/-! ## After the replacement -/

theorem length_outputForAction {definition : PatchDefinition} {parsed : PatchEngine.ParsedPatch}
    {raw : Bytes} {action : Action}
    (h : outputForAction definition (PatchEngine.inspect parsed raw) action = some output) :
    output.length ≤ maxTargetBytes := by
  have hlength (reverse : Bool) (houtput : (PatchEngine.inspect parsed raw).output reverse =
      some output) : output.length ≤ maxTargetBytes := by
    obtain ⟨g, segs, houtput⟩ := PatchEngine.output_eq_some_iff.mp houtput
    exact houtput.size
  cases action with
  | apply => exact hlength false h
  | revert => exact hlength true h
  | reconcile =>
    simp only [outputForAction] at h
    split at h
    · exact hlength false h
    · cases h
  | refreshSource => cases h

variable (env job) in
/-- The backups of the patch, which are those in `fs`, were pruned. -/
def Prunes (fs : Fs) (w' : World) : Prop :=
  ∃ v v' out, (job.manager.prune env) v = (out, v') ∧ Rooted v.fs job.manager.parts ∧
    ∀ p, Internal p → v.fs.lookup p = fs.lookup p ∧ w'.fs.lookup p = v'.fs.lookup p

/-- What a run writes leaves the directories of the target. -/
theorem Steps.sameDirectory {p : Path} (h : Steps env (Writes env job) w w')
    (hT : IsTarget env job.target) (hp : p <+: job.target.dropLast) :
    SameDirectory w.fs w'.fs p := by
  have hlength := hp.length_le
  have hpos := List.length_pos_of_ne_nil hT.ne_nil
  rw [List.length_dropLast] at hlength
  have hne : p ≠ job.target := by
    rintro rfl
    omega
  have htemp : ¬ Temp env job.target p := by
    rintro ⟨n, rfl⟩
    rw [List.length_append, List.length_dropLast, List.length_singleton] at hlength
    omega
  have hbackups : ¬ AmongBackups job p := fun hbackups =>
    hT.external (hbackups.internal.trans (hp.trans (List.dropLast_prefix _)))
  have hsame := h.writes_lookup (hT.alone p hne) hne htemp hbackups
  intro node hnode
  rw [hnode, Option.map_some, Option.map_eq_some_iff] at hsame
  obtain ⟨node', hnode', heq⟩ := hsame
  exact ⟨node', hnode', by simpa [Node.unsynced] using congrArg Node.kind heq,
    by simpa [Node.unsynced] using congrArg Node.ino heq⟩

section Block

variable {parsed : PatchEngine.ParsedPatch} (hT : IsTarget env job.target)
  (htarget : target.path = job.target) (hquiet : env.Quiet)

include hT htarget hquiet

omit hT htarget in
/-- After a commit nothing fails up to the end of pruning. -/
theorem afterCommit_prunes {out : Except Exc ReconcileResult} {node : Node}
    (hcurrent : target.directory.Current w.fs) (hnode : w.fs.lookup target.path = some node)
    (hfilled : Filled snapshot output node) (hsize : output.length ≤ maxTargetBytes)
    (hrooted : Rooted w.fs job.manager.parts)
    (h : afterCommit env job.manager parsed target w = (out, w')) : Prunes env job w.fs w' := by
  obtain ⟨_, t, hrecord, h⟩ := (bind_eq_iff.mp h).resolve_left fun ⟨_, hrecord, _⟩ => by
    cases (change_eq_iff.mp hrecord).1
  obtain ⟨-, rfl⟩ := change_eq_iff.mp hrecord
  have hgoes : Goes (target.read env : Io Snapshot) w.fs _ w.fs := goes_guardedRead hquiet hcurrent
    hnode hfilled.kind hfilled.nlink (by rw [hfilled.data]; exact hsize)
  rcases bind_eq_iff.mp h with ⟨e, hread, -⟩ | ⟨current, t₁, hread, h⟩
  · cases (hgoes.run_of hread rfl).1
  obtain ⟨-, hfs⟩ := hgoes.run_of hread rfl
  obtain ⟨_, t₂, hrecord, h⟩ := (bind_eq_iff.mp h).resolve_left fun ⟨_, hrecord, _⟩ => by
    cases (change_eq_iff.mp hrecord).1
  obtain ⟨-, rfl⟩ := change_eq_iff.mp hrecord
  obtain ⟨v, out', hprune, hv⟩ : ∃ v out', (job.manager.prune env) v = (out', w') ∧ v.fs = w.fs := by
    rcases bind_eq_iff.mp h with ⟨e, hprune, -⟩ | ⟨_, t₃, hprune, hresult⟩
    · exact ⟨_, _, hprune, hfs⟩
    · rw [result, read_bind] at hresult
      obtain ⟨-, rfl⟩ := pure_eq_iff.mp hresult
      exact ⟨_, _, hprune, hfs⟩
  exact ⟨v, w', out', hprune, hv ▸ hrooted, fun p _ => ⟨congrArg (AList.lookup p) hv, rfl⟩⟩

omit hT hquiet in
theorem does_commitOutput_writes : Does env (Writes env job)
    (commitOutput env reconciler job job.manager target snapshot output) :=
  runs_commitOutput (fun h => h.mono fun _ => Still.writes) (fun _ _ _ _ => does_commit_writes) htarget

/-- A commit that fails has replaced nothing. -/
theorem commitOutput_unreplaced {e : Exc} (hw : w.progress.mutated = false)
    (hsource : w.progress.sourceSha256 = env.sha256 job.source)
    (h : commitOutput env reconciler job job.manager target snapshot output w = (.error e, w')) :
    w'.progress.mutated = false := by
  have hhooks := replace_hooks reconciler snapshot output hT
  rw [← htarget] at hhooks
  rw [commitOutput, read_bind, hsource] at h
  rcases rescue_eq_iff.mp h with ⟨_, -, ⟨⟩⟩ | ⟨e', t, hcommit, hfailed⟩
  have hsame := Steps.progress (hhooks.does_commit.of_eq hcommit) fun h => h rfl
  obtain ⟨-, -, hun, -⟩ := commitFailed_run (by rw [hsame, hw]) hfailed
  exact hun (commit_unreplaced hhooks hquiet hcommit)

theorem commitOutput_filled {u : Unit} (hw : w.progress.mutated = false)
    (hsource : w.progress.sourceSha256 = env.sha256 job.source)
    (h : commitOutput env reconciler job job.manager target snapshot output w = (.ok u, w')) :
    ∃ node, w'.fs.lookup target.path = some node ∧ Filled snapshot output node := by
  have hhooks := replace_hooks reconciler snapshot output hT
  rw [← htarget] at hhooks
  rw [commitOutput, read_bind, hsource] at h
  rcases rescue_eq_iff.mp h with ⟨_, hcommit, -⟩ | ⟨e, t, hcommit, hfailed⟩
  · exact commit_filled hhooks (htarget ▸ hT) hquiet.calm.spares hcommit
  · have hsame := Steps.progress (hhooks.does_commit.of_eq hcommit) fun h => h rfl
    obtain ⟨⟨e', ⟨⟩⟩, -⟩ := commitFailed_run (by rw [hsame, hw]) hfailed

theorem replaceTarget_prunes {out : Except Exc ReconcileResult} {new : List Event} {r : Replacement}
    (hcurrent : target.directory.Current w.fs)
    (hparts : target.directory.parts = job.target.dropLast)
    (hsize : output.length ≤ maxTargetBytes) (hw : w.progress.mutated = false)
    (hsource : w.progress.sourceSha256 = env.sha256 job.source)
    (hbefore : Rooted r.before job.manager.parts)
    (h : replaceTarget env reconciler job parsed target snapshot output w = (out, w'))
    (hlog : w'.log = w.log ++ new) (hr : r ∈ replacements new) : Prunes env job r.before w' := by
  rcases bind_eq_iff.mp h with ⟨e, hmake, -⟩ | ⟨manager, _, hmake, h⟩
  · obtain ⟨-, rfl⟩ := lift_eq_iff.mp hmake
    obtain rfl : new = [] := List.append_cancel_left (hlog.symm.trans (List.append_nil _).symm)
    cases hr
  obtain ⟨hmanager, rfl⟩ := ofPatch_ok hmake
  obtain rfl := make_ok hmanager
  rcases bind_eq_iff.mp h with ⟨e, hcommit, -⟩ | ⟨_, t, hcommit, hafter⟩
  · have hmutated := commitOutput_unreplaced hT htarget hquiet hw hsource hcommit
    obtain ⟨new', hsegment, -, ⟨hnone, -⟩ | ⟨_, -, -, -, ⟨⟨⟩⟩ | ⟨htrue, -⟩⟩⟩ :=
      commitOutput_run hT htarget hw hsource hcommit
    · obtain rfl := List.append_cancel_left (hlog.symm.trans hsegment.log)
      rw [hnone] at hr
      cases hr
    · rw [hmutated] at htrue
      cases htrue
  obtain ⟨new', hsegment, -, ⟨-, -, _, ⟨⟩⟩ | ⟨r', hone, -, hinternal, -⟩⟩ :=
    commitOutput_run hT htarget hw hsource hcommit
  obtain ⟨new'', hsegment', hnone⟩ := Steps.segment ((does_afterCommit hT).of_eq hafter) hT
  obtain rfl : r = r' := by
    obtain rfl := List.append_cancel_left (hlog.symm.trans (hsegment.trans hsegment').log)
    rwa [replacements_append, hone, hnone, List.append_nil, List.mem_singleton] at hr
  have hcurrent' : target.directory.Current t.fs := hcurrent.same fun p hp =>
    Steps.sameDirectory ((does_commitOutput_writes htarget).of_eq hcommit) hT (hparts ▸ hp)
  -- The root is open, and what is below is as it was before the replacement.
  have hrooted : Rooted t.fs job.manager.parts := by
    intro p hp
    by_cases hnil : p = []
    · subst hnil
      exact hcurrent'.isPrefix List.nil_prefix
    · rw [hinternal p (AmongBackups.internal (Or.inl ⟨hnil, hp⟩))]
      exact hbefore p hp
  obtain ⟨node, hnode, hfilled⟩ := commitOutput_filled hT htarget hquiet hw hsource hcommit
  obtain ⟨v, v', out', hprune, hv, hsame⟩ :=
    afterCommit_prunes hquiet hcurrent' hnode hfilled hsize hrooted hafter
  exact ⟨v, v', out', hprune, hv, fun p hp =>
    ⟨(hsame p hp).1.trans (hinternal p hp), (hsame p hp).2⟩⟩

theorem inspectAndReplace_prunes {out : Except Exc ReconcileResult} {new : List Event}
    {r : Replacement} (hcurrent : target.directory.Current w.fs)
    (hparts : target.directory.parts = job.target.dropLast) (hw : w.progress.mutated = false)
    (hsource : w.progress.sourceSha256 = env.sha256 job.source)
    (hbefore : Rooted r.before job.manager.parts)
    (h : inspectAndReplace env reconciler job parsed target w = (out, w'))
    (hlog : w'.log = w.log ++ new) (hr : r ∈ replacements new) : Prunes env job r.before w' := by
  have hnothing {t : World} (hsteps : Steps env Unreplacing w t) (ht : t = w') : False := by
    subst ht
    obtain ⟨new', hlog', hnone⟩ := hsteps.unreplacing
    obtain rfl := List.append_cancel_left (hlog.symm.trans hlog')
    rw [hnone] at hr
    cases hr
  rcases bind_eq_iff.mp h with ⟨e, hread, -⟩ | ⟨snapshot, t, hread, h⟩
  · exact (hnothing (does_readTarget_unreplacing.of_eq hread) rfl).elim
  have hreads := does_readTarget_unreplacing.of_eq hread
  have hresult {inspection : PatchInspection} {error : Option Reason}
      (hrun : result inspection error t = (out, w')) : False := by
    rw [result, read_bind] at hrun
    exact hnothing hreads (pure_eq_iff.mp hrun).2.symm
  obtain ⟨hmutated, hsame⟩ := keeps_readTarget.same hread
  split at h
  · exact (hresult h).elim
  cases houtput : outputForAction job.definition (PatchEngine.inspect parsed snapshot.data)
      job.action with
  | none =>
    rw [houtput] at h
    exact (hresult h).elim
  | some output =>
    rw [houtput] at h
    have hstill : Does env (Writes env job) (readTarget env target) := by
      refine runs_bind (does_guardedRead trivial) fun _ => runs_bind (does_record trivial) fun _ =>
        runs_bind runs_read fun w => runs_ite (fun _ => ?_) fun _ => runs_pure
      exact runs_bind (does_confirmDurability trivial trivial trivial) fun _ =>
        runs_bind (does_record trivial) fun _ => runs_pure
    have hcurrent' : target.directory.Current t.fs := hcurrent.same fun p hp =>
      Steps.sameDirectory (hstill.of_eq hread) hT (hparts ▸ hp)
    obtain ⟨a, ha, hnone⟩ := Steps.unreplacing hreads
    have hwrites : Does env (fun _ => True)
        (replaceTarget env reconciler job parsed target snapshot output) :=
      runs_bind_of does_ofPatch fun manager _ _ hmake => by
        obtain rfl := make_ok (ofPatch_ok hmake).1
        exact runs_bind ((does_commitOutput_writes htarget).mono fun _ _ => trivial) fun _ =>
          (does_afterCommit hT).mono fun _ _ => trivial
    obtain ⟨b, hb, -⟩ := Steps.log (hwrites.of_eq h)
    have hnew : new = a ++ b := by
      refine List.append_cancel_left (hlog.symm.trans ?_)
      rw [hb, ha, List.append_assoc]
    rw [hnew, replacements_append, hnone, List.nil_append] at hr
    exact replaceTarget_prunes hT htarget hquiet hcurrent' hparts (length_outputForAction houtput)
      (hmutated.trans hw) (hsame.trans hsource) hbefore h hb hr

end Block

/-- The attempt that replaces also prunes. -/
theorem attempt_prunes (hsha : Function.Injective env.sha256) (hT : IsTarget env job.target)
    (hquiet : env.Quiet)
    {out : Except Exc ReconcileResult} {new : List Event} {r : Replacement}
    (hw : w.progress.mutated = false) (hsource : w.progress.sourceSha256 = env.sha256 job.source)
    (hbefore : Rooted r.before job.manager.parts)
    (h : attempt env reconciler job w = (out, w')) (hlog : w'.log = w.log ++ new)
    (hr : r ∈ replacements new) : Prunes env job r.before w' := by
  rcases attempt_split h with ⟨_, -, -, hlooks⟩ | ⟨parsed, target, t, out', u, henters, hentered,
    htarget, hblock, hexited, -⟩
  · obtain ⟨-, new', hlog', hnone⟩ := hlooks.looked
    obtain rfl := List.append_cancel_left (hlog.symm.trans hlog')
    rw [hnone] at hr
    cases hr
  obtain ⟨v, hcheck, henter⟩ := henters.entered
  obtain ⟨hcurrent, hparts⟩ := guardedEnter_current hquiet.calm henter
  have hfs : t.fs = v.fs := (Steps.undisturbed
    ((does_guardedEnter (L := Looks) trivial).of_eq henter) (fun _ => id) (Or.inr hquiet.calm)).2
  obtain ⟨hprogress, a, ha, hnone⟩ := hentered.looked
  obtain ⟨c, hc, hnone'⟩ := (hexited.mono fun _ => OnlyCalls.looks).looked.2
  have hw' : t.progress.mutated = false := by rw [hprogress, hw]
  have hsource' : t.progress.sourceSha256 = env.sha256 job.source := by rw [hprogress, hsource]
  obtain ⟨b, hending⟩ := inspectAndReplace_run hT htarget hsha henters.parsed hw' hsource' hblock
  have hb := hending.segment.log
  have hnew : new = a ++ b ++ c := by
    refine List.append_cancel_left (hlog.symm.trans ?_)
    rw [hc, hb, ha]
    simp only [List.append_assoc]
  rw [hnew, replacements_append, replacements_append, hnone, hnone', List.nil_append,
    List.append_nil] at hr
  obtain ⟨s, s', out'', hprune, hrooted, hsame⟩ := inspectAndReplace_prunes hT htarget hquiet
    (hfs ▸ hcurrent) hparts hw' hsource' hbefore hblock hb hr
  exact ⟨s, s', out'', hprune, hrooted, fun p hp =>
    ⟨(hsame p hp).1, (congrArg (AList.lookup p) (hexited.calls_fs hquiet.calm)).trans (hsame p hp).2⟩⟩

end Hapatchy
