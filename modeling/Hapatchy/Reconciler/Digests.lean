import Hapatchy.Reconciler.Inspected

/-!
# The digests of a result

Whatever fails and whoever acts: a result shows the digest of its source, and
no digest of a target but that of bytes that were read.
-/

open Effects Prog

namespace Hapatchy

variable {env : Env} {reconciler : Reconciler} {job : Job} {w w' : World}

/-- The digests of a result, or of a progress record, are those of some bytes. -/
structure Digested (env : Env) (source : Text) (target : Option Text) : Prop where
  source : source = [] ∨ ∃ data, source = env.sha256 data
  target : ∀ t, target = some t → ∃ data, t = env.sha256 data

theorem Digested.read {source : Text} {target : Option Text} (h : Digested env source target)
    (data : Bytes) : Digested env source (some (env.sha256 data)) :=
  ⟨h.source, fun _ ht => ⟨data, (Option.some_inj.mp ht).symm⟩⟩

theorem Digested.unread {source : Text} {target : Option Text} (h : Digested env source target) :
    Digested env source none :=
  ⟨h.source, fun _ ht => by cases ht⟩

variable (env) in
/-- The progress record stays one of digests. -/
def Digests (w w' : World) : Prop :=
  Digested env w.progress.sourceSha256 w.progress.targetSha256 →
    Digested env w'.progress.sourceSha256 w'.progress.targetSha256

variable (env) in
/-- From a record of digests, a result has digests. -/
def Tells (m : Io ReconcileResult) : Prop :=
  ∀ w result w', Digested env w.progress.sourceSha256 w.progress.targetSha256 →
    m w = (.ok result, w') → Digested env result.sourceSha256 result.targetSha256

/-! ## The record -/

theorem digests_of_does {α : Type} {m : Io α} (h : Does env (· ≠ .record) m) :
    Runs (Digests env) m := by
  intro w
  apply Relation.ReflTransGen.single
  intro hdigested
  rwa [Steps.progress (h w) fun h => h rfl]

theorem digests_record {f : Progress → Progress}
    (h : ∀ progress, Digested env progress.sourceSha256 progress.targetSha256 →
      Digested env (f progress).sourceSha256 (f progress).targetSha256) :
    Runs (Digests env) (record f) := runs_change fun w => h w.progress

theorem digests_result {inspection : PatchInspection} {error : Option Reason} :
    Runs (Digests env) (result inspection error) := runs_bind runs_read fun _ => runs_pure

/-- A read of the target, and the record of its digest. -/
theorem digests_readThen {α : Type} {target : GuardedFile} {next : Snapshot → Io α}
    (hnext : ∀ snapshot, Runs (Digests env) (next snapshot)) :
    Runs (Digests env) (do
      let snapshot ← target.read env
      record fun progress => { progress with targetSha256 := some snapshot.sha256 }
      next snapshot) := by
  apply runs_bind_of (digests_of_does (does_guardedRead Label.noConfusion))
  intro snapshot t t' hread
  apply runs_bind
  · apply digests_record
    intro progress h
    simp only [read_sha hread]
    exact h.read snapshot.data
  · intro _
    exact hnext snapshot

theorem digests_observe {target : GuardedFile} :
    Runs (Digests env) (observeReplacedTarget env target) := by
  unfold observeReplacedTarget
  apply runs_rescue
  · apply runs_bind_of (digests_of_does (does_guardedRead Label.noConfusion))
    intro snapshot t t' hread
    apply digests_record
    intro progress h
    simp only [read_sha hread]
    exact h.read snapshot.data
  · intro e
    split
    · exact digests_record fun _ h => h.unread
    · exact runs_raise

theorem digests_commitOutput {manager : BackupManager} {target : GuardedFile} {snapshot : Snapshot}
    {output : Bytes} : Runs (Digests env)
      (commitOutput env reconciler job manager target snapshot output) := by
  apply runs_bind runs_read
  intro w
  apply runs_rescue
  · apply digests_of_does (does_commit ?_ does_checkDefinition_unrecorded)
    intro before hbefore
    split at hbefore <;> cases hbefore
    exact runs_bind (does_create Label.noConfusion (fun _ _ _ => ⟨Label.noConfusion, Label.noConfusion⟩)
      fun _ _ => ⟨Label.noConfusion, Label.noConfusion⟩) fun _ => runs_pure
  · intro e
    cases e with
    | commit reason replaced =>
      unfold commitFailed
      apply runs_bind
      · exact digests_record fun _ h => h
      · exact fun _ => runs_ite (fun _ => runs_bind digests_observe fun _ => runs_raise) fun _ =>
          runs_raise
    | _ => exact runs_raise

theorem digests_prune {manager : BackupManager} : Runs (Digests env) (manager.prune env) :=
  digests_of_does (does_prune Label.noConfusion Label.noConfusion fun _ _ =>
    ⟨Label.noConfusion, Label.noConfusion⟩)

theorem digests_readTarget {target : GuardedFile} : Runs (Digests env) (readTarget env target) := by
  apply digests_readThen
  intro snapshot
  apply runs_bind runs_read
  intro w
  apply runs_ite
  · intro _
    apply runs_bind
    · exact digests_of_does (does_confirmDurability Label.noConfusion Label.noConfusion Label.noConfusion)
    · exact fun _ => runs_bind (digests_record fun _ h => h) fun _ => runs_pure
  · exact fun _ => runs_pure

theorem digests_afterCommit {manager : BackupManager} {parsed : PatchEngine.ParsedPatch}
    {target : GuardedFile} : Runs (Digests env) (afterCommit env manager parsed target) := by
  unfold afterCommit
  apply runs_bind
  · exact digests_record fun _ h => h
  · intro _
    apply digests_readThen
    exact fun snapshot => runs_bind digests_prune fun _ => digests_result

theorem digests_inspectAndReplace {parsed : PatchEngine.ParsedPatch} {target : GuardedFile} :
    Runs (Digests env) (inspectAndReplace env reconciler job parsed target) := by
  apply runs_bind digests_readTarget
  intro snapshot
  apply runs_ite
  · exact fun _ => digests_result
  · intro _
    split
    · exact digests_result
    · apply runs_bind runs_lift
      exact fun manager => runs_bind digests_commitOutput fun _ => digests_afterCommit

theorem digests_attempt : Runs (Digests env) (attempt env reconciler job) := by
  apply runs_bind (digests_of_does does_checkDefinition_unrecorded)
  intro _
  apply runs_bind runs_lift
  intro parsed
  apply runs_bind (digests_of_does (does_guardedEnter Label.noConfusion))
  intro target
  apply runs_ensure digests_inspectAndReplace
  exact fun _ => digests_of_does (does_guardedExit Label.noConfusion)

/-! ## The result -/

theorem tells_result {inspection : PatchInspection} {error : Option Reason} :
    Tells env (result inspection error) := by
  intro w told w' hw h
  rw [Hapatchy.result, read_bind] at h
  obtain ⟨⟨⟩, rfl⟩ := pure_eq_iff.mp h
  exact hw

theorem tells_bind {α : Type} {m : Io α} {f : α → Io ReconcileResult} (hm : Runs (Digests env) m)
    (hf : ∀ a, Tells env (f a)) : Tells env (m >>= f) := by
  intro w told w' hw h
  obtain ⟨a, t, hfirst, h⟩ := bind_ok_iff.mp h
  exact hf a t told w' (hm.invariant (fun _ _ hstep => hstep) hfirst hw) h

theorem tells_ite {c : Prop} [Decidable c] {m m' : Io ReconcileResult} (h : Tells env m)
    (h' : Tells env m') : Tells env (if c then m else m') := by
  split
  · exact h
  · exact h'

theorem tells_rescue {m : Io ReconcileResult} {handler : Exc → Io ReconcileResult}
    (hm : Tells env m) (hdigests : Runs (Digests env) m) (hh : ∀ e, Tells env (handler e)) :
    Tells env (rescue m handler) := by
  intro w told w' hw h
  rcases rescue_eq_iff.mp h with ⟨a, h, heq⟩ | ⟨e, t, hraised, h⟩
  · cases heq
    exact hm w told w' hw h
  · exact hh e t told w' (hdigests.invariant (fun _ _ hstep => hstep) hraised hw) h

theorem tells_afterCommit {manager : BackupManager} {parsed : PatchEngine.ParsedPatch}
    {target : GuardedFile} : Tells env (afterCommit env manager parsed target) := by
  unfold afterCommit
  apply tells_bind
  · exact digests_record fun _ h => h
  intro _ w told w' hw h
  obtain ⟨current, t, hread, h⟩ := bind_ok_iff.mp h
  obtain ⟨_, u, hrecord, h⟩ := bind_ok_iff.mp h
  obtain ⟨-, rfl⟩ := change_eq_iff.mp hrecord
  have ht := (digests_of_does (does_guardedRead Label.noConfusion)).invariant
    (fun _ _ hstep => hstep) hread hw
  apply tells_bind digests_prune (fun _ => tells_result) _ told w' ?_ h
  simp only [read_sha hread]
  exact ht.read current.data

theorem tells_inspectAndReplace {parsed : PatchEngine.ParsedPatch} {target : GuardedFile} :
    Tells env (inspectAndReplace env reconciler job parsed target) := by
  apply tells_bind digests_readTarget
  intro snapshot
  apply tells_ite tells_result
  split
  · exact tells_result
  · apply tells_bind runs_lift
    intro manager
    apply tells_bind digests_commitOutput
    intro _
    exact tells_afterCommit

theorem tells_attempt : Tells env (attempt env reconciler job) := by
  apply tells_bind (digests_of_does does_checkDefinition_unrecorded)
  intro _
  apply tells_bind runs_lift
  intro parsed
  apply tells_bind (digests_of_does (does_guardedEnter Label.noConfusion))
  intro target w told w' hw h
  obtain ⟨out, t, hbody, ⟨-, heq⟩ | ⟨e, -, heq⟩⟩ := ensure_eq_iff.mp h
  · subst heq
    exact tells_inspectAndReplace w told t hw hbody
  · cases heq

theorem tells_report {retry : Option (Io ReconcileResult)} (hretry : ∀ again, retry = some again →
    Tells env again) (e : Exc) : Tells env (report retry e) := by
  unfold report
  apply tells_bind runs_read
  intro w
  split
  · apply tells_ite tells_result
    split
    · exact tells_ite (hretry _ rfl) tells_result
    · exact tells_result
  · split
    · exact tells_result
    · intro w told w' _ h
      cases (raise_eq_iff.mp h).1

theorem tells_attempts (later : Nat) : Tells env (attempts env reconciler job later) := by
  induction later with
  | zero =>
    apply tells_rescue tells_attempt digests_attempt
    exact tells_report fun _ h => by cases h
  | succ later ih =>
    apply tells_rescue tells_attempt digests_attempt
    apply tells_report
    intro again h
    cases h
    exact ih

/-- However a run ends, its result shows digests of bytes. -/
theorem run_digested {pendingDurability : Bool} {told : ReconcileResult}
    (h : run env reconciler job pendingDurability w = (.ok told, w')) :
    Digested env told.sourceSha256 told.targetSha256 := by
  obtain ⟨_, t, hrecord, h⟩ := bind_ok_iff.mp h
  obtain ⟨-, rfl⟩ := change_eq_iff.mp hrecord
  have hbegun : Digested env (env.sha256 job.source) none :=
    ⟨Or.inr ⟨job.source, rfl⟩, fun _ ht => by cases ht⟩
  split at h
  · exact tells_result _ told w' hbegun h
  · exact tells_attempts 2 _ told w' hbegun h

end Hapatchy
