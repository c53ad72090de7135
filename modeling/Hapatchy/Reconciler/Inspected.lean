import Hapatchy.SafeIo.Spared
import Hapatchy.Reconciler.Outcome

/-!
# What a result says of the target

For a target that nobody but its commits writes: a result without a reason is
an inspection of the bytes that are there when the run ends.
-/

open Effects Prog

namespace Hapatchy

variable {env : Env} {reconciler : Reconciler} {job : Job} {w w' : World}

/-- The bytes of the file at `p`. -/
def Fs.bytes (fs : Fs) (p : Path) : Option Bytes := (fs.lookup p).map Node.data

/-- No other program writes `T`, and no `uuid4` gives a temporary file its name. -/
structure Env.Leaves (env : Env) (T : Path) : Prop where
  spares : env.Spares T
  fresh : ∀ n, T.getLast? ≠ some (tempName (env.uuid n))

theorem Env.Leaves.not_temp {T p : Path} (h : env.Leaves p) : ¬ Temp env T p := by
  rintro ⟨n, rfl⟩
  exact h.fresh n (by simp)

/-! ## Bytes over steps -/

/-- Steps that do not write `p` leave its bytes. -/
theorem Steps.bytes {L : Label → Prop} {p : Path} (h : Steps env L w w') (henv : env.Spares p)
    (hedit : ¬ L (.edit p))
    (hreplace : ∀ source target, L (.replace source target) → p ≠ source ∧ p ≠ target) :
    w'.fs.bytes p = w.fs.bytes p := by
  induction h with
  | refl => rfl
  | tail _ hstep ih =>
    obtain ⟨l, hl, hstep⟩ := hstep
    rw [← ih]
    unfold Fs.bytes
    cases hstep with
    | call => rw [arrive_lookup henv]
    | edit _ q x =>
      rw [World.edit, Fs.lookup_put_ne]
      rintro rfl
      exact hedit hl
    | sync w q =>
      by_cases hq : p = q
      · subst hq
        rw [Fs.lookup_put, Option.map_map]
        rfl
      · rw [Fs.lookup_put_ne hq]
    | replace _ source target node =>
      obtain ⟨hsource, htarget⟩ := hreplace source target hl
      rw [Fs.lookup_put_ne htarget, Fs.lookup_put_ne hsource]
    | _ => rfl

/-- A run leaves the targets of other patches. -/
theorem run_beside {p : Path} {pendingDurability : Bool} {out : Except Exc ReconcileResult}
    (h : run env reconciler job pendingDurability w = (out, w')) (hp : env.Leaves p)
    (hexternal : ¬ Internal p) (hne : p ≠ job.target) : w'.fs.bytes p = w.fs.bytes p := by
  refine Steps.bytes (does_writes.of_eq h) hp.spares ?_ fun source target hreplace => ?_
  · rintro (htemp | hbackup)
    · exact hp.not_temp htemp
    · exact hexternal hbackup.internal
  · obtain ⟨htemp, rfl⟩ := hreplace
    refine ⟨?_, hne⟩
    rintro rfl
    exact hp.not_temp htemp

theorem Steps.looks_bytes {p : Path} (h : Steps env Looks w w') (henv : env.Spares p) :
    w'.fs.bytes p = w.fs.bytes p := by
  unfold Fs.bytes
  rw [Steps.lookup (h.mono fun _ => Looks.noEdit) frame_noEdit henv]

/-- A step of a run leaves the target, or it replaces it. -/
theorem Step.target {l : Label} (hstep : Step env l w w') (hl : Writes env job l)
    (henv : env.Leaves job.target) (hexternal : ¬ Internal job.target) :
    (∃ new, w'.log = w.log ++ new ∧ replacements new = [] ∧
        w'.fs.bytes job.target = w.fs.bytes job.target) ∨
      ∃ r, w'.log = w.log ++ [.replaced r] ∧ r.before = w.fs ∧
        w'.fs.bytes job.target = some r.installed.data := by
  have hkept (hsingle : ∀ source target, l ≠ .replace source target) :
      w'.fs.bytes job.target = w.fs.bytes job.target := by
    have hone : Steps env (· = l) w w' := Steps.single rfl hstep
    refine hone.bytes henv.spares ?_ fun source target h => absurd h.symm (hsingle source target)
    rintro rfl
    rcases hl with htemp | hbackup
    · exact henv.not_temp htemp
    · exact hexternal hbackup.internal
  cases hstep with
  | replace _ source target node hnode =>
    obtain ⟨-, rfl⟩ := hl
    refine Or.inr ⟨_, rfl, rfl, ?_⟩
    unfold Fs.bytes
    rw [Fs.lookup_put, Option.map_some]
  | call => exact Or.inl ⟨[.call], arrive_log, rfl, hkept fun _ _ => Label.noConfusion⟩
  | verify => exact Or.inl ⟨[], (List.append_nil _).symm, rfl, rfl⟩
  | record => exact Or.inl ⟨[], (List.append_nil _).symm, rfl, rfl⟩
  | _ => exact Or.inl ⟨[_], rfl, rfl, hkept fun _ _ => Label.noConfusion⟩

/-- The bytes of the target after a run are those of its last replacement, and its first replacement
has found those before the run. -/
theorem Steps.target_bytes (h : Steps env (Writes env job) w w') (henv : env.Leaves job.target)
    (hexternal : ¬ Internal job.target) : ∃ new, w'.log = w.log ++ new ∧
      (replacements new = [] → w'.fs.bytes job.target = w.fs.bytes job.target) ∧
      (∀ r ∈ (replacements new).getLast?, w'.fs.bytes job.target = some r.installed.data) ∧
      ∀ r ∈ (replacements new).head?, r.before.bytes job.target = w.fs.bytes job.target := by
  induction h with
  | refl =>
    refine ⟨[], (List.append_nil _).symm, fun _ => rfl, ?_, ?_⟩ <;>
      · intro r hr
        cases hr
  | tail _ hstep ih =>
    obtain ⟨l, hl, hstep⟩ := hstep
    obtain ⟨a, ha, hkept, hlast, hfirst⟩ := ih
    rcases hstep.target hl henv hexternal with ⟨b, hb, hnone, hsame⟩ | ⟨r, hr, hbefore, hsame⟩
    · refine ⟨a ++ b, by rw [hb, ha, List.append_assoc], ?_⟩
      rw [replacements_append, hnone, List.append_nil, hsame]
      exact ⟨hkept, hlast, hfirst⟩
    · refine ⟨a ++ [.replaced r], by rw [hr, ha, List.append_assoc], ?_⟩
      have hone : replacements [.replaced r] = [r] := rfl
      rw [replacements_append, hone]
      refine ⟨fun h => by simp at h, fun r' hr' => ?_, fun r' hr' => ?_⟩
      · rw [List.getLast?_concat, Option.mem_some_iff] at hr'
        rw [← hr', hsame]
      · rcases hnil : replacements a with _ | ⟨first, later⟩
        · rw [hnil, List.nil_append, List.head?_cons, Option.mem_some_iff] at hr'
          rw [← hr', hbefore, hkept hnil]
        · refine hfirst r' ?_
          rw [hnil, List.cons_append, List.head?_cons] at hr'
          rw [hnil]
          exact hr'

/-! ## Inspections -/

/-- `result` is an inspection of the target as it is in `fs`, with the digests of what was read. -/
structure Shows (env : Env) (reconciler : Reconciler) (job : Job) (fs : Fs)
    (result : ReconcileResult) : Prop where
  source : result.sourceSha256 = env.sha256 job.source
  inspected : ∃ parsed data,
    PatchEngine.parse reconciler.fromstring job.source job.definition.targetPath = .ok parsed ∧
    fs.bytes job.target = some data ∧ result.targetSha256 = some (env.sha256 data) ∧
    result.inspection = PatchEngine.inspect parsed data

/-- The hash of the source stays. -/
def SameSource (w w' : World) : Prop := w'.progress.sourceSha256 = w.progress.sourceSha256

theorem sources_of_does {α : Type} {m : Io α} (h : Does env (· ≠ .record) m) : Runs SameSource m := by
  intro w
  refine .single ?_
  unfold SameSource
  rw [Steps.progress (h w) fun h => h rfl]

theorem sources_record {f : Progress → Progress}
    (h : ∀ progress, (f progress).sourceSha256 = progress.sourceSha256) :
    Runs SameSource (record f) := runs_change fun w => h w.progress

theorem sources_read {target : GuardedFile} : Runs SameSource (target.read env : Io Snapshot) :=
  sources_of_does (does_guardedRead Label.noConfusion)

theorem does_checkDefinition_unrecorded :
    Does env (· ≠ .record) (reconciler.policy.checkDefinition env job.definition) :=
  PathPolicy.does_checkDefinition.mono fun l hl => by
    rintro rfl
    exact hl.looks

theorem sources_commitOutput {manager : BackupManager} {target : GuardedFile} {snapshot : Snapshot}
    {output : Bytes} : Runs SameSource
      (commitOutput env reconciler job manager target snapshot output) := by
  refine runs_bind runs_read fun w => runs_rescue (sources_of_does (does_commit ?_
    does_checkDefinition_unrecorded)) fun e => ?_
  · intro before hbefore
    split at hbefore <;> cases hbefore
    exact runs_bind (does_create Label.noConfusion (fun _ _ _ => ⟨Label.noConfusion, Label.noConfusion⟩)
      fun _ _ => ⟨Label.noConfusion, Label.noConfusion⟩) fun _ => runs_pure
  · cases e with
    | commit reason replaced =>
      refine runs_bind (sources_record fun _ => rfl) fun _ =>
        runs_ite (fun _ => runs_bind (runs_rescue ?_ fun e => ?_) fun _ => runs_raise) fun _ => runs_raise
      · exact runs_bind sources_read fun _ => sources_record fun _ => rfl
      · cases e with
        | patch => exact sources_record fun _ => rfl
        | commit => exact sources_record fun _ => rfl
        | _ => exact runs_raise
    | _ => exact runs_raise

theorem Runs.source {α : Type} {m : Io α} (h : Runs SameSource m) {out : Except Exc α}
    (hrun : m w = (out, w')) : w'.progress.sourceSha256 = w.progress.sourceSha256 :=
  h.invariant (P := fun v => v.progress.sourceSha256 = w.progress.sourceSha256)
    (fun _ _ hstep hsame => hstep.trans hsame) hrun rfl

section Block

variable {target : GuardedFile} {parsed : PatchEngine.ParsedPatch}
  (htarget : target.path = job.target) (henv : env.Leaves job.target)

include htarget henv

theorem readTarget_shows {snapshot : Snapshot}
    (h : readTarget env target w = (.ok snapshot, w')) :
    w'.fs.bytes job.target = some snapshot.data ∧
      w'.progress.targetSha256 = some (env.sha256 snapshot.data) := by
  obtain ⟨snapshot', t, hread, hrest⟩ := bind_ok_iff.mp h
  obtain ⟨_, u, hrecord, hrest⟩ := bind_ok_iff.mp hrest
  obtain ⟨-, rfl⟩ := change_eq_iff.mp hrecord
  have hbytes : t.fs.bytes job.target = some snapshot'.data := by
    have hspares : env.Spares target.path := htarget ▸ henv.spares
    rw [← htarget, ← read_spared hspares hread]
    exact Steps.looks_bytes ((does_guardedRead (L := Looks) trivial).of_eq hread) hspares
  rw [read_bind] at hrest
  split at hrest
  · obtain ⟨_, v, hconfirm, hrest⟩ := bind_ok_iff.mp hrest
    obtain ⟨_, x, hclear, hrest⟩ := bind_ok_iff.mp hrest
    obtain ⟨-, rfl⟩ := change_eq_iff.mp hclear
    obtain ⟨⟨⟩, rfl⟩ := pure_eq_iff.mp hrest
    refine ⟨?_, ?_⟩
    · change v.fs.bytes job.target = _
      rw [← hbytes]
      change _ = ({ t with progress := { t.progress with targetSha256 := some snapshot.sha256 } } :
        World).fs.bytes job.target
      refine Steps.bytes ((does_confirmDurability (L := fun l => (∀ p, l ≠ .edit p) ∧
        ∀ source target, l ≠ .replace source target) ?_ ?_ ?_).of_eq hconfirm) henv.spares ?_ ?_
      · exact ⟨fun _ => Label.noConfusion, fun _ _ => Label.noConfusion⟩
      · exact ⟨fun _ => Label.noConfusion, fun _ _ => Label.noConfusion⟩
      · exact ⟨fun _ => Label.noConfusion, fun _ _ => Label.noConfusion⟩
      · exact fun h => h.1 _ rfl
      · exact fun _ _ h => absurd rfl (h.2 _ _)
    · rw [← read_sha hread]
      change v.progress.targetSha256 = _
      rw [confirmDurability_progress hconfirm]
  · obtain ⟨⟨⟩, rfl⟩ := pure_eq_iff.mp hrest
    exact ⟨hbytes, by rw [← read_sha hread]⟩

theorem afterCommit_shows {result : ReconcileResult} (hexternal : ¬ Internal job.target)
    (hparsed : PatchEngine.parse reconciler.fromstring job.source job.definition.targetPath =
      .ok parsed) (hsource : w.progress.sourceSha256 = env.sha256 job.source)
    (h : afterCommit env job.manager parsed target w = (.ok result, w')) :
    Shows env reconciler job w'.fs result := by
  obtain ⟨_, t, hrecord, h⟩ := bind_ok_iff.mp h
  obtain ⟨-, rfl⟩ := change_eq_iff.mp hrecord
  obtain ⟨current, t, hread, h⟩ := bind_ok_iff.mp h
  obtain ⟨_, u, hrecord, h⟩ := bind_ok_iff.mp h
  obtain ⟨-, rfl⟩ := change_eq_iff.mp hrecord
  obtain ⟨_, v, hprune, h⟩ := bind_ok_iff.mp h
  rw [Hapatchy.result, read_bind] at h
  obtain ⟨heq, hend⟩ := pure_eq_iff.mp h
  cases heq
  subst hend
  have hspares : env.Spares target.path := htarget ▸ henv.spares
  have hdoes : Does env (fun l => l ≠ .record ∧ l ≠ .edit job.target ∧
      ∀ source target, l ≠ .replace source target) (job.manager.prune env) :=
    does_prune_among ⟨Label.noConfusion, Label.noConfusion, fun _ _ => Label.noConfusion⟩
      (fun _ => ⟨Label.noConfusion, Label.noConfusion, fun _ _ => Label.noConfusion⟩)
      (fun _ => ⟨Label.noConfusion, Label.noConfusion, fun _ _ => Label.noConfusion⟩)
      fun p hp => ⟨Label.noConfusion, fun heq => by
        cases heq
        exact hexternal hp.internal, fun _ _ => Label.noConfusion⟩
  have hprogress := Steps.progress (hdoes.of_eq hprune) fun h => h.1 rfl
  have hreads := Steps.progress ((does_guardedRead (L := OnlyCalls) trivial).of_eq hread) id
  refine ⟨?_, parsed, current.data, hparsed, ?_, ?_, rfl⟩
  · change w'.progress.sourceSha256 = _
    rw [hprogress]
    change t.progress.sourceSha256 = _
    rw [hreads]
    exact hsource
  · rw [Steps.bytes (hdoes.of_eq hprune) henv.spares (fun h => h.2.1 rfl)
      fun _ _ h => absurd rfl (h.2.2 _ _)]
    change t.fs.bytes job.target = _
    rw [← htarget, Steps.looks_bytes ((does_guardedRead (L := Looks) trivial).of_eq hread) hspares]
    exact read_spared hspares hread
  · change w'.progress.targetSha256 = _
    rw [hprogress, ← read_sha hread]

/-- What the `with` block of an attempt returns is an inspection of the target. -/
theorem inspectAndReplace_shows {result : ReconcileResult} (hexternal : ¬ Internal job.target)
    (hparsed : PatchEngine.parse reconciler.fromstring job.source job.definition.targetPath =
      .ok parsed) (hsource : w.progress.sourceSha256 = env.sha256 job.source)
    (h : inspectAndReplace env reconciler job parsed target w = (.ok result, w')) :
    Shows env reconciler job w'.fs result := by
  obtain ⟨snapshot, t, hread, h⟩ := bind_ok_iff.mp h
  obtain ⟨hbytes, hdigest⟩ := readTarget_shows htarget henv hread
  have hsource' : t.progress.sourceSha256 = env.sha256 job.source :=
    (keeps_readTarget.same hread).2.trans hsource
  have hresult {error : Option Reason} (hrun : Hapatchy.result
      (PatchEngine.inspect parsed snapshot.data) error t = (.ok result, w')) :
      Shows env reconciler job w'.fs result := by
    rw [Hapatchy.result, read_bind] at hrun
    obtain ⟨⟨⟩, rfl⟩ := pure_eq_iff.mp hrun
    exact ⟨hsource', parsed, snapshot.data, hparsed, hbytes, hdigest, rfl⟩
  split at h
  · exact hresult h
  cases houtput : outputForAction job.definition (PatchEngine.inspect parsed snapshot.data)
      job.action with
  | none =>
    rw [houtput] at h
    exact hresult h
  | some output =>
    rw [houtput] at h
    obtain ⟨manager, u, hmake, h⟩ := bind_ok_iff.mp h
    obtain ⟨hmanager, rfl⟩ := ofPatch_ok hmake
    obtain rfl : manager = job.manager := make_ok hmanager
    obtain ⟨_, v, hcommit, h⟩ := bind_ok_iff.mp h
    exact afterCommit_shows htarget henv hexternal hparsed
      ((Runs.source sources_commitOutput hcommit).trans hsource') h

end Block

theorem sources_attempt : Runs SameSource (attempt env reconciler job) := by
  have hresult : ∀ {inspection error}, Runs SameSource (result inspection error) :=
    runs_bind runs_read fun _ => runs_pure
  have hreadTarget {target : GuardedFile} : Runs SameSource (readTarget env target) :=
    Runs.mono keeps_readTarget fun _ _ hsame => hsame.2
  refine runs_bind (sources_of_does does_checkDefinition_unrecorded) fun _ => runs_bind runs_lift
    fun parsed => runs_bind (sources_of_does (does_guardedEnter Label.noConfusion)) fun target =>
      runs_ensure (runs_bind hreadTarget fun snapshot => ?_) fun _ =>
        sources_of_does (does_guardedExit Label.noConfusion)
  refine runs_ite (fun _ => hresult) fun _ => ?_
  split
  · exact hresult
  · refine runs_bind runs_lift fun manager => runs_bind sources_commitOutput fun _ => ?_
    refine runs_bind (sources_record fun _ => rfl) fun _ => runs_bind sources_read fun current =>
      runs_bind (sources_record fun _ => rfl) fun _ => runs_bind ?_ fun _ => hresult
    exact sources_of_does (does_prune Label.noConfusion Label.noConfusion fun _ _ =>
      ⟨Label.noConfusion, Label.noConfusion⟩)

/-- An attempt that returns has inspected its target, which is external. -/
theorem attempt_shows {result : ReconcileResult} (henv : env.Leaves job.target)
    (hsource : w.progress.sourceSha256 = env.sha256 job.source)
    (h : attempt env reconciler job w = (.ok result, w')) :
    ¬ Internal job.target ∧ Shows env reconciler job w'.fs result := by
  rcases attempt_split h with ⟨_, ⟨⟩, -⟩ | ⟨parsed, target, t, out', u, henters, hto, htarget, hbody,
    hfrom, ⟨-, rfl⟩ | ⟨_, -, ⟨⟩⟩⟩
  obtain ⟨hparsed, _, -, henter⟩ := henters
  have hexternal : ¬ Internal job.target := internal_of_protected (guardedEnter_ok henter).1
  have hsource' : t.progress.sourceSha256 = env.sha256 job.source := by rw [hto.looked.1, hsource]
  obtain ⟨hdigest, parsed', data, hparse, hbytes, hrest⟩ :=
    inspectAndReplace_shows htarget henv hexternal hparsed hsource' hbody
  refine ⟨hexternal, hdigest, parsed', data, hparse, ?_, hrest⟩
  rw [← hbytes]
  exact Steps.looks_bytes (Steps.mono hfrom fun _ => OnlyCalls.looks) henv.spares

/-! ## Denials -/

theorem guarded_prune {manager : BackupManager} : Raises Exc.Guarded (manager.prune env) := by
  have hwithin {α : Type} {parts : List Text} {body : GuardedDirectory → Io α}
      (hbody : ∀ directory, Raises Exc.Guarded (body directory)) :
      Raises Exc.Guarded (withDirectory env parts false body) := guarded_withDirectory hbody
  have hcomplete : ∀ names, Raises Exc.Guarded
      (manager.completeAmong env (fun _ => false) names) := fun _ =>
    raises_completeAmong guarded_os (fun _ _ => trivial) fun _ => guarded_enter
  have hremove : ∀ (parent : GuardedDirectory) names,
      Raises Exc.Guarded (manager.removeAll env parent names) := by
    intro parent names
    induction names with
    | nil => exact raises_pure
    | cons name names ih =>
      refine raises_bind (hwithin fun directory => raises_bind (raises_look guarded_os) fun _ =>
        raises_ite (fun _ => raises_pure) fun _ => raises_bind (raises_anyIrregular guarded_os) fun _ =>
          raises_ite (fun _ => raises_pure) fun _ => raises_bind guarded_verify fun _ =>
            raises_bind (raises_forM fun _ _ => raises_unlink guarded_os) fun _ => raises_pure)
        fun _ => raises_ite (fun _ => raises_bind guarded_verify fun _ =>
          raises_bind (raises_rmdir guarded_os) fun _ => ih) fun _ => ih
  refine guarded_rescueOs (hwithin fun parent => ?_) fun e => ?_
  · exact raises_bind (raises_bind (raises_look guarded_os) fun _ => hcomplete _) fun _ =>
      raises_bind (hremove _ _) fun _ => raises_fsync guarded_os
  · cases e with
    | fileNotFound => exact raises_pure
    | _ => exact guarded_raisePatch Reason.noConfusion

/-- After a commit, the permission of Home Assistant is not asked for. -/
theorem guarded_afterCommit {manager : BackupManager} {parsed : PatchEngine.ParsedPatch}
    {target : GuardedFile} : Raises Exc.Guarded (afterCommit env manager parsed target) :=
  raises_bind raises_change fun _ => raises_bind guarded_read fun _ => raises_bind raises_change
    fun _ => raises_bind guarded_prune fun _ => raises_bind raises_read fun _ => raises_pure

/-- An attempt that Home Assistant does not permit has replaced nothing. -/
theorem attempt_denied {e : Exc} {error : PatchError} (hw : w.progress.mutated = false)
    (h : attempt env reconciler job w = (.error e, w')) (herror : e.patchError? = some error)
    (hreason : error.reason = .haPathNotAllowed) :
    ∃ new, w'.log = w.log ++ new ∧ replacements new = [] := by
  rcases attempt_block hw h with ⟨e', heq, -, hlooks⟩ | ⟨parsed, target, t, out', u, -, hto, hbody,
    hblock, hfrom, hexit⟩
  · exact hlooks.looked.2
  obtain ⟨-, before, hbefore, hnone⟩ := hto.looked
  obtain ⟨-, last, hlast, hcalls⟩ := hfrom.called
  have hkept (hunreplaced : ∃ new, u.log = t.log ++ new ∧ replacements new = []) :
      ∃ new, w'.log = w.log ++ new ∧ replacements new = [] := by
    obtain ⟨middle, hmiddle, hnone'⟩ := hunreplaced
    refine ⟨_, log_trans (log_trans hbefore hmiddle) hlast, ?_⟩
    rw [replacements_append, replacements_append, hnone, hnone', replacements_calls hcalls]
    rfl
  rcases hexit with ⟨-, hsame⟩ | ⟨e', -, hsame⟩
  · cases hsame
    cases hblock with
    | unread _ _ _ hunreplaced => exact hkept hunreplaced
    | kept _ _ _ _ hunreplaced => exact hkept hunreplaced
    | unsynced =>
      cases herror
      cases hreason
    | synced _ hafter =>
      have hguarded := guarded_afterCommit _ _ _ hafter
      cases e with
      | patch =>
        cases herror
        exact absurd hreason hguarded
      | commit =>
        obtain ⟨-, -, -, ⟨_, ⟨⟩, -⟩ | ⟨_, ⟨⟩⟩⟩ := afterCommit_events hafter
      | _ => cases herror
  · cases hsame
    cases herror

/-! ## Runs -/

/-- Of the attempts of a run: the result is an inspection of the target, or it has a reason, and
nothing is replaced if Home Assistant does not permit it. -/
theorem attempts_shows {later : Nat} {result : ReconcileResult} (henv : env.Leaves job.target)
    (hw : w.progress.mutated = false) (hsource : w.progress.sourceSha256 = env.sha256 job.source)
    (h : attempts env reconciler job later w = (.ok result, w')) :
    (¬ Internal job.target ∧ Shows env reconciler job w'.fs result) ∨
      (result.inspection.reason ≠ none ∧ (result.inspection.reason = some .haPathNotAllowed →
        ∃ new, w'.log = w.log ++ new ∧ replacements new = [])) := by
  -- One round, or the attempt that fails in it, and the attempts after it.
  have hround {retry : Option (Io ReconcileResult)} {w w' : World}
      (hw : w.progress.mutated = false) (hsource : w.progress.sourceSha256 = env.sha256 job.source)
      (h : rescue (attempt env reconciler job) (report retry) w = (.ok result, w')) :
      ((¬ Internal job.target ∧ Shows env reconciler job w'.fs result) ∨
        (result.inspection.reason ≠ none ∧ (result.inspection.reason = some .haPathNotAllowed →
          ∃ new, w'.log = w.log ++ new ∧ replacements new = []))) ∨
        ∃ again ∈ retry, ∃ e u, attempt env reconciler job w = (.error e, u) ∧ Retries e u ∧
          again u = (.ok result, w') := by
    rcases rescue_eq_iff.mp h with ⟨_, hattempt, ⟨⟩⟩ | ⟨e, u, hattempt, hreport⟩
    · exact Or.inl (Or.inl (attempt_shows henv hsource hattempt))
    have hvalue : e.Controlled := by
      rcases attempt_raises hattempt with he | ⟨rfl, -⟩
      · exact he
      · cases (raise_eq_iff.mp hreport).1
    rcases report_run hvalue hreport with ⟨rfl, result', hok, -, hresult⟩ | ⟨again, hagain, hretries,
      hrest⟩
    · cases hok
      refine Or.inl (Or.inr ⟨?_, fun hdenied => ?_⟩)
      · rw [hresult]
        unfold reported
        split
        · split
          · exact Option.some_ne_none _
          · exact Option.some_ne_none _
        · exact Option.some_ne_none _
      · rw [hresult] at hdenied
        unfold reported at hdenied
        cases herror : e.patchError? with
        | none =>
          simp only [herror] at hdenied
          cases hdenied
        | some error =>
          simp only [herror] at hdenied
          split at hdenied
          · cases hdenied
          · exact attempt_denied hw hattempt herror (Option.some_inj.mp hdenied)
    · exact Or.inr ⟨again, hagain, e, u, hattempt, hretries, hrest⟩
  induction later generalizing w with
  | zero =>
    rcases hround hw hsource h with hend | ⟨again, hagain, -⟩
    · exact hend
    · cases hagain
  | succ later ih =>
    rcases hround hw hsource h with hend | ⟨again, hagain, e, u, hattempt, hretries, hrest⟩
    · exact hend
    cases hagain
    have hsource' : u.progress.sourceSha256 = env.sha256 job.source :=
      (Runs.source sources_attempt hattempt).trans hsource
    refine (ih hretries.mutated hsource' hrest).imp_right fun hend => ⟨hend.1, fun hdenied => ?_⟩
    obtain ⟨new', hlog', hnone'⟩ := hend.2 hdenied
    obtain ⟨new, hlog, hnone⟩ : ∃ new, u.log = w.log ++ new ∧ replacements new = [] := by
      rcases attempt_failed hw hattempt with ⟨-, hunreplaced⟩ | ⟨-, hfailed⟩ | ⟨-, hfailed⟩
      · exact hunreplaced
      · exact hfailed.unreplaced
      · cases hfailed.mutated.symm.trans hretries.mutated
    exact ⟨_, log_trans hlog hlog', by rw [replacements_append, hnone, hnone']; rfl⟩

theorem run_shows {pendingDurability : Bool} {result : ReconcileResult}
    (henabled : job.definition.enabled = true) (henv : env.Leaves job.target)
    (h : run env reconciler job pendingDurability w = (.ok result, w')) :
    (¬ Internal job.target ∧ Shows env reconciler job w'.fs result) ∨
      (result.inspection.reason ≠ none ∧ (result.inspection.reason = some .haPathNotAllowed →
        ∃ new, w'.log = w.log ++ new ∧ replacements new = [])) := by
  rw [run_eq_attempts henabled] at h
  exact attempts_shows (w := begun env job w pendingDurability) henv begun_mutated rfl h

end Hapatchy
