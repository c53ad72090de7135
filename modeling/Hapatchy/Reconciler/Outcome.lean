import Hapatchy.PatchEngine.Errors
import Hapatchy.Reconciler.Authority

/-!
# How a run ends

Nothing is assumed of the other programs. Whether the target was replaced, and
its directory synced, is in the log; what the run returns follows from that and
from the calls after it.
-/

open Effects Prog

namespace Hapatchy

variable {env : Env} {reconciler : Reconciler} {job : Job} {w w' : World}

/-! ## Attempts -/

/-- In `t`, the target is read and verified, and then its directory is synced. -/
def Confirms (env : Env) (target : GuardedFile) (t : World) : Prop :=
  ∃ snapshot u v, (target.read env : Io Snapshot) t = (.ok snapshot, u) ∧
    confirmDurability env target snapshot { u with
      progress := { u.progress with targetSha256 := some snapshot.sha256 } } = (.ok (), v)

section

variable (env : Env) (reconciler : Reconciler) (job : Job)

/-- An attempt that begins in `w` gets to its `with` block in `t`. -/
structure Enters (w : World) (parsed : PatchEngine.ParsedPatch) (target : GuardedFile) (t : World) :
    Prop where
  parsed : PatchEngine.parse reconciler.fromstring job.source job.definition.targetPath = .ok parsed
  entered : ∃ u, reconciler.policy.checkDefinition env job.definition w = (.ok (), u) ∧
    (GuardedFile.enter env job.definition.targetPath : Io GuardedFile) u = (.ok target, t)

/-- One of at most `later + 1` attempts, of which the first begins in `w`, gets to its `with` block. -/
inductive Reaches : Nat → World → PatchEngine.ParsedPatch → GuardedFile → World → Prop
  | first {later : Nat} {w t : World} {parsed : PatchEngine.ParsedPatch} {target : GuardedFile}
      (enters : Enters env reconciler job w parsed target t) : Reaches later w parsed target t
  | again {later : Nat} {w u t : World} {parsed : PatchEngine.ParsedPatch} {target : GuardedFile}
      {e : Exc} (failed : attempt env reconciler job w = (.error e, u)) (retries : Retries e u)
      (reaches : Reaches later u parsed target t) : Reaches (later + 1) w parsed target t

/-- The `with` block that begins in `t` replaces the target and syncs its directory, and then the
world is `u`. -/
structure Commits (parsed : PatchEngine.ParsedPatch) (target : GuardedFile) (t u : World) : Prop where
  made : BackupManager.make job.definition.patchId job.retention = .ok job.manager
  committed : ∃ snapshot v output, readTarget env target t = (.ok snapshot, v) ∧
    ¬ (job.action = .revert ∧ (PatchEngine.inspect parsed snapshot.data).status = .applicable) ∧
    outputForAction job.definition (PatchEngine.inspect parsed snapshot.data) job.action =
      some output ∧
    commitOutput env reconciler job job.manager target snapshot output v = (.ok (), u)

/-- After a commit, the target that is read again or the backups that are pruned are denied for
security. -/
def Denied (later : Nat) (w : World) : Prop :=
  ∃ parsed target t u e v, Reaches env reconciler job later w parsed target t ∧
    Commits env reconciler job parsed target t u ∧
    afterCommit env job.manager parsed target u = (.error (.patch e), v) ∧
    e.status = .securityError ∧ (target.exit env v).1 = .ok ()

/-- An attempt confirms the durability of its target. -/
def Confirmed (later : Nat) (w : World) : Prop :=
  ∃ parsed target t, Reaches env reconciler job later w parsed target t ∧
    t.progress.pendingDurability = true ∧ Confirms env target t

/-- A directory of the target fails to close, while the target may not be on disk. -/
def Unclosed (later : Nat) (w : World) : Prop :=
  ∃ parsed target t out u e v, Reaches env reconciler job later w parsed target t ∧
    inspectAndReplace env reconciler job parsed target t = (out, u) ∧
    target.exit env u = (.error e, v) ∧
    (u.progress.pendingDurability = true ∨ out = .error (.commit .durabilityUnconfirmed true))

end

/-! ## The parts of an attempt -/

/-- Labels of steps that replace nothing. -/
def Unreplacing : Label → Prop
  | .replace _ _ => False
  | _ => True

theorem Steps.unreplacing (h : Steps env Unreplacing w w') :
    ∃ new, w'.log = w.log ++ new ∧ replacements new = [] := h.unreplaced fun _ _ => id

/-- What steps that only look leave. -/
theorem Steps.looked (h : Steps env Looks w w') : w'.progress = w.progress ∧
    ∃ new, w'.log = w.log ++ new ∧ replacements new = [] :=
  ⟨h.progress id, h.unreplaced fun _ _ => id⟩

/-- What calls that change nothing leave. -/
theorem Steps.called (h : Steps env OnlyCalls w w') : w'.progress = w.progress ∧
    ∃ new, w'.log = w.log ++ new ∧ ∀ e ∈ new, e = .call := by
  obtain ⟨new, hlog, hall⟩ := Steps.log h
  refine ⟨h.progress id, new, hlog, fun e he => ?_⟩
  have hallowed := hall e he
  cases e with
  | call => rfl
  | replaced => exact hallowed.elim fun _ => False.elim
  | _ => exact False.elim hallowed

/-- Before its `with` block an attempt only looks. Then it is the block, and the exit from it. -/
theorem attempt_split {out : Except Exc ReconcileResult}
    (h : attempt env reconciler job w = (out, w')) :
    (∃ e, out = .error e ∧ (e.IsPatch ∨ e = .value) ∧ Steps env Looks w w') ∨
      ∃ parsed target t out' u, Enters env reconciler job w parsed target t ∧
        Steps env Looks w t ∧ target.path = job.target ∧
        inspectAndReplace env reconciler job parsed target t = (out', u) ∧
        Steps env OnlyCalls u w' ∧
        ((target.exit env u = (.ok (), w') ∧ out = out') ∨
          ∃ e, target.exit env u = (.error (.os e), w') ∧ out = .error (.os e)) := by
  have hcheck : Does env Looks (reconciler.policy.checkDefinition env job.definition) :=
    PathPolicy.does_checkDefinition.mono fun _ => PathPolicy.Checks.looks
  rcases bind_eq_iff.mp h with ⟨e, hrun, rfl⟩ | ⟨_, t₁, hrun, hafterCheck⟩
  · exact Or.inl ⟨e, rfl, Or.inl (PathPolicy.raises_checkDefinition _ _ _ hrun).isPatch,
      hcheck.of_eq hrun⟩
  have hchecked := hcheck.of_eq hrun
  rcases bind_eq_iff.mp hafterCheck with ⟨e, hparse, rfl⟩ | ⟨parsed, t₂, hparse, hafterParse⟩
  · obtain ⟨herror, rfl⟩ := lift_eq_iff.mp hparse
    refine Or.inl ⟨e, rfl, ?_, hchecked⟩
    rcases PatchEngine.parse_eq_error herror.symm with ⟨error, rfl⟩ | ⟨hvalue, -⟩
    · exact Or.inl trivial
    · exact Or.inr hvalue
  obtain ⟨hparsed, rfl⟩ := lift_eq_iff.mp hparse
  have henter : Does env Looks (GuardedFile.enter env job.definition.targetPath) :=
    does_guardedEnter trivial
  rcases bind_eq_iff.mp hafterParse with ⟨e, hrun', rfl⟩ | ⟨target, t₃, hrun', hafterEnter⟩
  · exact Or.inl ⟨e, rfl, Or.inl (raises_guardedEnter _ _ _ hrun'),
      hchecked.trans (henter.of_eq hrun')⟩
  obtain ⟨out', t₄, hbody, hexit⟩ := ensure_eq_iff.mp hafterEnter
  have hexited : Steps env OnlyCalls t₄ w' := by
    rcases hexit with ⟨hexit, -⟩ | ⟨e, hexit, -⟩ <;>
      exact (does_guardedExit (L := OnlyCalls) trivial).of_eq hexit
  refine Or.inr ⟨parsed, target, t₃, out', t₄, ⟨hparsed.symm, _, hrun, hrun'⟩,
    hchecked.trans (henter.of_eq hrun'), (guardedEnter_ok hrun').2, hbody, hexited, ?_⟩
  rcases hexit with ⟨hexit, rfl⟩ | ⟨e, hexit, rfl⟩
  · exact Or.inl ⟨hexit, rfl⟩
  · have hos : e.IsOs := raises_exit (fun _ => trivial) _ _ _ hexit
    cases e with
    | os e => exact Or.inr ⟨e, hexit, rfl⟩
    | _ => exact hos.elim

theorem attempt_of_enters {parsed : PatchEngine.ParsedPatch} {target : GuardedFile} {t : World}
    (h : Enters env reconciler job w parsed target t) : attempt env reconciler job w =
      ensure (inspectAndReplace env reconciler job parsed target) (fun _ => target.exit env) t := by
  obtain ⟨hparsed, u, hcheck, henter⟩ := h
  unfold attempt
  simp only [bind_run, hcheck, lift, hparsed, henter]

section Block

variable {target : GuardedFile} {snapshot : Snapshot} {output : Bytes} {t u : World}

theorem does_readTarget_unreplacing : Does env Unreplacing (readTarget env target) := by
  have hrecord : ∀ {f}, Does env Unreplacing (record f) := does_record trivial
  refine runs_bind (does_guardedRead trivial) fun _ => runs_bind hrecord fun _ =>
    runs_bind runs_read fun w => runs_ite (fun _ => ?_) fun _ => runs_pure
  exact runs_bind (does_confirmDurability trivial trivial trivial) fun _ =>
    runs_bind hrecord fun _ => runs_pure

theorem confirmDurability_progress {out : Except Exc Unit}
    (h : confirmDurability env target snapshot t = (out, u)) : u.progress = t.progress :=
  Steps.progress ((does_confirmDurability (L := (· ≠ .record)) Label.noConfusion Label.noConfusion
    Label.noConfusion).of_eq h) fun h => h rfl

theorem raises_confirmDurability : Raises
    (fun e => e.IsPatch ∨ e = .commit .durabilityUnconfirmed true)
    (confirmDurability env target snapshot) :=
  raises_bind (raises_verifySnapshot.mono fun _ => Or.inl) fun _ =>
    raises_commitErrorOnOs (raises_fsync fun _ => Or.inr trivial) (Or.inr rfl)

/-- What is still unconfirmed when the target is read stays so if that fails, and is confirmed if it
does not. -/
theorem readTarget_run {out : Except Exc Snapshot} (h : readTarget env target t = (out, u)) :
    u.progress.mutated = t.progress.mutated ∧
      ((∃ e, out = .error e ∧ (e.IsPatch ∨ e = .commit .durabilityUnconfirmed true) ∧
          u.progress.pendingDurability = t.progress.pendingDurability) ∨
        ∃ snapshot, out = .ok snapshot ∧ u.progress.pendingDurability = false ∧
          (t.progress.pendingDurability = true → Confirms env target t)) := by
  refine ⟨(keeps_readTarget.same h).1, ?_⟩
  rcases bind_eq_iff.mp h with ⟨e, hread, rfl⟩ | ⟨snapshot, v, hread, hrest⟩
  · have hsame := Steps.progress ((does_guardedRead (L := OnlyCalls) trivial).of_eq hread) id
    exact Or.inl ⟨e, rfl, Or.inl (raises_guardedRead _ _ _ hread), by rw [hsame]⟩
  have hsame := Steps.progress ((does_guardedRead (L := OnlyCalls) trivial).of_eq hread) id
  obtain ⟨_, v', hrecord, hrest⟩ := bind_eq_iff.mp hrest |>.resolve_left fun ⟨_, hrecord, _⟩ => by
    cases (change_eq_iff.mp hrecord).1
  obtain ⟨-, rfl⟩ := change_eq_iff.mp hrecord
  rw [read_bind] at hrest
  split at hrest
  · rename_i hpending
    rcases bind_eq_iff.mp hrest with ⟨e, hconfirm, rfl⟩ | ⟨_, v'', hconfirm, hrest⟩
    · refine Or.inl ⟨e, rfl, raises_confirmDurability _ _ _ hconfirm, ?_⟩
      rw [confirmDurability_progress hconfirm]
      change v.progress.pendingDurability = _
      rw [hsame]
    · obtain ⟨_, x, hclear, hrest⟩ := bind_eq_iff.mp hrest |>.resolve_left fun ⟨_, hclear, _⟩ => by
        cases (change_eq_iff.mp hclear).1
      obtain ⟨-, rfl⟩ := change_eq_iff.mp hclear
      obtain ⟨rfl, rfl⟩ := pure_eq_iff.mp hrest
      exact Or.inr ⟨snapshot, rfl, rfl, fun _ => ⟨snapshot, v, v'', hread, hconfirm⟩⟩
  · rename_i hpending
    obtain ⟨rfl, rfl⟩ := pure_eq_iff.mp hrest
    have hclear : v.progress.pendingDurability = false := Bool.eq_false_iff.mpr hpending
    refine Or.inr ⟨snapshot, rfl, hclear, fun hp => ?_⟩
    rw [hsame, hp] at hclear
    cases hclear

theorem replacements_calls {log : List Event} (h : ∀ e ∈ log, e = .call) : replacements log = [] := by
  rw [List.eq_nil_iff_forall_not_mem]
  intro r hr
  cases h _ (mem_replacements.mp hr)

/-- The log of a part of a run that has replaced the target and has not synced its directory. -/
def Unsynced (job : Job) (new : List Event) : Prop :=
  ∃ a r b, new = a ++ .replaced r :: b ∧ .synced job.target.dropLast ∉ b

/-- The log of a part of a run that has replaced the target once, and synced its directory then. -/
def Synced (job : Job) (new : List Event) : Prop :=
  ∃ a r b, new = a ++ .replaced r :: .call :: .synced job.target.dropLast :: b ∧
    replacements a = [] ∧ replacements b = []

theorem observe_run {out : Except Exc Unit} (h : observeReplacedTarget env target t = (out, u)) :
    out = .ok () ∧ u.progress.pendingDurability = t.progress.pendingDurability ∧
      u.progress.mutated = t.progress.mutated ∧
      ∃ new, u.log = t.log ++ new ∧ ∀ e ∈ new, e = .call := by
  have hcalls {t u : World} {out : Except Exc Snapshot}
      (hread : (target.read env : Io Snapshot) t = (out, u)) :
      u.progress = t.progress ∧ ∃ new, u.log = t.log ++ new ∧ ∀ e ∈ new, e = .call :=
    Steps.called ((does_guardedRead trivial).of_eq hread)
  rcases rescue_eq_iff.mp h with ⟨_, hread, rfl⟩ | ⟨e, v, hread, hhandler⟩
  · obtain ⟨snapshot, v, hsnapshot, hrecord⟩ := bind_ok_iff.mp hread
    obtain ⟨-, rfl⟩ := change_eq_iff.mp hrecord
    obtain ⟨hsame, new, hlog, hall⟩ := hcalls hsnapshot
    exact ⟨rfl, by rw [← hsame], by rw [← hsame], new, hlog, hall⟩
  · rcases bind_eq_iff.mp hread with ⟨e', hsnapshot, heq⟩ | ⟨_, v', -, hrecord⟩
    · cases heq
      obtain ⟨hsame, new, hlog, hall⟩ := hcalls hsnapshot
      have hpatch := raises_guardedRead _ _ _ hsnapshot
      cases e with
      | patch error =>
        obtain ⟨rfl, rfl⟩ := change_eq_iff.mp hhandler
        exact ⟨rfl, by rw [← hsame], by rw [← hsame], new, hlog, hall⟩
      | _ => exact hpatch.elim
    · cases (change_eq_iff.mp hrecord).1

/-- A commit that does not replace the target, that does not sync it, and that does both. -/
theorem commitOutput_events {out : Except Exc Unit} (htarget : target.path = job.target)
    (hw : t.progress.mutated = false)
    (h : commitOutput env reconciler job job.manager target snapshot output t = (out, u)) :
    u.progress.pendingDurability = t.progress.pendingDurability ∧
      ((∃ e new, out = .error e ∧ e.Controlled ∧ u.progress.mutated = false ∧
          u.log = t.log ++ new ∧ replacements new = []) ∨
        (∃ a r b, out = .error (.commit .durabilityUnconfirmed true) ∧ u.progress.mutated = true ∧
          u.log = t.log ++ (a ++ .replaced r :: b) ∧ replacements a = [] ∧ ∀ e ∈ b, e = .call) ∨
        out = .ok () ∧ ∃ new, u.log = t.log ++ new ∧ Synced job new) := by
  have hparent : target.parent = job.target.dropLast := by
    rw [← htarget, GuardedFile.path, List.dropLast_concat]
  rw [commitOutput, read_bind] at h
  have hbefore : ∀ before ∈ backupFor env job snapshot output t.progress.sourceSha256,
      Does env Plain before := does_backupFor trivial (fun _ => trivial) fun _ _ => trivial
  have hcheck : Does env Plain (reconciler.policy.checkDefinition env job.definition) :=
    PathPolicy.does_checkDefinition.mono fun _ h => h.looks.plain
  have hdenies : Raises Exc.IsPatch (reconciler.policy.checkDefinition env job.definition) :=
    PathPolicy.raises_checkDefinition.mono fun _ => PathPolicy.Denial.isPatch
  have hplain : ∀ l, Plain l → l ≠ .record := by
    rintro l hl rfl
    exact hl
  have hsame {t' : World} {o : Except Exc Unit} (hcommit : commit env target snapshot output
      (backupFor env job snapshot output t.progress.sourceSha256)
      (reconciler.policy.checkDefinition env job.definition) t = (o, t')) :
      t'.progress = t.progress :=
    Steps.progress ((does_commit (fun before h => (hbefore before h).mono hplain)
      (hcheck.mono hplain)).of_eq hcommit) fun h => h rfl
  rcases rescue_eq_iff.mp h with ⟨_, hcommit, rfl⟩ | ⟨e, v, hcommit, hfailed⟩
  · have hprogress := hsame hcommit
    refine ⟨by rw [hprogress], Or.inr (Or.inr ⟨rfl, ?_⟩)⟩
    rcases commit_events hbefore hcheck hdenies hcommit with ⟨-, _, ⟨⟩, -⟩ | ⟨a, r, hnone, hlog⟩
    rcases hlog with ⟨-, hlog⟩ | ⟨⟨⟩, -⟩
    exact ⟨_, hlog, a, r, [], by rw [hparent], hnone, rfl⟩
  · have hprogress := hsame hcommit
    rcases commit_events hbefore hcheck hdenies hcommit with ⟨⟨new, hlog, hnone⟩, e', heq, he⟩ |
      ⟨a, r, hnone, hlog⟩
    · cases heq
      have hvalue : e.Controlled := by
        refine raises_commit (Q := Exc.Controlled) (fun _ => trivial) (fun _ _ => trivial)
          (fun _ => trivial) (fun before hmem => ?_) hdenies _ _ _ hcommit
        split at hmem <;> cases hmem
        exact raises_bind (raises_create.mono fun _ => Exc.IsPatch.controlled) fun _ => raises_pure
      have hend : out = .error e ∧ u.log = v.log ∧ u.progress.mutated = false ∧
          u.progress.pendingDurability = v.progress.pendingDurability := by
        cases e with
        | commit reason replaced =>
          cases he
          obtain ⟨rfl, rfl⟩ : out = .error (.commit reason false) ∧
              u = { v with progress := { v.progress with mutated := false } } := by
            cases hfailed
            exact ⟨rfl, rfl⟩
          exact ⟨rfl, rfl, rfl, rfl⟩
        | value | recursion => exact hvalue.elim
        | _ =>
          obtain ⟨rfl, rfl⟩ := raise_eq_iff.mp hfailed
          exact ⟨rfl, rfl, by rw [hprogress, hw], rfl⟩
      obtain ⟨rfl, hend, hmutated, hpending⟩ := hend
      exact ⟨by rw [hpending, hprogress], Or.inl ⟨e, new, rfl, hvalue, hmutated, hend.trans hlog,
        hnone⟩⟩
    · obtain ⟨hraised, hreplaced⟩ := hlog.resolve_left (by rintro ⟨h, -⟩; cases h)
      cases hraised
      obtain ⟨_, x, hobserve, hraise⟩ : ∃ o x, observeReplacedTarget env target
          { v with progress := { v.progress with mutated := true } } = (o, x) ∧
          out = .error (.commit .durabilityUnconfirmed true) ∧ u = x := by
        rcases bind_eq_iff.mp (show ((observeReplacedTarget env target >>= fun _ =>
          raise (.commit .durabilityUnconfirmed true) : Io Unit)
            { v with progress := { v.progress with mutated := true } }) = (out, u) from hfailed) with
          ⟨e', hobserve, rfl⟩ | ⟨_, x, hobserve, hraise⟩
        · cases (observe_run hobserve).1
        · obtain ⟨rfl, rfl⟩ := raise_eq_iff.mp hraise
          exact ⟨_, u, hobserve, rfl, rfl⟩
      obtain ⟨rfl, rfl⟩ := hraise
      obtain ⟨-, hpending, hmutated, new, hcalls, hall⟩ := observe_run hobserve
      refine ⟨by rw [hpending, hprogress], Or.inr (Or.inl ⟨a, r, .call :: new, rfl, hmutated, ?_,
        hnone, fun e he => ?_⟩)⟩
      · rw [hcalls, hreplaced]
        simp only [List.append_assoc, List.cons_append, List.nil_append]
      · exact (List.mem_cons.mp he).elim id (hall e)

theorem inspect_status (parsed : PatchEngine.ParsedPatch) (raw : Bytes) :
    (PatchEngine.inspect parsed raw).status ≠ .securityError := by
  unfold PatchEngine.inspect
  cases htext : PatchEngine.text raw maxTargetBytes with
  | error error =>
    unfold PatchEngine.text at htext
    split at htext
    · cases htext
      nofun
    split at htext
    · cases htext
      nofun
    split at htext
    · cases htext
      nofun
    simp only at htext
    split at htext
    · cases htext
      nofun
    · cases htext
  | ok pair =>
    simp only
    unfold PatchEngine.verdict
    split
    · nofun
    · nofun
    · simp only
      split <;> nofun
    · simp only
      split <;> nofun

/-- What follows a commit replaces nothing, and its result is no denial. -/
theorem afterCommit_events {parsed : PatchEngine.ParsedPatch} {out : Except Exc ReconcileResult}
    (h : afterCommit env job.manager parsed target t = (out, u)) :
    u.progress.mutated = true ∧ u.progress.pendingDurability = t.progress.pendingDurability ∧
      (∃ new, u.log = t.log ++ new ∧ replacements new = []) ∧
      ((∃ result, out = .ok result ∧ result.inspection.status ≠ .securityError) ∨
        ∃ e, out = .error (.patch e)) := by
  have hpatch {e : Exc} (he : e.IsPatch) : ∃ error, e = .patch error := by
    cases e with
    | patch error => exact ⟨error, rfl⟩
    | _ => exact he.elim
  obtain ⟨_, t₁, hrecord, h⟩ : ∃ o t₁, record (fun progress => { progress with mutated := true }) t =
      (.ok o, t₁) ∧ (do
        let current ← target.read env
        record fun progress => { progress with targetSha256 := some current.sha256 }
        let inspection := PatchEngine.inspect parsed current.data
        job.manager.prune env
        result inspection inspection.reason : Io ReconcileResult) t₁ = (out, u) := ⟨(), _, rfl, h⟩
  obtain ⟨-, rfl⟩ := change_eq_iff.mp hrecord
  rcases bind_eq_iff.mp h with ⟨e, hread, rfl⟩ | ⟨current, t₂, hread, h⟩
  · have hsteps := (does_guardedRead (L := OnlyCalls) trivial).of_eq hread
    have hsame := Steps.progress hsteps id
    obtain ⟨new, hlog, hnone⟩ := Steps.unreplaced hsteps fun _ _ => id
    obtain ⟨error, rfl⟩ := hpatch (raises_guardedRead _ _ _ hread)
    exact ⟨by rw [hsame], by rw [hsame], ⟨new, hlog, hnone⟩, Or.inr ⟨error, rfl⟩⟩
  have hsteps := (does_guardedRead (L := OnlyCalls) trivial).of_eq hread
  have hsame := Steps.progress hsteps id
  obtain ⟨new, hlog, hnone⟩ := Steps.unreplaced hsteps fun _ _ => id
  obtain ⟨_, t₃, hrecord, h⟩ : ∃ o t₃, record
      (fun progress => { progress with targetSha256 := some current.sha256 }) t₂ = (.ok o, t₃) ∧
      (job.manager.prune env >>= fun _ => result (PatchEngine.inspect parsed current.data)
        (PatchEngine.inspect parsed current.data).reason) t₃ = (out, u) := ⟨(), _, rfl, h⟩
  obtain ⟨-, rfl⟩ := change_eq_iff.mp hrecord
  have hprunes : Does env Plain (job.manager.prune env) :=
    does_prune_among trivial (fun _ => trivial) (fun _ => trivial) fun _ _ => trivial
  have hpruned {t' : World} {o : Except Exc Unit} (hprune : (job.manager.prune env) { t₂ with
      progress := { t₂.progress with targetSha256 := some current.sha256 } } = (o, t')) :
      t'.progress.mutated = true ∧ t'.progress.pendingDurability = t.progress.pendingDurability ∧
        ∃ new, t'.log = t.log ++ new ∧ replacements new = [] := by
    obtain ⟨new', hlog', hnone'⟩ := Steps.plain (hprunes.of_eq hprune)
    have hsame' := Steps.progress (hprunes.of_eq hprune) id
    refine ⟨?_, ?_, new ++ new', ?_, by rw [replacements_append, hnone, hnone']; rfl⟩
    · rw [hsame']
      change t₂.progress.mutated = true
      rw [hsame]
    · rw [hsame']
      change t₂.progress.pendingDurability = _
      rw [hsame]
    · rw [hlog', ← List.append_assoc]
      exact congrArg (· ++ new') hlog
  rcases bind_eq_iff.mp h with ⟨e, hprune, rfl⟩ | ⟨_, t₄, hprune, hresult⟩
  · obtain ⟨hmutated, hpending, hevents⟩ := hpruned hprune
    obtain ⟨error, rfl⟩ := hpatch (raises_prune _ _ _ hprune)
    exact ⟨hmutated, hpending, hevents, Or.inr ⟨error, rfl⟩⟩
  · obtain ⟨hmutated, hpending, hevents⟩ := hpruned hprune
    rw [result, read_bind] at hresult
    obtain ⟨rfl, rfl⟩ := pure_eq_iff.mp hresult
    exact ⟨hmutated, hpending, hevents, Or.inl ⟨_, rfl, inspect_status _ _⟩⟩

/-- How the `with` block of an attempt ends. -/
inductive Block (env : Env) (reconciler : Reconciler) (job : Job) (parsed : PatchEngine.ParsedPatch)
    (target : GuardedFile) (t u : World) : Except Exc ReconcileResult → Prop
  | unread {e : Exc} (raised : e.IsPatch ∨ e = .commit .durabilityUnconfirmed true)
      (mutated : u.progress.mutated = false)
      (pending : u.progress.pendingDurability = t.progress.pendingDurability)
      (unreplaced : ∃ new, u.log = t.log ++ new ∧ replacements new = []) :
      Block env reconciler job parsed target t u (.error e)
  | kept {out : Except Exc ReconcileResult} (controlled : ∀ e, out = .error e → e.Controlled)
      (mutated : u.progress.mutated = false) (pending : u.progress.pendingDurability = false)
      (confirmed : t.progress.pendingDurability = true → Confirms env target t)
      (unreplaced : ∃ new, u.log = t.log ++ new ∧ replacements new = []) :
      Block env reconciler job parsed target t u out
  | unsynced (mutated : u.progress.mutated = true) (pending : u.progress.pendingDurability = false)
      (confirmed : t.progress.pendingDurability = true → Confirms env target t)
      (log : ∃ a r b, u.log = t.log ++ (a ++ .replaced r :: b) ∧ replacements a = [] ∧
        ∀ e ∈ b, e = .call) :
      Block env reconciler job parsed target t u (.error (.commit .durabilityUnconfirmed true))
  | synced {out : Except Exc ReconcileResult} {v : World}
      (commits : Commits env reconciler job parsed target t v)
      (after : afterCommit env job.manager parsed target v = (out, u))
      (mutated : u.progress.mutated = true) (pending : u.progress.pendingDurability = false)
      (confirmed : t.progress.pendingDurability = true → Confirms env target t)
      (log : ∃ new, u.log = t.log ++ new ∧ Synced job new) :
      Block env reconciler job parsed target t u out

theorem block_run {parsed : PatchEngine.ParsedPatch} {out : Except Exc ReconcileResult}
    (htarget : target.path = job.target) (hw : t.progress.mutated = false)
    (h : inspectAndReplace env reconciler job parsed target t = (out, u)) :
    Block env reconciler job parsed target t u out := by
  rcases bind_eq_iff.mp h with ⟨e, hread, rfl⟩ | ⟨snapshot, v, hread, h⟩
  · obtain ⟨hmutated, ⟨e', heq, hraised, hpending⟩ | ⟨_, ⟨⟩, -⟩⟩ := readTarget_run hread
    cases heq
    exact .unread hraised (hmutated.trans hw) hpending
      (Steps.unreplacing (does_readTarget_unreplacing.of_eq hread))
  obtain ⟨hmutated, ⟨_, ⟨⟩, -⟩ | ⟨_, heq, hpending, hconfirmed⟩⟩ := readTarget_run hread
  cases heq
  have hmutated := hmutated.trans hw
  obtain ⟨new, hlog, hnone⟩ := Steps.unreplacing (does_readTarget_unreplacing.of_eq hread)
  have hresult {inspection : PatchInspection} {error : Option Reason}
      (hresult : result inspection error v = (out, u)) :
      Block env reconciler job parsed target t u out := by
    rw [result, read_bind] at hresult
    obtain ⟨rfl, rfl⟩ := pure_eq_iff.mp hresult
    exact .kept (by rintro _ ⟨⟩) hmutated hpending hconfirmed ⟨new, hlog, hnone⟩
  split at h
  · exact hresult h
  rename_i happlicable
  cases houtput : outputForAction job.definition (PatchEngine.inspect parsed snapshot.data)
      job.action with
  | none =>
    rw [houtput] at h
    exact hresult h
  | some output =>
    rw [houtput] at h
    rcases bind_eq_iff.mp h with ⟨e, hmake, rfl⟩ | ⟨manager, v', hmake, h⟩
    · obtain ⟨herror, rfl⟩ := lift_eq_iff.mp hmake
      refine .kept ?_ hmutated hpending hconfirmed ⟨new, hlog, hnone⟩
      obtain ⟨error, -, rfl⟩ := Results.mapError_eq_error.mp herror.symm
      rintro e ⟨⟩
      trivial
    obtain ⟨hmanager, rfl⟩ := ofPatch_ok hmake
    have hmade := hmanager
    obtain rfl := make_ok hmanager
    rcases bind_eq_iff.mp h with ⟨e, hcommit, rfl⟩ | ⟨_, x, hcommit, hafter⟩
    · obtain ⟨hsame, ⟨e', new', heq, hvalue, hfinal, hlog', hnone'⟩ | ⟨a, r, b, heq, hfinal, hlog',
        hfirst, hcalls⟩ | ⟨⟨⟩, -⟩⟩ := commitOutput_events htarget hmutated hcommit
      · cases heq
        refine .kept (fun e h => Except.error.inj h ▸ hvalue) hfinal (hsame.trans hpending) hconfirmed
          ⟨new ++ new', ?_, by rw [replacements_append, hnone, hnone']; rfl⟩
        rw [hlog', hlog, List.append_assoc]
      · cases heq
        refine .unsynced hfinal (hsame.trans hpending) hconfirmed ⟨new ++ a, r, b, ?_,
          by rw [replacements_append, hnone, hfirst]; rfl, hcalls⟩
        rw [hlog', hlog]
        simp only [List.append_assoc]
    · obtain ⟨hsame, ⟨_, _, ⟨⟩, -⟩ | ⟨_, _, _, ⟨⟩, -⟩ | ⟨-, new', hlog', a, r, b, hsynced, ha, hb⟩⟩ :=
        commitOutput_events htarget hmutated hcommit
      obtain ⟨hfinal, hsame', ⟨last, hlast, hnone'⟩, -⟩ := afterCommit_events hafter
      refine .synced ⟨hmade, snapshot, v', output, hread, happlicable, houtput, hcommit⟩ hafter hfinal
        (hsame'.trans (hsame.trans hpending)) hconfirmed ⟨new ++ new' ++ last, ?_, new ++ a, r,
          b ++ last, ?_, ?_, ?_⟩
      · rw [hlast, hlog', hlog]
        simp only [List.append_assoc]
      · rw [hsynced]
        simp only [List.append_assoc, List.cons_append]
      · rw [replacements_append, hnone, ha]
        rfl
      · rw [replacements_append, hb, hnone']
        rfl

end Block

/-! ## Runs -/

/-- The inspection of a run that leaves the durability of its target open. -/
def PatchInspection.unconfirmed : PatchInspection :=
  { status := .applyError, reason := some .durabilityUnconfirmed }

/-- How the attempts of a run end, of which the first begins in `w`. -/
inductive Outcome (env : Env) (reconciler : Reconciler) (job : Job) (later : Nat) (w w' : World) :
    Except Exc ReconcileResult → Prop
  | raised (unreplaced : ∃ new, w'.log = w.log ++ new ∧ replacements new = []) :
      Outcome env reconciler job later w w' (.error .value)
  | kept {result : ReconcileResult}
      (unreplaced : ∃ new, w'.log = w.log ++ new ∧ replacements new = [])
      (pending : w.progress.pendingDurability = true → Confirmed env reconciler job later w ∨
        Unclosed env reconciler job later w ∨ result.inspection.status = .securityError ∨
          result.inspection = .unconfirmed) :
      Outcome env reconciler job later w w' (.ok result)
  | unsynced {result : ReconcileResult}
      (log : ∃ a r b, w'.log = w.log ++ (a ++ .replaced r :: b) ∧ replacements a = [] ∧
        ∀ e ∈ b, e = .call)
      (allowed : result.inspection.status ≠ .securityError)
      (reported : Unclosed env reconciler job later w ∨ result.inspection = .unconfirmed) :
      Outcome env reconciler job later w w' (.ok result)
  | synced {result : ReconcileResult} (log : ∃ new, w'.log = w.log ++ new ∧ Synced job new)
      (confirmed : w.progress.pendingDurability = true → Confirmed env reconciler job later w)
      (denied : result.inspection.status = .securityError → Denied env reconciler job later w) :
      Outcome env reconciler job later w w' (.ok result)

theorem log_trans {w'' : World} {a b : List Event} (ha : w'.log = w.log ++ a)
    (hb : w''.log = w'.log ++ b) : w''.log = w.log ++ (a ++ b) := by
  rw [hb, ha, List.append_assoc]

theorem Synced.around {a new b : List Event} (h : Synced job new) (ha : replacements a = [])
    (hb : replacements b = []) : Synced job (a ++ new ++ b) := by
  obtain ⟨before, r, later, rfl, hbefore, hlater⟩ := h
  refine ⟨a ++ before, r, later ++ b, ?_, ?_, ?_⟩
  · simp only [List.append_assoc, List.cons_append]
  · rw [replacements_append, ha, hbefore]
    rfl
  · rw [replacements_append, hlater, hb]
    rfl

/-- What the later attempts of a run come to, the run comes to. -/
theorem Outcome.again {later : Nat} {u : World} {e : Exc} {out : Except Exc ReconcileResult}
    (h : Outcome env reconciler job later u w' out)
    (hfailed : attempt env reconciler job w = (.error e, u)) (hretries : Retries e u)
    (hunreplaced : ∃ new, u.log = w.log ++ new ∧ replacements new = [])
    (hpending : (w.progress.pendingDurability = true →
      Confirmed env reconciler job (later + 1) w) ∨
        u.progress.pendingDurability = w.progress.pendingDurability) :
    Outcome env reconciler job (later + 1) w w' out := by
  obtain ⟨new, hlog, hnone⟩ := hunreplaced
  have hconfirmed (h : Confirmed env reconciler job later u) :
      Confirmed env reconciler job (later + 1) w := by
    obtain ⟨parsed, target, t, hreaches, hrest⟩ := h
    exact ⟨parsed, target, t, .again hfailed hretries hreaches, hrest⟩
  have hunclosed (h : Unclosed env reconciler job later u) :
      Unclosed env reconciler job (later + 1) w := by
    obtain ⟨parsed, target, t, out, v, e', x, hreaches, hrest⟩ := h
    exact ⟨parsed, target, t, out, v, e', x, .again hfailed hretries hreaches, hrest⟩
  cases h with
  | raised hend =>
    obtain ⟨new', hlog', hnone'⟩ := hend
    exact .raised ⟨_, log_trans hlog hlog', by rw [replacements_append, hnone, hnone']; rfl⟩
  | kept hend hreported =>
    obtain ⟨new', hlog', hnone'⟩ := hend
    refine .kept ⟨_, log_trans hlog hlog', by rw [replacements_append, hnone, hnone']; rfl⟩
      fun hp => ?_
    rcases hpending with hpending | hpending
    · exact Or.inl (hpending hp)
    · exact (hreported (hpending.trans hp)).imp hconfirmed (Or.imp_left hunclosed)
  | unsynced hend hallowed hreported =>
    obtain ⟨a, r, b, hlog', hfirst, hcalls⟩ := hend
    refine .unsynced ⟨new ++ a, r, b, ?_, by rw [replacements_append, hnone, hfirst]; rfl, hcalls⟩
      hallowed (hreported.imp_left hunclosed)
    rw [log_trans hlog hlog', List.append_assoc]
  | synced hend hend' hdenied =>
    obtain ⟨new', hlog', hsynced⟩ := hend
    refine .synced ⟨_, log_trans hlog hlog', ?_⟩ (fun hp => ?_) fun hstatus => ?_
    · rw [← List.append_nil (new ++ new')]
      exact hsynced.around hnone rfl
    · rcases hpending with hpending | hpending
      · exact hpending hp
      · exact hconfirmed (hend' (hpending.trans hp))
    · obtain ⟨parsed, target, t, v, e', x, hreaches, hrest⟩ := hdenied hstatus
      exact ⟨parsed, target, t, v, e', x, .again hfailed hretries hreaches, hrest⟩

theorem reported_commit (pendingDurability replaced : Bool) :
    reported pendingDurability (.commit .durabilityUnconfirmed replaced) = .unconfirmed := by
  unfold reported
  simp only [Exc.patchError?]
  split <;> rfl

theorem reported_pending {e : Exc} (h : e.patchError?.isSome) :
    (reported true e).status = .securityError ∨ reported true e = .unconfirmed := by
  obtain ⟨error, herror⟩ := Option.isSome_iff_exists.mp h
  unfold reported
  rw [herror]
  simp only
  split
  · exact Or.inr rfl
  · rename_i hsecurity
    exact Or.inl (by simpa using hsecurity)

/-- The `with` block of an attempt that begins in `w`, and how it ends. -/
theorem attempt_block {out : Except Exc ReconcileResult} (hw : w.progress.mutated = false)
    (h : attempt env reconciler job w = (out, w')) :
    (∃ e, out = .error e ∧ (e.IsPatch ∨ e = .value) ∧ Steps env Looks w w') ∨
      ∃ parsed target t out' u, (∀ later, Reaches env reconciler job later w parsed target t) ∧
        Steps env Looks w t ∧ inspectAndReplace env reconciler job parsed target t = (out', u) ∧
        Block env reconciler job parsed target t u out' ∧ Steps env OnlyCalls u w' ∧
        ((target.exit env u = (.ok (), w') ∧ out = out') ∨
          ∃ e, target.exit env u = (.error (.os e), w') ∧ out = .error (.os e)) := by
  rcases attempt_split h with hearly | ⟨parsed, target, t, out', u, henters, hto, htarget, hbody,
    hfrom, hexit⟩
  · exact Or.inl hearly
  · have hmutated : t.progress.mutated = false := by rw [hto.looked.1, hw]
    exact Or.inr ⟨parsed, target, t, out', u, fun _ => .first henters, hto, hbody,
      block_run htarget hmutated hbody, hfrom, hexit⟩

/-- An attempt that has replaced nothing and fails has confirmed the durability of its target, or
has left it open. -/
structure FailedEarly (env : Env) (reconciler : Reconciler) (job : Job) (w u : World) (e : Exc) :
    Prop where
  mutated : u.progress.mutated = false
  unreplaced : ∃ new, u.log = w.log ++ new ∧ replacements new = []
  pending : (w.progress.pendingDurability = true →
      ∀ later, Confirmed env reconciler job later w) ∨
    u.progress.pendingDurability = w.progress.pendingDurability ∧
      (e.patchError?.isSome ∨ e.IsOs ∧ (w.progress.pendingDurability = true →
        ∀ later, Unclosed env reconciler job later w))

/-- An attempt that has replaced its target and fails. -/
structure FailedLate (env : Env) (reconciler : Reconciler) (job : Job) (w u : World) (e : Exc) :
    Prop where
  mutated : u.progress.mutated = true
  pending : u.progress.pendingDurability = false
  confirmed : w.progress.pendingDurability = true → ∀ later, Confirmed env reconciler job later w
  log : ((∃ a r b, u.log = w.log ++ (a ++ .replaced r :: b) ∧ replacements a = [] ∧
      ∀ e ∈ b, e = .call) ∧
      (e = .commit .durabilityUnconfirmed true ∨
        e.IsOs ∧ ∀ later, Unclosed env reconciler job later w)) ∨
    (∃ new, u.log = w.log ++ new ∧ Synced job new) ∧
      (e.IsOs ∨ ∃ error, e = .patch error ∧ (error.status = .securityError →
        ∀ later, Denied env reconciler job later w))

theorem attempt_failed {u : World} {e : Exc} (hw : w.progress.mutated = false)
    (h : attempt env reconciler job w = (.error e, u)) :
    (e = .value ∧ ∃ new, u.log = w.log ++ new ∧ replacements new = []) ∨
      (e.Controlled ∧ FailedEarly env reconciler job w u e) ∨
        (e.Controlled ∧ FailedLate env reconciler job w u e) := by
  rcases attempt_block hw h with ⟨e', heq, hpatch | rfl, hlooks⟩ | ⟨parsed, target, t, out', v,
    hreaches, hto, hbody, hblock, hfrom, hexit⟩
  · cases heq
    obtain ⟨hsame, hunreplaced⟩ := hlooks.looked
    have hsome : e.patchError?.isSome := by
      cases e with
      | patch error => rfl
      | _ => exact hpatch.elim
    exact Or.inr (Or.inl ⟨hpatch.controlled, by rw [hsame, hw], hunreplaced,
      Or.inr ⟨by rw [hsame], Or.inl hsome⟩⟩)
  · cases heq
    exact Or.inl ⟨rfl, hlooks.looked.2⟩
  obtain ⟨hsame, new, hlog, hnone⟩ := hto.looked
  obtain ⟨hsame', last, hlast, hcalls⟩ := hfrom.called
  have hnone' : replacements last = [] := replacements_calls hcalls
  have hconfirmed (hconfirms : t.progress.pendingDurability = true → Confirms env target t)
      (hp : w.progress.pendingDurability = true) (later : Nat) :
      Confirmed env reconciler job later w := by
    rw [← hsame] at hp
    exact ⟨parsed, target, t, hreaches later, hp, hconfirms hp⟩
  have hunreplaced (h : ∃ new, v.log = t.log ++ new ∧ replacements new = []) :
      ∃ new, u.log = w.log ++ new ∧ replacements new = [] := by
    obtain ⟨middle, hmiddle, hnone''⟩ := h
    refine ⟨_, log_trans (log_trans hlog hmiddle) hlast, ?_⟩
    rw [replacements_append, replacements_append, hnone, hnone', hnone'']
    rfl
  have hsynced (h : ∃ new, v.log = t.log ++ new ∧ Synced job new) :
      ∃ new, u.log = w.log ++ new ∧ Synced job new := by
    obtain ⟨middle, hmiddle, hsynced⟩ := h
    exact ⟨_, log_trans (log_trans hlog hmiddle) hlast, hsynced.around hnone hnone'⟩
  have hunsynced (h : ∃ a r b, v.log = t.log ++ (a ++ .replaced r :: b) ∧ replacements a = [] ∧
      ∀ e ∈ b, e = .call) : ∃ a r b, u.log = w.log ++ (a ++ .replaced r :: b) ∧
        replacements a = [] ∧ ∀ e ∈ b, e = .call := by
    obtain ⟨a, r, b, hmiddle, hfirst, hcalls'⟩ := h
    refine ⟨new ++ a, r, b ++ last, ?_, by rw [replacements_append, hnone, hfirst]; rfl,
      fun e he => (List.mem_append.mp he).elim (hcalls' e) (hcalls e)⟩
    rw [log_trans (log_trans hlog hmiddle) hlast]
    simp only [List.append_assoc, List.cons_append]
  have hunclosed {e : OsError} (hexit : target.exit env v = (.error (.os e), u))
      (hopen : v.progress.pendingDurability = true ∨
        out' = .error (.commit .durabilityUnconfirmed true)) (later : Nat) :
      Unclosed env reconciler job later w :=
    ⟨parsed, target, t, out', v, _, _, hreaches later, hbody, hexit, hopen⟩
  rcases hexit with ⟨hexit, rfl⟩ | ⟨e', hexit, heq⟩
  · cases hblock with
    | unread hraised hmutated hpending hnone =>
      have hsome : e.patchError?.isSome := by
        rcases hraised with hpatch | rfl
        · cases e with
          | patch error => rfl
          | _ => exact hpatch.elim
        · rfl
      have hvalue : e.Controlled := by
        cases e with
        | os | value | recursion => cases hsome
        | _ => trivial
      exact Or.inr (Or.inl ⟨hvalue, by rw [hsame', hmutated], hunreplaced hnone,
        Or.inr ⟨by rw [hsame', hpending, hsame], Or.inl hsome⟩⟩)
    | kept hcontrolled hmutated hpending hconfirms hnone =>
      exact Or.inr (Or.inl ⟨hcontrolled e rfl,
        by rw [hsame', hmutated], hunreplaced hnone, Or.inl (hconfirmed hconfirms)⟩)
    | unsynced hmutated hpending hconfirms hend =>
      exact Or.inr (Or.inr ⟨trivial, by rw [hsame', hmutated], by rw [hsame', hpending],
        hconfirmed hconfirms, Or.inl ⟨hunsynced hend, Or.inl rfl⟩⟩)
    | synced hcommits hafter hmutated hpending hconfirms hend =>
      obtain ⟨-, -, -, ⟨_, ⟨⟩, -⟩ | ⟨error, heq⟩⟩ := afterCommit_events hafter
      cases heq
      refine Or.inr (Or.inr ⟨trivial, by rw [hsame', hmutated], by rw [hsame', hpending],
        hconfirmed hconfirms, Or.inr ⟨hsynced hend, Or.inr ⟨error, rfl, fun hstatus later => ?_⟩⟩⟩)
      exact ⟨parsed, target, t, _, error, v, hreaches later, hcommits, hafter, hstatus, by rw [hexit]⟩
  · cases heq
    cases hblock with
    | unread hraised hmutated hpending hnone =>
      refine Or.inr (Or.inl ⟨trivial, by rw [hsame', hmutated], hunreplaced hnone,
        Or.inr ⟨by rw [hsame', hpending, hsame], Or.inr ⟨trivial, fun hp => hunclosed hexit (Or.inl ?_)⟩⟩⟩)
      rw [hpending, hsame, hp]
    | kept hcontrolled hmutated hpending hconfirms hnone =>
      exact Or.inr (Or.inl ⟨trivial, by rw [hsame', hmutated], hunreplaced hnone,
        Or.inl (hconfirmed hconfirms)⟩)
    | unsynced hmutated hpending hconfirms hend =>
      exact Or.inr (Or.inr ⟨trivial, by rw [hsame', hmutated], by rw [hsame', hpending],
        hconfirmed hconfirms, Or.inl ⟨hunsynced hend,
          Or.inr ⟨trivial, hunclosed hexit (Or.inr rfl)⟩⟩⟩)
    | synced hcommits hafter hmutated hpending hconfirms hend =>
      exact Or.inr (Or.inr ⟨trivial, by rw [hsame', hmutated], by rw [hsame', hpending],
        hconfirmed hconfirms, Or.inr ⟨hsynced hend, Or.inl trivial⟩⟩)

/-- What an attempt comes to that returns. -/
theorem attempt_returned {result : ReconcileResult} (hw : w.progress.mutated = false)
    (h : attempt env reconciler job w = (.ok result, w')) (later : Nat) :
    Outcome env reconciler job later w w' (.ok result) := by
  rcases attempt_block hw h with ⟨_, ⟨⟩, -⟩ | ⟨parsed, target, t, out', u, hreaches, hto, hbody, hblock,
    hfrom, ⟨hexit, rfl⟩ | ⟨_, -, ⟨⟩⟩⟩
  obtain ⟨hsame, new, hlog, hnone⟩ := hto.looked
  obtain ⟨-, last, hlast, hcalls⟩ := hfrom.called
  have hnone' : replacements last = [] := replacements_calls hcalls
  have hconfirmed (hconfirms : t.progress.pendingDurability = true → Confirms env target t)
      (hp : w.progress.pendingDurability = true) : Confirmed env reconciler job later w := by
    rw [← hsame] at hp
    exact ⟨parsed, target, t, hreaches later, hp, hconfirms hp⟩
  cases hblock with
  | kept hcontrolled hmutated hpending hconfirms hunreplaced =>
    obtain ⟨middle, hmiddle, hnone''⟩ := hunreplaced
    refine .kept ⟨_, log_trans (log_trans hlog hmiddle) hlast, ?_⟩ fun hp =>
      Or.inl (hconfirmed hconfirms hp)
    rw [replacements_append, replacements_append, hnone, hnone', hnone'']
    rfl
  | synced hcommits hafter hmutated hpending hconfirms hend =>
    obtain ⟨middle, hmiddle, hsynced⟩ := hend
    refine .synced ⟨_, log_trans (log_trans hlog hmiddle) hlast, hsynced.around hnone hnone'⟩
      (hconfirmed hconfirms) fun hstatus => ?_
    obtain ⟨-, -, -, ⟨result', heq, hne⟩ | ⟨_, ⟨⟩⟩⟩ := afterCommit_events hafter
    cases heq
    exact absurd hstatus hne

/-- What an attempt comes to that fails and is reported. -/
theorem attempt_reported {e : Exc} {result : ReconcileResult} (hw : w.progress.mutated = false)
    (h : attempt env reconciler job w = (.error e, w')) (he : e.Controlled)
    (hresult : result.inspection = reported w'.progress.pendingDurability e) (later : Nat) :
    Outcome env reconciler job later w w' (.ok result) := by
  rcases attempt_failed hw h with ⟨rfl, -⟩ | ⟨-, hfailed⟩ | ⟨-, hfailed⟩
  · exact he.elim
  · refine .kept hfailed.unreplaced fun hp => ?_
    rcases hfailed.pending with hconfirmed | ⟨hpending, hsome | ⟨-, hunclosed⟩⟩
    · exact Or.inl (hconfirmed hp later)
    · rw [hpending, hp] at hresult
      rw [hresult]
      exact Or.inr (Or.inr (reported_pending hsome))
    · exact Or.inr (Or.inl (hunclosed hp later))
  · have hos (hos : e.IsOs) : result.inspection.status = .applyError := by
      cases e with
      | os error =>
        rw [hresult]
        rfl
      | _ => exact hos.elim
    rcases hfailed.log with ⟨hlog, hend⟩ | ⟨hlog, hend⟩
    · rcases hend with rfl | ⟨hisOs, hunclosed⟩
      · rw [reported_commit] at hresult
        refine .unsynced hlog ?_ (Or.inr hresult)
        rw [hresult]
        nofun
      · refine .unsynced hlog ?_ (Or.inl (hunclosed later))
        rw [hos hisOs]
        nofun
    · refine .synced hlog (fun hp => hfailed.confirmed hp later) fun hstatus => ?_
      rcases hend with hisOs | ⟨error, rfl, hdenied⟩
      · rw [hos hisOs] at hstatus
        cases hstatus
      · rw [hfailed.pending] at hresult
        refine hdenied ?_ later
        rw [hresult] at hstatus
        exact hstatus

/-- How the attempts of a run end. -/
theorem attempts_outcome {later : Nat} {out : Except Exc ReconcileResult}
    (hw : w.progress.mutated = false) (h : attempts env reconciler job later w = (out, w')) :
    Outcome env reconciler job later w w' out := by
  -- One round, with the outcome of the attempts after it where there are any.
  have hround {retry : Option (Io ReconcileResult)} {w w' : World} {later : Nat}
      {out : Except Exc ReconcileResult} (hw : w.progress.mutated = false)
      (h : rescue (attempt env reconciler job) (report retry) w = (out, w')) :
      Outcome env reconciler job later w w' out ∨ ∃ again ∈ retry, ∃ e u,
        attempt env reconciler job w = (.error e, u) ∧ Retries e u ∧ again u = (out, w') ∧
          FailedEarly env reconciler job w u e := by
    rcases rescue_eq_iff.mp h with ⟨result, hattempt, rfl⟩ | ⟨e, u, hattempt, hreport⟩
    · exact Or.inl (attempt_returned hw hattempt later)
    rcases attempt_raises hattempt with he | ⟨rfl, -⟩
    swap
    · obtain ⟨rfl, rfl⟩ := raise_eq_iff.mp hreport
      rcases attempt_failed hw hattempt with ⟨-, hnone⟩ | ⟨hne, -⟩ | ⟨hne, -⟩
      · exact Or.inl (.raised hnone)
      · exact hne.elim
      · exact hne.elim
    rcases report_run he hreport with ⟨rfl, result, rfl, -, hresult⟩ | ⟨again, hagain, hretries,
      hrest⟩
    · exact Or.inl (attempt_reported hw hattempt he hresult later)
    · refine Or.inr ⟨again, hagain, e, u, hattempt, hretries, hrest, ?_⟩
      rcases attempt_failed hw hattempt with ⟨rfl, -⟩ | ⟨-, hfailed⟩ | ⟨-, hfailed⟩
      · exact he.elim
      · exact hfailed
      · cases hfailed.mutated.symm.trans hretries.mutated
  induction later generalizing w with
  | zero =>
    rcases hround hw h with hend | ⟨again, hagain, -⟩
    · exact hend
    · cases hagain
  | succ later ih =>
    rcases hround hw h with hend | ⟨again, hagain, e, u, hattempt, hretries, hrest, hfailed⟩
    · exact hend
    · cases hagain
      refine (ih hretries.mutated hrest).again hattempt hretries hfailed.unreplaced ?_
      exact hfailed.pending.imp (fun h hp => h hp _) And.left

theorem report_retries {again : Io ReconcileResult} {e : Exc} (h : Retries e w) :
    report (some again) e w = again w := by
  obtain ⟨⟨status, hview, hpending⟩, hmutated⟩ := h
  unfold report
  rw [read_bind, hview]
  simp only [hpending, hmutated, if_false]
  simp

theorem attempts_retries {later : Nat} {u : World} {e : Exc}
    (hfailed : attempt env reconciler job w = (.error e, u)) (hretries : Retries e u) :
    attempts env reconciler job (later + 1) w = attempts env reconciler job later u := by
  rw [attempts, rescue, hfailed]
  exact report_retries hretries

theorem inspectAndReplace_of_commits {parsed : PatchEngine.ParsedPatch} {target : GuardedFile}
    {t u : World} (h : Commits env reconciler job parsed target t u) :
    inspectAndReplace env reconciler job parsed target t =
      afterCommit env job.manager parsed target u := by
  obtain ⟨hmade, snapshot, v, output, hread, happlicable, houtput, hcommit⟩ := h
  have hmanager : (ofPatch (BackupManager.make job.definition.patchId job.retention) :
      Io BackupManager) v = (.ok job.manager, v) := by
    rw [hmade]
    rfl
  unfold inspectAndReplace replaceTarget
  rw [bind_run, hread]
  simp only [if_neg happlicable, houtput, bind_run, hmanager, hcommit]

/-- A run that is denied after its commit reports a denial. -/
theorem attempts_denied {later : Nat} (hw : w.progress.mutated = false)
    (h : Denied env reconciler job later w) :
    ∃ result w', attempts env reconciler job later w = (.ok result, w') ∧
      result.inspection.status = .securityError ∧ ∃ new, w'.log = w.log ++ new ∧ Synced job new := by
  obtain ⟨parsed, target, t, u, e, v, hreaches, hcommits, hafter, hstatus, hexit⟩ := h
  induction hreaches with
  | @first later w t parsed target henters =>
    have hbody := (inspectAndReplace_of_commits hcommits).trans hafter
    obtain ⟨v', hexit⟩ : ∃ v', target.exit env v = (.ok (), v') := ⟨_, Prod.ext hexit rfl⟩
    have hattempt : attempt env reconciler job w = (.error (.patch e), v') := by
      rw [attempt_of_enters henters]
      exact ensure_eq_iff.mpr ⟨_, _, hbody, Or.inl ⟨hexit, rfl⟩⟩
    obtain ⟨hmutated, hlog⟩ : v'.progress.mutated = true ∧
        ∃ new, v'.log = w.log ++ new ∧ Synced job new := by
      rcases attempt_failed hw hattempt with ⟨⟨⟩, -⟩ | ⟨-, hearly⟩ | ⟨-, hlate⟩
      · obtain ⟨hmutated, -⟩ := afterCommit_events hafter
        have hsame := (Steps.called ((does_guardedExit (L := OnlyCalls) trivial).of_eq hexit)).1
        rw [← hsame, hearly.mutated] at hmutated
        cases hmutated
      · refine ⟨hlate.mutated, ?_⟩
        rcases hlate.log with ⟨-, hend⟩ | ⟨hlog, -⟩
        · rcases hend with heq | ⟨hos, -⟩
          · cases heq
          · exact hos.elim
        · exact hlog
    have hround (retry : Option (Io ReconcileResult)) : ∃ result, report retry (.patch e) v' =
        (.ok result, v') ∧ result.inspection.status = .securityError := by
      rcases hreport : report retry (.patch e) v' with ⟨out, w'⟩
      have hcontrolled : (Exc.patch e).Controlled := trivial
      rcases report_run hcontrolled hreport with ⟨rfl, result, rfl, -, hresult⟩ | ⟨again, -, hretries, -⟩
      · refine ⟨result, rfl, ?_⟩
        rw [hresult]
        unfold reported
        simp only [Exc.patchError?, hstatus, ne_eq, not_true_eq_false, and_false, if_false]
      · cases hmutated.symm.trans hretries.mutated
    cases later with
    | zero =>
      obtain ⟨result, hreport, hdenied⟩ := hround none
      exact ⟨result, v', rescue_eq_iff.mpr (Or.inr ⟨_, v', hattempt, hreport⟩), hdenied, hlog⟩
    | succ later =>
      obtain ⟨result, hreport, hdenied⟩ := hround (some (attempts env reconciler job later))
      exact ⟨result, v', rescue_eq_iff.mpr (Or.inr ⟨_, v', hattempt, hreport⟩), hdenied, hlog⟩
  | again hfailed hretries hreaches ih =>
    obtain ⟨result, w', hrun, hdenied, new', hlog', hsynced⟩ := ih hretries.mutated hcommits hafter hexit
    refine ⟨result, w', (attempts_retries hfailed hretries).trans hrun, hdenied, ?_⟩
    rcases attempt_failed hw hfailed with ⟨rfl, -⟩ | ⟨-, hearly⟩ | ⟨-, hlate⟩
    · obtain ⟨⟨_, ⟨⟩, -⟩, -⟩ := hretries
    · obtain ⟨new, hlog, hnone⟩ := hearly.unreplaced
      refine ⟨_, log_trans hlog hlog', ?_⟩
      rw [← List.append_nil (new ++ new')]
      exact hsynced.around hnone rfl
    · cases hlate.mutated.symm.trans hretries.mutated

theorem begun_mutated {pendingDurability : Bool} :
    (begun env job w pendingDurability).progress.mutated = false := rfl

theorem run_eq_attempts {pendingDurability : Bool} (henabled : job.definition.enabled = true) :
    run env reconciler job pendingDurability w =
      attempts env reconciler job 2 (begun env job w pendingDurability) := by
  change (if !job.definition.enabled then result { status := .disabled } (some .disabledPatch)
    else attempts env reconciler job 2) (begun env job w pendingDurability) = _
  rw [henabled, if_neg (by simp)]

/-- How the run of an enabled patch ends. -/
theorem run_outcome {pendingDurability : Bool} {out : Except Exc ReconcileResult}
    (henabled : job.definition.enabled = true)
    (h : run env reconciler job pendingDurability w = (out, w')) :
    Outcome env reconciler job 2 (begun env job w pendingDurability) w' out := by
  rw [run_eq_attempts henabled] at h
  exact attempts_outcome begun_mutated h

theorem run_disabled {pendingDurability : Bool} {out : Except Exc ReconcileResult}
    (hdisabled : job.definition.enabled = false)
    (h : run env reconciler job pendingDurability w = (out, w')) :
    w'.log = w.log ∧ ∃ result, out = .ok result ∧ result.inspection.status = .disabled := by
  change (if !job.definition.enabled then result { status := .disabled } (some .disabledPatch)
    else attempts env reconciler job 2) (begun env job w pendingDurability) = _ at h
  rw [hdisabled, if_pos (by rfl), result, read_bind] at h
  obtain ⟨rfl, rfl⟩ := pure_eq_iff.mp h
  exact ⟨rfl, _, rfl, rfl⟩

/-- An action without output replaces nothing. -/
theorem does_idle {pendingDurability : Bool}
    (h : ∀ inspection, outputForAction job.definition inspection job.action = none) :
    Does env Unreplacing (run env reconciler job pendingDurability) := by
  refine runs_run_of_attempt (does_record trivial) ?_
  have hresult : ∀ {inspection error}, Does env Unreplacing (result inspection error) :=
    runs_bind runs_read fun _ => runs_pure
  have hlooks : ∀ l, Looks l → Unreplacing l := fun l hl => by
    cases l <;> trivial
  refine runs_bind (PathPolicy.does_checkDefinition.mono fun l hl => hlooks l hl.looks) fun _ => ?_
  refine runs_bind runs_lift fun parsed => runs_bind (does_guardedEnter trivial) fun target => ?_
  refine runs_ensure (runs_bind does_readTarget_unreplacing fun snapshot => ?_) fun _ =>
    does_guardedExit trivial
  refine runs_ite (fun _ => hresult) fun _ => ?_
  rw [h]
  exact hresult

/-- What the report of a run that has left `new` says. -/
structure Reported (env : Env) (reconciler : Reconciler) (job : Job) (start : World)
    (new : List Event) (result : ReconcileResult) : Prop where
  once : (replacements new).length ≤ 1
  replaced : replacements new = [] ∨ Unsynced job new ∨ Synced job new
  denied : replacements new ≠ [] →
    (result.inspection.status = .securityError ↔ Denied env reconciler job 2 start)
  unsynced : Unsynced job new →
    result.inspection = .unconfirmed ∨ Unclosed env reconciler job 2 start
  pending : job.definition.enabled = true → start.progress.pendingDurability = true →
    Confirmed env reconciler job 2 start ∨ Unclosed env reconciler job 2 start ∨
      result.inspection.status = .securityError ∨ result.inspection = .unconfirmed
  disabled : job.definition.enabled = false →
    replacements new = [] ∧ result.inspection.status = .disabled

/-- A target that was replaced once and synced then is not one that was not synced. -/
theorem Synced.not_unsynced {new : List Event} (h : Synced job new) : ¬ Unsynced job new := by
  rintro ⟨a, r, b, hnew, hnever⟩
  obtain ⟨a', r', b', hsynced, ha', hb'⟩ := h
  rw [hnew] at hsynced
  rcases List.append_eq_append_iff.mp hsynced with ⟨c, rfl, hrest⟩ | ⟨c, rfl, hrest⟩
  · cases c with
    | nil =>
      obtain ⟨-, rfl⟩ := List.cons.inj (hrest : _ = [] ++ _)
      exact hnever (by simp)
    | cons e c =>
      obtain ⟨rfl, -⟩ := List.cons.inj (hrest : _ = (e :: c) ++ _)
      have hr : r ∈ replacements (a ++ .replaced r :: c) := mem_replacements.mpr (by simp)
      rw [ha'] at hr
      cases hr
  · cases c with
    | nil =>
      obtain ⟨-, rfl⟩ := List.cons.inj (hrest : _ = [] ++ _)
      exact hnever (by simp)
    | cons e c =>
      obtain ⟨rfl, hlater⟩ := List.cons.inj (hrest : _ = (e :: c) ++ _)
      have hr : r ∈ replacements b' := by
        have hmem : Event.replaced r ∈ Event.call :: Event.synced job.target.dropLast :: b' := by
          rw [hlater]
          simp
        simpa [mem_replacements] using hmem
      rw [hb'] at hr
      cases hr

theorem Unsynced.replaced {new : List Event} (h : Unsynced job new) : replacements new ≠ [] := by
  obtain ⟨a, r, b, rfl, -⟩ := h
  exact List.ne_nil_of_mem (mem_replacements.mpr (by simp : Event.replaced r ∈ a ++ .replaced r :: b))

theorem Synced.once {new : List Event} (h : Synced job new) : (replacements new).length ≤ 1 := by
  obtain ⟨a, r, b, rfl, ha, hb⟩ := h
  have hrest : replacements (.replaced r :: .call :: .synced job.target.dropLast :: b) =
      r :: replacements b := rfl
  rw [replacements_append, ha, hrest, hb]
  exact Nat.le_refl 1

/-- Whatever fails and whoever else acts, a run raises before it replaces anything, or it returns: it
reports a replacement that may not be on disk, and a denial just when it was denied. -/
theorem run_reported (pendingDurability : Bool) :
    ∃ new, (run env reconciler job pendingDurability w).2.log = w.log ++ new ∧
      (((run env reconciler job pendingDurability w).1 = .error .value ∧ replacements new = []) ∨
        ∃ result, (run env reconciler job pendingDurability w).1 = .ok result ∧
          Reported env reconciler job (begun env job w pendingDurability) new result) := by
  rcases hrun : run env reconciler job pendingDurability w with ⟨out, w'⟩
  cases henabled : job.definition.enabled with
  | false =>
    obtain ⟨hlog, result, rfl, hdisabled⟩ := run_disabled henabled hrun
    refine ⟨[], by rw [hlog, List.append_nil], Or.inr ⟨result, rfl, Nat.zero_le 1, Or.inl rfl,
      fun h => ?_, fun h => ?_, fun h => ?_, fun _ => ⟨rfl, hdisabled⟩⟩⟩
    · exact absurd rfl h
    · exact absurd rfl h.replaced
    · cases henabled.symm.trans h
  | true =>
    have hnever (P : Prop) (h : job.definition.enabled = false) : P := by
      cases henabled.symm.trans h
    have hdenied (hd : Denied env reconciler job 2 (begun env job w pendingDurability)) :
        ∃ result, out = .ok result ∧ result.inspection.status = .securityError := by
      obtain ⟨result, w'', hattempts, hstatus, -⟩ := attempts_denied begun_mutated hd
      rw [run_eq_attempts henabled, hattempts] at hrun
      cases hrun
      exact ⟨result, rfl, hstatus⟩
    have hsecurity {result : ReconcileResult} (hout : out = .ok result)
        (hd : Denied env reconciler job 2 (begun env job w pendingDurability)) :
        result.inspection.status = .securityError := by
      obtain ⟨result', hout', hstatus⟩ := hdenied hd
      cases hout.symm.trans hout'
      exact hstatus
    cases run_outcome henabled hrun with
    | raised hnone =>
      obtain ⟨new, hlog, hnil⟩ := hnone
      exact ⟨new, hlog, Or.inl ⟨rfl, hnil⟩⟩
    | kept hnone hpending =>
      rename_i result
      obtain ⟨new, hlog, hnil⟩ := hnone
      refine ⟨new, hlog, Or.inr ⟨result, rfl, by rw [hnil]; exact Nat.zero_le 1, Or.inl hnil,
        fun h => absurd hnil h, fun h => ?_, fun _ => hpending, hnever _⟩⟩
      exact absurd hnil h.replaced
    | unsynced hend hallowed hreported =>
      rename_i result
      obtain ⟨a, r, b, hlog, hfirst, hcalls⟩ := hend
      have hunsynced : Unsynced job (a ++ .replaced r :: b) :=
        ⟨a, r, b, rfl, fun h => by cases hcalls _ h⟩
      have honce : (replacements (a ++ .replaced r :: b)).length ≤ 1 := by
        have hrest : replacements (.replaced r :: b) = r :: replacements b := rfl
        rw [replacements_append, hfirst, hrest, replacements_calls hcalls]
        exact Nat.le_refl 1
      refine ⟨_, hlog, Or.inr ⟨result, rfl, honce, Or.inr (Or.inl hunsynced),
        fun _ => ⟨fun h => ?_, fun h => ?_⟩, fun _ => hreported.symm, fun _ _ => ?_, hnever _⟩⟩
      · exact absurd h hallowed
      · exact hsecurity rfl h
      · exact Or.inr (hreported.imp_right Or.inr)
    | synced hend hconfirmed hstatus =>
      rename_i result
      obtain ⟨new, hlog, hsynced⟩ := hend
      exact ⟨new, hlog, Or.inr ⟨result, rfl, hsynced.once, Or.inr (Or.inr hsynced),
        fun _ => ⟨hstatus, hsecurity rfl⟩, fun h => absurd h hsynced.not_unsynced,
        fun _ hpending => Or.inl (hconfirmed hpending), hnever _⟩⟩

end Hapatchy
