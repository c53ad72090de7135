import Hapatchy.AtomicWriter.Events
import Hapatchy.Reconciler.Report
import Hapatchy.YamlPolicy

/-!
# Writes and their authority

Nothing is assumed of the other programs, the grants or the live permission.
The last step before a replacement is a check that succeeds, and nothing but
the target, its temporary files and the backups is ever written.
-/

open Effects Prog

namespace Hapatchy

variable {env : Env} {reconciler : Reconciler} {job : Job} {w w' : World}

/-! ## The parts of a run -/

/-- Steps that edit nothing. -/
def Still : Label → Prop
  | .edit _ => False
  | .unlinkFailed _ => False
  | .replace _ _ => False
  | _ => True

theorem Looks.still {l : Label} (h : Looks l) : Still l := by
  cases l <;> trivial

/-- The backup of `_replace`. -/
def backupFor (env : Env) (job : Job) (snapshot : Snapshot) (output : Bytes) (sourceSha256 : Text) :
    Option (Io Unit) :=
  if backupRequired job then some (do
    let _ ← job.manager.create env snapshot job.definition.targetPath output sourceSha256 job.operation)
  else none

/-- What the attempts keep to, the run keeps to. -/
theorem runs_run_of_attempt {S : World → World → Prop} {pendingDurability : Bool}
    (hrecord : ∀ {f}, Runs S (record f)) (hattempt : Runs S (attempt env reconciler job)) :
    Runs S (run env reconciler job pendingDurability) := by
  have hresult : ∀ {inspection error}, Runs S (result inspection error) :=
    runs_bind runs_read fun _ => runs_pure
  have hreport : ∀ {retry : Option (Io ReconcileResult)}, (∀ again ∈ retry, Runs S again) →
      ∀ e, Runs S (report retry e) := by
    intro retry hretry e
    refine runs_bind runs_read fun w => ?_
    split
    · refine runs_ite (fun _ => hresult) fun _ => ?_
      cases retry with
      | none => exact hresult
      | some again => exact runs_ite (fun _ => hretry again rfl) fun _ => hresult
    · split
      · exact hresult
      · exact runs_raise
  have hattempts : ∀ later, Runs S (attempts env reconciler job later) := by
    intro later
    induction later with
    | zero => exact runs_rescue hattempt (hreport fun _ h => by cases h)
    | succ later ih =>
      refine runs_rescue hattempt (hreport fun again h => ?_)
      cases h
      exact ih
  exact runs_bind hrecord fun _ => runs_ite (fun _ => hresult) fun _ => hattempts 2

section Parts

variable {S : World → World → Prop}
  (hstill : ∀ {α : Type} {m : Io α}, Does env Still m → Runs S m)
  (hcommit : ∀ target snapshot output sourceSha256, target.path = job.target →
    Runs S (commit env target snapshot output (backupFor env job snapshot output sourceSha256)
      (reconciler.policy.checkDefinition env job.definition)))
  (hprune : Runs S (job.manager.prune env))

include hstill hcommit

theorem runs_commitOutput {target : GuardedFile} {snapshot : Snapshot} {output : Bytes}
    (htarget : target.path = job.target) :
    Runs S (commitOutput env reconciler job job.manager target snapshot output) := by
  refine runs_bind runs_read fun w => runs_rescue ?_ fun e =>
    hstill (does_commitFailed trivial trivial)
  exact hcommit target snapshot output w.progress.sourceSha256 htarget

include hprune

theorem runs_inspectAndReplace {parsed : PatchEngine.ParsedPatch} {target : GuardedFile}
    (htarget : target.path = job.target) :
    Runs S (inspectAndReplace env reconciler job parsed target) := by
  have hresult : ∀ {inspection error}, Runs S (result inspection error) :=
    runs_bind runs_read fun _ => runs_pure
  have hrecord : ∀ {f}, Runs S (record f) := hstill (does_record trivial)
  have hread : Runs S (readTarget env target) := by
    refine hstill (runs_bind (does_guardedRead trivial) fun _ =>
      runs_bind (does_record trivial) fun _ => runs_bind runs_read fun w => ?_)
    exact runs_ite (fun _ => runs_bind (does_confirmDurability trivial trivial trivial) fun _ =>
      runs_bind (does_record trivial) fun _ => runs_pure) fun _ => runs_pure
  refine runs_bind hread fun snapshot => runs_ite (fun _ => hresult) fun _ => ?_
  cases outputForAction job.definition (PatchEngine.inspect parsed snapshot.data) job.action with
  | none => exact hresult
  | some output =>
    refine runs_bind_of runs_lift fun manager t t' hmake => ?_
    obtain ⟨hmanager, -⟩ := ofPatch_ok hmake
    obtain rfl := make_ok hmanager
    refine runs_bind (runs_commitOutput hstill hcommit htarget) fun _ => ?_
    refine runs_bind hrecord fun _ => runs_bind (hstill (does_guardedRead trivial)) fun current => ?_
    exact runs_bind hrecord fun _ => runs_bind hprune fun _ => hresult

theorem runs_attempt : Runs S (attempt env reconciler job) := by
  have hcheck : Runs S (reconciler.policy.checkDefinition env job.definition) :=
    hstill (PathPolicy.does_checkDefinition.mono fun _ h => h.looks.still)
  refine runs_bind hcheck fun _ => runs_bind runs_lift fun parsed => ?_
  refine runs_bind_of (hstill (does_guardedEnter trivial)) fun target t t' henter => ?_
  refine runs_ensure (runs_inspectAndReplace hstill hcommit hprune (guardedEnter_ok henter).2) fun _ =>
    hstill (does_guardedExit trivial)

/-- What the commits and the pruning keep to, the run keeps to. -/
theorem runs_run {pendingDurability : Bool} : Runs S (run env reconciler job pendingDurability) :=
  runs_run_of_attempt (hstill (does_record trivial)) (runs_attempt hstill hcommit hprune)

end Parts

/-! ## Checks before replacements -/

def calls (log : List Event) : Nat := log.countP fun
  | .call => true
  | _ => false

@[simp] theorem calls_append (a b : List Event) : calls (a ++ b) = calls a + calls b :=
  List.countP_append

theorem Steps.step {L : Label → Prop} (h : Steps env L w w') :
    ∃ new, w'.log = w.log ++ new ∧ w'.step = w.step + calls new := by
  induction h with
  | refl => exact ⟨[], by simp, rfl⟩
  | @tail w₁ w₂ _ hstep ih =>
    obtain ⟨new, hlog, hcalls⟩ := ih
    obtain ⟨l, -, hstep⟩ := hstep
    have hone : ∃ e, w₂.log = w₁.log ++ e ∧ w₂.step = w₁.step + calls e := by
      cases hstep with
      | call =>
        refine ⟨[.call], arrive_log, ?_⟩
        rw [arrive]
        split <;> rfl
      | verify | record => exact ⟨[], by simp, rfl⟩
      | _ => exact ⟨[_], rfl, rfl⟩
    obtain ⟨e, hlog', hcalls'⟩ := hone
    exact ⟨new ++ e, by rw [hlog', hlog, List.append_assoc], by rw [hcalls', hcalls, calls_append]; omega⟩

/-- The event `r` comes after a check that succeeds, and one call. -/
def CheckedBefore (env : Env) (reconciler : Reconciler) (job : Job) (w : World) (before : List Event)
    (r : Replacement) : Prop :=
  ∃ u v earlier, reconciler.policy.checkDefinition env job.definition u = (.ok (), v) ∧
    u.log = w.log ++ earlier ∧ u.step = w.step + calls earlier ∧
    w.log ++ before = v.log ++ [.call] ∧ r.target = job.target ∧ r.before = (arrive env v).fs

def Guarded (env : Env) (reconciler : Reconciler) (job : Job) (w w' : World) : Prop :=
  ∃ new, w'.log = w.log ++ new ∧ w'.step = w.step + calls new ∧
    ∀ before r after, new = before ++ .replaced r :: after → CheckedBefore env reconciler job w before r

theorem CheckedBefore.of_later {before : List Event} {r : Replacement} {a : List Event}
    (h : CheckedBefore env reconciler job w' before r) (hlog : w'.log = w.log ++ a)
    (hstep : w'.step = w.step + calls a) : CheckedBefore env reconciler job w (a ++ before) r := by
  obtain ⟨u, v, earlier, hcheck, hu, hn, hv, hr⟩ := h
  refine ⟨u, v, a ++ earlier, hcheck, ?_, ?_, ?_, hr⟩
  · rw [hu, hlog, List.append_assoc]
  · rw [hn, hstep, calls_append]
    omega
  · rw [← hv, hlog, List.append_assoc]

theorem Guarded.trans {w'' : World} (h : Guarded env reconciler job w w')
    (h' : Guarded env reconciler job w' w'') : Guarded env reconciler job w w'' := by
  obtain ⟨a, ha, hn, hchecked⟩ := h
  obtain ⟨b, hb, hn', hchecked'⟩ := h'
  refine ⟨a ++ b, by rw [hb, ha, List.append_assoc], by rw [hn', hn, calls_append]; omega,
    fun before r after hsplit => ?_⟩
  rcases List.append_eq_append_iff.mp hsplit with ⟨c, hbefore, hrest⟩ | ⟨c, ha', hrest⟩
  · rw [hbefore]
    exact (hchecked' c r after hrest).of_later ha hn
  · cases c with
    | nil =>
      have hlater := (hchecked' [] r after hrest.symm).of_later ha hn
      rwa [ha', List.append_nil, List.append_nil] at hlater
    | cons e c =>
      rw [List.cons_append, List.cons.injEq] at hrest
      obtain ⟨rfl, -⟩ := hrest
      exact hchecked before r c ha'

theorem guarded_of_steps {L : Label → Prop} (h : Steps env L w w')
    (hL : ∀ source target, ¬ L (.replace source target)) : Guarded env reconciler job w w' := by
  obtain ⟨new, hlog, hnone⟩ := h.unreplaced hL
  obtain ⟨new', hlog', hstep⟩ := h.step
  obtain rfl : new = new' := List.append_cancel_left (hlog.symm.trans hlog')
  refine ⟨new, hlog, hstep, fun before r after hsplit => ?_⟩
  have hmem : r ∈ replacements new := by
    rw [mem_replacements, hsplit]
    exact List.mem_append_right _ List.mem_cons_self
  rw [hnone] at hmem
  cases hmem

theorem Does.guarded {α : Type} {m : Io α} {L : Label → Prop} (h : Does env L m)
    (hL : ∀ source target, ¬ L (.replace source target)) : Runs (Guarded env reconciler job) m :=
  fun w => .single (guarded_of_steps (h w) hL)

/-- A replacement that comes last is the only one, if there is none before it. -/
theorem last_replaced {a before after : List Event} {r r' : Replacement}
    (hnone : replacements a = []) (h : a ++ [.replaced r'] = before ++ .replaced r :: after) :
    before = a ∧ r = r' := by
  rcases List.append_eq_append_iff.mp h with ⟨c, hbefore, hrest⟩ | ⟨c, ha, hrest⟩
  · cases c with
    | nil =>
      cases hrest
      exact ⟨by rw [hbefore, List.append_nil], rfl⟩
    | cons e c =>
      have hlength := congrArg List.length hrest
      simp at hlength
  · cases c with
    | nil =>
      cases hrest
      exact ⟨by rw [ha, List.append_nil], rfl⟩
    | cons e c =>
      rw [List.cons_append, List.cons.injEq] at hrest
      obtain ⟨rfl, -⟩ := hrest
      have hmem : r ∈ replacements a := by
        rw [mem_replacements, ha]
        exact List.mem_append_right _ List.mem_cons_self
      rw [hnone] at hmem
      cases hmem

/-- The last part of `prepare` is its check. -/
theorem prepare_checked {target : GuardedFile} {snapshot : Snapshot} {output : Bytes}
    {beforeReplace : Option (Io Unit)} {beforeCommit : Io Unit} {temp : Handle} {u : Unit}
    (hbefore : ∀ before ∈ beforeReplace, Does env Plain before)
    (h : prepare env target snapshot output beforeReplace beforeCommit temp w = (.ok u, w')) :
    ∃ t, Steps env Plain w t ∧ beforeCommit t = (.ok u, w') := by
  obtain ⟨_, t₁, hfill, h⟩ := bind_ok_iff.mp h
  have hfilled : Steps env Plain w t₁ := (does_fillTemp trivial trivial trivial).of_eq hfill
  have hlast : ∀ {t}, Steps env Plain w t →
      (target.verifySnapshot env snapshot >>= fun _ => beforeCommit) t = (.ok u, w') →
      ∃ t, Steps env Plain w t ∧ beforeCommit t = (.ok u, w') := by
    intro t hsteps hrest
    obtain ⟨_, t', hverify, hcheck⟩ := bind_ok_iff.mp hrest
    exact ⟨t', hsteps.trans ((does_verifySnapshot (L := Plain) trivial trivial).of_eq hverify), hcheck⟩
  cases hsome : beforeReplace with
  | none =>
    rw [hsome] at h
    exact hlast hfilled h
  | some before =>
    rw [hsome] at h
    obtain ⟨_, t₂, hbackup, h⟩ := bind_ok_iff.mp h
    have hdoes : Does env Plain (backupOrFail before) :=
      runs_rescue (hbefore before (by rw [hsome]; rfl)) fun e => by cases e <;> exact runs_raise
    exact hlast (hfilled.trans (hdoes.of_eq hbackup)) h

theorem guards_commit {target : GuardedFile} {snapshot : Snapshot} {output : Bytes}
    {beforeReplace : Option (Io Unit)} (htarget : target.path = job.target)
    (hbefore : ∀ before ∈ beforeReplace, Does env Plain before) :
    Runs (Guarded env reconciler job) (commit env target snapshot output beforeReplace
      (reconciler.policy.checkDefinition env job.definition)) := by
  have hplain : ∀ {α : Type} {m : Io α}, Does env Plain m → Runs (Guarded env reconciler job) m :=
    fun h => h.guarded fun _ _ => id
  have hcheck : Does env Plain (reconciler.policy.checkDefinition env job.definition) :=
    PathPolicy.does_checkDefinition.mono fun _ h => h.looks.plain
  refine runs_bind runs_read fun w => runs_bind (hplain (does_commitErrorOnOs
    (does_verifySnapshot trivial trivial))) fun _ => ?_
  refine runs_bind (hplain (does_rescueOs (does_createExclusive trivial trivial) fun _ => runs_raise))
    fun temp => ?_
  have hunlinks : Does env Plain (unlinkTemp env (target.parent ++ [tempName (env.uuid w.step)])) :=
    does_rescueOs (does_unlink trivial trivial trivial) fun e => by
      cases e <;> first | exact runs_pure | exact runs_raise
  refine runs_bind (runs_rescue (runs_rescue ?_ fun e => ?_) fun e =>
    runs_bind (hplain hunlinks) fun _ => runs_raise) fun _ =>
      hplain (does_commitErrorOnOs (does_fsync trivial trivial))
  · -- Only here can a replacement be added to the log.
    intro t
    refine .single ?_
    have hprepares : Does env Plain (prepare env target snapshot output beforeReplace
        (reconciler.policy.checkDefinition env job.definition) temp) :=
      does_prepare trivial trivial ⟨trivial, trivial⟩ hbefore hcheck
    rcases hrun : (do
        prepare env target snapshot output beforeReplace
          (reconciler.policy.checkDefinition env job.definition) temp
        replace env (target.parent ++ [tempName (env.uuid w.step)]) target.path : Io Unit) t with
      ⟨out, t'⟩
    rcases bind_eq_iff.mp hrun with ⟨e, hprepare, -⟩ | ⟨_, v, hprepare, hreplace⟩
    · exact guarded_of_steps (hprepares.of_eq hprepare) fun _ _ => id
    have hprepared := hprepares.of_eq hprepare
    obtain ⟨new, hlog, hnone⟩ := Steps.plain hprepared
    obtain ⟨u, hsteps, hchecked⟩ := prepare_checked hbefore hprepare
    cases out with
    | error e =>
      rw [replace_error hreplace]
      exact guarded_of_steps (hprepared.tail ⟨.call, trivial, .call v⟩) fun _ _ => id
    | ok _ =>
      obtain ⟨node, -, rfl⟩ := replace_ok hreplace
      obtain ⟨new', hlog', hstep⟩ := Steps.step hprepared
      obtain rfl : new = new' := List.append_cancel_left (hlog.symm.trans hlog')
      have hnew : replacements (new ++ [.call]) = [] := by
        rw [replacements_append, hnone]
        rfl
      refine ⟨new ++ [.call] ++ [.replaced ⟨target.path, (arrive env v).fs, node,
        (arrive env v).disturbed⟩], ?_, ?_, fun before r after hsplit => ?_⟩
      · rw [arrive_log, hlog]
        simp only [List.append_assoc]
      · have harrive : (arrive env v).step = v.step + 1 := by
          rw [arrive]
          split <;> rfl
        change (arrive env v).step = _
        rw [harrive, hstep, calls_append, calls_append]
        rfl
      obtain ⟨rfl, rfl⟩ := last_replaced hnew hsplit
      obtain ⟨earlier, hu, hn⟩ := Steps.step hsteps
      exact ⟨u, v, earlier, hchecked, hu, hn, by rw [hlog, List.append_assoc], htarget, rfl⟩
  · cases e <;> exact runs_raise

/-! ## What a run may write -/

/-- The way to the backups of the patch, and what is below them. -/
def AmongBackups (job : Job) (p : Path) : Prop :=
  (p ≠ [] ∧ p <+: job.manager.parts) ∨ job.manager.parts <+: p

theorem AmongBackups.internal {p : Path} (h : AmongBackups job p) : Internal p := by
  rcases h with ⟨hne, hprefix⟩ | hbelow
  · obtain ⟨part, parts, rfl⟩ := List.exists_cons_of_ne_nil hne
    obtain ⟨rest, hrest⟩ := hprefix
    obtain ⟨rfl, -⟩ := List.cons.inj hrest
    exact List.prefix_append [_] parts
  · exact internal_parts.trans hbelow

/-- Steps that only write a temporary file of the target and backups, and only replace the target,
by a temporary file. -/
def Writes (env : Env) (job : Job) : Label → Prop
  | .edit p => Temp env job.target p ∨ AmongBackups job p
  | .replace source target => Temp env job.target source ∧ target = job.target
  | _ => True

theorem Still.writes {l : Label} (h : Still l) : Writes env job l := by
  cases l <;> trivial

theorem does_backupFor {L : Label → Prop} {snapshot : Snapshot} {output : Bytes} {sourceSha256 : Text}
    (hcall : L .call) (hsync : ∀ p, L (.sync p)) (hedit : ∀ p, AmongBackups job p → L (.edit p)) :
    ∀ before ∈ backupFor env job snapshot output sourceSha256, Does env L before := by
  intro before hbefore
  unfold backupFor at hbefore
  split at hbefore <;> cases hbefore
  refine runs_bind (does_create hcall (fun q part h => ⟨hedit _ (Or.inl ⟨?_, h⟩), hsync _⟩) fun q h =>
    ⟨hedit _ (Or.inr h), hsync _⟩) fun _ => runs_pure
  exact List.concat_ne_nil _ _

theorem does_prune_among {L : Label → Prop} (hcall : L .call) (hsync : ∀ p, L (.sync p))
    (hfail : ∀ p, L (.unlinkFailed p)) (hedit : ∀ p, AmongBackups job p → L (.edit p)) :
    Does env L (job.manager.prune env) :=
  does_prune hcall (hsync _) fun _ hq => ⟨hedit _ (Or.inr hq), hfail _⟩

theorem does_commit_writes {target : GuardedFile} {snapshot : Snapshot} {output : Bytes}
    {sourceSha256 : Text} (htarget : target.path = job.target) : Does env (Writes env job)
      (commit env target snapshot output (backupFor env job snapshot output sourceSha256)
        (reconciler.policy.checkDefinition env job.definition)) := by
  have hcheck : Does env (Writes env job) (reconciler.policy.checkDefinition env job.definition) :=
    PathPolicy.does_checkDefinition.mono fun _ h => h.looks.still.writes
  refine runs_bind runs_read fun w => ?_
  have htemp : Temp env job.target (target.parent ++ [tempName (env.uuid w.step)]) :=
    ⟨w.step, by rw [← htarget, GuardedFile.path, List.dropLast_concat]⟩
  refine runs_bind (does_commitErrorOnOs (does_verifySnapshot trivial trivial)) fun _ => ?_
  refine runs_bind_of (does_rescueOs (does_createExclusive trivial (Or.inl htemp)) fun _ => runs_raise)
    fun temp t t' hcreate => ?_
  have hpath : temp.path = target.parent ++ [tempName (env.uuid w.step)] := by
    rcases rescueOs_ok hcreate with hok | ⟨_, _, -, hraise⟩
    · obtain ⟨rfl, -, -⟩ := createExclusive_ok hok
      rfl
    · cases (raise_eq_iff.mp hraise).1
  have hunlinks : Does env (Writes env job)
      (unlinkTemp env (target.parent ++ [tempName (env.uuid w.step)])) :=
    does_rescueOs (does_unlink trivial (Or.inl htemp) trivial) fun e => by
      cases e <;> first | exact runs_pure | exact runs_raise
  refine runs_bind (runs_rescue (does_commitErrorOnOs (runs_bind (does_prepare trivial trivial
    ⟨Or.inl (hpath ▸ htemp), trivial⟩ (does_backupFor trivial (fun _ => trivial) fun _ => Or.inr)
    hcheck) fun _ => does_replace trivial ⟨htemp, htarget⟩)) fun e =>
      runs_bind hunlinks fun _ => runs_raise) fun _ =>
    does_commitErrorOnOs (does_fsync trivial trivial)

theorem does_writes {pendingDurability : Bool} :
    Does env (Writes env job) (run env reconciler job pendingDurability) :=
  runs_run (fun h => h.mono fun _ => Still.writes) (fun _ _ _ _ => does_commit_writes)
    (does_prune_among trivial (fun _ => trivial) (fun _ => trivial) fun _ => Or.inr)

/-- A node without the record of its last fsync. -/
def Node.unsynced (node : Node) : Node := { node with synced := none }

/-- Other paths stay as they are, but for what other programs do. -/
theorem Steps.writes_lookup {p : Path} (h : Steps env (Writes env job) w w') (henv : env.Spares p)
    (htarget : p ≠ job.target) (htemp : ¬ Temp env job.target p) (hbackups : ¬ AmongBackups job p) :
    (w'.fs.lookup p).map Node.unsynced = (w.fs.lookup p).map Node.unsynced := by
  induction h with
  | refl => rfl
  | tail _ hstep ih =>
    obtain ⟨l, hl, hstep⟩ := hstep
    rw [← ih]
    cases hstep with
    | call => rw [arrive_lookup henv]
    | edit _ q x =>
      rw [World.edit, Fs.lookup_put_ne]
      rintro rfl
      exact hl.elim htemp hbackups
    | sync w q =>
      by_cases hq : p = q
      · subst hq
        rw [Fs.lookup_put, Option.map_map]
        rfl
      · rw [Fs.lookup_put_ne hq]
    | replace _ source target node =>
      obtain ⟨hsource, rfl⟩ := hl
      rw [Fs.lookup_put_ne htarget, Fs.lookup_put_ne]
      rintro rfl
      exact htemp hsource
    | _ => rfl

/-! ## Runs -/

theorem run_guarded (pendingDurability : Bool) :
    Guarded env reconciler job w (run env reconciler job pendingDurability w).2 := by
  have hsteps : Runs (Guarded env reconciler job) (run env reconciler job pendingDurability) := by
    refine runs_run (fun h => h.guarded fun _ _ => id) (fun target snapshot output sha256 htarget => ?_)
      ((does_prune_among (L := Plain) trivial (fun _ => trivial) (fun _ => trivial) fun _ _ =>
        trivial).guarded fun _ _ => id)
    exact guards_commit htarget (does_backupFor trivial (fun _ => trivial) fun _ _ => trivial)
  have h := hsteps w
  generalize (run env reconciler job pendingDurability w).2 = w' at h
  induction h with
  | refl => exact guarded_of_steps (L := Plain) .refl fun _ _ => id
  | tail _ hstep ih => exact ih.trans hstep

/-- Of every run: right before a replacement, which is of the target, a check of its definition has
succeeded on the frozen grants, the live permission and a fresh scan; and nothing but the target, its
temporary files and the backups of the patch is created, changed or removed. -/
theorem run_authorized (env : Env) (grants : LoadedGrants) (root : Path)
    (scan : Nat → Option SourceGraph) (fromstring : PatchEngine.Fromstring) (job : Job)
    (pendingDurability : Bool) (w : World) :
    let env' := env.withGrants grants scan
    let w' := (run env' ⟨grants.pathPolicy root, fromstring⟩ job pendingDurability w).2
    ∃ new, w'.log = w.log ++ new ∧
      (∀ before r after, new = before ++ .replaced r :: after → r.target = job.target ∧
        ∃ earlier policy, before = earlier ++ [.call, .call, .call, .checked job.definition, .call] ∧
          Authorized env grants root scan job.definition (w.step + calls earlier) policy) ∧
      (∀ p, .changed p ∈ new → Temp env job.target p ∨ AmongBackups job p) ∧
      ∀ p, env.Spares p → p ≠ job.target → ¬ Temp env job.target p → ¬ AmongBackups job p →
        (w'.fs.lookup p).map Node.unsynced = (w.fs.lookup p).map Node.unsynced := by
  intro env' w'
  have hguarded : Guarded env' ⟨grants.pathPolicy root, fromstring⟩ job w w' :=
    run_guarded pendingDurability
  obtain ⟨new, hlog, -, hchecked⟩ := hguarded
  have hwrites : Steps env' (Writes env' job) w w' := does_writes w
  obtain ⟨new', hlog', hall⟩ := hwrites.log
  obtain rfl : new = new' := List.append_cancel_left (hlog.symm.trans hlog')
  refine ⟨new, hlog, fun before r after hsplit => ?_, fun p hp => hall _ hp,
    fun p henv => hwrites.writes_lookup henv⟩
  obtain ⟨u, v, earlier, hcheck, hu, hn, hv, htarget, -⟩ := hchecked before r after hsplit
  obtain ⟨⟨policy, hauthorized⟩, hcalls⟩ := checkDefinition_ok hcheck
  refine ⟨htarget, earlier, policy, ?_, hn ▸ hauthorized⟩
  rw [hcalls, hu, List.append_assoc, List.append_assoc] at hv
  exact List.append_cancel_left hv

end Hapatchy
